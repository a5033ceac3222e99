import SharpGit.GitClient.GitStatusEventArgs
import SharpGit.GitId
import SharpGit.Library.Kept

namespace SharpGit.GitClient

open Library Native Implementation Plumbing

/-- A class of arguments: what its getters make of the native values behind an object, nothing of
a null pointer, and the getters that `Detach(true)` calls, in order. -/
structure EventArgsKind (A K V : Type) where
  text : A → K → Option V
  detached : List K

inductive StatusText
  | relativePath
  | fullPath
  deriving DecidableEq, Repr

def GitStatusEventArgs.text (e : GitStatusEventArgs) : StatusText → NetString
  | .relativePath => e.relativePath
  | .fullPath => e.fullPath

def gitStatusEventArgsKind : EventArgsKind GitStatusEventArgs StatusText NetString :=
  ⟨fun e k => some (e.text k), [.relativePath, .fullPath]⟩

structure GitCheckOutNotifyEventArgs where
  path : Option CStr
  notify : Int
  deriving DecidableEq, Repr

/-- `RelativePath`; the other values are managed. -/
def gitCheckOutNotifyEventArgsKind : EventArgsKind GitCheckOutNotifyEventArgs Unit NetString :=
  ⟨fun e _ => e.path.map utf8PtrToString, [()]⟩

structure GitCheckOutProgressEventArgs where
  path : Option CStr
  completedSteps : Int
  totalSteps : Int
  deriving DecidableEq, Repr

def gitCheckOutProgressEventArgsKind :
    EventArgsKind GitCheckOutProgressEventArgs Unit NetString :=
  ⟨fun e _ => e.path.map utf8PtrToString, [()]⟩

/-- What lies in memory from `_str` on, and the length that libgit2 gives of it. -/
structure GitProgressEventArgs where
  str : Option (List UInt8)
  len : Int
  deriving DecidableEq, Repr

/-- `Text` goes up to the first NUL, whatever the length. -/
def gitProgressEventArgsKind : EventArgsKind GitProgressEventArgs Unit NetString :=
  ⟨fun e _ => e.str.map fun memory => utf8PtrToString (upToNul memory), [()]⟩

structure GitUpdateTipsEventArgs where
  refname : Option CStr
  a : Option GitOid
  b : Option GitOid

/-- `Id1` and `Id2`; false stands for the first. -/
def gitUpdateTipsEventArgsKind : EventArgsKind GitUpdateTipsEventArgs Bool GitOid :=
  ⟨fun e second => if second then e.b else e.a, [false, true]⟩

/-- What managed code does with arguments, during their callback or later. -/
inductive ArgsUse (K : Type)
  | read (o : Nat) (k : K)
  | detach (o : Nat) (keepValues : Bool)

section Callbacks

variable {A K V : Type}

def ArgsUse.event : ArgsUse K → KeptEvent K V
  | read o k => .read o k
  | detach o keepValues => .detach o keepValues

/-- The callbacks of a call: each makes its arguments, hands them to its handlers, which may use
all arguments so far, and detaches them. -/
def callbacks (kind : EventArgsKind A K V) (handlers : Nat → List (ArgsUse K)) :
    Nat → List A → List (KeptEvent K V)
  | _, [] => []
  | n, a :: rest =>
    .enter (kind.text a) :: (handlers n).map ArgsUse.event ++
      .leave n :: callbacks kind handlers (n + 1) rest

/-- The call, and what is done with its arguments behind it. -/
def callEvents (kind : EventArgsKind A K V) (handlers : Nat → List (ArgsUse K)) (reports : List A)
    (later : List (ArgsUse K)) : List (KeptEvent K V) :=
  callbacks kind handlers 0 reports ++ later.map ArgsUse.event

variable [DecidableEq K] {kind : EventArgsKind A K V} {handlers : Nat → List (ArgsUse K)}

omit [DecidableEq K] in
theorem enters_uses (uses : List (ArgsUse K)) :
    (uses.map ArgsUse.event).countP (KeptEvent.enters : KeptEvent K V → Bool) = 0 := by
  rw [List.countP_eq_zero]
  intro event hevent
  obtain ⟨use, -, rfl⟩ := List.mem_map.mp hevent
  cases use <;> exact Bool.false_ne_true

/-- The events of one callback. -/
def callback (kind : EventArgsKind A K V) (uses : List (ArgsUse K)) (n : Nat) (a : A) :
    List (KeptEvent K V) :=
  .enter (kind.text a) :: uses.map ArgsUse.event ++ [.leave n]

/-- Its arguments read its report, and are detached behind it. -/
theorem run_callback (hkeys : ∀ k, k ∈ kind.detached) {s : KeptWorld K V} (hs : s.Sound)
    (uses : List (ArgsUse K)) (a : A) :
    ∃ object, (Events.run (KeptWorld.step kind.detached) s
        (callback kind uses s.objects.length a)).objects[s.objects.length]? = some object ∧
      object.memory = kind.text a ∧ object.attached = false := by
  have hentered := @KeptWorld.step_sound K V _ kind.detached s hkeys hs (.enter (kind.text a))
  have hnew : (s.step kind.detached (.enter (kind.text a))).objects[s.objects.length]? =
      some ⟨true, true, kind.text a, fun _ => none⟩ := List.getElem?_concat_length
  obtain ⟨-, -, hobjects⟩ := @KeptWorld.run_extends K V _ kind.detached _ hkeys hentered
    (uses.map ArgsUse.event)
  obtain ⟨object, hobject, hmemory, -⟩ := hobjects _ _ hnew
  have hrun : Events.run (KeptWorld.step kind.detached) s
      (callback kind uses s.objects.length a) =
        (Events.run (KeptWorld.step kind.detached)
          (s.step kind.detached (.enter (kind.text a))) (uses.map ArgsUse.event)).leave
            kind.detached s.objects.length := by
    rw [callback, Events.run, List.cons_append, List.foldl_cons, List.foldl_append]
    rfl
  rw [hrun, KeptWorld.leave, hobject]
  exact ⟨_, List.getElem?_set_self (List.getElem?_eq_some_iff.mp hobject).1, hmemory, rfl⟩

theorem length_callback (s : KeptWorld K V) (uses : List (ArgsUse K)) (n : Nat) (a : A) :
    (Events.run (KeptWorld.step kind.detached) s (callback kind uses n a)).objects.length =
      s.objects.length + 1 := by
  rw [KeptWorld.run_length, callback, List.countP_append, List.countP_cons, enters_uses]
  rfl

/-- The arguments of all callbacks, behind the call. -/
theorem run_callbacks (hkeys : ∀ k, k ∈ kind.detached) {s : KeptWorld K V} (hs : s.Sound)
    {reports : List A} {i : Nat} {a : A} (ha : reports[i]? = some a) :
    ∃ object, (Events.run (KeptWorld.step kind.detached) s
        (callbacks kind handlers s.objects.length reports)).objects[s.objects.length + i]? =
          some object ∧ object.memory = kind.text a ∧ object.attached = false := by
  induction reports generalizing s i with
  | nil => cases ha
  | cons first reports ih =>
    have hblock : callbacks kind handlers s.objects.length (first :: reports) =
        callback kind (handlers s.objects.length) s.objects.length first ++
          callbacks kind handlers (s.objects.length + 1) reports := by
      rw [callbacks, callback, List.append_assoc, List.singleton_append]
    have hnext := @KeptWorld.run_extends K V _ kind.detached s hkeys hs
      (callback kind (handlers s.objects.length) s.objects.length first)
    have hlength := @length_callback A K V _ kind s (handlers s.objects.length) s.objects.length
      first
    rw [hblock, Events.run, List.foldl_append, ← Events.run, ← Events.run, ← hlength]
    cases i with
    | zero =>
      obtain rfl : first = a := Option.some.inj ha
      obtain ⟨object, hobject, hmemory, hattached⟩ := @run_callback A K V _ kind hkeys s hs
        (handlers s.objects.length) first
      obtain ⟨-, -, hobjects⟩ := @KeptWorld.run_extends K V _ kind.detached _ hkeys hnext.sound
        (callbacks kind handlers (Events.run (KeptWorld.step kind.detached) s
          (callback kind (handlers s.objects.length) s.objects.length first)).objects.length
            reports)
      obtain ⟨now, hnow, hsame, hpoints⟩ := hobjects _ object hobject
      refine ⟨now, hnow, hsame.trans hmemory, ?_⟩
      cases hnowAttached : now.attached with
      | false => rfl
      | true =>
        rw [hpoints hnowAttached] at hattached
        cases hattached
    | succ i =>
      obtain ⟨object, hobject, hrest⟩ := ih hnext.sound ha
      refine ⟨object, ?_, hrest⟩
      rw [hlength, Nat.add_right_comm] at hobject
      rw [hlength]
      exact hobject

/-- Behind a call and whatever is done with its arguments, during it and later: no native memory
has been read behind its callback, and a getter of the `i`-th arguments gives what it makes of the
`i`-th report if it was called, or the values were kept, before the arguments were detached; else
it gives null. -/
def EventArgsKind.KeepsValues (kind : EventArgsKind A K V) : Prop :=
  ∀ (handlers : Nat → List (ArgsUse K)) (reports : List A) (later : List (ArgsUse K)),
    (Events.run (KeptWorld.step kind.detached) KeptWorld.start
      (callEvents kind handlers reports later)).stale = false ∧
    ∀ i a, reports[i]? = some a → ∃ object,
      (Events.run (KeptWorld.step kind.detached) KeptWorld.start
        (callEvents kind handlers reports later)).objects[i]? = some object ∧
      ∀ k, (KeptWorld.HasKept kind.detached (callEvents kind handlers reports later) i k →
          object.get k = kind.text a k) ∧
        (¬KeptWorld.HasKept kind.detached (callEvents kind handlers reports later) i k →
          object.get k = none)

/-- `Detach(true)` has to call every getter. -/
theorem EventArgsKind.keepsValues (kind : EventArgsKind A K V)
    (hkeys : ∀ k, k ∈ kind.detached) : kind.KeepsValues := by
  intro handlers reports later
  refine ⟨(KeptWorld.run_sound hkeys _).fresh, ?_⟩
  intro i a ha
  obtain ⟨object, hobject, hmemory, hattached⟩ := @run_callbacks A K V _ kind handlers hkeys
    KeptWorld.start KeptWorld.sound_start reports i a ha
  obtain ⟨-, -, hobjects⟩ := @KeptWorld.run_extends K V _ kind.detached _ hkeys
    (@KeptWorld.run_sound K V _ kind.detached hkeys (callbacks kind handlers 0 reports))
    (later.map ArgsUse.event)
  have hindex : (KeptWorld.start : KeptWorld K V).objects.length + i = i := Nat.zero_add i
  rw [hindex] at hobject
  obtain ⟨now, hnow, hsame, hpoints⟩ := hobjects i object hobject
  have hrun : Events.run (KeptWorld.step kind.detached) KeptWorld.start
      (callEvents kind handlers reports later) = Events.run (KeptWorld.step kind.detached)
        (Events.run (KeptWorld.step kind.detached) KeptWorld.start
          (callbacks kind handlers 0 reports)) (later.map ArgsUse.event) := List.foldl_append
  rw [← hrun] at hnow
  have hdetached : now.attached = false := by
    cases hnowAttached : now.attached with
    | false => rfl
    | true =>
      rw [hpoints hnowAttached] at hattached
      cases hattached
  refine ⟨now, hnow, ?_⟩
  intro k
  obtain ⟨hgives, hnone⟩ := @KeptWorld.get_run K V _ kind.detached hkeys _ i now hnow k
  rw [hsame, hmemory] at hgives
  exact ⟨fun hkept => hgives (.inr hkept), hnone hdetached⟩

end Callbacks

theorem eventArgs_keepValues :
    gitStatusEventArgsKind.KeepsValues ∧ gitCheckOutNotifyEventArgsKind.KeepsValues ∧
      gitCheckOutProgressEventArgsKind.KeepsValues ∧ gitProgressEventArgsKind.KeepsValues ∧
      gitUpdateTipsEventArgsKind.KeepsValues := by
  refine ⟨gitStatusEventArgsKind.keepsValues ?_, gitCheckOutNotifyEventArgsKind.keepsValues ?_,
    gitCheckOutProgressEventArgsKind.keepsValues ?_, gitProgressEventArgsKind.keepsValues ?_,
    gitUpdateTipsEventArgsKind.keepsValues ?_⟩
  · intro k
    cases k <;> decide
  · exact fun _ => List.mem_singleton.mpr rfl
  · exact fun _ => List.mem_singleton.mpr rfl
  · exact fun _ => List.mem_singleton.mpr rfl
  · intro k
    cases k <;> decide

end SharpGit.GitClient
