import SharpGit.Library.Runs
import Mathlib.Data.List.Infix

namespace SharpGit.Implementation

open Library

inductive Initializer
  | aprInitialize
  | svnPoolCreate
  | aprPoolAllocatorGet
  | aprAllocatorMaxFreeSet
  | svnUtfInitialize2
  | gitLibgit2Init
  | gitOpensslSetLocking
  deriving DecidableEq, Repr

/-- The calls of the initialization block; `allocator` is what `apr_pool_allocator_get` gives. -/
def initializers (allocator : Bool) : List Initializer :=
  [.aprInitialize, .svnPoolCreate, .aprPoolAllocatorGet] ++
    (if allocator then [.aprAllocatorMaxFreeSet] else []) ++
    [.svnUtfInitialize2, .gitLibgit2Init, .gitOpensslSetLocking]

namespace EnsureInitialized

/-- Where a thread is; `returned` is after its last call. -/
inductive Place
  | outside
  | interlockedCompareExchange
  | compare (old : Int)
  | monitorEnter
  | testInitialized
  | setInitialized
  | initializing (left : List Initializer)
  | assert (v : Int)
  | monitorExit
  | returned
  deriving DecidableEq, Repr

/-- The static variables, with how often the block was entered and the native calls made. -/
structure Statics (ι : Type) where
  ensurer : Int
  aprInitialized : Bool
  ensurerLock : Option ι
  entered : Nat
  made : List Initializer
  deriving DecidableEq, Repr

variable {ι : Type} (allocator : Bool)

def turn [DecidableEq ι] (i : ι) (s : Statics ι) : Place → Option (Statics ι × Place)
  | .outside => some (s, .interlockedCompareExchange)
  | .interlockedCompareExchange =>
    some ({ s with ensurer := if s.ensurer = 0 then 1 else s.ensurer }, .compare s.ensurer)
  | .compare old => some (s, if old < 2 then .monitorEnter else .returned)
  | .monitorEnter =>
    if s.ensurerLock = none then some ({ s with ensurerLock := some i }, .testInitialized)
    else none
  | .testInitialized => some (s, if s.aprInitialized then .monitorExit else .setInitialized)
  | .setInitialized =>
    some ({ s with aprInitialized := true, entered := s.entered + 1 },
      .initializing (initializers allocator))
  | .initializing (call :: left) => some ({ s with made := s.made ++ [call] }, .initializing left)
  -- The interlocked exchange at the end of the block.
  | .initializing [] => some ({ s with ensurer := 2 }, .assert s.ensurer)
  | .assert _ => some (s, .monitorExit)
  | .monitorExit => some ({ s with ensurerLock := none }, .returned)
  | .returned => some (s, .interlockedCompareExchange)

def start : Interleaving ι (Statics ι) Place where
  shared := ⟨0, false, none, 0, []⟩
  place _ := .outside

/-- The initialization block has finished. -/
def Finished (s : Statics ι) : Prop := s.made = initializers allocator

/-- What the callers rely on. -/
structure Safe (s : Interleaving ι (Statics ι) Place) : Prop where
  once : s.shared.entered ≤ 1 ∧ s.shared.made <+: initializers allocator
  returned : ∀ i, s.place i = .returned → Finished allocator s.shared
  observed : s.shared.ensurer = 2 → Finished allocator s.shared
  asserted : ∀ i v, s.place i = .assert v → v = 1

/-- How flag, boolean and lock fit together. -/
structure Consistent (s : Statics ι) : Prop where
  range : 0 ≤ s.ensurer
  fresh : s.aprInitialized = false → s.ensurer < 2 ∧ s.entered = 0 ∧ s.made = []
  entered : s.aprInitialized = true → s.entered = 1 ∧ s.made <+: initializers allocator
  finished : 2 ≤ s.ensurer → Finished allocator s
  unlocked : s.aprInitialized = true → s.ensurerLock = none → Finished allocator s

/-- What a thread knows at its place. -/
def Knows (i : ι) (s : Statics ι) : Place → Prop
  | .outside => s.ensurerLock ≠ some i
  | .interlockedCompareExchange => s.ensurerLock ≠ some i
  | .compare old => s.ensurerLock ≠ some i ∧ s.ensurer ≠ 0 ∧ (2 ≤ old → Finished allocator s)
  | .monitorEnter => s.ensurerLock ≠ some i ∧ s.ensurer ≠ 0
  | .testInitialized => s.ensurerLock = some i ∧ s.ensurer ≠ 0 ∧
      (s.aprInitialized = true → Finished allocator s)
  | .setInitialized => s.ensurerLock = some i ∧ s.ensurer ≠ 0 ∧ s.aprInitialized = false
  | .initializing left => s.ensurerLock = some i ∧ s.ensurer = 1 ∧ s.aprInitialized = true ∧
      s.made ++ left = initializers allocator
  | .assert v => s.ensurerLock = some i ∧ Finished allocator s ∧ v = 1
  | .monitorExit => s.ensurerLock = some i ∧ Finished allocator s
  | .returned => s.ensurerLock ≠ some i ∧ Finished allocator s

/-- What a thread leaves to the others: the flag does not fall back, what is finished stays so,
and what another thread has locked is left alone. -/
structure Grants (i : ι) (s s' : Statics ι) : Prop where
  ensurer : s.ensurer ≠ 0 → s'.ensurer ≠ 0
  finished : Finished allocator s → Finished allocator s'
  outside : ∀ j, j ≠ i → s.ensurerLock ≠ some j → s'.ensurerLock ≠ some j
  locked : ∀ j, j ≠ i → s.ensurerLock = some j → s'.ensurerLock = some j ∧
    s'.aprInitialized = s.aprInitialized ∧ s'.made = s.made ∧
      (s.ensurer ≠ 0 → s'.ensurer = s.ensurer)

variable {allocator}

theorem Grants.refl (i : ι) (s : Statics ι) : Grants allocator i s s where
  ensurer h := h
  finished h := h
  outside _ _ h := h
  locked _ _ h := ⟨h, rfl, rfl, fun _ => rfl⟩

/-- A turn of the thread that has the lock. -/
theorem Grants.of_locked {i : ι} {s s' : Statics ι} (hlock : s.ensurerLock = some i)
    (hlock' : s'.ensurerLock = some i ∨ s'.ensurerLock = none)
    (hensurer : s.ensurer ≠ 0 → s'.ensurer ≠ 0)
    (hfinished : Finished allocator s → Finished allocator s') : Grants allocator i s s' where
  ensurer := hensurer
  finished := hfinished
  outside j hj _ := by
    obtain h | h := hlock'
    · rw [h]
      exact fun h => hj (Option.some.inj h).symm
    · rw [h]
      exact Option.some_ne_none j |>.symm
  locked j hj h := absurd (Option.some.inj (h.symm.trans hlock)) hj

theorem Knows.stable {i j : ι} {s s' : Statics ι} (hj : j ≠ i) (h : Grants allocator i s s')
    {place : Place} (hknows : Knows allocator j s place) : Knows allocator j s' place := by
  cases place with
  | outside => exact h.outside j hj hknows
  | interlockedCompareExchange => exact h.outside j hj hknows
  | compare old =>
    obtain ⟨hlock, hensurer, hold⟩ := hknows
    exact ⟨h.outside j hj hlock, h.ensurer hensurer, fun hle => h.finished (hold hle)⟩
  | monitorEnter =>
    obtain ⟨hlock, hensurer⟩ := hknows
    exact ⟨h.outside j hj hlock, h.ensurer hensurer⟩
  | testInitialized =>
    obtain ⟨hlock, hensurer, hinit⟩ := hknows
    obtain ⟨hlock', hsame, _⟩ := h.locked j hj hlock
    rw [← hsame] at hinit
    exact ⟨hlock', h.ensurer hensurer, fun htrue => h.finished (hinit htrue)⟩
  | setInitialized =>
    obtain ⟨hlock, hensurer, hinit⟩ := hknows
    obtain ⟨hlock', hsame, _⟩ := h.locked j hj hlock
    exact ⟨hlock', h.ensurer hensurer, hsame.trans hinit⟩
  | initializing left =>
    obtain ⟨hlock, hensurer, hinit, hmade⟩ := hknows
    obtain ⟨hlock', hsame, hmade', hensurer'⟩ := h.locked j hj hlock
    have hne : s.ensurer ≠ 0 := by
      rw [hensurer]
      decide
    refine ⟨hlock', (hensurer' hne).trans hensurer, hsame.trans hinit, ?_⟩
    rw [hmade', hmade]
  | assert v =>
    obtain ⟨hlock, hfinished, hv⟩ := hknows
    exact ⟨(h.locked j hj hlock).1, h.finished hfinished, hv⟩
  | monitorExit =>
    obtain ⟨hlock, hfinished⟩ := hknows
    exact ⟨(h.locked j hj hlock).1, h.finished hfinished⟩
  | returned =>
    obtain ⟨hlock, hfinished⟩ := hknows
    exact ⟨h.outside j hj hlock, h.finished hfinished⟩

section Turns

variable {i : ι} {s : Statics ι} (h : Consistent allocator s)

include h

/-- The first compare-exchange sets the flag. -/
theorem Consistent.setFlag (hzero : s.ensurer = 0) :
    Consistent allocator { s with ensurer := 1 } ∧
      Grants allocator i s { s with ensurer := 1 } := by
  constructor
  · refine ⟨?_, ?_, h.entered, ?_, h.unlocked⟩
    · show (0 : Int) ≤ 1
      decide
    · intro hfalse
      exact ⟨(by decide : (1 : Int) < 2), (h.fresh hfalse).2⟩
    · intro hle
      exact absurd hle (by decide : ¬(2 : Int) ≤ 1)
  · refine ⟨?_, id, fun _ _ => id, ?_⟩
    · intro hne
      exact absurd hzero hne
    · intro _ _ hlock
      exact ⟨hlock, rfl, rfl, fun hne => absurd hzero hne⟩

theorem Consistent.lock (hfree : s.ensurerLock = none) :
    Consistent allocator { s with ensurerLock := some i } ∧
      Grants allocator i s { s with ensurerLock := some i } := by
  constructor
  · refine ⟨h.range, h.fresh, h.entered, h.finished, ?_⟩
    intro _ hlock
    cases hlock
  · refine ⟨id, id, ?_, ?_⟩
    · intro j hj _ hlock
      exact hj (Option.some.inj hlock).symm
    · intro j _ hlock
      exact absurd (hfree.symm.trans hlock) (Option.some_ne_none j).symm

theorem Consistent.enter (hlock : s.ensurerLock = some i) (hinit : s.aprInitialized = false) :
    Consistent allocator { s with aprInitialized := true, entered := s.entered + 1 } := by
  obtain ⟨_, hentered, hmade⟩ := h.fresh hinit
  refine ⟨h.range, ?_, ?_, h.finished, ?_⟩
  · intro hfalse
    cases hfalse
  · intro _
    refine ⟨congrArg (· + 1) hentered, ?_⟩
    show s.made <+: initializers allocator
    rw [hmade]
    exact List.nil_prefix
  · intro _ hfree
    exact absurd (hlock.symm.trans hfree) (Option.some_ne_none i)

theorem Consistent.call (hlock : s.ensurerLock = some i) (hinit : s.aprInitialized = true)
    (hunfinished : ¬Finished allocator s) {call : Initializer} {left : List Initializer}
    (hmade : s.made ++ [call] ++ left = initializers allocator) :
    Consistent allocator { s with made := s.made ++ [call] } := by
  refine ⟨h.range, ?_, ?_, ?_, ?_⟩
  · intro hfalse
    exact absurd (hinit.symm.trans hfalse) (by decide)
  · intro _
    exact ⟨(h.entered hinit).1, left, hmade⟩
  · intro hle
    exact absurd (h.finished hle) hunfinished
  · intro _ hfree
    exact absurd (hlock.symm.trans hfree) (Option.some_ne_none i)

/-- The interlocked exchange, behind the last call. -/
theorem Consistent.exchange (hinit : s.aprInitialized = true)
    (hfinished : Finished allocator s) : Consistent allocator { s with ensurer := 2 } := by
  refine ⟨?_, ?_, h.entered, fun _ => hfinished, h.unlocked⟩
  · show (0 : Int) ≤ 2
    decide
  · intro hfalse
    exact absurd (hinit.symm.trans hfalse) (by decide)

theorem Consistent.unlock (hfinished : Finished allocator s) :
    Consistent allocator ({ s with ensurerLock := none } : Statics ι) :=
  ⟨h.range, h.fresh, h.entered, h.finished, fun _ _ => hfinished⟩

end Turns

/-- A call of the block, with calls left: the block has not finished before it. -/
theorem Consistent.next_call {i : ι} {s : Statics ι} {call : Initializer} {left : List Initializer}
    (h : Consistent allocator s) (hlock : s.ensurerLock = some i) (hensurer : s.ensurer = 1)
    (hinit : s.aprInitialized = true) (hmade : s.made ++ call :: left = initializers allocator) :
    Consistent allocator { s with made := s.made ++ [call] } ∧
      Knows allocator i { s with made := s.made ++ [call] } (.initializing left) ∧
      Grants allocator i s { s with made := s.made ++ [call] } := by
  have hunfinished : ¬Finished allocator s := by
    intro hfinished
    have hlength := congrArg List.length (hmade.trans hfinished.symm)
    rw [List.length_append, List.length_cons] at hlength
    omega
  have hmade' : s.made ++ [call] ++ left = initializers allocator := by
    rw [List.append_assoc]
    exact hmade
  refine ⟨h.call hlock hinit hunfinished hmade', ⟨hlock, hensurer, hinit, hmade'⟩, ?_⟩
  exact Grants.of_locked hlock (.inl hlock) id fun hfinished => absurd hfinished hunfinished

/-- One turn keeps the invariant, and leaves to the others what they rely on. -/
theorem turn_keeps [DecidableEq ι] {i : ι} {s s' : Statics ι} {place place' : Place}
    (hturn : turn allocator i s place = some (s', place')) (h : Consistent allocator s)
    (hknows : Knows allocator i s place) :
    Consistent allocator s' ∧ Knows allocator i s' place' ∧ Grants allocator i s s' := by
  cases place with
  | outside =>
    obtain ⟨rfl, rfl⟩ := Prod.mk.inj (Option.some.inj hturn)
    exact ⟨h, hknows, Grants.refl i s⟩
  | interlockedCompareExchange =>
    obtain ⟨rfl, rfl⟩ := Prod.mk.inj (Option.some.inj hturn)
    by_cases hzero : s.ensurer = 0
    · rw [if_pos hzero, hzero]
      obtain ⟨hset, hgrants⟩ := h.setFlag hzero
      refine ⟨hset, ⟨hknows, ?_, ?_⟩, hgrants⟩
      · show (1 : Int) ≠ 0
        decide
      · intro hle
        exact absurd hle (by decide : ¬(2 : Int) ≤ 0)
    · rw [if_neg hzero]
      exact ⟨h, ⟨hknows, hzero, h.finished⟩, Grants.refl i s⟩
  | compare old =>
    obtain ⟨hlock, hensurer, hold⟩ := hknows
    obtain ⟨rfl, rfl⟩ := Prod.mk.inj (Option.some.inj hturn)
    refine ⟨h, ?_, Grants.refl i s⟩
    split
    · exact ⟨hlock, hensurer⟩
    · exact ⟨hlock, hold (by omega)⟩
  | monitorEnter =>
    obtain ⟨_, hensurer⟩ := hknows
    rw [turn] at hturn
    split at hturn
    · rename_i hfree
      obtain ⟨rfl, rfl⟩ := Prod.mk.inj (Option.some.inj hturn)
      obtain ⟨hlocked, hgrants⟩ := h.lock hfree
      exact ⟨hlocked, ⟨rfl, hensurer, fun hinit => h.unlocked hinit hfree⟩, hgrants⟩
    · cases hturn
  | testInitialized =>
    obtain ⟨hlock, hensurer, hinit⟩ := hknows
    obtain ⟨rfl, rfl⟩ := Prod.mk.inj (Option.some.inj hturn)
    refine ⟨h, ?_, Grants.refl i s⟩
    split
    · rename_i htrue
      exact ⟨hlock, hinit htrue⟩
    · rename_i hfalse
      exact ⟨hlock, hensurer, eq_false_of_ne_true hfalse⟩
  | setInitialized =>
    obtain ⟨hlock, hensurer, hinit⟩ := hknows
    obtain ⟨rfl, rfl⟩ := Prod.mk.inj (Option.some.inj hturn)
    obtain ⟨hlt, _, hmade⟩ := h.fresh hinit
    have hrange := h.range
    have hone : s.ensurer = 1 := by omega
    refine ⟨h.enter hlock hinit, ⟨hlock, hone, rfl, ?_⟩, Grants.of_locked hlock (.inl hlock) id id⟩
    show s.made ++ initializers allocator = initializers allocator
    rw [hmade, List.nil_append]
  | initializing left =>
    obtain ⟨hlock, hensurer, hinit, hmade⟩ := hknows
    cases left with
    | nil =>
      have hfinished : Finished allocator s := by rwa [List.append_nil] at hmade
      have htwo : (2 : Int) ≠ 0 := by decide
      obtain ⟨rfl, rfl⟩ := Prod.mk.inj (Option.some.inj hturn)
      exact ⟨h.exchange hinit hfinished, ⟨hlock, hfinished, hensurer⟩,
        Grants.of_locked hlock (.inl hlock) (fun _ => htwo) id⟩
    | cons call left =>
      obtain ⟨rfl, rfl⟩ := Prod.mk.inj (Option.some.inj hturn)
      exact h.next_call hlock hensurer hinit hmade
  | assert v =>
    obtain ⟨hlock, hfinished, _⟩ := hknows
    obtain ⟨rfl, rfl⟩ := Prod.mk.inj (Option.some.inj hturn)
    exact ⟨h, ⟨hlock, hfinished⟩, Grants.refl i s⟩
  | monitorExit =>
    obtain ⟨hlock, hfinished⟩ := hknows
    obtain ⟨rfl, rfl⟩ := Prod.mk.inj (Option.some.inj hturn)
    exact ⟨h.unlock hfinished, ⟨(Option.some_ne_none i).symm, hfinished⟩,
      Grants.of_locked hlock (.inr rfl) id id⟩
  | returned =>
    obtain ⟨rfl, rfl⟩ := Prod.mk.inj (Option.some.inj hturn)
    exact ⟨h, hknows.1, Grants.refl i s⟩

theorem relyGuarantee [DecidableEq ι] (allocator : Bool) :
    Interleaving.RelyGuarantee (turn allocator) (Consistent allocator)
      (Knows (ι := ι) allocator) (Grants allocator) where
  turns _ _ _ _ _ hturn h hknows := turn_keeps hturn h hknows
  stable _ _ _ _ _ hj h hknows := hknows.stable hj h

/-- Whatever turns the threads take, the block runs once and nobody gets past it before its end. -/
theorem ensureInitialized_safe [DecidableEq ι] (allocator : Bool) (schedule : List ι)
    (s : Interleaving ι (Statics ι) Place)
    (hrun : Interleaving.run (turn allocator) schedule start = some s) : Safe allocator s := by
  have hstart : Consistent allocator (start (ι := ι)).shared := by
    refine ⟨Int.le_refl 0, ?_, ?_, ?_, ?_⟩
    · intro _
      exact ⟨(by decide : (0 : Int) < 2), rfl, rfl⟩
    · intro htrue
      cases htrue
    · intro hle
      exact absurd hle (by decide : ¬(2 : Int) ≤ 0)
    · intro htrue
      cases htrue
  have houtside : ∀ i, Knows allocator i (start (ι := ι)).shared .outside :=
    fun i => (Option.some_ne_none i).symm
  obtain ⟨h, hknows⟩ := (relyGuarantee allocator).run hrun hstart houtside
  refine ⟨?_, ?_, ?_, ?_⟩
  · cases hinit : s.shared.aprInitialized with
    | false =>
      obtain ⟨_, hentered, hmade⟩ := h.fresh hinit
      rw [hentered, hmade]
      exact ⟨Nat.zero_le 1, List.nil_prefix⟩
    | true =>
      obtain ⟨hentered, hmade⟩ := h.entered hinit
      exact ⟨Nat.le_of_eq hentered, hmade⟩
  · intro i hplace
    have hi := hknows i
    rw [hplace] at hi
    exact hi.2
  · intro htwo
    exact h.finished (Int.le_of_eq htwo.symm)
  · intro i v hplace
    have hi := hknows i
    rw [hplace] at hi
    exact hi.2.2

/-- One thread initializes while the other waits for the lock, with nothing left to do. -/
def exampleSchedule : List Bool :=
  [false, true, false, true, false, true] ++ List.replicate 13 false ++ List.replicate 3 true

theorem ensureInitialized_example :
    ∃ s, Interleaving.run (turn true) exampleSchedule start = some s ∧
      (s.place false, s.place true) = (.returned, .returned) ∧ Safe true s := by
  have hreturned : (Interleaving.run (turn true) exampleSchedule start).map
      (fun s => (s.place false, s.place true)) = some (.returned, .returned) := by decide
  obtain ⟨s, hrun, hplaces⟩ := Option.map_eq_some_iff.mp hreturned
  exact ⟨s, hrun, hplaces, ensureInitialized_safe true exampleSchedule s hrun⟩

end EnsureInitialized

end SharpGit.Implementation
