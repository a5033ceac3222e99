import Mathlib.Logic.Function.Basic
import SharpGit.Library.Runs
import SharpGit.Plumbing.IndexApi

namespace SharpGit.Plumbing

open Library

/-- A `GitCommit`, with the object that its `Ancestor` has found. -/
structure CommitObject where
  id : Oid
  ancestor : Option Nat
  disposed : Bool
  deriving DecidableEq, Repr

structure AncestorWalker where
  root : Nat
  startSelf : Bool
  current : Option Nat
  started : Bool
  deriving DecidableEq, Repr

/-- The commits and walkers of an open repository made so far; both are references. -/
structure Walks where
  nextCommit : Nat
  commits : Nat → Option CommitObject
  nextWalker : Nat
  walkers : Nat → Option AncestorWalker

inductive WalkEvent
  | ancestor (c : Nat)
  | ancestors (c : Nat) (startSelf : Bool)
  | getEnumerator (w : Nat)
  | moveNext (w : Nat)
  | reset (w : Nat)
  | dispose (c : Nat)
  deriving DecidableEq, Repr

namespace Walks

-- `git_commit_parent` of the first parent, where there is one.
variable (parent : Oid → Option Oid)

def setCommit (s : Walks) (c : Nat) (o : CommitObject) : Walks :=
  { s with commits := Function.update s.commits c (some o) }

def setWalker (s : Walks) (w : Nat) (it : AncestorWalker) : Walks :=
  { s with walkers := Function.update s.walkers w (some it) }

def addCommit (s : Walks) (o : CommitObject) : Walks :=
  { s with
    nextCommit := s.nextCommit + 1
    commits := Function.update s.commits s.nextCommit (some o) }

def addWalker (s : Walks) (it : AncestorWalker) : Walks :=
  { s with
    nextWalker := s.nextWalker + 1
    walkers := Function.update s.walkers s.nextWalker (some it) }

@[simp] theorem setCommit_commits (s : Walks) (c : Nat) (o : CommitObject) :
    (s.setCommit c o).commits = Function.update s.commits c (some o) := rfl

@[simp] theorem setWalker_walkers (s : Walks) (w : Nat) (it : AncestorWalker) :
    (s.setWalker w it).walkers = Function.update s.walkers w (some it) := rfl

@[simp] theorem addCommit_commits (s : Walks) (o : CommitObject) :
    (s.addCommit o).commits = Function.update s.commits s.nextCommit (some o) := rfl

@[simp] theorem addWalker_walkers (s : Walks) (it : AncestorWalker) :
    (s.addWalker it).walkers = Function.update s.walkers s.nextWalker (some it) := rfl

/-- `Ancestor`. -/
def ancestor (s : Walks) (c : Nat) : Option Nat × Walks :=
  match s.commits c with
  | none => (none, s)
  | some o =>
    if o.ancestor.isNone && !o.disposed then
      match parent o.id with
      | none => (none, s)
      | some id =>
        (some s.nextCommit,
          (s.addCommit ⟨id, none, false⟩).setCommit c { o with ancestor := some s.nextCommit })
    else (o.ancestor, s)

/-- `MoveNext` of a walker there is. -/
def moveNext (s : Walks) (w : Nat) (it : AncestorWalker) : Bool × Walks :=
  if !it.started then
    if it.startSelf then
      (true, s.setWalker w { it with current := some it.root, started := true })
    else
      let (current, s) := s.ancestor parent it.root
      (current.isSome, s.setWalker w { it with current := current, started := true })
  else
    match it.current with
    | none => (false, s)
    | some c =>
      let (current, s) := s.ancestor parent c
      (current.isSome, s.setWalker w { it with current := current })

def reset (s : Walks) (w : Nat) (it : AncestorWalker) : Walks :=
  s.setWalker w { it with started := false, current := none }

/-- The property `Current`. -/
def shown (s : Walks) (w : Nat) : Option Nat :=
  (s.walkers w).bind fun it => if !it.started then none else it.current

def perform (s : Walks) : WalkEvent → Walks
  | .ancestor c => (s.ancestor parent c).2
  | .ancestors c startSelf =>
    if (s.commits c).isSome then s.addWalker ⟨c, startSelf, some c, false⟩ else s
  | .getEnumerator w =>
    match s.walkers w with
    | none => s
    | some it => s.addWalker ⟨it.root, it.startSelf, some it.root, false⟩
  | .moveNext w =>
    match s.walkers w with
    | none => s
    | some it => (s.moveNext parent w it).2
  | .reset w =>
    match s.walkers w with
    | none => s
    | some it => s.reset w it
  | .dispose c =>
    match s.commits c with
    | none => s
    | some o => s.setCommit c { o with disposed := true }

/-- The commit that is `n` first parents up. -/
def ancestorAt (id : Oid) : Nat → Option Oid
  | 0 => some id
  | n + 1 => (ancestorAt id n).bind parent

/-- The object that `Ancestor` gives, `n` times, of those that have been found. -/
def follow (s : Walks) (c : Nat) : Nat → Option Nat
  | 0 => some c
  | n + 1 => (s.follow c n).bind fun d => (s.commits d).bind CommitObject.ancestor

/-- Every reference is to an object, and what `Ancestor` has found is the first parent. -/
structure Sound (s : Walks) : Prop where
  commitBound : ∀ c o, s.commits c = some o → c < s.nextCommit
  walkerBound : ∀ w it, s.walkers w = some it → w < s.nextWalker
  found : ∀ c o a, s.commits c = some o → o.ancestor = some a →
    ∃ p, s.commits a = some p ∧ parent o.id = some p.id
  root : ∀ w it, s.walkers w = some it → ∃ o, s.commits it.root = some o
  current : ∀ w it c, s.walkers w = some it → it.current = some c → ∃ o, s.commits c = some o

/-- No commit is disposed of whose first parent is still to be found. -/
def AllRead (s : Walks) : Prop :=
  ∀ c o, s.commits c = some o → o.disposed = true → o.ancestor.isSome ∨ parent o.id = none

/-- Every commit is still there, with the ancestor it has found. -/
def Extends (s s' : Walks) : Prop :=
  ∀ c o, s.commits c = some o →
    ∃ o', s'.commits c = some o' ∧ o'.id = o.id ∧ ∀ a, o.ancestor = some a → o'.ancestor = some a

variable {parent}

theorem Extends.refl (s : Walks) : s.Extends s := fun _ o h => ⟨o, h, rfl, fun _ ha => ha⟩

theorem Extends.trans {s t u : Walks} (h : s.Extends t) (h' : t.Extends u) : s.Extends u := by
  intro c o hc
  obtain ⟨o', hc', hid, hfound⟩ := h c o hc
  obtain ⟨o'', hc'', hid', hfound'⟩ := h' c o' hc'
  exact ⟨o'', hc'', hid'.trans hid, fun a ha => hfound' a (hfound a ha)⟩

theorem Extends.follow {s s' : Walks} (h : s.Extends s') {c d n : Nat}
    (hfollow : s.follow c n = some d) : s'.follow c n = some d := by
  induction n generalizing d with
  | zero => exact hfollow
  | succ n ih =>
    obtain ⟨e, he, hd⟩ := Option.bind_eq_some_iff.mp hfollow
    obtain ⟨o, ho, ha⟩ := Option.bind_eq_some_iff.mp hd
    obtain ⟨o', ho', -, hfound⟩ := h e o ho
    rw [Walks.follow, ih he, Option.bind_some, ho', Option.bind_some]
    exact hfound d ha

theorem Sound.follow {s : Walks} (hs : s.Sound parent) {c d n : Nat} {o : CommitObject}
    (hc : s.commits c = some o) (hfollow : s.follow c n = some d) :
    ∃ p, s.commits d = some p ∧ ancestorAt parent o.id n = some p.id := by
  induction n generalizing d with
  | zero =>
    obtain rfl := Option.some.inj hfollow
    exact ⟨o, hc, rfl⟩
  | succ n ih =>
    obtain ⟨e, he, hd⟩ := Option.bind_eq_some_iff.mp hfollow
    obtain ⟨q, hq, ha⟩ := Option.bind_eq_some_iff.mp hd
    obtain ⟨q', hq', hid⟩ := ih he
    obtain rfl := Option.some.inj (hq.symm.trans hq')
    obtain ⟨p, hp, hparent⟩ := hs.found e q d hq ha
    exact ⟨p, hp, by rw [ancestorAt, hid, Option.bind_some, hparent]⟩

/-- What reading `Ancestor` of `c` does: the walkers stay, the answer is kept, and null is given
only by a commit without a parent or one that is disposed. -/
structure Reads (s s' : Walks) (c : Nat) (o : CommitObject) (answer : Option Nat) : Prop where
  sound : s'.Sound parent
  keeps : s.Extends s'
  walkers : s'.walkers = s.walkers
  kept : (s'.commits c).bind CommitObject.ancestor = answer
  null : answer = none → parent o.id = none ∨ o.disposed = true ∧ o.ancestor = none
  disposed : ∀ d p, s'.commits d = some p → p.disposed = true →
    ∃ q, s.commits d = some q ∧ q.disposed = true

theorem Sound.addCommit {s : Walks} (hs : s.Sound parent) {p : CommitObject}
    (hp : p.ancestor = none) : (s.addCommit p).Sound parent := by
  have hold (c : Nat) (o : CommitObject) (h : s.commits c = some o) :
      (s.addCommit p).commits c = some o := by
    have hne : c ≠ s.nextCommit := Nat.ne_of_lt (hs.commitBound c o h)
    rw [addCommit_commits, Function.update_of_ne hne, h]
  constructor
  · intro c o h
    simp only [Walks.addCommit, Function.update_apply] at h ⊢
    split_ifs at h with hc
    · omega
    · exact Nat.lt_succ_of_lt (hs.commitBound c o h)
  · exact hs.walkerBound
  · intro c o a h ha
    simp only [Walks.addCommit, Function.update_apply] at h
    split_ifs at h with hc
    · obtain rfl := Option.some.inj h
      rw [hp] at ha
      cases ha
    · obtain ⟨q, hq, hparent⟩ := hs.found c o a h ha
      exact ⟨q, hold a q hq, hparent⟩
  · intro w it hw
    obtain ⟨o, ho⟩ := hs.root w it hw
    exact ⟨o, hold _ o ho⟩
  · intro w it c hw hc
    obtain ⟨o, ho⟩ := hs.current w it c hw hc
    exact ⟨o, hold _ o ho⟩

/-- A commit may change its flag, and find its ancestor. -/
theorem Sound.setCommit {s : Walks} (hs : s.Sound parent) {c : Nat} {o o' : CommitObject}
    (hc : s.commits c = some o) (hid : o'.id = o.id)
    (hfound : ∀ a, o'.ancestor = some a → ∃ p, s.commits a = some p ∧ parent o.id = some p.id) :
    (s.setCommit c o').Sound parent := by
  have hnew (d : Nat) (q : CommitObject) (h : s.commits d = some q) :
      ∃ q', (s.setCommit c o').commits d = some q' ∧ q'.id = q.id := by
    by_cases hd : d = c
    · subst hd
      obtain rfl := Option.some.inj (hc.symm.trans h)
      exact ⟨o', by simp [Walks.setCommit], hid⟩
    · exact ⟨q, by simp [Walks.setCommit, hd, h], rfl⟩
  have hat (a : Nat) (id : Option Oid)
      (h : ∃ p, s.commits a = some p ∧ id = some p.id) :
      ∃ p, (s.setCommit c o').commits a = some p ∧ id = some p.id := by
    obtain ⟨p, hp, hparent⟩ := h
    obtain ⟨p', hp', hsame⟩ := hnew a p hp
    exact ⟨p', hp', by rw [hparent, hsame]⟩
  constructor
  · intro d q h
    simp only [Walks.setCommit, Function.update_apply] at h
    split_ifs at h with hd
    · exact hd ▸ hs.commitBound c o hc
    · exact hs.commitBound d q h
  · exact hs.walkerBound
  · intro d q a h ha
    apply hat
    simp only [Walks.setCommit, Function.update_apply] at h
    split_ifs at h with hd
    · obtain rfl := Option.some.inj h
      rw [hid]
      exact hfound a ha
    · exact hs.found d q a h ha
  · intro w it hw
    obtain ⟨q, hq⟩ := hs.root w it hw
    obtain ⟨q', hq', -⟩ := hnew _ q hq
    exact ⟨q', hq'⟩
  · intro w it d hw hd
    obtain ⟨q, hq⟩ := hs.current w it d hw hd
    obtain ⟨q', hq', -⟩ := hnew d q hq
    exact ⟨q', hq'⟩

theorem ancestor_reads {s : Walks} (hs : s.Sound parent) {c : Nat} {o : CommitObject}
    (hc : s.commits c = some o) :
    @Reads parent s (s.ancestor parent c).2 c o (s.ancestor parent c).1 := by
  rw [ancestor, hc]
  dsimp only
  split_ifs with hask
  · rw [Bool.and_eq_true, Option.isNone_iff_eq_none, Bool.not_eq_true'] at hask
    obtain ⟨hnone, hlive⟩ := hask
    cases hparent : parent o.id with
    | none =>
      refine ⟨hs, .refl s, rfl, ?_, fun _ => .inl hparent, fun d p hp hd => ⟨p, hp, hd⟩⟩
      rw [hc, Option.bind_some, hnone]
    | some id =>
      have hne : c ≠ s.nextCommit := Nat.ne_of_lt (hs.commitBound c o hc)
      have hadded : (s.addCommit ⟨id, none, false⟩).commits c = some o := by
        rw [addCommit_commits, Function.update_of_ne hne, hc]
      have hnew : (s.addCommit ⟨id, none, false⟩).commits s.nextCommit =
          some ⟨id, none, false⟩ := by
        rw [addCommit_commits, Function.update_self]
      refine ⟨(hs.addCommit rfl).setCommit hadded rfl ?_, ?_, rfl, ?_, ?_, ?_⟩
      · intro a ha
        obtain rfl := Option.some.inj ha
        exact ⟨_, hnew, hparent⟩
      · intro d q hd
        by_cases hdc : d = c
        · subst hdc
          obtain rfl := Option.some.inj (hc.symm.trans hd)
          refine ⟨{ o with ancestor := some s.nextCommit }, by simp [setCommit], rfl, ?_⟩
          intro a ha
          rw [hnone] at ha
          cases ha
        · have hdn : d ≠ s.nextCommit := Nat.ne_of_lt (hs.commitBound d q hd)
          refine ⟨q, ?_, rfl, fun _ ha => ha⟩
          simp [setCommit, addCommit, hdc, hdn, hd]
      · simp [setCommit]
      · intro h
        cases h
      · intro d p hp hd
        simp only [setCommit, Walks.addCommit, Function.update_apply] at hp
        split_ifs at hp with hdc hdn
        · obtain rfl := Option.some.inj hp
          exact ⟨o, hdc ▸ hc, hd⟩
        · obtain rfl := Option.some.inj hp
          cases hd
        · exact ⟨p, hp, hd⟩
  · refine ⟨hs, .refl s, rfl, ?_, ?_, fun d p hp hd => ⟨p, hp, hd⟩⟩
    · rw [hc, Option.bind_some]
    · intro hnone
      have hnull : o.ancestor = none := hnone
      rw [hnull] at hask
      exact .inr ⟨by simpa using hask, hnull⟩

theorem Sound.setWalker {s : Walks} (hs : s.Sound parent) {w : Nat} {it it' : AncestorWalker}
    (hw : s.walkers w = some it) (hroot : it'.root = it.root)
    (hcurrent : ∀ c, it'.current = some c → ∃ o, s.commits c = some o) :
    (s.setWalker w it').Sound parent := by
  refine ⟨hs.commitBound, ?_, hs.found, ?_, ?_⟩
  · intro v walker h
    rw [setWalker_walkers, Function.update_apply] at h
    split_ifs at h with hv
    · exact hv ▸ hs.walkerBound w it hw
    · exact hs.walkerBound v walker h
  · intro v walker h
    rw [setWalker_walkers, Function.update_apply] at h
    split_ifs at h with hv
    · obtain rfl := Option.some.inj h
      rw [hroot]
      exact hs.root w it hw
    · exact hs.root v walker h
  · intro v walker c h hc
    rw [setWalker_walkers, Function.update_apply] at h
    split_ifs at h with hv
    · obtain rfl := Option.some.inj h
      exact hcurrent c hc
    · exact hs.current v walker c h hc

theorem Sound.addWalker {s : Walks} (hs : s.Sound parent) {it : AncestorWalker}
    (hroot : ∃ o, s.commits it.root = some o)
    (hcurrent : ∀ c, it.current = some c → ∃ o, s.commits c = some o) :
    (s.addWalker it).Sound parent := by
  refine ⟨hs.commitBound, ?_, hs.found, ?_, ?_⟩
  · intro v walker h
    rw [addWalker_walkers, Function.update_apply] at h
    split_ifs at h with hv
    · exact hv ▸ Nat.lt_succ_self _
    · exact Nat.lt_succ_of_lt (hs.walkerBound v walker h)
  · intro v walker h
    rw [addWalker_walkers, Function.update_apply] at h
    split_ifs at h with hv
    · obtain rfl := Option.some.inj h
      exact hroot
    · exact hs.root v walker h
  · intro v walker c h hc
    rw [addWalker_walkers, Function.update_apply] at h
    split_ifs at h with hv
    · obtain rfl := Option.some.inj h
      exact hcurrent c hc
    · exact hs.current v walker c h hc

/-- Where a move goes on from: the root itself, the ancestor of a commit, or nowhere. -/
inductive MovesTo (parent : Oid → Option Oid) (s s' : Walks) (it : AncestorWalker) :
    Option Nat → Prop
  | self (hstart : it.started = false) (hself : it.startSelf = true) :
      MovesTo parent s s' it (some it.root)
  | up {c : Nat} {o : CommitObject} {answer : Option Nat}
      (hfrom : it.started = false ∧ it.startSelf = false ∧ c = it.root ∨
        it.started = true ∧ it.current = some c)
      (hc : s.commits c = some o) (hfollow : s'.follow c 1 = answer)
      (hnull : answer = none → parent o.id = none ∨ o.disposed = true ∧ o.ancestor = none) :
      MovesTo parent s s' it answer
  | ended (hstart : it.started = true) (hnone : it.current = none) : MovesTo parent s s' it none

structure Moved (parent : Oid → Option Oid) (s s' : Walks) (w : Nat) (it : AncestorWalker)
    (answer : Option Nat) : Prop where
  sound : s'.Sound parent
  keeps : s.Extends s'
  walkers : s'.walkers = Function.update s.walkers w
    (some { it with current := answer, started := true })
  moves : MovesTo parent s s' it answer
  disposed : ∀ d p, s'.commits d = some p → p.disposed = true →
    ∃ q, s.commits d = some q ∧ q.disposed = true

/-- A move that reads the ancestor of a commit. -/
theorem moved_up {s : Walks} (hs : s.Sound parent) {w : Nat} {it : AncestorWalker}
    (hw : s.walkers w = some it) {c : Nat}
    (hfrom : it.started = false ∧ it.startSelf = false ∧ c = it.root ∨
      it.started = true ∧ it.current = some c) :
    s.Moved parent ((s.ancestor parent c).2.setWalker w
      { it with current := (s.ancestor parent c).1, started := true }) w it
      (s.ancestor parent c).1 := by
  have hobject : ∃ o, s.commits c = some o := by
    obtain ⟨-, -, rfl⟩ | ⟨-, hcurrent⟩ := hfrom
    · exact hs.root w it hw
    · exact hs.current w it c hw hcurrent
  obtain ⟨o, hc⟩ := hobject
  have hread := ancestor_reads hs hc
  have hwalker : (s.ancestor parent c).2.walkers w = some it := by rw [hread.walkers, hw]
  refine ⟨hread.sound.setWalker hwalker rfl ?_, hread.keeps, ?_, ?_, hread.disposed⟩
  · intro a ha
    obtain ⟨o', ho', hkept⟩ := Option.bind_eq_some_iff.mp (hread.kept.trans ha)
    obtain ⟨p, hp, -⟩ := hread.sound.found c o' a ho' hkept
    exact ⟨p, hp⟩
  · rw [setWalker_walkers, hread.walkers]
  · exact .up hfrom hc hread.kept hread.null

theorem moveNext_moved {s : Walks} (hs : s.Sound parent) {w : Nat} {it : AncestorWalker}
    (hw : s.walkers w = some it) :
    ∃ answer, (s.moveNext parent w it).1 = answer.isSome ∧
      s.Moved parent (s.moveNext parent w it).2 w it answer := by
  obtain ⟨root, startSelf, current, started⟩ := it
  cases started with
  | false =>
    cases startSelf with
    | true =>
      refine ⟨some root, rfl, hs.setWalker hw rfl ?_, .refl s, rfl, .self rfl rfl,
        fun d p hp hd => ⟨p, hp, hd⟩⟩
      intro c hc
      obtain rfl := Option.some.inj hc
      exact hs.root w _ hw
    | false => exact ⟨(s.ancestor parent root).1, rfl, moved_up hs hw (.inl ⟨rfl, rfl, rfl⟩)⟩
  | true =>
    cases current with
    | none =>
      refine ⟨none, rfl, hs, .refl s, ?_, .ended rfl rfl, fun d p hp hd => ⟨p, hp, hd⟩⟩
      change s.walkers = _
      rw [← hw, Function.update_eq_self]
    | some c => exact ⟨(s.ancestor parent c).1, rfl, moved_up hs hw (.inr ⟨rfl, rfl⟩)⟩

/-- A commit is disposed of only when its first parent has been found, or there is none. -/
def DisposesRead (parent : Oid → Option Oid) (s : Walks) : WalkEvent → Prop
  | .dispose c => ∀ o, s.commits c = some o → o.ancestor.isSome ∨ parent o.id = none
  | _ => True

/-- One event keeps the objects sound, and what has been found of them. -/
theorem perform_keeps {s : Walks} (hs : s.Sound parent) (event : WalkEvent) :
    (s.perform parent event).Sound parent ∧ s.Extends (s.perform parent event) := by
  cases event with
  | ancestor c =>
    cases hc : s.commits c with
    | none =>
      simp only [perform, Walks.ancestor, hc]
      exact ⟨hs, .refl s⟩
    | some o => exact ⟨(ancestor_reads hs hc).sound, (ancestor_reads hs hc).keeps⟩
  | ancestors c startSelf =>
    rw [perform]
    split_ifs with hc
    · refine ⟨hs.addWalker (Option.isSome_iff_exists.mp hc) ?_, .refl s⟩
      intro d hd
      obtain rfl := Option.some.inj hd
      exact Option.isSome_iff_exists.mp hc
    · exact ⟨hs, .refl s⟩
  | getEnumerator w =>
    rw [perform]
    cases hw : s.walkers w with
    | none => exact ⟨hs, .refl s⟩
    | some it =>
      refine ⟨hs.addWalker (hs.root w it hw) ?_, .refl s⟩
      intro d hd
      obtain rfl := Option.some.inj hd
      exact hs.root w it hw
  | moveNext w =>
    rw [perform]
    cases hw : s.walkers w with
    | none => exact ⟨hs, .refl s⟩
    | some it =>
      obtain ⟨answer, -, hmoved⟩ := moveNext_moved hs hw
      exact ⟨hmoved.sound, hmoved.keeps⟩
  | reset w =>
    rw [perform]
    cases hw : s.walkers w with
    | none => exact ⟨hs, .refl s⟩
    | some it =>
      refine ⟨hs.setWalker hw rfl ?_, .refl s⟩
      intro c hc
      cases hc
  | dispose c =>
    rw [perform]
    cases hc : s.commits c with
    | none => exact ⟨hs, .refl s⟩
    | some o =>
      refine ⟨hs.setCommit hc rfl fun a ha => hs.found c o a hc ha, ?_⟩
      intro d q hd
      by_cases hdc : d = c
      · subst hdc
        obtain rfl := Option.some.inj (hc.symm.trans hd)
        exact ⟨{ o with disposed := true }, by simp, rfl, fun _ ha => ha⟩
      · exact ⟨q, by simp [hdc, hd], rfl, fun _ ha => ha⟩

/-- An event that is not a move or reset of the walker leaves it as it is. -/
theorem perform_walker {s : Walks} (hs : s.Sound parent) {event : WalkEvent} {w : Nat}
    {it : AncestorWalker} (hw : s.walkers w = some it) (hmove : event ≠ .moveNext w)
    (hreset : event ≠ .reset w) : (s.perform parent event).walkers w = some it := by
  have hold : w ≠ s.nextWalker := Nat.ne_of_lt (hs.walkerBound w it hw)
  cases event with
  | ancestor c =>
    cases hc : s.commits c with
    | none => simp only [perform, Walks.ancestor, hc, hw]
    | some o => rw [perform, (ancestor_reads hs hc).walkers, hw]
  | ancestors c startSelf =>
    rw [perform]
    split_ifs
    · rw [addWalker_walkers, Function.update_of_ne hold, hw]
    · exact hw
  | getEnumerator v =>
    rw [perform]
    cases hv : s.walkers v with
    | none => exact hw
    | some other =>
      dsimp only
      rw [addWalker_walkers, Function.update_of_ne hold, hw]
  | moveNext v =>
    have hne : w ≠ v := fun heq => hmove (heq ▸ rfl)
    rw [perform]
    cases hv : s.walkers v with
    | none => exact hw
    | some other =>
      obtain ⟨answer, -, hmoved⟩ := moveNext_moved hs hv
      dsimp only
      rw [hmoved.walkers, Function.update_of_ne hne, hw]
  | reset v =>
    have hne : w ≠ v := fun heq => hreset (heq ▸ rfl)
    rw [perform]
    cases hv : s.walkers v with
    | none => exact hw
    | some other =>
      dsimp only
      rw [reset, setWalker_walkers, Function.update_of_ne hne, hw]
  | dispose c =>
    rw [perform]
    cases hc : s.commits c with
    | none => exact hw
    | some o => exact hw

/-- The walker has moved `n` times since it was made or reset, and stands on an object that the
root leads to. -/
def At (s : Walks) (w root : Nat) (startSelf : Bool) (n : Nat) : Prop :=
  ∃ it, s.walkers w = some it ∧ it.root = root ∧ it.startSelf = startSelf ∧
    (it.started = true ↔ 0 < n) ∧
    ∀ c, 0 < n → it.current = some c → s.follow root (n - startSelf.toNat) = some c

/-- One move of the walker. -/
theorem At.move {s s' : Walks} {w root n : Nat} {startSelf : Bool} {it : AncestorWalker}
    {answer : Option Nat} (hat : s.At w root startSelf n) (hw : s.walkers w = some it)
    (hmoved : s.Moved parent s' w it answer) : s'.At w root startSelf (n + 1) := by
  obtain ⟨it', hw', hroot, hself, hstarted, hcurrent⟩ := hat
  obtain rfl := Option.some.inj (hw.symm.trans hw')
  refine ⟨{ it with current := answer, started := true }, ?_, hroot, hself, by simp, ?_⟩
  · rw [hmoved.walkers, Function.update_self]
  · intro c _ hc
    have hanswer : answer = some c := hc
    cases hmoved.moves with
    | self hstart hselfTrue =>
      have hn : n = 0 := by
        by_contra hpos
        rw [hstarted.mpr (by omega)] at hstart
        cases hstart
      rw [hself] at hselfTrue
      subst hn hselfTrue
      rw [hroot] at hanswer
      exact hanswer
    | @up d o _ hfrom hd hfollow hnull =>
      obtain ⟨hstart, hselfFalse, hdroot⟩ | ⟨hstart, hfromCurrent⟩ := hfrom
      · have hn : n = 0 := by
          by_contra hpos
          rw [hstarted.mpr (by omega)] at hstart
          cases hstart
        rw [hself] at hselfFalse
        subst hn hselfFalse
        rw [← hroot, ← hdroot, ← hanswer]
        exact hfollow
      · have hpos := hstarted.mp hstart
        have hbefore := hmoved.keeps.follow (hcurrent d hpos hfromCurrent)
        have hle : startSelf.toNat ≤ n := by
          cases startSelf <;> simp only [Bool.toNat_false, Bool.toNat_true] <;> omega
        rw [Nat.sub_add_comm hle, Walks.follow, hbefore, Option.bind_some, ← hanswer]
        exact hfollow
    | ended => cases hanswer

theorem At.step {s : Walks} (hs : s.Sound parent) {w root n : Nat} {startSelf : Bool}
    (hat : s.At w root startSelf n) {event : WalkEvent} (hreset : event ≠ .reset w) :
    (s.perform parent event).At w root startSelf (n + if event = .moveNext w then 1 else 0) := by
  obtain ⟨it, hw, hroot, hself, hstarted, hcurrent⟩ := hat
  by_cases hmove : event = .moveNext w
  · subst hmove
    obtain ⟨answer, -, hmoved⟩ := moveNext_moved hs hw
    rw [if_pos rfl, perform, hw]
    exact At.move ⟨it, hw, hroot, hself, hstarted, hcurrent⟩ hw hmoved
  · rw [if_neg hmove, Nat.add_zero]
    refine ⟨it, perform_walker hs hw hmove hreset, hroot, hself, hstarted, ?_⟩
    intro c hpos hc
    exact (perform_keeps hs event).2.follow (hcurrent c hpos hc)

theorem run_keeps {s : Walks} (hs : s.Sound parent) (events : List WalkEvent) :
    (Events.run (perform parent) s events).Sound parent ∧
      s.Extends (Events.run (perform parent) s events) := by
  refine Events.run_invariant (fun now => now.Sound parent ∧ s.Extends now) ?_ ⟨hs, .refl s⟩ events
  intro now event hnow
  obtain ⟨hsound, hkeeps⟩ := perform_keeps hnow.1 event
  exact ⟨hsound, hnow.2.trans hkeeps⟩

theorem count_moveNext_cons (event : WalkEvent) (events : List WalkEvent) (w : Nat) :
    (event :: events).count (.moveNext w) =
      (if event = .moveNext w then 1 else 0) + events.count (.moveNext w) := by
  rw [List.count_cons, Nat.add_comm]
  by_cases h : event = .moveNext w <;> simp [h]

theorem At.run {s : Walks} (hs : s.Sound parent) {w root n : Nat} {startSelf : Bool}
    (hat : s.At w root startSelf n) {events : List WalkEvent}
    (hreset : WalkEvent.reset w ∉ events) :
    (Events.run (perform parent) s events).At w root startSelf
      (n + events.count (.moveNext w)) := by
  induction events generalizing s n with
  | nil => exact hat
  | cons event events ih =>
    rw [List.mem_cons, not_or] at hreset
    obtain ⟨hhead, htail⟩ := hreset
    have hstep := hat.step hs (Ne.symm hhead)
    have hrest := ih (perform_keeps hs event).1 hstep htail
    rw [count_moveNext_cons, ← Nat.add_assoc]
    exact hrest

theorem AllRead.of_keeps {s s' : Walks} (hall : s.AllRead parent) (hkeeps : s.Extends s')
    (hdisposed : ∀ d p, s'.commits d = some p → p.disposed = true →
      ∃ q, s.commits d = some q ∧ q.disposed = true) : s'.AllRead parent := by
  intro d p hp hd
  obtain ⟨q, hq, hqd⟩ := hdisposed d p hp hd
  obtain ⟨p', hp', hid, hkept⟩ := hkeeps d q hq
  obtain rfl := Option.some.inj (hp.symm.trans hp')
  obtain hread | hnone := hall d q hq hqd
  · obtain ⟨a, ha⟩ := Option.isSome_iff_exists.mp hread
    exact .inl (Option.isSome_iff_exists.mpr ⟨a, hkept a ha⟩)
  · exact .inr (hid ▸ hnone)

theorem AllRead.step {s : Walks} (hs : s.Sound parent) (hall : s.AllRead parent)
    {event : WalkEvent} (hread : DisposesRead parent s event) :
    (s.perform parent event).AllRead parent := by
  have hkeeps := (perform_keeps hs event).2
  cases event with
  | ancestor c =>
    cases hc : s.commits c with
    | none =>
      simp only [perform, Walks.ancestor, hc]
      exact hall
    | some o => exact hall.of_keeps hkeeps (ancestor_reads hs hc).disposed
  | ancestors c startSelf =>
    rw [perform]
    split_ifs <;> exact hall
  | getEnumerator w =>
    rw [perform]
    cases s.walkers w <;> exact hall
  | moveNext w =>
    rw [perform]
    cases hw : s.walkers w with
    | none => exact hall
    | some it =>
      obtain ⟨answer, -, hmoved⟩ := moveNext_moved hs hw
      exact hall.of_keeps hmoved.keeps hmoved.disposed
  | reset w =>
    rw [perform]
    cases s.walkers w <;> exact hall
  | dispose c =>
    rw [perform]
    cases hc : s.commits c with
    | none => exact hall
    | some o =>
      intro d p hp hd
      dsimp only at hp
      rw [setCommit_commits, Function.update_apply] at hp
      split_ifs at hp
      · obtain rfl := Option.some.inj hp
        exact hread o hc
      · exact hall d p hp hd

/-- Where the walker shows nothing any more, the root has no such ancestor. -/
def EndsRightly (parent : Oid → Option Oid) (s : Walks) (w : Nat) (id : Oid) (startSelf : Bool)
    (n : Nat) : Prop :=
  ∀ it, 0 < n → s.walkers w = some it → it.current = none →
    ancestorAt parent id (n - startSelf.toNat) = none

theorem EndsRightly.move {s s' : Walks} (hs : s.Sound parent) (hall : s.AllRead parent)
    {w root n : Nat} {o : CommitObject} (hroot : s.commits root = some o) {startSelf : Bool}
    {it : AncestorWalker} {answer : Option Nat} (hat : s.At w root startSelf n)
    (hends : s.EndsRightly parent w o.id startSelf n) (hw : s.walkers w = some it)
    (hmoved : s.Moved parent s' w it answer) :
    s'.EndsRightly parent w o.id startSelf (n + 1) := by
  obtain ⟨it', hw', hitroot, hself, hstarted, hcurrent⟩ := hat
  obtain rfl := Option.some.inj (hw.symm.trans hw')
  intro next _ hnext hnull
  rw [hmoved.walkers, Function.update_self] at hnext
  obtain rfl := Option.some.inj hnext
  have hanswer : answer = none := hnull
  have hle (hpos : 0 < n) : startSelf.toNat ≤ n := by
    cases startSelf <;> simp only [Bool.toNat_false, Bool.toNat_true] <;> omega
  cases hmoved.moves with
  | self => cases hanswer
  | @up d q _ hfrom hd _ hparent =>
    have hnone : parent q.id = none := by
      obtain hnone | ⟨hdisposed, hask⟩ := hparent hanswer
      · exact hnone
      · obtain hread | hnone := hall d q hd hdisposed
        · rw [hask] at hread
          cases hread
        · exact hnone
    obtain ⟨hstart, hselfFalse, hdroot⟩ | ⟨hstart, hfromCurrent⟩ := hfrom
    · have hn : n = 0 := by
        by_contra hpos
        rw [hstarted.mpr (by omega)] at hstart
        cases hstart
      rw [hself] at hselfFalse
      subst hn hselfFalse
      rw [hdroot, hitroot, hroot] at hd
      obtain rfl := Option.some.inj hd
      exact hnone
    · have hpos := hstarted.mp hstart
      obtain ⟨p, hp, hid⟩ := hs.follow hroot (hcurrent d hpos hfromCurrent)
      obtain rfl := Option.some.inj (hd.symm.trans hp)
      rw [Nat.sub_add_comm (hle hpos), ancestorAt, hid, Option.bind_some, hnone]
  | ended hstart hcurrentNone =>
    have hpos := hstarted.mp hstart
    rw [Nat.sub_add_comm (hle hpos), ancestorAt, hends it hpos hw hcurrentNone, Option.bind_none]

theorem EndsRightly.run {s : Walks} (hs : s.Sound parent) (hall : s.AllRead parent)
    {w root n : Nat} {o : CommitObject} (hroot : s.commits root = some o) {startSelf : Bool}
    (hat : s.At w root startSelf n) (hends : s.EndsRightly parent w o.id startSelf n)
    {events : List WalkEvent} (hreset : WalkEvent.reset w ∉ events)
    (hread : Events.EachMeets (perform parent) (DisposesRead parent) s events) :
    (Events.run (perform parent) s events).EndsRightly parent w o.id startSelf
      (n + events.count (.moveNext w)) := by
  induction events generalizing s n o with
  | nil => exact hends
  | cons event events ih =>
    rw [List.mem_cons, not_or] at hreset
    obtain ⟨hhead, htail⟩ := hreset
    obtain ⟨hs', hkeeps⟩ := perform_keeps hs event
    obtain ⟨o', hroot', hid, -⟩ := hkeeps root o hroot
    have hstep : (s.perform parent event).EndsRightly parent w o'.id startSelf
        (n + if event = .moveNext w then 1 else 0) := by
      rw [hid]
      by_cases hmove : event = .moveNext w
      · subst hmove
        obtain ⟨it, hw, hrest⟩ := hat
        obtain ⟨answer, -, hmoved⟩ := moveNext_moved hs hw
        rw [if_pos rfl, perform, hw]
        exact EndsRightly.move hs hall hroot ⟨it, hw, hrest⟩ hends hw hmoved
      · rw [if_neg hmove, Nat.add_zero]
        intro it hpos hw hnull
        obtain ⟨it', hw', -⟩ := hat
        rw [perform_walker hs hw' hmove (Ne.symm hhead)] at hw
        obtain rfl := Option.some.inj hw
        exact hends it' hpos hw' hnull
    have hrest := ih hs' (hall.step hs hread.1) hroot' (hat.step hs (Ne.symm hhead)) hstep htail
      hread.2
    rw [count_moveNext_cons, ← Nat.add_assoc, ← hid]
    exact hrest

/-- In any run of reads, moves, resets and disposals, a walker shows after `n` moves nothing, or
the object that `n` reads of `Ancestor` from its root lead to, whose commit is so many first
parents up. It shows nothing only behind the last one, unless a commit is disposed of before its
ancestor has been read. -/
theorem walker_showsAncestors {start : Walks} (hs : start.Sound parent) {w : Nat}
    {it : AncestorWalker} (hw : start.walkers w = some it) (hstart : it.started = false)
    {root : CommitObject} (hroot : start.commits it.root = some root)
    {events : List WalkEvent} (hreset : WalkEvent.reset w ∉ events) :
    (∀ c, (Events.run (perform parent) start events).shown w = some c →
      0 < events.count (.moveNext w) ∧
      (Events.run (perform parent) start events).follow it.root
        (events.count (.moveNext w) - it.startSelf.toNat) = some c ∧
      ∃ o, (Events.run (perform parent) start events).commits c = some o ∧
        ancestorAt parent root.id (events.count (.moveNext w) - it.startSelf.toNat) =
          some o.id) ∧
    (start.AllRead parent → Events.EachMeets (perform parent) (DisposesRead parent) start events →
      0 < events.count (.moveNext w) →
      ((Events.run (perform parent) start events).shown w = none ↔
        ancestorAt parent root.id (events.count (.moveNext w) - it.startSelf.toNat) = none)) := by
  have hat : start.At w it.root it.startSelf 0 :=
    ⟨it, hw, rfl, rfl, by simp [hstart], fun _ hpos _ => absurd hpos (Nat.lt_irrefl 0)⟩
  have hafter := hat.run hs hreset
  obtain ⟨hsound, hkeeps⟩ := run_keeps hs events
  obtain ⟨root', hroot', hid, -⟩ := hkeeps it.root root hroot
  rw [Nat.zero_add] at hafter
  obtain ⟨last, hlast, -, -, hstarted, hcurrent⟩ := hafter
  have hshows (c : Nat) (hc : (Events.run (perform parent) start events).shown w = some c) :
      0 < events.count (.moveNext w) ∧ last.current = some c := by
    rw [shown, hlast, Option.bind_some] at hc
    split_ifs at hc with hnot
    exact ⟨hstarted.mp (by simpa using hnot), hc⟩
  have hfound (c : Nat) (hc : (Events.run (perform parent) start events).shown w = some c) :
      ∃ o, (Events.run (perform parent) start events).commits c = some o ∧
        ancestorAt parent root.id (events.count (.moveNext w) - it.startSelf.toNat) =
          some o.id := by
    obtain ⟨hpos, hc⟩ := hshows c hc
    have hat := hsound.follow hroot' (hcurrent c hpos hc)
    rw [hid] at hat
    exact hat
  refine ⟨fun c hc => ⟨(hshows c hc).1, hcurrent c (hshows c hc).1 (hshows c hc).2,
    hfound c hc⟩, ?_⟩
  intro hall hread hpos
  constructor
  · intro hnull
    have hends := EndsRightly.run hs hall hroot hat
      (fun _ hpos => absurd hpos (Nat.lt_irrefl 0)) hreset hread
    rw [Nat.zero_add] at hends
    apply hends last hpos hlast
    rw [shown, hlast, Option.bind_some, hstarted.mpr hpos] at hnull
    exact hnull
  · intro hnone
    rw [Option.eq_none_iff_forall_ne_some]
    intro c hc
    obtain ⟨o, -, hsome⟩ := hfound c hc
    rw [hnone] at hsome
    cases hsome

/-- A commit 2 with the parent 1, and an unstarted walker over it and its ancestors. -/
def exampleWalks : Walks where
  nextCommit := 1
  commits := Function.update (fun _ => none) 0 (some ⟨[2], none, false⟩)
  nextWalker := 1
  walkers := Function.update (fun _ => none) 0 (some ⟨0, true, some 0, false⟩)

def exampleParent (id : Oid) : Option Oid := if id = [2] then some [1] else none

theorem exampleWalks_sound : exampleWalks.Sound exampleParent := by
  have hcommit (c : Nat) (o : CommitObject) (h : exampleWalks.commits c = some o) :
      c = 0 ∧ o = ⟨[2], none, false⟩ := by
    simp only [exampleWalks, Function.update_apply] at h
    split_ifs at h with hc
    exact ⟨hc, (Option.some.inj h).symm⟩
  have hwalker (w : Nat) (it : AncestorWalker) (h : exampleWalks.walkers w = some it) :
      w = 0 ∧ it = ⟨0, true, some 0, false⟩ := by
    simp only [exampleWalks, Function.update_apply] at h
    split_ifs at h with hw
    exact ⟨hw, (Option.some.inj h).symm⟩
  refine ⟨?_, ?_, ?_, ?_, ?_⟩
  · intro c o h
    obtain ⟨rfl, -⟩ := hcommit c o h
    decide
  · intro w it h
    obtain ⟨rfl, -⟩ := hwalker w it h
    decide
  · intro c o a h ha
    obtain ⟨-, rfl⟩ := hcommit c o h
    cases ha
  · intro w it h
    obtain ⟨-, rfl⟩ := hwalker w it h
    exact ⟨_, rfl⟩
  · intro w it c h hc
    obtain ⟨-, rfl⟩ := hwalker w it h
    obtain rfl := Option.some.inj hc
    exact ⟨_, rfl⟩

/-- Two moves, and the parent has been reached; a read of the same ancestor comes in between. -/
theorem walker_shows_parent :
    (Events.run (perform exampleParent) exampleWalks
      [.moveNext 0, .ancestor 0, .moveNext 0]).shown 0 = some 1 ∧
    ancestorAt exampleParent [2] 1 = some [1] := by
  have h := @walker_showsAncestors exampleParent exampleWalks exampleWalks_sound 0 _ rfl rfl _ rfl
    [.moveNext 0, .ancestor 0, .moveNext 0] (by decide)
  have hshown : (Events.run (perform exampleParent) exampleWalks
      [.moveNext 0, .ancestor 0, .moveNext 0]).shown 0 = some 1 := by rfl
  obtain ⟨-, -, o, ho, hat⟩ := h.1 1 hshown
  refine ⟨hshown, hat.trans ?_⟩
  have hparent : (Events.run (perform exampleParent) exampleWalks
      [.moveNext 0, .ancestor 0, .moveNext 0]).commits 1 = some ⟨[1], none, false⟩ := by rfl
  rw [hparent] at ho
  obtain rfl := Option.some.inj ho
  rfl

end Walks

end SharpGit.Plumbing
