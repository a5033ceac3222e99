import SharpGit.Library.Cursor
import SharpGit.Library.MultiMerge
import Mathlib.Data.Fintype.Basic

namespace SharpGit.Plumbing

open SharpGit.Library

variable {α : Type*}

/-- `Comparer<T>::Compare` on handles; only its sign is ever looked at. -/
abbrev Comparer (α : Type*) := Option α → Option α → Int

def Comparer.onItems (cmp : Comparer α) : α → α → Int := fun x y => cmp (some x) (some y)

structure DiffPair (α : Type*) where
  left : Option α
  right : Option α
  deriving DecidableEq, Repr

structure DiffTripple (α : Type*) extends DiffPair α where
  base : Option α
  deriving DecidableEq, Repr

/-- `gcnew DiffTripple<T>(left, right, base)`. -/
def diffTripple (left right base : Option α) : DiffTripple α := ⟨⟨left, right⟩, base⟩

structure DiffBaseEnumerator (α : Type*) where
  left : Cursor α
  right : Cursor α
  base : Cursor α
  comparer : Comparer α
  haveLeft : Bool
  haveRight : Bool
  haveBase : Bool
  current : Option (DiffTripple α)

structure DiffBaseEnumerable (α : Type*) where
  base : List α
  left : List α
  right : List α
  comparer : Comparer α

/-- The constructor of the enumerable takes the base first. -/
def diffBaseEnumerable (base left right : List α) (comparer : Comparer α) : DiffBaseEnumerable α :=
  { base := base, left := left, right := right, comparer := comparer }

/-- The constructor of the enumerator takes the base last. -/
def diffBaseEnumerator (left right base : List α) (comparer : Comparer α) : DiffBaseEnumerator α :=
  { left := Cursor.start left, right := Cursor.start right, base := Cursor.start base,
    comparer := comparer, haveLeft := false, haveRight := false, haveBase := false,
    current := none }

/-- The arguments are passed in the order of the fields, not in that of the parameters. -/
def DiffBaseEnumerable.getEnumerator (d : DiffBaseEnumerable α) : DiffBaseEnumerator α :=
  diffBaseEnumerator d.base d.left d.right d.comparer

namespace DiffBaseEnumerator

/-- The head of `MoveNext`: forget the last triple and refill every role that is not held. -/
def refill (e : DiffBaseEnumerator α) : DiffBaseEnumerator α :=
  let l := e.left.fetch e.haveLeft
  let r := e.right.fetch e.haveRight
  let b := e.base.fetch e.haveBase
  { e with
    current := none
    haveLeft := l.1, left := l.2, haveRight := r.1, right := r.2, haveBase := b.1, base := b.2 }

/-- The body of `MoveNext`, branch by branch. -/
def emit (e : DiffBaseEnumerator α) : Bool × DiffBaseEnumerator α :=
  let lv := e.left.current
  let rv := e.right.current
  let bv := e.base.current
  if e.haveLeft then
    if e.haveRight then
      let lr := e.comparer lv rv
      if lr ≤ 0 then
        let rv := if lr < 0 then none else rv
        if e.haveBase then
          let lb := e.comparer lv bv
          if lb < 0 then
            (true, { e with
              haveLeft := false
              haveRight := if lr = 0 then false else e.haveRight
              current := some (diffTripple lv rv none) })
          else if lb > 0 then
            (true, { e with haveBase := false, current := some (diffTripple none none bv) })
          else
            (true, { e with
              haveLeft := false
              haveBase := false
              haveRight := if lr = 0 then false else e.haveRight
              current := some (diffTripple lv rv bv) })
        else
          (true, { e with
            haveLeft := false
            haveRight := if lr = 0 then false else e.haveRight
            current := some (diffTripple lv rv none) })
      else if e.haveBase then
        let rb := e.comparer rv bv
        (true, { e with
          haveRight := if rb ≤ 0 then false else e.haveRight
          haveBase := if rb ≥ 0 then false else e.haveBase
          current := some (diffTripple none (if rb ≤ 0 then rv else none)
            (if rb ≥ 0 then bv else none)) })
      else
        (true, { e with haveRight := false, current := some (diffTripple none rv none) })
    else if e.haveBase then
      let lb := e.comparer lv bv
      (true, { e with
        haveLeft := if lb ≤ 0 then false else e.haveLeft
        haveBase := if lb ≥ 0 then false else e.haveBase
        current := some (diffTripple (if lb ≤ 0 then lv else none) none
          (if lb ≥ 0 then bv else none)) })
    else
      (true, { e with haveLeft := false, current := some (diffTripple lv none none) })
  else if e.haveRight then
    if e.haveBase then
      let rb := e.comparer rv bv
      (true, { e with
        haveRight := if rb ≤ 0 then false else e.haveRight
        haveBase := if rb ≥ 0 then false else e.haveBase
        current := some (diffTripple none (if rb ≤ 0 then rv else none)
          (if rb ≥ 0 then bv else none)) })
    else
      (true, { e with haveRight := false, current := some (diffTripple none rv none) })
  else if e.haveBase then
    (true, { e with haveBase := false, current := some (diffTripple none none bv) })
  else
    (false, e)

def moveNext (e : DiffBaseEnumerator α) : Bool × DiffBaseEnumerator α := e.refill.emit

/-- `Reset` starts the left and the right sequence again. -/
def reset (e : DiffBaseEnumerator α) : DiffBaseEnumerator α :=
  { e with
    left := e.left.reset, right := e.right.reset, haveLeft := false, haveRight := false,
    current := none }

/-- `for each` over the enumerator: read `Current` after every `MoveNext` that answers true. -/
def drain : Nat → DiffBaseEnumerator α → Option (List (Option (DiffTripple α)))
  | 0, _ => none
  | fuel + 1, e =>
    match e.moveNext with
    | (false, _) => some []
    | (true, e') => (drain fuel e').map (e'.current :: ·)

end DiffBaseEnumerator

inductive Role
  | left | right | base
  deriving DecidableEq, Repr

instance : Fintype Role := ⟨{.left, .right, .base}, fun r => by cases r <;> simp⟩

/-- The value of a triple in one role, as the readers of the columns see it. -/
def DiffTripple.cell (t : DiffTripple α) : Role → Option α
  | .left => t.left
  | .right => t.right
  | .base => t.base

def roles (left right base : List α) : Role → List α
  | .left => left
  | .right => right
  | .base => base

/-- Which heads the branches of `MoveNext` consume. -/
def takes (cmp : α → α → Int) (hs : Role → Option α) : Role → Bool :=
  match hs .left, hs .right, hs .base with
  | some l, some r, some b =>
    if cmp l r ≤ 0 then fun
      | .left => cmp l b ≤ 0
      | .right => cmp l r = 0 ∧ cmp l b ≤ 0
      | .base => 0 ≤ cmp l b
    else fun
      | .left => false
      | .right => cmp r b ≤ 0
      | .base => 0 ≤ cmp r b
  | some l, some r, none => fun
    | .left => cmp l r ≤ 0
    | .right => 0 ≤ cmp l r
    | .base => false
  | some l, none, some b => fun
    | .left => cmp l b ≤ 0
    | .right => false
    | .base => 0 ≤ cmp l b
  | none, some r, some b => fun
    | .left => false
    | .right => cmp r b ≤ 0
    | .base => 0 ≤ cmp r b
  | l, r, b => fun
    | .left => l.isSome
    | .right => r.isSome
    | .base => b.isSome

theorem takes_progressive (cmp : α → α → Int) : Progressive (takes cmp) := by
  intro hs hsome
  cases hl : hs .left with
  | none =>
    cases hr : hs .right with
    | none =>
      cases hb : hs .base with
      | none =>
        obtain ⟨i, hi⟩ := hsome
        cases i <;> simp_all
      | some b => exact ⟨.base, by simp [takes, hl, hr, hb], by simp [hb]⟩
    | some r =>
      cases hb : hs .base with
      | none => exact ⟨.right, by simp [takes, hl, hr, hb], by simp [hr]⟩
      | some b =>
        rcases le_total (cmp r b) 0 with h | h
        · exact ⟨.right, by simp [takes, hl, hr, hb, h], by simp [hr]⟩
        · exact ⟨.base, by simp [takes, hl, hr, hb, h], by simp [hb]⟩
  | some l =>
    cases hr : hs .right with
    | none =>
      cases hb : hs .base with
      | none => exact ⟨.left, by simp [takes, hl, hr, hb], by simp [hl]⟩
      | some b =>
        rcases le_total (cmp l b) 0 with h | h
        · exact ⟨.left, by simp [takes, hl, hr, hb, h], by simp [hl]⟩
        · exact ⟨.base, by simp [takes, hl, hr, hb, h], by simp [hb]⟩
    | some r =>
      cases hb : hs .base with
      | none =>
        rcases le_total (cmp l r) 0 with h | h
        · exact ⟨.left, by simp [takes, hl, hr, hb, h], by simp [hl]⟩
        · exact ⟨.right, by simp [takes, hl, hr, hb, h], by simp [hr]⟩
      | some b =>
        by_cases hlr : cmp l r ≤ 0
        · rcases le_total (cmp l b) 0 with h | h
          · exact ⟨.left, by simp [takes, hl, hr, hb, hlr, h], by simp [hl]⟩
          · exact ⟨.base, by simp [takes, hl, hr, hb, hlr, h], by simp [hb]⟩
        · rcases le_total (cmp r b) 0 with h | h
          · exact ⟨.right, by simp [takes, hl, hr, hb, hlr, h], by simp [hr]⟩
          · exact ⟨.base, by simp [takes, hl, hr, hb, hlr, h], by simp [hb]⟩

/-- No branch reads the `Current` of an enumerator that is used up. -/
theorem takes_absent (cmp : α → α → Int) (hs : Role → Option α) (i : Role)
    (hi : hs i = none) : takes cmp hs i = false := by
  cases hl : hs .left <;> cases hr : hs .right <;> cases hb : hs .base <;> cases i <;>
    simp_all [takes]

theorem takes_present (cmp : α → α → Int) (hs : Role → Option α) (i : Role)
    (ht : takes cmp hs i = true) : (hs i).isSome := by
  by_contra hn
  simp [takes_absent cmp hs i (by simpa using hn)] at ht

theorem forall_role {p : Role → Prop} : (∀ i, p i) ↔ p .left ∧ p .right ∧ p .base :=
  ⟨fun h => ⟨h _, h _, h _⟩, fun ⟨hl, hr, hb⟩ i => by cases i <;> assumption⟩

theorem takes_least {cmp : α → α → Int} (hc : TotalOrder cmp) : TakesLeast (takes cmp) cmp := by
  intro hs i x hx
  rw [forall_role]
  have hxx := hc.refl x
  cases hl : hs .left with
  | none =>
    cases hr : hs .right with
    | none => cases i <;> simp_all [takes]
    | some r =>
      cases hb : hs .base with
      | none => cases i <;> simp_all [takes]
      | some b =>
        cases i <;> simp [hl, hr, hb] at hx <;> subst hx <;>
          simp [takes, hl, hr, hb, hxx, hc.le_iff r b]
  | some l =>
    cases hr : hs .right with
    | none =>
      cases hb : hs .base with
      | none => cases i <;> simp_all [takes]
      | some b =>
        cases i <;> simp [hl, hr, hb] at hx <;> subst hx <;>
          simp [takes, hl, hr, hb, hxx, hc.le_iff l b]
    | some r =>
      cases hb : hs .base with
      | none =>
        cases i <;> simp [hl, hr, hb] at hx <;> subst hx <;>
          simp [takes, hl, hr, hb, hxx, hc.le_iff l r]
      | some b =>
        by_cases hlr : cmp l r ≤ 0
        · -- the left item is before the right one, or ties with it
          have hright := hc.tie_iff hlr b
          have hbase := hc.least_iff hlr b
          cases i <;> simp [hl, hr, hb] at hx <;> subst hx <;>
            simp [takes, hl, hr, hb, hlr, hxx, hright, hbase]
        · have hrl : cmp r l ≤ 0 := hc.le_symm (by omega)
          have hbase := hc.least_iff hrl b
          cases i <;> simp [hl, hr, hb] at hx <;> subst hx <;>
            simp [takes, hl, hr, hb, hlr, hrl, hxx, ← hbase, and_comm]

namespace DiffBaseEnumerator

/-- A held role has its item under the cursor. -/
def Valid (e : DiffBaseEnumerator α) : Prop :=
  e.left.Held e.haveLeft ∧ e.right.Held e.haveRight ∧ e.base.Held e.haveBase

def pending (e : DiffBaseEnumerator α) : Role → List α :=
  roles (e.left.pending e.haveLeft) (e.right.pending e.haveRight) (e.base.pending e.haveBase)

def takesNext (e : DiffBaseEnumerator α) : Role → Bool :=
  takes e.comparer.onItems (heads e.pending)

def Refilled (e : DiffBaseEnumerator α) : Prop :=
  e.left.Filled e.haveLeft ∧ e.right.Filled e.haveRight ∧ e.base.Filled e.haveBase

theorem refill_refilled (e : DiffBaseEnumerator α) (hv : e.Valid) : e.refill.Refilled :=
  ⟨e.left.fetch_filled e.haveLeft hv.1, e.right.fetch_filled e.haveRight hv.2.1,
    e.base.fetch_filled e.haveBase hv.2.2⟩

theorem refill_pending (e : DiffBaseEnumerator α) (hv : e.Valid) :
    e.refill.pending = e.pending := by
  have hl := e.left.pending_fetch e.haveLeft hv.1
  have hr := e.right.pending_fetch e.haveRight hv.2.1
  have hb := e.base.pending_fetch e.haveBase hv.2.2
  simp only [pending, refill, hl, hr, hb]

/-- What all branches of `MoveNext` do: emit the heads they take and let go of them. -/
def release (e : DiffBaseEnumerator α) (take : Role → Bool) : DiffBaseEnumerator α :=
  { e with
    haveLeft := e.haveLeft && !take .left
    haveRight := e.haveRight && !take .right
    haveBase := e.haveBase && !take .base
    current := some (diffTripple (if take .left then e.left.current else none)
      (if take .right then e.right.current else none)
      (if take .base then e.base.current else none)) }

theorem emit_eq (e : DiffBaseEnumerator α) (hr : e.Refilled)
    (hx : e.haveLeft = true ∨ e.haveRight = true ∨ e.haveBase = true) :
    e.emit = (true, e.release e.takesNext) := by
  obtain ⟨left, right, base, cmp, haveLeft, haveRight, haveBase, current⟩ := e
  obtain ⟨hl, hr, hb⟩ := hr
  dsimp only at hl hr hb hx
  rcases hl with ⟨rfl, hl⟩ | ⟨rfl, l, hl⟩ <;> rcases hr with ⟨rfl, hr⟩ | ⟨rfl, r, hr⟩ <;>
    rcases hb with ⟨rfl, hb⟩ | ⟨rfl, b, hb⟩ <;>
    simp [emit, release, takesNext, takes, heads, pending, roles, Cursor.pending,
      Comparer.onItems, hl, hr, hb] at hx ⊢
  · by_cases h1 : cmp (some r) (some b) ≤ 0 <;> by_cases h2 : 0 ≤ cmp (some r) (some b) <;>
      simp [h1, h2]
  · by_cases h1 : cmp (some l) (some b) ≤ 0 <;> by_cases h2 : 0 ≤ cmp (some l) (some b) <;>
      simp [h1, h2]
  · rcases lt_trichotomy (cmp (some l) (some r)) 0 with h | h | h
    · simp [h, h.le, h.ne, not_le.mpr h]
    · simp [h]
    · simp [h.le, not_le.mpr h]
  · rcases lt_trichotomy (cmp (some l) (some r)) 0 with h | h | h
    · rcases lt_trichotomy (cmp (some l) (some b)) 0 with h' | h' | h'
      · simp [h, h.le, h.ne, h', h'.le, not_le.mpr h']
      · simp [h, h.le, h.ne, h']
      · simp [h.le, h.ne, h', h'.le, not_lt.mpr h'.le, not_le.mpr h']
    · rcases lt_trichotomy (cmp (some l) (some b)) 0 with h' | h' | h'
      · simp [h, h', h'.le, not_le.mpr h']
      · simp [h, h']
      · simp [h, h', h'.le, not_lt.mpr h'.le, not_le.mpr h']
    · by_cases h1 : cmp (some r) (some b) ≤ 0 <;> by_cases h2 : 0 ≤ cmp (some r) (some b) <;>
        simp [not_le.mpr h, h1, h2]

theorem release_spec (e : DiffBaseEnumerator α) (hr : e.Refilled) :
    (e.release e.takesNext).Valid ∧
    (∃ t, (e.release e.takesNext).current = some t ∧
      t.cell = pick e.takesNext (heads e.pending)) ∧
    (e.release e.takesNext).pending = advance e.takesNext e.pending := by
  have hp := takes_present e.comparer.onItems (heads e.pending)
  obtain ⟨hl, hr, hb⟩ := hr
  refine ⟨⟨hl.held_release _, hr.held_release _, hb.held_release _⟩, ⟨_, rfl, ?_⟩, ?_⟩
  · funext i
    cases i with
    | left => exact hl.taken _ (hp .left)
    | right => exact hr.taken _ (hp .right)
    | base => exact hb.taken _ (hp .base)
  · funext i
    cases i with
    | left => exact hl.pending_release _
    | right => exact hr.pending_release _
    | base => exact hb.pending_release _

theorem refilled_any (e : DiffBaseEnumerator α) (hr : e.Refilled) :
    (e.haveLeft = true ∨ e.haveRight = true ∨ e.haveBase = true) ↔ ∃ i, e.pending i ≠ [] := by
  rw [hr.1.flag_iff, hr.2.1.flag_iff, hr.2.2.flag_iff]
  constructor
  · rintro (h | h | h)
    · exact ⟨.left, h⟩
    · exact ⟨.right, h⟩
    · exact ⟨.base, h⟩
  · intro ⟨i, hi⟩
    cases i with
    | left => exact .inl hi
    | right => exact .inr (.inl hi)
    | base => exact .inr (.inr hi)

/-- One `MoveNext` is one row of the merge of what the three roles still hold. -/
theorem moveNext_step (e : DiffBaseEnumerator α) (hv : e.Valid) (hx : ∃ i, e.pending i ≠ []) :
    e.moveNext.1 = true ∧ e.moveNext.2.Valid ∧ e.moveNext.2.comparer = e.comparer ∧
    (∃ t, e.moveNext.2.current = some t ∧ t.cell = pick e.takesNext (heads e.pending)) ∧
    e.moveNext.2.pending = advance e.takesNext e.pending := by
  have hr := refill_refilled e hv
  have hp := refill_pending e hv
  have ht : e.refill.takesNext = e.takesNext := by
    simp only [takesNext, hp]
    rfl
  have hany := (refilled_any e.refill hr).mpr (hp ▸ hx)
  have he := emit_eq e.refill hr hany
  have hs := release_spec e.refill hr
  rw [hp, ht] at hs
  rw [ht] at he
  simp only [moveNext, he]
  exact ⟨trivial, hs.1, rfl, hs.2.1, hs.2.2⟩

theorem moveNext_end (e : DiffBaseEnumerator α) (hv : e.Valid) (hx : ∀ i, e.pending i = []) :
    e.moveNext.1 = false := by
  have hr := refill_refilled e hv
  have hp := refill_pending e hv
  have hany : ¬∃ i, e.refill.pending i ≠ [] := by simpa [hp] using hx
  rw [← refilled_any e.refill hr] at hany
  simp only [not_or, Bool.not_eq_true] at hany
  simp [moveNext, emit, hany]

/-- The run of `MoveNext` and `Current` reads off the rows of the merge. -/
theorem drain_merges {cmp : α → α → Int} {xs : Role → List α} {rows : List (Role → Option α)}
    (h : Merges (takes cmp) xs rows) (e : DiffBaseEnumerator α) (hv : e.Valid)
    (hcmp : e.comparer.onItems = cmp) (hp : e.pending = xs) :
    ∃ ts : List (DiffTripple α), ts.map DiffTripple.cell = rows ∧
      ∀ fuel, rows.length < fuel → drain fuel e = some (ts.map some) := by
  induction h generalizing e with
  | done hx =>
    refine ⟨[], rfl, ?_⟩
    intro fuel hf
    obtain ⟨n, rfl⟩ := Nat.exists_eq_succ_of_ne_zero (Nat.ne_of_gt hf)
    have hend := moveNext_end e hv (by simpa [hp] using hx)
    cases hm : e.moveNext with
    | mk more e' =>
      rw [hm] at hend
      simp only at hend
      simp [drain, hm, hend]
  | @step xs rows hx ht ih =>
    subst hp
    obtain ⟨hmore, hv', hcmp', ⟨t, hcur, hcell⟩, hpend⟩ := moveNext_step e hv hx
    have htake : e.takesNext = takes cmp (heads e.pending) := by rw [takesNext, hcmp]
    rw [htake] at hcell hpend
    obtain ⟨ts, hts, hdrain⟩ := ih e.moveNext.2 hv' (by rw [hcmp', hcmp]) hpend
    refine ⟨t :: ts, by rw [List.map_cons, hcell, hts], ?_⟩
    intro fuel hf
    obtain ⟨n, rfl⟩ := Nat.exists_eq_succ_of_ne_zero (Nat.ne_of_gt (Nat.zero_lt_of_lt hf))
    have hn := hdrain n (by simpa using hf)
    cases hm : e.moveNext with
    | mk more e' =>
      rw [hm] at hmore hcur hn
      simp only at hmore hcur hn
      simp [drain, hm, hmore, hcur, hn]

/-- From any state the run ends, with one merge of what the roles still hold. -/
theorem drain_run (e : DiffBaseEnumerator α) (hv : e.Valid) :
    ∃ ts : List (DiffTripple α),
      Merges (takes e.comparer.onItems) e.pending (ts.map DiffTripple.cell) ∧
      ∀ fuel, remaining e.pending < fuel → e.drain fuel = some (ts.map some) := by
  obtain ⟨rows, hrows, hlen⟩ := exists_merges _ (takes_progressive e.comparer.onItems) e.pending
  obtain ⟨ts, hts, hdrain⟩ := drain_merges hrows e hv rfl rfl
  exact ⟨ts, hts ▸ hrows, fun fuel hf => hdrain fuel (by omega)⟩

end DiffBaseEnumerator

theorem diffBaseEnumerator_valid (left right base : List α) (cmp : Comparer α) :
    (diffBaseEnumerator left right base cmp).Valid :=
  ⟨Cursor.held_false _, Cursor.held_false _, Cursor.held_false _⟩

theorem roles_remaining (left right base : List α) :
    remaining (roles left right base) = left.length + right.length + base.length := by
  have hu : (Finset.univ : Finset Role) = {.left, .right, .base} := rfl
  rw [remaining, hu]
  simp [roles, Nat.add_assoc]

/-- The run ends, and what it yields is one merge of the three sequences. -/
theorem diffBaseEnumerator_run (left right base : List α) (cmp : Comparer α) :
    ∃ ts : List (DiffTripple α),
      Merges (takes cmp.onItems) (roles left right base) (ts.map DiffTripple.cell) ∧
      ∀ fuel, left.length + right.length + base.length < fuel →
        (diffBaseEnumerator left right base cmp).drain fuel = some (ts.map some) := by
  have hv := diffBaseEnumerator_valid left right base cmp
  have hp : (diffBaseEnumerator left right base cmp).pending = roles left right base := rfl
  obtain ⟨ts, hts, hdrain⟩ := DiffBaseEnumerator.drain_run _ hv
  rw [hp, roles_remaining] at hdrain
  exact ⟨ts, hts, hdrain⟩

/-- The three-way outer join: one triple a distinct key of the union, in key order. -/
def IsOuterJoin (cmp : α → α → Int) (left right base : List α) (ts : List (DiffTripple α)) : Prop :=
  ∃ keys : List α, Increasing cmp keys ∧
    (∀ k ∈ keys, k ∈ left ∨ k ∈ right ∨ k ∈ base) ∧
    (∀ x, x ∈ left ∨ x ∈ right ∨ x ∈ base → ∃ k ∈ keys, cmp k x = 0) ∧
    ts = keys.map (fun k => diffTripple (left.find? (fun x => cmp k x = 0))
      (right.find? (fun x => cmp k x = 0)) (base.find? (fun x => cmp k x = 0)))

theorem cell_injective : Function.Injective (DiffTripple.cell (α := α)) := by
  rintro ⟨⟨l, r⟩, b⟩ ⟨⟨l', r'⟩, b'⟩ h
  have hl : l = l' := congrFun h .left
  have hr : r = r' := congrFun h .right
  have hb : b = b' := congrFun h .base
  rw [hl, hr, hb]

theorem isOuterJoin_of_rows {cmp : α → α → Int} {left right base : List α}
    {ts : List (DiffTripple α)}
    (h : OuterJoin cmp (roles left right base) (ts.map DiffTripple.cell)) :
    IsOuterJoin cmp left right base ts := by
  obtain ⟨keys, hinc, hfrom, hcover, hrows⟩ := h
  refine ⟨keys, hinc, ?_, ?_, ?_⟩
  · intro k hk
    obtain ⟨i, hi⟩ := hfrom k hk
    cases i with
    | left => exact .inl hi
    | right => exact .inr (.inl hi)
    | base => exact .inr (.inr hi)
  · rintro x (hx | hx | hx)
    · exact hcover .left x hx
    · exact hcover .right x hx
    · exact hcover .base x hx
  · apply cell_injective.list_map
    rw [hrows, List.map_map]
    apply List.map_congr_left
    intro k _
    funext i
    cases i <;> rfl

theorem diffBaseEnumerator_outerJoin (left right base : List α) (cmp : Comparer α)
    (hc : TotalOrder cmp.onItems) (hl : Increasing cmp.onItems left)
    (hr : Increasing cmp.onItems right) (hb : Increasing cmp.onItems base) :
    ∃ ts : List (DiffTripple α), IsOuterJoin cmp.onItems left right base ts ∧
      ∀ fuel, left.length + right.length + base.length < fuel →
        (diffBaseEnumerator left right base cmp).drain fuel = some (ts.map some) := by
  obtain ⟨ts, hts, hdrain⟩ := diffBaseEnumerator_run left right base cmp
  have hinc : ∀ i, Increasing cmp.onItems (roles left right base i) := by
    intro i
    cases i with
    | left => exact hl
    | right => exact hr
    | base => exact hb
  have hjoin := hts.outerJoin hc (takes_progressive _) (takes_least hc) hinc
  exact ⟨ts, isOuterJoin_of_rows hjoin, hdrain⟩

/-- A comparer of integers, null first. -/
def intComparer : Comparer Int
  | none, none => 0
  | none, some _ => -1
  | some _, none => 1
  | some x, some y => x - y

theorem intComparer_totalOrder : TotalOrder intComparer.onItems :=
  ⟨fun x y => by simp only [Comparer.onItems, intComparer]; omega,
    fun x y z => by simp only [Comparer.onItems, intComparer]; omega⟩

theorem diffBaseEnumerator_outerJoin_three :
    ∃ ts : List (DiffTripple Int), IsOuterJoin intComparer.onItems [1, 3] [1, 4] [2, 3] ts ∧
      ∀ fuel, 6 < fuel →
        (diffBaseEnumerator [1, 3] [1, 4] [2, 3] intComparer).drain fuel = some (ts.map some) :=
  diffBaseEnumerator_outerJoin [1, 3] [1, 4] [2, 3] intComparer intComparer_totalOrder
    (by simp [Increasing, Comparer.onItems, intComparer])
    (by simp [Increasing, Comparer.onItems, intComparer])
    (by simp [Increasing, Comparer.onItems, intComparer])

/-- Nothing lost, duplicated or misattributed: each column is the sequence of its role. -/
def Attributed (left right base : List α) (ts : List (DiffTripple α)) : Prop :=
  ts.filterMap (fun t => t.left) = left ∧ ts.filterMap (fun t => t.right) = right ∧
    ts.filterMap (fun t => t.base) = base

theorem merges_attributed {choose : Chooser Role α} {left right base : List α}
    {ts : List (DiffTripple α)}
    (h : Merges choose (roles left right base) (ts.map DiffTripple.cell)) :
    Attributed left right base ts := by
  have hl := h.column .left
  have hr := h.column .right
  have hb := h.column .base
  rw [List.filterMap_map] at hl hr hb
  exact ⟨hl, hr, hb⟩

/-- The columns of the enumerable are its base, left and right argument, in this order. -/
theorem diffBaseEnumerable_columns (base left right : List α) (cmp : Comparer α) :
    ∃ ts : List (DiffTripple α), Attributed base left right ts ∧
      ∀ fuel, base.length + left.length + right.length < fuel →
        (diffBaseEnumerable base left right cmp).getEnumerator.drain fuel = some (ts.map some) := by
  obtain ⟨ts, hts, hdrain⟩ := diffBaseEnumerator_run base left right cmp
  exact ⟨ts, merges_attributed hts, hdrain⟩

/-- So every argument comes back in its own column just when all three are the same sequence. -/
theorem diffBaseEnumerable_attributed_iff (base left right : List α) (cmp : Comparer α) :
    (∃ ts : List (DiffTripple α), Attributed left right base ts ∧
      ∀ fuel, base.length + left.length + right.length < fuel →
        (diffBaseEnumerable base left right cmp).getEnumerator.drain fuel = some (ts.map some)) ↔
    left = base ∧ right = base := by
  obtain ⟨ts, hts, hdrain⟩ := diffBaseEnumerable_columns base left right cmp
  constructor
  · intro ⟨ts', hts', hdrain'⟩
    have hrun := hdrain _ (Nat.lt_succ_self _)
    rw [hdrain' _ (Nat.lt_succ_self _)] at hrun
    have heq : ts' = ts := (Option.some_injective _).list_map (Option.some.inj hrun)
    subst heq
    have hl : left = base := hts'.1.symm.trans hts.1
    have hr : right = left := hts'.2.1.symm.trans hts.2.1
    exact ⟨hl, hr.trans hl⟩
  · rintro ⟨rfl, rfl⟩
    exact ⟨ts, hts, hdrain⟩

/-- Three one-item sequences: the base is reported on the left, the left on the right. -/
theorem diffBaseEnumerable_misattributes :
    (diffBaseEnumerable [1] [2] [3] intComparer).getEnumerator.drain 4 =
      some [some (diffTripple (some 1) none none), some (diffTripple none (some 2) none),
        some (diffTripple none none (some 3))] ∧
    ¬∃ ts : List (DiffTripple Int), Attributed [2] [3] [1] ts ∧
      ∀ fuel, 3 < fuel →
        (diffBaseEnumerable [1] [2] [3] intComparer).getEnumerator.drain fuel =
          some (ts.map some) := by
  have hrun : (diffBaseEnumerable [1] [2] [3] intComparer).getEnumerator.drain 4 =
      some [some (diffTripple (some 1) none none), some (diffTripple none (some 2) none),
        some (diffTripple none none (some 3))] := by decide
  refine ⟨hrun, ?_⟩
  intro ⟨ts, hts, hdrain⟩
  have hts' := hdrain 4 (by decide)
  rw [hrun] at hts'
  have heq : ts = [diffTripple (some 1) none none, diffTripple none (some 2) none,
      diffTripple none none (some 3)] :=
    (Option.some_injective _).list_map (Option.some.inj hts').symm
  subst heq
  exact absurd hts (by simp [Attributed, diffTripple])

end SharpGit.Plumbing
