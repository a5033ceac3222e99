import SharpGit.Plumbing.DiffEnumerator

namespace SharpGit.Plumbing

open SharpGit.Library

variable {α : Type*}

namespace DiffPair

def hasLeft (p : DiffPair α) : Bool := p.left.isSome

/-- This one, too, looks at `_left`. -/
def hasRight (p : DiffPair α) : Bool := p.left.isSome

end DiffPair

structure DiffEnumerator (α : Type*) where
  left : Cursor α
  right : Cursor α
  comparer : Comparer α
  haveLeft : Bool
  haveRight : Bool
  current : Option (DiffPair α)

def diffEnumerator (left right : List α) (comparer : Comparer α) : DiffEnumerator α :=
  { left := Cursor.start left, right := Cursor.start right, comparer := comparer,
    haveLeft := false, haveRight := false, current := none }

structure DiffEnumerable (α : Type*) where
  left : List α
  right : List α
  comparer : Comparer α

def diffEnumerable (left right : List α) (comparer : Comparer α) : DiffEnumerable α :=
  { left := left, right := right, comparer := comparer }

def DiffEnumerable.getEnumerator (d : DiffEnumerable α) : DiffEnumerator α :=
  diffEnumerator d.left d.right d.comparer

namespace DiffEnumerator

def refill (e : DiffEnumerator α) : DiffEnumerator α :=
  let l := e.left.fetch e.haveLeft
  let r := e.right.fetch e.haveRight
  { e with current := none, haveLeft := l.1, left := l.2, haveRight := r.1, right := r.2 }

/-- The body of `MoveNext` behind the two refills. -/
def emit (e : DiffEnumerator α) : Bool × DiffEnumerator α :=
  if !e.haveLeft then
    if e.haveRight then
      (true, { e with haveRight := false, current := some ⟨none, e.right.current⟩ })
    else
      (false, e)
  else if !e.haveRight then
    (true, { e with haveLeft := false, current := some ⟨e.left.current, none⟩ })
  else
    let lv := e.left.current
    let rv := e.right.current
    let n := e.comparer lv rv
    if n = 0 then
      (true, { e with current := some ⟨lv, rv⟩, haveLeft := false, haveRight := false })
    else if n < 0 then
      (true, { e with current := some ⟨lv, none⟩, haveLeft := false })
    else
      (true, { e with current := some ⟨none, rv⟩, haveRight := false })

def moveNext (e : DiffEnumerator α) : Bool × DiffEnumerator α := e.refill.emit

def reset (e : DiffEnumerator α) : DiffEnumerator α :=
  { e with
    left := e.left.reset, right := e.right.reset, haveLeft := false, haveRight := false,
    current := none }

/-- `for each` over the enumerator. -/
def drain : Nat → DiffEnumerator α → Option (List (Option (DiffPair α)))
  | 0, _ => none
  | fuel + 1, e =>
    match e.moveNext with
    | (false, _) => some []
    | (true, e') => (drain fuel e').map (e'.current :: ·)

end DiffEnumerator

def DiffPair.withNullBase (p : DiffPair α) : DiffTripple α := ⟨p, none⟩

namespace DiffEnumerator

/-- The three-way enumerator in the same state, its base used up. -/
structure Shadows (e : DiffEnumerator α) (t : DiffBaseEnumerator α) : Prop where
  left : t.left = e.left
  right : t.right = e.right
  comparer : t.comparer = e.comparer
  haveLeft : t.haveLeft = e.haveLeft
  haveRight : t.haveRight = e.haveRight
  haveBase : t.haveBase = false
  base : t.base.rest = []
  current : t.current = e.current.map DiffPair.withNullBase

theorem Shadows.refill {e : DiffEnumerator α} {t : DiffBaseEnumerator α} (h : Shadows e t) :
    Shadows e.refill t.refill := by
  have hb : t.base.fetch t.haveBase = (false, { t.base with current := none }) := by
    simp [Cursor.fetch, Cursor.moveNext, h.haveBase, h.base]
  exact {
    left := by simp only [DiffBaseEnumerator.refill, DiffEnumerator.refill, h.left, h.haveLeft]
    right := by simp only [DiffBaseEnumerator.refill, DiffEnumerator.refill, h.right, h.haveRight]
    comparer := h.comparer
    haveLeft := by simp only [DiffBaseEnumerator.refill, DiffEnumerator.refill, h.left, h.haveLeft]
    haveRight := by
      simp only [DiffBaseEnumerator.refill, DiffEnumerator.refill, h.right, h.haveRight]
    haveBase := by simp only [DiffBaseEnumerator.refill, hb]
    base := by simp only [DiffBaseEnumerator.refill, hb, h.base]
    current := rfl }

/-- Branch by branch: where the one compares `n` with zero, the other looks at `lr`. -/
theorem Shadows.emit {e : DiffEnumerator α} {t : DiffBaseEnumerator α} (h : Shadows e t) :
    t.emit.1 = e.emit.1 ∧ Shadows e.emit.2 t.emit.2 := by
  obtain ⟨_, _, _, _, _, current⟩ := e
  obtain ⟨left, right, base, cmp, haveLeft, haveRight, haveBase, _⟩ := t
  obtain ⟨hl, hr, hc, hhl, hhr, hhb, hbase, hcur⟩ := h
  dsimp only at hl hr hc hhl hhr hhb hbase hcur
  subst hl hr hc hhl hhr hhb hcur
  cases haveLeft with
  | false =>
    cases haveRight with
    | false => exact ⟨rfl, rfl, rfl, rfl, rfl, rfl, rfl, hbase, rfl⟩
    | true => exact ⟨rfl, rfl, rfl, rfl, rfl, rfl, rfl, hbase, rfl⟩
  | true =>
    cases haveRight with
    | false => exact ⟨rfl, rfl, rfl, rfl, rfl, rfl, rfl, hbase, rfl⟩
    | true =>
      rcases lt_trichotomy (cmp left.current right.current) 0 with h | h | h
      · have hle := h.le
        have hne := h.ne
        simp only [DiffBaseEnumerator.emit, DiffEnumerator.emit, h, hle, hne, if_true, if_false,
          Bool.not_true, Bool.false_eq_true]
        exact ⟨trivial, rfl, rfl, rfl, rfl, rfl, rfl, hbase, rfl⟩
      · simp only [DiffBaseEnumerator.emit, DiffEnumerator.emit, h, le_refl, lt_irrefl, if_true,
          if_false, Bool.not_true, Bool.false_eq_true]
        exact ⟨trivial, rfl, rfl, rfl, rfl, rfl, rfl, hbase, rfl⟩
      · have hle := not_le.mpr h
        have hlt := not_lt.mpr h.le
        have hne := h.ne'
        simp only [DiffBaseEnumerator.emit, DiffEnumerator.emit, hle, hlt, hne, if_true, if_false,
          Bool.not_true, Bool.false_eq_true]
        exact ⟨trivial, rfl, rfl, rfl, rfl, rfl, rfl, hbase, rfl⟩

theorem Shadows.moveNext {e : DiffEnumerator α} {t : DiffBaseEnumerator α} (h : Shadows e t) :
    t.moveNext.1 = e.moveNext.1 ∧ Shadows e.moveNext.2 t.moveNext.2 :=
  h.refill.emit

theorem Shadows.drain {e : DiffEnumerator α} {t : DiffBaseEnumerator α} (h : Shadows e t)
    (fuel : Nat) :
    t.drain fuel = (e.drain fuel).map (List.map (Option.map DiffPair.withNullBase)) := by
  induction fuel generalizing e t with
  | zero => rfl
  | succ fuel ih =>
    have hstep := h.moveNext
    cases he : e.moveNext with
    | mk more e' =>
      cases ht : t.moveNext with
      | mk more' t' =>
        rw [he, ht] at hstep
        have hmore : more' = more := hstep.1
        have hnext : Shadows e' t' := hstep.2
        subst hmore
        cases more' with
        | false => simp [DiffEnumerator.drain, DiffBaseEnumerator.drain, he, ht]
        | true =>
          have hrest := ih hnext
          have hcur := hnext.current
          simp only [DiffEnumerator.drain, DiffBaseEnumerator.drain, he, ht, hrest, hcur]
          simp [Function.comp_def]

end DiffEnumerator

theorem diffEnumerator_shadows (left right : List α) (cmp : Comparer α) :
    (diffEnumerator left right cmp).Shadows (diffBaseEnumerator left right [] cmp) :=
  ⟨rfl, rfl, rfl, rfl, rfl, rfl, rfl, rfl⟩

theorem withNullBase_toDiffPair (p : DiffPair α) : p.withNullBase.toDiffPair = p := rfl

/-- The pairs behind a run of the three-way enumerator over an empty base. -/
theorem diffEnumerator_pairs {left right : List α} {cmp : Comparer α} {ts : List (DiffTripple α)}
    {fuel : Nat}
    (h : (diffBaseEnumerator left right [] cmp).drain fuel = some (ts.map some)) :
    (diffEnumerator left right cmp).drain fuel =
        some ((ts.map DiffTripple.toDiffPair).map some) ∧
      ts = (ts.map DiffTripple.toDiffPair).map DiffPair.withNullBase := by
  rw [(diffEnumerator_shadows left right cmp).drain] at h
  rcases Option.map_eq_some_iff.mp h with ⟨ps, hps, hts⟩
  have hback : ps = (ts.map DiffTripple.toDiffPair).map some := by
    have hmap := congrArg (List.map (Option.map DiffTripple.toDiffPair)) hts
    simpa [Function.comp_def, withNullBase_toDiffPair] using hmap
  refine ⟨by rw [hps, hback], ?_⟩
  rw [hback] at hts
  have hsome : ((ts.map DiffTripple.toDiffPair).map DiffPair.withNullBase).map some =
      ts.map some := by simpa [Function.comp_def] using hts
  exact ((Option.some_injective _).list_map hsome).symm

/-- Both enumerators come to their end, with the same pairs and no base. -/
theorem diffBaseEnumerator_emptyBase (left right : List α) (cmp : Comparer α) :
    ∃ ps : List (DiffPair α), ∀ fuel, left.length + right.length < fuel →
      (diffEnumerator left right cmp).drain fuel = some (ps.map some) ∧
      (diffBaseEnumerator left right [] cmp).drain fuel =
        some ((ps.map DiffPair.withNullBase).map some) := by
  obtain ⟨ts, hts, hdrain⟩ := diffBaseEnumerator_run left right [] cmp
  refine ⟨ts.map DiffTripple.toDiffPair, ?_⟩
  intro fuel hf
  have htriples := hdrain fuel (by simpa using hf)
  have hpairs := diffEnumerator_pairs htriples
  exact ⟨hpairs.1, by rw [← hpairs.2]; exact htriples⟩

/-- The pair at key `k` tells of each side whether the key occurs there, and gives the item. -/
structure DiffPair.Shows (cmp : α → α → Int) (left right : List α) (k : α) (p : DiffPair α) :
    Prop where
  hasLeft : p.hasLeft = true ↔ ∃ x ∈ left, cmp k x = 0
  hasRight : p.hasRight = true ↔ ∃ x ∈ right, cmp k x = 0
  left : p.hasLeft = true → ∃ x ∈ left, cmp k x = 0 ∧ p.left = some x
  right : p.hasRight = true → ∃ x ∈ right, cmp k x = 0 ∧ p.right = some x

/-- One pair a distinct key of the union, in key order, each showing its key. -/
def IsPairJoin (cmp : α → α → Int) (left right : List α) (ps : List (DiffPair α)) : Prop :=
  ∃ keys : List α, Increasing cmp keys ∧ (∀ k ∈ keys, k ∈ left ∨ k ∈ right) ∧
    (∀ x, x ∈ left ∨ x ∈ right → ∃ k ∈ keys, cmp k x = 0) ∧
    List.Forall₂ (DiffPair.Shows cmp left right) keys ps

/-- Every key of the one sequence is a key of the other. -/
def KeysWithin (cmp : α → α → Int) (xs ys : List α) : Prop := ∀ x ∈ xs, ∃ y ∈ ys, cmp x y = 0

theorem find?_at_key {cmp : α → α → Int} {xs : List α} {k : α} (h : ∃ x ∈ xs, cmp k x = 0) :
    ∃ x ∈ xs, cmp k x = 0 ∧ xs.find? (fun x => cmp k x = 0) = some x := by
  have hsome : (xs.find? (fun x => cmp k x = 0)).isSome = true := by
    simpa [List.find?_isSome] using h
  rcases Option.isSome_iff_exists.mp hsome with ⟨x, hx⟩
  have hzero : cmp k x = 0 := by simpa using List.find?_some hx
  exact ⟨x, List.mem_of_find?_eq_some hx, hzero, hx⟩

/-- With the key on both sides the two flags are true, and so is what they say. -/
theorem shows_of_both {cmp : α → α → Int} {left right : List α} {k : α}
    (hl : ∃ x ∈ left, cmp k x = 0) (hr : ∃ x ∈ right, cmp k x = 0) :
    DiffPair.Shows cmp left right k
      ⟨left.find? (fun x => cmp k x = 0), right.find? (fun x => cmp k x = 0)⟩ := by
  rcases find?_at_key hl with ⟨l, hlmem, hlkey, hlfind⟩
  rcases find?_at_key hr with ⟨r, hrmem, hrkey, hrfind⟩
  rw [hlfind, hrfind]
  exact {
    hasLeft := ⟨fun _ => hl, fun _ => rfl⟩
    hasRight := ⟨fun _ => hr, fun _ => rfl⟩
    left := fun _ => ⟨l, hlmem, hlkey, rfl⟩
    right := fun _ => ⟨r, hrmem, hrkey, rfl⟩ }

section Keys

variable {cmp : α → α → Int} (hc : TotalOrder cmp) {left right : List α}

include hc

theorem key_transfer {x y z : α} (hxy : cmp x y = 0) (hxz : cmp x z = 0) : cmp y z = 0 := by
  have hyx := hc.eq_zero_symm hxy
  have hzx := hc.eq_zero_symm hxz
  have hle : cmp y z ≤ 0 := hc.trans y x z hyx.le hxz.le
  have hge : cmp z y ≤ 0 := hc.trans z x y hzx.le hxy.le
  have h := hc.swap y z
  have h' := hc.swap z y
  omega

/-- A key of the union is on the side that has all keys. -/
theorem key_on_side {xs ys : List α} (hys : KeysWithin cmp ys xs) {k : α}
    (hk : k ∈ xs ∨ k ∈ ys) : ∃ x ∈ xs, cmp k x = 0 := by
  rcases hk with hk | hk
  · exact ⟨k, hk, hc.refl k⟩
  · exact hys k hk

theorem isPairJoin_of_outerJoin (hlr : KeysWithin cmp left right) (hrl : KeysWithin cmp right left)
    {ts : List (DiffTripple α)} (h : IsOuterJoin cmp left right [] ts) :
    IsPairJoin cmp left right (ts.map DiffTripple.toDiffPair) := by
  rcases h with ⟨keys, hinc, hfrom, hcover, hts⟩
  have hside : ∀ k ∈ keys, k ∈ left ∨ k ∈ right := by
    intro k hk
    simpa using hfrom k hk
  refine ⟨keys, hinc, hside, ?_, ?_⟩
  · intro x hx
    exact hcover x (by simpa using hx)
  · rw [hts, List.map_map, List.forall₂_map_right_iff, List.forall₂_same]
    intro k hk
    have hl := key_on_side hc hrl (hside k hk)
    have hr := key_on_side hc hlr (hside k hk).symm
    exact shows_of_both hl hr

/-- Both flags are the same test, so pairs that show every key leave no key one-sided. -/
theorem IsPairJoin.sameKeys {ps : List (DiffPair α)} (h : IsPairJoin cmp left right ps) :
    KeysWithin cmp left right ∧ KeysWithin cmp right left := by
  rcases h with ⟨keys, _, _, hcover, hshows⟩
  have hboth : ∀ k ∈ keys, (∃ x ∈ left, cmp k x = 0) ↔ ∃ x ∈ right, cmp k x = 0 := by
    intro k hk
    rcases List.forall₂_iff_zip.mp hshows with ⟨hlen, hzip⟩
    rcases List.mem_iff_getElem.mp hk with ⟨i, hi, rfl⟩
    have hp : (keys[i], ps[i]) ∈ keys.zip ps := by
      rw [List.mem_iff_getElem]
      exact ⟨i, by simp [hi, ← hlen], by simp⟩
    have hshow := hzip hp
    exact hshow.hasLeft.symm.trans hshow.hasRight
  constructor
  · intro x hx
    rcases hcover x (.inl hx) with ⟨k, hk, hkx⟩
    rcases (hboth k hk).mp ⟨x, hx, hkx⟩ with ⟨y, hy, hky⟩
    exact ⟨y, hy, key_transfer hc hkx hky⟩
  · intro y hy
    rcases hcover y (.inr hy) with ⟨k, hk, hky⟩
    rcases (hboth k hk).mpr ⟨y, hy, hky⟩ with ⟨x, hx, hkx⟩
    exact ⟨x, hx, key_transfer hc hky hkx⟩

end Keys

theorem diffEnumerable_pairJoin_iff (left right : List α) (cmp : Comparer α)
    (hc : TotalOrder cmp.onItems) (hl : Increasing cmp.onItems left)
    (hr : Increasing cmp.onItems right) :
    (∃ ps : List (DiffPair α), IsPairJoin cmp.onItems left right ps ∧
      ∀ fuel, left.length + right.length < fuel →
        (diffEnumerable left right cmp).getEnumerator.drain fuel = some (ps.map some)) ↔
    KeysWithin cmp.onItems left right ∧ KeysWithin cmp.onItems right left := by
  constructor
  · intro ⟨ps, hps, _⟩
    exact hps.sameKeys hc
  · intro ⟨hlr, hrl⟩
    obtain ⟨ts, hts, hdrain⟩ := diffBaseEnumerator_run left right [] cmp
    have hinc : ∀ i, Increasing cmp.onItems (roles left right [] i) := by
      intro i
      cases i with
      | left => exact hl
      | right => exact hr
      | base => exact List.Pairwise.nil
    have hjoin := isOuterJoin_of_rows
      (hts.outerJoin hc (takes_progressive _) (takes_least hc) hinc)
    refine ⟨ts.map DiffTripple.toDiffPair, isPairJoin_of_outerJoin hc hlr hrl hjoin, ?_⟩
    intro fuel hf
    exact (diffEnumerator_pairs (hdrain fuel (by simpa using hf))).1

theorem diffEnumerable_pairJoin_two :
    ∃ ps : List (DiffPair Int), IsPairJoin intComparer.onItems [1, 4] [1, 4] ps ∧
      ps.map some = [some ⟨some 1, some 1⟩, some ⟨some 4, some 4⟩] := by
  have hkeys : KeysWithin intComparer.onItems [1, 4] [1, 4] := by
    intro x hx
    exact ⟨x, hx, (intComparer_totalOrder.refl x)⟩
  have hincreasing : Increasing intComparer.onItems [1, 4] := by
    simp [Increasing, Comparer.onItems, intComparer]
  obtain ⟨ps, hjoin, hdrain⟩ := (diffEnumerable_pairJoin_iff [1, 4] [1, 4] intComparer
    intComparer_totalOrder hincreasing hincreasing).mpr ⟨hkeys, hkeys⟩
  refine ⟨ps, hjoin, ?_⟩
  have hrun : (diffEnumerable [1, 4] [1, 4] intComparer).getEnumerator.drain 5 =
      some [some ⟨some 1, some 1⟩, some ⟨some 4, some 4⟩] := by decide
  exact Option.some.inj ((hdrain 5 (by decide)).symm.trans hrun)

/-- An item of the left sequence alone is said to be on the right as well. -/
theorem diffEnumerable_claims_right :
    (diffEnumerable [1] [] intComparer).getEnumerator.drain 2 = some [some ⟨some 1, none⟩] ∧
    (⟨some 1, none⟩ : DiffPair Int).hasRight = true ∧
    ¬∃ ps : List (DiffPair Int), IsPairJoin intComparer.onItems [1] [] ps ∧
      ∀ fuel, 1 < fuel →
        (diffEnumerable [1] [] intComparer).getEnumerator.drain fuel = some (ps.map some) := by
  refine ⟨by decide, rfl, ?_⟩
  intro ⟨ps, hps, _⟩
  have hkeys := (hps.sameKeys intComparer_totalOrder).1 1 (by simp)
  simp at hkeys

namespace DiffEnumerator

/-- The two-way enumerator does start again, in whatever state it is. -/
theorem reset_eq (e : DiffEnumerator α) :
    e.reset = diffEnumerator e.left.source e.right.source e.comparer := rfl

end DiffEnumerator

namespace DiffBaseEnumerator

/-- `n` times `MoveNext`. -/
def moves (n : Nat) (e : DiffBaseEnumerator α) : DiffBaseEnumerator α :=
  (fun e => e.moveNext.2)^[n] e

/-- No item of the base has been used yet; one that is only held counts as unused. -/
def BaseUntouched (e : DiffBaseEnumerator α) : Prop :=
  e.base.pending e.haveBase = e.base.source

theorem Refilled.valid {e : DiffBaseEnumerator α} (hr : e.Refilled) : e.Valid := by
  have hl := hr.1.held_release false
  have hright := hr.2.1.held_release false
  have hb := hr.2.2.held_release false
  simp only [Bool.not_false, Bool.and_true] at hl hright hb
  exact ⟨hl, hright, hb⟩

/-- Whether or not there was something to emit, `MoveNext` refills and then lets go. -/
theorem moveNext_cases (e : DiffBaseEnumerator α) (hv : e.Valid) :
    e.moveNext.2 = e.refill.release e.refill.takesNext ∨ e.moveNext.2 = e.refill := by
  have hr := refill_refilled e hv
  by_cases hx : e.refill.haveLeft = true ∨ e.refill.haveRight = true ∨ e.refill.haveBase = true
  · have he := emit_eq e.refill hr hx
    exact .inl (by rw [moveNext, he])
  · simp only [not_or, Bool.not_eq_true] at hx
    exact .inr (by simp [moveNext, emit, hx])

/-- What `MoveNext` keeps: what is held is there, and where the sequences start. -/
structure Kept (left right base : List α) (cmp : Comparer α) (e : DiffBaseEnumerator α) :
    Prop where
  valid : e.Valid
  comparer : e.comparer = cmp
  left : e.left.source = left
  right : e.right.source = right
  base : e.base.source = base

section Kept

variable {left right base : List α} {cmp : Comparer α} {e : DiffBaseEnumerator α}

theorem Kept.moveNext (h : Kept left right base cmp e) :
    Kept left right base cmp e.moveNext.2 := by
  have hr := refill_refilled e h.valid
  have hl : e.refill.left.source = left := (Cursor.fetch_source _ _).trans h.left
  have hright : e.refill.right.source = right := (Cursor.fetch_source _ _).trans h.right
  have hb : e.refill.base.source = base := (Cursor.fetch_source _ _).trans h.base
  rcases moveNext_cases e h.valid with he | he
  · rw [he]
    exact ⟨(release_spec e.refill hr).1, h.comparer, hl, hright, hb⟩
  · rw [he]
    exact ⟨hr.valid, h.comparer, hl, hright, hb⟩

theorem Kept.moves (h : Kept left right base cmp e) (n : Nat) :
    Kept left right base cmp (e.moves n) := by
  induction n with
  | zero => exact h
  | succ n ih =>
    rw [DiffBaseEnumerator.moves, Function.iterate_succ_apply']
    exact ih.moveNext

theorem Kept.reset (h : Kept left right base cmp e) :
    Kept left right base cmp e.reset :=
  ⟨⟨Cursor.held_false _, Cursor.held_false _, h.valid.2.2⟩, h.comparer, h.left, h.right, h.base⟩

/-- After `Reset` the base goes on where it was. -/
theorem Kept.reset_pending (h : Kept left right base cmp e) :
    e.reset.pending = roles left right (e.base.pending e.haveBase) := by
  rw [← h.left, ← h.right]
  rfl

end Kept

theorem diffBaseEnumerator_kept (left right base : List α) (cmp : Comparer α) :
    Kept left right base cmp (diffBaseEnumerator left right base cmp) :=
  ⟨diffBaseEnumerator_valid left right base cmp, rfl, rfl, rfl, rfl⟩

/-- The run of an enumerator is decided by its comparer and by what the roles still hold. -/
theorem drain_congr {e e' : DiffBaseEnumerator α} (hv : e.Valid) (hv' : e'.Valid)
    (hcmp : e.comparer = e'.comparer) (hp : e.pending = e'.pending) (fuel : Nat) :
    e.drain fuel = e'.drain fuel := by
  induction fuel generalizing e e' with
  | zero => rfl
  | succ fuel ih =>
    by_cases hx : ∃ i, e.pending i ≠ []
    · obtain ⟨hmore, hvn, hcn, ⟨t, hcur, hcell⟩, hpn⟩ := moveNext_step e hv hx
      obtain ⟨hmore', hvn', hcn', ⟨t', hcur', hcell'⟩, hpn'⟩ := moveNext_step e' hv' (hp ▸ hx)
      have htake : e.takesNext = e'.takesNext := by rw [takesNext, takesNext, hcmp, hp]
      have ht : t = t' := cell_injective (by rw [hcell, hcell', htake, hp])
      have hrest := ih hvn hvn' (by rw [hcn, hcn', hcmp]) (by rw [hpn, hpn', htake, hp])
      cases hm : e.moveNext with
      | mk more en =>
        cases hm' : e'.moveNext with
        | mk more' en' =>
          rw [hm] at hmore hcur hrest
          rw [hm'] at hmore' hcur' hrest
          simp only at hmore hcur hmore' hcur' hrest
          simp [drain, hm, hm', hmore, hmore', hcur, hcur', ht, hrest]
    · have hnone : ∀ i, e.pending i = [] := by simpa using hx
      have hend := moveNext_end e hv hnone
      have hend' := moveNext_end e' hv' (hp ▸ hnone)
      cases hm : e.moveNext with
      | mk more en =>
        cases hm' : e'.moveNext with
        | mk more' en' =>
          rw [hm] at hend
          rw [hm'] at hend'
          simp only at hend hend'
          simp [drain, hm, hm', hend, hend']

end DiffBaseEnumerator

/-- `Reset` gives the fresh run again just when no item of the base has been used. -/
theorem reset_restarts_iff (left right base : List α) (cmp : Comparer α) (n : Nat) :
    (∀ fuel, ((diffBaseEnumerator left right base cmp).moves n).reset.drain fuel =
      (diffBaseEnumerator left right base cmp).drain fuel) ↔
    ((diffBaseEnumerator left right base cmp).moves n).BaseUntouched := by
  have hfresh := DiffBaseEnumerator.diffBaseEnumerator_kept left right base cmp
  have hkept := hfresh.moves n
  have hpend := hkept.reset_pending
  rw [DiffBaseEnumerator.BaseUntouched, hkept.base]
  constructor
  · intro hsame
    obtain ⟨ts, hts, hdrain⟩ := DiffBaseEnumerator.drain_run _ hkept.reset.valid
    obtain ⟨ts', hts', hdrain'⟩ := DiffBaseEnumerator.drain_run _ hfresh.valid
    -- one bound within which both runs end
    obtain ⟨fuel, hf, hf'⟩ : ∃ fuel,
        remaining ((diffBaseEnumerator left right base cmp).moves n).reset.pending < fuel ∧
        remaining (diffBaseEnumerator left right base cmp).pending < fuel :=
      ⟨_, Nat.lt_succ_of_le (Nat.le_add_right _ _), Nat.lt_succ_of_le (Nat.le_add_left _ _)⟩
    have hrun := hdrain fuel hf
    have hrun' := hdrain' fuel hf'
    rw [hpend] at hts
    rw [hsame, hrun'] at hrun
    have heq : ts' = ts := (Option.some_injective _).list_map (Option.some.inj hrun)
    subst heq
    have hbase := (merges_attributed hts).2.2
    have hbase' := (@merges_attributed _ _ left right base _ hts').2.2
    exact hbase.symm.trans hbase'
  · intro hbase
    rw [hbase] at hpend
    exact DiffBaseEnumerator.drain_congr hkept.reset.valid hfresh.valid
      (hkept.reset.comparer.trans hfresh.comparer.symm) hpend

/-- One item, in the base only: after `Reset` it is gone. -/
theorem reset_loses_base :
    ((diffBaseEnumerator [] [] [1] intComparer).moves 1).reset.drain 2 = some [] ∧
    (diffBaseEnumerator [] [] [1] intComparer).drain 2 =
      some [some (diffTripple none none (some 1))] ∧
    ¬∀ fuel, ((diffBaseEnumerator [] [] [1] intComparer).moves 1).reset.drain fuel =
      (diffBaseEnumerator [] [] [1] intComparer).drain fuel := by
  have hreset : ((diffBaseEnumerator [] [] [1] intComparer).moves 1).reset.drain 2 = some [] := by
    decide
  have hfresh : (diffBaseEnumerator [] [] [1] intComparer).drain 2 =
      some [some (diffTripple none none (some 1))] := by decide
  refine ⟨hreset, hfresh, ?_⟩
  intro h
  have h2 := h 2
  rw [hreset, hfresh] at h2
  simp at h2

end SharpGit.Plumbing
