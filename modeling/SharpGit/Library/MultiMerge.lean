import Mathlib.Algebra.BigOperators.Fin
import Mathlib.Algebra.Order.BigOperators.Group.Finset
import Mathlib.Data.List.Pairwise

namespace SharpGit.Library

variable {ι α : Type*}

abbrev Chooser (ι α : Type*) := (ι → Option α) → ι → Bool

def heads (xs : ι → List α) : ι → Option α := fun i => (xs i).head?

def pick (take : ι → Bool) (hs : ι → Option α) : ι → Option α :=
  fun i => if take i then hs i else none

def advance (take : ι → Bool) (xs : ι → List α) : ι → List α :=
  fun i => if take i then (xs i).tail else xs i

/-- The rows of a complete merge, from the first row to the moment every list is used up. -/
inductive Merges (choose : Chooser ι α) : (ι → List α) → List (ι → Option α) → Prop
  | done {xs} (hx : ∀ i, xs i = []) : Merges choose xs []
  | step {xs rows} (hx : ∃ i, xs i ≠ [])
      (ht : Merges choose (advance (choose (heads xs)) xs) rows) :
      Merges choose xs (pick (choose (heads xs)) (heads xs) :: rows)

/-- A chooser that never stalls: some present head is taken. -/
def Progressive (choose : Chooser ι α) : Prop :=
  ∀ hs, (∃ i, (hs i).isSome) → ∃ i, choose hs i = true ∧ (hs i).isSome

theorem column_step (take : ι → Bool) (xs : ι → List α) (i : ι) :
    (pick take (heads xs) i).toList ++ advance take xs i = xs i := by
  cases hx : xs i <;> cases ht : take i <;> simp [pick, heads, advance, hx, ht]

/-- Whatever the chooser does, column `i` of the rows is list `i`, whole and in order. -/
theorem Merges.column {choose : Chooser ι α} {xs : ι → List α} {rows : List (ι → Option α)}
    (h : Merges choose xs rows) (i : ι) : rows.filterMap (fun row => row i) = xs i := by
  induction h with
  | done hx => simp [hx i]
  | @step xs rows hx ht ih =>
    have hstep := column_step (choose (heads xs)) xs i
    rw [List.filterMap_cons]
    cases hp : pick (choose (heads xs)) (heads xs) i with
    | none => simpa [hp, ih] using hstep
    | some x => simpa [hp, ih] using hstep

section Length

variable [Fintype ι]

def remaining (xs : ι → List α) : Nat := ∑ i, (xs i).length

theorem remaining_advance (choose : Chooser ι α) (hc : Progressive choose) (xs : ι → List α)
    (hx : ∃ i, xs i ≠ []) : remaining (advance (choose (heads xs)) xs) < remaining xs := by
  have hsome : ∃ i, (heads xs i).isSome := by
    obtain ⟨i, hi⟩ := hx
    exact ⟨i, by simpa [heads, List.isSome_head?] using hi⟩
  obtain ⟨i, hti, hi⟩ := hc _ hsome
  apply Finset.sum_lt_sum
  · intro j _
    unfold advance
    split <;> simp
  · refine ⟨i, Finset.mem_univ i, ?_⟩
    cases hxi : xs i with
    | nil => simp [heads, hxi] at hi
    | cons x rest => simp [advance, hti, hxi]

/-- A progressive chooser merges every family of lists, with at most one row an item. -/
theorem exists_merges (choose : Chooser ι α) (hc : Progressive choose) (xs : ι → List α) :
    ∃ rows, Merges choose xs rows ∧ rows.length ≤ remaining xs := by
  induction hn : remaining xs using Nat.strong_induction_on generalizing xs with
  | _ n ih =>
    by_cases hx : ∃ i, xs i ≠ []
    · have hlt := remaining_advance choose hc xs hx
      obtain ⟨rows, hrows, hlen⟩ := ih _ (hn ▸ hlt) _ rfl
      refine ⟨_, .step hx hrows, ?_⟩
      simp only [List.length_cons]
      omega
    · exact ⟨[], .done (by simpa using hx), by simp⟩

end Length

/-- The contract of a comparer: its sign is a total preorder whose ties are the keys. -/
structure TotalOrder (cmp : α → α → Int) : Prop where
  swap : ∀ x y, 0 < cmp x y ↔ cmp y x < 0
  trans : ∀ x y z, cmp x y ≤ 0 → cmp y z ≤ 0 → cmp x z ≤ 0

namespace TotalOrder

variable {cmp : α → α → Int} (hc : TotalOrder cmp)

include hc

theorem refl (x : α) : cmp x x = 0 := by
  have h := hc.swap x x
  omega

theorem eq_zero_symm {x y : α} (h : cmp x y = 0) : cmp y x = 0 := by
  have hxy := hc.swap x y
  have hyx := hc.swap y x
  omega

theorem le_iff (x y : α) : cmp y x ≤ 0 ↔ 0 ≤ cmp x y := by
  have hxy := hc.swap x y
  have hyx := hc.swap y x
  omega

theorem le_symm {x y : α} (h : 0 ≤ cmp x y) : cmp y x ≤ 0 := (hc.le_iff x y).mpr h

/-- What is at or above a least item is at or above all that lies above that one. -/
theorem least_iff {x y : α} (hxy : cmp x y ≤ 0) (z : α) :
    cmp z x ≤ 0 ∧ cmp z y ≤ 0 ↔ 0 ≤ cmp x z := by
  rw [← hc.le_iff x z]
  exact and_iff_left_of_imp fun hzx => hc.trans z x y hzx hxy

/-- A second item is least just where it ties with the first and the first is least. -/
theorem tie_iff {x y : α} (hxy : cmp x y ≤ 0) (z : α) :
    cmp y x ≤ 0 ∧ cmp y z ≤ 0 ↔ cmp x y = 0 ∧ cmp x z ≤ 0 := by
  constructor
  · intro ⟨hyx, hyz⟩
    have htie := (hc.le_iff x y).mp hyx
    exact ⟨by omega, hc.trans x y z hxy hyz⟩
  · intro ⟨htie, hxz⟩
    have hyx : cmp y x ≤ 0 := (hc.le_iff x y).mpr htie.ge
    exact ⟨hyx, hc.trans y x z hyx hxz⟩

theorem lt_of_lt_of_le {x y z : α} (hxy : cmp x y < 0) (hyz : cmp y z ≤ 0) : cmp x z < 0 := by
  by_contra hxz
  have hzx : cmp z x ≤ 0 := hc.le_symm (by omega)
  have hyx := hc.trans y z x hyz hzx
  have h := hc.swap y x
  omega

theorem lt_of_le_of_lt {x y z : α} (hxy : cmp x y ≤ 0) (hyz : cmp y z < 0) : cmp x z < 0 := by
  by_contra hxz
  have hzx : cmp z x ≤ 0 := hc.le_symm (by omega)
  have hzy := hc.trans z x y hzx hxy
  have h := hc.swap z y
  omega

end TotalOrder

def Increasing (cmp : α → α → Int) (xs : List α) : Prop := xs.Pairwise (fun x y => cmp x y < 0)

def atKey (cmp : α → α → Int) (xs : ι → List α) (k : α) : ι → Option α :=
  fun i => (xs i).find? (fun x => cmp k x = 0)

/-- One row a distinct key, in key order, each cell the item of its list with that key. -/
def OuterJoin (cmp : α → α → Int) (xs : ι → List α) (rows : List (ι → Option α)) : Prop :=
  ∃ keys : List α, Increasing cmp keys ∧ (∀ k ∈ keys, ∃ i, k ∈ xs i) ∧
    (∀ i, ∀ x ∈ xs i, ∃ k ∈ keys, cmp k x = 0) ∧ rows = keys.map (atKey cmp xs)

/-- A chooser that takes exactly the heads no other head is below. -/
def TakesLeast (choose : Chooser ι α) (cmp : α → α → Int) : Prop :=
  ∀ hs i x, hs i = some x → (choose hs i = true ↔ ∀ j y, hs j = some y → cmp x y ≤ 0)

section LeastKey

variable {choose : Chooser ι α} {cmp : α → α → Int} (hc : TotalOrder cmp)
  {xs : ι → List α} (hinc : ∀ i, Increasing cmp (xs i)) {k : α}
  (hk : ∀ i x, (xs i).head? = some x → cmp k x ≤ 0)

include hc hinc hk

variable (htake : ∀ i x, (xs i).head? = some x →
  (choose (heads xs) i = true ↔ cmp k x = 0))

include htake

theorem least_lt_advance (i : ι) (x : α) (hx : x ∈ advance (choose (heads xs)) xs i) :
    cmp k x < 0 := by
  have hi := hinc i
  have hki := hk i
  have hti := htake i
  cases hxs : xs i with
  | nil => simp [advance, hxs] at hx
  | cons y rest =>
    rw [hxs] at hi hki hti
    have hy : cmp k y ≤ 0 := hki y rfl
    have hty := hti y rfl
    by_cases ht : choose (heads xs) i = true
    · have hr : x ∈ rest := by simpa [advance, ht, hxs] using hx
      exact hc.lt_of_le_of_lt hy (List.rel_of_pairwise_cons hi hr)
    · have hlt : cmp k y < 0 := by
        have hne : cmp k y ≠ 0 := fun h0 => ht (hty.mpr h0)
        omega
      have hr : x ∈ y :: rest := by simpa [advance, ht, hxs] using hx
      rcases List.mem_cons.mp hr with rfl | hr
      · exact hlt
      · exact hc.lt_of_lt_of_le hlt (List.rel_of_pairwise_cons hi hr).le

theorem pick_eq_atKey : pick (choose (heads xs)) (heads xs) = atKey cmp xs k := by
  funext i
  have hlt := least_lt_advance hc hinc hk htake i
  have hti := htake i
  cases hxs : xs i with
  | nil => simp [pick, heads, atKey, hxs]
  | cons y rest =>
    rw [hxs] at hti
    have hty := hti y rfl
    by_cases ht : choose (heads xs) i = true
    · have h0 : cmp k y = 0 := hty.mp ht
      simp [pick, atKey, ht, hxs, h0, heads]
    · have hnone : atKey cmp xs k i = none := by
        simp only [atKey, List.find?_eq_none]
        intro x hx
        have hx' : cmp k x < 0 := hlt x (by simpa [advance, ht] using hx)
        simp only [decide_eq_true_eq]
        omega
      rw [hnone]
      simp [pick, ht]

omit hinc hk in
theorem atKey_advance (k' : α) (hkk : cmp k k' < 0) :
    atKey cmp (advance (choose (heads xs)) xs) k' = atKey cmp xs k' := by
  funext i
  have hti := htake i
  by_cases ht : choose (heads xs) i = true
  · cases hxs : xs i with
    | nil => simp [atKey, advance, hxs]
    | cons y rest =>
      rw [hxs] at hti
      have hky : cmp k y = 0 := (hti y rfl).mp ht
      have hyk : cmp y k' < 0 := hc.lt_of_le_of_lt (hc.eq_zero_symm hky).le hkk
      have hne : cmp k' y ≠ 0 := by
        intro h0
        have h := hc.eq_zero_symm h0
        omega
      simp [atKey, advance, ht, hxs, hne]
  · simp [atKey, advance, ht]

end LeastKey

theorem exists_least {choose : Chooser ι α} {cmp : α → α → Int} (hc : TotalOrder cmp)
    (hp : Progressive choose) (hl : TakesLeast choose cmp) (xs : ι → List α)
    (hx : ∃ i, xs i ≠ []) :
    ∃ k, (∃ i, k ∈ xs i) ∧ (∀ i x, (xs i).head? = some x → cmp k x ≤ 0) ∧
      ∀ i x, (xs i).head? = some x → (choose (heads xs) i = true ↔ cmp k x = 0) := by
  have hsome : ∃ i, (heads xs i).isSome := by
    obtain ⟨i, hi⟩ := hx
    exact ⟨i, by simpa [heads, List.isSome_head?] using hi⟩
  obtain ⟨i, hti, hi⟩ := hp _ hsome
  obtain ⟨k, hk⟩ := Option.isSome_iff_exists.mp hi
  have hmin := (hl _ i k hk).mp hti
  refine ⟨k, ⟨i, List.mem_of_head? hk⟩, fun j x hj => hmin j x hj, ?_⟩
  intro j x hj
  rw [hl _ j x hj]
  have hkx := hmin j x hj
  constructor
  · intro hle
    have hxk := hle i k hk
    have h := hc.swap x k
    have h' := hc.swap k x
    omega
  · intro h0 m y hy
    exact hc.trans x k y (hc.eq_zero_symm h0).le (hmin m y hy)

theorem increasing_advance {cmp : α → α → Int} {xs : ι → List α}
    (hinc : ∀ i, Increasing cmp (xs i)) (take : ι → Bool) (i : ι) :
    Increasing cmp (advance take xs i) := by
  unfold advance
  split
  · exact (hinc i).tail
  · exact hinc i

/-- Taking the least heads merges increasing lists into their outer join. -/
theorem Merges.outerJoin {choose : Chooser ι α} {cmp : α → α → Int} (hc : TotalOrder cmp)
    (hp : Progressive choose) (hl : TakesLeast choose cmp) {xs : ι → List α}
    {rows : List (ι → Option α)} (h : Merges choose xs rows)
    (hinc : ∀ i, Increasing cmp (xs i)) : OuterJoin cmp xs rows := by
  induction h with
  | done hx => exact ⟨[], List.Pairwise.nil, by simp, by simp [hx], rfl⟩
  | @step xs rows hx ht ih =>
    obtain ⟨k, hkmem, hk, htake⟩ := exists_least hc hp hl xs hx
    obtain ⟨keys, hkeys, hfrom, hcover, hrows⟩ := ih (increasing_advance hinc _)
    have hlt : ∀ k' ∈ keys, cmp k k' < 0 := by
      intro k' hk'
      obtain ⟨i, hi⟩ := hfrom k' hk'
      exact least_lt_advance hc hinc hk htake i k' hi
    refine ⟨k :: keys, List.pairwise_cons.mpr ⟨hlt, hkeys⟩, ?_, ?_, ?_⟩
    · intro k' hk'
      rcases List.mem_cons.mp hk' with rfl | hk'
      · exact hkmem
      · obtain ⟨i, hi⟩ := hfrom k' hk'
        refine ⟨i, ?_⟩
        unfold advance at hi
        split at hi
        · exact List.mem_of_mem_tail hi
        · exact hi
    · intro i x hxi
      have hstep := column_step (choose (heads xs)) xs i
      rw [← hstep, List.mem_append] at hxi
      rcases hxi with hp' | ha
      · refine ⟨k, by simp, ?_⟩
        rw [pick_eq_atKey hc hinc hk htake, Option.mem_toList] at hp'
        simpa using List.find?_some hp'
      · obtain ⟨k', hk', h0⟩ := hcover i x ha
        exact ⟨k', List.mem_cons_of_mem _ hk', h0⟩
    · rw [List.map_cons, pick_eq_atKey hc hinc hk htake, hrows]
      congr 1
      apply List.map_congr_left
      intro k' hk'
      exact atKey_advance hc htake k' (hlt k' hk')

end SharpGit.Library
