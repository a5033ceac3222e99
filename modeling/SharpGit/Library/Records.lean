import Mathlib.Data.List.Basic
import Mathlib.Data.List.Chain
import Mathlib.Data.List.Sort

namespace SharpGit.Library

section Place

variable {α : Type*} {lt : α → α → Prop} [DecidableRel lt]

/-- Put `e` between the records before it and the records behind it. -/
def place (lt : α → α → Prop) [DecidableRel lt] (e : α) (xs : List α) : List α :=
  xs.filter (fun x => lt x e) ++ e :: xs.filter fun x => lt e x

theorem mem_place {e x : α} {xs : List α} (hcmp : ∀ y ∈ xs, lt y e ∨ lt e y) :
    x ∈ place lt e xs ↔ x = e ∨ x ∈ xs := by
  simp only [place, List.mem_append, List.mem_cons, List.mem_filter, decide_eq_true_eq]
  constructor
  · intro h
    obtain ⟨h, -⟩ | h | ⟨h, -⟩ := h
    · exact .inr h
    · exact .inl h
    · exact .inr h
  · intro h
    obtain h | h := h
    · exact .inr (.inl h)
    · obtain hlt | hlt := hcmp x h
      · exact .inl ⟨h, hlt⟩
      · exact .inr (.inr ⟨h, hlt⟩)

theorem place_pairwise [IsTrans α lt] {xs : List α} (h : xs.Pairwise lt) (e : α) :
    (place lt e xs).Pairwise lt := by
  refine List.pairwise_append.mpr ⟨h.filter _, List.pairwise_cons.mpr ⟨?_, h.filter _⟩, ?_⟩
  · intro x hx
    simpa using (List.mem_filter.mp hx).2
  · intro x hx y hy
    have hxe : lt x e := by simpa using (List.mem_filter.mp hx).2
    obtain rfl | hy := List.mem_cons.mp hy
    · exact hxe
    · have hey : lt e y := by simpa using (List.mem_filter.mp hy).2
      exact IsTrans.trans _ _ _ hxe hey

end Place

section Scan

variable {α : Type*}

/-- What is left when the element behind a deleted one is never looked at. -/
def skipRemove (hit : α → Bool) : List α → List α
  | [] => []
  | [x] => if hit x then [] else [x]
  | x :: y :: rest =>
    if hit x then y :: skipRemove hit rest else x :: skipRemove hit (y :: rest)

theorem skipRemove_keeps_misses {hit : α → Bool} (xs : List α) :
    (skipRemove hit xs).filter (fun x => !hit x) = xs.filter fun x => !hit x := by
  fun_induction skipRemove hit xs with
  | case1 => rfl
  | case2 x hx => simp [hx]
  | case3 x hx => rfl
  | case4 x y rest hx ih => simp [List.filter_cons, hx, ih]
  | case5 x y rest hx ih =>
    rw [List.filter_cons, ih]
    simp [List.filter_cons]

theorem mem_skipRemove_of_miss {hit : α → Bool} {x : α} (hx : hit x = false) (xs : List α) :
    x ∈ skipRemove hit xs ↔ x ∈ xs := by
  have hmisses (ys : List α) : x ∈ ys ↔ x ∈ ys.filter fun y => !hit y := by
    rw [List.mem_filter, hx]
    exact (and_iff_left rfl).symm
  rw [hmisses (skipRemove hit xs), hmisses xs, skipRemove_keeps_misses]

theorem skipRemove_sublist {hit : α → Bool} (xs : List α) : (skipRemove hit xs).Sublist xs := by
  fun_induction skipRemove hit xs with
  | case1 => exact .slnil
  | case2 x hx => exact List.nil_sublist _
  | case3 x hx => exact List.Sublist.refl _
  | case4 x y rest hx ih => exact (ih.cons_cons y).cons x
  | case5 x y rest hx ih => exact ih.cons_cons x

/-- No hit survives exactly when no two hits were neighbours. -/
theorem skipRemove_no_hit_iff {hit : α → Bool} (xs : List α) :
    (∀ x ∈ skipRemove hit xs, hit x = false) ↔
      xs.IsChain fun x y => ¬(hit x = true ∧ hit y = true) := by
  fun_induction skipRemove hit xs with
  | case1 => simp
  | case2 x hx => simp
  | case3 x hx => simpa using hx
  | case4 x y rest hx ih =>
    rw [List.forall_mem_cons, ih, List.isChain_cons_cons, hx]
    cases hy : hit y with
    | true => simp
    | false =>
      cases rest with
      | nil => simp
      | cons z rest => simp [List.isChain_cons_cons, hy]
  | case5 x y rest hx ih =>
    rw [List.forall_mem_cons, ih, List.isChain_cons_cons]
    simp [hx]

/-- The scan deletes exactly the hits if and only if no two of them are neighbours. -/
theorem skipRemove_eq_filter_iff {hit : α → Bool} (xs : List α) :
    skipRemove hit xs = xs.filter (fun x => !hit x) ↔
      xs.IsChain fun x y => ¬(hit x = true ∧ hit y = true) := by
  rw [← skipRemove_no_hit_iff, ← skipRemove_keeps_misses, eq_comm, List.filter_eq_self]
  simp

end Scan

section Index

variable {α : Type} {l : List α} {n : Nat} {a b : α}

theorem mem_take_append (h : b ∈ (l ++ [a]).take n) : b ∈ l.take n ∨ b = a := by
  rw [List.take_append] at h
  cases List.mem_append.mp h with
  | inl hold => exact .inl hold
  | inr hnew => exact .inr (List.mem_singleton.mp (List.mem_of_mem_take hnew))

/-- One further on, the list in front of the index has the element at the index. -/
theorem mem_take_succ (h : b ∈ l.take (n + 1)) : b ∈ l.take n ∨ l[n]? = some b := by
  rw [List.take_add_one] at h
  cases List.mem_append.mp h with
  | inl hold => exact .inl hold
  | inr hnew => exact .inr (Option.mem_toList.mp hnew)

theorem mem_take_of_getElem?_eq_none (h : l[n]? = none) (hb : b ∈ l) : b ∈ l.take n := by
  rw [List.take_of_length_le (List.getElem?_eq_none_iff.mp h)]
  exact hb

/-- An element that is not in front of the index is erased behind it. -/
theorem take_erase [DecidableEq α] (h : a ∉ l.take n) : (l.erase a).take n = l.take n := by
  have hsplit : l.erase a = l.take n ++ (l.drop n).erase a := by
    conv_lhs => rw [← List.take_append_drop n l]
    exact List.erase_append_right _ h
  by_cases hn : n ≤ l.length
  · rw [hsplit, List.take_left' (List.length_take_of_le hn)]
  · have hall : l.take n = l := List.take_of_length_le (by omega)
    rw [hall] at h
    rw [List.erase_of_not_mem h]

end Index

end SharpGit.Library
