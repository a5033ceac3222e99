import Mathlib.Data.List.Perm.Basic
import Mathlib.Data.List.Dedup

namespace SharpGit.Library

variable {α κ : Type*} [DecidableEq κ] (key : α → Option κ)

/-- The elements with this key, in order. -/
def group (k : κ) (l : List α) : List α := l.filter fun a => key a = some k

/-- The elements with any key. -/
def keyed (l : List α) : List α := l.filter fun a => (key a).isSome

variable {key}

theorem group_concat (k : κ) (l : List α) (a : α) :
    group key k (l ++ [a]) = if key a = some k then group key k l ++ [a] else group key k l := by
  rw [group, List.filter_append]
  split
  · rw [List.filter_cons_of_pos (by simpa using ‹key a = some k›)]
    rfl
  · rw [List.filter_cons_of_neg (by simpa using ‹¬key a = some k›), List.filter_nil,
      List.append_nil]
    rfl

/-- Without an element of the key, the group is empty. -/
theorem group_eq_nil {k : κ} {l : List α} (h : ∀ a ∈ l, key a ≠ some k) : group key k l = [] := by
  apply List.filter_eq_nil_iff.mpr
  intro a ha
  simpa using h a ha

theorem group_filter_ne {j k : κ} (hne : j ≠ k) (l : List α) :
    group key j (l.filter fun a => key a ≠ some k) = group key j l := by
  rw [group, List.filter_filter]
  apply List.filter_congr
  intro a _
  by_cases hj : key a = some j
  · simp [hj, hne]
  · simp [hj]

/-- The elements with a key are those of one key and the others. -/
theorem keyed_split (k : κ) (l : List α) :
    (group key k l ++ keyed key (l.filter fun a => key a ≠ some k)).Perm (keyed key l) := by
  have hsplit := List.filter_append_perm (fun a => decide (key a = some k)) (keyed key l)
  have hfront : (keyed key l).filter (fun a => decide (key a = some k)) = group key k l := by
    rw [keyed, List.filter_filter, group]
    apply List.filter_congr
    intro a _
    by_cases hk : key a = some k
    · simp [hk]
    · simp [hk]
  have hback : (keyed key l).filter (fun a => !decide (key a = some k)) =
      keyed key (l.filter fun a => key a ≠ some k) := by
    rw [keyed, keyed, List.filter_filter, List.filter_filter]
    apply List.filter_congr
    intro a _
    simp [Bool.and_comm]
  rw [hfront, hback] at hsplit
  exact hsplit

/-- The groups of other keys are in the rest of the list. -/
theorem flatMap_group_filter {k : κ} {keys : List κ} (hk : k ∉ keys) (l : List α) :
    (keys.flatMap fun j => group key j (l.filter fun a => key a ≠ some k)) =
      keys.flatMap fun j => group key j l := by
  rw [List.flatMap_def, List.flatMap_def]
  congr 1
  apply List.map_congr_left
  intro j hj
  have hne : j ≠ k := by
    intro h
    rw [h] at hj
    exact hk hj
  exact group_filter_ne hne l

/-- The groups of distinct keys that cover the list are a partition of its elements with a key. -/
theorem flatMap_group_perm {keys : List κ} (hnodup : keys.Nodup) {l : List α}
    (hkeys : ∀ a ∈ l, ∀ k, key a = some k → k ∈ keys) :
    (keys.flatMap fun k => group key k l).Perm (keyed key l) := by
  induction keys generalizing l with
  | nil =>
    have hnone : keyed key l = [] := by
      apply List.filter_eq_nil_iff.mpr
      intro a ha hsome
      obtain ⟨k, hk⟩ := Option.isSome_iff_exists.mp hsome
      cases hkeys a ha k hk
    rw [hnone]
    exact List.Perm.nil
  | cons k keys ih =>
    obtain ⟨hnot, hrest⟩ := List.nodup_cons.mp hnodup
    have hothers := @ih hrest (l.filter fun a => key a ≠ some k) (by
      intro a ha j hj
      obtain ⟨hmem, hne⟩ := List.mem_filter.mp ha
      rcases List.mem_cons.mp (hkeys a hmem j hj) with rfl | hin
      · simp [hj] at hne
      · exact hin)
    rw [flatMap_group_filter hnot] at hothers
    rw [List.flatMap_cons]
    exact (hothers.append_left _).trans (keyed_split k l)

end SharpGit.Library
