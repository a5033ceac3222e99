import Mathlib.Data.List.Basic

namespace SharpGit.Library

variable {α : Type*}

/-- Move the position on while it passes, `steps` times at most. -/
def scan (ok : Nat → Bool) : Nat → Nat → Nat
  | 0, i => i
  | steps + 1, i => if ok i then scan ok steps (i + 1) else i

/-- How far a scan gets in a list that looks at what is left. -/
def reach (ok : List α → Bool) : List α → Nat
  | [] => 0
  | x :: xs => if ok (x :: xs) then reach ok xs + 1 else 0

/-- A scan to the end of a list, from the position where `rest` begins. -/
theorem scan_append {place : Nat → Bool} {ok : List α → Bool} {front rest : List α}
    (hplace : ∀ i, place i = ok ((front ++ rest).drop i)) :
    scan place rest.length front.length = front.length + reach ok rest := by
  induction rest generalizing front with
  | nil => rfl
  | cons x rest ih =>
    rw [List.length_cons, scan, reach, hplace, List.drop_left]
    cases hok : ok (x :: rest) with
    | false => simp
    | true =>
      have hnext := @ih (front ++ [x]) (by simpa using hplace)
      rw [List.length_append, List.length_singleton] at hnext
      rw [if_pos rfl, if_pos rfl, hnext]
      omega

/-- Where only the next element counts, the scan takes the elements that pass. -/
theorem reach_head (p : α → Bool) (xs : List α) :
    reach (·.head?.any p) xs = (xs.takeWhile p).length := by
  induction xs with
  | nil => rfl
  | cons x xs ih =>
    rw [reach, List.takeWhile_cons]
    cases hp : p x with
    | false => simp [hp]
    | true => simp [hp, ih]

/-- A scan that reaches `rest` has passed all before it. -/
theorem reach_split (ok : List α → Bool) (xs : List α) :
    ∃ taken rest, xs = taken ++ rest ∧ reach ok xs = taken.length ∧
      (rest = [] ∨ ok rest = false) ∧
      ∀ early late, taken = early ++ late → late ≠ [] → ok (late ++ rest) = true := by
  induction xs with
  | nil =>
    refine ⟨[], [], rfl, rfl, .inl rfl, ?_⟩
    intro early late h hlate
    exact absurd (List.append_eq_nil_iff.mp h.symm).2 hlate
  | cons x xs ih =>
    rw [reach]
    cases hok : ok (x :: xs) with
    | false =>
      refine ⟨[], x :: xs, rfl, rfl, .inr hok, ?_⟩
      intro early late h hlate
      exact absurd (List.append_eq_nil_iff.mp h.symm).2 hlate
    | true =>
      obtain ⟨taken, rest, hxs, hlength, hstop, htaken⟩ := ih
      refine ⟨x :: taken, rest, by rw [hxs, List.cons_append], ?_, hstop, ?_⟩
      · rw [if_pos rfl, hlength, List.length_cons]
      · intro early late h hlate
        cases early with
        | nil =>
          rw [List.nil_append] at h
          rw [← h, List.cons_append, ← hxs]
          exact hok
        | cons y early =>
          rw [List.cons_append] at h
          exact htaken early late (List.cons.inj h).2 hlate

/-- A scan stops behind what it passes, at what it does not pass. -/
theorem reach_append {ok : List α → Bool} {taken rest : List α}
    (htaken : ∀ early late, taken = early ++ late → late ≠ [] → ok (late ++ rest) = true)
    (hstop : rest = [] ∨ ok rest = false) : reach ok (taken ++ rest) = taken.length := by
  induction taken with
  | nil =>
    cases rest with
    | nil => rfl
    | cons x rest =>
      cases hstop with
      | inl h => cases h
      | inr h => rw [List.nil_append, reach, h, if_neg Bool.false_ne_true, List.length_nil]
  | cons x taken ih =>
    have hhead := htaken [] (x :: taken) rfl (List.cons_ne_nil _ _)
    rw [List.cons_append] at hhead ⊢
    rw [reach, hhead, if_pos rfl, List.length_cons, ih]
    intro early late h hlate
    exact htaken (x :: early) late (by rw [h, List.cons_append]) hlate

end SharpGit.Library
