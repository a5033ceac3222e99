import Mathlib.Data.List.TakeWhile

namespace SharpGit.Library

variable {α : Type*} [DecidableEq α]

/-- The string that begins at `start`. -/
def stringAt (nul : α) (buffer : List α) (start : Nat) : List α :=
  (buffer.drop start).takeWhile (· ≠ nul)

/-- Where `c` first occurs in the string that begins at `start`. -/
def firstIn (nul : α) (buffer : List α) (start : Nat) (c : α) : Option Nat :=
  let s := stringAt nul buffer start
  if c ∈ s then some (start + (s.takeWhile (· ≠ c)).length) else none

/-- Where `c` last occurs in the string at the start of the buffer. -/
def lastIn (nul : α) (buffer : List α) (c : α) : Option Nat :=
  let s := stringAt nul buffer 0
  if c ∈ s then some (s.length - 1 - (s.reverse.takeWhile (· ≠ c)).length) else none

variable {nul : α}

theorem takeWhile_ne_of_not_mem {xs : List α} {c : α} (h : c ∉ xs) :
    xs.takeWhile (· ≠ c) = xs := by
  rw [List.takeWhile_eq_self_iff]
  intro x hx
  have hne : x ≠ c := fun heq => h (heq ▸ hx)
  simpa using hne

theorem takeWhile_ne_cut {xs : List α} {c : α} (h : c ∉ xs) (rest : List α) :
    (xs ++ c :: rest).takeWhile (· ≠ c) = xs := by
  have hpass : ∀ x ∈ xs, decide (x ≠ c) = true := by
    intro x hx
    have hne : x ≠ c := fun heq => h (heq ▸ hx)
    simpa using hne
  rw [List.takeWhile_append_of_pos hpass, List.takeWhile_cons_of_neg (by simp), List.append_nil]

/-- The first `c` cuts a list in one way. -/
theorem cut_inj {xs ys rest rest' : List α} {c : α} (hxs : c ∉ xs) (hys : c ∉ ys)
    (h : xs ++ c :: rest = ys ++ c :: rest') : xs = ys ∧ rest = rest' := by
  have hsame := congrArg (List.takeWhile (· ≠ c)) h
  rw [takeWhile_ne_cut hxs, takeWhile_ne_cut hys] at hsame
  subst hsame
  exact ⟨rfl, (List.cons.inj (List.append_cancel_left h)).2⟩

theorem stringAt_front (front : List α) {s : List α} (h : nul ∉ s) :
    stringAt nul (front ++ s) front.length = s := by
  rw [stringAt, List.drop_left, takeWhile_ne_of_not_mem h]

/-- A terminator cuts the string short. -/
theorem stringAt_cut (front : List α) {s : List α} (h : nul ∉ s) (rest : List α) :
    stringAt nul (front ++ (s ++ nul :: rest)) front.length = s := by
  rw [stringAt, List.drop_left, takeWhile_ne_cut h]

theorem firstIn_front (front : List α) {s rest : List α} {c : α} (hs : nul ∉ s ++ c :: rest)
    (hc : c ∉ s) :
    firstIn nul (front ++ (s ++ c :: rest)) front.length c = some (front.length + s.length) := by
  rw [firstIn, stringAt_front front hs, takeWhile_ne_cut hc]
  exact if_pos (by simp)

theorem firstIn_none (front : List α) {s : List α} {c : α} (hs : nul ∉ s) (hc : c ∉ s) :
    firstIn nul (front ++ s) front.length c = none := by
  rw [firstIn, stringAt_front front hs]
  exact if_neg hc

theorem lastIn_eq {buffer s after : List α} {c : α}
    (hread : stringAt nul buffer 0 = s ++ c :: after) (hc : c ∉ after) :
    lastIn nul buffer c = some s.length := by
  have hlength : (s ++ c :: after).length - 1 - after.reverse.length = s.length := by
    rw [List.length_append, List.length_cons, List.length_reverse]
    omega
  have hreverse : (s ++ c :: after).reverse = after.reverse ++ c :: s.reverse := by simp
  rw [lastIn, hread, hreverse, takeWhile_ne_cut (by simpa using hc), hlength]
  exact if_pos (by simp)

omit [DecidableEq α] in
/-- Put a terminator in the place of a character. -/
theorem set_front (front : List α) (a b : α) (rest : List α) :
    (front ++ a :: rest).set front.length b = front ++ b :: rest := by
  rw [List.set_append_right _ _ (Nat.le_refl _), Nat.sub_self, List.set_cons_zero]

end SharpGit.Library
