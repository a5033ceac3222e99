import Mathlib.Data.List.Basic

namespace SharpGit.Library

variable {α : Type*} (stop : α → Bool) (up : α → α)

def ascend : Nat → α → Option α
  | 0, _ => none
  | fuel + 1, a => if stop a then some a else ascend fuel (up a)

/-- With enough fuel the way up from `a` ends at `b`. -/
def Ends (a b : α) : Prop := ∃ fuel, ascend stop up fuel a = some b

variable {stop up} {a b c : α}

theorem ends_of_stop (h : stop a = true) : Ends stop up a b ↔ b = a := by
  constructor
  · intro ⟨fuel, hfuel⟩
    cases fuel with
    | zero => exact absurd hfuel (by simp [ascend])
    | succ fuel =>
      rw [ascend, if_pos h] at hfuel
      exact (Option.some_inj.mp hfuel).symm
  · intro heq
    subst heq
    exact ⟨1, by rw [ascend, if_pos h]⟩

theorem ends_of_not_stop (h : stop a = false) : Ends stop up a b ↔ Ends stop up (up a) b := by
  constructor
  · intro ⟨fuel, hfuel⟩
    cases fuel with
    | zero => exact absurd hfuel (by simp [ascend])
    | succ fuel =>
      rw [ascend, h, if_neg (by simp)] at hfuel
      exact ⟨fuel, hfuel⟩
  · intro ⟨fuel, hfuel⟩
    exact ⟨fuel + 1, by rw [ascend, h, if_neg (by simp), hfuel]⟩

/-- A place that goes nowhere and does not stop the way is never left. -/
theorem not_ends_of_fixed (hup : up a = a) (h : stop a = false) : ¬Ends stop up a b := by
  intro ⟨fuel, hfuel⟩
  induction fuel with
  | zero => simp [ascend] at hfuel
  | succ fuel ih =>
    rw [ascend, h, if_neg (by simp), hup] at hfuel
    exact ih hfuel

theorem ascend_mono {fuel more : Nat} (hle : fuel ≤ more) (h : ascend stop up fuel a = some b) :
    ascend stop up more a = some b := by
  induction fuel generalizing a more with
  | zero => simp [ascend] at h
  | succ fuel ih =>
    obtain ⟨more, rfl⟩ : ∃ m, more = m + 1 := ⟨more - 1, by omega⟩
    rw [ascend] at h ⊢
    split_ifs at h ⊢ with hs
    · exact h
    · exact ih (by omega) h

theorem Ends.unique (hb : Ends stop up a b) (hc : Ends stop up a c) : b = c := by
  obtain ⟨n, hn⟩ := hb
  obtain ⟨m, hm⟩ := hc
  have hb' := ascend_mono (Nat.le_max_left n m) hn
  have hc' := ascend_mono (Nat.le_max_right n m) hm
  exact Option.some_inj.mp (hb'.symm.trans hc')

/-- Where every step that moves makes the place smaller, a way that ends does so within its size. -/
theorem Ends.within {size : α → Nat} (hup : ∀ a, up a = a ∨ size (up a) < size a)
    (h : Ends stop up a b) : ascend stop up (size a + 1) a = some b := by
  induction hn : size a using Nat.strongRecOn generalizing a with
  | ind n ih =>
    rw [ascend]
    cases hs : stop a with
    | true => simpa using ((ends_of_stop hs).mp h).symm
    | false =>
      rw [if_neg (by simp)]
      have hnext := (ends_of_not_stop hs).mp h
      obtain hfix | hless := hup a
      · exact absurd h (not_ends_of_fixed hfix hs)
      · have hrest := ih (size (up a)) (hn ▸ hless) hnext rfl
        exact ascend_mono (by omega) hrest

end SharpGit.Library
