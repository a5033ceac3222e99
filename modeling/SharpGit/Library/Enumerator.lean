import Mathlib.Data.List.Basic

namespace SharpGit.Library

structure Enumerator (S ε α : Type*) where
  moveNext : S → Except ε (Bool × S)
  current : S → α × S

namespace Enumerator

variable {S ε α : Type*} (it : Enumerator S ε α)

/-- All items from the state on, and the state at the end; `stuck` where `fuel` runs out. -/
def forEach (stuck : ε) : Nat → S → Except ε (List α × S)
  | 0, _ => .error stuck
  | fuel + 1, s =>
    match it.moveNext s with
    | .error e => .error e
    | .ok (false, s) => .ok ([], s)
    | .ok (true, s) =>
      match forEach stuck fuel (it.current s).2 with
      | .error e => .error e
      | .ok (items, last) => .ok ((it.current s).1 :: items, last)

/-- An enumerator that has come to its end stays there. -/
def Ended (s : S) : Prop := it.moveNext s = .ok (false, s)

/-- `Left s items` says that `items` are still to come, and the enumerator keeps to it. -/
structure Gives (Left : S → List α → Prop) : Prop where
  ends : ∀ s, Left s [] → ∃ last, it.moveNext s = .ok (false, last) ∧ it.Ended last
  moves : ∀ s x rest, Left s (x :: rest) →
    ∃ next, it.moveNext s = .ok (true, next) ∧ (it.current next).1 = x ∧
      Left (it.current next).2 rest

variable {it} {Left : S → List α → Prop}

/-- With enough fuel the loop collects what is to come, and ends. -/
theorem Gives.forEach (h : it.Gives Left) (stuck : ε) {fuel : Nat} {s : S} {items : List α}
    (hleft : Left s items) (hfuel : items.length < fuel) :
    ∃ last, it.forEach stuck fuel s = .ok (items, last) ∧ it.Ended last := by
  induction fuel generalizing s items with
  | zero => exact absurd hfuel (Nat.not_lt_zero _)
  | succ fuel ih =>
    cases items with
    | nil =>
      obtain ⟨last, hmove, hlast⟩ := h.ends s hleft
      exact ⟨last, by rw [Enumerator.forEach, hmove], hlast⟩
    | cons x rest =>
      obtain ⟨next, hmove, hcurrent, hnext⟩ := h.moves s x rest hleft
      obtain ⟨last, hrun, hlast⟩ := ih hnext (Nat.lt_of_succ_lt_succ hfuel)
      refine ⟨last, ?_, hlast⟩
      rw [Enumerator.forEach, hmove]
      simp only [hrun, hcurrent]

/-- Whenever the loop ends, it has collected what was to come. -/
theorem Gives.eq_of_forEach (h : it.Gives Left) {stuck : ε} {fuel : Nat} {s last : S}
    {items found : List α} (hleft : Left s items)
    (hrun : it.forEach stuck fuel s = .ok (found, last)) : found = items := by
  induction fuel generalizing s items found with
  | zero => cases hrun
  | succ fuel ih =>
    rw [Enumerator.forEach] at hrun
    cases items with
    | nil =>
      obtain ⟨ended, hmove, _⟩ := h.ends s hleft
      rw [hmove] at hrun
      exact (Prod.mk.inj (Except.ok.inj hrun)).1.symm
    | cons x rest =>
      obtain ⟨next, hmove, hcurrent, hnext⟩ := h.moves s x rest hleft
      rw [hmove] at hrun
      cases htail : it.forEach stuck fuel (it.current next).2 with
      | error e =>
        simp only [htail] at hrun
        cases hrun
      | ok tail =>
        simp only [htail] at hrun
        obtain ⟨rfl, rfl⟩ := Prod.mk.inj (Except.ok.inj hrun)
        rw [hcurrent, ih hnext htail]

end Enumerator

end SharpGit.Library
