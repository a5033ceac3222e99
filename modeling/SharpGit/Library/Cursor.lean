import Mathlib.Data.List.Basic

namespace SharpGit.Library

/-- A pull cursor over a list: what is still to come and the item under the cursor. -/
structure Cursor (α : Type*) where
  source : List α
  rest : List α
  current : Option α
  deriving DecidableEq, Repr

namespace Cursor

variable {α : Type*}

def start (source : List α) : Cursor α := ⟨source, source, none⟩

/-- Past the end the cursor stays there and keeps answering false. -/
def moveNext (c : Cursor α) : Bool × Cursor α :=
  match c.rest with
  | [] => (false, { c with current := none })
  | x :: rest => (true, { c with rest := rest, current := some x })

/-- Back in front of the first item. -/
def reset (c : Cursor α) : Cursor α := start c.source

/-- What a reader that may be holding the current item has not yet used. -/
def pending (flag : Bool) (c : Cursor α) : List α :=
  if flag then c.current.toList ++ c.rest else c.rest

def Held (flag : Bool) (c : Cursor α) : Prop := flag = true → c.current.isSome = true

/-- Hold the current item: advance unless one is held already. -/
def fetch (flag : Bool) (c : Cursor α) : Bool × Cursor α :=
  if flag then (flag, c) else c.moveNext

@[simp] theorem pending_release (c : Cursor α) : c.pending false = c.rest := rfl

theorem held_false (c : Cursor α) : c.Held false := by simp [Held]

@[simp] theorem moveNext_source (c : Cursor α) : c.moveNext.2.source = c.source := by
  unfold moveNext
  split <;> rfl

@[simp] theorem fetch_source (flag : Bool) (c : Cursor α) :
    (c.fetch flag).2.source = c.source := by
  unfold fetch
  split
  · rfl
  · exact c.moveNext_source

/-- After a fetch the flag says whether anything is left, and what is held is its head. -/
theorem fetch_cases (flag : Bool) (c : Cursor α) (hh : c.Held flag) :
    (c.pending flag = [] ∧ (c.fetch flag).1 = false ∧ (c.fetch flag).2.rest = []) ∨
    ∃ x rest, c.pending flag = x :: rest ∧ (c.fetch flag).1 = true ∧
      (c.fetch flag).2.current = some x ∧ (c.fetch flag).2.rest = rest := by
  cases flag with
  | true =>
    obtain ⟨x, hx⟩ := Option.isSome_iff_exists.mp (hh rfl)
    exact .inr ⟨x, c.rest, by simp [pending, hx], rfl, by simp [fetch, hx], rfl⟩
  | false =>
    cases hr : c.rest with
    | nil => exact .inl ⟨by simp [pending, hr], by simp [fetch, moveNext, hr],
        by simp [fetch, moveNext, hr]⟩
    | cons x rest => exact .inr ⟨x, rest, by simp [pending, hr], by simp [fetch, moveNext, hr],
        by simp [fetch, moveNext, hr], by simp [fetch, moveNext, hr]⟩

theorem pending_fetch (flag : Bool) (c : Cursor α) (hh : c.Held flag) :
    (c.fetch flag).2.pending (c.fetch flag).1 = c.pending flag := by
  rcases c.fetch_cases flag hh with ⟨hp, hf, hr⟩ | ⟨x, rest, hp, hf, hx, hr⟩
  · simp [hp, hf, hr]
  · rw [hp, hf]
    simp [pending, hx, hr]

/-- The reader holds the next item, or there is none. -/
def Filled (flag : Bool) (c : Cursor α) : Prop :=
  flag = false ∧ c.rest = [] ∨ flag = true ∧ ∃ x, c.current = some x

theorem fetch_filled (flag : Bool) (c : Cursor α) (hh : c.Held flag) :
    (c.fetch flag).2.Filled (c.fetch flag).1 := by
  rcases c.fetch_cases flag hh with ⟨_, hf, hr⟩ | ⟨x, _, _, hf, hx, _⟩
  · exact .inl ⟨hf, hr⟩
  · exact .inr ⟨hf, x, hx⟩

theorem Filled.flag_iff {flag : Bool} {c : Cursor α} (hf : c.Filled flag) :
    flag = true ↔ c.pending flag ≠ [] := by
  rcases hf with ⟨rfl, hr⟩ | ⟨rfl, x, hx⟩
  · simp [pending, hr]
  · simp [pending, hx]

section Release

variable {flag : Bool} {c : Cursor α} (hf : c.Filled flag) (take : Bool)

include hf

theorem Filled.held_release : c.Held (flag && !take) := by
  rcases hf with ⟨rfl, _⟩ | ⟨rfl, x, hx⟩
  · simp [Held]
  · simp [Held, hx]

theorem Filled.pending_release :
    c.pending (flag && !take) = if take then (c.pending flag).tail else c.pending flag := by
  rcases hf with ⟨rfl, hr⟩ | ⟨rfl, x, hx⟩
  · simp [pending, hr]
  · cases take <;> simp [pending, hx]

theorem Filled.taken (hp : take = true → (c.pending flag).head?.isSome) :
    (if take then c.current else none) = if take then (c.pending flag).head? else none := by
  rcases hf with ⟨rfl, hr⟩ | ⟨rfl, x, hx⟩
  · cases take with
    | false => rfl
    | true => simp [pending, hr] at hp
  · simp [pending, hx]

end Release

end Cursor

end SharpGit.Library
