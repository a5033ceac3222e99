import Mathlib.Data.List.Basic

namespace SharpGit.Library

abbrev Block (α : Type*) := List (Option α)

namespace Block

variable {α : Type*}

def zeroed (cells : Nat) : Block α := List.replicate cells none

/-- A write; none behind the last cell. -/
def write (block : Block α) (i : Nat) (x : α) : Option (Block α) :=
  if i < block.length then some (block.set i (some x)) else none

/-- The first cells of `source` copied over those of the block; none where either has fewer. -/
def copy (block source : Block α) (cells : Nat) : Option (Block α) :=
  if cells ≤ source.length ∧ cells ≤ block.length then
    some (source.take cells ++ block.drop cells)
  else none

/-- A block that holds these, with room behind them. -/
def holding (xs : List α) (room : Nat) : Block α := xs.map some ++ zeroed room

theorem holding_nil (room : Nat) : holding ([] : List α) room = zeroed room := rfl

theorem length_zeroed (cells : Nat) : (zeroed cells : Block α).length = cells :=
  List.length_replicate

theorem length_holding (xs : List α) (room : Nat) :
    (holding xs room).length = xs.length + room := by
  rw [holding, List.length_append, List.length_map, length_zeroed]

theorem getElem?_holding {xs : List α} {i : Nat} {x : α} (h : xs[i]? = some x) (room : Nat) :
    (holding xs room)[i]? = some (some x) := by
  have hi : i < (xs.map some).length := by
    rw [List.length_map]
    exact (List.getElem?_eq_some_iff.mp h).1
  rw [holding, List.getElem?_append_left hi, List.getElem?_map, h]
  rfl

/-- The next one is written behind those that the block holds. -/
theorem write_holding (xs : List α) (room : Nat) (x : α) :
    (holding xs (room + 1)).write xs.length x = some (holding (xs ++ [x]) room) := by
  have hroom : xs.length < (holding xs (room + 1)).length := by
    rw [length_holding]
    omega
  have hlast : (xs.map some).length ≤ xs.length := Nat.le_of_eq (List.length_map _)
  have hplace : (holding xs (room + 1)).set xs.length (some x) = holding (xs ++ [x]) room := by
    rw [holding, List.set_append_right _ _ hlast, List.length_map, Nat.sub_self, holding,
      List.map_append, List.append_assoc]
    rfl
  rw [write, if_pos hroom, hplace]

/-- A copy of all cells into a larger block keeps what they hold. -/
theorem copy_holding (xs : List α) {room cells : Nat} (h : xs.length + room ≤ cells) :
    (zeroed cells).copy (holding xs room) (xs.length + room) =
      some (holding xs (cells - xs.length)) := by
  have hfits : xs.length + room ≤ (holding xs room).length ∧
      xs.length + room ≤ (zeroed cells : Block α).length := by
    rw [length_holding, length_zeroed]
    exact ⟨Nat.le_refl _, h⟩
  have hall : (holding xs room).take (xs.length + room) = holding xs room := by
    rw [← length_holding, List.take_length]
  have hzeros : zeroed room ++ (zeroed cells).drop (xs.length + room) =
      (zeroed (cells - xs.length) : Block α) := by
    rw [zeroed, zeroed, List.drop_replicate, List.replicate_append_replicate, zeroed]
    congr 1
    omega
  rw [copy, if_pos hfits, hall, holding, List.append_assoc, hzeros, holding]

end Block

end SharpGit.Library
