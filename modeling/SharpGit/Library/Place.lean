import Mathlib.Order.Lattice
import Mathlib.Order.WithBot
import Mathlib.Data.List.Infix

namespace SharpGit.Library

/-- The longest list that both lists start with. -/
def commonPrefix {α : Type} [DecidableEq α] : List α → List α → List α
  | a :: s, b :: t => if a = b then a :: commonPrefix s t else []
  | _, _ => []

section CommonPrefix

variable {α : Type} [DecidableEq α]

@[simp] theorem commonPrefix_nil_left (t : List α) : commonPrefix [] t = [] := by
  cases t <;> rfl

@[simp] theorem commonPrefix_nil_right (s : List α) : commonPrefix s [] = [] := by
  cases s <;> rfl

theorem commonPrefix_cons_self (a : α) (s t : List α) :
    commonPrefix (a :: s) (a :: t) = a :: commonPrefix s t := if_pos rfl

theorem commonPrefix_cons_ne {a b : α} (h : a ≠ b) (s t : List α) :
    commonPrefix (a :: s) (b :: t) = [] := if_neg h

theorem commonPrefix_append (front s t : List α) :
    commonPrefix (front ++ s) (front ++ t) = front ++ commonPrefix s t := by
  induction front with
  | nil => rfl
  | cons a front ih =>
    rw [List.cons_append, List.cons_append, commonPrefix_cons_self, ih, List.cons_append]

theorem commonPrefix_comm (s t : List α) : commonPrefix s t = commonPrefix t s := by
  induction s generalizing t with
  | nil => rw [commonPrefix_nil_left, commonPrefix_nil_right]
  | cons a s ih =>
    cases t with
    | nil => rfl
    | cons b t =>
      by_cases h : a = b
      · rw [h, commonPrefix_cons_self, commonPrefix_cons_self, ih]
      · rw [commonPrefix_cons_ne h, commonPrefix_cons_ne (Ne.symm h)]

theorem commonPrefix_prefix_left (s t : List α) : commonPrefix s t <+: s := by
  induction s generalizing t with
  | nil => exact commonPrefix_nil_left t ▸ List.nil_prefix
  | cons a s ih =>
    cases t with
    | nil => exact List.nil_prefix
    | cons b t =>
      by_cases h : a = b
      · rw [h, commonPrefix_cons_self]
        exact List.prefix_cons_inj b |>.mpr (ih t)
      · rw [commonPrefix_cons_ne h]
        exact List.nil_prefix

theorem commonPrefix_prefix_right (s t : List α) : commonPrefix s t <+: t :=
  commonPrefix_comm s t ▸ commonPrefix_prefix_left t s

theorem prefix_commonPrefix {p s t : List α} (hs : p <+: s) (ht : p <+: t) :
    p <+: commonPrefix s t := by
  obtain ⟨s', rfl⟩ := hs
  obtain ⟨t', rfl⟩ := ht
  rw [commonPrefix_append]
  exact List.prefix_append _ _

/-- Behind their common front the lists differ. -/
theorem commonPrefix_split (s t : List α) : ∃ s' t', s = commonPrefix s t ++ s' ∧
    t = commonPrefix s t ++ t' ∧ commonPrefix s' t' = [] := by
  obtain ⟨s', hs⟩ := commonPrefix_prefix_left s t
  obtain ⟨t', ht⟩ := commonPrefix_prefix_right s t
  refine ⟨s', t', hs.symm, ht.symm, ?_⟩
  have hself := commonPrefix_append (commonPrefix s t) s' t'
  rw [hs, ht] at hself
  exact List.append_cancel_left ((List.append_nil _).trans hself).symm

theorem commonPrefix_eq_nil {s t : List α} (h : commonPrefix s t = []) :
    s = [] ∨ t = [] ∨ s[0]? ≠ t[0]? := by
  cases s with
  | nil => exact .inl rfl
  | cons a s =>
    cases t with
    | nil => exact .inr (.inl rfl)
    | cons b t =>
      refine .inr (.inr ?_)
      intro hab
      have heq : a = b := Option.some.inj hab
      rw [heq, commonPrefix_cons_self] at h
      exact absurd h (by simp)

end CommonPrefix

@[ext]
structure Place (F N : Type) where
  front : F
  names : List N
  deriving DecidableEq, Repr

namespace Place

variable {F N : Type}

/-- Higher up on the way. -/
instance : LE (Place F N) := ⟨fun a b => a.front = b.front ∧ a.names <+: b.names⟩

theorem le_iff {a b : Place F N} : a ≤ b ↔ a.front = b.front ∧ a.names <+: b.names := Iff.rfl

instance : PartialOrder (Place F N) where
  le_refl a := ⟨rfl, List.prefix_rfl⟩
  le_trans a b c hab hbc := ⟨hab.1.trans hbc.1, hab.2.trans hbc.2⟩
  le_antisymm a b hab hba := by
    refine Place.ext hab.1 ?_
    exact hab.2.eq_of_length (Nat.le_antisymm hab.2.length_le hba.2.length_le)

variable [DecidableEq F] [DecidableEq N]

/-- The lowest place above both, if there is any. -/
def meet (a b : Place F N) : WithBot (Place F N) :=
  if a.front = b.front then WithBot.some ⟨a.front, commonPrefix a.names b.names⟩ else ⊥

theorem meet_le_left (a b : Place F N) : meet a b ≤ (a : WithBot (Place F N)) := by
  rw [meet]
  split
  · exact WithBot.coe_le_coe.mpr ⟨rfl, commonPrefix_prefix_left _ _⟩
  · exact bot_le

theorem meet_le_right (a b : Place F N) : meet a b ≤ (b : WithBot (Place F N)) := by
  rw [meet]
  split
  case isTrue h => exact WithBot.coe_le_coe.mpr ⟨h, commonPrefix_prefix_right _ _⟩
  case isFalse => exact bot_le

theorem le_meet {a b c : Place F N} (ha : c ≤ a) (hb : c ≤ b) :
    (c : WithBot (Place F N)) ≤ meet a b := by
  rw [meet, if_pos (ha.1.symm.trans hb.1)]
  exact WithBot.coe_le_coe.mpr ⟨ha.1, prefix_commonPrefix ha.2 hb.2⟩

instance : SemilatticeInf (WithBot (Place F N)) where
  inf
    | WithBot.some a, WithBot.some b => meet a b
    | _, _ => ⊥
  inf_le_left
    | WithBot.some a, WithBot.some b => meet_le_left a b
    | none, _ => bot_le
    | WithBot.some _, none => bot_le
  inf_le_right
    | WithBot.some a, WithBot.some b => meet_le_right a b
    | none, _ => bot_le
    | WithBot.some _, none => bot_le
  le_inf
    | none, _, _, _, _ => bot_le
    | WithBot.some _, WithBot.some _, WithBot.some _, ha, hb =>
      le_meet (WithBot.coe_le_coe.mp ha) (WithBot.coe_le_coe.mp hb)
    | WithBot.some c, none, _, ha, _ => absurd ha (WithBot.not_coe_le_bot c)
    | WithBot.some c, WithBot.some _, none, _, hb => absurd hb (WithBot.not_coe_le_bot c)

end Place

/-- What is above a first item and all further ones is above their meet. -/
theorem le_foldl_inf {α : Type} [SemilatticeInf α] {a x : α} {l : List α} :
    x ≤ l.foldl (· ⊓ ·) a ↔ x ≤ a ∧ ∀ b ∈ l, x ≤ b := by
  induction l generalizing a with
  | nil => simp
  | cons b l ih => rw [List.foldl_cons, ih, le_inf_iff, List.forall_mem_cons, and_assoc]

end SharpGit.Library
