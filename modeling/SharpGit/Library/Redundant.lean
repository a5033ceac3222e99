import Mathlib.Data.Fintype.Card
import Mathlib.Data.Fintype.EquivFin
import Mathlib.Logic.Function.Basic
import Mathlib.Order.WellFounded

namespace SharpGit.Library

namespace Redundant

section Loops

variable (compare : Nat → Nat → Option Bool)

/-- One comparison: the first covers the second, or the second the first, or neither does. -/
def removePair (i : Nat) (removed : Nat → Bool) (j : Nat) : Nat → Bool :=
  if removed j then removed
  else
    match compare i j with
    | some true => Function.update removed j true
    | some false => Function.update removed i true
    | none => removed

/-- An item that is still there against all behind it. -/
def removeRow (n : Nat) (removed : Nat → Bool) (i : Nat) : Nat → Bool :=
  if removed i then removed
  else (List.range' (i + 1) (n - (i + 1))).foldl (removePair compare i) removed

def removeRedundant (n : Nat) : Nat → Bool :=
  (List.range n).foldl (removeRow compare n) fun _ => false

end Loops

/-- One item covers another; of two that cover each other it is the first that counts. -/
def Beats (covers : Nat → Nat → Prop) (j k : Nat) : Prop := covers j k ∧ (covers k j → j < k)

/-- A comparison that tells which of two items covers the other. -/
structure Decides (compare : Nat → Nat → Option Bool) (covers : Nat → Nat → Prop) : Prop where
  first : ∀ i j, compare i j = some true ↔ covers i j
  second : ∀ i j, compare i j = some false ↔ ¬ covers i j ∧ covers j i
  trans : ∀ {i j k}, covers i j → covers j k → covers i k

variable {compare : Nat → Nat → Option Bool} {covers : Nat → Nat → Prop} {n : Nat}

theorem beats_irrefl (k : Nat) : ¬ Beats covers k k := fun h => Nat.lt_irrefl k (h.2 h.1)

theorem Decides.beats_trans (h : Decides compare covers) {i j k : Nat}
    (hij : Beats covers i j) (hjk : Beats covers j k) : Beats covers i k := by
  refine ⟨h.trans hij.1 hjk.1, ?_⟩
  intro hki
  have hji : covers j i := h.trans hjk.1 hki
  have hkj : covers k j := h.trans hki hij.1
  exact Nat.lt_trans (hij.2 hji) (hjk.2 hkj)

/-- Nothing in the list beats the item. -/
def Topmost (covers : Nat → Nat → Prop) (n k : Nat) : Prop := ∀ j < n, ¬ Beats covers j k

/-- What is beaten is beaten by a topmost item. -/
theorem Decides.exists_topmost (h : Decides compare covers) {k j : Nat} (hj : j < n)
    (hbeats : Beats covers j k) : ∃ m < n, Topmost covers n m ∧ Beats covers m k := by
  have hwf : WellFounded fun a b : Fin n => Beats covers a b := by
    have : IsTrans (Fin n) fun a b => Beats covers a b :=
      ⟨fun _ _ _ hab hbc => h.beats_trans hab hbc⟩
    have : Std.Irrefl fun a b : Fin n => Beats covers a b := ⟨fun a => beats_irrefl a.val⟩
    exact Finite.wellFounded_of_trans_of_irrefl _
  obtain ⟨m, hm, hmin⟩ := hwf.has_min {m | Beats covers m.val k} ⟨⟨j, hj⟩, hbeats⟩
  refine ⟨m, m.isLt, ?_, hm⟩
  intro i hi hbeat
  exact hmin ⟨i, hi⟩ (h.beats_trans hbeat hm) hbeat

/-- Only what is beaten has been removed. -/
def Justified (covers : Nat → Nat → Prop) (n : Nat) (removed : Nat → Bool) : Prop :=
  ∀ k, removed k = true → ∃ j < n, Beats covers j k

theorem Justified.topmost {removed : Nat → Bool} (h : Justified covers n removed) {m : Nat}
    (hm : Topmost covers n m) : removed m = false := by
  cases hremoved : removed m with
  | false => rfl
  | true =>
    obtain ⟨j, hj, hbeats⟩ := h m hremoved
    exact absurd hbeats (hm j hj)

section Pair

variable {removed : Nat → Bool} {i j : Nat}

theorem Justified.update (h : Justified covers n removed) (hj : j < n) (hbeats : Beats covers j i) :
    Justified covers n (Function.update removed i true) := by
  intro k hk
  by_cases heq : k = i
  · rw [heq]
    exact ⟨j, hj, hbeats⟩
  · rw [Function.update_of_ne heq] at hk
    exact h k hk

theorem update_keeps {k : Nat} (hk : removed k = true) :
    Function.update removed i true k = true := by
  by_cases heq : k = i
  · rw [heq, Function.update_self]
  · rw [Function.update_of_ne heq, hk]

/-- What a comparison can do. -/
theorem removePair_cases (compare : Nat → Nat → Option Bool) (i : Nat) (removed : Nat → Bool)
    (j : Nat) :
    removed j = true ∧ removePair compare i removed j = removed ∨
      removed j = false ∧
        (compare i j = some true ∧
            removePair compare i removed j = Function.update removed j true ∨
          compare i j = some false ∧
            removePair compare i removed j = Function.update removed i true ∨
          compare i j = none ∧ removePair compare i removed j = removed) := by
  rw [removePair]
  cases removed j with
  | true => exact .inl ⟨rfl, rfl⟩
  | false =>
    refine .inr ⟨rfl, ?_⟩
    cases compare i j with
    | none => exact .inr (.inr ⟨rfl, rfl⟩)
    | some answer =>
      cases answer with
      | true => exact .inl ⟨rfl, rfl⟩
      | false => exact .inr (.inl ⟨rfl, rfl⟩)

theorem removePair_keeps {k : Nat} (hk : removed k = true) :
    removePair compare i removed j k = true := by
  obtain ⟨-, hpair⟩ | ⟨-, ⟨-, hpair⟩ | ⟨-, hpair⟩ | ⟨-, hpair⟩⟩ :=
    removePair_cases compare i removed j <;> rw [hpair]
  · exact hk
  · exact update_keeps hk
  · exact update_keeps hk
  · exact hk

theorem removePair_justified (hdecides : Decides compare covers) (hij : i < j) (hj : j < n)
    (h : Justified covers n removed) : Justified covers n (removePair compare i removed j) := by
  obtain ⟨-, hpair⟩ | ⟨-, ⟨hcompare, hpair⟩ | ⟨hcompare, hpair⟩ | ⟨-, hpair⟩⟩ :=
    removePair_cases compare i removed j <;> rw [hpair]
  · exact h
  · exact h.update (Nat.lt_trans hij hj) ⟨(hdecides.first i j).mp hcompare, fun _ => hij⟩
  · obtain ⟨hnot, hcovers⟩ := (hdecides.second i j).mp hcompare
    exact h.update hj ⟨hcovers, fun hback => absurd hback hnot⟩
  · exact h

/-- An item that is still there removes what it beats. -/
theorem removePair_behind (hdecides : Decides compare covers) (hbeats : Beats covers i j) :
    removePair compare i removed j j = true := by
  have hcompare := (hdecides.first i j).mpr hbeats.1
  obtain ⟨hremoved, hpair⟩ | ⟨-, ⟨-, hpair⟩ | ⟨hother, -⟩ | ⟨hother, -⟩⟩ :=
    removePair_cases compare i removed j
  · rw [hpair, hremoved]
  · rw [hpair, Function.update_self]
  · simp [hcompare] at hother
  · simp [hcompare] at hother

theorem removePair_front (hdecides : Decides compare covers) (hij : i < j)
    (hj : removed j = false) (hbeats : Beats covers j i) :
    removePair compare i removed j i = true := by
  have hnot : ¬ covers i j := fun h => Nat.lt_asymm hij (hbeats.2 h)
  have hcompare := (hdecides.second i j).mpr ⟨hnot, hbeats.1⟩
  obtain ⟨hremoved, -⟩ | ⟨-, ⟨hother, -⟩ | ⟨-, hpair⟩ | ⟨hother, -⟩⟩ :=
    removePair_cases compare i removed j
  · rw [hj] at hremoved
    exact absurd hremoved Bool.false_ne_true
  · simp [hcompare] at hother
  · rw [hpair, Function.update_self]
  · simp [hcompare] at hother

end Pair

/-- The comparisons of one item with the ones of a list. -/
theorem foldl_removePair (hdecides : Decides compare covers) {i : Nat} {js : List Nat}
    (hjs : ∀ j ∈ js, i < j ∧ j < n) {removed : Nat → Bool} (h : Justified covers n removed) :
    Justified covers n (js.foldl (removePair compare i) removed) ∧
      (∀ k, removed k = true → js.foldl (removePair compare i) removed k = true) ∧
      (∀ j ∈ js, Beats covers i j → js.foldl (removePair compare i) removed j = true) ∧
      ∀ j ∈ js, Topmost covers n j → Beats covers j i →
        js.foldl (removePair compare i) removed i = true := by
  induction js generalizing removed with
  | nil =>
    exact ⟨h, fun _ hk => hk, fun j hj => absurd hj List.not_mem_nil,
      fun j hj => absurd hj List.not_mem_nil⟩
  | cons j js ih =>
    obtain ⟨hij, hj⟩ := hjs j List.mem_cons_self
    have hpair := removePair_justified hdecides hij hj h
    obtain ⟨hjustified, hkeeps, hbehind, hfront⟩ :=
      ih (fun k hk => hjs k (List.mem_cons_of_mem _ hk)) hpair
    refine ⟨hjustified, fun k hk => hkeeps k (removePair_keeps hk), ?_, ?_⟩
    · intro k hk hbeats
      obtain rfl | hk := List.mem_cons.mp hk
      · exact hkeeps k (removePair_behind hdecides hbeats)
      · exact hbehind k hk hbeats
    · intro k hk htop hbeats
      obtain rfl | hk := List.mem_cons.mp hk
      · exact hkeeps i (removePair_front hdecides hij (h.topmost htop) hbeats)
      · exact hfront k hk htop hbeats

/-- What the row of an item has to leave behind: the item is gone if a later topmost one beats it,
and so are the later ones that it beats, if it is topmost itself. -/
theorem removeRow_spec (hdecides : Decides compare covers) {i : Nat} {removed : Nat → Bool}
    (h : Justified covers n removed) :
    Justified covers n (removeRow compare n removed i) ∧
      (∀ k, removed k = true → removeRow compare n removed i k = true) ∧
      (Topmost covers n i → ∀ j, i < j → j < n → Beats covers i j →
        removeRow compare n removed i j = true) ∧
      ∀ j, i < j → j < n → Topmost covers n j → Beats covers j i →
        removeRow compare n removed i i = true := by
  rw [removeRow]
  split
  case isTrue hremoved =>
    refine ⟨h, fun _ hk => hk, ?_, fun _ _ _ _ _ => hremoved⟩
    intro htop
    rw [h.topmost htop] at hremoved
    exact absurd hremoved Bool.false_ne_true
  case isFalse hremoved =>
    have hmem : ∀ j, j ∈ List.range' (i + 1) (n - (i + 1)) ↔ i < j ∧ j < n := by
      intro j
      rw [List.mem_range'_1]
      omega
    obtain ⟨hjustified, hkeeps, hbehind, hfront⟩ :=
      @foldl_removePair _ _ n hdecides i (List.range' (i + 1) (n - (i + 1)))
        (fun j hj => (hmem j).mp hj) removed h
    exact ⟨hjustified, hkeeps, fun _ j hij hj => hbehind j ((hmem j).mpr ⟨hij, hj⟩),
      fun j hij hj => hfront j ((hmem j).mpr ⟨hij, hj⟩)⟩

theorem foldl_removeRow (hdecides : Decides compare covers) {is : List Nat}
    {removed : Nat → Bool} (h : Justified covers n removed) :
    Justified covers n (is.foldl (removeRow compare n) removed) ∧
      (∀ k, removed k = true → is.foldl (removeRow compare n) removed k = true) ∧
      (∀ i ∈ is, Topmost covers n i → ∀ j, i < j → j < n → Beats covers i j →
        is.foldl (removeRow compare n) removed j = true) ∧
      ∀ i ∈ is, ∀ j, i < j → j < n → Topmost covers n j → Beats covers j i →
        is.foldl (removeRow compare n) removed i = true := by
  induction is generalizing removed with
  | nil =>
    exact ⟨h, fun _ hk => hk, fun i hi => absurd hi List.not_mem_nil,
      fun i hi => absurd hi List.not_mem_nil⟩
  | cons i is ih =>
    obtain ⟨hrow, hrowKeeps, hrowBehind, hrowFront⟩ := @removeRow_spec _ _ n hdecides i _ h
    obtain ⟨hjustified, hkeeps, hbehind, hfront⟩ := ih hrow
    refine ⟨hjustified, fun k hk => hkeeps k (hrowKeeps k hk), ?_, ?_⟩
    · intro k hk htop j hkj hj hbeats
      obtain rfl | hk := List.mem_cons.mp hk
      · exact hkeeps j (hrowBehind htop j hkj hj hbeats)
      · exact hbehind k hk htop j hkj hj hbeats
    · intro k hk j hkj hj htop hbeats
      obtain rfl | hk := List.mem_cons.mp hk
      · exact hkeeps k (hrowFront j hkj hj htop hbeats)
      · exact hfront k hk j hkj hj htop hbeats

/-- The loops leave the topmost items, the first of each kind. -/
theorem removeRedundant_eq_false (hdecides : Decides compare covers) {k : Nat} (hk : k < n) :
    removeRedundant compare n k = false ↔ Topmost covers n k := by
  have hstart : Justified covers n fun _ => false := fun _ h => absurd h Bool.false_ne_true
  obtain ⟨hjustified, -, hbehind, hfront⟩ :=
    @foldl_removeRow _ _ n hdecides (List.range n) _ hstart
  constructor
  · intro hkept j hj hbeats
    obtain ⟨m, hm, htop, hbeats⟩ := hdecides.exists_topmost hj hbeats
    have hremoved : removeRedundant compare n k = true := by
      obtain hlt | heq | hgt := Nat.lt_trichotomy m k
      · exact hbehind m (List.mem_range.mpr hm) htop k hlt hk hbeats
      · rw [heq] at hbeats
        exact absurd hbeats (beats_irrefl k)
      · exact hfront k (List.mem_range.mpr hk) m hgt hm htop hbeats
    rw [hkept] at hremoved
    exact absurd hremoved Bool.false_ne_true
  · exact fun htop => hjustified.topmost htop

end Redundant

end SharpGit.Library
