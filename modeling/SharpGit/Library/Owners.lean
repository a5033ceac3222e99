import Mathlib.Logic.Function.Basic
import SharpGit.Library.Handles

namespace SharpGit.Library

namespace Handling

variable {W U K ε δ α : Type} {pointer : K → Option Nat} {s s' : Handling W U}

/-- A call on handles that raises nothing itself. -/
def ask (handles : List Nat) (what : U) (f : W → α × W) : Action (Handling W U) ε α :=
  use handles (fun _ => what) f .ok

/-- A call on handles that returns a new handle where it succeeds. -/
def openOn (handles : List Nat) (what : U) (f : W → Except δ Unit × W) :
    Action (Handling W U) ε (Except δ Nat) := do
  match ← ask handles what f with
  | .error e => return .error e
  | .ok () => do
    let s ← Action.get
    Action.modify fun s => { record (.opened s.next) s with next := s.next + 1 }
    return .ok s.next

/-- The state behind a call on handles. -/
def asked (handles : List Nat) (what : U) (f : W → α × W) (s : Handling W U) : Handling W U :=
  record (.used handles what) { s with world := (f s.world).2 }

@[simp] theorem run_ask (handles : List Nat) (what : U) (f : W → α × W) (s : Handling W U) :
    (ask handles what f : Action (Handling W U) ε α).run s =
      (.ok (f s.world).1, asked handles what f s) := rfl

theorem openOn_cases (handles : List Nat) (what : U) (f : W → Except δ Unit × W)
    (s : Handling W U) :
    (∃ e, (openOn handles what f : Action (Handling W U) ε (Except δ Nat)).run s =
      (.ok (.error e), asked handles what f s)) ∨
    (openOn handles what f : Action (Handling W U) ε (Except δ Nat)).run s =
      (.ok (.ok s.next), ⟨(asked handles what f s).world, s.next + 1,
        (asked handles what f s).log ++ [.opened s.next]⟩) := by
  rw [openOn, Action.run_bind_ok (run_ask handles what f s)]
  cases (f s.world).1 with
  | error e => exact .inl ⟨e, rfl⟩
  | ok found => exact .inr rfl

section Keeps

variable {held : List Nat} {handles : List Nat}

theorem Open.asked (hs : s.Open held) (hopen : handles ⊆ held) (what : U) (f : W → α × W) :
    (asked handles what f s).Open held := hs.used hopen what _

theorem keeps_ask (hopen : handles ⊆ held) (what : U) (f : W → α × W) :
    Keeps held (ask handles what f : Action (Handling W U) ε α) :=
  fun _ hs => hs.asked hopen what f

theorem opens_openOn (hopen : handles ⊆ held) (what : U) (f : W → Except δ Unit × W) :
    Opens held (openOn handles what f : Action (Handling W U) ε (Except δ Nat)) fun
      | .ok handle => handle :: held
      | .error _ => held := by
  intro s hs
  have hasked := hs.asked hopen what f
  obtain ⟨e, hrun⟩ | hrun := @openOn_cases W U ε δ handles what f s
  · rw [hrun]
    exact hasked
  · rw [hrun]
    exact hasked.opened

end Keeps

/-- The open handles are those of the owners. -/
structure Owned (pointer : K → Option Nat) (s : Handling W U) : Prop where
  held : ∃ held, s.Open held ∧ held.Nodup ∧ ∀ handle, handle ∈ held ↔ ∃ k, pointer k = some handle
  single : ∀ {k k' handle}, pointer k = some handle → pointer k' = some handle → k = k'

theorem owned_nothing (w : W) : Owned (fun _ : K => none) (⟨w, 0, []⟩ : Handling W U) := by
  refine ⟨⟨[], ⟨rfl, fun _ h => absurd h List.not_mem_nil⟩, List.nodup_nil, ?_⟩, ?_⟩
  · intro handle
    constructor
    · intro h
      exact absurd h List.not_mem_nil
    · intro ⟨k, hk⟩
      exact absurd hk (Option.some_ne_none _).symm
  · intro k k' handle h
    exact absurd h (Option.some_ne_none _).symm

/-- A call that leaves open what is open. -/
theorem Owned.keep (h : Owned pointer s)
    (hkeep : ∀ held, (∀ k handle, pointer k = some handle → handle ∈ held) → s.Open held →
      s'.Open held) : Owned pointer s' := by
  obtain ⟨held, hopen, hnodup, hmem⟩ := h.held
  refine ⟨⟨held, hkeep held ?_ hopen, hnodup, hmem⟩, h.single⟩
  intro k handle hk
  exact (hmem handle).mpr ⟨k, hk⟩

variable [DecidableEq K]

/-- A new handle for an owner without one. -/
theorem Owned.hold (h : Owned pointer s) {k : K} (hnone : pointer k = none) (w : W) :
    Owned (Function.update pointer k (some s.next))
      ⟨w, s.next + 1, s.log ++ [.opened s.next]⟩ := by
  obtain ⟨held, hopen, hnodup, hmem⟩ := h.held
  have hfresh : s.next ∉ held := fun hin => Nat.lt_irrefl _ (hopen.old _ hin)
  have hother : ∀ k', pointer k' ≠ some s.next := fun k' hk' => hfresh ((hmem _).mpr ⟨k', hk'⟩)
  refine ⟨⟨s.next :: held, ⟨hopen.opened.after, hopen.opened.old⟩,
    List.nodup_cons.mpr ⟨hfresh, hnodup⟩, ?_⟩, ?_⟩
  · intro handle
    rw [List.mem_cons, hmem]
    constructor
    · rintro (heq | ⟨k', hk'⟩)
      · exact ⟨k, by rw [heq, Function.update_self]⟩
      · have hne : k' ≠ k := fun heq => by simp [heq, hnone] at hk'
        exact ⟨k', by rw [Function.update_of_ne hne, hk']⟩
    · rintro ⟨k', hk'⟩
      by_cases heq : k' = k
      · rw [heq, Function.update_self] at hk'
        exact .inl (Option.some.inj hk').symm
      · rw [Function.update_of_ne heq] at hk'
        exact .inr ⟨k', hk'⟩
  · intro k₁ k₂ handle h₁ h₂
    by_cases heq₁ : k₁ = k <;> by_cases heq₂ : k₂ = k
    · rw [heq₁, heq₂]
    · rw [heq₁, Function.update_self] at h₁
      rw [Function.update_of_ne heq₂, ← h₁] at h₂
      exact absurd h₂ (hother k₂)
    · rw [heq₂, Function.update_self] at h₂
      rw [Function.update_of_ne heq₁, ← h₂] at h₁
      exact absurd h₁ (hother k₁)
    · rw [Function.update_of_ne heq₁] at h₁
      rw [Function.update_of_ne heq₂] at h₂
      exact h.single h₁ h₂

/-- An owner closes its handle and forgets it. -/
theorem Owned.drop (h : Owned pointer s) {k : K} {handle : Nat} (hk : pointer k = some handle)
    (w : W) : Owned (Function.update pointer k none) ⟨w, s.next, s.log ++ [.closed handle]⟩ := by
  obtain ⟨held, hopen, hnodup, hmem⟩ := h.held
  have hin : handle ∈ held := (hmem handle).mpr ⟨k, hk⟩
  refine ⟨⟨held.erase handle, ⟨?_, ?_⟩, hnodup.erase handle, ?_⟩, ?_⟩
  · exact (HandleEvent.openAfter_concat hopen.after _).trans (if_pos hin)
  · exact fun other hother => hopen.old other (List.mem_of_mem_erase hother)
  · intro other
    rw [hnodup.mem_erase_iff, hmem]
    constructor
    · rintro ⟨hne, k', hk'⟩
      have hk'k : k' ≠ k := by
        intro heq
        rw [heq, hk] at hk'
        exact hne (Option.some.inj hk').symm
      exact ⟨k', by rw [Function.update_of_ne hk'k, hk']⟩
    · rintro ⟨k', hk'⟩
      by_cases heq : k' = k
      · rw [heq, Function.update_self] at hk'
        exact absurd hk' (Option.some_ne_none _).symm
      · rw [Function.update_of_ne heq] at hk'
        refine ⟨?_, k', hk'⟩
        intro hsame
        rw [hsame] at hk'
        exact heq (h.single hk' hk)
  · intro k₁ k₂ other h₁ h₂
    by_cases heq₁ : k₁ = k
    · rw [heq₁, Function.update_self] at h₁
      exact absurd h₁ (Option.some_ne_none _).symm
    · by_cases heq₂ : k₂ = k
      · rw [heq₂, Function.update_self] at h₂
        exact absurd h₂ (Option.some_ne_none _).symm
      · rw [Function.update_of_ne heq₁] at h₁
        rw [Function.update_of_ne heq₂] at h₂
        exact h.single h₁ h₂

end Handling

end SharpGit.Library
