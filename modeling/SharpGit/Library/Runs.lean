import Mathlib.Data.List.Basic
import Mathlib.Data.List.Induction
import Mathlib.Logic.Function.Basic

namespace SharpGit.Library

namespace Events

variable {σ ε : Type} (step : σ → ε → σ)

def run (s : σ) (events : List ε) : σ := events.foldl step s

/-- Each event meets the condition in the state that it finds. -/
def EachMeets (condition : σ → ε → Prop) : σ → List ε → Prop
  | _, [] => True
  | s, event :: events => condition s event ∧ EachMeets condition (step s event) events

variable {step} {condition : σ → ε → Prop}

/-- What every event keeps, a run keeps. -/
theorem run_invariant (P : σ → Prop) (hstep : ∀ s event, P s → P (step s event)) {s : σ}
    (h : P s) (events : List ε) : P (run step s events) := by
  induction events generalizing s with
  | nil => exact h
  | cons event events ih => exact ih (hstep s event h)

/-- What each of the events keeps, their run keeps. -/
theorem run_of_forall {events : List ε} (P : σ → Prop)
    (hstep : ∀ s, ∀ event ∈ events, P s → P (step s event)) {s : σ} (h : P s) :
    P (run step s events) := by
  induction events generalizing s with
  | nil => exact h
  | cons event events ih =>
    exact ih (fun s e he => hstep s e (List.mem_cons_of_mem _ he))
      (hstep s event List.mem_cons_self h)

/-- What the events that meet the condition keep, a run of such events keeps. -/
theorem run_of_eachMeets (P : σ → Prop) (hstep : ∀ s event, P s → condition s event →
    P (step s event)) {s : σ} {events : List ε} (hmeets : EachMeets step condition s events)
    (h : P s) : P (run step s events) := by
  induction events generalizing s with
  | nil => exact h
  | cons event events ih => exact ih hmeets.2 (hstep s event h hmeets.1)

end Events

section Failing

variable {σ τ ε α : Type}

theorem foldlM_concat (step : σ → α → Except ε σ) (s : σ) (front : List α) (x : α) :
    (front ++ [x]).foldlM step s = front.foldlM step s >>= fun s => step s x := by
  rw [List.foldlM_append]
  congr
  funext s
  rw [List.foldlM_cons]
  cases step s x <;> rfl

/-- What every step keeps holds after the run; the steps may use what the run has passed. -/
theorem foldlM_keeps {step : σ → α → Except ε σ} {items : List α} {Inv : List α → σ → Prop}
    (hstep : ∀ front x s s', front ++ [x] <+: items → Inv front s → step s x = .ok s' →
      Inv (front ++ [x]) s')
    {s : σ} (hstart : Inv [] s) {front : List α} (hfront : front <+: items) {s' : σ}
    (hrun : front.foldlM step s = .ok s') : Inv front s' := by
  induction front using List.reverseRecOn generalizing s' with
  | nil =>
    cases hrun
    exact hstart
  | append_singleton front x ih =>
    rw [foldlM_concat] at hrun
    cases hprev : front.foldlM step s with
    | error e =>
      rw [hprev] at hrun
      cases hrun
    | ok prev =>
      rw [hprev] at hrun
      have hinv := ih ((List.prefix_append front [x]).trans hfront) hprev
      exact hstep front x prev s' hfront hinv hrun

/-- One run shows what the other makes, after every beginning of the list, exactly if each step
does from every state that the run comes to. -/
theorem lockstep_iff {step : σ → α → Except ε σ} {view : σ → τ} {alone : τ → α → Except ε τ}
    {s : σ} {items : List α} :
    (∀ front, front <+: items →
        (front.foldlM step s).map view = front.foldlM alone (view s)) ↔
      ∀ front x, front ++ [x] <+: items → ∀ s', front.foldlM step s = .ok s' →
        (step s' x).map view = alone (view s') x := by
  constructor
  · intro h front x hfront s' hrun
    have hprev := h front ((List.prefix_append front [x]).trans hfront)
    have hnext := h (front ++ [x]) hfront
    rw [hrun] at hprev
    rw [foldlM_concat, foldlM_concat, hrun, ← hprev] at hnext
    exact hnext
  · intro h front hfront
    induction front using List.reverseRecOn with
    | nil => rfl
    | append_singleton front x ih =>
      have hprev := ih ((List.prefix_append front [x]).trans hfront)
      rw [foldlM_concat, foldlM_concat, ← hprev]
      cases hrun : front.foldlM step s with
      | error e => rfl
      | ok s' => exact h front x hfront s' hrun

end Failing

section Threads

structure Interleaving (ι σ ρ : Type*) where
  shared : σ
  place : ι → ρ

namespace Interleaving

variable {ι σ ρ : Type*} [DecidableEq ι] (turn : ι → σ → ρ → Option (σ × ρ))

/-- The turn of one thread; none where it has to wait. -/
def step (i : ι) (s : Interleaving ι σ ρ) : Option (Interleaving ι σ ρ) :=
  (turn i s.shared (s.place i)).map fun next =>
    ⟨next.1, Function.update s.place i next.2⟩

/-- The turns of these threads, one after the other. -/
def run : List ι → Interleaving ι σ ρ → Option (Interleaving ι σ ρ)
  | [], s => some s
  | i :: schedule, s => (step turn i s).bind (run schedule)

/-- What holds of the shared state, what each thread knows of it at its place, and what a turn
of one thread grants to the others. -/
structure RelyGuarantee (shared : σ → Prop) (knows : ι → σ → ρ → Prop)
    (grants : ι → σ → σ → Prop) : Prop where
  turns : ∀ i s p s' p', turn i s p = some (s', p') → shared s → knows i s p →
    shared s' ∧ knows i s' p' ∧ grants i s s'
  stable : ∀ i j s s' p, j ≠ i → grants i s s' → knows j s p → knows j s' p

variable {turn} {shared : σ → Prop} {knows : ι → σ → ρ → Prop} {grants : ι → σ → σ → Prop}

theorem RelyGuarantee.step (h : RelyGuarantee turn shared knows grants) {i : ι}
    {s s' : Interleaving ι σ ρ} (hstep : Interleaving.step turn i s = some s')
    (hshared : shared s.shared) (hknows : ∀ j, knows j s.shared (s.place j)) :
    shared s'.shared ∧ ∀ j, knows j s'.shared (s'.place j) := by
  obtain ⟨next, hturn, rfl⟩ := Option.map_eq_some_iff.mp hstep
  obtain ⟨hshared', hknows', hgrants⟩ := h.turns i _ _ _ _ hturn hshared (hknows i)
  refine ⟨hshared', ?_⟩
  intro j
  by_cases hj : j = i
  · subst hj
    show knows j next.1 (Function.update s.place j next.2 j)
    rw [Function.update_self]
    exact hknows'
  · show knows j next.1 (Function.update s.place i next.2 j)
    rw [Function.update_of_ne hj]
    exact h.stable i j _ _ _ hj hgrants (hknows j)

/-- What holds at the start and is kept by every turn holds after every run. -/
theorem RelyGuarantee.run (h : RelyGuarantee turn shared knows grants) {schedule : List ι}
    {s s' : Interleaving ι σ ρ} (hrun : Interleaving.run turn schedule s = some s')
    (hshared : shared s.shared) (hknows : ∀ j, knows j s.shared (s.place j)) :
    shared s'.shared ∧ ∀ j, knows j s'.shared (s'.place j) := by
  induction schedule generalizing s with
  | nil =>
    obtain rfl := Option.some.inj hrun
    exact ⟨hshared, hknows⟩
  | cons i schedule ih =>
    obtain ⟨next, hstep, hrest⟩ := Option.bind_eq_some_iff.mp hrun
    obtain ⟨hshared', hknows'⟩ := h.step hstep hshared hknows
    exact ih hrest hshared' hknows'

end Interleaving

end Threads

section Founded

variable {α : Type*} {needs : α → α → Prop} {given : α → Prop}

def Founded (needs : α → α → Prop) (given : α → Prop) (log : List α) : Prop :=
  ∀ before x after, log = before ++ x :: after → ∀ y, needs y x → y ∈ before ∨ given y

theorem founded_nil : Founded needs given [] := by
  intro before x after h
  exact absurd h.symm (by simp)

/-- One more item keeps a log founded iff what it needs is there. -/
theorem founded_concat {log : List α} {x : α} :
    Founded needs given (log ++ [x]) ↔
      Founded needs given log ∧ ∀ y, needs y x → y ∈ log ∨ given y := by
  constructor
  · intro h
    refine ⟨fun before z after hlog => ?_, h log x [] rfl⟩
    exact h before z (after ++ [x]) (by rw [hlog, List.append_assoc, List.cons_append])
  · intro ⟨hlog, hx⟩ before z after hsplit y hy
    cases after using List.reverseRecOn with
    | nil =>
      obtain ⟨heq, hlast⟩ := List.append_inj' hsplit rfl
      subst heq
      rw [List.cons_eq_cons] at hlast
      exact hx y (hlast.1 ▸ hy)
    | append_singleton after last =>
      rw [← List.cons_append, ← List.append_assoc] at hsplit
      exact hlog before z after (List.append_inj' hsplit rfl).1 y hy

end Founded

end SharpGit.Library
