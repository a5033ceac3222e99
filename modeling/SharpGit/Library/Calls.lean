import SharpGit.Library.Action

namespace SharpGit.Library

variable {A σ ε α β : Type}

/-- A run over any state, given what a call does. -/
abbrev Caller (A ε α : Type) := ∀ σ : Type, (A → Action σ ε Unit) → Action σ ε α

/-- The calls one after the other, up to one that raises. -/
def callAll (on : A → Action σ ε Unit) : List A → Action σ ε Unit
  | [] => pure ()
  | a :: rest => do
    on a
    callAll on rest

/-- The run makes these calls and then ends like this. -/
def Calls (p : Caller A ε α) (log : List A) (result : Except ε α) : Prop :=
  ∀ (σ : Type) (on : A → Action σ ε Unit) (s : σ),
    (p σ on).run s = (callAll on log >>= fun _ => Action.ofExcept result).run s

theorem run_callAll_append (on : A → Action σ ε Unit) (log more : List A) (s : σ) :
    (callAll on (log ++ more)).run s = (callAll on log >>= fun _ => callAll on more).run s := by
  induction log generalizing s with
  | nil => rfl
  | cons a log ih =>
    rw [List.cons_append, callAll, callAll, Action.run_bind, Action.run_bind, Action.run_bind]
    cases h : (on a).run s with
    | mk result s' =>
      cases result with
      | error e => rfl
      | ok _ =>
        dsimp only
        rw [ih, Action.run_bind]

theorem calls_ofExcept (result : Except ε α) :
    Calls (A := A) (fun _ _ => Action.ofExcept result) [] result := fun _ _ _ => rfl

theorem calls_pure (a : α) : Calls (A := A) (ε := ε) (fun _ _ => pure a) [] (.ok a) :=
  fun _ _ _ => rfl

theorem calls_call (a : A) : Calls (ε := ε) (fun _ on => on a) [a] (.ok ()) := by
  intro σ on s
  rw [callAll, callAll, Action.run_bind, Action.run_bind]
  cases h : (on a).run s with
  | mk result s' => cases result <;> rfl

theorem Calls.bind_ok {p : Caller A ε α} {q : α → Caller A ε β} {log more : List A} {a : α}
    {result : Except ε β} (hp : Calls p log (.ok a)) (hq : Calls (q a) more result) :
    Calls (fun σ on => p σ on >>= fun a => q a σ on) (log ++ more) result := by
  intro σ on s
  rw [Action.run_bind, hp σ on s, Action.run_bind, Action.run_bind, run_callAll_append,
    Action.run_bind]
  cases h : (callAll on log).run s with
  | mk ended s' =>
    cases ended with
    | error e => rfl
    | ok _ => exact hq σ on s'

theorem Calls.bind_error {p : Caller A ε α} {q : α → Caller A ε β} {log : List A} {e : ε}
    (hp : Calls p log (.error e)) :
    Calls (fun σ on => p σ on >>= fun a => q a σ on) log (.error e) := by
  intro σ on s
  rw [Action.run_bind, hp σ on s, Action.run_bind, Action.run_bind]
  cases h : (callAll on log).run s with
  | mk ended s' => cases ended <;> rfl

/-- Some calls, and some end. -/
def MakesCalls (p : Caller A ε α) : Prop := ∃ log result, Calls p log result

theorem MakesCalls.bind {p : Caller A ε α} {q : α → Caller A ε β} (hp : MakesCalls p)
    (hq : ∀ a, MakesCalls (q a)) : MakesCalls (fun σ on => p σ on >>= fun a => q a σ on) := by
  obtain ⟨log, result, hlog⟩ := hp
  cases result with
  | error e => exact ⟨log, .error e, hlog.bind_error⟩
  | ok a =>
    obtain ⟨more, result, hmore⟩ := hq a
    exact ⟨log ++ more, result, hlog.bind_ok hmore⟩

/-- The call that only writes itself down. -/
def note (a : A) : Action (List A) ε Unit := Action.modify fun log => log ++ [a]

theorem run_callAll_note (log : List A) (before : List A) :
    (callAll note log : Action (List A) ε Unit).run before = (.ok (), before ++ log) := by
  induction log generalizing before with
  | nil => simp [callAll]
  | cons a log ih =>
    have hnote : (note a : Action (List A) ε Unit).run before = (.ok (), before ++ [a]) := rfl
    rw [callAll, Action.run_bind_ok hnote, ih, List.append_assoc, List.singleton_append]

/-- A run whose calls are written down shows them. -/
theorem Calls.run_note {p : Caller A ε α} {log : List A} {result : Except ε α}
    (h : Calls p log result) (before : List A) :
    (p (List A) note).run before = (result, before ++ log) := by
  rw [h, Action.run_bind_ok (run_callAll_note log before)]
  rfl

theorem MakesCalls.calls {p : Caller A ε α} (h : MakesCalls p) :
    Calls p ((p (List A) note).run []).2 ((p (List A) note).run []).1 := by
  obtain ⟨log, result, hlog⟩ := h
  rw [hlog.run_note]
  exact hlog

/-- Where each call writes itself down, a beginning of the calls is made: all of them where none
raises. -/
theorem run_callAll_made {on : A → Action σ ε Unit} {made : σ → List A}
    (hmade : ∀ a s, made ((on a).run s).2 = made s ++ [a]) (log : List A) (s : σ) :
    ∃ front, front <+: log ∧ made ((callAll on log).run s).2 = made s ++ front ∧
      (((callAll on log).run s).1 = .ok () → front = log) := by
  induction log generalizing s with
  | nil => exact ⟨[], List.prefix_rfl, (List.append_nil _).symm, fun _ => rfl⟩
  | cons a log ih =>
    have hfirst := hmade a s
    rw [callAll, Action.run_bind]
    cases h : (on a).run s with
    | mk result s' =>
      rw [h] at hfirst
      cases result with
      | error e =>
        refine ⟨[a], by simp, hfirst, ?_⟩
        intro h
        cases h
      | ok _ =>
        obtain ⟨front, hfront, hrest, hall⟩ := ih s'
        refine ⟨a :: front, by simpa using hfront, ?_, fun hok => by rw [hall hok]⟩
        rw [hrest, hfirst, List.append_assoc, List.singleton_append]

/-- What every call keeps, all of them keep. -/
theorem run_callAll_keeps {on : A → Action σ ε Unit} {P : σ → Prop}
    (hon : ∀ a s, P s → P ((on a).run s).2) (log : List A) {s : σ} (h : P s) :
    P ((callAll on log).run s).2 := by
  induction log generalizing s with
  | nil => exact h
  | cons a log ih =>
    have hfirst := hon a s h
    rw [callAll, Action.run_bind]
    cases hrun : (on a).run s with
    | mk result s' =>
      rw [hrun] at hfirst
      cases result with
      | error e => exact hfirst
      | ok _ => exact ih hfirst

/-- Calls that make calls of their own, or raise before the first: a beginning of all these is
made. -/
theorem run_callAll_nested {B : Type} {on : A → Action σ ε Unit} {inner : B → Action σ ε Unit}
    {parts : A → List B} {made : σ → List B} {P : σ → Prop}
    (hmade : ∀ b s, made ((inner b).run s).2 = made s ++ [b])
    (hinner : ∀ b s, P s → P ((inner b).run s).2)
    (hon : ∀ a s, P s → (on a).run s = (callAll inner (parts a)).run s ∨
      ∃ e, (on a).run s = (.error e, s)) (log : List A) {s : σ} (h : P s) :
    ∃ front, front <+: log.flatMap parts ∧ made ((callAll on log).run s).2 = made s ++ front ∧
      (((callAll on log).run s).1 = .ok () → front = log.flatMap parts) := by
  induction log generalizing s with
  | nil => exact ⟨[], List.prefix_rfl, (List.append_nil _).symm, fun _ => rfl⟩
  | cons a log ih =>
    rw [callAll, Action.run_bind, List.flatMap_cons]
    obtain hcalls | ⟨e, herror⟩ := hon a s h
    · obtain ⟨first, hfirst, hmadeFirst, hallFirst⟩ := run_callAll_made hmade (parts a) s
      have hkeeps := run_callAll_keeps hinner (parts a) h
      rw [hcalls]
      cases hrun : (callAll inner (parts a)).run s with
      | mk result s' =>
        rw [hrun] at hmadeFirst hallFirst hkeeps
        cases result with
        | error e =>
          refine ⟨first, hfirst.trans (List.prefix_append _ _), hmadeFirst, ?_⟩
          intro hok
          cases hok
        | ok _ =>
          obtain ⟨rest, hrest, hmadeRest, hallRest⟩ := ih hkeeps
          obtain rfl := hallFirst rfl
          refine ⟨parts a ++ rest, (List.prefix_append_right_inj _).mpr hrest, ?_, ?_⟩
          · rw [hmadeRest, hmadeFirst, List.append_assoc]
          · intro hok
            rw [hallRest hok]
    · rw [herror]
      refine ⟨[], List.nil_prefix, (List.append_nil _).symm, ?_⟩
      intro hok
      cases hok

end SharpGit.Library
