import Mathlib.Data.List.Basic

namespace SharpGit.Library

/-- A run that may change a state and may end in an exception. The state is kept in both
cases: an exception undoes nothing. -/
structure Action (σ ε α : Type) where
  run : σ → Except ε α × σ

namespace Action

variable {σ ε α β : Type}

instance : Monad (Action σ ε) where
  pure a := ⟨fun s => (.ok a, s)⟩
  bind x f := ⟨fun s =>
    match x.run s with
    | (.ok a, s') => (f a).run s'
    | (.error e, s') => (.error e, s')⟩

def raise (e : ε) : Action σ ε α := ⟨fun s => (.error e, s)⟩

def ofExcept (x : Except ε α) : Action σ ε α := ⟨fun s => (x, s)⟩

def get : Action σ ε σ := ⟨fun s => (.ok s, s)⟩

def modify (f : σ → σ) : Action σ ε Unit := ⟨fun s => (.ok (), f s)⟩

/-- `try ... finally`: what the last block raises replaces what the body has raised. -/
def tryFinally (body : Action σ ε α) (last : Action σ ε Unit) : Action σ ε α :=
  ⟨fun s =>
    match last.run (body.run s).2 with
    | (.ok _, s') => ((body.run s).1, s')
    | (.error e, s') => (.error e, s')⟩

/-- `catch`: what the run raises is its result. -/
def attempt {ε' : Type} (x : Action σ ε α) : Action σ ε' (Except ε α) :=
  ⟨fun s => (.ok (x.run s).1, (x.run s).2)⟩

@[simp] theorem run_pure (a : α) (s : σ) : (pure a : Action σ ε α).run s = (.ok a, s) := rfl

@[simp] theorem run_raise (e : ε) (s : σ) : (raise e : Action σ ε α).run s = (.error e, s) := rfl

@[simp] theorem run_ofExcept (x : Except ε α) (s : σ) : (ofExcept x).run s = (x, s) := rfl

@[simp] theorem run_get (s : σ) : (get : Action σ ε σ).run s = (.ok s, s) := rfl

@[simp] theorem run_modify (f : σ → σ) (s : σ) :
    (modify f : Action σ ε Unit).run s = (.ok (), f s) := rfl

theorem run_bind (x : Action σ ε α) (f : α → Action σ ε β) (s : σ) :
    (x >>= f).run s =
      match x.run s with
      | (.ok a, s') => (f a).run s'
      | (.error e, s') => (.error e, s') :=
  rfl

theorem run_bind_ok {x : Action σ ε α} {s s' : σ} {a : α} (h : x.run s = (.ok a, s'))
    (f : α → Action σ ε β) : (x >>= f).run s = (f a).run s' := by
  rw [run_bind, h]

theorem run_bind_error {x : Action σ ε α} {s s' : σ} {e : ε} (h : x.run s = (.error e, s'))
    (f : α → Action σ ε β) : (x >>= f).run s = (.error e, s') := by
  rw [run_bind, h]

/-- A sequence succeeds when both parts do, the second from where the first ended. -/
theorem bind_eq_ok {x : Action σ ε α} {f : α → Action σ ε β} {s s' : σ} {b : β} :
    (x >>= f).run s = (.ok b, s') ↔
      ∃ a s₁, x.run s = (.ok a, s₁) ∧ (f a).run s₁ = (.ok b, s') := by
  rw [run_bind]
  constructor
  · intro h
    cases hx : x.run s with
    | mk r s₁ =>
      rw [hx] at h
      cases r with
      | ok a => exact ⟨a, s₁, rfl, h⟩
      | error e => simp at h
  · intro ⟨a, s₁, hx, hf⟩
    rw [hx]
    exact hf

theorem get_bind (f : σ → Action σ ε β) (s : σ) : (get >>= f).run s = (f s).run s := rfl

theorem ofExcept_bind_eq_ok {x : Except ε α} {f : α → Action σ ε β} {s s' : σ} {b : β} :
    (ofExcept x >>= f).run s = (.ok b, s') ↔ ∃ a, x = .ok a ∧ (f a).run s = (.ok b, s') := by
  rw [bind_eq_ok]
  constructor
  · intro ⟨a, s₁, hx, hf⟩
    rw [run_ofExcept] at hx
    obtain ⟨hok, rfl⟩ := Prod.mk.inj hx
    exact ⟨a, hok, hf⟩
  · intro ⟨a, hx, hf⟩
    exact ⟨a, s, by rw [run_ofExcept, hx], hf⟩

/-- What holds of the state before a read that may fail, and behind all that follows the read. -/
theorem ofExcept_bind_keeps {P : σ → Prop} {x : Except ε α} {f : α → Action σ ε β} {s : σ}
    (hs : P s) (hf : ∀ a, x = .ok a → P ((f a).run s).2) : P ((ofExcept x >>= f).run s).2 := by
  rw [run_bind, run_ofExcept]
  cases x with
  | ok a => exact hf a rfl
  | error e => exact hs

/-- Where every continuation keeps to `R`, the whole sequence does from the end of its head. -/
theorem bind_rel_of_head {R : σ → σ → Prop} (hrefl : ∀ s, R s s) {f : α → Action σ ε β}
    (hf : ∀ a s, R s ((f a).run s).2) (x : Action σ ε α) (s : σ) :
    R (x.run s).2 ((x >>= f).run s).2 := by
  rw [run_bind]
  cases h : x.run s with
  | mk result s' =>
    cases result with
    | ok a => exact hf a s'
    | error e => exact hrefl s'

theorem run_tryFinally_ok {last : Action σ ε Unit} {next : σ → σ}
    (hlast : ∀ s, last.run s = (.ok (), next s)) (body : Action σ ε α) (s : σ) :
    (tryFinally body last).run s = ((body.run s).1, next (body.run s).2) := by
  unfold tryFinally
  dsimp only
  rw [hlast]

theorem bind_rel {R : σ → σ → Prop} (hrefl : ∀ s, R s s)
    (htrans : ∀ {s₁ s₂ s₃}, R s₁ s₂ → R s₂ s₃ → R s₁ s₃) {x : Action σ ε α}
    {f : α → Action σ ε β} (hx : ∀ s, R s (x.run s).2) (hf : ∀ a s, R s ((f a).run s).2) (s : σ) :
    R s ((x >>= f).run s).2 :=
  htrans (hx s) (bind_rel_of_head hrefl hf x s)

end Action

theorem except_bind_eq_ok {ε α β : Type} {x : Except ε α} {f : α → Except ε β} {b : β} :
    (x >>= f) = .ok b ↔ ∃ a, x = .ok a ∧ f a = .ok b := by
  cases x <;> simp [bind, Except.bind]

theorem except_bind_eq_error {ε α β : Type} {x : Except ε α} {f : α → Except ε β} {e : ε} :
    (x >>= f) = .error e ↔ x = .error e ∨ ∃ a, x = .ok a ∧ f a = .error e := by
  cases x <;> simp [bind, Except.bind]

theorem mapM_cons_eq_error {ε α β : Type} {f : α → Except ε β} {x : α} {xs : List α} {e : ε} :
    (x :: xs).mapM f = .error e ↔
      f x = .error e ∨ (∃ y, f x = .ok y) ∧ xs.mapM f = .error e := by
  rw [List.mapM_cons, except_bind_eq_error]
  constructor
  · rintro (hx | ⟨y, hx, hrest⟩)
    · exact .inl hx
    · obtain hxs | ⟨ys, -, hys⟩ := except_bind_eq_error.mp hrest
      · exact .inr ⟨⟨y, hx⟩, hxs⟩
      · cases hys
  · rintro (hx | ⟨⟨y, hx⟩, hxs⟩)
    · exact .inl hx
    · exact .inr ⟨y, hx, except_bind_eq_error.mpr (.inl hxs)⟩

theorem mem_of_mapM_eq_ok {ε α β : Type} {f : α → Except ε β} {xs : List α} {ys : List β}
    (h : xs.mapM f = .ok ys) {y : β} (hy : y ∈ ys) : ∃ x ∈ xs, f x = .ok y := by
  induction xs generalizing ys with
  | nil =>
    cases h
    exact absurd hy List.not_mem_nil
  | cons x xs ih =>
    rw [List.mapM_cons] at h
    obtain ⟨first, hfirst, h⟩ := except_bind_eq_ok.mp h
    obtain ⟨rest, hrest, h⟩ := except_bind_eq_ok.mp h
    cases h
    obtain rfl | hy := List.mem_cons.mp hy
    · exact ⟨x, List.mem_cons_self, hfirst⟩
    · obtain ⟨x', hx', hf⟩ := ih hrest hy
      exact ⟨x', List.mem_cons_of_mem _ hx', hf⟩

end SharpGit.Library
