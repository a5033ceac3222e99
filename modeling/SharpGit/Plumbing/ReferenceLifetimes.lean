import SharpGit.Plumbing.GitConfiguration

namespace SharpGit.Plumbing.References

open Library Native Implementation State

variable {W α β : Type}

namespace Objects

/-- `Configuration` was read again behind this object. -/
def Superseded (o : Objects) (r c : Nat) : Prop :=
  ∃ c', c < c' ∧ o.kind c' = some (.referenced .configuration) ∧ o.parent c' = some r

/-- What the references of the repositories lead to. -/
structure Sound (o : Objects) : Prop where
  new : ∀ x, o.created ≤ x → o.kind x = none
  classless : ∀ x, o.kind x = none → o.pointer x = none
  typed : ∀ what r x, o.reference what r = some x →
    o.kind r = some .repository ∧ o.kind x = some (.referenced what)
  closed : ∀ what r, o.pointer r = none → o.reference what r = none
  kept : ∀ what x, what ≠ .configuration → o.kind x = some (.referenced what) →
    o.pointer x ≠ none → ∃ r, o.reference what r = some x
  current : ∀ c, o.kind c = some (.referenced .configuration) → o.pointer c ≠ none →
    ∃ r, o.parent c = some r ∧ (o.reference .configuration r = some c ∨ o.Superseded r c)

variable {o : Objects}

@[simp] theorem setPointer_pointer (x : Nat) (handle : Option Nat) (o : Objects) :
    (o.setPointer x handle).pointer = Function.update o.pointer x handle := rfl

theorem setPointer_self (x : Nat) (h : o.pointer x = none) : o.setPointer x none = o := by
  have hupdate : Function.update o.pointer x none = o.pointer := by
    rw [← h, Function.update_eq_self]
  rw [setPointer, hupdate]

theorem setReference_same (what : Referenced) (r : Nat) (x : Option Nat) (o : Objects) :
    (o.setReference what r x).reference what r = x := by
  rw [setReference]
  dsimp only
  rw [Function.update_self, Function.update_self]

theorem setReference_other {what what' : Referenced} {r r' : Nat} (x : Option Nat) (o : Objects)
    (h : what' = what → r' ≠ r) :
    (o.setReference what r x).reference what' r' = o.reference what' r' := by
  rw [setReference]
  dsimp only
  by_cases hwhat : what' = what
  · subst hwhat
    rw [Function.update_self, Function.update_of_ne (h rfl)]
  · rw [Function.update_of_ne hwhat]

/-- A reference was there before, or it is the new one. -/
theorem setReference_cases {what what' : Referenced} {r r' x : Nat} {found : Option Nat}
    (h : (o.setReference what r found).reference what' r' = some x) :
    what' = what ∧ r' = r ∧ found = some x ∨ o.reference what' r' = some x := by
  by_cases hsame : what' = what ∧ r' = r
  · obtain ⟨rfl, rfl⟩ := hsame
    rw [setReference_same] at h
    exact .inl ⟨rfl, rfl, h⟩
  · rw [setReference_other found o fun hwhat hr => hsame ⟨hwhat, hr⟩] at h
    exact .inr h

namespace Sound

theorem created_pointer (h : o.Sound) : o.pointer o.created = none :=
  h.classless _ (h.new _ le_rfl)

theorem newRepository_pointer (h : o.Sound) :
    (o.gcnew .repository none none).pointer = o.pointer := by
  rw [gcnew]
  dsimp only
  rw [← h.created_pointer, Function.update_eq_self]

theorem lt_created (h : o.Sound) {x : Nat} {kind : ManagedClass} (hx : o.kind x = some kind) :
    x < o.created := by
  by_contra hle
  rw [h.new x (Nat.not_lt.mp hle)] at hx
  exact absurd hx (Option.some_ne_none _).symm

/-- Another object stays what it is. -/
theorem gcnew_old (kind : ManagedClass) (parent handle : Option Nat) {x : Nat}
    (hx : x ≠ o.created) :
    (o.gcnew kind parent handle).kind x = o.kind x ∧
      (o.gcnew kind parent handle).pointer x = o.pointer x ∧
        (o.gcnew kind parent handle).parent x = o.parent x :=
  ⟨Function.update_of_ne hx _ _, Function.update_of_ne hx _ _, Function.update_of_ne hx _ _⟩

/-- An object keeps its class when another is made. -/
theorem gcnew_kind (h : o.Sound) (new : ManagedClass) (parent handle : Option Nat) {x : Nat}
    {kind : ManagedClass} (hx : o.kind x = some kind) :
    (o.gcnew new parent handle).kind x = some kind := by
  rw [(gcnew_old new parent handle (Nat.ne_of_lt (h.lt_created hx))).1, hx]

theorem superseded_gcnew (h : o.Sound) (new : ManagedClass) (parent handle : Option Nat)
    {r c : Nat} (hc : o.Superseded r c) : (o.gcnew new parent handle).Superseded r c := by
  obtain ⟨c', hlt, hkind, hparent⟩ := hc
  obtain ⟨-, -, hold⟩ := @gcnew_old o new parent handle c' (Nat.ne_of_lt (h.lt_created hkind))
  exact ⟨c', hlt, h.gcnew_kind new parent handle hkind, hold.trans hparent⟩

/-- A repository without a handle has no references. -/
theorem newRepository (h : o.Sound) : (o.gcnew .repository none none).Sound := by
  have hpointer := h.newRepository_pointer
  have hkind : ∀ x what, (o.gcnew .repository none none).kind x = some (.referenced what) →
      x ≠ o.created ∧ o.kind x = some (.referenced what) := by
    intro x what hx
    have hne : x ≠ o.created := by
      rintro rfl
      rw [gcnew] at hx
      dsimp only at hx
      rw [Function.update_self] at hx
      exact absurd hx (by simp)
    exact ⟨hne, (gcnew_old .repository none none hne).1.symm.trans hx⟩
  refine ⟨?_, ?_, ?_, ?_, ?_, ?_⟩
  · intro x hx
    have hlt : o.created < x := hx
    rw [(gcnew_old .repository none none (Nat.ne_of_gt hlt)).1]
    exact h.new x hlt.le
  · intro x hx
    rw [hpointer]
    by_cases heq : x = o.created
    · rw [heq]
      exact h.created_pointer
    · rw [(gcnew_old .repository none none heq).1] at hx
      exact h.classless x hx
  · intro what r x hx
    obtain ⟨hr, hreferenced⟩ := h.typed what r x hx
    exact ⟨h.gcnew_kind _ _ _ hr, h.gcnew_kind _ _ _ hreferenced⟩
  · rw [hpointer]
    exact h.closed
  · intro what x hwhat hx hp
    rw [hpointer] at hp
    exact h.kept what x hwhat (hkind x what hx).2 hp
  · intro c hc hp
    obtain ⟨hne, hold⟩ := hkind c .configuration hc
    rw [hpointer] at hp
    obtain ⟨r, hparent, hr⟩ := h.current c hold hp
    refine ⟨r, (gcnew_old .repository none none hne).2.2.trans hparent, ?_⟩
    exact hr.imp id (h.superseded_gcnew _ _ _)

theorem opened (h : o.Sound) {r : Nat} (hr : o.kind r = some .repository) (handle : Nat) :
    (o.setPointer r (some handle)).Sound := by
  have hpointer : ∀ x, x ≠ r → (o.setPointer r (some handle)).pointer x = o.pointer x :=
    fun x hx => Function.update_of_ne hx _ _
  refine ⟨h.new, ?_, h.typed, ?_, ?_, ?_⟩
  · intro x hx
    have hne : x ≠ r := by
      intro heq
      rw [heq] at hx
      exact absurd (hr.symm.trans hx) (Option.some_ne_none _)
    rw [hpointer x hne]
    exact h.classless x hx
  · intro what x hx
    by_cases heq : x = r
    · rw [heq, setPointer_pointer, Function.update_self] at hx
      exact absurd hx (Option.some_ne_none _)
    · rw [hpointer x heq] at hx
      exact h.closed what x hx
  · intro what x hwhat hx hp
    have hne : x ≠ r := by
      intro heq
      rw [heq] at hx
      exact absurd (hr.symm.trans hx) (by simp)
    rw [hpointer x hne] at hp
    exact h.kept what x hwhat hx hp
  · intro c hc hp
    have hne : c ≠ r := by
      intro heq
      rw [heq] at hc
      exact absurd (hr.symm.trans hc) (by simp)
    rw [hpointer c hne] at hp
    exact h.current c hc hp

/-- A new object with a handle, referred to by an open repository. -/
theorem keepInstance (h : o.Sound) {what : Referenced} {r : Nat} {parent : Option Nat}
    (handle : Nat) (hr : o.kind r = some .repository) (hopen : o.pointer r ≠ none)
    (hparent : what = .configuration → parent = some r)
    (hnone : what ≠ .configuration → o.reference what r = none) :
    ((o.gcnew (.referenced what) parent (some handle)).setReference what r
      (some o.created)).Sound := by
  have hself : (o.gcnew (.referenced what) parent (some handle)).kind o.created =
      some (.referenced what) := Function.update_self _ _ _
  have hkind : ∀ {x kind}, o.kind x = some kind →
      (o.gcnew (.referenced what) parent (some handle)).kind x = some kind :=
    fun hx => h.gcnew_kind _ _ _ hx
  refine ⟨?_, ?_, ?_, ?_, ?_, ?_⟩
  · intro x hx
    change (o.gcnew (.referenced what) parent (some handle)).kind x = none
    have hlt : o.created < x := hx
    rw [(gcnew_old _ _ _ (Nat.ne_of_gt hlt)).1]
    exact h.new x hlt.le
  · intro x hx
    change (o.gcnew (.referenced what) parent (some handle)).kind x = none at hx
    change (o.gcnew (.referenced what) parent (some handle)).pointer x = none
    by_cases heq : x = o.created
    · rw [heq, hself] at hx
      exact absurd hx (Option.some_ne_none _)
    · obtain ⟨hold, hpointer, -⟩ := @gcnew_old o (.referenced what) parent (some handle) x heq
      rw [hpointer]
      exact h.classless x (hold.symm.trans hx)
  · intro what' r' x hx
    change (o.gcnew (.referenced what) parent (some handle)).kind r' = _ ∧
      (o.gcnew (.referenced what) parent (some handle)).kind x = _
    obtain ⟨rfl, rfl, heq⟩ | hbefore := setReference_cases hx
    · rw [← Option.some.inj heq]
      exact ⟨hkind hr, hself⟩
    · obtain ⟨hr', hreferenced⟩ := h.typed what' r' x hbefore
      exact ⟨hkind hr', hkind hreferenced⟩
  · intro what' r' hp
    change (o.gcnew (.referenced what) parent (some handle)).pointer r' = none at hp
    by_cases heq : r' = o.created
    · have hhandle : (o.gcnew (.referenced what) parent (some handle)).pointer o.created =
          some handle := Function.update_self _ _ _
      rw [heq, hhandle] at hp
      exact absurd hp (Option.some_ne_none _)
    · rw [(gcnew_old _ _ _ heq).2.1] at hp
      have hne : r' ≠ r := fun hsame => hopen (hsame ▸ hp)
      rw [setReference_other _ _ fun _ => hne]
      exact h.closed what' r' hp
  · intro what' x hwhat hx hp
    change (o.gcnew (.referenced what) parent (some handle)).kind x = _ at hx
    change (o.gcnew (.referenced what) parent (some handle)).pointer x ≠ none at hp
    by_cases heq : x = o.created
    · rw [heq, hself] at hx
      injection hx with hx
      injection hx with hx
      exact ⟨r, by rw [heq, ← hx, setReference_same]⟩
    · obtain ⟨hold, hpointer, -⟩ := @gcnew_old o (.referenced what) parent (some handle) x heq
      rw [hold] at hx
      rw [hpointer] at hp
      obtain ⟨r', hr'⟩ := h.kept what' x hwhat hx hp
      refine ⟨r', ?_⟩
      rw [setReference_other]
      · exact hr'
      · rintro rfl rfl
        exact absurd (hr'.symm.trans (hnone hwhat)) (Option.some_ne_none _)
  · intro c hc hp
    change (o.gcnew (.referenced what) parent (some handle)).kind c = _ at hc
    change (o.gcnew (.referenced what) parent (some handle)).pointer c ≠ none at hp
    have hnew : what = .configuration →
        (o.gcnew (.referenced what) parent (some handle)).parent o.created = some r :=
      fun hwhat => (Function.update_self _ _ _).trans (hparent hwhat)
    by_cases heq : c = o.created
    · rw [heq, hself] at hc
      injection hc with hc
      injection hc with hc
      subst hc heq
      exact ⟨r, hnew rfl, .inl (setReference_same _ _ _ _)⟩
    · obtain ⟨hold, hpointer, hold'⟩ :=
        @gcnew_old o (.referenced what) parent (some handle) c heq
      rw [hold] at hc
      rw [hpointer] at hp
      obtain ⟨r', hparent', hcurrent | hlater⟩ := h.current c hc hp
      · refine ⟨r', hold'.trans hparent', ?_⟩
        by_cases hsame : what = .configuration ∧ r' = r
        · obtain ⟨rfl, rfl⟩ := hsame
          exact .inr ⟨o.created, h.lt_created hc, hself, hnew rfl⟩
        · left
          rw [setReference_other]
          · exact hcurrent
          · exact fun hwhat hr' => hsame ⟨hwhat.symm, hr'⟩
      · exact ⟨r', hold'.trans hparent',
        .inr (h.superseded_gcnew (.referenced what) parent (some handle) hlater)⟩

/-- An object gives up its handle; a repository has given up its references before. -/
theorem freed (h : o.Sound) {x : Nat} (hx : ∀ what, o.reference what x = none) :
    (o.setPointer x none).Sound := by
  have hpointer : ∀ y, (o.setPointer x none).pointer y = none ↔ y = x ∨ o.pointer y = none := by
    intro y
    by_cases heq : y = x
    · simp [heq]
    · simp [heq]
  refine ⟨h.new, ?_, h.typed, ?_, ?_, ?_⟩
  · exact fun y hy => (hpointer y).mpr (.inr (h.classless y hy))
  · intro what y hy
    obtain rfl | hy := (hpointer y).mp hy
    · exact hx what
    · exact h.closed what y hy
  · intro what y hwhat hy hp
    exact h.kept what y hwhat hy fun hnone => hp ((hpointer y).mpr (.inr hnone))
  · intro c hc hp
    exact h.current c hc fun hnone => hp ((hpointer c).mpr (.inr hnone))

/-- A repository forgets an object that has been freed. -/
theorem forgets (h : o.Sound) {what : Referenced} {r : Nat}
    (hfreed : ∀ x, o.reference what r = some x → o.pointer x = none) :
    (o.setReference what r none).Sound := by
  have hbefore : ∀ {what' r' x}, (o.setReference what r none).reference what' r' = some x →
      o.reference what' r' = some x := by
    intro what' r' x hx
    obtain ⟨-, -, hnone⟩ | hbefore := setReference_cases hx
    · exact absurd hnone (Option.some_ne_none _).symm
    · exact hbefore
  refine ⟨h.new, h.classless, fun what' r' x hx => h.typed what' r' x (hbefore hx), ?_, ?_, ?_⟩
  · intro what' r' hp
    cases hfound : (o.setReference what r none).reference what' r' with
    | none => rfl
    | some x => exact absurd ((hbefore hfound).symm.trans (h.closed what' r' hp)) (by simp)
  · intro what' x hwhat hx hp
    obtain ⟨r', hr'⟩ := h.kept what' x hwhat hx hp
    refine ⟨r', ?_⟩
    rw [setReference_other]
    · exact hr'
    · rintro rfl rfl
      exact hp (hfreed x hr')
  · intro c hc hp
    obtain ⟨r', hparent, hcurrent | hlater⟩ := h.current c hc hp
    · refine ⟨r', hparent, .inl ?_⟩
      rw [setReference_other]
      · exact hcurrent
      · rintro rfl rfl
        exact hp (hfreed c hcurrent)
    · exact ⟨r', hparent, .inr hlater⟩

end Sound

/-- From here on objects have only lost handles and references. -/
structure Fewer (o o' : Objects) : Prop where
  created : o'.created = o.created
  kind : o'.kind = o.kind
  pointer : ∀ x handle, o'.pointer x = some handle → o.pointer x = some handle
  reference : ∀ what r x, o'.reference what r = some x → o.reference what r = some x

namespace Fewer

variable {o₁ o₂ o₃ : Objects}

theorem refl (o : Objects) : Fewer o o := ⟨rfl, rfl, fun _ _ h => h, fun _ _ _ h => h⟩

theorem trans (h : Fewer o₁ o₂) (h' : Fewer o₂ o₃) : Fewer o₁ o₃ :=
  ⟨h'.created.trans h.created, h'.kind.trans h.kind,
    fun x handle hx => h.pointer x handle (h'.pointer x handle hx),
    fun what r x hx => h.reference what r x (h'.reference what r x hx)⟩

theorem freed (x : Nat) (o : Objects) : Fewer o (o.setPointer x none) := by
  refine ⟨rfl, rfl, ?_, fun _ _ _ h => h⟩
  intro y handle hy
  by_cases heq : y = x
  · rw [heq, setPointer_pointer, Function.update_self] at hy
    exact absurd hy (Option.some_ne_none _).symm
  · rw [setPointer_pointer, Function.update_of_ne heq] at hy
    exact hy

theorem forgets (what : Referenced) (r : Nat) (o : Objects) :
    Fewer o (o.setReference what r none) := by
  refine ⟨rfl, rfl, fun _ _ h => h, ?_⟩
  intro what' r' x hx
  obtain ⟨-, -, hnone⟩ | hbefore := setReference_cases hx
  · exact absurd hnone (Option.some_ne_none _).symm
  · exact hbefore

theorem pointer_none (h : Fewer o₁ o₂) {x : Nat} (hx : o₁.pointer x = none) :
    o₂.pointer x = none := by
  cases hfound : o₂.pointer x with
  | none => rfl
  | some handle => exact absurd ((h.pointer x handle hfound).symm.trans hx) (by simp)

end Fewer

end Objects

namespace State

structure Sound (s : State W) : Prop where
  objects : s.objects.Sound
  owned : Handling.Owned s.objects.pointer s.native

/-- A run that changes no object and leaves open what is open. -/
structure Quiet (s s' : State W) : Prop where
  objects : s'.objects = s.objects
  keeps : ∀ held, (∀ x handle, s.objects.pointer x = some handle → handle ∈ held) →
    s.native.Open held → s'.native.Open held

theorem Quiet.refl (s : State W) : Quiet s s := ⟨rfl, fun _ _ h => h⟩

theorem Sound.quiet {s s' : State W} (h : s.Sound) (hquiet : Quiet s s') : s'.Sound := by
  refine ⟨hquiet.objects ▸ h.objects, ?_⟩
  rw [hquiet.objects]
  exact h.owned.keep hquiet.keeps

/-- What keeps the handles open that it is given an open one of. -/
theorem quiet_outside {s : State W} {x handle : Nat} (hx : s.objects.pointer x = some handle)
    {act : NativeAction W α} (hact : ∀ held, handle ∈ held → Handling.Keeps held act) :
    Quiet s ((outside act).run s).2 :=
  ⟨rfl, fun held hheld hopen => Handling.goes_iff.mp (hact held (hheld x handle hx)) _ hopen⟩

theorem quiet_ask {s : State W} {x handle : Nat} (hx : s.objects.pointer x = some handle)
    (what : NativeCall) (f : W → α × W) :
    Quiet s ((outside (Handling.ask [handle] what f)).run s).2 :=
  quiet_outside hx fun _ hin => Handling.keeps_ask (singleton_subset hin) what f

/-- An object without a handle takes a new one. -/
theorem Sound.holds {s : State W} (h : s.Sound) {x : Nat} (hx : s.objects.pointer x = none)
    {objects : Objects} (hpointer : objects.pointer =
      Function.update s.objects.pointer x (some s.native.next)) (hobjects : objects.Sound) {w : W}
    {log : List (HandleEvent NativeCall)} {next : Nat} (hnext : next = s.native.next + 1)
    (hlog : log = s.native.log ++ [.opened s.native.next]) :
    State.Sound ⟨objects, ⟨w, next, log⟩⟩ := by
  refine ⟨hobjects, ?_⟩
  rw [hpointer, hnext, hlog]
  exact h.owned.hold hx w

end State

open State

theorem objects?_bind (f : Objects → Member W α) (s : State W) :
    (objects? >>= f).run s = (f s.objects).run s := rfl

theorem withObjects_bind (f : Objects → Objects) (g : Unit → Member W α) (s : State W) :
    (withObjects f >>= g).run s = (g ()).run { s with objects := f s.objects } := rfl

theorem run_outside (act : NativeAction W α) (s : State W) :
    (outside act).run s = ((act.run s.native).1, { s with native := (act.run s.native).2 }) := rfl

theorem outside_bind (act : NativeAction W α) (f : α → Member W β) (s : State W) :
    (outside act >>= f).run s =
      match act.run s.native with
      | (.ok a, native) => (f a).run { s with native := native }
      | (.error e, native) => (.error e, { s with native := native }) := by
  rw [Action.run_bind, run_outside]
  cases act.run s.native with
  | mk result native => cases result <;> rfl

/-- What follows changes nothing. -/
theorem bind_still {x : Member W α} {f : α → Member W β} (hf : ∀ a s, ((f a).run s).2 = s)
    (s : State W) : ((x >>= f).run s).2 = (x.run s).2 :=
  @Action.bind_rel_of_head _ _ _ _ (fun s s' => s' = s) (fun _ => rfl) f hf x s

/-- From objects like these a run changes none, and leaves open what is open. -/
def Calm (P : Objects → Prop) (member : Member W α) : Prop :=
  ∀ s : State W, P s.objects → Quiet s (member.run s).2

section Calm

variable {P : Objects → Prop}

theorem State.Quiet.trans {s s' s'' : State W} (h : Quiet s s') (h' : Quiet s' s'') :
    Quiet s s'' := by
  refine ⟨h'.objects.trans h.objects, ?_⟩
  intro held hheld hopen
  exact h'.keeps held (h.objects ▸ hheld) (h.keeps held hheld hopen)

theorem calm_pure (a : α) : Calm P (pure a : Member W α) := fun s _ => Quiet.refl s

theorem calm_raise (e : Failure) : Calm P (Action.raise e : Member W α) := fun s _ => Quiet.refl s

theorem Calm.bind {x : Member W α} {f : α → Member W β} (hx : Calm P x) (hf : ∀ a, Calm P (f a)) :
    Calm P (x >>= f) := by
  intro s hs
  have hfirst := hx s hs
  rw [Action.run_bind]
  cases hrun : x.run s with
  | mk result s' =>
    rw [hrun] at hfirst
    cases result with
    | error e => exact hfirst
    | ok a => exact hfirst.trans (hf a s' (hfirst.objects ▸ hs))

/-- A call on handles that are held. -/
theorem calm_ask {handles : List Nat}
    (h : ∀ o : Objects, P o → ∀ handle ∈ handles, ∃ x, o.pointer x = some handle)
    (what : NativeCall) (f : W → α × W) :
    Calm P (outside (Handling.ask handles what f) : Member W α) := by
  intro s hs
  refine ⟨rfl, fun held hheld hopen => hopen.asked ?_ what f⟩
  intro handle hin
  obtain ⟨x, hx⟩ := h s.objects hs handle hin
  exact hheld x handle hx

end Calm

section Members

variable (api : ReferenceApi W) {s : State W}

theorem openedBy_sound (hs : s.Sound) {r : Nat} (hr : s.objects.kind r = some .repository)
    (hnone : s.objects.pointer r = none) (call : W → Except Int Unit × W) :
    ((GitRepository.openedBy call r).run s).2.Sound := by
  have hasked : State.Sound ⟨s.objects, Handling.asked [] .open call s.native⟩ :=
    hs.quiet ⟨rfl, fun _ _ hopen => hopen.asked (List.nil_subset _) .open call⟩
  rw [GitRepository.openedBy, outside_bind]
  obtain ⟨code, hrun⟩ | hrun :=
    @Handling.openOn_cases W NativeCall Failure Int [] .open call s.native
  · rw [hrun]
    exact hasked
  · rw [hrun]
    exact hasked.holds hnone rfl (hs.objects.opened hr _) rfl rfl

theorem assertNotOpen_bind (r : Nat) (f : Unit → Member W α) (s : State W) :
    ((GitRepository.assertNotOpen r >>= f).run s =
        (.error .invalidOperation, s)) ∨
      s.objects.pointer r = none ∧
        (GitRepository.assertNotOpen r >>= f).run s = (f ()).run s := by
  cases hp : s.objects.pointer r with
  | none =>
    refine .inr ⟨rfl, ?_⟩
    rw [GitRepository.assertNotOpen, Action.run_bind, objects?_bind, Objects.isDisposed, hp]
    rfl
  | some handle =>
    refine .inl ?_
    rw [GitRepository.assertNotOpen, Action.run_bind, objects?_bind, Objects.isDisposed, hp]
    rfl

theorem createAndOpen_sound (hs : s.Sound) {r : Nat} (hr : s.objects.kind r = some .repository)
    (path : NetString) : ((GitRepository.createAndOpen api r path).run s).2.Sound := by
  rw [GitRepository.createAndOpen]
  obtain hraised | ⟨hnone, hrun⟩ := assertNotOpen_bind r _ s
  · rw [hraised]
    exact hs
  · rw [hrun]
    exact openedBy_sound hs hr hnone _

theorem open_sound (hs : s.Sound) {r : Nat} (hr : s.objects.kind r = some .repository)
    (path : NetString) : ((GitRepository.open api r path).run s).2.Sound := by
  rw [GitRepository.open]
  obtain hraised | ⟨hnone, hrun⟩ := assertNotOpen_bind r _ s
  · rw [hraised]
    exact hs
  · rw [hrun]
    split
    · exact hs
    · exact openedBy_sound hs hr hnone _

theorem existing_calm {P : Objects → Prop} (fuel : Nat) (dirent : CStr) :
    Calm P (GitRepository.existing api fuel dirent) := by
  induction fuel generalizing dirent with
  | zero => exact calm_raise .diverges
  | succ fuel ih =>
    rw [GitRepository.existing]
    refine (calm_ask (fun _ _ _ hin => absurd hin List.not_mem_nil) _ _).bind ?_
    intro found
    cases found with
    | error code => exact calm_raise _
    | ok kind =>
      dsimp only
      split
      · exact ih _
      · exact calm_pure _

theorem locate_sound (hs : s.Sound) {r : Nat} (hr : s.objects.kind r = some .repository)
    (path : NetString) : ((GitRepository.locate api r path).run s).2.Sound := by
  rw [GitRepository.locate]
  obtain hraised | ⟨hnone, hrun⟩ := assertNotOpen_bind r _ s
  · rw [hraised]
    exact hs
  · rw [hrun]
    split
    · exact hs
    · rw [Action.run_bind, Action.run_ofExcept]
      cases Plumbing.GitRepository.cutWildcard (allocDirentUpToNul path) with
      | error e => exact hs
      | ok dirent =>
        dsimp only
        have hquiet := @existing_calm W api (fun _ => True) (dirent.length + 1) dirent s trivial
        rw [Action.run_bind]
        cases hwalk : (GitRepository.existing api (dirent.length + 1) dirent).run s with
        | mk result s' =>
          rw [hwalk] at hquiet
          cases result with
          | error e => exact hs.quiet hquiet
          | ok dirent =>
            have hobjects := hquiet.objects
            dsimp only at hobjects ⊢
            rw [← hobjects] at hr hnone
            exact openedBy_sound (hs.quiet hquiet) hr hnone _

theorem flag_quiet (what : Flag) (r : Nat) (s : State W) :
    Quiet s ((GitRepository.flag api what r).run s).2 := by
  rw [GitRepository.flag, objects?_bind]
  cases hp : s.objects.pointer r with
  | none => exact Quiet.refl s
  | some repository => exact quiet_ask hp _ _

theorem headFlag_quiet (what : Flag) (r : Nat) (s : State W) :
    Quiet s ((GitRepository.headFlag api what r).run s).2 := by
  rw [GitRepository.headFlag, objects?_bind]
  cases hp : s.objects.pointer r with
  | none => exact Quiet.refl s
  | some repository => exact quiet_ask hp _ _

theorem keepInstance_sound (hs : s.Sound) {what : Referenced} {parent : Option Nat}
    {r repository : Nat} (hr : s.objects.kind r = some .repository)
    (hopen : s.objects.pointer r = some repository)
    (hparent : what = .configuration → parent = some r)
    (hnone : what ≠ .configuration → s.objects.reference what r = none) :
    ((GitRepository.keepInstance api what parent r repository).run s).2.Sound := by
  have hasked : State.Sound ⟨s.objects,
      Handling.asked [repository] (.get what) (api.get what repository) s.native⟩ :=
    hs.quiet ⟨rfl, fun held hheld hs =>
      hs.asked (singleton_subset (hheld r repository hopen)) _ _⟩
  rw [GitRepository.keepInstance, outside_bind]
  obtain ⟨code, hrun⟩ | hrun := @Handling.openOn_cases W NativeCall Failure Int [repository]
    (.get what) (api.get what repository) s.native
  · rw [hrun]
    exact hasked
  · rw [hrun]
    refine hasked.holds hs.objects.created_pointer rfl ?_ rfl rfl
    exact hs.objects.keepInstance _ hr (by simp [hopen]) hparent hnone

theorem configuration_sound (hs : s.Sound) {r : Nat} (hr : s.objects.kind r = some .repository) :
    ((GitRepository.configuration api r).run s).2.Sound := by
  rw [GitRepository.configuration, objects?_bind]
  cases hp : s.objects.pointer r with
  | none => exact hs
  | some repository => exact keepInstance_sound api hs hr hp (fun _ => rfl) fun h => absurd rfl h

theorem kept_sound (hs : s.Sound) {what : Referenced} (hwhat : what ≠ .configuration) {r : Nat}
    (hr : s.objects.kind r = some .repository) :
    ((GitRepository.kept api what r).run s).2.Sound := by
  rw [GitRepository.kept, objects?_bind]
  cases hfound : s.objects.reference what r with
  | some x => exact hs
  | none =>
    cases hp : s.objects.pointer r with
    | none => exact hs
    | some repository =>
      exact keepInstance_sound api hs hr hp (fun heq => absurd heq hwhat) fun _ => hfound

theorem count_quiet (i : Nat) (s : State W) : Quiet s ((GitIndex.count api i).run s).2 := by
  rw [GitIndex.count, objects?_bind]
  cases hp : s.objects.pointer i with
  | none => exact Quiet.refl s
  | some index => exact quiet_ask hp _ _

theorem hasConflicts_quiet (i : Nat) (s : State W) :
    Quiet s ((GitIndex.hasConflicts api i).run s).2 := by
  rw [GitIndex.hasConflicts, objects?_bind]
  cases hp : s.objects.pointer i with
  | none => exact Quiet.refl s
  | some index => exact quiet_ask hp _ _

section Index

variable {index : Nat}

/-- The index has this handle. -/
def Holds (i index : Nat) (o : Objects) : Prop := o.pointer i = some index

theorem ask_calm (i : Nat) (what : NativeCall) (f : W → α × W) :
    Calm (Holds i index) (outside (Handling.ask [index] what f) : Member W α) := by
  apply calm_ask
  intro o ho handle hin
  exact ⟨i, (List.mem_singleton.mp hin) ▸ ho⟩

/-- Behind `AssertOpen` the index has a handle. -/
theorem assertOpen_quiet {i : Nat} {f : Nat → Member W β}
    (hf : ∀ index, Calm (Holds i index) (f index)) (s : State W) :
    Quiet s ((GitIndex.assertOpen i >>= f).run s).2 := by
  rw [GitIndex.assertOpen, Action.run_bind, objects?_bind]
  cases hp : s.objects.pointer i with
  | none => exact Quiet.refl s
  | some index => exact hf index s hp

theorem checked_calm (i : Nat) (what : NativeCall) (call : Nat → W → Except Int α × W) :
    Calm (Holds i index) (GitIndex.checked index what call) := by
  rw [GitIndex.checked]
  refine (ask_calm i _ _).bind ?_
  intro result
  cases result with
  | error code => exact calm_raise _
  | ok a => exact calm_pure a

theorem write_quiet (i : Nat) (s : State W) : Quiet s ((GitIndex.write api i).run s).2 :=
  assertOpen_quiet (fun _ => (checked_calm i _ _).bind fun _ => calm_pure true) s

theorem reload_quiet (i : Nat) (s : State W) : Quiet s ((GitIndex.reload api i).run s).2 :=
  assertOpen_quiet (fun _ => (checked_calm i _ _).bind fun _ => calm_pure true) s

theorem createTree_quiet (i : Nat) (s : State W) : Quiet s ((GitIndex.createTree api i).run s).2 :=
  assertOpen_quiet (fun _ => (checked_calm i _ _).bind fun _ => calm_pure _) s

theorem clear_quiet (i : Nat) (s : State W) : Quiet s ((GitIndex.clear api i).run s).2 :=
  assertOpen_quiet (fun _ => (ask_calm i _ _).bind fun _ => calm_pure true) s

theorem add_quiet (i : Nat) (relPath : NetString) (s : State W) :
    Quiet s ((GitIndex.add api i relPath).run s).2 := by
  refine assertOpen_quiet (fun index => ?_) s
  dsimp only
  split
  · exact calm_raise _
  · exact (checked_calm i _ _).bind fun _ => calm_pure true

theorem contains_quiet (i : Nat) (relPath : NetString) (s : State W) :
    Quiet s ((GitIndex.contains api i relPath).run s).2 := by
  refine assertOpen_quiet (fun index => (ask_calm i _ _).bind ?_) s
  intro found
  cases found <;> exact calm_pure _

/-- What is done with an entry, where there is one. -/
theorem entry_calm {i : Nat} {what : NativeCall} {f : W → Option IndexEntry × W}
    {none' : Member W α} {some' : IndexEntry → Member W α} (hnone : Calm (Holds i index) none')
    (hsome : ∀ entry, Calm (Holds i index) (some' entry)) :
    Calm (Holds i index) (outside (Handling.ask [index] what f) >>= fun found =>
      match found with
      | none => none'
      | some entry => some' entry) := by
  refine (ask_calm i _ _).bind ?_
  intro found
  cases found with
  | none => exact hnone
  | some entry => exact hsome entry

theorem itemAt_quiet (i : Nat) (pos : Int) (s : State W) :
    Quiet s ((GitIndex.itemAt api i pos).run s).2 := by
  refine assertOpen_quiet (fun index => ?_) s
  split
  · exact calm_raise _
  · exact entry_calm (calm_raise _) fun _ => calm_pure _

theorem item_quiet (i : Nat) (relativePath : NetString) (s : State W) :
    Quiet s ((GitIndex.item api i relativePath).run s).2 := by
  refine assertOpen_quiet (fun index => ?_) s
  split
  · exact calm_raise _
  · exact entry_calm (calm_raise _) fun _ => calm_pure _

theorem removeEntry_calm (i : Nat) (entry : IndexEntry) :
    Calm (Holds i index) (GitIndex.removeEntry api index entry) := by
  refine (ask_calm i _ _).bind ?_
  intro result
  cases result <;> exact calm_pure _

theorem removeAt_quiet (i : Nat) (pos : Int) (s : State W) :
    Quiet s ((GitIndex.removeAt api i pos).run s).2 := by
  refine assertOpen_quiet (fun index => ?_) s
  split
  · exact calm_raise _
  · exact entry_calm (calm_pure _) fun entry => removeEntry_calm api i entry

/-- Every turn of the loop is calm. -/
theorem removeTurns_calm (i : Nat) (path : CStr) (recursive : Bool) (fuel pos c : Nat)
    (deletedOne : Bool) :
    Calm (Holds i index) (GitIndex.removeTurns api index path recursive fuel pos c deletedOne) := by
  induction fuel generalizing pos c deletedOne with
  | zero => exact calm_pure _
  | succ fuel ih =>
    rw [GitIndex.removeTurns]
    split
    · refine entry_calm (calm_raise _) fun entry => ?_
      split
      · exact (removeEntry_calm api i entry).bind fun _ => ih _ _ _
      · exact ih _ _ _
    · exact calm_pure _

theorem remove_quiet (i : Nat) (relativePath : NetString) (recursive : Bool) (s : State W) :
    Quiet s ((GitIndex.remove api i relativePath recursive).run s).2 := by
  refine assertOpen_quiet (fun index => ?_) s
  split
  · exact calm_raise _
  · exact (ask_calm i _ _).bind fun c => removeTurns_calm api i _ recursive c 0 c false

end Index

/-- A level is open only during its call. -/
theorem keeps_onLevel {held : List Nat} {config : Nat} (hopen : config ∈ held) (level : Level)
    (what : NativeCall) (call : Nat → W → Except Int α × W) :
    Handling.Keeps held (GitConfiguration.onLevel api config level what call) := by
  rw [GitConfiguration.onLevel]
  split
  · exact Handling.keeps_ask (singleton_subset hopen) _ _
  · refine (Handling.opens_openOn (singleton_subset hopen) _ _).bind ?_
    intro opened
    cases opened with
    | error code => exact Handling.keeps_pure _
    | ok cfg =>
      intro s hs
      have hasked := hs.asked (singleton_subset List.mem_cons_self) what (call cfg)
      exact @Handling.moves_release W NativeCall Failure held held cfg (api.free cfg) _ hasked

theorem handle_cases (c : Nat) (s : State W) :
    (∃ e, (GitConfiguration.handle c).run s = (.error e, s)) ∨
      ∃ config, s.objects.pointer c = some config ∧
        (GitConfiguration.handle c).run s = (.ok config, s) := by
  rw [GitConfiguration.handle, objects?_bind]
  split
  · exact .inl ⟨_, rfl⟩
  · cases hp : s.objects.pointer c with
    | none => exact .inl ⟨_, rfl⟩
    | some config => exact .inr ⟨config, rfl, rfl⟩

/-- `TryGet`, `Set` and `Delete`: a call on a level of a configuration, and nothing behind it. -/
theorem onLevel_quiet (c : Nat) (level : Level) (what : NativeCall)
    (call : Nat → W → Except Int α × W) {f : Except Int α → Member W β}
    (hf : ∀ result s, ((f result).run s).2 = s) (s : State W) :
    Quiet s ((GitConfiguration.handle c >>= fun config =>
      outside (GitConfiguration.onLevel api config level what call) >>= f).run s).2 := by
  obtain ⟨e, hraised⟩ | ⟨config, hp, hrun⟩ := handle_cases c s
  · rw [Action.run_bind_error hraised]
    exact Quiet.refl s
  · rw [Action.run_bind_ok hrun, bind_still hf]
    exact quiet_outside hp fun held hin => keeps_onLevel api hin level what call

theorem tryGet_quiet (get : Nat → CStr → W → Except Int α × W) (zero : α) (c : Nat)
    (level : Level) (key : NetString) (s : State W) :
    Quiet s ((GitConfiguration.tryGet api get zero c level key).run s).2 := by
  rw [GitConfiguration.tryGet]
  split
  · exact Quiet.refl s
  · apply onLevel_quiet
    intro result s
    cases result <;> rfl

theorem change_quiet (what : CStr → NativeCall) (entry : Nat → CStr → W → Except Int Unit × W)
    (c : Nat) (level : Level) (key : NetString) (s : State W) :
    Quiet s ((GitConfiguration.change api what entry c level key).run s).2 := by
  rw [GitConfiguration.change]
  split
  · exact Quiet.refl s
  · apply onLevel_quiet
    intro result s
    cases result <;> rfl

theorem tryGetString_quiet (c : Nat) (level : Level) (key : NetString) (s : State W) :
    Quiet s ((GitConfiguration.tryGetString api c level key).run s).2 := by
  rw [GitConfiguration.tryGetString, bind_still fun _ _ => rfl]
  exact tryGet_quiet api _ _ c level key s

theorem tryGetBoolean_quiet (c : Nat) (level : Level) (key : NetString) (s : State W) :
    Quiet s ((GitConfiguration.tryGetBoolean api c level key).run s).2 := by
  rw [GitConfiguration.tryGetBoolean, bind_still fun _ _ => rfl]
  exact tryGet_quiet api _ _ c level key s

end Members

section Disposal

variable (api : ReferenceApi W) {s : State W}

/-- An object that nothing hangs on gives up its handle. -/
theorem free_spec (hs : s.Sound) {x : Nat} (hx : ∀ what, s.objects.reference what x = none) :
    ∃ s', (free api x).run s = (.ok (), s') ∧ s'.Sound ∧
      s'.objects = s.objects.setPointer x none := by
  rw [free, objects?_bind]
  cases hp : s.objects.pointer x with
  | none => exact ⟨s, rfl, hs, (Objects.setPointer_self x hp).symm⟩
  | some handle =>
    exact ⟨_, rfl, ⟨hs.objects.freed hx, hs.owned.drop hp (api.free handle s.native.world)⟩, rfl⟩

theorem deleteReference_spec (hs : s.Sound) (what : Referenced) (r : Nat) :
    ∃ s', (deleteReference api what r).run s = (.ok (), s') ∧ s'.Sound ∧
      Objects.Fewer s.objects s'.objects ∧ s'.objects.reference = s.objects.reference ∧
      ∀ x, s.objects.reference what r = some x → s'.objects.pointer x = none := by
  rw [deleteReference, objects?_bind]
  cases hfound : s.objects.reference what r with
  | none => exact ⟨s, rfl, hs, Objects.Fewer.refl _, rfl, fun x hx => absurd hx (by simp)⟩
  | some x =>
    have hnone : ∀ what', s.objects.reference what' x = none := by
      intro what'
      cases hother : s.objects.reference what' x with
      | none => rfl
      | some y =>
        have hrepository := (hs.objects.typed what' x y hother).1
        rw [(hs.objects.typed what r x hfound).2] at hrepository
        exact absurd hrepository (by simp)
    obtain ⟨s', hrun, hsound, hobjects⟩ := free_spec api hs hnone
    refine ⟨s', hrun, hsound, ?_, by rw [hobjects]; rfl, ?_⟩
    · rw [hobjects]
      exact Objects.Fewer.freed x _
    · intro y hy
      rw [← Option.some.inj hy, hobjects, Objects.setPointer_pointer, Function.update_self]

theorem clearReferences_spec (hs : s.Sound) (r : Nat) :
    ∃ s', (clearReferences api r).run s = (.ok (), s') ∧ s'.Sound ∧
      Objects.Fewer s.objects s'.objects ∧ ∀ what, s'.objects.reference what r = none := by
  obtain ⟨s₁, hrun₁, hsound₁, hfewer₁, hsame₁, hfreed₁⟩ :=
    deleteReference_spec api hs .configuration r
  obtain ⟨s₂, hrun₂, hsound₂, hfewer₂, hsame₂, hfreed₂⟩ :=
    deleteReference_spec api hsound₁ .index r
  obtain ⟨s₃, hrun₃, hsound₃, hfewer₃, hsame₃, hfreed₃⟩ :=
    deleteReference_spec api hsound₂ .objectDatabase r
  have hreference : s₃.objects.reference = s.objects.reference :=
    hsame₃.trans (hsame₂.trans hsame₁)
  have hfreed : ∀ what x, s₃.objects.reference what r = some x →
      s₃.objects.pointer x = none := by
    intro what x hx
    rw [hreference] at hx
    cases what with
    | configuration => exact hfewer₃.pointer_none (hfewer₂.pointer_none (hfreed₁ x hx))
    | index =>
      rw [← hsame₁] at hx
      exact hfewer₃.pointer_none (hfreed₂ x hx)
    | objectDatabase =>
      rw [← hsame₁, ← hsame₂] at hx
      exact hfreed₃ x hx
  have hcleared₁ := hsound₃.objects.forgets (hfreed .configuration)
  have hfewer₄ := Objects.Fewer.forgets .configuration r s₃.objects
  have hcleared₂ := @Objects.Sound.forgets _ hcleared₁ .index r fun x hx =>
    hfreed _ x (hfewer₄.reference _ _ _ hx)
  have hfewer₅ := hfewer₄.trans (Objects.Fewer.forgets .index r _)
  have hcleared₃ := @Objects.Sound.forgets _ hcleared₂ .objectDatabase r fun x hx =>
    hfreed _ x (hfewer₅.reference _ _ _ hx)
  have hfewer₆ := hfewer₅.trans (Objects.Fewer.forgets .objectDatabase r _)
  refine ⟨⟨((s₃.objects.setReference .configuration r none).setReference .index r none).setReference
    .objectDatabase r none, s₃.native⟩, ?_, ⟨hcleared₃, hsound₃.owned⟩,
    hfewer₁.trans (hfewer₂.trans (hfewer₃.trans hfewer₆)), ?_⟩
  · rw [clearReferences, Action.run_bind_ok hrun₁, Action.run_bind_ok hrun₂,
      Action.run_bind_ok hrun₃]
    rfl
  · intro what
    cases what with
    | configuration =>
      rw [Objects.setReference_other _ _ (by simp), Objects.setReference_other _ _ (by simp),
        Objects.setReference_same]
    | index => rw [Objects.setReference_other _ _ (by simp), Objects.setReference_same]
    | objectDatabase => rw [Objects.setReference_same]

/-- A destructor leaves its object without a handle; it raises nothing. -/
theorem dispose_spec (hs : s.Sound) (x : Nat) :
    ∃ s', (dispose api x).run s = (.ok (), s') ∧ s'.Sound ∧
      Objects.Fewer s.objects s'.objects ∧ s'.objects.pointer x = none := by
  rw [dispose, objects?_bind]
  cases hkind : s.objects.kind x with
  | none => exact ⟨s, rfl, hs, Objects.Fewer.refl _, hs.objects.classless x hkind⟩
  | some kind =>
    cases kind with
    | referenced what =>
      have hnone : ∀ what', s.objects.reference what' x = none := by
        intro what'
        cases hfound : s.objects.reference what' x with
        | none => rfl
        | some y =>
          have hrepository := (hs.objects.typed what' x y hfound).1
          exact absurd (hrepository.symm.trans hkind) (by simp)
      obtain ⟨s', hrun, hsound, hobjects⟩ := free_spec api hs hnone
      refine ⟨s', hrun, hsound, ?_, ?_⟩
      · rw [hobjects]
        exact Objects.Fewer.freed x _
      · rw [hobjects, Objects.setPointer_pointer, Function.update_self]
    | repository =>
      obtain ⟨s₁, hrun₁, hsound₁, hfewer₁, hcleared⟩ := clearReferences_spec api hs x
      obtain ⟨s', hrun, hsound, hobjects⟩ := free_spec api hsound₁ hcleared
      refine ⟨s', ?_, hsound, ?_, ?_⟩
      · dsimp only
        rw [Action.run_bind_ok hrun₁]
        exact hrun
      · rw [hobjects]
        exact hfewer₁.trans (Objects.Fewer.freed x _)
      · rw [hobjects, Objects.setPointer_pointer, Function.update_self]

theorem finalize_spec (hs : s.Sound) (x : Nat) :
    ∃ s', (finalize api x).run s = (.ok (), s') ∧ s'.Sound ∧
      Objects.Fewer s.objects s'.objects ∧ s'.objects.pointer x = none := by
  rw [finalize, objects?_bind]
  split
  case isTrue hdisposed =>
    exact ⟨s, rfl, hs, Objects.Fewer.refl _, Option.isNone_iff_eq_none.mp hdisposed⟩
  case isFalse hopen => exact dispose_spec api hs x

theorem new_sound (hs : s.Sound) :
    State.Sound ⟨s.objects.gcnew .repository none none, s.native⟩ :=
  ⟨hs.objects.newRepository, hs.objects.newRepository_pointer ▸ hs.owned⟩

theorem create_sound (hs : s.Sound) (path : NetString) :
    ((create api path).run s).2.Sound := by
  have hnew := new_sound hs
  have hkind : (s.objects.gcnew .repository none none).kind s.objects.created =
      some .repository := Function.update_self _ _ _
  have hopened := createAndOpen_sound api hnew hkind path
  rw [create, objects?_bind, withObjects_bind, Action.run_bind]
  cases hrun : (GitRepository.createAndOpen api s.objects.created path).run
      ⟨s.objects.gcnew .repository none none, s.native⟩ with
  | mk result s' =>
    rw [hrun] at hopened
    obtain ⟨s'', hdisposed, hsound, -, -⟩ := dispose_spec api hopened s.objects.created
    rw [Action.attempt]
    dsimp only
    rw [hrun]
    cases result with
    | error e =>
      dsimp only
      rw [Action.run_bind_ok hdisposed]
      exact hsound
    | ok opened =>
      cases opened with
      | true => exact hopened
      | false =>
        dsimp only
        rw [Action.run_bind_ok hdisposed]
        exact hsound

end Disposal

section Runs

variable (api : ReferenceApi W) {s : State W}

theorem onObject_sound (hs : s.Sound) {kind : ManagedClass} {x : Nat} {member : Member W α}
    (hmember : s.objects.kind x = some kind → (member.run s).2.Sound) :
    ((onObject kind x member).run s).2.Sound := by
  rw [onObject, objects?_bind]
  split
  case isTrue hkind =>
    rw [bind_still fun _ _ => rfl]
    exact hmember hkind
  case isFalse => exact hs

theorem step_sound (hs : s.Sound) (call : Call) : (step api s call).Sound := by
  rw [step]
  cases call with
  | new => exact new_sound hs
  | create path =>
    rw [perform, discard, bind_still fun _ _ => rfl]
    exact create_sound api hs path
  | «open» r path => exact onObject_sound hs fun hr => open_sound api hs hr path
  | createAndOpen r path => exact onObject_sound hs fun hr => createAndOpen_sound api hs hr path
  | locate r path => exact onObject_sound hs fun hr => locate_sound api hs hr path
  | flag what r => exact onObject_sound hs fun _ => hs.quiet (flag_quiet api what r s)
  | headFlag what r => exact onObject_sound hs fun _ => hs.quiet (headFlag_quiet api what r s)
  | configuration r => exact onObject_sound hs fun hr => configuration_sound api hs hr
  | index r => exact onObject_sound hs fun hr => kept_sound api hs (by decide) hr
  | objectDatabase r => exact onObject_sound hs fun hr => kept_sound api hs (by decide) hr
  | count i => exact onObject_sound hs fun _ => hs.quiet (count_quiet api i s)
  | hasConflicts i => exact onObject_sound hs fun _ => hs.quiet (hasConflicts_quiet api i s)
  | write i => exact onObject_sound hs fun _ => hs.quiet (write_quiet api i s)
  | reload i => exact onObject_sound hs fun _ => hs.quiet (reload_quiet api i s)
  | createTree i => exact onObject_sound hs fun _ => hs.quiet (createTree_quiet api i s)
  | add i relPath => exact onObject_sound hs fun _ => hs.quiet (add_quiet api i relPath s)
  | clear i => exact onObject_sound hs fun _ => hs.quiet (clear_quiet api i s)
  | contains i relPath => exact onObject_sound hs fun _ => hs.quiet (contains_quiet api i relPath s)
  | itemAt i pos => exact onObject_sound hs fun _ => hs.quiet (itemAt_quiet api i pos s)
  | item i relativePath =>
    exact onObject_sound hs fun _ => hs.quiet (item_quiet api i relativePath s)
  | removeAt i pos => exact onObject_sound hs fun _ => hs.quiet (removeAt_quiet api i pos s)
  | remove i relativePath recursive =>
    exact onObject_sound hs fun _ => hs.quiet (remove_quiet api i relativePath recursive s)
  | tryGetInt32 c level key | tryGetInt64 c level key =>
    exact onObject_sound hs fun _ => hs.quiet (tryGet_quiet api _ _ c level key s)
  | tryGetString c level key =>
    exact onObject_sound hs fun _ => hs.quiet (tryGetString_quiet api c level key s)
  | tryGetBoolean c level key =>
    exact onObject_sound hs fun _ => hs.quiet (tryGetBoolean_quiet api c level key s)
  | setInt32 value c level key | setInt64 value c level key | setString value c level key
  | setBool value c level key | delete c level key =>
    exact onObject_sound hs fun _ => hs.quiet (change_quiet api _ _ c level key s)
  | dispose x =>
    obtain ⟨s', hrun, hsound, -, -⟩ := dispose_spec api hs x
    rw [perform, hrun]
    exact hsound
  | finalize x =>
    obtain ⟨s', hrun, hsound, -, -⟩ := finalize_spec api hs x
    rw [perform, hrun]
    exact hsound

theorem start_sound (w : W) : (start w).Sound := by
  refine ⟨⟨fun _ _ => rfl, fun _ _ => rfl, ?_, fun _ _ _ => rfl, ?_, ?_⟩,
    Handling.owned_nothing w⟩
  · intro what r x h
    exact absurd h (Option.some_ne_none _).symm
  · intro what x _ h
    exact absurd h (Option.some_ne_none _).symm
  · intro c h
    exact absurd h (Option.some_ne_none _).symm

theorem run_sound (w : W) (calls : List Call) : (run api w calls).Sound :=
  Events.run_invariant State.Sound (fun _ call hs => step_sound api hs call) (start_sound w) calls

/-- A destructor or a finalizer runs. -/
def Call.ends : Call → Option Nat
  | .dispose x => some x
  | .finalize x => some x
  | _ => none

/-- Destructors and finalizers only take handles away, in the end that of each of their objects. -/
theorem ends_spec (hs : s.Sound) {calls : List Call} (hends : ∀ call ∈ calls, call.ends ≠ none) :
    (Events.run (step api) s calls).Sound ∧
      Objects.Fewer s.objects (Events.run (step api) s calls).objects ∧
      ∀ call ∈ calls, ∀ x, call.ends = some x →
        (Events.run (step api) s calls).objects.pointer x = none := by
  induction calls generalizing s with
  | nil => exact ⟨hs, Objects.Fewer.refl _, fun call hcall => absurd hcall List.not_mem_nil⟩
  | cons call calls ih =>
    have hfirst : ∃ x, call.ends = some x ∧ (step api s call).Sound ∧
        Objects.Fewer s.objects (step api s call).objects ∧
        (step api s call).objects.pointer x = none := by
      rw [step]
      cases call with
      | dispose x =>
        obtain ⟨s', hrun, hsound, hfewer, hnone⟩ := dispose_spec api hs x
        rw [perform, hrun]
        exact ⟨x, rfl, hsound, hfewer, hnone⟩
      | finalize x =>
        obtain ⟨s', hrun, hsound, hfewer, hnone⟩ := finalize_spec api hs x
        rw [perform, hrun]
        exact ⟨x, rfl, hsound, hfewer, hnone⟩
      | _ => exact absurd rfl (hends _ List.mem_cons_self)
    obtain ⟨x, hx, hsound, hfewer, hnone⟩ := hfirst
    obtain ⟨hsound', hfewer', hnone'⟩ := ih hsound fun c hc => hends c (List.mem_cons_of_mem _ hc)
    refine ⟨hsound', hfewer.trans hfewer', ?_⟩
    intro c hc y hy
    obtain rfl | hc := List.mem_cons.mp hc
    · rw [hx] at hy
      rw [← Option.some.inj hy]
      exact hfewer'.pointer_none hnone
    · exact hnone' c hc y hy

/-- Which handles are open behind a run. -/
structure Balanced (s : State W) : Prop where
  /-- Every call has used open handles, and every handle was freed at most once. -/
  held : ∃ held, HandleEvent.openAfter s.native.log = some held ∧ held.Nodup ∧
    ∀ handle, handle ∈ held ↔ ∃ x, s.objects.pointer x = some handle
  single : ∀ x y handle, s.objects.pointer x = some handle → s.objects.pointer y = some handle →
    x = y
  /-- Only an open repository keeps something. -/
  kept : ∀ what r x, s.objects.reference what r = some x →
    s.objects.kind r = some .repository ∧ s.objects.pointer r ≠ none ∧
      s.objects.kind x = some (.referenced what)
  /-- An open object is a repository, or kept by one, or a configuration of a repository that has
  made another one since. -/
  current : ∀ x, s.objects.pointer x ≠ none → s.objects.kind x = some .repository ∨
    (∃ what r, s.objects.reference what r = some x) ∨
    (s.objects.kind x = some (.referenced .configuration) ∧
      ∃ r, s.objects.parent x = some r ∧ s.objects.Superseded r x)

theorem State.Sound.balanced (hs : s.Sound) : Balanced s := by
  obtain ⟨held, hopen, hnodup, hmem⟩ := hs.owned.held
  refine ⟨⟨held, hopen.after, hnodup, hmem⟩, fun x y handle => hs.owned.single, ?_, ?_⟩
  · intro what r x hx
    obtain ⟨hr, hreferenced⟩ := hs.objects.typed what r x hx
    refine ⟨hr, ?_, hreferenced⟩
    intro hnone
    exact absurd (hx.symm.trans (hs.objects.closed what r hnone)) (Option.some_ne_none _)
  · intro x hx
    cases hkind : s.objects.kind x with
    | none => exact absurd (hs.objects.classless x hkind) hx
    | some kind =>
      cases kind with
      | repository => exact .inl rfl
      | referenced what =>
        right
        by_cases hwhat : what = .configuration
        · subst hwhat
          obtain ⟨r, hparent, hcurrent | hlater⟩ := hs.objects.current x hkind hx
          · exact .inl ⟨.configuration, r, hcurrent⟩
          · exact .inr ⟨rfl, r, hparent, hlater⟩
        · obtain ⟨r, hr⟩ := hs.objects.kept what x hwhat hkind hx
          exact .inl ⟨what, r, hr⟩

theorem Balanced.superseded (h : Balanced s)
    (hclosed : ∀ r, s.objects.kind r = some .repository → s.objects.pointer r = none) {x : Nat}
    (hx : s.objects.pointer x ≠ none) :
    s.objects.kind x = some (.referenced .configuration) ∧
      ∃ r, s.objects.parent x = some r ∧ s.objects.Superseded r x := by
  obtain hrepository | ⟨what, r, hr⟩ | hlater := h.current x hx
  · exact absurd (hclosed x hrepository) hx
  · obtain ⟨hrepository, hopen, -⟩ := h.kept what r x hr
    exact absurd (hclosed r hrepository) hopen
  · exact hlater

/-- Behind every run the open handles are those that objects hold, each its own. Once no repository
is open, only superseded configurations are; and whoever then ends every object, by destructors or
finalizers in any order, has closed them all. -/
theorem handles_balance (w : W) (calls : List Call) :
    Balanced (run api w calls) ∧
      ((∀ r, (run api w calls).objects.kind r = some .repository →
          (run api w calls).objects.pointer r = none) →
        ∀ x, (run api w calls).objects.pointer x ≠ none →
          (run api w calls).objects.kind x = some (.referenced .configuration) ∧
            ∃ r, (run api w calls).objects.parent x = some r ∧
              (run api w calls).objects.Superseded r x) ∧
      ∀ last : List Call, (∀ call ∈ last, call.ends ≠ none) →
        (∀ x, (run api w calls).objects.kind x ≠ none → ∃ call ∈ last, call.ends = some x) →
        HandleEvent.openAfter (run api w (calls ++ last)).native.log = some [] := by
  have hsound := run_sound api w calls
  refine ⟨hsound.balanced, fun hclosed x hx => hsound.balanced.superseded hclosed hx, ?_⟩
  intro last hends hall
  obtain ⟨hlast, hfewer, hnone⟩ := ends_spec api hsound hends
  have hsplit : run api w (calls ++ last) = Events.run (step api) (run api w calls) last := by
    rw [run, run, Events.run, Events.run, Events.run, List.foldl_append]
  rw [hsplit]
  obtain ⟨held, hopen, -, hmem⟩ := hlast.balanced.held
  have hempty : held = [] := by
    rw [List.eq_nil_iff_forall_not_mem]
    intro handle hin
    obtain ⟨x, hx⟩ := (hmem handle).mp hin
    have hbefore := hfewer.pointer x handle hx
    have hkind : (run api w calls).objects.kind x ≠ none := by
      intro hkind
      exact absurd (hbefore.symm.trans (hsound.objects.classless x hkind)) (Option.some_ne_none _)
    obtain ⟨call, hcall, hcallx⟩ := hall x hkind
    exact absurd (hx.symm.trans (hnone call hcall x hcallx)) (Option.some_ne_none _)
  rw [hopen, hempty]

/-- A libgit2 in which every call succeeds. -/
def alwaysApi : ReferenceApi Unit where
  openRepository _ w := (.ok (), w)
  initRepository _ w := (.ok (), w)
  checkPath _ w := (.ok .dir, w)
  openExt _ w := (.ok (), w)
  get _ _ w := (.ok (), w)
  flag _ _ w := (false, w)
  hasConflicts _ w := (false, w)
  entryCount _ w := (0, w)
  write _ w := (.ok (), w)
  addByPath _ _ w := (.ok (), w)
  find _ _ w := (.ok 0, w)
  read _ w := (.ok (), w)
  clear _ w := (.ok (), w)
  getByIndex _ _ w := (none, w)
  getByPath _ _ w := (none, w)
  remove _ _ _ w := (.ok (), w)
  writeTree _ w := (.ok [], w)
  openLevel _ _ w := (.ok (), w)
  getInt32 _ _ w := (.ok 0, w)
  getInt64 _ _ w := (.ok 0, w)
  getString _ _ w := (.ok [], w)
  getBool _ _ w := (.ok false, w)
  setInt32 _ _ _ w := (.ok (), w)
  setInt64 _ _ _ w := (.ok (), w)
  setString _ _ _ w := (.ok (), w)
  setBool _ _ _ w := (.ok (), w)
  deleteEntry _ _ w := (.ok (), w)
  free _ w := w

/-- `Configuration` is read twice: the first object outlives the repository. -/
def readTwice : List Call :=
  [.create [0x61], .configuration 0, .configuration 0, .tryGetBoolean 2 .user [0x61], .dispose 0]

theorem handles_balance_readTwice :
    HandleEvent.openAfter (run alwaysApi () readTwice).native.log = some [1] ∧
      HandleEvent.openAfter (run alwaysApi () (readTwice ++
        [.finalize 2, .dispose 1, .dispose 0])).native.log = some [] := by
  refine ⟨by decide, ?_⟩
  apply (handles_balance alwaysApi () readTwice).2.2
  · decide
  · intro x hx
    obtain _ | _ | _ | x := x
    · exact ⟨.dispose 0, by decide, rfl⟩
    · exact ⟨.dispose 1, by decide, rfl⟩
    · exact ⟨.finalize 2, by decide, rfl⟩
    · exact absurd rfl hx

end Runs

end SharpGit.Plumbing.References
