import SharpGit.Library.Action

namespace SharpGit.Library

theorem singleton_subset {handle : Nat} {held : List Nat} (h : handle ∈ held) : [handle] ⊆ held :=
  List.cons_subset.mpr ⟨h, List.nil_subset _⟩

/-- What a run does with its handles, numbered in the order in which they are opened. -/
inductive HandleEvent (U : Type)
  | opened (handle : Nat)
  | used (handles : List Nat) (what : U)
  | closed (handle : Nat)
  deriving DecidableEq, Repr

namespace HandleEvent

variable {U : Type}

/-- The handles that are open behind an event, the last opened first; none where it opens one that
is open, or uses or closes one that is not. -/
def after (held : List Nat) : HandleEvent U → Option (List Nat)
  | opened handle => if handle ∈ held then none else some (handle :: held)
  | used handles _ => if handles ⊆ held then some held else none
  | closed handle => if handle ∈ held then some (held.erase handle) else none

/-- The open handles behind a list of events. -/
def openAfter (log : List (HandleEvent U)) : Option (List Nat) := log.foldlM after []

/-- What was done, without the handles. -/
def what : HandleEvent U → Option U
  | used _ what => some what
  | _ => none

theorem openAfter_concat {log : List (HandleEvent U)} {held : List Nat}
    (h : openAfter log = some held) (event : HandleEvent U) :
    openAfter (log ++ [event]) = after held event := by
  rw [openAfter, List.foldlM_append, ← openAfter, h]
  change after held event >>= pure = _
  exact bind_pure _

end HandleEvent

/-- The world, the number of the next handle, and all events so far. -/
structure Handling (W U : Type) where
  world : W
  next : Nat
  log : List (HandleEvent U)

namespace Handling

variable {W U ε δ α β : Type}

def record (event : HandleEvent U) (s : Handling W U) : Handling W U :=
  { s with log := s.log ++ [event] }

/-- A call on handles, written down with what it returns, and the check of that. -/
def use (handles : List Nat) (what : δ → U) (f : W → δ × W) (check : δ → Except ε α) :
    Action (Handling W U) ε α :=
  ⟨fun s => (check (f s.world).1,
    record (.used handles (what (f s.world).1)) { s with world := (f s.world).2 })⟩

/-- A call on handles that returns a new one, or null. -/
def acquire (handles : List Nat) (what : δ → U) (f : W → δ × W)
    (check : δ → Except ε (Option α)) : Action (Handling W U) ε (Option (Nat × α)) := do
  match ← use handles what f check with
  | none => return none
  | some a => do
    let s ← Action.get
    Action.modify fun s => { record (.opened s.next) s with next := s.next + 1 }
    return some (s.next, a)

/-- A call on handles that returns a new one; null raises. -/
def acquireOr (e : ε) (handles : List Nat) (what : δ → U) (f : W → δ × W)
    (check : δ → Except ε (Option α)) : Action (Handling W U) ε (Nat × α) := do
  match ← acquire handles what f check with
  | none => Action.raise e
  | some acquired => return acquired

/-- Null raises. -/
def orRaise (e : ε) : Except ε (Option α) → Except ε α
  | .ok none => .error e
  | .ok (some a) => .ok a
  | .error e' => .error e'

def release (handle : Nat) (f : W → W) : Action (Handling W U) ε Unit :=
  Action.modify fun s => { record (.closed handle) s with world := f s.world }

/-- Every event so far was allowed, these handles are open, and the next number is new. -/
structure Open (held : List Nat) (s : Handling W U) : Prop where
  after : HandleEvent.openAfter s.log = some held
  old : ∀ handle ∈ held, handle < s.next

/-- From these open handles to those of its result, or to `raised` where it raises. -/
def Moves (held : List Nat) (x : Action (Handling W U) ε α) (now : α → List Nat)
    (raised : List Nat) : Prop :=
  ∀ s : Handling W U, s.Open held →
    (x.run s).2.Open (match (x.run s).1 with
      | .ok a => now a
      | .error _ => raised)

/-- From these open handles to those of its result, and to those from before where it raises. -/
abbrev Opens (held : List Nat) (x : Action (Handling W U) ε α) (now : α → List Nat) : Prop :=
  Moves held x now held

/-- From these open handles to these, whatever it ends in. -/
abbrev Goes (held : List Nat) (x : Action (Handling W U) ε α) (outer : List Nat) : Prop :=
  Moves held x (fun _ => outer) outer

abbrev Keeps (held : List Nat) (x : Action (Handling W U) ε α) : Prop := Goes held x held

section Open

variable {held outer raised : List Nat}

theorem goes_iff {x : Action (Handling W U) ε α} :
    Goes held x outer ↔ ∀ s : Handling W U, s.Open held → (x.run s).2.Open outer := by
  refine forall_congr' fun s => ?_
  cases (x.run s).1 <;> exact Iff.rfl

theorem moves_raise (e : ε) {now : α → List Nat} :
    Moves raised (Action.raise e : Action (Handling W U) ε α) now raised := fun _ hs => hs

theorem keeps_pure (a : α) : Keeps held (pure a : Action (Handling W U) ε α) := fun _ hs => hs

theorem keeps_ofExcept (x : Except ε α) :
    Keeps held (Action.ofExcept x : Action (Handling W U) ε α) := goes_iff.mpr fun _ hs => hs

theorem Open.used {s : Handling W U} (hs : s.Open held) {handles : List Nat}
    (hopen : handles ⊆ held) (what : U) (w : W) :
    Open held (record (.used handles what) { s with world := w }) :=
  ⟨(HandleEvent.openAfter_concat hs.after _).trans (if_pos hopen), hs.old⟩

/-- The number of a new handle is not in use. -/
theorem Open.opened {s : Handling W U} (hs : s.Open held) :
    Open (s.next :: held) { record (.opened s.next) s with next := s.next + 1 } := by
  have hfresh : s.next ∉ held := fun hmem => Nat.lt_irrefl _ (hs.old _ hmem)
  refine ⟨(HandleEvent.openAfter_concat hs.after _).trans (if_neg hfresh), ?_⟩
  intro handle hmem
  obtain heq | hmem := List.mem_cons.mp hmem
  · rw [heq]
    exact Nat.lt_succ_self _
  · exact Nat.lt_succ_of_lt (hs.old handle hmem)

theorem keeps_use {handles : List Nat} (hopen : handles ⊆ held) (what : δ → U) (f : W → δ × W)
    (check : δ → Except ε α) :
    Keeps held (use handles what f check : Action (Handling W U) ε α) :=
  goes_iff.mpr fun _ hs => hs.used hopen _ _

/-- What follows starts with the handles of the result before it. -/
theorem Moves.bind {x : Action (Handling W U) ε α} {f : α → Action (Handling W U) ε β}
    {mid : α → List Nat} {now : β → List Nat} (hx : Moves held x mid raised)
    (hf : ∀ a, Moves (mid a) (f a) now raised) : Moves held (x >>= f) now raised := by
  intro s hs
  have hafter := hx s hs
  rw [Action.run_bind]
  cases hrun : x.run s with
  | mk result s' =>
    rw [hrun] at hafter
    cases result with
    | error e => exact hafter
    | ok a => exact hf a s' hafter

theorem Goes.tryFinally {body : Action (Handling W U) ε α} {last : Action (Handling W U) ε Unit}
    (hbody : Keeps held body) (hlast : Goes held last outer) :
    Goes held (Action.tryFinally body last) outer := by
  refine goes_iff.mpr fun s hs => ?_
  have hafter := goes_iff.mp hlast _ (goes_iff.mp hbody s hs)
  unfold Action.tryFinally
  dsimp only
  cases hrun : last.run (body.run s).2 with
  | mk result s' =>
    rw [hrun] at hafter
    cases result <;> exact hafter

theorem opens_acquire {handles : List Nat} (hopen : handles ⊆ held) (what : δ → U)
    (f : W → δ × W) (check : δ → Except ε (Option α)) :
    Opens held (acquire handles what f check : Action (Handling W U) ε (Option (Nat × α)))
      fun acquired => acquired.elim held fun p => p.1 :: held := by
  apply (keeps_use hopen what f check).bind
  intro found
  cases found with
  | none => exact fun _ hs => hs
  | some a => exact fun s hs => hs.opened

theorem run_acquireOr_ok {e : ε} {handles : List Nat} {what : δ → U} {f : W → δ × W}
    {check : δ → Except ε (Option α)} {s : Handling W U} {a : α}
    (h : check (f s.world).1 = .ok (some a)) :
    (acquireOr e handles what f check).run s = (.ok (s.next, a), ⟨(f s.world).2, s.next + 1,
      s.log ++ [.used handles (what (f s.world).1), .opened s.next]⟩) := by
  have huse : (use handles what f check).run s = (.ok (some a), _) := Prod.ext h rfl
  rw [acquireOr, Action.run_bind, acquire, Action.run_bind_ok huse]
  exact congrArg (fun log => (Except.ok (s.next, a), (⟨(f s.world).2, s.next + 1, log⟩ :
    Handling W U))) (List.append_assoc _ _ _)

theorem run_acquireOr_error {e e' : ε} {handles : List Nat} {what : δ → U} {f : W → δ × W}
    {check : δ → Except ε (Option α)} {s : Handling W U}
    (h : orRaise e (check (f s.world).1) = .error e') :
    (acquireOr e handles what f check).run s = (.error e', ⟨(f s.world).2, s.next,
      s.log ++ [.used handles (what (f s.world).1)]⟩) := by
  rw [acquireOr, Action.run_bind, acquire, Action.run_bind]
  cases hcall : (use handles what f check : Action (Handling W U) ε (Option α)).run s with
  | mk result s' =>
    obtain ⟨rfl, rfl⟩ := Prod.mk.inj hcall
    cases hcheck : check (f s.world).1 with
    | error e =>
      rw [hcheck] at h
      cases h
      rfl
    | ok found =>
      rw [hcheck] at h
      cases found with
      | none =>
        cases h
        rfl
      | some a => cases h

theorem opens_acquireOr (e : ε) {handles : List Nat} (hopen : handles ⊆ held) (what : δ → U)
    (f : W → δ × W) (check : δ → Except ε (Option α)) :
    Opens held (acquireOr e handles what f check : Action (Handling W U) ε (Nat × α))
      fun acquired => acquired.1 :: held := by
  apply (opens_acquire hopen what f check).bind
  intro acquired
  cases acquired with
  | none => exact moves_raise e
  | some acquired => exact fun _ hs => hs

/-- The handle that was opened last is closed. -/
theorem moves_release (handle : Nat) (f : W → W) :
    Moves (handle :: held) (release handle f : Action (Handling W U) ε Unit) (fun _ => held)
      raised := by
  intro s hs
  refine ⟨?_, fun other hother => hs.old other (List.mem_cons_of_mem _ hother)⟩
  have hclosed := (HandleEvent.openAfter_concat hs.after (.closed handle : HandleEvent U)).trans
    (if_pos List.mem_cons_self)
  rw [List.erase_cons_head] at hclosed
  exact hclosed

end Open

/-- The result, and what was done on handles, are as described. -/
def Does (x : Action (Handling W U) ε α) (spec : Except ε α → List U → Prop) : Prop :=
  ∀ s : Handling W U, ∃ new, (x.run s).2.log = s.log ++ new ∧
    spec (x.run s).1 (new.filterMap HandleEvent.what)

section Does

variable {spec : Except ε α → List U → Prop}

theorem Does.mono {weaker : Except ε α → List U → Prop} {x : Action (Handling W U) ε α}
    (h : Does x spec) (himp : ∀ result done, spec result done → weaker result done) :
    Does x weaker := by
  intro s
  obtain ⟨new, hlog, hspec⟩ := h s
  exact ⟨new, hlog, himp _ _ hspec⟩

theorem does_ofExcept {x : Except ε α} (h : spec x []) :
    Does (Action.ofExcept x : Action (Handling W U) ε α) spec :=
  fun _ => ⟨[], (List.append_nil _).symm, h⟩

theorem does_pure {a : α} (h : spec (.ok a) []) :
    Does (pure a : Action (Handling W U) ε α) spec :=
  fun _ => ⟨[], (List.append_nil _).symm, h⟩

theorem does_raise {e : ε} (h : spec (.error e) []) :
    Does (Action.raise e : Action (Handling W U) ε α) spec :=
  fun _ => ⟨[], (List.append_nil _).symm, h⟩

theorem does_use {handles : List Nat} {what : δ → U} {f : W → δ × W} {check : δ → Except ε α}
    (h : ∀ r, spec (check r) [what r]) :
    Does (use handles what f check : Action (Handling W U) ε α) spec :=
  fun _ => ⟨_, rfl, h _⟩

theorem does_release {handle : Nat} {f : W → W} {spec : Except ε Unit → List U → Prop}
    (h : spec (.ok ()) []) : Does (release handle f : Action (Handling W U) ε Unit) spec :=
  fun _ => ⟨_, rfl, h⟩

/-- What the first part has done stands before what the second does. -/
theorem Does.bind {x : Action (Handling W U) ε α} {f : α → Action (Handling W U) ε β}
    {specB : Except ε β → List U → Prop} (hx : Does x spec)
    (hok : ∀ a done, spec (.ok a) done →
      Does (f a) fun result more => specB result (done ++ more))
    (herror : ∀ e done, spec (.error e) done → specB (.error e) done) :
    Does (x >>= f) specB := by
  intro s
  obtain ⟨new, hlog, hspec⟩ := hx s
  rw [Action.run_bind]
  cases hrun : x.run s with
  | mk result s' =>
    rw [hrun] at hlog hspec
    cases result with
    | error e => exact ⟨new, hlog, herror e _ hspec⟩
    | ok a =>
      obtain ⟨more, hmore, hthen⟩ := hok a _ hspec s'
      dsimp only at hlog
      refine ⟨new ++ more, by rw [hmore, hlog, List.append_assoc], ?_⟩
      rw [List.filterMap_append]
      exact hthen

theorem Does.attempt {ε' : Type} {x : Action (Handling W U) ε α} (h : Does x spec) :
    Does (Action.attempt x : Action (Handling W U) ε' (Except ε α)) fun result done =>
      ∃ caught, result = .ok caught ∧ spec caught done := by
  intro s
  obtain ⟨new, hlog, hspec⟩ := h s
  exact ⟨new, hlog, _, rfl, hspec⟩

/-- A last block that only closes handles. -/
theorem Does.tryFinally {body : Action (Handling W U) ε α} {last : Action (Handling W U) ε Unit}
    (h : Does body spec) (hlast : Does last fun result done => result = .ok () ∧ done = []) :
    Does (Action.tryFinally body last) spec := by
  intro s
  obtain ⟨new, hlog, hspec⟩ := h s
  obtain ⟨closed, hclosed, hreturned, hnone⟩ := hlast (body.run s).2
  have hrun : (Action.tryFinally body last).run s =
      ((body.run s).1, (last.run (body.run s).2).2) := by
    unfold Action.tryFinally
    dsimp only
    cases hfinal : last.run (body.run s).2 with
    | mk result s' =>
      rw [hfinal] at hreturned
      rw [show result = .ok () from hreturned]
  rw [hrun]
  refine ⟨new ++ closed, ?_, ?_⟩
  · rw [hclosed, hlog, List.append_assoc]
  · rw [List.filterMap_append, hnone, List.append_nil]
    exact hspec

theorem does_acquire {handles : List Nat} {what : δ → U} {f : W → δ × W}
    {check : δ → Except ε (Option α)} {spec : Except ε (Option (Nat × α)) → List U → Prop}
    (h : ∀ r handle, spec ((check r).map (Option.map (Prod.mk handle))) [what r]) :
    Does (acquire handles what f check : Action (Handling W U) ε (Option (Nat × α))) spec := by
  intro s
  have hspec := h (f s.world).1 s.next
  rw [acquire, Action.run_bind]
  cases hcall : (use handles what f check : Action (Handling W U) ε (Option α)).run s with
  | mk result s' =>
    obtain ⟨rfl, rfl⟩ := Prod.mk.inj hcall
    cases hcheck : check (f s.world).1 with
    | error e =>
      rw [hcheck] at hspec
      exact ⟨[.used handles (what (f s.world).1)], rfl, hspec⟩
    | ok found =>
      rw [hcheck] at hspec
      cases found with
      | none => exact ⟨[.used handles (what (f s.world).1)], rfl, hspec⟩
      | some a =>
        exact ⟨[.used handles (what (f s.world).1), .opened s.next], List.append_assoc _ _ _,
          hspec⟩

end Does

section Leads

variable {P : Type} {next : P → U → Option P} {p : P}

/-- What was done leads from this phase to one that fits the result. -/
def Leads (next : P → U → Option P) (p : P) (x : Action (Handling W U) ε α)
    (post : Except ε α → P → Prop) : Prop :=
  Does x fun result done => ∃ q, done.foldlM next p = some q ∧ post result q

theorem leads_ofExcept {x : Except ε α} {post : Except ε α → P → Prop} (h : post x p) :
    Leads next p (Action.ofExcept x : Action (Handling W U) ε α) post :=
  does_ofExcept ⟨p, rfl, h⟩

theorem leads_pure {a : α} {post : Except ε α → P → Prop} (h : post (.ok a) p) :
    Leads next p (pure a : Action (Handling W U) ε α) post := does_pure ⟨p, rfl, h⟩

theorem leads_raise {e : ε} {post : Except ε α → P → Prop} (h : post (.error e) p) :
    Leads next p (Action.raise e : Action (Handling W U) ε α) post := does_raise ⟨p, rfl, h⟩

theorem foldlM_one {u : U} {q : P} (h : next p u = some q) : [u].foldlM next p = some q := by
  rw [List.foldlM_cons, h]
  rfl

theorem leads_use {handles : List Nat} {what : δ → U} {f : W → δ × W} {check : δ → Except ε α}
    {post : Except ε α → P → Prop} (h : ∀ r, ∃ q, next p (what r) = some q ∧ post (check r) q) :
    Leads next p (use handles what f check : Action (Handling W U) ε α) post := by
  apply does_use
  intro r
  obtain ⟨q, hnext, hpost⟩ := h r
  exact ⟨q, foldlM_one hnext, hpost⟩

theorem Leads.bind {x : Action (Handling W U) ε α} {f : α → Action (Handling W U) ε β}
    {mid : Except ε α → P → Prop} {post : Except ε β → P → Prop} (hx : Leads next p x mid)
    (hok : ∀ a q, mid (.ok a) q → Leads next q (f a) post)
    (herror : ∀ e q, mid (.error e) q → post (.error e) q) : Leads next p (x >>= f) post := by
  refine Does.bind hx ?_ ?_
  · intro a done hdone
    obtain ⟨q, hq, hmid⟩ := hdone
    refine (hok a q hmid).mono ?_
    intro result more hmore
    obtain ⟨r, hr, hpost⟩ := hmore
    refine ⟨r, ?_, hpost⟩
    rw [List.foldlM_append, hq]
    exact hr
  · intro e done hdone
    obtain ⟨q, hq, hmid⟩ := hdone
    exact ⟨q, hq, herror e q hmid⟩

theorem leads_acquire {handles : List Nat} {what : δ → U} {f : W → δ × W}
    {check : δ → Except ε (Option α)} {post : Except ε (Option (Nat × α)) → P → Prop}
    (h : ∀ r handle, ∃ q, next p (what r) = some q ∧
      post ((check r).map (Option.map (Prod.mk handle))) q) :
    Leads next p (acquire handles what f check : Action (Handling W U) ε (Option (Nat × α)))
      post := by
  apply does_acquire
  intro r handle
  obtain ⟨q, hnext, hpost⟩ := h r handle
  exact ⟨q, foldlM_one hnext, hpost⟩

theorem leads_acquireOr {e : ε} {handles : List Nat} {what : δ → U} {f : W → δ × W}
    {check : δ → Except ε (Option α)} {post : Except ε (Nat × α) → P → Prop}
    (h : ∀ r handle, ∃ q, next p (what r) = some q ∧
      post (orRaise e ((check r).map (Option.map (Prod.mk handle)))) q) :
    Leads next p (acquireOr e handles what f check : Action (Handling W U) ε (Nat × α)) post := by
  have hacquire : Leads next p
      (acquire handles what f check : Action (Handling W U) ε (Option (Nat × α)))
      fun result q => post (orRaise e result) q := leads_acquire h
  apply hacquire.bind
  · intro acquired q hq
    cases acquired with
    | none => exact leads_raise hq
    | some acquired => exact leads_pure hq
  · exact fun _ _ hq => hq

theorem Leads.attempt {ε' : Type} {x : Action (Handling W U) ε α} {mid : Except ε α → P → Prop}
    (h : Leads next p x mid) :
    Leads next p (Action.attempt x : Action (Handling W U) ε' (Except ε α)) fun result q =>
      ∃ caught, result = .ok caught ∧ mid caught q := by
  refine (Does.attempt h).mono ?_
  intro result done hdone
  obtain ⟨caught, hresult, q, hq, hmid⟩ := hdone
  exact ⟨q, hq, caught, hresult, hmid⟩

theorem Leads.tryFinally {body : Action (Handling W U) ε α}
    {last : Action (Handling W U) ε Unit} {post : Except ε α → P → Prop}
    (h : Leads next p body post)
    (hlast : Does last fun result done => result = .ok () ∧ done = []) :
    Leads next p (Action.tryFinally body last) post := Does.tryFinally h hlast

end Leads

end Handling

end SharpGit.Library
