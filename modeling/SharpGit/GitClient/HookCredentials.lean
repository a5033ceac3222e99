import SharpGit.Library.Records
import SharpGit.Library.Runs
import SharpGit.GitClient.GitClient

namespace SharpGit.GitClient

open Library Native Implementation Plumbing

/-- An operation, from `get_callbacks` on, with the number of its next request. -/
structure Operation (Handler : Type) where
  authNr : Nat
  calling : Option Handler
  /-- Its last request has ended without a credential. -/
  exhausted : Bool
  /-- The handlers that have been registered since it started. -/
  throughout : List Handler
  declined : List Handler
  deriving DecidableEq, Repr

/-- A client with its operations under way, of which the first was started last. -/
structure HookedClient (Handler : Type) where
  credentialHandlers : List Handler
  nextCredentialHandler : Nat
  operations : List (Operation Handler)
  deriving DecidableEq, Repr

/-- What can happen next. Requests and handlers are those of the operation started last. -/
inductive CredentialEvent (Handler : Type)
  | start
  | finish
  | request
  | supply
  | decline
  | raise
  | hookCredentials (add : Bool) (handler : Handler)
  deriving DecidableEq, Repr

section Hooks

variable {Handler : Type} [DecidableEq Handler]

namespace Operation

/-- `get_callbacks`. -/
def start (handlers : List Handler) : Operation Handler :=
  ⟨0, none, false, handlers, []⟩

/-- The condition of the loop, with the handler at the index. -/
def proceed (handler : Option Handler) (operation : Operation Handler) : Operation Handler :=
  { operation with calling := handler, exhausted := handler.isNone }

def retain (handlers : List Handler) (operation : Operation Handler) : Operation Handler :=
  { operation with throughout := operation.throughout.filter (· ∈ handlers) }

end Operation

namespace HookedClient

def hookCredentials (add : Bool) (handler : Handler) (client : HookedClient Handler) :
    HookedClient Handler :=
  if add then
    if handler ∈ client.credentialHandlers then client
    else { client with credentialHandlers := client.credentialHandlers ++ [handler] }
  else
    let handlers := client.credentialHandlers.erase handler
    { client with
      credentialHandlers := handlers
      operations := client.operations.map (Operation.retain handlers) }

/-- The loop of `OnCredential` up to the next call of a handler, or its end. -/
def onCredential (next : Nat) (operation : Operation Handler) (outer : List (Operation Handler))
    (client : HookedClient Handler) : HookedClient Handler :=
  { client with
    nextCredentialHandler := next
    operations := operation.proceed client.credentialHandlers[next]? :: outer }

/-- `remote_baton_t::credentials`, up to the loop. -/
def request (operation : Operation Handler) (outer : List (Operation Handler))
    (client : HookedClient Handler) : HookedClient Handler :=
  let next := if operation.authNr = 0 then 0 else client.nextCredentialHandler
  client.onCredential next { operation with authNr := operation.authNr + 1 } outer

/-- The handler returns without a credential. -/
def decline (handler : Handler) (operation : Operation Handler)
    (outer : List (Operation Handler)) (client : HookedClient Handler) : HookedClient Handler :=
  client.onCredential (client.nextCredentialHandler + 1)
    { operation with declined := handler :: operation.declined } outer

/-- The handler supplies a credential or raises: the loop is left, the index stays. -/
def leave (operation : Operation Handler) (outer : List (Operation Handler))
    (client : HookedClient Handler) : HookedClient Handler :=
  { client with operations := { operation with calling := none } :: outer }

/-- An operation can start and handlers can be hooked at any time; the other events do nothing where
they do not fit. -/
def step (client : HookedClient Handler) (event : CredentialEvent Handler) :
    HookedClient Handler :=
  match event, client.operations with
  | .hookCredentials add handler, _ => client.hookCredentials add handler
  | .start, operations =>
    { client with operations := .start client.credentialHandlers :: operations }
  | _, [] => client
  | event, operation :: outer =>
    match event, operation.calling with
    | .finish, none => { client with operations := outer }
    | .request, none => client.request operation outer
    | .decline, some handler => client.decline handler operation outer
    | .supply, some _ => client.leave operation outer
    | .raise, some _ => client.leave operation outer
    | _, _ => client

/-- Where a request has ended without a credential, every handler that has been registered during
the whole operation has declined in it. -/
def NoneSkipped (client : HookedClient Handler) : Prop :=
  ∀ operation ∈ client.operations, operation.exhausted = true →
    ∀ handler ∈ operation.throughout, handler ∈ operation.declined

/-- The event leaves the index in its place: no handler in front of it is removed while one stands
at it, a handler that declines still stands at it, if one does, and no other operation under way
has made a request when one makes a request. -/
def InPlace (client : HookedClient Handler) : CredentialEvent Handler → Prop
  | .hookCredentials false handler =>
    (∃ operation ∈ client.operations, operation.authNr ≠ 0) →
      handler ∉ client.credentialHandlers.take client.nextCredentialHandler ∨
        client.credentialHandlers[client.nextCredentialHandler]? = none
  | .decline => ∀ handler ∈ client.credentialHandlers[client.nextCredentialHandler]?,
    ∀ operation ∈ client.operations.head?, operation.calling = some handler
  | .request => ∀ operation ∈ client.operations.tail, operation.authNr = 0
  | _ => True

end HookedClient

end Hooks

section Walk

variable {Handler : Type}

namespace Operation

/-- Once the operation has made a request, the handlers in front of the index have declined in it,
as far as they have been registered throughout. -/
structure Walked (handlers : List Handler) (next : Nat) (operation : Operation Handler) : Prop where
  registered : ∀ handler ∈ operation.throughout, handler ∈ handlers
  passed : operation.authNr ≠ 0 → ∀ handler ∈ handlers.take next,
    handler ∈ operation.throughout → handler ∈ operation.declined
  asked : operation.calling ≠ none → operation.authNr ≠ 0
  noneSkipped : operation.exhausted = true →
    ∀ handler ∈ operation.throughout, handler ∈ operation.declined

variable {handlers : List Handler} {next : Nat} {operation : Operation Handler}

theorem walked_start (handlers : List Handler) (next : Nat) :
    (start handlers).Walked handlers next where
  registered _ h := h
  passed h := absurd rfl h
  asked h := absurd rfl h
  noneSkipped h := absurd h Bool.false_ne_true

/-- Where there is no handler at the index, all have been passed. -/
theorem walked_proceed (hregistered : ∀ handler ∈ operation.throughout, handler ∈ handlers)
    (hpassed : ∀ handler ∈ handlers.take next,
      handler ∈ operation.throughout → handler ∈ operation.declined)
    (hasked : operation.authNr ≠ 0) : (operation.proceed handlers[next]?).Walked handlers next where
  registered := hregistered
  passed _ := hpassed
  asked _ := hasked
  noneSkipped h handler hhandler := by
    have hend : handlers[next]? = none := Option.isNone_iff_eq_none.mp h
    have hfront := mem_take_of_getElem?_eq_none hend (hregistered handler hhandler)
    exact hpassed handler hfront hhandler

theorem Walked.leave (h : operation.Walked handlers next) :
    ({ operation with calling := none } : Operation Handler).Walked handlers next where
  registered := h.registered
  passed := h.passed
  asked hcalling := absurd rfl hcalling
  noneSkipped := h.noneSkipped

/-- Before its first request an operation does not depend on the index. -/
theorem Walked.of_unasked (h : operation.Walked handlers next) (hnr : operation.authNr = 0)
    (other : Nat) : operation.Walked handlers other where
  registered := h.registered
  passed hasked := absurd hnr hasked
  asked := h.asked
  noneSkipped := h.noneSkipped

theorem Walked.append (h : operation.Walked handlers next) {handler : Handler}
    (hnew : handler ∉ handlers) : operation.Walked (handlers ++ [handler]) next where
  registered other hother := List.mem_append_left _ (h.registered other hother)
  passed hasked other hother hthroughout := by
    cases mem_take_append hother with
    | inl hold => exact h.passed hasked other hold hthroughout
    | inr heq =>
      subst heq
      exact absurd (h.registered other hthroughout) hnew
  asked := h.asked
  noneSkipped := h.noneSkipped

variable [DecidableEq Handler]

theorem Walked.erase (h : operation.Walked handlers next) {handler : Handler}
    (hplace : operation.authNr ≠ 0 → handler ∉ handlers.take next ∨ handlers[next]? = none) :
    (operation.retain (handlers.erase handler)).Walked (handlers.erase handler) next where
  registered other hother := of_decide_eq_true (List.mem_filter.mp hother).2
  passed hasked other hother hthroughout := by
    have hthroughout := (List.mem_filter.mp hthroughout).1
    cases hplace hasked with
    | inl hbehind =>
      rw [take_erase hbehind] at hother
      exact h.passed hasked other hother hthroughout
    | inr hend =>
      have hregistered := h.registered other hthroughout
      exact h.passed hasked other (mem_take_of_getElem?_eq_none hend hregistered) hthroughout
  asked := h.asked
  noneSkipped hexhausted other hother :=
    h.noneSkipped hexhausted other (List.mem_filter.mp hother).1

end Operation

namespace HookedClient

/-- At most one of the operations under way has made a request. -/
structure Walked (client : HookedClient Handler) : Prop where
  operations : ∀ operation ∈ client.operations,
    operation.Walked client.credentialHandlers client.nextCredentialHandler
  single : client.operations.Pairwise fun operation other =>
    operation.authNr = 0 ∨ other.authNr = 0

variable {client : HookedClient Handler} {operation : Operation Handler}
  {outer : List (Operation Handler)} {handler : Handler}

theorem Walked.noneSkipped (h : client.Walked) : client.NoneSkipped :=
  fun operation hoperation => (h.operations operation hoperation).noneSkipped

theorem Walked.head (h : client.Walked) (hoperations : client.operations = operation :: outer) :
    operation.Walked client.credentialHandlers client.nextCredentialHandler :=
  h.operations operation (by rw [hoperations]; exact List.mem_cons_self)

theorem Walked.tail (h : client.Walked) (hoperations : client.operations = operation :: outer) :
    ∀ other ∈ outer, other.Walked client.credentialHandlers client.nextCredentialHandler :=
  fun other hother => h.operations other (by rw [hoperations]; exact .tail _ hother)

theorem Walked.pairwise (h : client.Walked) (hoperations : client.operations = operation :: outer) :
    (∀ other ∈ outer, operation.authNr = 0 ∨ other.authNr = 0) ∧
      outer.Pairwise fun operation other => operation.authNr = 0 ∨ other.authNr = 0 := by
  have hsingle := h.single
  rw [hoperations] at hsingle
  exact List.pairwise_cons.mp hsingle

/-- The only operation that has made a request goes on with the loop. -/
theorem Walked.onCredential (h : client.Walked)
    (hoperations : client.operations = operation :: outer) {asking : Operation Handler} {next : Nat}
    (hthroughout : asking.throughout = operation.throughout)
    (hpassed : ∀ handler ∈ client.credentialHandlers.take next,
      handler ∈ asking.throughout → handler ∈ asking.declined)
    (hasked : asking.authNr ≠ 0) (houter : ∀ other ∈ outer, other.authNr = 0) :
    (client.onCredential next asking outer).Walked where
  operations other hother := by
    cases List.mem_cons.mp hother with
    | inl heq =>
      subst heq
      apply Operation.walked_proceed _ hpassed hasked
      rw [hthroughout]
      exact (h.head hoperations).registered
    | inr hother => exact (h.tail hoperations other hother).of_unasked (houter other hother) next
  single := List.pairwise_cons.mpr
    ⟨fun other hother => .inr (houter other hother), (h.pairwise hoperations).2⟩

theorem Walked.start (h : client.Walked) :
    Walked { client with operations := .start client.credentialHandlers :: client.operations } where
  operations other hother := by
    cases List.mem_cons.mp hother with
    | inl heq =>
      subst heq
      exact Operation.walked_start _ _
    | inr hother => exact h.operations other hother
  single := List.pairwise_cons.mpr ⟨fun _ _ => .inl rfl, h.single⟩

theorem Walked.finish (h : client.Walked) (hoperations : client.operations = operation :: outer) :
    Walked { client with operations := outer } where
  operations := h.tail hoperations
  single := (h.pairwise hoperations).2

theorem Walked.leave (h : client.Walked) (hoperations : client.operations = operation :: outer) :
    (client.leave operation outer).Walked where
  operations other hother := by
    cases List.mem_cons.mp hother with
    | inl heq =>
      subst heq
      exact (h.head hoperations).leave
    | inr hother => exact h.tail hoperations other hother
  single := by
    have hpairwise := h.pairwise hoperations
    exact List.pairwise_cons.mpr ⟨hpairwise.1, hpairwise.2⟩

/-- The first request of an operation starts in front of all handlers. -/
theorem Walked.request (h : client.Walked) (hoperations : client.operations = operation :: outer)
    (houter : ∀ other ∈ outer, other.authNr = 0) : (client.request operation outer).Walked := by
  rw [HookedClient.request]
  refine h.onCredential hoperations ?_ ?_ ?_ houter
  · rfl
  · intro handler hhandler hthroughout
    by_cases hnr : operation.authNr = 0
    · rw [if_pos hnr, List.take_zero] at hhandler
      cases hhandler
    · rw [if_neg hnr] at hhandler
      exact (h.head hoperations).passed hnr handler hhandler hthroughout
  · exact Nat.succ_ne_zero _

/-- The handler in front of the index is now the one that has declined. -/
theorem Walked.decline (h : client.Walked) (hoperations : client.operations = operation :: outer)
    (hcalling : operation.calling = some handler)
    (hplace : ∀ other ∈ client.credentialHandlers[client.nextCredentialHandler]?,
      other = handler) :
    (client.decline handler operation outer).Walked := by
  have hwalked := h.head hoperations
  have hasked := hwalked.asked (by rw [hcalling]; exact Option.some_ne_none _)
  have houter : ∀ other ∈ outer, other.authNr = 0 :=
    fun other hother => ((h.pairwise hoperations).1 other hother).resolve_left hasked
  refine h.onCredential hoperations ?_ ?_ hasked houter
  · rfl
  · intro other hother hthroughout
    cases mem_take_succ hother with
    | inl hfront => exact .tail _ (hwalked.passed hasked other hfront hthroughout)
    | inr hat =>
      obtain rfl := hplace other hat
      exact List.mem_cons_self

variable [DecidableEq Handler]

theorem Walked.hook (h : client.Walked) (handler : Handler) :
    (client.hookCredentials true handler).Walked := by
  rw [hookCredentials, if_pos rfl]
  split
  · exact h
  · rename_i hnew
    exact ⟨fun other hother => (h.operations other hother).append hnew, h.single⟩

theorem Walked.unhook (h : client.Walked)
    (hplace : client.InPlace (.hookCredentials false handler)) :
    (client.hookCredentials false handler).Walked := by
  rw [hookCredentials, if_neg Bool.false_ne_true]
  refine ⟨?_, ?_⟩
  · intro other hother
    obtain ⟨operation, hoperation, rfl⟩ := List.mem_map.mp hother
    apply (h.operations operation hoperation).erase
    intro hasked
    exact hplace ⟨operation, hoperation, hasked⟩
  · rw [List.pairwise_map]
    exact h.single

/-- Every event that leaves the index in its place keeps what is known in front of it. -/
theorem Walked.step (h : client.Walked) (event : CredentialEvent Handler)
    (hplace : client.InPlace event) : (client.step event).Walked := by
  unfold HookedClient.step
  split
  · rename_i add handler
    cases add with
    | true => exact h.hook handler
    | false => exact h.unhook hplace
  · exact h.start
  · exact h
  · rename_i operation outer _ _ hoperations
    split
    · exact h.finish hoperations
    · apply h.request hoperations
      rw [InPlace, hoperations] at hplace
      exact hplace
    · rename_i handler hcalling _ _
      apply h.decline hoperations hcalling
      intro other hother
      have hcalled := hplace other hother operation (by rw [hoperations]; rfl)
      exact (Option.some.inj (hcalling.symm.trans hcalled)).symm
    · exact h.leave hoperations
    · exact h.leave hoperations
    · exact h

end HookedClient

end Walk

section Follow

variable {Handler Exn η : Type} (invoke : Invoke Handler Exn η) (e : GitCredentialEventArgs)
  {handler : Handler}

namespace Client

/-- The client after this handler has been called. -/
def afterCall (handler : Handler) (world : η) (client : Client Handler η) : Client Handler η :=
  { client with world := world, consulted := client.consulted ++ [(handler, e)] }

variable {client : Client Handler η} {world : η}

theorem callHandler_run {result : Except Exn (Option GitCred)}
    (h : invoke handler e client.world = (result, world)) :
    (callHandler invoke e handler).run client = (result, client.afterCall e handler world) := by
  have hworld := congrArg Prod.snd h
  have hresult := congrArg Prod.fst h
  subst hworld hresult
  rfl

theorem consult_raised {exn : Exn} (h : invoke handler e client.world = (.error exn, world))
    (handlers : List Handler) : (consult invoke e (handler :: handlers)).run client =
      (.error exn, client.afterCall e handler world) := by
  rw [consult, Action.run_bind_error (callHandler_run invoke e h)]

theorem consult_supplied {cred : GitCred}
    (h : invoke handler e client.world = (.ok (some cred), world)) (handlers : List Handler) :
    (consult invoke e (handler :: handlers)).run client =
      (.ok (some cred), client.afterCall e handler world) := by
  rw [consult, Action.run_bind_ok (callHandler_run invoke e h)]
  rfl

theorem consult_declined (h : invoke handler e client.world = (.ok none, world))
    (handlers : List Handler) : (consult invoke e (handler :: handlers)).run client =
      (consult invoke e handlers).run { client.afterCall e handler world with
        nextCredentialHandler := client.nextCredentialHandler + 1 } := by
  rw [consult, Action.run_bind_ok (callHandler_run invoke e h), Action.run_bind_ok rfl]
  rfl

theorem restart_spec (client : Client Handler η) :
    (restart e client).credentialHandlers = client.credentialHandlers ∧
      (restart e client).consulted = client.consulted ∧
      (restart e client).nextCredentialHandler =
        if e.invocation = 0 then 0 else client.nextCredentialHandler := by
  rw [restart]
  split
  · exact ⟨rfl, rfl, rfl⟩
  · exact ⟨rfl, rfl, rfl⟩

end Client

namespace HookedClient

variable {hooked : HookedClient Handler} {client : Client Handler η} {operation : Operation Handler}
  {outer : List (Operation Handler)} {world : η}

/-- The client in the state of the other model, with the operation that was started last. -/
structure Follows (hooked : HookedClient Handler) (client : Client Handler η)
    (operation : Operation Handler) (outer : List (Operation Handler)) : Prop where
  handlers : hooked.credentialHandlers = client.credentialHandlers
  next : hooked.nextCredentialHandler = client.nextCredentialHandler
  operations : hooked.operations = operation :: outer
  called : ∀ handler ∈ operation.declined, ∃ e, (handler, e) ∈ client.consulted

theorem Follows.afterCall (h : Follows hooked client operation outer) (handler : Handler)
    (world : η) {other : Handler} (hother : other ∈ handler :: operation.declined) :
    ∃ e', (other, e') ∈ (client.afterCall e handler world).consulted := by
  cases List.mem_cons.mp hother with
  | inl heq => exact ⟨e, by rw [heq]; exact List.mem_append_right _ List.mem_cons_self⟩
  | inr hother =>
    obtain ⟨e', he'⟩ := h.called other hother
    exact ⟨e', List.mem_append_left _ he'⟩

theorem Follows.leave (h : Follows hooked client operation outer) (handler : Handler)
    (world : η) : Follows (hooked.leave operation outer) (client.afterCall e handler world)
      { operation with calling := none } outer where
  handlers := h.handlers
  next := h.next
  operations := rfl
  called _ hother := h.afterCall e handler world (.tail _ hother)

theorem Follows.decline (h : Follows hooked client operation outer) (handler : Handler)
    (world : η) : Follows (hooked.decline handler operation outer)
      { client.afterCall e handler world with
        nextCredentialHandler := client.nextCredentialHandler + 1 }
      (Operation.proceed client.credentialHandlers[client.nextCredentialHandler + 1]?
        { operation with declined := handler :: operation.declined }) outer where
  handlers := h.handlers
  next := congrArg (· + 1) h.next
  operations := by
    rw [← h.handlers, ← h.next]
    rfl
  called _ hother := h.afterCall e handler world hother

variable [DecidableEq Handler] {handlers : List Handler}

theorem step_supply (h : hooked.operations = operation :: outer)
    (hcalling : operation.calling = some handler) :
    hooked.step .supply = hooked.leave operation outer := by
  simp only [step, h, hcalling]

theorem step_raise (h : hooked.operations = operation :: outer)
    (hcalling : operation.calling = some handler) :
    hooked.step .raise = hooked.leave operation outer := by
  simp only [step, h, hcalling]

theorem step_decline (h : hooked.operations = operation :: outer)
    (hcalling : operation.calling = some handler) :
    hooked.step .decline = hooked.decline handler operation outer := by
  simp only [step, h, hcalling]

theorem step_request (h : hooked.operations = operation :: outer)
    (hcalling : operation.calling = none) :
    hooked.step .request = hooked.request operation outer := by
  simp only [step, h, hcalling]

/-- Some events lead to the end of the request that the other model reaches. -/
def Reaches (hooked : HookedClient Handler) (outer : List (Operation Handler)) (authNr : Nat)
    (reached : Except Exn (Option GitCred) × Client Handler η) : Prop :=
  ∃ events ended, Follows (Events.run step hooked events) reached.2 ended outer ∧
    ended.calling = none ∧ ended.authNr = authNr ∧
    (ended.exhausted = true ↔ reached.1 = .ok none)

theorem Reaches.of_step {authNr : Nat} {reached : Except Exn (Option GitCred) × Client Handler η}
    (event : CredentialEvent Handler) (h : Reaches (hooked.step event) outer authNr reached) :
    Reaches hooked outer authNr reached := by
  obtain ⟨events, ended, hfollows, hcalling⟩ := h
  exact ⟨event :: events, ended, hfollows, hcalling⟩

/-- The handler leaves the loop. -/
theorem Follows.reaches_leave {result : Except Exn (Option GitCred)}
    (h : Follows hooked client operation outer) (handler : Handler) (world : η)
    (hgoes : operation.exhausted ≠ true) (hresult : result ≠ .ok none) :
    Reaches (hooked.leave operation outer) outer operation.authNr
      (result, client.afterCall e handler world) :=
  ⟨[], _, h.leave e handler world, rfl, rfl, iff_of_false hgoes hresult⟩

/-- What the loop does from the handler at the index on, the events of a hooked client do. -/
theorem consult_reaches (h : Follows hooked client operation outer)
    (hcalling : operation.calling = handlers.head?)
    (hexhausted : operation.exhausted = handlers.isEmpty)
    (hhandlers : client.credentialHandlers.drop client.nextCredentialHandler = handlers) :
    Reaches hooked outer operation.authNr ((Client.consult invoke e handlers).run client) := by
  induction handlers generalizing hooked client operation with
  | nil => exact ⟨[], operation, h, hcalling, rfl, iff_of_true hexhausted rfl⟩
  | cons handler handlers ih =>
    have hgoes : operation.exhausted ≠ true := by
      rw [hexhausted]
      exact Bool.false_ne_true
    cases hinvoke : invoke handler e client.world with
    | mk result world =>
      cases result with
      | error exn =>
        rw [Client.consult_raised invoke e hinvoke]
        apply Reaches.of_step .raise
        rw [step_raise h.operations hcalling]
        exact h.reaches_leave e handler world hgoes (by simp)
      | ok cred =>
        cases cred with
        | some cred =>
          rw [Client.consult_supplied invoke e hinvoke]
          apply Reaches.of_step .supply
          rw [step_supply h.operations hcalling]
          exact h.reaches_leave e handler world hgoes (by simp)
        | none =>
          have hrest : client.credentialHandlers.drop (client.nextCredentialHandler + 1) =
              handlers := by
            rw [← List.drop_drop, hhandlers, List.drop_one, List.tail_cons]
          have hnext := h.decline e handler world
          rw [← List.head?_drop, hrest] at hnext
          rw [Client.consult_declined invoke e hinvoke]
          apply Reaches.of_step .decline
          rw [step_decline h.operations hcalling]
          have hreached := ih hnext rfl (by cases handlers <;> rfl) hrest
          exact hreached

/-- A request to handlers that hook nothing is one of the runs of a hooked client. -/
theorem onCredential_reaches (h : Follows hooked client operation outer)
    (hcalling : operation.calling = none) (hnr : operation.authNr = e.invocation) :
    Reaches hooked outer (e.invocation + 1) ((Client.onCredential invoke e).run client) := by
  obtain ⟨hhandlers, hconsulted, hnext⟩ := Client.restart_spec e client
  rw [← hnr, ← h.next] at hnext
  have hstart : Follows (hooked.request operation outer) (Client.restart e client)
      (Operation.proceed ((Client.restart e client).credentialHandlers.drop
          (Client.restart e client).nextCredentialHandler).head?
        { operation with authNr := operation.authNr + 1 }) outer := by
    refine ⟨h.handlers.trans hhandlers.symm, hnext.symm, ?_, ?_⟩
    · rw [List.head?_drop, hnext, hhandlers, ← h.handlers]
      rfl
    · rw [hconsulted]
      exact h.called
  apply Reaches.of_step .request
  rw [step_request h.operations hcalling, Client.onCredential, Action.run_bind_ok rfl,
    Action.get_bind, ← hnr]
  exact consult_reaches invoke e hstart rfl (by cases List.drop _ _ <;> rfl) rfl

end HookedClient

end Follow

end SharpGit.GitClient
