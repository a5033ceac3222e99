import SharpGit.Library.Action
import SharpGit.Plumbing.GitRemote

namespace SharpGit.GitClient

open Library Native Implementation Plumbing

structure GitCredentialEventArgs where
  request : CredentialRequest
  invocation : Nat
  deriving DecidableEq, Repr

/-- The client with the payload of its callbacks, the world behind its handlers, and the log of
the handlers it has called. -/
structure Client (Handler η : Type) where
  credentialHandlers : List Handler
  nextCredentialHandler : Nat
  authNr : Nat
  world : η
  consulted : List (Handler × GitCredentialEventArgs)

/-- What a handler does when it is called: it may supply a credential, or raise. -/
abbrev Invoke (Handler Exn η : Type) :=
  Handler → GitCredentialEventArgs → η → Except Exn (Option GitCred) × η

section Credentials

variable {Handler Exn η : Type}

namespace Client

def callHandler (invoke : Invoke Handler Exn η) (e : GitCredentialEventArgs) (handler : Handler) :
    Action (Client Handler η) Exn (Option GitCred) :=
  ⟨fun client =>
    let (cred, world) := invoke handler e client.world
    (cred, { client with world := world, consulted := client.consulted ++ [(handler, e)] })⟩

/-- The `while` loop over the handlers from `_nextCredentialHandler` on. -/
def consult (invoke : Invoke Handler Exn η) (e : GitCredentialEventArgs) :
    List Handler → Action (Client Handler η) Exn (Option GitCred)
  | [] => return none
  | handler :: handlers => do
    let cred ← callHandler invoke e handler
    match cred with
    | some cred => return some cred
    | none =>
      Action.modify fun client =>
        { client with nextCredentialHandler := client.nextCredentialHandler + 1 }
      consult invoke e handlers

def restart (e : GitCredentialEventArgs) (client : Client Handler η) : Client Handler η :=
  if e.invocation = 0 then { client with nextCredentialHandler := 0 } else client

/-- `OnCredential`; none where no handler has supplied a credential. -/
def onCredential (invoke : Invoke Handler Exn η) (e : GitCredentialEventArgs) :
    Action (Client Handler η) Exn (Option GitCred) := do
  Action.modify (restart e)
  let client ← Action.get
  consult invoke e (client.credentialHandlers.drop client.nextCredentialHandler)

def noCredentialsError : NativeError where
  klass := .callback
  message := "Callback didn't provide credentials".toUTF8.data.toList

-- `gcnew System::Uri`, as far as it raises.
variable (checkUri : NetString → Except Exn Unit)

/-- `remote_baton_t::credentials`. The constructor of the arguments stands before the `try`. -/
def credentials (invoke : Invoke Handler Exn η) (request : CredentialRequest) :
    Action (CallbackState Exn (Client Handler η)) Exn CredentialReply :=
  ⟨fun now =>
    let e := ⟨request, now.owner.authNr⟩
    let client := { now.owner with authNr := now.owner.authNr + 1 }
    match checkUri (utf8PtrToString request.url) with
    | .error exn => (.error exn, { now with owner := client })
    | .ok _ =>
      match (onCredential invoke e).run client with
      | (.ok (some cred), client) => (.ok ⟨0, some cred⟩, ⟨now.thread.attempt, client⟩)
      | (.ok none, client) => (.ok ⟨-1, none⟩, ⟨now.thread.setError noCredentialsError, client⟩)
      | (.error exn, client) => (.ok ⟨-1, none⟩, ⟨now.thread.wrapError exn, client⟩)⟩

/-- `get_callbacks`, with a payload of its own. -/
def getCallbacks (invoke : Invoke Handler Exn η) :
    IHasRemoteCallbacks Exn (Client Handler η) where
  getCallbacks client := (⟨some (credentials checkUri invoke)⟩, { client with authNr := 0 })

variable (invoke : Invoke Handler Exn η)

/-- Calls are only ever added to the log, and the handlers stay the same. -/
structure Extends (before after : Client Handler η) : Prop where
  handlers : after.credentialHandlers = before.credentialHandlers
  consulted : before.consulted <+: after.consulted

theorem Extends.refl (client : Client Handler η) : Extends client client :=
  ⟨rfl, List.prefix_refl _⟩

theorem Extends.trans {first second third : Client Handler η} (h : Extends first second)
    (h' : Extends second third) : Extends first third :=
  ⟨h'.handlers.trans h.handlers, h.consulted.trans h'.consulted⟩

/-- After a handler has been called the log only grows, if it does behind that handler. -/
theorem consult_rest (e : GitCredentialEventArgs) (handler : Handler) {handlers : List Handler}
    (hrest : ∀ client : Client Handler η,
      Extends client ((consult invoke e handlers).run client).2)
    (client : Client Handler η) :
    Extends ((callHandler invoke e handler).run client).2
      ((consult invoke e (handler :: handlers)).run client).2 := by
  apply Action.bind_rel_of_head Extends.refl
  intro cred client
  cases cred with
  | some cred => exact Extends.refl client
  | none =>
    apply Action.bind_rel Extends.refl Extends.trans
    · intro client
      exact ⟨rfl, List.prefix_refl _⟩
    · intro _ client
      exact hrest client

theorem consult_extends (e : GitCredentialEventArgs) (handlers : List Handler)
    (client : Client Handler η) : Extends client ((consult invoke e handlers).run client).2 := by
  induction handlers generalizing client with
  | nil => exact Extends.refl client
  | cons handler handlers ih =>
    have hcall : Extends client ((callHandler invoke e handler).run client).2 :=
      ⟨rfl, List.prefix_append _ _⟩
    exact hcall.trans (consult_rest invoke e handler ih client)

theorem onCredential_extends (e : GitCredentialEventArgs) (client : Client Handler η) :
    Extends client ((onCredential invoke e).run client).2 := by
  apply Action.bind_rel Extends.refl Extends.trans
  · intro client
    rw [Action.run_modify, restart]
    split
    · exact ⟨rfl, List.prefix_refl _⟩
    · exact Extends.refl client
  · intro _ client
    exact consult_extends invoke e _ client

/-- The first request of an operation calls the first handler. -/
theorem onCredential_first (request : CredentialRequest) (client : Client Handler η)
    {handler : Handler} {handlers : List Handler}
    (h : client.credentialHandlers = handler :: handlers) :
    client.consulted ++ [(handler, ⟨request, 0⟩)] <+:
      ((onCredential invoke ⟨request, 0⟩).run client).2.consulted := by
  have hrun : (onCredential invoke ⟨request, 0⟩).run client =
      (consult invoke ⟨request, 0⟩ (handler :: handlers)).run
        { client with nextCredentialHandler := 0 } := by
    rw [onCredential, Action.run_bind_ok rfl, Action.get_bind]
    simp [restart, h]
  rw [hrun]
  have hrest := consult_rest invoke ⟨request, 0⟩ handler (consult_extends invoke _ handlers)
    { client with nextCredentialHandler := 0 }
  exact hrest.consulted

variable {checkUri}

theorem credentials_refused {request : CredentialRequest} {exn : Exn}
    (h : checkUri (utf8PtrToString request.url) = .error exn)
    (now : CallbackState Exn (Client Handler η)) :
    (credentials checkUri invoke request).run now =
      (.error exn, { now with owner := { now.owner with authNr := now.owner.authNr + 1 } }) := by
  rw [credentials]
  dsimp only
  rw [h]

theorem credentials_owner {request : CredentialRequest}
    (h : checkUri (utf8PtrToString request.url) = .ok ())
    (now : CallbackState Exn (Client Handler η)) :
    ((credentials checkUri invoke request).run now).2.owner =
      ((onCredential invoke ⟨request, now.owner.authNr⟩).run
        { now.owner with authNr := now.owner.authNr + 1 }).2 := by
  rw [credentials]
  dsimp only
  rw [h]
  dsimp only
  split
  · rename_i h
    rw [h]
  · rename_i h
    rw [h]
  · rename_i h
    rw [h]

theorem credentials_first {request : CredentialRequest}
    (h : checkUri (utf8PtrToString request.url) = .ok ())
    (now : CallbackState Exn (Client Handler η)) {handler : Handler} {handlers : List Handler}
    (hnr : now.owner.authNr = 0) (hhandlers : now.owner.credentialHandlers = handler :: handlers) :
    now.owner.consulted ++ [(handler, ⟨request, 0⟩)] <+:
      ((credentials checkUri invoke request).run now).2.owner.consulted := by
  rw [credentials_owner invoke h, hnr]
  exact onCredential_first invoke request { now.owner with authNr := 1 } hhandlers

theorem credentials_extends (request : CredentialRequest)
    (now : CallbackState Exn (Client Handler η)) :
    Extends now.owner ((credentials checkUri invoke request).run now).2.owner := by
  have hstart : Extends now.owner { now.owner with authNr := now.owner.authNr + 1 } :=
    ⟨rfl, List.prefix_refl _⟩
  cases h : checkUri (utf8PtrToString request.url) with
  | error exn =>
    rw [credentials_refused invoke h]
    exact hstart
  | ok _ =>
    rw [credentials_owner invoke h]
    exact hstart.trans (onCredential_extends invoke _ _)

/-- Without handlers a request changes no more than its number. -/
theorem credentials_no_handlers (request : CredentialRequest)
    {now : CallbackState Exn (Client Handler η)} (h : now.owner.credentialHandlers = []) :
    ((credentials checkUri invoke request).run now).2.owner.consulted = now.owner.consulted := by
  cases hurl : checkUri (utf8PtrToString request.url) with
  | error exn => rw [credentials_refused invoke hurl]
  | ok _ =>
    rw [credentials_owner invoke hurl, onCredential, Action.run_bind_ok rfl, Action.get_bind]
    simp only [restart]
    split
    · simp [h, consult]
    · simp [h, consult]

end Client

variable {σ : Type} (checkUri : NetString → Except Exn Unit)

/-- Whether `Fetch` and `Push` call the same handlers in the same order. -/
def ConsultsAlike (invoke : Invoke Handler Exn η) (connect : List CStr → σ → Transport σ)
    (refspecs : Option (List NetString)) (remote : GitRemote Exn (Client Handler η) σ) : Prop :=
  (remote.fetch connect refspecs (Client.getCallbacks checkUri invoke)).2.owner.consulted =
    (remote.push connect refspecs (Client.getCallbacks checkUri invoke)).2.owner.consulted

/-- The credential requests of one attempt, answered by the client. -/
abbrev Client.answer (invoke : Invoke Handler Exn η) :=
  RemoteCallbacks.answer
    (⟨some (Client.credentials checkUri invoke)⟩ : RemoteCallbacks Exn (Client Handler η))

theorem Client.answer_run (invoke : Invoke Handler Exn η) (request : CredentialRequest)
    (now : CallbackState Exn (Client Handler η)) :
    (Client.answer checkUri invoke request).run now =
      (((Client.credentials checkUri invoke request).run now).1.map some,
        ((Client.credentials checkUri invoke request).run now).2) := by
  rw [Client.answer, RemoteCallbacks.answer]
  dsimp only
  rw [Action.run_bind]
  cases (Client.credentials checkUri invoke request).run now with
  | mk reply after =>
    cases reply with
    | error exn => rfl
    | ok reply => rfl

section Push

variable {checkUri} (invoke : Invoke Handler Exn η) (connect : List CStr → σ → Transport σ)
  (refspecs : Option (List NetString)) {remote : GitRemote Exn (Client Handler η) σ}
  {request : CredentialRequest}
  (hasks : (connect (allocRefSpecs refspecs) remote.transport).first? = some request)

include hasks in
/-- `Push` consults the first handler as soon as its first attempt asks for a credential. -/
theorem push_consults (hurl : checkUri (utf8PtrToString request.url) = .ok ())
    {handler : Handler} {handlers : List Handler}
    (hhandlers : remote.owner.credentialHandlers = handler :: handlers) :
    remote.owner.consulted ++ [(handler, ⟨request, 0⟩)] <+:
      (remote.push connect refspecs (Client.getCallbacks checkUri invoke)).2.owner.consulted := by
  let Logged : Client Handler η → Prop := fun client =>
    remote.owner.consulted ++ [(handler, ⟨request, 0⟩)] <+: client.consulted
  have hrequest : ∀ request now, Logged now.owner →
      Logged ((Client.answer checkUri invoke request).run now).2.owner := by
    intro request now h
    rw [Client.answer_run]
    exact h.trans (Client.credentials_extends invoke request now).consulted
  apply GitRemote.push_owner refspecs (Client.getCallbacks checkUri invoke) remote Logged hrequest
  apply Strategy.run_of_first (fun now : CallbackState Exn (Client Handler η) => Logged now.owner)
    hrequest hasks
  have hfirst := Client.credentials_first invoke hurl
    ⟨remote.thread.enterAuth.clearAuth, { remote.owner with authNr := 0 }⟩ rfl hhandlers
  change Logged ((Client.answer checkUri invoke request).run _).2.owner
  rw [Client.answer_run]
  exact hfirst

include hasks in
/-- Where the constructor of `System.Uri` raises, `Push` ends before it consults a handler. -/
theorem push_refused {exn : Exn} (hurl : checkUri (utf8PtrToString request.url) = .error exn) :
    (remote.push connect refspecs (Client.getCallbacks checkUri invoke)).2.owner.consulted =
      remote.owner.consulted := by
  have hanswer := Client.answer_run checkUri invoke request
    ⟨remote.thread.enterAuth.clearAuth, { remote.owner with authNr := 0 }⟩
  rw [Client.credentials_refused invoke hurl] at hanswer
  rw [GitRemote.push_of_no_answer refspecs (Client.getCallbacks checkUri invoke) remote hasks
    hanswer]

omit hasks in
/-- Without handlers `Push` consults none. -/
theorem push_no_handlers (h : remote.owner.credentialHandlers = []) :
    (remote.push connect refspecs (Client.getCallbacks checkUri invoke)).2.owner.consulted =
      remote.owner.consulted := by
  let Silent : Client Handler η → Prop := fun client =>
    client.credentialHandlers = [] ∧ client.consulted = remote.owner.consulted
  have hrequest : ∀ request now, Silent now.owner →
      Silent ((Client.answer checkUri invoke request).run now).2.owner := by
    intro request now hsilent
    obtain ⟨hnone, hsame⟩ := hsilent
    rw [Client.answer_run]
    exact ⟨(Client.credentials_extends invoke request now).handlers.trans hnone,
      (Client.credentials_no_handlers invoke request hnone).trans hsame⟩
  have hpush : Silent
      (remote.push connect refspecs (Client.getCallbacks checkUri invoke)).2.owner := by
    apply GitRemote.push_owner refspecs (Client.getCallbacks checkUri invoke) remote Silent hrequest
    exact Strategy.run_invariant
      (fun now : CallbackState Exn (Client Handler η) => Silent now.owner) hrequest _ ⟨h, rfl⟩
  exact hpush.2

end Push

/-- `Fetch` consults the handlers as `Push` does iff there are none, or the first attempt asks for
no credential, or it asks for one with a URL that `System.Uri` refuses. -/
theorem fetch_consultsAlike_iff (invoke : Invoke Handler Exn η)
    (connect : List CStr → σ → Transport σ) (refspecs : Option (List NetString))
    (remote : GitRemote Exn (Client Handler η) σ) :
    ConsultsAlike checkUri invoke connect refspecs remote ↔
      remote.owner.credentialHandlers = [] ∨
        ∀ request, (connect (allocRefSpecs refspecs) remote.transport).first? = some request →
          ∃ exn, checkUri (utf8PtrToString request.url) = .error exn := by
  rw [ConsultsAlike, GitRemote.fetch_owner]
  constructor
  · intro h
    by_cases hsome : remote.owner.credentialHandlers = []
    · exact .inl hsome
    · right
      intro request hasks
      obtain ⟨handler, handlers, hhandlers⟩ := List.exists_cons_of_ne_nil hsome
      cases hurl : checkUri (utf8PtrToString request.url) with
      | error exn => exact ⟨exn, rfl⟩
      | ok _ =>
        have hlog := (push_consults invoke connect refspecs hasks hurl hhandlers).length_le
        rw [← h, List.length_append, List.length_singleton] at hlog
        omega
  · intro h
    cases h with
    | inl hnone => exact (push_no_handlers invoke connect refspecs hnone).symm
    | inr hrefused =>
      cases hasks : (connect (allocRefSpecs refspecs) remote.transport).first? with
      | none =>
        rw [GitRemote.push_of_no_question refspecs _ remote hasks]
        rfl
      | some request =>
        obtain ⟨exn, hurl⟩ := hrefused request hasks
        exact (push_refused invoke connect refspecs hasks hurl).symm

end Credentials

/-- The URL "http://a/b". -/
def exampleUrl : CStr := [0x68, 0x74, 0x74, 0x70, 0x3a, 0x2f, 0x2f, 0x61, 0x2f, 0x62]

/-- A remote that asks for one credential and then succeeds. -/
def exampleTransport (_ : List CStr) (_ : Unit) : Transport Unit :=
  .ask ⟨exampleUrl, [], 0⟩ fun _ => .finish ⟨0, none, ()⟩

/-- Strings that start with a scheme are taken. -/
def exampleUri (url : NetString) : Except Unit Unit :=
  if (utf8PtrToString [0x68, 0x74, 0x74, 0x70, 0x3a, 0x2f, 0x2f]).isPrefixOf url then .ok ()
  else .error ()

/-- A client with one handler, which supplies the default credential. -/
def exampleRemote : GitRemote Unit (Client Unit Unit) Unit where
  thread := ⟨[], none, none⟩
  owner := ⟨[()], 0, 0, (), []⟩
  transport := ()
  connected := false

/-- `Push` asks the handler, `Fetch` does not. -/
theorem fetch_consults_none :
    ¬∀ remote : GitRemote Unit (Client Unit Unit) Unit,
      ConsultsAlike exampleUri (fun _ _ world => (.ok (some .default), world)) exampleTransport none
        remote := by
  intro h
  have hpush : (exampleRemote.push exampleTransport none
      (Client.getCallbacks exampleUri fun _ _ world =>
        (.ok (some .default), world))).2.owner.consulted = [((), ⟨⟨exampleUrl, [], 0⟩, 0⟩)] := by
    decide
  have hfetch := h exampleRemote
  rw [ConsultsAlike, GitRemote.fetch_owner, hpush] at hfetch
  cases hfetch

end SharpGit.GitClient
