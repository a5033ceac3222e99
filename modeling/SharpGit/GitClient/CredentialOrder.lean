import SharpGit.GitClient.GitClient

namespace SharpGit.GitClient

open Library Native Implementation Plumbing

/-- A call of the handler at `position` of the list, with what it has supplied. -/
structure Call where
  position : Nat
  e : GitCredentialEventArgs
  cred : Option GitCred

/-- What a handler supplies, if anything, is up to it each time it is called. -/
abbrev Decision (Handler η : Type) := Handler → GitCredentialEventArgs → η → Option GitCred × η

/-- Handlers together with their places in the list, of which each call is recorded. -/
def recorded {Handler Exn η : Type} (decision : Decision Handler η) :
    Invoke (Handler × Nat) Exn (η × List Call) :=
  fun handler e world =>
    let (cred, next) := decision handler.1 e world.1
    (.ok cred, (next, world.2 ++ [⟨handler.2, e, cred⟩]))

section Rounds

variable {handlers : Nat} {e : GitCredentialEventArgs}

/-- The calls for one request, from the handler at the first position to the last position. -/
inductive Round (handlers : Nat) (e : GitCredentialEventArgs) :
    Nat → Nat → List Call → Option GitCred → Prop
  | exhausted : Round handlers e handlers handlers [] none
  | supplied {position : Nat} (cred : GitCred) (h : position < handlers) :
      Round handlers e position position [⟨position, e, some cred⟩] (some cred)
  | declined {position last : Nat} {calls : List Call} {cred : Option GitCred}
      (h : position < handlers) (rest : Round handlers e (position + 1) last calls cred) :
      Round handlers e position last (⟨position, e, none⟩ :: calls) cred

namespace Round

variable {first last : Nat} {calls : List Call} {cred : Option GitCred}

theorem first_le (h : Round handlers e first last calls cred) : first ≤ last := by
  induction h with
  | exhausted => exact Nat.le_refl _
  | supplied => exact Nat.le_refl _
  | declined _ _ ih => omega

theorem last_le (h : Round handlers e first last calls cred) : last ≤ handlers := by
  induction h with
  | exhausted => exact Nat.le_refl _
  | supplied _ h => exact Nat.le_of_lt h
  | declined _ _ ih => exact ih

/-- Handlers that decline are passed; one that supplies is the last. -/
theorem placed (h : Round handlers e first last calls cred) :
    ∀ call ∈ calls, call.e = e ∧ first ≤ call.position ∧
      (call.cred = none → call.position < last) ∧ (call.cred ≠ none → call.position = last) := by
  induction h with
  | exhausted =>
    intro call hcall
    cases hcall
  | supplied cred h =>
    intro call hcall
    rw [List.mem_singleton] at hcall
    subst hcall
    simp
  | declined h rest ih =>
    intro call hcall
    have hlast := rest.first_le
    cases hcall with
    | head => exact ⟨rfl, Nat.le_refl _, fun _ => hlast, fun h => absurd rfl h⟩
    | tail _ hcall =>
      obtain ⟨he, hfirst, hdeclined, hsupplied⟩ := ih call hcall
      exact ⟨he, Nat.le_of_succ_le hfirst, hdeclined, hsupplied⟩

/-- Later calls of the round go to handlers further on. -/
theorem pairwise (h : Round handlers e first last calls cred) :
    calls.Pairwise (·.position < ·.position) := by
  induction h with
  | exhausted => exact List.Pairwise.nil
  | supplied => exact List.pairwise_singleton _ _
  | declined h rest ih =>
    apply List.Pairwise.cons
    · intro call hcall
      exact (rest.placed call hcall).2.1
    · exact ih

/-- Every handler before the last position is asked, and declines. -/
theorem passed (h : Round handlers e first last calls cred) :
    ∀ position, first ≤ position → position < last →
      ∃ call ∈ calls, call.position = position ∧ call.cred = none := by
  induction h with
  | exhausted =>
    intro position hfirst hlast
    omega
  | supplied =>
    intro position hfirst hlast
    omega
  | @declined start _ _ _ h rest ih =>
    intro position hfirst hlast
    by_cases hposition : position = start
    · subst hposition
      exact ⟨_, List.mem_cons_self, rfl, rfl⟩
    · obtain ⟨call, hcall, hat⟩ := ih position (by omega) hlast
      exact ⟨call, List.mem_cons_of_mem _ hcall, hat⟩

theorem last_of_none (h : Round handlers e first last calls none) : last = handlers := by
  generalize hcred : (none : Option GitCred) = cred at h
  induction h with
  | exhausted => rfl
  | supplied cred h => cases hcred
  | declined h rest ih => exact ih hcred

theorem registered (h : Round handlers e first last calls cred) :
    ∀ call ∈ calls, call.position < handlers := by
  induction h with
  | exhausted =>
    intro call hcall
    cases hcall
  | supplied cred h =>
    intro call hcall
    rw [List.mem_singleton] at hcall
    subst hcall
    exact h
  | declined h rest ih =>
    intro call hcall
    cases hcall with
    | head => exact h
    | tail _ hcall => exact ih call hcall

theorem lt_of_supplied (h : Round handlers e first last calls cred) :
    ∀ call ∈ calls, call.cred ≠ none → last < handlers := by
  induction h with
  | exhausted =>
    intro call hcall
    cases hcall
  | supplied cred h =>
    intro call hcall hcred
    exact h
  | declined h rest ih =>
    intro call hcall hcred
    cases hcall with
    | head => exact absurd rfl hcred
    | tail _ hcall => exact ih call hcall hcred

theorem answered (h : Round handlers e first last calls cred) {supplied : GitCred}
    (hcred : cred = some supplied) : ∃ call ∈ calls, call.cred = some supplied := by
  induction h with
  | exhausted => cases hcred
  | supplied cred h => exact ⟨_, List.mem_cons_self, hcred⟩
  | declined h rest ih =>
    obtain ⟨call, hcall, hsupplied⟩ := ih hcred
    exact ⟨call, List.mem_cons_of_mem _ hcall, hsupplied⟩

/-- The round starts at its first position, if there is a handler. -/
theorem head (h : Round handlers e first last calls cred) (hfirst : first < handlers) :
    calls.head?.map (·.position) = some first := by
  cases h with
  | exhausted => omega
  | supplied => rfl
  | declined => rfl

end Round

/-- What holds of the calls of one operation and the replies to its requests. -/
structure CredentialOrder (handlers : Nat) (replies : List (Option GitCred)) (calls : List Call) :
    Prop where
  registered : ∀ call ∈ calls, call.position < handlers
  nondecreasing : calls.Pairwise fun call later => call.position ≤ later.position
  notAgain : calls.Pairwise fun call later => call.cred = none → later.position ≠ call.position
  resumes : ∀ call ∈ calls, call.cred ≠ none → call.e.invocation + 1 < replies.length →
    (calls.filter (·.e.invocation = call.e.invocation + 1)).head?.map (·.position) =
      some call.position
  answered : ∀ nr cred, replies[nr]? = some (some cred) →
    ∃ call ∈ calls, call.e.invocation = nr ∧ call.cred = some cred
  exhausted : ∀ nr, replies[nr]? = some none → ∀ position < handlers,
    ∃ call ∈ calls, call.position = position ∧ call.cred = none ∧ call.e.invocation ≤ nr
  restarts : 0 < handlers → 0 < replies.length → calls.head?.map (·.position) = some 0

/-- The next request starts at `first`: the handlers before it have declined, and the one there is
the last that has supplied a credential. -/
structure Standing (handlers : Nat) (replies : List (Option GitCred)) (first : Nat)
    (calls : List Call) : Prop extends CredentialOrder handlers replies calls where
  bounded : first ≤ handlers
  fresh : replies = [] → first = 0
  behind : ∀ call ∈ calls, call.e.invocation < replies.length ∧ call.position ≤ first ∧
    (call.cred = none → call.position < first)
  passed : ∀ position < first, ∃ call ∈ calls, call.position = position ∧ call.cred = none
  supplier : ∀ call ∈ calls, call.cred ≠ none → call.e.invocation + 1 = replies.length →
    call.position = first ∧ first < handlers

namespace Standing

variable {replies : List (Option GitCred)} {first last : Nat} {calls new : List Call}
  {cred : Option GitCred}

theorem start (handlers : Nat) : Standing handlers [] 0 [] where
  registered := by simp
  nondecreasing := List.Pairwise.nil
  notAgain := List.Pairwise.nil
  resumes := by simp
  answered := by simp
  exhausted := by simp
  restarts := by simp
  bounded := Nat.zero_le _
  fresh _ := rfl
  behind := by simp
  passed := by simp
  supplier := by simp

/-- A call before the round went no further than any call of the round. -/
theorem before_round (h : Standing handlers replies first calls)
    (hround : Round handlers e first last new cred) {call later : Call} (hcall : call ∈ calls)
    (hlater : later ∈ new) : call.position ≤ later.position ∧
      (call.cred = none → later.position ≠ call.position) := by
  obtain ⟨_, hle, hdeclined⟩ := h.behind call hcall
  have hfirst := (hround.placed later hlater).2.1
  constructor
  · exact hle.trans hfirst
  · intro hcred
    have hlt := hdeclined hcred
    omega

theorem filter_old (h : Standing handlers replies first calls) {nr : Nat}
    (hnr : replies.length ≤ nr) : calls.filter (·.e.invocation = nr) = [] := by
  apply List.filter_eq_nil_iff.mpr
  intro call hcall heq
  have hlt := (h.behind call hcall).1
  rw [decide_eq_true_eq] at heq
  omega

theorem filter_new (hround : Round handlers e first last new cred) :
    new.filter (·.e.invocation = e.invocation) = new := by
  apply List.filter_eq_self.mpr
  intro call hcall
  rw [(hround.placed call hcall).1, decide_eq_true_eq]

theorem resumes_round (h : Standing handlers replies first calls)
    (hround : Round handlers e first last new cred) (he : e.invocation = replies.length) :
    ∀ call ∈ calls ++ new, call.cred ≠ none →
      call.e.invocation + 1 < (replies ++ [cred]).length →
      ((calls ++ new).filter (·.e.invocation = call.e.invocation + 1)).head?.map (·.position) =
        some call.position := by
  intro call hcall hcred hlt
  rw [List.length_append, List.length_singleton] at hlt
  rw [List.filter_append]
  cases List.mem_append.mp hcall with
  | inl hold =>
    by_cases hnext : call.e.invocation + 1 = replies.length
    · obtain ⟨hposition, hfirst⟩ := h.supplier call hold hcred hnext
      rw [filter_old h (Nat.le_of_eq hnext.symm), List.nil_append, hnext, ← he,
        filter_new hround, hround.head hfirst, hposition]
    · have hbefore := h.resumes call hold hcred (by omega)
      cases hfilter : calls.filter (·.e.invocation = call.e.invocation + 1) with
      | nil =>
        rw [hfilter] at hbefore
        cases hbefore
      | cons head tail =>
        rw [hfilter] at hbefore
        exact hbefore
  | inr hnew =>
    rw [(hround.placed call hnew).1] at hlt
    omega

theorem answered_round (h : Standing handlers replies first calls)
    (hround : Round handlers e first last new cred) (he : e.invocation = replies.length) :
    ∀ nr supplied, (replies ++ [cred])[nr]? = some (some supplied) →
      ∃ call ∈ calls ++ new, call.e.invocation = nr ∧ call.cred = some supplied := by
  intro nr supplied hreply
  by_cases hlt : nr < replies.length
  · rw [List.getElem?_append_left hlt] at hreply
    obtain ⟨call, hcall, hspec⟩ := h.answered nr supplied hreply
    exact ⟨call, List.mem_append_left _ hcall, hspec⟩
  · rw [List.getElem?_append_right (Nat.le_of_not_lt hlt), List.getElem?_singleton] at hreply
    split at hreply
    · obtain ⟨call, hcall, hcred⟩ := hround.answered (Option.some.inj hreply)
      refine ⟨call, List.mem_append_right _ hcall, ?_, hcred⟩
      rw [(hround.placed call hcall).1]
      omega
    · cases hreply

theorem passed_round (h : Standing handlers replies first calls)
    (hround : Round handlers e first last new cred) :
    ∀ position < last, ∃ call ∈ calls ++ new, call.position = position ∧ call.cred = none := by
  intro position hlast
  by_cases hfirst : position < first
  · obtain ⟨call, hcall, hspec⟩ := h.passed position hfirst
    exact ⟨call, List.mem_append_left _ hcall, hspec⟩
  · obtain ⟨call, hcall, hspec⟩ := hround.passed position (Nat.le_of_not_lt hfirst) hlast
    exact ⟨call, List.mem_append_right _ hcall, hspec⟩

theorem behind_round (h : Standing handlers replies first calls)
    (hround : Round handlers e first last new cred) (he : e.invocation = replies.length) :
    ∀ call ∈ calls ++ new, call.e.invocation < (replies ++ [cred]).length ∧
      call.position ≤ last ∧ (call.cred = none → call.position < last) := by
  intro call hcall
  have hle := hround.first_le
  rw [List.length_append, List.length_singleton]
  cases List.mem_append.mp hcall with
  | inl hold =>
    obtain ⟨hnr, hposition, hdeclined⟩ := h.behind call hold
    exact ⟨by omega, hposition.trans hle, fun hcred => (hdeclined hcred).trans_le hle⟩
  | inr hnew =>
    obtain ⟨hcall, _, hdeclined, hsupplied⟩ := hround.placed call hnew
    refine ⟨by rw [hcall]; omega, ?_, hdeclined⟩
    by_cases hcred : call.cred = none
    · exact Nat.le_of_lt (hdeclined hcred)
    · exact Nat.le_of_eq (hsupplied hcred)

theorem exhausted_round (h : Standing handlers replies first calls)
    (hround : Round handlers e first last new cred) (he : e.invocation = replies.length) :
    ∀ nr, (replies ++ [cred])[nr]? = some none → ∀ position < handlers,
      ∃ call ∈ calls ++ new, call.position = position ∧ call.cred = none ∧
        call.e.invocation ≤ nr := by
  intro nr hreply position hposition
  by_cases hlt : nr < replies.length
  · rw [List.getElem?_append_left hlt] at hreply
    obtain ⟨call, hcall, hspec⟩ := h.exhausted nr hreply position hposition
    exact ⟨call, List.mem_append_left _ hcall, hspec⟩
  · rw [List.getElem?_append_right (Nat.le_of_not_lt hlt), List.getElem?_singleton] at hreply
    split at hreply
    · obtain rfl := Option.some.inj hreply
      rw [← hround.last_of_none] at hposition
      obtain ⟨call, hcall, hat, hdeclined⟩ := passed_round h hround position hposition
      have hnr := (behind_round h hround he call hcall).1
      rw [List.length_append, List.length_singleton] at hnr
      exact ⟨call, hcall, hat, hdeclined, by omega⟩
    · cases hreply

theorem restarts_round (h : Standing handlers replies first calls)
    (hround : Round handlers e first last new cred) (hhandlers : 0 < handlers) :
    (calls ++ new).head?.map (·.position) = some 0 := by
  cases hreplies : replies with
  | nil =>
    have hcalls : calls = [] := by
      apply List.eq_nil_iff_forall_not_mem.mpr
      intro call hcall
      have hnone := (h.behind call hcall).1
      rw [hreplies] at hnone
      cases hnone
    have hfirst := h.fresh hreplies
    rw [hcalls, List.nil_append, hround.head (by omega), hfirst]
  | cons reply replies =>
    have hold := h.restarts hhandlers (by rw [hreplies]; exact Nat.succ_pos _)
    cases hcalls : calls with
    | nil =>
      rw [hcalls] at hold
      cases hold
    | cons call calls =>
      rw [hcalls] at hold
      exact hold

/-- A round at the next request keeps the guarantees. -/
theorem round (h : Standing handlers replies first calls)
    (hround : Round handlers e first last new cred) (he : e.invocation = replies.length) :
    Standing handlers (replies ++ [cred]) last (calls ++ new) where
  registered call hcall := by
    cases List.mem_append.mp hcall with
    | inl hold => exact h.registered call hold
    | inr hnew => exact hround.registered call hnew
  nondecreasing := by
    apply List.pairwise_append.mpr
    refine ⟨h.nondecreasing, hround.pairwise.imp Nat.le_of_lt, ?_⟩
    intro call hcall later hlater
    exact (before_round h hround hcall hlater).1
  notAgain := by
    apply List.pairwise_append.mpr
    refine ⟨h.notAgain, ?_, ?_⟩
    · apply hround.pairwise.imp
      intro call later hlt _
      exact Nat.ne_of_gt hlt
    · intro call hcall later hlater
      exact (before_round h hround hcall hlater).2
  resumes := resumes_round h hround he
  answered := answered_round h hround he
  exhausted := exhausted_round h hround he
  restarts hhandlers _ := restarts_round h hround hhandlers
  bounded := hround.last_le
  fresh hnone := by
    cases List.append_ne_nil_of_right_ne_nil _ (List.cons_ne_nil _ _) hnone
  behind := behind_round h hround he
  passed := passed_round h hround
  supplier call hcall hcred hnr := by
    rw [List.length_append, List.length_singleton] at hnr
    cases List.mem_append.mp hcall with
    | inl hold =>
      have hlt := (h.behind call hold).1
      omega
    | inr hnew =>
      exact ⟨(hround.placed call hnew).2.2.2 hcred, hround.lt_of_supplied call hnew hcred⟩

end Standing

end Rounds

section Operation

variable {Handler Exn η : Type} (decision : Decision Handler η)

/-- The handlers that are left, asked in order, make a round. -/
theorem consult_round (e : GitCredentialEventArgs) (handlers : List Handler)
    (client : Client (Handler × Nat) (η × List Call)) :
    ∃ cred calls client', (Client.consult (@recorded _ Exn _ decision) e
        (handlers.zipIdx client.nextCredentialHandler)).run client = (.ok cred, client') ∧
      client'.credentialHandlers = client.credentialHandlers ∧ client'.authNr = client.authNr ∧
      client'.world.2 = client.world.2 ++ calls ∧
      Round (client.nextCredentialHandler + handlers.length) e client.nextCredentialHandler
        client'.nextCredentialHandler calls cred := by
  induction handlers generalizing client with
  | nil => exact ⟨none, [], client, rfl, rfl, rfl, (List.append_nil _).symm, .exhausted⟩
  | cons handler handlers ih =>
    have hregistered : client.nextCredentialHandler <
        client.nextCredentialHandler + (handler :: handlers).length := by
      simp
    rw [List.zipIdx_cons, Client.consult, Action.run_bind_ok rfl]
    cases hcred : (decision handler e client.world.1).1 with
    | some cred =>
      refine ⟨some cred, [⟨client.nextCredentialHandler, e, some cred⟩], _, rfl, rfl, rfl, ?_, ?_⟩
      · exact rfl
      · exact .supplied cred hregistered
    | none =>
      rw [Action.run_bind_ok rfl]
      obtain ⟨cred, calls, client', hrun, hhandlers, hnr, hcalls, hround⟩ := ih
        { client with
          world := ((decision handler e client.world.1).2,
            client.world.2 ++ [⟨client.nextCredentialHandler, e, none⟩])
          consulted := client.consulted ++ [((handler, client.nextCredentialHandler), e)]
          nextCredentialHandler := client.nextCredentialHandler + 1 }
      refine ⟨cred, ⟨client.nextCredentialHandler, e, none⟩ :: calls, client', hrun, hhandlers,
        hnr, ?_, ?_⟩
      · rw [hcalls, List.append_assoc, List.singleton_append]
      · apply Round.declined hregistered
        rw [List.length_cons, ← Nat.add_assoc, Nat.add_right_comm]
        exact hround

theorem zipIdx_drop (handlers : List Handler) {position : Nat} (h : position ≤ handlers.length) :
    handlers.zipIdx.drop position = (handlers.drop position).zipIdx position := by
  have hsplit := @List.zipIdx_append _ (handlers.take position) (handlers.drop position) 0
  rw [List.take_append_drop, List.length_take, Nat.min_eq_left h, Nat.zero_add] at hsplit
  rw [hsplit]
  apply List.drop_left'
  rw [List.length_zipIdx, List.length_take, Nat.min_eq_left h]

/-- `OnCredential` makes a round, from the first handler if it is the first request. -/
theorem onCredential_round (e : GitCredentialEventArgs) (handlers : List Handler)
    (client : Client (Handler × Nat) (η × List Call))
    (hhandlers : client.credentialHandlers = handlers.zipIdx) {first : Nat}
    (hfirst : first = if e.invocation = 0 then 0 else client.nextCredentialHandler)
    (hle : first ≤ handlers.length) :
    ∃ cred calls client', (Client.onCredential (@recorded _ Exn _ decision) e).run client =
        (.ok cred, client') ∧
      client'.credentialHandlers = handlers.zipIdx ∧ client'.authNr = client.authNr ∧
      client'.world.2 = client.world.2 ++ calls ∧
      Round handlers.length e first client'.nextCredentialHandler calls cred := by
  have hrestart : Client.restart e client = { client with nextCredentialHandler := first } := by
    rw [Client.restart, hfirst]
    split <;> rfl
  have hlength : first + (handlers.drop first).length = handlers.length := by
    rw [List.length_drop]
    omega
  obtain ⟨cred, calls, client', hrun, hsame, hnr, hcalls, hround⟩ := @consult_round _ Exn _
    decision e (handlers.drop first) { client with nextCredentialHandler := first }
  rw [hlength] at hround
  have hdrop : client.credentialHandlers.drop first = (handlers.drop first).zipIdx first := by
    rw [hhandlers, zipIdx_drop handlers hle]
  refine ⟨cred, calls, client', ?_, hsame.trans hhandlers, hnr, hcalls, hround⟩
  rw [Client.onCredential, Action.run_bind_ok (Action.run_modify _ _), Action.get_bind, hrestart,
    hdrop]
  exact hrun

variable (checkUri : NetString → Except Exn Unit)

/-- The request has a URL of which `System.Uri` can be made. -/
def accepts (request : CredentialRequest) : Bool :=
  (checkUri (utf8PtrToString request.url)).isOk

/-- A request that is not accepted ends in an exception and calls no handler. -/
theorem answer_refused (invoke : Invoke Handler Exn η) {request : CredentialRequest} {exn : Exn}
    (h : checkUri (utf8PtrToString request.url) = .error exn)
    (now : CallbackState Exn (Client Handler η)) :
    (Client.answer checkUri invoke request).run now =
      (.error exn, { now with owner := { now.owner with authNr := now.owner.authNr + 1 } }) := by
  rw [Client.answer_run, Client.credentials_refused invoke h]
  rfl

/-- One that is accepted has a reply: 0 with a credential, or -1. -/
theorem answer_accepted (invoke : Invoke Handler Exn η) {request : CredentialRequest}
    (h : checkUri (utf8PtrToString request.url) = .ok ())
    (now : CallbackState Exn (Client Handler η)) {cred : Option GitCred} {client : Client Handler η}
    (hrun : (Client.onCredential invoke ⟨request, now.owner.authNr⟩).run
      { now.owner with authNr := now.owner.authNr + 1 } = (.ok cred, client)) :
    ∃ reply thread, (Client.answer checkUri invoke request).run now =
        (.ok (some reply), ⟨thread, client⟩) ∧ reply.cred = cred := by
  rw [Client.answer_run, Client.credentials]
  dsimp only
  rw [h]
  dsimp only
  rw [hrun]
  cases cred with
  | some cred => exact ⟨⟨0, some cred⟩, _, rfl, rfl⟩
  | none => exact ⟨⟨-1, none⟩, _, rfl, rfl⟩

theorem answer_isOk (invoke : Invoke Handler Exn η) (request : CredentialRequest)
    (now : CallbackState Exn (Client Handler η)) :
    ((Client.answer checkUri invoke request).run now).1.isOk = accepts checkUri request := by
  rw [accepts]
  cases hurl : checkUri (utf8PtrToString request.url) with
  | error exn =>
    rw [answer_refused checkUri invoke hurl]
    rfl
  | ok _ =>
    rw [Client.answer_run, Client.credentials]
    dsimp only
    rw [hurl]
    dsimp only
    split
    · rfl
    · rfl
    · rfl

/-- So does a credential request that is accepted, with the number of the request. -/
theorem answer_round (handlers : List Handler) {request : CredentialRequest}
    (h : checkUri (utf8PtrToString request.url) = .ok ())
    (now : CallbackState Exn (Client (Handler × Nat) (η × List Call)))
    (hhandlers : now.owner.credentialHandlers = handlers.zipIdx) {first : Nat}
    (hfirst : first = if now.owner.authNr = 0 then 0 else now.owner.nextCredentialHandler)
    (hle : first ≤ handlers.length) :
    ∃ reply thread calls client', (Client.answer checkUri (recorded decision) request).run now =
        (.ok (some reply), ⟨thread, client'⟩) ∧
      client'.credentialHandlers = handlers.zipIdx ∧
      client'.authNr = now.owner.authNr + 1 ∧
      client'.world.2 = now.owner.world.2 ++ calls ∧
      Round handlers.length ⟨request, now.owner.authNr⟩ first client'.nextCredentialHandler calls
        reply.cred := by
  obtain ⟨cred, calls, client', hrun, hsame, hnr, hcalls, hround⟩ := @onCredential_round _ Exn _
    decision ⟨request, now.owner.authNr⟩ handlers
    { now.owner with authNr := now.owner.authNr + 1 } hhandlers _ hfirst hle
  obtain ⟨reply, thread, hanswer, rfl⟩ := answer_accepted checkUri (recorded decision) h now hrun
  exact ⟨reply, thread, calls, client', hanswer, hsame, hnr, hcalls, hround⟩

/-- An operation that is asked for these credentials, with callbacks of its own: the replies, and
the exception that ends it. -/
def operation (invoke : Invoke Handler Exn η) (requests : List CredentialRequest)
    (now : CallbackState Exn (Client Handler η)) :
    List (Option CredentialReply) × Option Exn × CallbackState Exn (Client Handler η) :=
  let (callbacks, client) := (Client.getCallbacks checkUri invoke).getCallbacks now.owner
  Strategy.answers callbacks.answer requests { now with owner := client }

/-- Before each request of the operation: the guarantees hold of what has happened so far. -/
def Served (handlers : List Handler) (replies : List (Option CredentialReply))
    (now : CallbackState Exn (Client (Handler × Nat) (η × List Call))) : Prop :=
  now.owner.credentialHandlers = handlers.zipIdx ∧ now.owner.authNr = replies.length ∧
    Standing handlers.length (replies.map fun reply => reply.bind (·.cred))
      (if now.owner.authNr = 0 then 0 else now.owner.nextCredentialHandler) now.owner.world.2

variable {checkUri}

theorem Served.answer {handlers : List Handler} {replies : List (Option CredentialReply)}
    {now after : CallbackState Exn (Client (Handler × Nat) (η × List Call))}
    (h : Served handlers replies now) {request : CredentialRequest}
    {reply : Option CredentialReply}
    (hanswer : (Client.answer checkUri (recorded decision) request).run now = (.ok reply, after)) :
    Served handlers (replies ++ [reply]) after := by
  obtain ⟨hhandlers, hnr, hstanding⟩ := h
  cases hurl : checkUri (utf8PtrToString request.url) with
  | error exn =>
    rw [answer_refused checkUri _ hurl] at hanswer
    cases hanswer
  | ok _ =>
    obtain ⟨reply', thread, calls, client', hrun, hsame, hnext, hcalls, hround⟩ :=
      answer_round decision checkUri handlers hurl now hhandlers rfl hstanding.bounded
    rw [hrun] at hanswer
    cases hanswer
    have hnonzero : client'.authNr ≠ 0 := by
      rw [hnext]
      exact Nat.succ_ne_zero _
    refine ⟨hsame, ?_, ?_⟩
    · dsimp only
      rw [hnext, hnr, List.length_append, List.length_singleton]
    · dsimp only
      rw [if_neg hnonzero, hcalls, List.map_append, List.map_singleton]
      apply hstanding.round hround
      rw [List.length_map]
      exact hnr

/-- The guarantees at the end of an operation. -/
def Ordered (handlers : Nat) (replies : List (Option CredentialReply))
    (now : CallbackState Exn (Client (Handler × Nat) (η × List Call))) : Prop :=
  CredentialOrder handlers (replies.map fun reply => reply.bind (·.cred)) now.owner.world.2

/-- An exception leaves the calls as they are. -/
theorem Served.raised {handlers : List Handler} {replies : List (Option CredentialReply)}
    {now after : CallbackState Exn (Client (Handler × Nat) (η × List Call))}
    (h : Served handlers replies now) {request : CredentialRequest} {exn : Exn}
    (hanswer : (Client.answer checkUri (recorded decision) request).run now =
      (.error exn, after)) : Ordered handlers.length replies after := by
  have hok := answer_isOk checkUri (recorded decision) request now
  rw [hanswer] at hok
  cases hurl : checkUri (utf8PtrToString request.url) with
  | error exn' =>
    rw [answer_refused checkUri _ hurl] at hanswer
    cases hanswer
    exact h.2.2.toCredentialOrder
  | ok _ =>
    rw [accepts, hurl] at hok
    cases hok

end Operation

end SharpGit.GitClient
