import SharpGit.Implementation.GitBase
import SharpGit.Library.Strategy

namespace SharpGit.Plumbing

open Library Native Implementation

/-- The credentials that `GitCredentialEventArgs` can be given. -/
inductive GitCred
  | userPassPlaintext (username password : CStr)
  | username (username : CStr)
  | default
  deriving DecidableEq, Repr

structure CredentialRequest where
  url : CStr
  usernameFromUrl : CStr
  allowedTypes : Nat
  deriving DecidableEq, Repr

structure CredentialReply where
  r : Int
  cred : Option GitCred
  deriving DecidableEq, Repr

/-- What a callback can change: its thread and the object that has installed it. -/
structure CallbackState (Exn C : Type) where
  thread : Thread Exn
  owner : C

/-- `git_remote_callbacks`, as far as credentials go. What the callback raises passes through
libgit2. -/
structure RemoteCallbacks (Exn C : Type) where
  credentials : Option (CredentialRequest → Action (CallbackState Exn C) Exn CredentialReply)

/-- The callbacks that the `git_*_init_options` leave. -/
def unsetCallbacks {Exn C : Type} : RemoteCallbacks Exn C where
  credentials := none

structure IHasRemoteCallbacks (Exn C : Type) where
  getCallbacks : C → RemoteCallbacks Exn C × C

structure GitFetchOptions (Exn C : Type) where
  callbacks : RemoteCallbacks Exn C

structure GitPushOptions (Exn C : Type) where
  pbParallelism : Nat
  callbacks : RemoteCallbacks Exn C

/-- How an attempt ends: where `r` is not 0 it may set an error. The remote is then in state
`next`. -/
structure TransportEnd (σ : Type) where
  r : Int
  error : Option NativeError
  next : σ

/-- One attempt seen from the remote. A question without a callback is answered by none. -/
abbrev Transport (σ : Type) := Strategy CredentialRequest (Option CredentialReply) (TransportEnd σ)

structure GitRemote (Exn C σ : Type) extends CallbackState Exn C where
  transport : σ
  connected : Bool

/-- How `Fetch` and `Push` raise. -/
inductive RemoteException (Exn : Type)
  | git (e : GitException Exn)
  /-- `giterr_last()` is NULL. -/
  | nullReference
  /-- What a callback has raised. -/
  | callback (e : Exn)
  deriving DecidableEq, Repr

section Remote

variable {Exn C σ : Type}

def GitFetchArgs.allocOptions : GitFetchOptions Exn C where
  callbacks := unsetCallbacks

def GitPushArgs.allocOptions : GitPushOptions Exn C where
  pbParallelism := 0
  callbacks := unsetCallbacks

def GitRemote.onThread (remote : GitRemote Exn C σ) (f : Thread Exn → Thread Exn) :
    GitRemote Exn C σ :=
  { remote with thread := f remote.thread }

def RemoteCallbacks.answer (callbacks : RemoteCallbacks Exn C) (request : CredentialRequest) :
    Action (CallbackState Exn C) Exn (Option CredentialReply) :=
  match callbacks.credentials with
  | none => return none
  | some credentials => do
    let reply ← credentials request
    return some reply

/-- One attempt of the remote with these callbacks. -/
def transfer (connect : List CStr → σ → Transport σ) (specs : List CStr)
    (callbacks : RemoteCallbacks Exn C) (remote : GitRemote Exn C σ) :
    Except Exn Int × GitRemote Exn C σ :=
  match ((connect specs remote.transport).run callbacks.answer).run remote.toCallbackState with
  | (.error exn, now) => (.error exn, { remote with toCallbackState := now })
  | (.ok done, now) =>
    (.ok done.r,
      { owner := now.owner
        thread := if done.r ≠ 0 then done.error.elim now.thread now.thread.setError else now.thread
        transport := done.next
        connected := remote.connected })

def gitRemoteFetch (connect : List CStr → σ → Transport σ) (specs : List CStr)
    (options : GitFetchOptions Exn C) : GitRemote Exn C σ → Except Exn Int × GitRemote Exn C σ :=
  transfer connect specs options.callbacks

def gitRemotePush (connect : List CStr → σ → Transport σ) (specs : List CStr)
    (options : GitPushOptions Exn C) : GitRemote Exn C σ → Except Exn Int × GitRemote Exn C σ :=
  transfer connect specs options.callbacks

/-- The `git_strarray` of the refspecs, empty where there are none. -/
def allocRefSpecs (refspecs : Option (List NetString)) : List CStr :=
  match refspecs with
  | none => []
  | some refspecs => refspecs.map utf8GetBytes

namespace GitRemote

/-- `r` and the remote in the loop of an operation, or what the operation raises there. -/
abbrev Loop (Exn C σ : Type) := Except (RemoteException Exn) Int × GitRemote Exn C σ

/-- Behind the call into libgit2: where `r` is not 0, `giterr_last()->klass` is read. -/
def readError : Except Exn Int × GitRemote Exn C σ → Loop Exn C σ
  | (.error exn, remote) => (.error (.callback exn), remote)
  | (.ok r, remote) =>
    if r ≠ 0 ∧ remote.thread.lastError = none then (.error .nullReference, remote)
    else (.ok r, remote)

/-- The body of both loops, up to the `switch`. -/
def attempt (call : GitRemote Exn C σ → Except Exn Int × GitRemote Exn C σ) :
    Loop Exn C σ → Loop Exn C σ
  | (.error e, remote) => (.error e, remote)
  | (.ok r, remote) =>
    let remote := if r ≠ 0 then remote.onThread .clearError else remote
    readError (call (remote.onThread .clearAuth))

/-- The classes for which `continue` leads out of the `switch`. -/
def retriedClass : GitError → Bool
  | .network => true
  | .ssh => true
  | .secureSockets => true
  | _ => false

def again : Loop Exn C σ → Bool
  | (.error _, _) => false
  | (.ok r, remote) =>
    r ≠ 0 && remote.thread.lastError.any (retriedClass ·.klass) && remote.thread.continues

def maxAttempts : Nat := 15

/-- The `do` loop, from `r = 0` and a new `GitAuthContext`. -/
def attempts (call : GitRemote Exn C σ → Except Exn Int × GitRemote Exn C σ)
    (remote : GitRemote Exn C σ) : Loop Exn C σ :=
  retry (attempt call) again (maxAttempts - 1) (.ok 0, remote.onThread .enterAuth)

/-- `HandleGitError`, unless the loop has raised, and the destructor of the `GitAuthContext`. -/
def handled : Loop Exn C σ → Except (RemoteException Exn) Bool × GitRemote Exn C σ
  | (.error e, remote) => (.error e, remote.onThread .leaveAuth)
  | (.ok r, remote) =>
    let (result, thread) := remote.thread.handleGitError r
    (result.mapError .git, { remote with thread := thread.leaveAuth })

/-- `GitRemote::Fetch`. The callbacks that it is given are not used. -/
def fetch (connect : List CStr → σ → Transport σ) (refspecs : Option (List NetString))
    (_cb : IHasRemoteCallbacks Exn C) (remote : GitRemote Exn C σ) :
    Except (RemoteException Exn) Bool × GitRemote Exn C σ :=
  let specs := allocRefSpecs refspecs
  let call := gitRemoteFetch connect specs GitFetchArgs.allocOptions
  match attempts call remote with
  | (.error e, remote) => handled (.error e, remote)
  | (.ok r, remote) => handled (.ok r, { remote with connected := true })

/-- `GitRemote::Push`. -/
def push (connect : List CStr → σ → Transport σ) (refspecs : Option (List NetString))
    (cb : IHasRemoteCallbacks Exn C) (remote : GitRemote Exn C σ) :
    Except (RemoteException Exn) Bool × GitRemote Exn C σ :=
  let specs := allocRefSpecs refspecs
  let options : GitPushOptions Exn C := GitPushArgs.allocOptions
  let (callbacks, owner) := cb.getCallbacks remote.owner
  let options := { options with callbacks := callbacks }
  let call := gitRemotePush connect specs options
  handled (attempts call { remote with owner := owner })

variable {connect : List CStr → σ → Transport σ} {specs : List CStr}
  {callbacks : RemoteCallbacks Exn C}

theorem readError_owner (run : Except Exn Int × GitRemote Exn C σ) :
    (readError run).2.owner = run.2.owner := by
  obtain ⟨r, remote⟩ := run
  cases r with
  | error exn => rfl
  | ok r =>
    rw [readError]
    split <;> rfl

theorem handled_owner (run : Loop Exn C σ) : (handled run).2.owner = run.2.owner := by
  obtain ⟨r, remote⟩ := run
  cases r with
  | error e => rfl
  | ok r => rfl

theorem transfer_ok {remote : GitRemote Exn C σ} {done : TransportEnd σ}
    {now : CallbackState Exn C}
    (h : ((connect specs remote.transport).run callbacks.answer).run remote.toCallbackState =
      (.ok done, now)) :
    transfer connect specs callbacks remote = (.ok done.r,
      { owner := now.owner
        thread := if done.r ≠ 0 then done.error.elim now.thread now.thread.setError else now.thread
        transport := done.next
        connected := remote.connected }) := by
  rw [transfer, h]

theorem transfer_error {remote : GitRemote Exn C σ} {exn : Exn} {now : CallbackState Exn C}
    (h : ((connect specs remote.transport).run callbacks.answer).run remote.toCallbackState =
      (.error exn, now)) :
    transfer connect specs callbacks remote =
      (.error exn, { remote with toCallbackState := now }) := by
  rw [transfer, h]

theorem transfer_owner (remote : GitRemote Exn C σ) :
    (transfer connect specs callbacks remote).2.owner =
      (((connect specs remote.transport).run callbacks.answer).run
        remote.toCallbackState).2.owner := by
  cases h : ((connect specs remote.transport).run callbacks.answer).run remote.toCallbackState with
  | mk result now =>
    cases result with
    | ok done => rw [transfer_ok h]
    | error exn => rw [transfer_error h]

/-- What each credential request preserves of the owner, an attempt preserves. -/
theorem attempt_owner (P : C → Prop)
    (hanswer : ∀ request now, P now.owner → P ((callbacks.answer request).run now).2.owner)
    (run : Loop Exn C σ) (h : P run.2.owner) :
    P (attempt (transfer connect specs callbacks) run).2.owner := by
  obtain ⟨r, remote⟩ := run
  cases r with
  | error e => exact h
  | ok r =>
    rw [attempt, readError_owner, transfer_owner]
    apply Strategy.run_invariant (fun now : CallbackState Exn C => P now.owner) hanswer
    split
    · exact h
    · exact h

/-- The first attempt leaves the owner to the credential requests. -/
theorem attempt_first (remote : GitRemote Exn C σ) :
    (attempt (transfer connect specs callbacks) (.ok 0, remote.onThread .enterAuth)).2.owner =
      (((connect specs remote.transport).run callbacks.answer).run
        ⟨remote.thread.enterAuth.clearAuth, remote.owner⟩).2.owner := by
  rw [attempt, readError_owner, transfer_owner]
  rfl

/-- What the first attempt establishes and each request preserves holds after all attempts. -/
theorem attempts_owner (P : C → Prop)
    (hanswer : ∀ request now, P now.owner → P ((callbacks.answer request).run now).2.owner)
    (remote : GitRemote Exn C σ)
    (h : P (((connect specs remote.transport).run callbacks.answer).run
      ⟨remote.thread.enterAuth.clearAuth, remote.owner⟩).2.owner) :
    P (attempts (transfer connect specs callbacks) remote).2.owner := by
  rw [← attempt_first] at h
  exact retry_of_first (fun run : Loop Exn C σ => P run.2.owner)
    (fun run hrun => attempt_owner P hanswer run hrun) _ h

/-- `Fetch` never reaches the owner of the callbacks. -/
theorem fetch_owner (refspecs : Option (List NetString)) (cb : IHasRemoteCallbacks Exn C)
    (remote : GitRemote Exn C σ) :
    (remote.fetch connect refspecs cb).2.owner = remote.owner := by
  have hloop : (attempts (gitRemoteFetch connect (allocRefSpecs refspecs)
      GitFetchArgs.allocOptions) remote).2.owner = remote.owner := by
    apply attempts_owner (· = remote.owner)
    · intro request now h
      exact h
    · apply Strategy.run_invariant (fun now : CallbackState Exn C => now.owner = remote.owner)
      · intro request now h
        exact h
      · rfl
  rw [fetch]
  split
  · rename_i h
    rw [h] at hloop
    exact hloop
  · rename_i h
    rw [h] at hloop
    exact hloop

theorem readError_again {run : Except Exn Int × GitRemote Exn C σ}
    (h : run.2.thread.continues = false) : again (readError run) = false := by
  obtain ⟨r, remote⟩ := run
  cases r with
  | error exn => rfl
  | ok r =>
    rw [readError]
    split
    · rfl
    · rw [again, h, Bool.and_false]

/-- Where the first attempt is the last one, only its requests reach the owner. -/
theorem attempts_of_one {remote : GitRemote Exn C σ}
    (h : again (readError (transfer connect specs callbacks
      ((remote.onThread .enterAuth).onThread .clearAuth))) = false) :
    (attempts (transfer connect specs callbacks) remote).2.owner =
      (((connect specs remote.transport).run callbacks.answer).run
        ⟨remote.thread.enterAuth.clearAuth, remote.owner⟩).2.owner := by
  rw [attempts, retry_stop h, attempt_first]

/-- Only a credential that is supplied makes the context go on. -/
theorem attempts_of_no_question {remote : GitRemote Exn C σ}
    (h : (connect specs remote.transport).first? = none) :
    (attempts (transfer connect specs callbacks) remote).2.owner = remote.owner := by
  obtain ⟨done, hrun⟩ := Strategy.run_of_no_question callbacks.answer h
    ⟨remote.thread.enterAuth.clearAuth, remote.owner⟩
  rw [attempts_of_one, hrun]
  apply readError_again
  rw [transfer_ok hrun]
  dsimp only
  have hclear := Thread.clearAuth_continues remote.thread.enterAuth
  split
  · cases done.error with
    | none => exact hclear
    | some error => exact hclear
  · exact hclear

/-- An attempt that raises is the last one. -/
theorem attempts_of_no_answer {remote : GitRemote Exn C σ} {request : CredentialRequest}
    (h : (connect specs remote.transport).first? = some request) {exn : Exn}
    {now : CallbackState Exn C}
    (hanswer : (callbacks.answer request).run ⟨remote.thread.enterAuth.clearAuth, remote.owner⟩ =
      (.error exn, now)) :
    (attempts (transfer connect specs callbacks) remote).2.owner = now.owner := by
  have hrun := Strategy.run_of_no_answer h hanswer
  rw [attempts_of_one, hrun]
  rw [transfer_error hrun, readError, again]

section Push

variable (refspecs : Option (List NetString)) (cb : IHasRemoteCallbacks Exn C)
  (remote : GitRemote Exn C σ)

/-- What the first attempt of `Push` establishes and each request preserves, holds after it. -/
theorem push_owner (P : C → Prop)
    (hanswer : ∀ request now, P now.owner →
      P (((cb.getCallbacks remote.owner).1.answer request).run now).2.owner)
    (h : P (((connect (allocRefSpecs refspecs) remote.transport).run
      (cb.getCallbacks remote.owner).1.answer).run
      ⟨remote.thread.enterAuth.clearAuth, (cb.getCallbacks remote.owner).2⟩).2.owner) :
    P (remote.push connect refspecs cb).2.owner := by
  rw [push, handled_owner]
  exact attempts_owner P hanswer { remote with owner := (cb.getCallbacks remote.owner).2 } h

theorem push_of_no_question
    (h : (connect (allocRefSpecs refspecs) remote.transport).first? = none) :
    (remote.push connect refspecs cb).2.owner = (cb.getCallbacks remote.owner).2 := by
  rw [push, handled_owner]
  exact @attempts_of_no_question _ _ _ connect _ (cb.getCallbacks remote.owner).1
    { remote with owner := (cb.getCallbacks remote.owner).2 } h

theorem push_of_no_answer {request : CredentialRequest}
    (h : (connect (allocRefSpecs refspecs) remote.transport).first? = some request) {exn : Exn}
    {now : CallbackState Exn C}
    (hanswer : ((cb.getCallbacks remote.owner).1.answer request).run
      ⟨remote.thread.enterAuth.clearAuth, (cb.getCallbacks remote.owner).2⟩ = (.error exn, now)) :
    (remote.push connect refspecs cb).2.owner = now.owner := by
  rw [push, handled_owner]
  exact @attempts_of_no_answer _ _ _ connect _ (cb.getCallbacks remote.owner).1
    { remote with owner := (cb.getCallbacks remote.owner).2 } request h exn now hanswer

end Push

end GitRemote

end Remote

end SharpGit.Plumbing
