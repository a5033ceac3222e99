import SharpGit.GitClient.GitClient

namespace SharpGit.GitClient

open Library Native Implementation Plumbing

/-- What an attempt does to its thread before it ends, callback after callback. -/
inductive Attempt (Exn : Type)
  /-- libgit2 returns `r`; where it is not 0 it may have set an error. -/
  | ended (r : Int) (error : Option NativeError)
  /-- A callback raises outside of its `try`, and libgit2 does not return. -/
  | escaped (exn : Exn)
  | callback (raised : Option Exn) (next : Attempt Exn)
  /-- The credentials callback: whether it is given a credential, or its exception. -/
  | credentials (reply : Except Exn Bool) (next : Attempt Exn)
  /-- A callback runs an operation with these attempts. -/
  | operation (attempts : Nat → Attempt Exn) (next : Attempt Exn)

section Attempts

variable {Exn : Type}

/-- One call into libgit2. -/
abbrev ThreadRun (Exn : Type) := Thread Exn → Except Exn Int × Thread Exn

/-- Attempt after attempt of this run, counted by the remote. -/
def nextAttempt (run : Nat → ThreadRun Exn) (remote : GitRemote Exn Unit Nat) :
    Except Exn Int × GitRemote Exn Unit Nat :=
  let (r, thread) := run remote.transport remote.thread
  (r, { remote with thread := thread, transport := remote.transport + 1 })

/-- `r` and the remote before `HandleGitError`, or what the loop raises. -/
def attemptsOn (run : Nat → ThreadRun Exn) (thread : Thread Exn) : GitRemote.Loop Exn Unit Nat :=
  GitRemote.attempts (nextAttempt run) ⟨⟨thread, ()⟩, 0, false⟩

def operationOn (run : Nat → ThreadRun Exn) (thread : Thread Exn) :
    Except (RemoteException Exn) Bool × Thread Exn :=
  let (result, remote) := GitRemote.handled (attemptsOn run thread)
  (result, remote.thread)

/-- `remote_baton_t::credentials`, once the handlers have been asked. -/
def credentialsReply (thread : Thread Exn) : Except Exn Bool → Thread Exn
  | .ok true => thread.attempt
  | .ok false => thread.setError Client.noCredentialsError
  | .error exn => thread.wrapError exn

namespace Attempt

def perform : Attempt Exn → ThreadRun Exn
  | ended r error, thread => (.ok r, if r ≠ 0 then error.elim thread thread.setError else thread)
  | escaped exn, thread => (.error exn, thread)
  | callback raised next, thread => next.perform (raised.elim thread thread.wrapError)
  | credentials reply next, thread => next.perform (credentialsReply thread reply)
  | operation attempts next, thread =>
    next.perform (operationOn (fun k => (attempts k).perform) thread).2

end Attempt

/-- `GitRemote::Push` with these attempts, up to `HandleGitError`. -/
def pushAttempts (script : Nat → Attempt Exn) (thread : Thread Exn) :
    GitRemote.Loop Exn Unit Nat :=
  attemptsOn (fun k => (script k).perform) thread

def push (script : Nat → Attempt Exn) (thread : Thread Exn) :
    Except (RemoteException Exn) Bool × Thread Exn :=
  operationOn (fun k => (script k).perform) thread

/-- What is stored as the exception of the thread. -/
inductive Stored (Exn : Type)
  /-- A callback of the attempt has raised it. -/
  | raised (exn : Exn)
  /-- An operation that a callback runs has left it. -/
  | left (exception : Option Exn)

def Stored.exception : Stored Exn → Option Exn
  | raised exn => some exn
  | left exception => exception

/-- The exception of the callbacks themselves. -/
def Stored.own : Stored Exn → Option Exn
  | raised exn => some exn
  | left _ => none

/-- The exception of the thread behind all that is stored. -/
def settled (stores : List (Stored Exn)) (before : Option Exn) : Option Exn :=
  (stores.getLast?.map Stored.exception).getD before

/-- An attempt as the operation that makes it sees it: the result code or the exception that passes
through libgit2, the error of libgit2 then, whether a credential has been supplied to the attempt
itself, and what has been stored. -/
structure Outcome (Exn : Type) where
  r : Except Exn Int
  error : Option NativeError
  supplied : Bool
  stores : List (Stored Exn)

namespace Outcome

/-- The attempt fails in a way that a credential may mend, and has been supplied one. -/
def retried (outcome : Outcome Exn) : Bool :=
  match outcome.r with
  | .error _ => false
  | .ok r => r ≠ 0 && outcome.error.any (GitRemote.retriedClass ·.klass) && outcome.supplied

/-- What the loop makes of it: a failure without an error of libgit2 is read through NULL. -/
def ends (outcome : Outcome Exn) : Except (RemoteException Exn) Int :=
  match outcome.r with
  | .error exn => .error (.callback exn)
  | .ok r => if r ≠ 0 ∧ outcome.error = none then .error .nullReference else .ok r

/-- The exception that a callback of the attempt has stored last. -/
def lastRaised (outcome : Outcome Exn) : Option Exn :=
  (outcome.stores.filterMap Stored.own).getLast?

def storing (stored : Option (Stored Exn)) (outcome : Outcome Exn) : Outcome Exn :=
  { outcome with stores := stored.toList ++ outcome.stores }

end Outcome

section Operation

-- The outcome of each attempt, if it starts with this error of libgit2.
variable (outcomes : Nat → Option NativeError → Outcome Exn) (error : Option NativeError)

/-- From the second attempt on the error of libgit2 has been cleared. -/
def outcomeOf (k : Nat) : Outcome Exn := outcomes k (if k = 0 then error else none)

/-- The last attempt that is made: the first that is not retried, but at most the 15th. -/
def finalAttempt : Nat :=
  stopIndex (fun k => (outcomeOf outcomes error k).retried) (GitRemote.maxAttempts - 1)

/-- What is stored by the attempts before attempt `k`. -/
def storedBefore (k : Nat) : List (Stored Exn) :=
  (List.range k).flatMap fun j => (outcomeOf outcomes error j).stores

/-- The error of libgit2, and what the operation around this one finds stored. -/
def leftBehind : Option NativeError × Option (Stored Exn) :=
  match (outcomeOf outcomes error (finalAttempt outcomes error)).ends with
  | .ok _ => (none, some (.left none))
  | .error _ => ((outcomeOf outcomes error (finalAttempt outcomes error)).error,
      (storedBefore outcomes error (finalAttempt outcomes error + 1)).getLast?.map
        fun stored => .left stored.exception)

end Operation

/-- The outcome of an attempt that starts with this error of libgit2. -/
def Attempt.outcome : Attempt Exn → Option NativeError → Outcome Exn
  | ended r own, error => ⟨.ok r, if r ≠ 0 then own.or error else error, false, []⟩
  | escaped exn, error => ⟨.error exn, error, false, []⟩
  | callback raised next, error => (next.outcome error).storing (raised.map .raised)
  | credentials (.ok true) next, error => { next.outcome error with supplied := true }
  | credentials (.ok false) next, _ => next.outcome (some Client.noCredentialsError)
  | credentials (.error exn) next, error => (next.outcome error).storing (some (.raised exn))
  | operation attempts next, error =>
    (next.outcome (leftBehind (fun k => (attempts k).outcome) error).1).storing
      (leftBehind (fun k => (attempts k).outcome) error).2

theorem settled_append (front back : List (Stored Exn)) (before : Option Exn) :
    settled (front ++ back) before = settled back (settled front before) := by
  rw [settled, settled, settled, List.getLast?_append]
  cases back.getLast? with
  | none => rfl
  | some stored => rfl

/-- What a run does to its thread. -/
structure Yields (outcome : Outcome Exn) (thread : Thread Exn) (flag : Bool) (outer : List Bool)
    (result : Except Exn Int × Thread Exn) : Prop where
  r : result.1 = outcome.r
  lastError : result.2.lastError = outcome.error
  contexts : result.2.contexts = (flag || outcome.supplied) :: outer
  exception : result.2.exception = settled outcome.stores thread.exception

/-- In an operation of its own, the run has these outcomes. -/
def Follows (run : ThreadRun Exn) (outcome : Option NativeError → Outcome Exn) : Prop :=
  ∀ thread flag outer, thread.contexts = flag :: outer →
    Yields (outcome thread.lastError) thread flag outer (run thread)

/-- What is stored before the rest of an attempt. -/
theorem Yields.storing {outcome : Outcome Exn} {thread before : Thread Exn} {flag : Bool}
    {outer : List Bool} {result : Except Exn Int × Thread Exn}
    (h : Yields outcome thread flag outer result) {stored : Option (Stored Exn)}
    (hstored : thread.exception = settled stored.toList before.exception) :
    Yields (outcome.storing stored) before flag outer result where
  r := h.r
  lastError := h.lastError
  contexts := h.contexts
  exception := by
    rw [h.exception, hstored, Outcome.storing, settled_append]

section Loop

variable {run : Nat → ThreadRun Exn} {outcomes : Nat → Option NativeError → Outcome Exn}
  {thread : Thread Exn}

/-- The thread as an attempt finds it, after the result of the attempt before. -/
def cleared (r : Int) (thread : Thread Exn) : Thread Exn :=
  (if r ≠ 0 then thread.clearError else thread).clearAuth

theorem cleared_spec (r : Int) {thread : Thread Exn} {flag : Bool} {outer : List Bool}
    (h : thread.contexts = flag :: outer) :
    (cleared r thread).contexts = false :: outer ∧
      (cleared r thread).exception = thread.exception ∧
      (cleared r thread).lastError = if r ≠ 0 then none else thread.lastError := by
  rw [cleared]
  split
  · have hcontexts : thread.clearError.contexts = flag :: outer := h
    rw [Thread.clearAuth, hcontexts]
    exact ⟨rfl, rfl, rfl⟩
  · rw [Thread.clearAuth, h]
    exact ⟨rfl, rfl, rfl⟩

theorem attempt_eq {C σ : Type} (call : GitRemote Exn C σ → Except Exn Int × GitRemote Exn C σ)
    (r : Int) (remote : GitRemote Exn C σ) :
    GitRemote.attempt call (.ok r, remote) =
      GitRemote.readError (call (remote.onThread (cleared r))) := by
  rw [GitRemote.attempt]
  by_cases hr : r ≠ 0
  · have hcleared : cleared r = fun thread : Thread Exn => thread.clearError.clearAuth := by
      funext thread
      rw [cleared, if_pos hr]
    rw [if_pos hr, hcleared]
    rfl
  · have hcleared : cleared r = (Thread.clearAuth : Thread Exn → Thread Exn) := by
      funext thread
      rw [cleared, if_neg hr]
    rw [if_neg hr, hcleared]

theorem readError_eq {outcome : Outcome Exn} {result : Except Exn Int}
    {remote : GitRemote Exn Unit Nat} (hr : result = outcome.r)
    (hlastError : remote.thread.lastError = outcome.error) :
    GitRemote.readError (result, remote) = (outcome.ends, remote) := by
  subst hr
  rw [Outcome.ends]
  cases outcome.r with
  | error exn => rfl
  | ok r =>
    rw [GitRemote.readError, hlastError]
    dsimp only
    split
    · rfl
    · rfl

/-- The loop after attempt `k`. -/
structure After (outcomes : Nat → Option NativeError → Outcome Exn) (thread : Thread Exn) (k : Nat)
    (s : GitRemote.Loop Exn Unit Nat) : Prop where
  made : s.2.transport = k + 1
  ends : s.1 = (outcomeOf outcomes thread.lastError k).ends
  lastError : s.2.thread.lastError = (outcomeOf outcomes thread.lastError k).error
  contexts : s.2.thread.contexts =
    (outcomeOf outcomes thread.lastError k).supplied :: thread.contexts
  exception : s.2.thread.exception =
    settled (storedBefore outcomes thread.lastError (k + 1)) thread.exception

theorem storedBefore_succ (error : Option NativeError) (k : Nat) :
    storedBefore outcomes error (k + 1) =
      storedBefore outcomes error k ++ (outcomeOf outcomes error k).stores := by
  rw [storedBefore, List.range_succ, List.flatMap_append, List.flatMap_singleton, storedBefore]

/-- A round depends on the rounds before only in the exception that is stored. -/
theorem after_round (hrun : ∀ k, Follows (run k) (outcomes k)) {k : Nat} {r : Int}
    {remote : GitRemote Exn Unit Nat} {flag : Bool} (hmade : remote.transport = k)
    (hcontexts : remote.thread.contexts = flag :: thread.contexts)
    (herror : (if r ≠ 0 then none else remote.thread.lastError) =
      if k = 0 then thread.lastError else none)
    (hexception : remote.thread.exception =
      settled (storedBefore outcomes thread.lastError k) thread.exception) :
    After outcomes thread k (GitRemote.attempt (nextAttempt run) (.ok r, remote)) := by
  obtain ⟨hbefore, hstored, hfound⟩ := cleared_spec r hcontexts
  have hyields : Yields (outcomeOf outcomes thread.lastError k) (cleared r remote.thread) false
      thread.contexts (run k (cleared r remote.thread)) := by
    rw [outcomeOf, ← herror, ← hfound]
    exact hrun k (cleared r remote.thread) false thread.contexts hbefore
  rw [attempt_eq, nextAttempt, GitRemote.onThread]
  dsimp only
  rw [hmade, readError_eq hyields.r hyields.lastError]
  refine ⟨rfl, rfl, hyields.lastError, hyields.contexts, ?_⟩
  rw [storedBefore_succ, settled_append, ← hexception, ← hstored]
  exact hyields.exception

theorem After.again {k : Nat} {s : GitRemote.Loop Exn Unit Nat} (h : After outcomes thread k s) :
    GitRemote.again s = (outcomeOf outcomes thread.lastError k).retried := by
  obtain ⟨result, remote⟩ := s
  have hends : result = (outcomeOf outcomes thread.lastError k).ends := h.ends
  have hlastError : remote.thread.lastError = (outcomeOf outcomes thread.lastError k).error :=
    h.lastError
  have hcontinues : remote.thread.continues =
      (outcomeOf outcomes thread.lastError k).supplied := by
    rw [Thread.continues, h.contexts, List.headD_cons]
  rw [Outcome.retried]
  rw [Outcome.ends] at hends
  cases hr : (outcomeOf outcomes thread.lastError k).r with
  | error exn =>
    rw [hr] at hends
    rw [hends]
    rfl
  | ok r =>
    rw [hr] at hends
    dsimp only at hends ⊢
    split at hends
    · rename_i hnull
      rw [hends, hnull.2]
      simp [GitRemote.again]
    · rw [hends, GitRemote.again, hlastError, hcontinues]

/-- The loop stops behind the final attempt. -/
theorem attemptsOn_after (hrun : ∀ k, Follows (run k) (outcomes k)) (thread : Thread Exn) :
    After outcomes thread (finalAttempt outcomes thread.lastError) (attemptsOn run thread) := by
  apply retry_stops (After outcomes thread)
  · intro k s h
    exact h.again
  · intro k s h hagain
    obtain ⟨result, remote⟩ := s
    cases result with
    | error e => cases hagain
    | ok r =>
      have hr : r ≠ 0 := by
        intro hzero
        subst hzero
        cases hagain
      apply after_round hrun h.made h.contexts _ h.exception
      rw [if_pos hr, if_neg (Nat.succ_ne_zero k)]
  · exact @after_round _ run outcomes thread hrun 0 0
      ⟨⟨thread.enterAuth, ()⟩, 0, false⟩ false rfl rfl rfl rfl

/-- What an operation leaves of its thread. -/
theorem operationOn_thread (hrun : ∀ k, Follows (run k) (outcomes k)) (thread : Thread Exn) :
    (operationOn run thread).2.contexts = thread.contexts ∧
      (operationOn run thread).2.lastError = (leftBehind outcomes thread.lastError).1 ∧
      (operationOn run thread).2.exception =
        settled (leftBehind outcomes thread.lastError).2.toList thread.exception := by
  have hafter := attemptsOn_after hrun thread
  rw [operationOn, leftBehind, ← hafter.ends]
  cases hloop : attemptsOn run thread with
  | mk result remote =>
    rw [hloop] at hafter
    have hcontexts := congrArg List.tail hafter.contexts
    cases result with
    | ok r => exact ⟨hcontexts, rfl, rfl⟩
    | error e =>
      refine ⟨hcontexts, hafter.lastError, hafter.exception.trans ?_⟩
      dsimp only
      rw [settled]
      cases (storedBefore outcomes thread.lastError _).getLast? with
      | none => rfl
      | some stored => rfl

end Loop

/-- Other operations leave the context of the attempt alone. -/
theorem Attempt.perform_follows (attempt : Attempt Exn) :
    Follows attempt.perform attempt.outcome := by
  induction attempt with
  | ended r error =>
    intro thread flag outer h
    rw [perform, outcome]
    split
    · cases error with
      | none => exact ⟨rfl, rfl, by rw [Bool.or_false]; exact h, rfl⟩
      | some error => exact ⟨rfl, rfl, by rw [Bool.or_false]; exact h, rfl⟩
    · exact ⟨rfl, rfl, by rw [Bool.or_false]; exact h, rfl⟩
  | escaped exn =>
    intro thread flag outer h
    exact ⟨rfl, rfl, by rw [outcome, Bool.or_false]; exact h, rfl⟩
  | callback raised next ih =>
    intro thread flag outer h
    rw [perform, outcome]
    cases raised with
    | none => exact (ih thread flag outer h).storing rfl
    | some exn => exact (ih (thread.wrapError exn) flag outer h).storing rfl
  | credentials reply next ih =>
    intro thread flag outer h
    cases reply with
    | error exn => exact (ih (thread.wrapError exn) flag outer h).storing rfl
    | ok cred =>
      cases cred with
      | false =>
        have hnext := ih (thread.setError Client.noCredentialsError) flag outer h
        exact ⟨hnext.r, hnext.lastError, hnext.contexts, hnext.exception⟩
      | true =>
        have hattempt : thread.attempt = { thread with contexts := true :: outer } := by
          rw [Thread.attempt, h]
        have hnext := ih thread.attempt true outer (by rw [hattempt])
        rw [perform, outcome, credentialsReply]
        rw [hattempt] at hnext ⊢
        refine ⟨hnext.r, hnext.lastError, ?_, hnext.exception⟩
        rw [Bool.or_true]
        exact hnext.contexts
  | operation attempts next hattempts ih =>
    intro thread flag outer h
    obtain ⟨hcontexts, herror, hexception⟩ := operationOn_thread hattempts thread
    have hnext := ih (operationOn (fun k => (attempts k).perform) thread).2 flag outer
      (hcontexts.trans h)
    rw [herror] at hnext
    exact hnext.storing hexception

variable (script : Nat → Attempt Exn) (thread : Thread Exn)

/-- The outcome of attempt `k` of `Push` on this thread. -/
abbrev outcomeAt (k : Nat) : Outcome Exn :=
  outcomeOf (fun k => (script k).outcome) thread.lastError k

def attemptsMade : Nat := (pushAttempts script thread).2.transport

theorem pushAttempts_after :
    After (fun k => (script k).outcome) thread
      (finalAttempt (fun k => (script k).outcome) thread.lastError)
      (pushAttempts script thread) :=
  attemptsOn_after (fun k => (script k).perform_follows) thread

theorem attemptsMade_eq : attemptsMade script thread =
    finalAttempt (fun k => (script k).outcome) thread.lastError + 1 :=
  (pushAttempts_after script thread).made

/-- The contexts of the operations around `Push` are as they were. -/
theorem push_contexts : (push script thread).2.contexts = thread.contexts :=
  (operationOn_thread (fun k => (script k).perform_follows) thread).1

theorem Outcome.ends_eq_ok {outcome : Outcome Exn} {r : Int} :
    outcome.ends = .ok r ↔ outcome.r = .ok r ∧ (r ≠ 0 → outcome.error ≠ none) := by
  rw [Outcome.ends]
  cases outcome.r with
  | error exn => simp
  | ok r' =>
    dsimp only
    split
    · rename_i hnull
      refine iff_of_false (by simp) ?_
      rintro ⟨hr, herror⟩
      cases hr
      exact herror hnull.1 hnull.2
    · rename_i hread
      constructor
      · intro hr
        cases hr
        exact ⟨rfl, fun hr hnone => hread ⟨hr, hnone⟩⟩
      · intro hr
        cases hr.1
        rfl

theorem Outcome.ends_ne_git (outcome : Outcome Exn) (e : GitException Exn) :
    outcome.ends ≠ .error (.git e) := by
  rw [Outcome.ends]
  cases outcome.r with
  | error exn => simp
  | ok r =>
    dsimp only
    split
    · simp
    · simp

theorem Outcome.retried_iff (outcome : Outcome Exn) :
    outcome.retried = true ↔ (∃ r error, outcome.r = .ok r ∧ r ≠ 0 ∧ outcome.error = some error ∧
      (error.klass = .network ∨ error.klass = .ssh ∨ error.klass = .secureSockets)) ∧
        outcome.supplied = true := by
  have hclass (klass : GitError) : GitRemote.retriedClass klass = true ↔
      klass = .network ∨ klass = .ssh ∨ klass = .secureSockets := by
    cases klass <;> decide
  rw [Outcome.retried]
  cases outcome.r with
  | error exn => simp
  | ok r =>
    cases outcome.error with
    | none => simp
    | some error => simp [hclass, and_assoc]

/-- What the retry loop of `Push` makes of its attempts. -/
structure MakesAttempts (script : Nat → Attempt Exn) (thread : Thread Exn) : Prop where
  one_le : 1 ≤ attemptsMade script thread
  le : attemptsMade script thread ≤ 15
  further : ∀ k, k + 1 ≤ attemptsMade script thread →
    (k + 1 < attemptsMade script thread ↔
      (∃ r error, (outcomeAt script thread k).r = .ok r ∧ r ≠ 0 ∧
        (outcomeAt script thread k).error = some error ∧
        (error.klass = .network ∨ error.klass = .ssh ∨ error.klass = .secureSockets)) ∧
      (outcomeAt script thread k).supplied = true ∧ k + 1 < 15)
  /-- With a result code for `HandleGitError`, unless the last attempt has an exception pass, or
  fails without an error of libgit2. -/
  ends : (pushAttempts script thread).1 =
    (outcomeAt script thread (attemptsMade script thread - 1)).ends
  lastError : (pushAttempts script thread).2.thread.lastError =
    (outcomeAt script thread (attemptsMade script thread - 1)).error
  handled : ∀ r, (pushAttempts script thread).1 = .ok r → (push script thread).1 =
    ((pushAttempts script thread).2.thread.handleGitError r).1.mapError .git
  contexts : (push script thread).2.contexts = thread.contexts

/-- The retry loop makes of its attempts what it should, whatever they do. -/
theorem push_makesAttempts (script : Nat → Attempt Exn) (thread : Thread Exn) :
    MakesAttempts script thread := by
  have hafter := pushAttempts_after script thread
  have hle : finalAttempt (fun k => (script k).outcome) thread.lastError ≤ 14 := stopIndex_le _ _
  have hmade := attemptsMade_eq script thread
  refine ⟨by omega, by omega, ?_, ?_, ?_, ?_, push_contexts script thread⟩
  · intro k hk
    rw [hmade] at hk ⊢
    have hnext := lt_stopIndex_iff (Nat.le_of_succ_le_succ hk)
    rw [Outcome.retried_iff, and_assoc, GitRemote.maxAttempts] at hnext
    rw [Nat.succ_lt_succ_iff, Nat.succ_lt_succ_iff]
    exact hnext
  · rw [hmade]
    exact hafter.ends
  · rw [hmade]
    exact hafter.lastError
  · intro r hr
    rw [push, operationOn, ← pushAttempts]
    cases hloop : pushAttempts script thread with
    | mk result remote =>
      rw [hloop] at hr
      obtain rfl : result = .ok r := hr
      rfl

/-- If `Push` raises, then a `GitException` with the last exception of the callbacks of its final
attempt inside, and it leaves no exception behind. -/
structure Attributes (script : Nat → Attempt Exn) (thread : Thread Exn) : Prop where
  inner : ∀ exn, (push script thread).1 = .error exn → ∃ e, exn = .git e ∧
    e.inner = (outcomeAt script thread (attemptsMade script thread - 1)).lastRaised
  cleared : (push script thread).2.exception = none

/-- The outcome of the final attempt. -/
abbrev finalOutcome (script : Nat → Attempt Exn) (thread : Thread Exn) : Outcome Exn :=
  outcomeAt script thread (finalAttempt (fun k => (script k).outcome) thread.lastError)

/-- What is stored last before the final attempt, or is left on the thread at the start. -/
def foundByFinal (script : Nat → Attempt Exn) (thread : Thread Exn) : Option Exn :=
  settled (storedBefore (fun k => (script k).outcome) thread.lastError
    (finalAttempt (fun k => (script k).outcome) thread.lastError)) thread.exception

/-- The exception that is stored last, in the attempt or before it, is the last of its callbacks. -/
inductive StoresLast (outcome : Outcome Exn) (before : Option Exn) : Prop
  /-- No operation follows the last exception of the callbacks. -/
  | raised (exn : Exn) (h : outcome.stores.getLast? = some (.raised exn))
  /-- An operation in a callback comes last, and leaves what the callbacks have stored last. -/
  | left (exception : Option Exn) (h : outcome.stores.getLast? = some (.left exception))
      (hsame : exception = outcome.lastRaised)
  /-- Nothing is stored, and nothing was. -/
  | untouched (h : outcome.stores = []) (hbefore : before = none)

theorem storesLast_iff (outcome : Outcome Exn) (before : Option Exn) :
    StoresLast outcome before ↔ settled outcome.stores before = outcome.lastRaised := by
  cases hstores : outcome.stores using List.reverseRecOn with
  | nil =>
    have hraised : outcome.lastRaised = none := by
      rw [Outcome.lastRaised, hstores]
      rfl
    rw [hraised]
    constructor
    · intro h
      cases h with
      | raised exn h =>
        rw [hstores] at h
        cases h
      | left exception h =>
        rw [hstores] at h
        cases h
      | untouched _ hbefore => exact hbefore
    · intro h
      exact .untouched hstores h
  | append_singleton front last =>
    have hlast : outcome.stores.getLast? = some last := by
      rw [hstores, List.getLast?_concat]
    rw [settled, List.getLast?_concat]
    cases last with
    | raised exn =>
      apply iff_of_true
      · exact .raised exn hlast
      · rw [Outcome.lastRaised, hstores, List.filterMap_append]
        exact List.getLast?_concat.symm
    | left exception =>
      constructor
      · intro h
        cases h with
        | raised exn h =>
          rw [hlast] at h
          cases h
        | left exception h hsame =>
          rw [hlast] at h
          cases h
          exact hsame
        | untouched h =>
          rw [hstores] at h
          cases List.append_ne_nil_of_right_ne_nil _ (List.cons_ne_nil _ _) h
      · intro h
        exact .left exception hlast h

/-- The final attempt returns a result code, and where it fails libgit2 has an error, and the
exception stored last is the last of its callbacks. -/
inductive EndsAttributed (script : Nat → Attempt Exn) (thread : Thread Exn) : Prop
  | succeeds (h : (finalOutcome script thread).r = .ok 0)
  | fails (r : Int) (h : (finalOutcome script thread).r = .ok r)
      (herror : (finalOutcome script thread).error ≠ none)
      (hstores : StoresLast (finalOutcome script thread) (foundByFinal script thread))

section Result

variable {script : Nat → Attempt Exn} {thread : Thread Exn}

theorem push_error {e : RemoteException Exn} (h : (finalOutcome script thread).ends = .error e) :
    (push script thread).1 = .error e := by
  have hends := (pushAttempts_after script thread).ends
  rw [push, operationOn, ← pushAttempts]
  cases hloop : pushAttempts script thread with
  | mk result remote =>
    rw [hloop] at hends
    obtain rfl : result = .error e := hends.trans h
    rfl

theorem push_ok {r : Int} (h : (finalOutcome script thread).ends = .ok r) :
    (push script thread).2.exception = none ∧
      (r = 0 → (push script thread).1 = .ok true) ∧
      (r ≠ 0 → ∃ e, (push script thread).1 = .error (.git e) ∧
        e.inner = settled (finalOutcome script thread).stores (foundByFinal script thread)) := by
  have hafter := pushAttempts_after script thread
  have hread := (Outcome.ends_eq_ok.mp h).2
  rw [push, operationOn, ← pushAttempts]
  cases hloop : pushAttempts script thread with
  | mk result remote =>
    rw [hloop] at hafter
    obtain rfl : result = .ok r := hafter.ends.trans h
    refine ⟨rfl, ?_, ?_⟩
    · intro hzero
      rw [hzero]
      rfl
    · intro hr
      obtain ⟨error, herror⟩ := Option.ne_none_iff_exists'.mp (hread hr)
      have hlast : remote.thread.lastError = some error := hafter.lastError.trans herror
      have hexception : remote.thread.exception = _ := hafter.exception
      rw [storedBefore_succ, settled_append] at hexception
      refine ⟨GitException.create error remote.thread, ?_, hexception⟩
      rw [GitRemote.handled, Thread.handleGitError, if_pos hr, hlast]
      rfl

end Result

/-- `Push` attributes its exception right exactly where its final attempt succeeds, or fails with an
error of libgit2 while the exception stored last is the last of its callbacks. -/
theorem attributes_iff (script : Nat → Attempt Exn) (thread : Thread Exn) :
    Attributes script thread ↔ EndsAttributed script thread := by
  have hmade := attemptsMade_eq script thread
  constructor
  · intro h
    cases hends : (finalOutcome script thread).ends with
    | error e =>
      obtain ⟨exn, rfl, -⟩ := h.inner e (push_error hends)
      exact absurd hends (Outcome.ends_ne_git _ exn)
    | ok r =>
      obtain ⟨hr, herror⟩ := Outcome.ends_eq_ok.mp hends
      by_cases hzero : r = 0
      · exact .succeeds (hzero ▸ hr)
      · obtain ⟨e, hpush, hinner⟩ := (push_ok hends).2.2 hzero
        obtain ⟨e', he, hraised⟩ := h.inner _ hpush
        cases he
        rw [hmade, Nat.add_sub_cancel] at hraised
        exact .fails r hr (herror hzero)
          ((storesLast_iff _ _).mpr (hinner.symm.trans hraised))
  · intro h
    have hends : ∃ r, (finalOutcome script thread).ends = .ok r := by
      cases h with
      | succeeds h => exact ⟨0, Outcome.ends_eq_ok.mpr ⟨h, fun hne => absurd rfl hne⟩⟩
      | fails r h herror => exact ⟨r, Outcome.ends_eq_ok.mpr ⟨h, fun _ => herror⟩⟩
    obtain ⟨r, hends⟩ := hends
    obtain ⟨hcleared, hsucceeds, hfails⟩ := push_ok hends
    refine ⟨?_, hcleared⟩
    intro exn hexn
    by_cases hzero : r = 0
    · rw [hsucceeds hzero] at hexn
      cases hexn
    · obtain ⟨e, hpush, hinner⟩ := hfails hzero
      rw [hpush] at hexn
      cases hexn
      refine ⟨e, rfl, ?_⟩
      rw [hmade, Nat.add_sub_cancel, hinner]
      cases h with
      | succeeds h =>
        have hr := (Outcome.ends_eq_ok.mp hends).1.symm.trans h
        cases hr
        exact absurd rfl hzero
      | fails r h herror hstores => exact (storesLast_iff _ _).mp hstores

end Attempts

/-- The first attempt is given a credential and ends when a callback raises, the second ends without
an exception. -/
def exampleScript (k : Nat) : Attempt Unit :=
  if k = 0 then .credentials (.ok true) (.callback (some ()) (.ended (-1) (some ⟨.network, []⟩)))
  else .ended (-1) (some ⟨.network, []⟩)

/-- A callback raises, and libgit2 returns -1 with no error set. -/
def unsetScript (_ : Nat) : Attempt Unit := .callback (some ()) (.ended (-1) none)

/-- The failure of the second attempt is attributed to the callback of the first. Where a callback
raises and libgit2 has no error, `Push` raises by a null pointer and leaves the exception behind. -/
theorem push_attributes_earlier :
    (push exampleScript ⟨[], none, none⟩).1 = .error (.git ⟨.network, [], some ()⟩) ∧
      ¬Attributes exampleScript ⟨[], none, none⟩ ∧
      push unsetScript ⟨[], none, none⟩ = (.error .nullReference, ⟨[], none, some ()⟩) ∧
      ¬Attributes unsetScript ⟨[], none, none⟩ := by
  have hearlier : (push exampleScript ⟨[], none, none⟩).1 =
      .error (.git ⟨.network, [], some ()⟩) := by
    rfl
  have hunset : push unsetScript ⟨[], none, none⟩ =
      (.error .nullReference, ⟨[], none, some ()⟩) := by
    rfl
  refine ⟨hearlier, ?_, hunset, ?_⟩
  · intro h
    obtain ⟨e, he, hinner⟩ := h.inner _ hearlier
    cases he
    exact absurd hinner (by decide)
  · intro h
    have hcleared := h.cleared
    rw [hunset] at hcleared
    cases hcleared

section Refinement

variable {Handler Exn η σ : Type} (checkUri : NetString → Except Exn Unit)
  (invoke : Invoke Handler Exn η)

/-- Whether the handlers supply a credential. -/
def handlersReply (request : CredentialRequest) (now : CallbackState Exn (Client Handler η)) :
    Except Exn Bool :=
  ((Client.onCredential invoke ⟨request, now.owner.authNr⟩).run
    { now.owner with authNr := now.owner.authNr + 1 }).1.map Option.isSome

/-- The callback raises before it asks the handlers, or leaves what its reply leaves. -/
theorem credentials_thread (request : CredentialRequest)
    (now : CallbackState Exn (Client Handler η)) :
    (∃ exn owner, (Client.credentials checkUri invoke request).run now =
        (.error exn, ⟨now.thread, owner⟩)) ∨
      ∃ reply owner, (Client.credentials checkUri invoke request).run now =
        (.ok reply, ⟨credentialsReply now.thread (handlersReply invoke request now), owner⟩) := by
  cases hurl : checkUri (utf8PtrToString request.url) with
  | error exn => exact .inl ⟨exn, _, Client.credentials_refused invoke hurl now⟩
  | ok _ =>
    right
    rw [Client.credentials, handlersReply]
    dsimp only
    rw [hurl]
    dsimp only
    split
    · rename_i h
      rw [h]
      exact ⟨_, _, rfl⟩
    · rename_i h
      rw [h]
      exact ⟨_, _, rfl⟩
    · rename_i h
      rw [h]
      exact ⟨_, _, rfl⟩

/-- What an attempt of the remote does to its thread, when these handlers are asked. -/
def Attempt.ofTransport :
    Transport σ → CallbackState Exn (Client Handler η) → Attempt Exn
  | .finish done, _ => .ended done.r done.error
  | .ask request next, now =>
    match (Client.credentials checkUri invoke request).run now with
    | (.error exn, _) => .escaped exn
    | (.ok reply, after) =>
      .credentials (handlersReply invoke request now) (ofTransport (next (some reply)) after)

variable (connect : List CStr → σ → Transport σ) (specs : List CStr)

def clientCallbacks : RemoteCallbacks Exn (Client Handler η) where
  credentials := some (Client.credentials checkUri invoke)

/-- How an attempt ends, and its thread with the error that it sets. -/
def endOf (ended : Except Exn (TransportEnd σ) × CallbackState Exn (Client Handler η)) :
    Except Exn Int × Thread Exn :=
  match ended with
  | (.error exn, now) => (.error exn, now.thread)
  | (.ok done, now) => (.ok done.r,
      if done.r ≠ 0 then done.error.elim now.thread now.thread.setError else now.thread)

theorem perform_ofTransport (transport : Transport σ)
    (now : CallbackState Exn (Client Handler η)) :
    (Attempt.ofTransport checkUri invoke transport now).perform now.thread =
      endOf ((transport.run (clientCallbacks checkUri invoke).answer).run now) := by
  induction transport generalizing now with
  | finish done => rfl
  | ask request next ih =>
    have hanswer := Client.answer_run checkUri invoke request now
    obtain ⟨exn, owner, hrun⟩ | ⟨reply, owner, hrun⟩ :=
      credentials_thread checkUri invoke request now
    · rw [hrun] at hanswer
      have hraised : ((clientCallbacks checkUri invoke).answer request).run now =
        (.error exn, ⟨now.thread, owner⟩) := hanswer
      rw [Attempt.ofTransport, hrun, Strategy.run, Action.run_bind_error hraised]
      rfl
    · rw [hrun] at hanswer
      have hreplied : ((clientCallbacks checkUri invoke).answer request).run now =
        (.ok (some reply), ⟨_, owner⟩) := hanswer
      rw [Attempt.ofTransport, hrun, Strategy.run, Action.run_bind_ok hreplied]
      exact ih _ _

theorem transfer_perform (remote : GitRemote Exn (Client Handler η) σ) :
    ((transfer connect specs (clientCallbacks checkUri invoke) remote).1,
      (transfer connect specs (clientCallbacks checkUri invoke) remote).2.thread) =
      (Attempt.ofTransport checkUri invoke (connect specs remote.transport)
        remote.toCallbackState).perform remote.thread := by
  have hperform := perform_ofTransport checkUri invoke (connect specs remote.transport)
    remote.toCallbackState
  cases hrun : ((connect specs remote.transport).run (clientCallbacks checkUri invoke).answer).run
      remote.toCallbackState with
  | mk result now =>
    rw [hrun] at hperform
    cases result with
    | error exn => rw [GitRemote.transfer_error hrun, hperform, endOf]
    | ok done => rw [GitRemote.transfer_ok hrun, hperform, endOf]

/-- The loop after `k` rounds. -/
def clientRounds (remote : GitRemote Exn (Client Handler η) σ) (k : Nat) :
    GitRemote.Loop Exn (Client Handler η) σ :=
  (GitRemote.attempt (transfer connect specs (clientCallbacks checkUri invoke)))^[k]
    (.ok 0, remote.onThread .enterAuth)

theorem clientRounds_succ (remote : GitRemote Exn (Client Handler η) σ) (k : Nat) :
    clientRounds checkUri invoke connect specs remote (k + 1) =
      GitRemote.attempt (transfer connect specs (clientCallbacks checkUri invoke))
        (clientRounds checkUri invoke connect specs remote k) :=
  Function.iterate_succ_apply' _ _ _

/-- The remote that attempt `k` finds. -/
def clientRemote (remote : GitRemote Exn (Client Handler η) σ) (k : Nat) :
    GitRemote Exn (Client Handler η) σ :=
  let run := clientRounds checkUri invoke connect specs remote k
  run.2.onThread (cleared (run.1.toOption.getD 0))

def clientScript (remote : GitRemote Exn (Client Handler η) σ) (k : Nat) : Attempt Exn :=
  let now := clientRemote checkUri invoke connect specs remote k
  .ofTransport checkUri invoke (connect specs now.transport) now.toCallbackState

variable (remote : GitRemote Exn (Client Handler η) σ)

/-- The rounds of the client and of its script go hand in hand. -/
structure Together (k : Nat) (client : GitRemote.Loop Exn (Client Handler η) σ)
    (scripted : GitRemote.Loop Exn Unit Nat) : Prop where
  rounds : client = clientRounds checkUri invoke connect specs remote k
  made : scripted.2.transport = k
  r : scripted.1 = client.1
  thread : scripted.2.thread = client.2.thread

/-- What is read behind a call depends on the thread only. -/
theorem readError_thread {C C' σ σ' : Type} (result : Except Exn Int) {a : GitRemote Exn C σ}
    {b : GitRemote Exn C' σ'} (h : a.thread = b.thread) :
    (GitRemote.readError (result, a)).1 = (GitRemote.readError (result, b)).1 ∧
      (GitRemote.readError (result, a)).2 = a ∧ (GitRemote.readError (result, b)).2 = b := by
  cases result with
  | error exn => exact ⟨rfl, rfl, rfl⟩
  | ok r =>
    rw [GitRemote.readError, GitRemote.readError, h]
    split
    · exact ⟨rfl, rfl, rfl⟩
    · exact ⟨rfl, rfl, rfl⟩

theorem Together.round {k : Nat} {client : GitRemote.Loop Exn (Client Handler η) σ}
    {scripted : GitRemote.Loop Exn Unit Nat}
    (h : Together checkUri invoke connect specs remote k client scripted) {r : Int}
    (hr : client.1 = .ok r) :
    Together checkUri invoke connect specs remote (k + 1)
      (GitRemote.attempt (transfer connect specs (clientCallbacks checkUri invoke)) client)
      (GitRemote.attempt (nextAttempt fun j =>
        (clientScript checkUri invoke connect specs remote j).perform) scripted) := by
  have hperform := transfer_perform checkUri invoke connect specs
    (clientRemote checkUri invoke connect specs remote k)
  have hfound : clientRemote checkUri invoke connect specs remote k =
      client.2.onThread (cleared r) := by
    rw [clientRemote, ← h.rounds, hr]
    rfl
  have hrounds := clientRounds_succ checkUri invoke connect specs remote k
  rw [← h.rounds] at hrounds
  obtain ⟨result, before⟩ := client
  obtain ⟨result', scripted⟩ := scripted
  obtain rfl : result = .ok r := hr
  obtain rfl : result' = .ok r := h.r
  have hmade : scripted.transport = k := h.made
  have hthread : scripted.thread = before.thread := h.thread
  have hscript : (clientScript checkUri invoke connect specs remote k).perform
      (cleared r scripted.thread) =
        ((transfer connect specs (clientCallbacks checkUri invoke)
            (before.onThread (cleared r))).1,
          (transfer connect specs (clientCallbacks checkUri invoke)
            (before.onThread (cleared r))).2.thread) := by
    rw [hfound] at hperform
    rw [hperform, clientScript, hfound, hthread]
    rfl
  have hnext : nextAttempt (fun j => (clientScript checkUri invoke connect specs remote j).perform)
      (scripted.onThread (cleared r)) =
        ((transfer connect specs (clientCallbacks checkUri invoke)
            (before.onThread (cleared r))).1,
          { scripted with
            thread := (transfer connect specs (clientCallbacks checkUri invoke)
              (before.onThread (cleared r))).2.thread
            transport := k + 1 }) := by
    rw [nextAttempt, GitRemote.onThread]
    dsimp only
    rw [hmade, hscript]
  rw [attempt_eq] at hrounds ⊢
  rw [attempt_eq, hnext]
  obtain ⟨hr, hclient, hscripted⟩ := @readError_thread Exn _ _ _ _
    (transfer connect specs (clientCallbacks checkUri invoke) (before.onThread (cleared r))).1
    (transfer connect specs (clientCallbacks checkUri invoke) (before.onThread (cleared r))).2
    { scripted with
      thread := (transfer connect specs (clientCallbacks checkUri invoke)
        (before.onThread (cleared r))).2.thread
      transport := k + 1 } rfl
  refine ⟨hrounds.symm, ?_, hr.symm, ?_⟩
  · rw [hscripted]
  · rw [hscripted, hclient]

/-- `Push` of a client is the operation of a script. -/
theorem push_script (refspecs : Option (List NetString)) :
    ∃ script, push script remote.thread =
      ((remote.push connect refspecs (Client.getCallbacks checkUri invoke)).1,
        (remote.push connect refspecs (Client.getCallbacks checkUri invoke)).2.thread) := by
  let asked : GitRemote Exn (Client Handler η) σ :=
    { remote with owner := { remote.owner with authNr := 0 } }
  let specs := allocRefSpecs refspecs
  have hstart : Together checkUri invoke connect specs asked 0 (.ok 0, asked.onThread .enterAuth)
      (.ok 0, ⟨⟨remote.thread.enterAuth, ()⟩, 0, false⟩) := ⟨rfl, rfl, rfl, rfl⟩
  obtain ⟨k, htogether⟩ : ∃ k, Together checkUri invoke connect specs asked k
      (GitRemote.attempts (transfer connect specs (clientCallbacks checkUri invoke)) asked)
      (pushAttempts (clientScript checkUri invoke connect specs asked) remote.thread) := by
    apply retry_related fun client scripted =>
      ∃ k, Together checkUri invoke connect specs asked k client scripted
    · intro client scripted h
      obtain ⟨k, h⟩ := h
      obtain ⟨result, before⟩ := client
      obtain ⟨result', scripted⟩ := scripted
      obtain rfl : result' = result := h.r
      have hthread : scripted.thread = before.thread := h.thread
      cases result' with
      | error e => rfl
      | ok r => rw [GitRemote.again, GitRemote.again, hthread]
    · intro client scripted h hagain
      obtain ⟨k, h⟩ := h
      obtain ⟨result, before⟩ := client
      cases result with
      | error e => cases hagain
      | ok r => exact ⟨k + 1, h.round checkUri invoke connect specs asked rfl⟩
    · exact ⟨1, hstart.round checkUri invoke connect specs asked rfl⟩
  refine ⟨clientScript checkUri invoke connect specs asked, ?_⟩
  have hpush : remote.push connect refspecs (Client.getCallbacks checkUri invoke) =
      GitRemote.handled
        (GitRemote.attempts (transfer connect specs (clientCallbacks checkUri invoke)) asked) := rfl
  rw [hpush, push, operationOn, ← pushAttempts]
  cases hclient : GitRemote.attempts (transfer connect specs (clientCallbacks checkUri invoke))
      asked with
  | mk result before =>
    cases hscripted : pushAttempts (clientScript checkUri invoke connect specs asked)
        remote.thread with
    | mk result' scripted =>
      rw [hclient, hscripted] at htogether
      obtain rfl : result' = result := htogether.r
      have hthread : scripted.thread = before.thread := htogether.thread
      cases result' with
      | error e =>
        rw [GitRemote.handled, GitRemote.handled, GitRemote.onThread, GitRemote.onThread, hthread]
      | ok r => rw [GitRemote.handled, GitRemote.handled, hthread]

/-- Whatever its handlers do, `Push` of a client leaves the contexts of its thread as they were. -/
theorem push_restores (refspecs : Option (List NetString)) :
    (remote.push connect refspecs (Client.getCallbacks checkUri invoke)).2.thread.contexts =
      remote.thread.contexts := by
  obtain ⟨script, hscript⟩ := push_script checkUri invoke connect remote refspecs
  rw [← push_contexts script remote.thread, congrArg Prod.snd hscript]

end Refinement

end SharpGit.GitClient
