import SharpGit.Implementation.GitPool

namespace SharpGit.Implementation

open Native

inductive GitError
  | none
  | noMemory
  | operatingSystem
  | invalid
  | reference
  | zlib
  | repository
  | configuration
  | regularExpression
  | objectDatabase
  | index
  | object
  | network
  | tag
  | tree
  | indexer
  | secureSockets
  | submodule
  | thread
  | stash
  | checkOut
  | fetchHead
  | merge
  | ssh
  | filter
  | revert
  | callback
  | cherryPick
  | describe
  | rebase
  | system
  | storage
  | operation
  deriving DecidableEq, Repr

/-- `git_error`. -/
structure NativeError where
  klass : GitError
  message : CStr
  deriving DecidableEq, Repr

/-- The `GitAuthContext`s are kept by their `_continue`, the current one first. -/
structure Thread (Exn : Type) where
  contexts : List Bool
  lastError : Option NativeError
  exception : Option Exn
  deriving DecidableEq, Repr

structure GitException (Exn : Type) where
  code : GitError
  message : NetString
  inner : Option Exn
  deriving DecidableEq, Repr

variable {Exn : Type}

def GitException.create (err : NativeError) (thread : Thread Exn) : GitException Exn :=
  ⟨err.klass, utf8PtrToString err.message, thread.exception⟩

namespace Thread

/-- `GitBase::WrapError`; it returns -1. -/
def wrapError (thread : Thread Exn) (e : Exn) : Thread Exn :=
  { thread with exception := some e }

/-- `giterr_set_str`. -/
def setError (thread : Thread Exn) (err : NativeError) : Thread Exn :=
  { thread with lastError := some err }

/-- `giterr_clear`. -/
def clearError (thread : Thread Exn) : Thread Exn :=
  { thread with lastError := none }

/-- `GitArgs::HandleGitError`; what it leaves of the thread does not depend on the result. -/
def handleGitError (thread : Thread Exn) (r : Int) :
    Except (GitException Exn) Bool × Thread Exn :=
  (if r ≠ 0 then
    match thread.lastError with
    | some info => .error (GitException.create info thread)
    | none => .error ⟨.none, [], none⟩
  else .ok true,
  { thread with lastError := none, exception := none })

/-- The constructor of `GitAuthContext`. -/
def enterAuth (thread : Thread Exn) : Thread Exn :=
  { thread with contexts := false :: thread.contexts }

/-- The destructor of `GitAuthContext`. -/
def leaveAuth (thread : Thread Exn) : Thread Exn :=
  { thread with contexts := thread.contexts.tail }

/-- `Attempt` of the current context, if there is one. -/
def attempt (thread : Thread Exn) : Thread Exn :=
  match thread.contexts with
  | [] => thread
  | _ :: contexts => { thread with contexts := true :: contexts }

/-- `Clear` of the current context. -/
def clearAuth (thread : Thread Exn) : Thread Exn :=
  match thread.contexts with
  | [] => thread
  | _ :: contexts => { thread with contexts := false :: contexts }

/-- `Continue` of the current context. -/
def continues (thread : Thread Exn) : Bool := thread.contexts.headD false

theorem clearAuth_continues (thread : Thread Exn) : thread.clearAuth.continues = false := by
  rw [clearAuth]
  split
  · simp [continues, *]
  · rfl

end Thread

end SharpGit.Implementation
