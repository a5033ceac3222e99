import SharpGit.Implementation.GitPool
import SharpGit.Library.Action

namespace SharpGit.Plumbing

open Library Native Svn Implementation

/-- How managed code ends without a result. -/
inductive Failure
  | argumentNull (param : String)
  | argumentOutOfRange (param : String)
  | invalidOperation
  | notSupported
  | objectDisposed (object : String)
  | git (code : Int)
  | svn (code : Int)
  | accessViolation
  | diverges
  deriving DecidableEq, Repr

inductive NodeKind
  | none
  | file
  | dir
  | symlink
  | unknown
  deriving DecidableEq, Repr

/-- What a `git_repository*` stands for. -/
structure NativeRepository where
  path : CStr
  workdir : CStr
  bare : Bool
  deriving DecidableEq, Repr

/-- The disk as `Locate` sees it: `svn_io_check_path` and `git_repository_open_ext`. -/
structure FileSystem where
  checkPath : CStr → Except Int NodeKind
  openExt : CStr → Except Int NativeRepository

structure GitRepository where
  repository : Option NativeRepository
  deriving DecidableEq, Repr

namespace GitRepository

def isDisposed (repo : GitRepository) : Bool := repo.repository.isNone

/-- The wildcard block of `Locate`: cut at the '/' before the first '*', or at the start. A '?'
counts only where it comes before a '*', and without a '*' the null pointer is written to. -/
def cutWildcard (dirent : CStr) : Except Failure CStr :=
  let star := dirent.findIdx? (· = 0x2a)
  let q := dirent.findIdx? (· = 0x3f)
  match star, q with
  | .none, .none => .ok dirent
  | .none, some _ => .error .accessViolation
  | some star, q =>
    let q := if q.any (· < star) then q.getD star else star
    .ok (dirent.take (scanBack (fun i => dirent[i]? = some slash) q))

/-- Walk up to an existing directory or a root. -/
def existingAncestor (fs : FileSystem) : Nat → CStr → Except Failure CStr
  | 0, _ => .error .diverges
  | fuel + 1, dirent =>
    match fs.checkPath dirent with
    | .error code => .error (.svn code)
    | .ok kind =>
      if kind = .none ∧ svnDirentIsRoot dirent = false then
        existingAncestor fs fuel (svnDirentDirname dirent)
      else .ok dirent

def locate (fs : FileSystem) (repo : GitRepository) (path : NetString) :
    Except Failure (Bool × GitRepository) :=
  if repo.repository.isSome then .error .invalidOperation
  else if path = [] then .error (.argumentNull "path")
  else do
    let dirent ← cutWildcard (allocDirentUpToNul path)
    let dirent ← existingAncestor fs (dirent.length + 1) dirent
    match fs.openExt dirent with
    | .error r => .error (.git r)
    | .ok repository => .ok (true, ⟨some repository⟩)

def makeRelpath (repo : GitRepository) (path : NetString) : Except Failure (Option CStr) :=
  if path = [] then .error (.argumentNull "path")
  else
    match repo.repository with
    | .none => .error (.objectDisposed "repository")
    | some repository =>
      .ok (svnDirentSkipAncestor (svnDirentCanonicalize repository.workdir) (allocDirent path))

def makeRelativePath (repo : GitRepository) (path : NetString) :
    Except Failure (Option NetString) := do
  let relpath ← makeRelpath repo path
  return relpath.map utf8PtrToString

/-- `Handle`: the native repository of an open one. -/
def handle (repo : GitRepository) : Except Failure NativeRepository :=
  match repo.repository with
  | .none => .error (.objectDisposed "repository")
  | some repository => .ok repository

theorem locate_eq_ok {fs : FileSystem} {repo repo' : GitRepository} {path : NetString}
    {located : Bool} (h : locate fs repo path = .ok (located, repo')) :
    located = true ∧ ∃ native, repo' = ⟨some native⟩ := by
  rw [locate] at h
  split_ifs at h
  obtain ⟨dirent, -, h⟩ := except_bind_eq_ok.mp h
  obtain ⟨dirent, -, h⟩ := except_bind_eq_ok.mp h
  cases hopen : fs.openExt dirent with
  | error r => simp [hopen] at h
  | ok native =>
    simp only [hopen] at h
    cases h
    exact ⟨rfl, native, rfl⟩

end GitRepository

end SharpGit.Plumbing
