import SharpGit.Plumbing.GitTree

namespace SharpGit.Plumbing

open Library Native Svn Implementation

inductive ObjectKind
  | commit
  | tree
  | blob
  | tag
  deriving DecidableEq, Repr

/-- libgit2's reads of references and objects. A reference is known by its name, an object by
its id; a lookup may succeed and still give a null object. -/
structure ObjectApi where
  headUnborn : NativeRepository → Int
  head : NativeRepository → Except Int CStr
  resolve : NativeRepository → CStr → Except Int Oid
  lookup : NativeRepository → Oid → ObjectKind → Except Int Bool
  commitTree : NativeRepository → Oid → Except Int GitTree
  entryByPath : GitTree → CStr → Option TreeEntry

namespace GitRepository

def isHeadUnborn (objects : ObjectApi) (repo : GitRepository) : Bool :=
  repo.repository.any fun native => objects.headUnborn native = 1

/-- `HeadReference`: null when `git_repository_head` fails. -/
def headReference (objects : ObjectApi) (repo : GitRepository) : Option CStr :=
  repo.repository.bind fun native => (objects.head native).toOption

/-- `ResolveReference`: none where it returns false. -/
def resolveReference (objects : ObjectApi) (repo : GitRepository) (reference : Option CStr) :
    Except Failure (Option Oid) := do
  match reference with
  | none => .error (.argumentNull "reference")
  | some reference =>
    let native ← repo.handle
    return (objects.resolve native reference).toOption

/-- `Lookup`: none where it returns false, a libgit2 error is thrown. -/
def lookup (objects : ObjectApi) (repo : GitRepository) (kind : ObjectKind) (id : Oid) :
    Except Failure (Option Oid) := do
  let native ← repo.handle
  match objects.lookup native id kind with
  | .error r => .error (.git r)
  | .ok found => .ok (if found then some id else none)

/-- `GitCommit::Tree`: null when `git_commit_tree` fails. -/
def commitTree (objects : ObjectApi) (repo : GitRepository) (commit : Oid) : Option GitTree :=
  repo.repository.bind fun native => (objects.commitTree native commit).toOption

end GitRepository

/-- HEAD can be read down to its commit. -/
def ObjectApi.ReadsHeadCommit (objects : ObjectApi) (native : NativeRepository) (commit : Oid) :
    Prop :=
  ∃ reference, objects.head native = .ok reference ∧
    objects.resolve native reference = .ok commit ∧
    objects.lookup native commit .commit = .ok true

/-- HEAD can be read down to its tree. -/
def ObjectApi.ReadsHead (objects : ObjectApi) (native : NativeRepository) (tree : GitTree) :
    Prop :=
  objects.headUnborn native ≠ 1 ∧ ∃ commit, objects.ReadsHeadCommit native commit ∧
    objects.commitTree native commit = .ok tree

/-- `git_tree_entry_bypath` finds what stands at a relative path. -/
def ObjectApi.FindsEntries (objects : ObjectApi) : Prop :=
  ∀ tree path, GitTree.WellFormed tree → relpathIsCanonical path = true →
    objects.entryByPath tree path = tree.findPath path

/-- A repository whose HEAD commit has this tree. -/
def headObjectApi (tree : GitTree) : ObjectApi where
  headUnborn _ := 0
  head _ := .ok [0x48, 0x45, 0x41, 0x44]
  resolve _ _ := .ok []
  lookup _ _ _ := .ok true
  commitTree _ _ := .ok tree
  entryByPath tree path := tree.findPath path

theorem headObjectApi_readsHead (tree : GitTree) (native : NativeRepository) :
    (headObjectApi tree).ReadsHead native tree :=
  ⟨Int.zero_ne_one, _, ⟨_, rfl, rfl, rfl⟩, rfl⟩

theorem headObjectApi_findsEntries (tree : GitTree) : (headObjectApi tree).FindsEntries :=
  fun _ _ _ _ => rfl

end SharpGit.Plumbing
