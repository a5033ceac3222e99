import SharpGit.Library.Action
import SharpGit.Plumbing.GitRefSpec
import SharpGit.Plumbing.GitRepository

namespace SharpGit.Plumbing

open Library Native Implementation

inductive BranchType
  | localBranch
  | remoteBranch
  deriving DecidableEq, Repr

/-- The branches, the configuration and the remotes of a native repository; `R` are its
`git_remote` objects. What is not found is none. -/
structure BranchRepository (R : Type) where
  branches : List (CStr × BranchType)
  branchName : CStr → Option CStr
  branchUpstreamName : CStr → Option CStr
  branchRemoteName : CStr → Option CStr
  configString : CStr → Option CStr
  remoteIsValidName : CStr → Bool
  remoteLookup : CStr → Option R
  remoteName : R → CStr
  /-- The first refspec of a remote, with `git_refspec_rtransform`. -/
  remoteRefSpec : R → Option (CStr → Except Int CStr)

/-- A `GitBranch`. -/
structure TrackingBranch where
  name : NetString
  type : BranchType
  deriving DecidableEq, Repr

variable {R : Type}

/-- A managed string as a native function sees it; null becomes "". -/
def passString (value : Option NetString) : CStr :=
  upToNul (allocString (value.getD []))

namespace GitRemoteCollection

/-- `TryGet`; none where there is no such remote. -/
def tryGet (repo : BranchRepository R) (name : Option NetString) : Except Failure (Option R) :=
  match name with
  | none => .error (.argumentNull "name")
  | some name =>
    if name = [] then .error (.argumentNull "name")
    else
      let pName := passString (some name)
      if !repo.remoteIsValidName pName then .ok none else .ok (repo.remoteLookup pName)

end GitRemoteCollection

/-- `GitRemote::Name`. -/
def BranchRepository.nameOf (repo : BranchRepository R) (rm : R) : NetString :=
  utf8PtrToString (repo.remoteName rm)

/-- `GitRemote::FetchSpecTransformToSource`. -/
def BranchRepository.fetchSpecTransformToSource (repo : BranchRepository R) (rm : R)
    (spec : NetString) : Except Failure (Option NetString) :=
  if spec = [] then .error (.argumentNull "spec")
  else
    match repo.remoteRefSpec rm with
    | none => .ok none
    | some rtransform =>
      match rtransform (passString (some spec)) with
      | .error r => .error (.git r)
      | .ok source => .ok (some (utf8PtrToString source))

/-- `GitConfiguration::Join`; null parts are empty. -/
def configJoin (args : List (Option NetString)) : NetString :=
  [0x2e].intercalate (args.map (Option.getD · []))

/-- `TryGetString` of a key that is not empty. -/
def BranchRepository.tryGetString (repo : BranchRepository R) (key : NetString) :
    Option NetString :=
  (repo.configString (passString (some key))).map utf8PtrToString

/-- "branch" -/
def branchKey : NetString := [0x62, 0x72, 0x61, 0x6e, 0x63, 0x68]

/-- "remote" -/
def remoteKey : NetString := [0x72, 0x65, 0x6d, 0x6f, 0x74, 0x65]

/-- "merge" -/
def mergeKey : NetString := [0x6d, 0x65, 0x72, 0x67, 0x65]

/-- A `for each` loop over `Branches`. -/
def BranchRepository.enumerate (repo : BranchRepository R) : List TrackingBranch :=
  repo.branches.map fun b => ⟨utf8PtrToString b.1, b.2⟩

namespace TrackingBranch

variable (repo : BranchRepository R) (b : TrackingBranch)

def shortName : Option NetString :=
  (repo.branchName (passString (some b.name))).map utf8PtrToString

def remoteName : Option NetString :=
  if b.type ≠ .remoteBranch then
    repo.tryGetString (configJoin [some branchKey, b.shortName repo, some remoteKey])
  else (repo.branchRemoteName (passString (some b.name))).map utf8PtrToString

def localUpstreamName : Option NetString :=
  (repo.branchUpstreamName (passString (some b.name))).map utf8PtrToString

def remoteUpstreamName : Except Failure (Option NetString) :=
  if b.type = .remoteBranch then do
    match ← GitRemoteCollection.tryGet repo (b.remoteName repo) with
    | some rm => repo.fetchSpecTransformToSource rm b.name
    | none => return none
  else return repo.tryGetString (configJoin [some branchKey, b.shortName repo, some mergeKey])

/-- `TrackedBranch`: the upstream as `Branches::TryGet` finds it, or a new branch of its name. -/
def trackedBranch : Except Failure (Option TrackingBranch) :=
  match b.localUpstreamName repo with
  | none => .ok none
  | some name =>
    match repo.enumerate.find? fun other => other.name = name with
    | some result => .ok (some result)
    | none => if name = [] then .error (.argumentNull "name") else .ok (some ⟨name, .remoteBranch⟩)

def asRefSpec : Except Failure GitRefSpec := do
  let destination ← b.remoteUpstreamName repo
  match GitRefSpec.ofNames (some b.name) destination with
  | .ok spec => return spec
  | .error (.argumentNull param) => .error (.argumentNull param)

end TrackingBranch

/-- A remote has the name that it was looked up under, and no native string contains NUL. -/
structure BranchRepository.Documented (repo : BranchRepository R) : Prop where
  lookup : ∀ name rm, repo.remoteLookup name = some rm → repo.remoteName rm = name
  branchRemoteName : ∀ name s, repo.branchRemoteName name = some s → 0 ∉ s
  configString : ∀ key s, repo.configString key = some s → 0 ∉ s

/-- A text that comes from native code reaches it again as it was. -/
theorem passString_utf8PtrToString {s : CStr} (h : 0 ∉ s) :
    passString (some (utf8PtrToString s)) = utf8GetBytes (utf8PtrToString s) := by
  rw [passString, Option.getD_some, allocString_eq, upToNul]
  apply List.takeWhile_eq_self_iff.mpr
  intro c hc
  have hne : c ≠ 0 := by
    intro hzero
    subst hzero
    exact zero_not_mem_getBytes_getString h hc
  simpa using hne

/-- The names of remotes that branches give are native strings. -/
theorem TrackingBranch.remoteName_native {repo : BranchRepository R} (hrepo : repo.Documented)
    {b : TrackingBranch} {name : NetString} (h : b.remoteName repo = some name) :
    ∃ s, 0 ∉ s ∧ name = utf8PtrToString s := by
  rw [remoteName] at h
  split at h
  · obtain ⟨s, hs, rfl⟩ := Option.map_eq_some_iff.mp h
    exact ⟨s, hrepo.configString _ _ hs, rfl⟩
  · obtain ⟨s, hs, rfl⟩ := Option.map_eq_some_iff.mp h
    exact ⟨s, hrepo.branchRemoteName _ _ hs, rfl⟩

/-- What `TryGet` finds under such a name has this name. -/
theorem nameOf_tryGet {repo : BranchRepository R} (hrepo : repo.Documented) {s : CStr}
    (hs : 0 ∉ s) {rm : R}
    (h : GitRemoteCollection.tryGet repo (some (utf8PtrToString s)) = .ok (some rm)) :
    repo.nameOf rm = utf8PtrToString s := by
  rw [GitRemoteCollection.tryGet] at h
  split at h
  · cases h
  · dsimp only at h
    split at h
    · cases h
    · have hname := hrepo.lookup _ _ (Except.ok.inj h)
      rw [BranchRepository.nameOf, hname, passString_utf8PtrToString hs]
      exact utf8GetString_getBytes_getString s

end SharpGit.Plumbing
