import SharpGit.Plumbing.GitObject

namespace SharpGit.Plumbing

open Native Implementation

/-- "refs/heads/". -/
def headsDir : CStr := [0x72, 0x65, 0x66, 0x73, slash, 0x68, 0x65, 0x61, 0x64, 0x73, slash]

/-- The references of a native repository: the branch HEAD is on and where the others point. -/
structure References where
  head : CStr
  target : CStr → Option Oid

/-- libgit2's part; `branchCreate` gives the name of the new reference. -/
structure BranchApi where
  isValidName : CStr → Bool
  branchCreate : References → CStr → Oid → Except Int (CStr × References)
  setHead : References → CStr → Except Int References

/-- A `GitCommit`: its `GitRepository` by number. -/
structure GitCommit where
  repository : Nat
  isDisposed : Bool
  id : Oid
  deriving DecidableEq, Repr

/-- A local `GitBranch` with the native reference it was made of. -/
structure GitBranch where
  name : NetString
  reference : CStr
  deriving DecidableEq, Repr

/-- What `Create` hands to `git_branch_create`. -/
def lastComponent (pName : CStr) : CStr :=
  match strrchr slash pName with
  | some slash => slash.tail
  | none => pName

/-- `GitBranchCollection::Create`; a disposed repository has no native one. -/
def GitBranchCollection.create (api : BranchApi) (repository : Nat) (native : Option References)
    (commit : Option GitCommit) (name : NetString) : Except Failure (GitBranch × References) :=
  match native, commit with
  | none, _ => .error (.objectDisposed "repository")
  | some _, none => .error (.argumentNull "commit")
  | some native, some commit =>
    if name = [] then .error (.argumentNull "name")
    else if commit.isDisposed ∨ commit.repository ≠ repository then
      .error (.argumentOutOfRange "commit")
    else
      match api.branchCreate native (lastComponent (allocString name)) commit.id with
      | .error r => .error (.git r)
      | .ok (result, native) => .ok (⟨name, result⟩, native)

def GitBranch.recordAsHeadBranch (api : BranchApi) (branch : GitBranch)
    (native : Option References) : Except Failure (Bool × References) :=
  match native with
  | none => .error (.objectDisposed "repository")
  | some native =>
    match api.setHead native (allocString branch.name) with
    | .error r => .error (.git r)
    | .ok native => .ok (true, native)

/-- A new branch is a reference in "refs/heads/" at the commit, and HEAD can be put on every
valid name. -/
structure BranchApi.Documented (api : BranchApi) : Prop where
  branchCreate : ∀ native name commit created after,
    api.branchCreate native name commit = .ok (created, after) →
      created = headsDir ++ name ∧ after.target created = some commit
  setHead : ∀ native name, api.isValidName name = true →
    api.setHead native name = .ok { native with head := name }

/-- HEAD can be put on the branch and is then at the commit; the branch has the name of its
reference. -/
def HeadsTo (api : BranchApi) (branch : GitBranch) (native : References) (commit : Oid) : Prop :=
  (∃ after, branch.recordAsHeadBranch api (some native) = .ok (true, after) ∧
    after.target after.head = some commit) ∧
  branch.name = utf8PtrToString branch.reference

theorem lastComponent_append (dir : CStr) {s : CStr} (h : slash ∉ s) :
    lastComponent (dir ++ slash :: s) = s := by
  rw [lastComponent, strrchr_append dir h]
  rfl

/-- The last component has no '/', and is a part of a UTF-8 name that is UTF-8 itself. -/
theorem lastComponent_valid {pName : CStr} (h : ValidUtf8 pName) :
    slash ∉ lastComponent pName ∧ ValidUtf8 (lastComponent pName) := by
  rw [lastComponent]
  cases hlast : strrchr slash pName with
  | some t =>
    obtain ⟨before, after, rfl, rfl, hafter⟩ := strrchr_eq_some hlast
    have hslash : slash.toNat < 0x80 := by decide
    exact ⟨hafter, (h.split hslash).2⟩
  | none => exact ⟨strrchr_eq_none.mp hlast, h⟩

theorem createBranch_eq_ok {api : BranchApi} {repository : Nat} {native : Option References}
    {commit : GitCommit} {name : NetString} {branch : GitBranch} {after : References}
    (h : GitBranchCollection.create api repository native (some commit) name =
      .ok (branch, after)) :
    branch.name = name ∧ ∃ before,
      api.branchCreate before (lastComponent (allocString name)) commit.id =
        .ok (branch.reference, after) := by
  cases native with
  | none => cases h
  | some before =>
    rw [GitBranchCollection.create] at h
    split at h
    · cases h
    · split at h
      · cases h
      · cases hcreated : api.branchCreate before (lastComponent (allocString name)) commit.id with
        | error r =>
          rw [hcreated] at h
          cases h
        | ok created =>
          rw [hcreated] at h
          obtain ⟨rfl, rfl⟩ := Prod.mk.inj (Except.ok.inj h)
          exact ⟨rfl, before, hcreated⟩

/-- `Create` keeps only the last component of the name for the reference, so HEAD is on it just
where that is all of the branch name. -/
theorem createBranch_headsTo_iff {api : BranchApi} (hapi : api.Documented) {repository : Nat}
    {native : Option References} {commit : GitCommit} {s : CStr} (hutf8 : ValidUtf8 s)
    (hvalid : api.isValidName (headsDir ++ s) = true) {branch : GitBranch} {after : References}
    (hcreate : GitBranchCollection.create api repository native (some commit)
      (utf8PtrToString (headsDir ++ s)) = .ok (branch, after)) :
    HeadsTo api branch after commit.id ↔ slash ∉ s := by
  have hdir : ValidUtf8 headsDir := ⟨"refs/heads/".toList, by decide⟩
  have hfull : utf8GetBytes (utf8PtrToString (headsDir ++ s)) = headsDir ++ s :=
    utf8GetBytes_getString (hdir.append hutf8)
  obtain ⟨hname, before, hcreated⟩ := createBranch_eq_ok hcreate
  rw [allocString_eq, hfull] at hcreated
  obtain ⟨hreference, htarget⟩ := hapi.branchCreate _ _ _ _ _ hcreated
  obtain ⟨hlast, hlastUtf8⟩ := lastComponent_valid (hdir.append hutf8)
  constructor
  · intro h
    have hsame := h.2
    rw [hname, hreference] at hsame
    have hbytes := congrArg utf8GetBytes hsame
    rw [hfull, show utf8GetBytes (utf8PtrToString (headsDir ++ lastComponent (headsDir ++ s))) =
      headsDir ++ lastComponent (headsDir ++ s) from
        utf8GetBytes_getString (hdir.append hlastUtf8)] at hbytes
    rw [List.append_cancel_left hbytes]
    exact hlast
  · intro hslash
    have hwhole : lastComponent (headsDir ++ s) = s := by
      show lastComponent ((headsDir.take 10) ++ slash :: s) = s
      exact lastComponent_append _ hslash
    rw [hwhole] at hreference
    refine ⟨⟨{ after with head := headsDir ++ s }, ?_, ?_⟩, ?_⟩
    · rw [GitBranch.recordAsHeadBranch, allocString_eq, hname, hfull, hapi.setHead _ _ hvalid]
    · rw [hreference] at htarget
      exact htarget
    · rw [hname, hreference]

/-- A repository in which every branch that is not there yet can be made. -/
def exampleBranchApi : BranchApi where
  isValidName name := headsDir.isPrefixOf name
  branchCreate native name commit :=
    if (native.target (headsDir ++ name)).isSome then .error (-4)
    else .ok (headsDir ++ name,
      { native with
        target := fun n => if n = headsDir ++ name then some commit else native.target n })
  setHead native name :=
    if headsDir.isPrefixOf name then .ok { native with head := name } else .error (-12)

theorem exampleBranchApi_documented : exampleBranchApi.Documented := by
  constructor
  · intro native name commit created after h
    rw [exampleBranchApi] at h
    dsimp only at h
    split at h
    · cases h
    · obtain ⟨rfl, rfl⟩ := Prod.mk.inj (Except.ok.inj h)
      exact ⟨rfl, if_pos rfl⟩
  · intro native name h
    exact if_pos h

def unbornMaster : References := ⟨headsDir ++ [0x6d], fun _ => none⟩

def exampleCommit : GitCommit := ⟨0, false, [1]⟩

/-- The branch "m" of a fresh clone. -/
theorem createBranch_headsTo_example :
    ∃ branch after, GitBranchCollection.create exampleBranchApi 0 (some unbornMaster)
        (some exampleCommit) (utf8PtrToString (headsDir ++ [0x6d])) = .ok (branch, after) ∧
      HeadsTo exampleBranchApi branch after exampleCommit.id := by
  have hutf8 : ValidUtf8 [0x6d] := validUtf8_ascii (by decide)
  refine ⟨_, _, rfl, ?_⟩
  exact (@createBranch_headsTo_iff exampleBranchApi exampleBranchApi_documented 0
    (some unbornMaster) exampleCommit [0x6d] hutf8 rfl _ _ rfl).mpr (by decide)

/-- "refs/heads/a/b" is made as "refs/heads/b", and HEAD is on a branch that does not exist. -/
theorem createBranch_below :
    ¬∀ (api : BranchApi) (repository : Nat) (native : Option References) (commit : GitCommit)
      (s : CStr) (branch : GitBranch) (after : References), api.Documented → ValidUtf8 s →
        api.isValidName (headsDir ++ s) = true →
          GitBranchCollection.create api repository native (some commit)
            (utf8PtrToString (headsDir ++ s)) = .ok (branch, after) →
          HeadsTo api branch after commit.id := by
  intro h
  have hutf8 : ValidUtf8 [0x61, slash, 0x62] := ⟨"a/b".toList, by decide⟩
  have hheads := h exampleBranchApi 0 (some unbornMaster) exampleCommit [0x61, slash, 0x62] _ _
    exampleBranchApi_documented hutf8 rfl rfl
  exact absurd hheads.2 (by decide)

end SharpGit.Plumbing
