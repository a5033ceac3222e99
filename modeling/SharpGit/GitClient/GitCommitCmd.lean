import SharpGit.Plumbing.GitIndex
import SharpGit.Plumbing.GitObject

namespace SharpGit.GitClient

open Library Native Svn Implementation Plumbing

/-- `git_repository_state`. -/
inductive RepositoryState
  | none
  | merge
  | other (code : Int)
  deriving DecidableEq, Repr

/-- The metadata of an operation in progress, with the ids in MERGE_HEAD. -/
structure Progress where
  state : RepositoryState
  mergeHead : List Oid
  deriving DecidableEq, Repr

structure NewCommit where
  id : Oid
  tree : Oid
  parents : List Oid
  deriving DecidableEq, Repr

inductive RepositoryWrite
  | commit (new : NewCommit)
  | cleanup
  deriving DecidableEq, Repr

/-- What lives on after a `Commit`, and the log of what it has written. -/
structure CommitDisk where
  disk : Disk
  progress : NativeRepository → Progress
  writes : List (NativeRepository × RepositoryWrite)

/-- libgit2's part of a commit. `cleanupRemoves` tells whether a cleanup that fails has removed
the metadata all the same. -/
structure CommitApi where
  writeTree : Index → Except Int Oid
  mergeHeadForeach : NativeRepository → Int
  createCommit : NativeRepository → Oid → List Oid → Except Int Oid
  stateCleanup : NativeRepository → Int
  cleanupRemoves : NativeRepository → Bool

/-- `GitIndex::CreateTree`. -/
def createTree (api : CommitApi) (index : Index) : Except Failure Oid :=
  match api.writeTree index with
  | .error r => .error (.git r)
  | .ok id => .ok id

/-- `GitRepository::MergeHeads`: empty when the enumeration fails. -/
def mergeHeads (api : CommitApi) (native : NativeRepository) (progress : Progress) : List Oid :=
  if api.mergeHeadForeach native = 0 then progress.mergeHead else []

/-- The first parent. HEAD that is null, does not resolve or is not found adds none. -/
def headParents (objects : ObjectApi) (repo : GitRepository) : Except Failure (List Oid) := do
  match repo.headReference objects with
  | none => return []
  | some head =>
    let foundCommitId ← repo.resolveReference objects (some head)
    match foundCommitId with
    | none => return []
    | some foundCommitId =>
      let commit ← repo.lookup objects .commit foundCommitId
      return commit.toList

def mergeParent (objects : ObjectApi) (repo : GitRepository) (id : Oid) : Except Failure Oid := do
  let commit ← repo.lookup objects .commit id
  match commit with
  | none => .error .invalidOperation
  | some commit => return commit

/-- The `switch` over the repository state. -/
def stateParents (api : CommitApi) (objects : ObjectApi) (repo : GitRepository)
    (native : NativeRepository) (progress : Progress) : Except Failure (List Oid) :=
  match progress.state with
  | .none => return []
  | .merge => (mergeHeads api native progress).mapM (mergeParent objects repo)
  | .other _ => .error .notSupported

/-- What `Commit` reads before it writes; none where it returns false. -/
def planCommit (api : CommitApi) (indexApi : IndexApi) (objects : ObjectApi)
    (before : CommitDisk) (path : NetString) :
    Except Failure (Option (NativeRepository × Oid × List Oid)) := do
  let (located, repo) ← GitRepository.locate before.disk.fs ⟨none⟩ path
  if !located then return none
  else
    let index ← repo.getIndexInstance indexApi before.disk
    let id ← createTree api index
    let tree ← repo.lookup objects .tree id
    match tree with
    | none => return none
    | some tree =>
      let native ← repo.handle
      let headParents ← headParents objects repo
      let stateParents ← stateParents api objects repo native (before.progress native)
      return some (native, tree, headParents ++ stateParents)

def CommitDisk.log (now : CommitDisk) (native : NativeRepository) (write : RepositoryWrite) :
    CommitDisk :=
  { now with writes := now.writes ++ [(native, write)] }

/-- `GitRepository::Commit`. -/
def createCommit (api : CommitApi) (native : NativeRepository) (tree : Oid)
    (parents : List Oid) : Action CommitDisk Failure Bool := do
  match api.createCommit native tree parents with
  | .error r => Action.raise (.git r)
  | .ok id =>
    Action.modify fun now => now.log native (.commit ⟨id, tree, parents⟩)
    return true

def CommitDisk.clear (now : CommitDisk) (native : NativeRepository) : CommitDisk :=
  { now with progress := fun other => if other = native then ⟨.none, []⟩ else now.progress other }

/-- `GitRepository::CleanupState`. -/
def cleanupState (api : CommitApi) (native : NativeRepository) :
    Action CommitDisk Failure Bool := do
  let r := api.stateCleanup native
  if r = 0 then
    Action.modify fun now => (now.clear native).log native .cleanup
    return true
  else if api.cleanupRemoves native then
    Action.modify fun now => now.clear native
    Action.raise (.git r)
  else Action.raise (.git r)

def commit (api : CommitApi) (indexApi : IndexApi) (objects : ObjectApi)
    (paths : List NetString) : Action CommitDisk Failure Bool := do
  match paths with
  | [] => Action.raise (.argumentOutOfRange "Empty list")
  | path :: _ =>
    let before ← Action.get
    let plan ← Action.ofExcept (planCommit api indexApi objects before path)
    match plan with
    | none => return false
    | some (native, tree, parents) =>
      let created ← createCommit api native tree parents
      if created then
        if (before.progress native).state = .merge then cleanupState api native
        else return true
      else return false

/-- The parent that HEAD adds when each read of it succeeds. -/
def headParent (objects : ObjectApi) (native : NativeRepository) : List Oid :=
  match objects.head native with
  | .error _ => []
  | .ok reference =>
    match objects.resolve native reference with
    | .error _ => []
    | .ok id => if objects.lookup native id .commit = .ok true then [id] else []

/-- The lookup of HEAD's commit fails, which is not swallowed. -/
def HeadThrows (objects : ObjectApi) (native : NativeRepository) : Prop :=
  ∃ reference id r, objects.head native = .ok reference ∧
    objects.resolve native reference = .ok id ∧ objects.lookup native id .commit = .error r

section Parents

variable {api : CommitApi} {indexApi : IndexApi} {objects : ObjectApi} {native : NativeRepository}

theorem lookup_eq_ok {kind : ObjectKind} {id : Oid} {found : Option Oid} :
    GitRepository.lookup objects ⟨some native⟩ kind id = .ok found ↔
      ∃ b, objects.lookup native id kind = .ok b ∧ found = if b then some id else none := by
  cases h : objects.lookup native id kind with
  | error r => simp [GitRepository.lookup, GitRepository.handle, bind, Except.bind, h]
  | ok b => simp [GitRepository.lookup, GitRepository.handle, bind, Except.bind, h, eq_comm]

theorem createTree_eq_ok {index : Index} {id : Oid} :
    createTree api index = .ok id ↔ api.writeTree index = .ok id := by
  cases h : api.writeTree index <;> simp [createTree, h]

theorem headParent_of_reads {commit : Oid} (h : objects.ReadsHeadCommit native commit) :
    headParent objects native = [commit] := by
  obtain ⟨reference, hhead, hresolve, hlookup⟩ := h
  simp [headParent, hhead, hresolve, hlookup]

/-- HEAD's parent by the results of the three reads. -/
theorem headParents_eq :
    headParents objects ⟨some native⟩ =
      match objects.head native with
      | .error _ => .ok []
      | .ok reference =>
        match objects.resolve native reference with
        | .error _ => .ok []
        | .ok id =>
          match objects.lookup native id .commit with
          | .error r => .error (.git r)
          | .ok found => .ok (if found then [id] else []) := by
  cases hhead : objects.head native with
  | error r =>
    simp [headParents, GitRepository.headReference, Except.toOption, pure, Except.pure, hhead]
  | ok reference =>
    cases hresolve : objects.resolve native reference with
    | error r =>
      simp [headParents, GitRepository.headReference, GitRepository.resolveReference,
        GitRepository.handle, Except.toOption, bind, Except.bind, pure, Except.pure, hhead,
        hresolve]
    | ok id =>
      have hfound : GitRepository.resolveReference objects ⟨some native⟩ (some reference) =
          .ok (some id) := by
        simp [GitRepository.resolveReference, GitRepository.handle, Except.toOption, bind,
          Except.bind, pure, Except.pure, hresolve]
      simp only [headParents, GitRepository.headReference, Option.bind_some, hhead,
        Except.toOption, hfound]
      cases hlookup : objects.lookup native id .commit with
      | error r =>
        simp [GitRepository.lookup, GitRepository.handle, bind, Except.bind, hresolve, hlookup]
      | ok found =>
        cases found <;>
          simp [GitRepository.lookup, GitRepository.handle, bind, Except.bind, pure, Except.pure,
            hresolve, hlookup]

theorem headParents_eq_ok {parents : List Oid} :
    headParents objects ⟨some native⟩ = .ok parents ↔
      ¬HeadThrows objects native ∧ parents = headParent objects native := by
  rw [headParents_eq, HeadThrows, headParent]
  cases hhead : objects.head native with
  | error r => simp [eq_comm]
  | ok reference =>
    cases hresolve : objects.resolve native reference with
    | error r => simp [hresolve, eq_comm]
    | ok id =>
      cases hlookup : objects.lookup native id .commit with
      | error r => simp [hresolve, hlookup]
      | ok found => cases found <;> simp [hresolve, hlookup, eq_comm]

theorem mergeParent_eq_ok {id parent : Oid} :
    mergeParent objects ⟨some native⟩ id = .ok parent ↔
      objects.lookup native id .commit = .ok true ∧ parent = id := by
  cases h : objects.lookup native id .commit with
  | error r => simp [mergeParent, GitRepository.lookup, GitRepository.handle, bind, Except.bind, h]
  | ok found =>
    cases found <;>
      simp [mergeParent, GitRepository.lookup, GitRepository.handle, bind, Except.bind, pure,
        Except.pure, h, eq_comm]

theorem mapM_mergeParent_eq_ok {ids parents : List Oid} :
    ids.mapM (mergeParent objects ⟨some native⟩) = .ok parents ↔
      (∀ id ∈ ids, objects.lookup native id .commit = .ok true) ∧ parents = ids := by
  induction ids generalizing parents with
  | nil => simp [pure, Except.pure, eq_comm]
  | cons id ids ih =>
    rw [List.mapM_cons, except_bind_eq_ok]
    simp only [except_bind_eq_ok, mergeParent_eq_ok, ih, List.forall_mem_cons]
    constructor
    · intro ⟨_, ⟨hid, rfl⟩, _, ⟨hids, rfl⟩, hparents⟩
      cases hparents
      exact ⟨⟨hid, hids⟩, rfl⟩
    · intro ⟨⟨hid, hids⟩, hparents⟩
      exact ⟨id, ⟨hid, rfl⟩, ids, ⟨hids, rfl⟩, hparents ▸ rfl⟩

end Parents

/-- The first write is a commit of HEAD's commit and all of MERGE_HEAD, followed by `rest`. -/
def WritesMerge (objects : ObjectApi) (native : NativeRepository) (before after : CommitDisk)
    (rest : List (NativeRepository × RepositoryWrite)) : Prop :=
  ∃ head id tree, objects.ReadsHeadCommit native head ∧
    after.writes = before.writes ++
      (native, .commit ⟨id, tree, head :: (before.progress native).mergeHead⟩) :: rest

/-- A run that returns true has committed the merge and then cleaned up; any other has removed
the metadata only behind a commit of the merge. -/
def KeepsMerge (objects : ObjectApi) (native : NativeRepository) (before : CommitDisk)
    (run : Except Failure Bool × CommitDisk) : Prop :=
  (run.1 = .ok true → WritesMerge objects native before run.2 [(native, .cleanup)] ∧
    run.2.progress native = ⟨.none, []⟩) ∧
  (run.1 ≠ .ok true → run.2.progress native ≠ before.progress native →
    ∃ rest, WritesMerge objects native before run.2 rest)

/-- HEAD's commit and MERGE_HEAD can be read. -/
def MergeReadable (api : CommitApi) (objects : ObjectApi) (native : NativeRepository)
    (before : CommitDisk) : Prop :=
  (∃ head, objects.ReadsHeadCommit native head) ∧
    (api.mergeHeadForeach native = 0 ∨ (before.progress native).mergeHead = [])

/-- A step that is not swallowed fails: nothing is committed, or nothing is cleaned up. -/
inductive CommitStops (api : CommitApi) (indexApi : IndexApi) (objects : ObjectApi)
    (native : NativeRepository) (before : CommitDisk) : Prop
  | openIndex (h : indexApi.openIndex before.disk.fs native ≠ 0)
  | writeTree (r : Int) (h : api.writeTree (before.disk.index native) = .error r)
  | treeLookup (tree : Oid) (htree : api.writeTree (before.disk.index native) = .ok tree)
      (h : objects.lookup native tree .tree ≠ .ok true)
  | headLookup (h : HeadThrows objects native)
  | mergeLookup (id : Oid) (hid : id ∈ mergeHeads api native (before.progress native))
      (h : objects.lookup native id .commit ≠ .ok true)
  | create (tree : Oid) (htree : api.writeTree (before.disk.index native) = .ok tree) (r : Int)
      (h : api.createCommit native tree
        (headParent objects native ++ mergeHeads api native (before.progress native)) = .error r)
  | cleanup (h : api.stateCleanup native ≠ 0) (hkeeps : api.cleanupRemoves native = false)

section Merge

variable {api : CommitApi} {indexApi : IndexApi} {objects : ObjectApi}
  {native : NativeRepository} {before : CommitDisk} {path : NetString}

/-- The plan of a commit in state Merge, by the reads that are not swallowed. -/
theorem planCommit_eq_some
    (hlocate : GitRepository.locate before.disk.fs ⟨none⟩ path = .ok (true, ⟨some native⟩))
    (hstate : (before.progress native).state = .merge) {plan : NativeRepository × Oid × List Oid} :
    planCommit api indexApi objects before path = .ok (some plan) ↔
      indexApi.openIndex before.disk.fs native = 0 ∧ ∃ tree,
        api.writeTree (before.disk.index native) = .ok tree ∧
        objects.lookup native tree .tree = .ok true ∧ ¬HeadThrows objects native ∧
        (∀ id ∈ mergeHeads api native (before.progress native),
          objects.lookup native id .commit = .ok true) ∧
        plan = (native, tree,
          headParent objects native ++ mergeHeads api native (before.progress native)) := by
  constructor
  · intro h
    obtain ⟨_, hloc, h⟩ := except_bind_eq_ok.mp h
    rw [hlocate] at hloc
    cases hloc
    obtain ⟨index, hindex, h⟩ := except_bind_eq_ok.mp h
    obtain ⟨_, hrepo, hopen, rfl⟩ := GitRepository.getIndexInstance_eq_ok.mp hindex
    cases hrepo
    obtain ⟨tree, htree, h⟩ := except_bind_eq_ok.mp h
    obtain ⟨found, hfound, h⟩ := except_bind_eq_ok.mp h
    obtain ⟨b, hlookup, rfl⟩ := lookup_eq_ok.mp hfound
    cases b with
    | false => cases h
    | true =>
      obtain ⟨_, hnative, h⟩ := except_bind_eq_ok.mp h
      cases hnative
      obtain ⟨first, hfirst, h⟩ := except_bind_eq_ok.mp h
      obtain ⟨hhead, rfl⟩ := headParents_eq_ok.mp hfirst
      obtain ⟨others, hothers, h⟩ := except_bind_eq_ok.mp h
      rw [stateParents, hstate] at hothers
      obtain ⟨hmerge, rfl⟩ := mapM_mergeParent_eq_ok.mp hothers
      cases h
      exact ⟨hopen, tree, createTree_eq_ok.mp htree, hlookup, hhead, hmerge, rfl⟩
  · intro ⟨hopen, tree, htree, hlookup, hhead, hmerge, hplan⟩
    refine except_bind_eq_ok.mpr ⟨_, hlocate, ?_⟩
    refine except_bind_eq_ok.mpr
      ⟨_, GitRepository.getIndexInstance_eq_ok.mpr ⟨native, rfl, hopen, rfl⟩, ?_⟩
    refine except_bind_eq_ok.mpr ⟨tree, createTree_eq_ok.mpr htree, ?_⟩
    refine except_bind_eq_ok.mpr ⟨some tree, lookup_eq_ok.mpr ⟨true, hlookup, rfl⟩, ?_⟩
    refine except_bind_eq_ok.mpr ⟨native, rfl, ?_⟩
    refine except_bind_eq_ok.mpr ⟨_, headParents_eq_ok.mpr ⟨hhead, rfl⟩, ?_⟩
    refine except_bind_eq_ok.mpr ⟨mergeHeads api native (before.progress native), ?_, ?_⟩
    · rw [stateParents, hstate]
      exact mapM_mergeParent_eq_ok.mpr ⟨hmerge, rfl⟩
    · rw [hplan]
      rfl

/-- The parents that get through are the right ones iff HEAD and MERGE_HEAD are readable. -/
theorem parents_right_iff :
    (∃ head, objects.ReadsHeadCommit native head ∧
      headParent objects native ++ mergeHeads api native (before.progress native) =
        head :: (before.progress native).mergeHead) ↔
      MergeReadable api objects native before := by
  have hheads : mergeHeads api native (before.progress native) =
      (before.progress native).mergeHead ↔
        (api.mergeHeadForeach native = 0 ∨ (before.progress native).mergeHead = []) := by
    by_cases h : api.mergeHeadForeach native = 0
    · simp [mergeHeads, h]
    · simp only [mergeHeads, h, false_or]
      exact eq_comm
  constructor
  · intro ⟨head, hread, hparents⟩
    rw [headParent_of_reads hread] at hparents
    exact ⟨⟨head, hread⟩, hheads.mp (List.cons.inj hparents).2⟩
  · intro ⟨⟨head, hread⟩, hread'⟩
    refine ⟨head, hread, ?_⟩
    rw [headParent_of_reads hread, hheads.mpr hread']
    rfl

/-- A log that goes on with a commit shows the merge iff the parents are the right ones. -/
theorem writesMerge_iff {after : CommitDisk} {new : NewCommit}
    {tail rest : List (NativeRepository × RepositoryWrite)}
    (hafter : after.writes = before.writes ++ (native, .commit new) :: tail) :
    WritesMerge objects native before after rest ↔ rest = tail ∧
      ∃ head, objects.ReadsHeadCommit native head ∧
        new.parents = head :: (before.progress native).mergeHead := by
  rw [WritesMerge, hafter]
  constructor
  · intro ⟨head, id, tree, hread, hwrites⟩
    obtain ⟨hnew, htail⟩ := List.cons.inj (List.append_cancel_left hwrites)
    cases hnew
    exact ⟨htail.symm, head, hread, rfl⟩
  · intro ⟨hrest, head, hread, hparents⟩
    exact ⟨head, new.id, new.tree, hread, by rw [hrest, ← hparents]⟩

theorem keepsMerge_unchanged {result : Except Failure Bool} (h : result ≠ .ok true)
    {after : CommitDisk} (hafter : after.progress native = before.progress native) :
    KeepsMerge objects native before (result, after) :=
  ⟨fun htrue => absurd htrue h, fun _ hchanged => absurd hafter hchanged⟩

/-- Without a plan nothing has been written. -/
theorem commit_without_plan (paths : List NetString)
    (hplan : ¬∃ plan, planCommit api indexApi objects before path = .ok (some plan)) :
    KeepsMerge objects native before
      ((commit api indexApi objects (path :: paths)).run before) := by
  rw [commit, Action.get_bind]
  cases h : planCommit api indexApi objects before path with
  | error e =>
    rw [Action.run_bind_error rfl]
    exact keepsMerge_unchanged (by simp) rfl
  | ok plan =>
    cases plan with
    | none =>
      rw [Action.run_bind_ok rfl]
      exact keepsMerge_unchanged (by simp) rfl
    | some plan => exact absurd ⟨plan, h⟩ hplan

/-- What keeps a plan from being made is one of the steps that stop a commit. -/
theorem commitStops_of_no_plan
    (hlocate : GitRepository.locate before.disk.fs ⟨none⟩ path = .ok (true, ⟨some native⟩))
    (hstate : (before.progress native).state = .merge)
    (hplan : ¬∃ plan, planCommit api indexApi objects before path = .ok (some plan)) :
    CommitStops api indexApi objects native before := by
  by_contra hstops
  apply hplan
  have hopen : indexApi.openIndex before.disk.fs native = 0 := by
    by_contra h
    exact hstops (.openIndex h)
  have hhead : ¬HeadThrows objects native := fun h => hstops (.headLookup h)
  have hmerge : ∀ id ∈ mergeHeads api native (before.progress native),
      objects.lookup native id .commit = .ok true := by
    intro id hid
    by_contra h
    exact hstops (.mergeLookup id hid h)
  cases htree : api.writeTree (before.disk.index native) with
  | error r => exact absurd (.writeTree r htree) hstops
  | ok tree =>
    have hlookup : objects.lookup native tree .tree = .ok true := by
      by_contra h
      exact hstops (.treeLookup tree htree h)
    exact ⟨_, (planCommit_eq_some hlocate hstate).mpr
      ⟨hopen, tree, htree, hlookup, hhead, hmerge, rfl⟩⟩

/-- With a plan, the commit stops only where `git_commit_create` fails or a failed cleanup keeps
the metadata. -/
theorem commitStops_of_plan {tree : Oid}
    (hlocate : GitRepository.locate before.disk.fs ⟨none⟩ path = .ok (true, ⟨some native⟩))
    (hstate : (before.progress native).state = .merge)
    (hplan : planCommit api indexApi objects before path = .ok (some (native, tree,
      headParent objects native ++ mergeHeads api native (before.progress native)))) :
    CommitStops api indexApi objects native before ↔
      (∃ r, api.createCommit native tree (headParent objects native ++
        mergeHeads api native (before.progress native)) = .error r) ∨
      (api.stateCleanup native ≠ 0 ∧ api.cleanupRemoves native = false) := by
  obtain ⟨hopen, tree', htree', hlookup', hhead, hmerge, hsame⟩ :=
    (planCommit_eq_some hlocate hstate).mp hplan
  cases hsame
  constructor
  · intro h
    cases h with
    | openIndex h => exact absurd hopen h
    | writeTree r h =>
      rw [htree'] at h
      cases h
    | treeLookup other hother h =>
      rw [htree'] at hother
      cases hother
      exact absurd hlookup' h
    | headLookup h => exact absurd h hhead
    | mergeLookup id hid h => exact absurd (hmerge id hid) h
    | create other hother r h =>
      rw [htree'] at hother
      cases hother
      exact .inl ⟨r, h⟩
    | cleanup h hkeeps => exact .inr ⟨h, hkeeps⟩
  · intro h
    obtain ⟨r, h⟩ | ⟨h, hkeeps⟩ := h
    · exact .create tree htree' r h
    · exact .cleanup h hkeeps

/-- A commit that cannot be created writes nothing. -/
theorem createCommit_error {tree : Oid} {parents : List Oid} {r : Int}
    (h : api.createCommit native tree parents = .error r) :
    (createCommit api native tree parents).run before = (.error (.git r), before) := by
  simp [createCommit, h]

theorem createCommit_ok {tree id : Oid} {parents : List Oid}
    (h : api.createCommit native tree parents = .ok id) :
    (createCommit api native tree parents).run before =
      (.ok true, before.log native (.commit ⟨id, tree, parents⟩)) := by
  simp [createCommit, h, Action.run_bind]

theorem CommitDisk.clear_progress (now : CommitDisk) :
    (now.clear native).progress native = ⟨.none, []⟩ := by
  simp [CommitDisk.clear]

theorem progress_ne_cleared (hstate : (before.progress native).state = .merge) :
    (⟨.none, []⟩ : Progress) ≠ before.progress native := by
  intro h
  rw [← h] at hstate
  cases hstate

/-- A cleanup that succeeds: the merge is kept iff the commit has the merge's parents. -/
theorem cleanupState_succeeds_iff (new : NewCommit) (hcleanup : api.stateCleanup native = 0) :
    KeepsMerge objects native before
        ((cleanupState api native).run (before.log native (.commit new))) ↔
      ∃ head, objects.ReadsHeadCommit native head ∧
        new.parents = head :: (before.progress native).mergeHead := by
  have hrun : (cleanupState api native).run (before.log native (.commit new)) =
      (.ok true, ((before.log native (.commit new)).clear native).log native .cleanup) := by
    simp [cleanupState, hcleanup, Action.run_bind]
  have hlog : (((before.log native (.commit new)).clear native).log native .cleanup).writes =
      before.writes ++ (native, .commit new) :: [(native, .cleanup)] :=
    List.append_assoc ..
  rw [hrun]
  constructor
  · intro ⟨htrue, _⟩
    exact ((writesMerge_iff hlog).mp (htrue rfl).1).2
  · intro h
    exact ⟨fun _ => ⟨(writesMerge_iff hlog).mpr ⟨rfl, h⟩, CommitDisk.clear_progress _⟩,
      fun hfalse => absurd rfl hfalse⟩

/-- A cleanup that fails behind the metadata: the same. -/
theorem cleanupState_removes_iff (new : NewCommit)
    (hstate : (before.progress native).state = .merge) (hcleanup : api.stateCleanup native ≠ 0)
    (hremoves : api.cleanupRemoves native = true) :
    KeepsMerge objects native before
        ((cleanupState api native).run (before.log native (.commit new))) ↔
      ∃ head, objects.ReadsHeadCommit native head ∧
        new.parents = head :: (before.progress native).mergeHead := by
  have hrun : (cleanupState api native).run (before.log native (.commit new)) =
      (.error (.git (api.stateCleanup native)),
        (before.log native (.commit new)).clear native) := by
    simp [cleanupState, hcleanup, hremoves, Action.run_bind]
  have hlog : ((before.log native (.commit new)).clear native).writes =
      before.writes ++ (native, .commit new) :: [] :=
    rfl
  rw [hrun]
  constructor
  · intro ⟨_, hchanged⟩
    have hcleared : ((before.log native (.commit new)).clear native).progress native ≠
        before.progress native := by
      rw [CommitDisk.clear_progress]
      exact progress_ne_cleared hstate
    have ⟨rest, hmerge⟩ := hchanged (by simp) hcleared
    exact ((writesMerge_iff hlog).mp hmerge).2
  · intro h
    exact ⟨fun htrue => absurd htrue (by simp),
      fun _ _ => ⟨[], (writesMerge_iff hlog).mpr ⟨rfl, h⟩⟩⟩

/-- After the commit, the cleanup decides: the merge is kept iff the commit has the merge's
parents or its metadata is still there. -/
theorem cleanupState_keepsMerge_iff (new : NewCommit)
    (hstate : (before.progress native).state = .merge) :
    KeepsMerge objects native before
        ((cleanupState api native).run (before.log native (.commit new))) ↔
      (∃ head, objects.ReadsHeadCommit native head ∧
        new.parents = head :: (before.progress native).mergeHead) ∨
      (api.stateCleanup native ≠ 0 ∧ api.cleanupRemoves native = false) := by
  by_cases hcleanup : api.stateCleanup native = 0
  · rw [cleanupState_succeeds_iff new hcleanup, or_iff_left]
    intro ⟨hfailed, _⟩
    exact hfailed hcleanup
  · cases hremoves : api.cleanupRemoves native with
    | true =>
      rw [cleanupState_removes_iff new hstate hcleanup hremoves, or_iff_left]
      intro ⟨_, hkept⟩
      cases hkept
    | false =>
      have hrun : (cleanupState api native).run (before.log native (.commit new)) =
          (.error (.git (api.stateCleanup native)), before.log native (.commit new)) := by
        simp [cleanupState, hcleanup, hremoves]
      rw [hrun]
      exact iff_of_true (keepsMerge_unchanged (by simp) rfl) (.inr ⟨hcleanup, rfl⟩)

/-- `Commit` in state Merge keeps the merge iff HEAD and MERGE_HEAD are readable or a step that
is not swallowed fails: other failures drop parents without a word. -/
theorem commit_merge_iff (paths : List NetString)
    (hlocate : GitRepository.locate before.disk.fs ⟨none⟩ path = .ok (true, ⟨some native⟩))
    (hstate : (before.progress native).state = .merge) :
    KeepsMerge objects native before
        ((commit api indexApi objects (path :: paths)).run before) ↔
      MergeReadable api objects native before ∨
        CommitStops api indexApi objects native before := by
  by_cases hplan : ∃ plan, planCommit api indexApi objects before path = .ok (some plan)
  · obtain ⟨plan, hplan⟩ := hplan
    obtain ⟨-, tree, -, -, -, -, rfl⟩ := (planCommit_eq_some hlocate hstate).mp hplan
    rw [commitStops_of_plan hlocate hstate hplan, ← parents_right_iff]
    rw [commit, Action.get_bind, hplan, Action.run_bind_ok rfl]
    dsimp only
    cases hcreate : api.createCommit native tree (headParent objects native ++
        mergeHeads api native (before.progress native)) with
    | error r =>
      rw [Action.run_bind_error (createCommit_error hcreate)]
      exact iff_of_true (keepsMerge_unchanged (by simp) rfl) (.inr (.inl ⟨r, rfl⟩))
    | ok id =>
      rw [Action.run_bind_ok (createCommit_ok hcreate), if_pos rfl, if_pos hstate]
      rw [cleanupState_keepsMerge_iff _ hstate]
      simp
  · exact iff_of_true (commit_without_plan paths hplan)
      (.inr (commitStops_of_no_plan hlocate hstate hplan))

end Merge

/-- A merge of commit 1 in the work tree of the examples. -/
def exampleMerge : CommitDisk where
  disk := exampleDisk (fun _ => .ok .file) []
  progress := fun _ => ⟨.merge, [[1]]⟩
  writes := []

def exampleCommitApi (mergeHeadForeach : Int) : CommitApi where
  writeTree _ := .ok [2]
  mergeHeadForeach _ := mergeHeadForeach
  createCommit _ _ _ := .ok [3]
  stateCleanup _ := 0
  cleanupRemoves _ := true

theorem commit_merge_one :
    KeepsMerge (headObjectApi .nil) exampleNative exampleMerge
      ((commit (exampleCommitApi 0) exampleApi (headObjectApi .nil) [examplePath [0x61]]).run
        exampleMerge) :=
  (commit_merge_iff [] (by decide) rfl).mpr
    (.inl ⟨⟨[], [0x48, 0x45, 0x41, 0x44], rfl, rfl, rfl⟩, .inl rfl⟩)

/-- MERGE_HEAD cannot be enumerated: the commit has one parent, and the merge is forgotten. -/
theorem commit_merge_forgotten :
    ¬∀ before : CommitDisk, (before.progress exampleNative).state = .merge →
      KeepsMerge (headObjectApi .nil) exampleNative before
        ((commit (exampleCommitApi (-1)) exampleApi (headObjectApi .nil)
          [examplePath [0x61]]).run before) := by
  intro h
  have ⟨⟨_, _, _, _, hwrites⟩, _⟩ := (h exampleMerge rfl).1 (by decide)
  have hparents : ((commit (exampleCommitApi (-1)) exampleApi (headObjectApi .nil)
      [examplePath [0x61]]).run exampleMerge).2.writes =
        [(exampleNative, .commit ⟨[3], [2], [[]]⟩), (exampleNative, .cleanup)] := by
    rfl
  rw [hparents] at hwrites
  simp [exampleMerge] at hwrites

end SharpGit.GitClient
