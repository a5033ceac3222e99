import SharpGit.GitClient.GitStage
import SharpGit.Plumbing.GitObject

namespace SharpGit.GitClient

open Library Native Svn Implementation Plumbing

/-- The tree of HEAD, null for an unborn HEAD or an unreadable tree. The outer none is the early
return where the reference does not resolve or the commit is not found. -/
def headTree (objects : ObjectApi) (repo : GitRepository) :
    Except Failure (Option (Option GitTree)) := do
  if repo.isHeadUnborn objects then return some none
  else
    let commitId ← repo.resolveReference objects (repo.headReference objects)
    match commitId with
    | none => return none
    | some commitId =>
      let commit ← repo.lookup objects .commit commitId
      match commit with
      | none => return none
      | some commit => return some (repo.commitTree objects commit)

/-- The body of the loop over the paths, behind `MakeRelpath`. -/
def unstageEntry (api : IndexApi) (objects : ObjectApi) (cTree : Option GitTree)
    (cPath : CStr) (index : Index) : Except Failure Index :=
  let iEntry := index.find? (sameKey cPath 0)
  let tEntry := cTree.bind fun tree => objects.entryByPath tree cPath
  match tEntry, iEntry with
  | none, some iEntry => checked (api.remove index cPath iEntry.stage)
  | some tEntry, _ => checked (api.add index ⟨cPath, 0, tEntry.mode, tEntry.id⟩)
  | none, none => .ok index

def unstagePath (api : IndexApi) (objects : ObjectApi) (repo : GitRepository)
    (cTree : Option GitTree) (index : Index) (path : NetString) : Except Failure Index := do
  let cPath ← repo.makeRelpath path
  match cPath with
  | none => .error .accessViolation
  | some cPath => unstageEntry api objects cTree cPath index

/-- `Unstage(IEnumerable<String^>^, GitUnstageArgs^)`. -/
def unstageAll (api : IndexApi) (objects : ObjectApi) (paths : List NetString) :
    Action Disk Failure Bool := do
  let disk ← Action.get
  let (located, repo) ← Action.ofExcept (locateAll disk.fs ⟨none⟩ paths)
  if !located then return false
  else if repo.isDisposed then return false
  else
    Action.ofExcept (assertNotBare repo)
    let tree ← Action.ofExcept (headTree objects repo)
    match tree with
    | none => return false
    | some cTree =>
      let index ← Action.ofExcept (repo.getIndexInstance api disk)
      let index ← Action.ofExcept (paths.foldlM (unstagePath api objects repo cTree) index)
      let native ← Action.ofExcept repo.handle
      GitIndex.write api native index

/-- `Unstage(String^, GitUnstageArgs^)`. -/
def unstage (api : IndexApi) (objects : ObjectApi) (path : NetString) :
    Action Disk Failure Bool := unstageAll api objects [path]

theorem headTree_of_readsHead {objects : ObjectApi} {native : NativeRepository} {tree : GitTree}
    (h : objects.ReadsHead native tree) :
    headTree objects ⟨some native⟩ = .ok (some (some tree)) := by
  obtain ⟨hborn, commit, ⟨reference, hhead, hresolve, hlookup⟩, htree⟩ := h
  simp [headTree, GitRepository.isHeadUnborn, GitRepository.headReference,
    GitRepository.resolveReference, GitRepository.lookup, GitRepository.commitTree,
    GitRepository.handle, Except.toOption, bind, Except.bind, pure, Except.pure, hborn, hhead,
    hresolve, hlookup, htree]

/-- One call after the other, as long as they return true. -/
def oneByOne (single : NetString → Action Disk Failure Bool) :
    List NetString → Action Disk Failure Bool
  | [] => return true
  | path :: paths => do
    let done ← single path
    if done then oneByOne single paths else return false

/-- The call on the list succeeds and leaves the index that the single calls leave. -/
def MatchesSequence (list : List NetString → Action Disk Failure Bool)
    (single : NetString → Action Disk Failure Bool) (paths : List NetString) (disk : Disk) : Prop :=
  ∃ after, (list paths).run disk = (.ok true, after) ∧
    ((oneByOne single paths).run disk).1 = .ok true ∧
    ((oneByOne single paths).run disk).2.index = after.index

theorem oneByOne_singleton (single : NetString → Action Disk Failure Bool) (path : NetString)
    (disk : Disk) :
    (oneByOne single [path]).run disk = (single path).run disk := by
  rw [oneByOne, Action.run_bind]
  obtain ⟨result, after⟩ := (single path).run disk
  cases result with
  | error e => rfl
  | ok done => cases done <;> rfl

/-- With a second path the second `Locate` is refused. -/
theorem locateAll_second {fs : FileSystem} {p q : NetString} {paths : List NetString}
    {native : NativeRepository}
    (hlocate : GitRepository.locate fs ⟨none⟩ p = .ok (true, ⟨some native⟩)) :
    locateAll fs ⟨none⟩ (p :: q :: paths) = .error .invalidOperation := by
  rw [locateAll, hlocate]
  rfl

theorem run_located_error {fs : FileSystem} {paths : List NetString} {e : Failure}
    (h : locateAll fs ⟨none⟩ paths = .error e)
    (next : Bool × GitRepository → Action Disk Failure Bool) (disk : Disk) :
    (Action.ofExcept (locateAll fs ⟨none⟩ paths) >>= next).run disk = (.error e, disk) := by
  apply Action.run_bind_error
  rw [Action.run_ofExcept, h]

theorem stageAll_second {api : IndexApi} {disk : Disk} {p q : NetString} {paths : List NetString}
    {native : NativeRepository}
    (hlocate : GitRepository.locate disk.fs ⟨none⟩ p = .ok (true, ⟨some native⟩)) :
    (stageAll api (p :: q :: paths)).run disk = (.error .invalidOperation, disk) := by
  rw [stageAll, Action.get_bind]
  exact run_located_error (locateAll_second hlocate) _ disk

theorem unstageAll_second {api : IndexApi} {objects : ObjectApi} {disk : Disk} {p q : NetString}
    {paths : List NetString} {native : NativeRepository}
    (hlocate : GitRepository.locate disk.fs ⟨none⟩ p = .ok (true, ⟨some native⟩)) :
    (unstageAll api objects (p :: q :: paths)).run disk = (.error .invalidOperation, disk) := by
  rw [unstageAll, Action.get_bind]
  exact run_located_error (locateAll_second hlocate) _ disk

/-- What an `Unstage` of one path that returns true has done. -/
theorem unstage_eq_true {api : IndexApi} {objects : ObjectApi} {path : NetString}
    {disk disk' : Disk} (h : (unstage api objects path).run disk = (.ok true, disk')) :
    ∃ native cTree cPath after,
      GitRepository.locate disk.fs ⟨none⟩ path = .ok (true, ⟨some native⟩) ∧
      native.bare = false ∧ headTree objects ⟨some native⟩ = .ok (some cTree) ∧
      GitRepository.makeRelpath ⟨some native⟩ path = .ok (some cPath) ∧
      api.openIndex disk.fs native = 0 ∧
      unstageEntry api objects cTree cPath (disk.index native) = .ok after ∧
      disk' = disk.setIndex native after := by
  rw [unstage, unstageAll, Action.get_bind] at h
  obtain ⟨⟨located, repo⟩, hall, h⟩ := Action.ofExcept_bind_eq_ok.mp h
  obtain ⟨rfl, native, rfl, hlocate⟩ := locateAll_single hall
  obtain ⟨_, hbare, h⟩ := Action.ofExcept_bind_eq_ok.mp h
  obtain ⟨tree, htree, h⟩ := Action.ofExcept_bind_eq_ok.mp h
  cases tree with
  | none => simp at h
  | some cTree =>
    obtain ⟨_, hindex, h⟩ := Action.ofExcept_bind_eq_ok.mp h
    obtain ⟨_, hrepo, hopen, rfl⟩ := GitRepository.getIndexInstance_eq_ok.mp hindex
    cases hrepo
    obtain ⟨after, hfold, h⟩ := Action.ofExcept_bind_eq_ok.mp h
    obtain ⟨_, hnative, h⟩ := Action.ofExcept_bind_eq_ok.mp h
    cases hnative
    obtain ⟨-, -, rfl⟩ := GitIndex.write_eq_ok.mp h
    obtain ⟨after', hpath, hnil⟩ := except_bind_eq_ok.mp hfold
    cases hnil
    obtain ⟨cPath, hrel, hentry⟩ := except_bind_eq_ok.mp hpath
    cases cPath with
    | none => cases hentry
    | some cPath =>
      exact ⟨native, cTree, cPath, after, hlocate, assertNotBare_eq_ok.mp hbare, htree, hrel,
        hopen, hentry, rfl⟩

/-- The run of an `Unstage` of one path whose steps all succeed. -/
theorem run_unstage {api : IndexApi} {objects : ObjectApi} {path : NetString} {disk : Disk}
    {native : NativeRepository} {cTree : Option GitTree} {cPath : CStr} {after : Index}
    (hlocate : GitRepository.locate disk.fs ⟨none⟩ path = .ok (true, ⟨some native⟩))
    (hbare : native.bare = false) (htree : headTree objects ⟨some native⟩ = .ok (some cTree))
    (hrel : GitRepository.makeRelpath ⟨some native⟩ path = .ok (some cPath))
    (hopen : api.openIndex disk.fs native = 0)
    (hentry : unstageEntry api objects cTree cPath (disk.index native) = .ok after)
    (hwrite : api.write native after = 0) :
    (unstage api objects path).run disk = (.ok true, disk.setIndex native after) := by
  rw [unstage, unstageAll, Action.get_bind]
  have hall : locateAll disk.fs ⟨none⟩ [path] = .ok (true, ⟨some native⟩) := by
    rw [locateAll, hlocate]
    rfl
  refine Action.ofExcept_bind_eq_ok.mpr ⟨_, hall, ?_⟩
  refine Action.ofExcept_bind_eq_ok.mpr ⟨(), assertNotBare_eq_ok.mpr hbare, ?_⟩
  refine Action.ofExcept_bind_eq_ok.mpr ⟨_, htree, ?_⟩
  refine Action.ofExcept_bind_eq_ok.mpr
    ⟨_, GitRepository.getIndexInstance_eq_ok.mpr ⟨native, rfl, hopen, rfl⟩, ?_⟩
  have hpath : unstagePath api objects ⟨some native⟩ cTree (disk.index native) path =
      .ok after := by
    rw [unstagePath, hrel]
    exact hentry
  have hfold : [path].foldlM (unstagePath api objects ⟨some native⟩ cTree)
      (disk.index native) = .ok after := by
    rw [List.foldlM_cons, hpath]
    rfl
  refine Action.ofExcept_bind_eq_ok.mpr ⟨_, hfold, ?_⟩
  exact GitIndex.write_eq_ok.mpr ⟨rfl, hwrite, rfl⟩

/-- A call on a list that does what the single call does on one path and is refused on two
matches the single calls exactly on one path. -/
theorem matchesSequence_iff {list : List NetString → Action Disk Failure Bool}
    {single : NetString → Action Disk Failure Bool} {disk : Disk} {paths : List NetString}
    (hne : paths ≠ []) (hone : ∀ p, p ∈ paths → (list [p]).run disk = (single p).run disk)
    (htwo : ∀ p q rest, paths = p :: q :: rest →
      (list (p :: q :: rest)).run disk = (.error .invalidOperation, disk))
    (hsingle : ∀ p ∈ paths, ∃ after, (single p).run disk = (.ok true, after)) :
    MatchesSequence list single paths disk ↔ paths.length = 1 := by
  match paths, hne with
  | [p], _ =>
    obtain ⟨after, hafter⟩ := hsingle p (by simp)
    refine iff_of_true ⟨after, ?_, ?_, ?_⟩ rfl
    · rw [hone p (by simp), hafter]
    · rw [oneByOne_singleton, hafter]
    · rw [oneByOne_singleton, hafter]
  | p :: q :: rest, _ =>
    refine iff_of_false ?_ (by simp)
    intro ⟨after, hlist, _⟩
    rw [htwo p q rest rfl] at hlist
    cases hlist

/-- `Stage` and `Unstage` on a list do what the single calls do, one after the other, exactly
when the list has one path: a second path meets the "not yet open" check of `Locate`. -/
theorem stage_unstage_list_iff (api : IndexApi) (objects : ObjectApi) (disk : Disk)
    (paths : List NetString) (hne : paths ≠ []) :
    ((∀ p ∈ paths, ∃ after, (stage api p).run disk = (.ok true, after)) →
      (MatchesSequence (stageAll api) (stage api) paths disk ↔ paths.length = 1)) ∧
    ((∀ p ∈ paths, ∃ after, (unstage api objects p).run disk = (.ok true, after)) →
      (MatchesSequence (unstageAll api objects) (unstage api objects) paths disk ↔
        paths.length = 1)) := by
  constructor
  · intro hsingle
    refine matchesSequence_iff hne ?_ ?_ hsingle
    · intro p hp
      obtain ⟨after, hafter⟩ := hsingle p hp
      have hpath : p ≠ [] := by
        intro heq
        subst heq
        cases hafter
      rw [stage, if_neg hpath]
    · intro p q rest heq
      subst heq
      obtain ⟨after, hafter⟩ := hsingle p (by simp)
      obtain ⟨native, -, -, hlocate, -⟩ := stage_eq_true hafter
      exact stageAll_second hlocate
  · intro hsingle
    refine matchesSequence_iff hne (fun _ _ => rfl) ?_ hsingle
    intro p q rest heq
    subst heq
    obtain ⟨after, hafter⟩ := hsingle p (by simp)
    obtain ⟨native, -, -, -, hlocate, -⟩ := unstage_eq_true hafter
    exact unstageAll_second hlocate

theorem stage_unstage_list_one :
    MatchesSequence (stageAll exampleApi) (stage exampleApi) [examplePath [0x61]]
        (exampleDisk (fun _ => .ok .file) []) ∧
      MatchesSequence (unstageAll exampleApi (headObjectApi .nil))
        (unstage exampleApi (headObjectApi .nil)) [examplePath [0x61]]
        (exampleDisk (fun _ => .ok .file) []) := by
  have h := stage_unstage_list_iff exampleApi (headObjectApi .nil)
    (exampleDisk (fun _ => .ok .file) []) [examplePath [0x61]] (by decide)
  refine ⟨(h.1 ?_).mpr rfl, (h.2 ?_).mpr rfl⟩
  · intro p hp
    obtain rfl := List.mem_singleton.mp hp
    exact ⟨_, Prod.ext (by decide) rfl⟩
  · intro p hp
    obtain rfl := List.mem_singleton.mp hp
    exact ⟨_, Prod.ext (by decide) rfl⟩

/-- `Stage` of a and of b succeeds, `Stage` of the list of both does not. -/
theorem stage_list_refused :
    ¬(∀ paths, paths ≠ [] →
      (∀ p ∈ paths, ∃ after,
        (stage exampleApi p).run (exampleDisk (fun _ => .ok .file) []) = (.ok true, after)) →
      MatchesSequence (stageAll exampleApi) (stage exampleApi) paths
        (exampleDisk (fun _ => .ok .file) [])) := by
  intro h
  obtain ⟨after, hlist, -⟩ := h [examplePath [0x61], examplePath [0x62]] (by decide) (by
    intro p hp
    rw [List.mem_cons, List.mem_singleton] at hp
    obtain rfl | rfl := hp
    · exact ⟨_, Prod.ext (by decide) rfl⟩
    · exact ⟨_, Prod.ext (by decide) rfl⟩)
  have hlocate : GitRepository.locate (exampleDisk (fun _ => .ok .file) []).fs ⟨none⟩
      (examplePath [0x61]) = .ok (true, ⟨some exampleNative⟩) := by decide
  rw [stageAll_second hlocate] at hlist
  cases hlist

end SharpGit.GitClient
