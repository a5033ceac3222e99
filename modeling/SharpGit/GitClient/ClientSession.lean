import SharpGit.GitClient.GitCommitCmd
import SharpGit.GitClient.GitDelete
import SharpGit.GitClient.GitUnstage
import SharpGit.Library.Runs

namespace SharpGit.GitClient

open Library Native Svn Implementation Plumbing

/-- One call, with the objects it finds; `outside` is another program that changes files. -/
inductive ClientCall
  | stage (paths : List NetString)
  | unstage (objects : ObjectApi) (paths : List NetString)
  | delete (files : LocalFiles) (path : NetString) (keepLocal : Bool)
  | commit (api : CommitApi) (objects : ObjectApi) (paths : List NetString)
  | outside (fs : FileSystem)

/-- A call that changes nothing but files and indexes. -/
def onDisk (act : Action Disk Failure Bool) : Action CommitDisk Failure Bool :=
  ⟨fun now => ((act.run now.disk).1, { now with disk := (act.run now.disk).2 })⟩

def ClientCall.perform (api : IndexApi) : ClientCall → Action CommitDisk Failure Bool
  | stage paths => onDisk (stageAll api paths)
  | unstage objects paths => onDisk (unstageAll api objects paths)
  | delete files path keepLocal => onDisk (GitClient.delete api files path keepLocal)
  | commit commitApi objects paths => GitClient.commit commitApi api objects paths
  | outside fs => onDisk ⟨fun disk => (.ok true, { disk with fs := fs })⟩

/-- What a call leaves, also where it ends in an exception: the caller may go on. -/
def afterCall (api : IndexApi) (now : CommitDisk) (call : ClientCall) : CommitDisk :=
  ((call.perform api).run now).2

/-- The path itself, what lies below it, and what it lies below. -/
def Near (cPath path : CStr) : Prop := path = cPath ∨ Below cPath path ∨ Below path cPath

/-- One of the paths is near `path` in the working copy of the repository. -/
def Names (native : NativeRepository) (paths : List NetString) (path : CStr) : Prop :=
  ∃ p ∈ paths, ∃ cPath,
    GitRepository.makeRelpath ⟨some native⟩ p = .ok (some cPath) ∧ Near cPath path

/-- The call may change what the index of the repository has at `path`. -/
def ClientCall.Concerns (native : NativeRepository) (path : CStr) : ClientCall → Prop
  | stage paths => Names native paths path
  | unstage _ paths => Names native paths path
  | delete _ p _ => ∃ relativePath,
      GitRepository.makeRelativePath ⟨some native⟩ p = .ok (some relativePath) ∧
      (path = allocRelpath relativePath ∨ Below (allocRelpath relativePath) path)
  | commit _ _ _ => False
  | outside _ => False

/-- The index stays sorted, and what is not near stays as it is. -/
structure Reindexed (near : CStr → Prop) (index after : Index) : Prop where
  sorted : SortedIndex after
  others : ∀ e : IndexEntry, ¬near e.path → (e ∈ after ↔ e ∈ index)

section Reindexed

variable {near wide : CStr → Prop} {index middle after : Index}

theorem Reindexed.refl (hs : SortedIndex index) : Reindexed near index index :=
  ⟨hs, fun _ _ => Iff.rfl⟩

theorem Reindexed.trans (h : Reindexed near index middle) (h' : Reindexed near middle after) :
    Reindexed near index after :=
  ⟨h'.sorted, fun e he => (h'.others e he).trans (h.others e he)⟩

theorem Reindexed.mono (h : Reindexed near index after) (hwide : ∀ path, near path → wide path) :
    Reindexed wide index after :=
  ⟨h.sorted, fun e he => h.others e fun hnear => he (hwide _ hnear)⟩

theorem Reindexed.filter (hs : SortedIndex index) {keep : IndexEntry → Bool}
    (hkeep : ∀ e, ¬near e.path → keep e = true) : Reindexed near index (index.filter keep) := by
  refine ⟨hs.sublist List.filter_sublist, fun e he => ?_⟩
  rw [List.mem_filter]
  exact and_iff_left (hkeep e he)

theorem Reindexed.places {e : IndexEntry} {dropped : IndexEntry → Prop}
    (h : Places e dropped index after) (he : near e.path)
    (hdropped : ∀ f, dropped f → near f.path) : Reindexed near index after := by
  refine ⟨h.sorted, fun f hf => ?_⟩
  have hne : f ≠ e := by
    intro heq
    subst heq
    exact hf he
  rw [h.mem, or_iff_right hne]
  exact and_iff_left fun hdrop => hf (hdropped f hdrop)

end Reindexed

section Stage

variable {api : IndexApi} {fs : FileSystem} {native : NativeRepository} {repoAbspath cPath : CStr}
  {index after : Index}

theorem near_of_collides {path : CStr} (h : Collides cPath path) : Near cPath path := by
  obtain h | h := h
  · exact .inr (.inl (.inr h))
  · exact .inr (.inr (.inr h))

theorem near_of_replaced {f : IndexEntry} (h : ReplacedByPath cPath f) : Near cPath f.path := by
  obtain h | ⟨-, h⟩ := h
  · exact .inl h
  · exact near_of_collides h

theorem reindexed_addByPath (hapi : api.Lawful) (hs : SortedIndex index)
    (h : api.addByPath fs native index cPath = (0, after)) :
    Reindexed (Near cPath) index after := by
  obtain ⟨mode, id, -, hplace⟩ := hapi.addsByPath fs native index cPath after hs h
  exact Reindexed.places hplace (.inl rfl) fun f => near_of_replaced

theorem reindexed_remove (hapi : api.Lawful) (hs : SortedIndex index) {e : IndexEntry}
    (he : e ∈ index) (hpath : e.path = cPath)
    (h : api.remove index cPath e.stage = (0, after)) : Reindexed (Near cPath) index after := by
  rw [hapi.removes index cPath e.stage hs ⟨e, he, sameKey_iff.mpr ⟨hpath, rfl⟩⟩] at h
  obtain ⟨-, rfl⟩ := Prod.mk.inj h
  apply Reindexed.filter hs
  intro f hf
  rw [Bool.not_eq_true', Bool.eq_false_iff, Ne, sameKey_iff]
  exact fun hkey => hf (.inl hkey.1)

theorem reindexed_removeDirectory (hapi : api.Lawful) (hs : SortedIndex index)
    (h : api.removeDirectory index cPath 0 = (0, after)) :
    Reindexed (Near cPath) index after := by
  rw [hapi.removesDirectory index cPath 0 hs] at h
  obtain ⟨-, rfl⟩ := Prod.mk.inj h
  apply Reindexed.filter hs
  intro f hf
  rw [decide_eq_true_eq]
  exact fun hbelow => hf (.inr (.inl hbelow.1))

theorem TurnStep.reindexed (hapi : api.Lawful) (hs : SortedIndex index) {kind : NodeKind}
    {nIndex nIndex' : Nat} {pathDone : Bool}
    (h : TurnStep api fs native cPath kind nIndex index pathDone nIndex' after) :
    Reindexed (Near cPath) index after := by
  cases h with
  | moveUp => exact .refl hs
  | replace _ _ _ hadd => exact reindexed_addByPath hapi hs hadd
  | remove hentry hpath _ hremove =>
    exact reindexed_remove hapi hs (List.mem_of_getElem? hentry) hpath hremove
  | removeDirectory _ _ _ _ hremove => exact reindexed_removeDirectory hapi hs hremove
  | keepDirectory => exact .refl hs
  | add _ _ hadd => exact reindexed_addByPath hapi hs hadd
  | skip => exact .refl hs

theorem stagePath_reindexed (hapi : api.Lawful) (hs : SortedIndex index) {fuel nIndex n : Nat}
    (h : stagePath api fs native repoAbspath cPath fuel nIndex index = .ok (n, after)) :
    Reindexed (Near cPath) index after := by
  induction fuel generalizing nIndex index with
  | zero => cases h
  | succ fuel ih =>
    obtain ⟨⟨pathDone, next, turned⟩, hturn, h⟩ := except_bind_eq_ok.mp h
    obtain ⟨kind, -, hstep⟩ := stageTurn_step hturn
    have hturned := hstep.reindexed hapi hs
    cases pathDone with
    | true =>
      cases h
      exact hturned
    | false => exact hturned.trans (ih hturned.sorted h)

theorem stageWalk_reindexed (hapi : api.Lawful) (hs : SortedIndex index) {cPaths : List CStr}
    {nIndex : Nat} (h : stageWalk api fs native repoAbspath cPaths nIndex index = .ok after) :
    Reindexed (fun path => ∃ cPath ∈ cPaths, Near cPath path) index after := by
  induction cPaths generalizing nIndex index with
  | nil =>
    cases h
    exact .refl hs
  | cons cPath cPaths ih =>
    obtain ⟨⟨next, staged⟩, hpath, h⟩ := except_bind_eq_ok.mp h
    have hstaged := stagePath_reindexed hapi hs hpath
    have hfirst : Reindexed (fun path => ∃ c ∈ cPath :: cPaths, Near c path) index staged :=
      hstaged.mono fun path hnear => ⟨cPath, List.mem_cons_self, hnear⟩
    refine hfirst.trans ((ih hstaged.sorted h).mono ?_)
    intro path hpath
    obtain ⟨c, hc, hnear⟩ := hpath
    exact ⟨c, List.mem_cons_of_mem _ hc, hnear⟩

end Stage

section Unstage

variable {api : IndexApi} {objects : ObjectApi} {native : NativeRepository}
  {cTree : Option GitTree} {cPath : CStr} {index after : Index}

theorem reindexed_add (hadds : api.Adds) (hs : SortedIndex index) {e : IndexEntry}
    (h : api.add index e = (0, after)) : Reindexed (Near e.path) index after := by
  apply Reindexed.places (hadds index e after hs h) (.inl rfl)
  intro f hf
  obtain hpath | hcollides := hf.2
  · exact .inl hpath
  · exact near_of_collides hcollides

theorem unstageEntry_reindexed (hapi : api.Lawful) (hadds : api.Adds) (hs : SortedIndex index)
    (h : unstageEntry api objects cTree cPath index = .ok after) :
    Reindexed (Near cPath) index after := by
  rw [unstageEntry] at h
  cases htree : cTree.bind fun tree => objects.entryByPath tree cPath with
  | some tEntry =>
    simp only [htree] at h
    exact reindexed_add hadds hs (checked_eq_ok.mp h)
  | none =>
    cases hentry : index.find? (sameKey cPath 0) with
    | some iEntry =>
      simp only [htree, hentry] at h
      exact reindexed_remove hapi hs (List.mem_of_find?_eq_some hentry)
        (sameKey_iff.mp (List.find?_some hentry)).1 (checked_eq_ok.mp h)
    | none =>
      simp only [htree, hentry] at h
      cases h
      exact .refl hs

theorem unstagePaths_reindexed (hapi : api.Lawful) (hadds : api.Adds) (hs : SortedIndex index)
    {paths : List NetString}
    (h : paths.foldlM (unstagePath api objects ⟨some native⟩ cTree) index = .ok after) :
    Reindexed (Names native paths) index after := by
  induction paths generalizing index with
  | nil =>
    cases h
    exact .refl hs
  | cons p paths ih =>
    rw [List.foldlM_cons] at h
    obtain ⟨unstaged, hpath, h⟩ := except_bind_eq_ok.mp h
    obtain ⟨relpath, hrel, hentry⟩ := except_bind_eq_ok.mp hpath
    cases relpath with
    | none => cases hentry
    | some cPath =>
      have hfirst : Reindexed (Names native (p :: paths)) index unstaged :=
        (unstageEntry_reindexed hapi hadds hs hentry).mono
          fun path hnear => ⟨p, List.mem_cons_self, cPath, hrel, hnear⟩
      refine hfirst.trans ((ih hfirst.sorted h).mono ?_)
      intro path hpath
      obtain ⟨q, hq, hnear⟩ := hpath
      exact ⟨q, List.mem_cons_of_mem _ hq, hnear⟩

end Unstage

theorem remove_reindexed {api : IndexApi} (hapi : api.Lawful) {index after : Index}
    (hs : SortedIndex index) {relativePath : NetString} {removed : Bool}
    (h : GitIndex.remove api index relativePath true = .ok (removed, after)) :
    Reindexed (fun path => path = allocRelpath relativePath ∨
      Below (allocRelpath relativePath) path) index after := by
  by_cases hnil : relativePath = []
  · rw [GitIndex.remove, if_pos hnil] at h
    cases h
  rw [GitIndex.remove_eq hapi.removes hs hnil] at h
  obtain ⟨-, rfl⟩ := Prod.mk.inj (Except.ok.inj h)
  refine ⟨hs.sublist (skipRemove_sublist index), fun e he => mem_skipRemove_of_miss ?_ index⟩
  rw [Bool.eq_false_iff, Ne, GitIndex.removeMatches_iff]
  intro haddressed
  obtain hpath | ⟨-, hbelow⟩ := haddressed
  · exact he (.inl hpath)
  · exact he (.inr hbelow)

/-- The index of every repository is changed at most where the call may. -/
def KeepsOthers (concerns : NativeRepository → CStr → Prop) (disk after : Disk) : Prop :=
  (∀ native, SortedIndex (disk.index native)) →
    ∀ native, Reindexed (concerns native) (disk.index native) (after.index native)

section Calls

variable {api : IndexApi} {concerns : NativeRepository → CStr → Prop}

theorem KeepsOthers.refl {disk after : Disk} (h : after.index = disk.index) :
    KeepsOthers concerns disk after := by
  intro hs native
  rw [h]
  exact .refl (hs native)

theorem KeepsOthers.setIndex {disk : Disk} {native : NativeRepository} {index : Index}
    (h : SortedIndex (disk.index native) →
      Reindexed (concerns native) (disk.index native) index) :
    KeepsOthers concerns disk (disk.setIndex native index) := by
  intro hs other
  rw [Disk.setIndex]
  by_cases hother : other = native
  · subst hother
    simpa using h (hs other)
  · simpa [hother] using .refl (hs other)

theorem write_keepsOthers {disk : Disk} {native : NativeRepository} {index : Index}
    (h : SortedIndex (disk.index native) →
      Reindexed (concerns native) (disk.index native) index) :
    KeepsOthers concerns disk ((GitIndex.write api native index).run disk).2 := by
  rw [GitIndex.run_write]
  split_ifs
  · exact .setIndex h
  · exact .refl rfl

theorem mapM_id_eq_some {α : Type} {xs : List (Option α)} {ys : List α}
    (h : xs.mapM id = some ys) : xs = ys.map some := by
  induction xs generalizing ys with
  | nil =>
    cases h
    rfl
  | cons x xs ih =>
    rw [List.mapM_cons] at h
    obtain ⟨first, hfirst, h⟩ := Option.bind_eq_some_iff.mp h
    obtain ⟨rest, hrest, h⟩ := Option.bind_eq_some_iff.mp h
    cases h
    rw [ih hrest, List.map_cons, ← hfirst]
    rfl

theorem stageAll_keepsOthers (hapi : api.Lawful) (paths : List NetString) (disk : Disk) :
    KeepsOthers (fun native => Names native paths) disk ((stageAll api paths).run disk).2 := by
  have hsame : KeepsOthers (fun native => Names native paths) disk disk := .refl rfl
  rw [stageAll, Action.get_bind]
  apply Action.ofExcept_bind_keeps hsame
  intro found hall
  obtain ⟨located, repo⟩ := found
  cases located with
  | false => exact hsame
  | true =>
    by_cases hdisposed : repo.isDisposed = true
    · simpa [hdisposed] using hsame
    dsimp only
    rw [if_neg (by decide : ¬(!true) = true), if_neg hdisposed]
    refine Action.ofExcept_bind_keeps hsame fun _ _ => ?_
    refine Action.ofExcept_bind_keeps hsame fun relpaths hrelpaths => ?_
    refine Action.ofExcept_bind_keeps hsame fun index hindex => ?_
    obtain ⟨native, rfl, -, rfl⟩ := GitRepository.getIndexInstance_eq_ok.mp hindex
    refine Action.ofExcept_bind_keeps hsame fun _ hnative => ?_
    cases hnative
    refine Action.ofExcept_bind_keeps hsame fun cPaths hcPaths => ?_
    refine Action.ofExcept_bind_keeps hsame fun after hwalk => ?_
    apply write_keepsOthers
    intro hs
    refine (stageWalk_reindexed hapi hs hwalk).mono ?_
    intro path hpath
    obtain ⟨cPath, hmem, hnear⟩ := hpath
    rw [sortPaths, List.mem_insertionSort] at hmem
    cases hnull : relpaths.mapM id with
    | none =>
      rw [hnull] at hcPaths
      cases hcPaths
    | some found =>
      rw [hnull] at hcPaths
      cases hcPaths
      have hrel : some cPath ∈ relpaths := by
        rw [mapM_id_eq_some hnull]
        exact List.mem_map_of_mem hmem
      obtain ⟨p, hp, hp'⟩ := mem_of_mapM_eq_ok hrelpaths hrel
      exact ⟨p, hp, cPath, hp', hnear⟩

theorem unstageAll_keepsOthers (hapi : api.Lawful) (hadds : api.Adds) (objects : ObjectApi)
    (paths : List NetString) (disk : Disk) :
    KeepsOthers (fun native => Names native paths) disk
      ((unstageAll api objects paths).run disk).2 := by
  have hsame : KeepsOthers (fun native => Names native paths) disk disk := .refl rfl
  rw [unstageAll, Action.get_bind]
  apply Action.ofExcept_bind_keeps hsame
  intro found hall
  obtain ⟨located, repo⟩ := found
  cases located with
  | false => exact hsame
  | true =>
    by_cases hdisposed : repo.isDisposed = true
    · simpa [hdisposed] using hsame
    dsimp only
    rw [if_neg (by decide : ¬(!true) = true), if_neg hdisposed]
    refine Action.ofExcept_bind_keeps hsame fun _ _ => ?_
    refine Action.ofExcept_bind_keeps hsame fun tree _ => ?_
    cases tree with
    | none => exact hsame
    | some cTree =>
      refine Action.ofExcept_bind_keeps hsame fun index hindex => ?_
      obtain ⟨native, rfl, -, rfl⟩ := GitRepository.getIndexInstance_eq_ok.mp hindex
      refine Action.ofExcept_bind_keeps hsame fun after hfold => ?_
      refine Action.ofExcept_bind_keeps hsame fun _ hnative => ?_
      cases hnative
      exact write_keepsOthers fun hs => unstagePaths_reindexed hapi hadds hs hfold

theorem deleteLocal_keepsIndex (files : LocalFiles) (path : NetString) (disk : Disk) :
    ((deleteLocal files path).run disk).2.index = disk.index := by
  rw [deleteLocal, Action.get_bind]
  split_ifs
  · exact Action.ofExcept_bind_keeps (P := fun after : Disk => after.index = disk.index) rfl
      fun _ _ => rfl
  · exact Action.ofExcept_bind_keeps (P := fun after : Disk => after.index = disk.index) rfl
      fun _ _ => rfl
  · rfl

theorem delete_keepsOthers (hapi : api.Lawful) (files : LocalFiles) (p : NetString)
    (keepLocal : Bool) (disk : Disk) :
    KeepsOthers (fun native path => (ClientCall.delete files p keepLocal).Concerns native path) disk
      ((delete api files p keepLocal).run disk).2 := by
  have hsame : KeepsOthers
    (fun native path => (ClientCall.delete files p keepLocal).Concerns native path) disk disk :=
    .refl rfl
  by_cases hnil : p = []
  · rw [delete, if_pos hnil]
    exact hsame
  rw [delete, if_neg hnil, Action.get_bind]
  apply Action.ofExcept_bind_keeps hsame
  intro found hlocate
  obtain ⟨located, repo⟩ := found
  cases located with
  | false => exact hsame
  | true =>
    dsimp only
    rw [if_pos rfl]
    refine Action.ofExcept_bind_keeps hsame fun _ _ => ?_
    refine Action.ofExcept_bind_keeps hsame fun index hindex => ?_
    obtain ⟨native, rfl, -, rfl⟩ := GitRepository.getIndexInstance_eq_ok.mp hindex
    refine Action.ofExcept_bind_keeps hsame fun relativePath hrel => ?_
    refine Action.ofExcept_bind_keeps hsame fun result hremove => ?_
    obtain ⟨removed, index⟩ := result
    cases removed with
    | false => exact hsame
    | true =>
      dsimp only
      rw [if_pos rfl]
      refine Action.ofExcept_bind_keeps hsame fun _ hnative => ?_
      cases hnative
      have hreindexed (hs : SortedIndex (disk.index native)) :
          Reindexed ((fun path => (ClientCall.delete files p keepLocal).Concerns native path))
            (disk.index native) index := by
        refine (remove_reindexed hapi hs hremove).mono fun path hnear => ?_
        cases relativePath with
        | none => cases hremove
        | some relativePath => exact ⟨relativePath, hrel, hnear⟩
      have hwrite := @write_keepsOthers api
        (fun native path => (ClientCall.delete files p keepLocal).Concerns native path) disk native
        index hreindexed
      rw [Action.run_bind]
      cases hrun : (GitIndex.write api native index).run disk with
      | mk result after =>
        rw [hrun] at hwrite
        cases result with
        | error e => exact hwrite
        | ok written =>
          cases written with
          | false => exact hwrite
          | true =>
            cases keepLocal with
            | true => exact hwrite
            | false =>
              intro hs other
              have hlocal := deleteLocal_keepsIndex files p after
              have hrest : (((deleteLocal files p >>= fun _ => pure true :
                  Action Disk Failure Bool).run after).2).index = after.index := by
                rw [Action.run_bind]
                cases hdelete : (deleteLocal files p).run after with
                | mk result deleted =>
                  rw [hdelete] at hlocal
                  cases result <;> exact hlocal
              change Reindexed _ _ ((((deleteLocal files p >>= fun _ => pure true :
                  Action Disk Failure Bool).run after).2).index other)
              rw [hrest]
              exact hwrite hs other

end Calls

section Commit

variable {api : CommitApi} {indexApi : IndexApi} {objects : ObjectApi}

/-- The parent from HEAD: its commit, unless it cannot be read. -/
def HeadRecorded (objects : ObjectApi) (native : NativeRepository) (first : List Oid) : Prop :=
  (∃ head, objects.ReadsHeadCommit native head ∧ first = [head]) ∨
    ((¬∃ head, objects.ReadsHeadCommit native head) ∧ first = [])

/-- The other parents: in a merge the commits of MERGE_HEAD, unless it cannot be enumerated. -/
def MergeRecorded (api : CommitApi) (objects : ObjectApi) (native : NativeRepository)
    (progress : Progress) (others : List Oid) : Prop :=
  (progress.state = .none ∧ others = []) ∨
    (progress.state = .merge ∧
      (∀ id ∈ others, objects.lookup native id .commit = .ok true) ∧
      ((api.mergeHeadForeach native = 0 ∧ others = progress.mergeHead) ∨
        (api.mergeHeadForeach native ≠ 0 ∧ others = [])))

/-- The commit records the index on disk, on top of HEAD's commit and the merge heads as far as
they can be read. -/
def Records (api : CommitApi) (objects : ObjectApi) (now : CommitDisk)
    (native : NativeRepository) (new : NewCommit) : Prop :=
  api.writeTree (now.disk.index native) = .ok new.tree ∧ ∃ first others,
    new.parents = first ++ others ∧ HeadRecorded objects native first ∧
    MergeRecorded api objects native (now.progress native) others

theorem headParents_recorded {native : NativeRepository} {first : List Oid}
    (h : headParents objects ⟨some native⟩ = .ok first) : HeadRecorded objects native first := by
  obtain ⟨-, rfl⟩ := headParents_eq_ok.mp h
  by_cases hread : ∃ head, objects.ReadsHeadCommit native head
  · obtain ⟨head, hread⟩ := hread
    exact .inl ⟨head, hread, headParent_of_reads hread⟩
  · refine .inr ⟨hread, ?_⟩
    rw [headParent]
    cases hhead : objects.head native with
    | error r => rfl
    | ok reference =>
      dsimp only
      cases hresolve : objects.resolve native reference with
      | error r => rfl
      | ok id =>
        dsimp only
        rw [if_neg]
        intro hlookup
        exact hread ⟨id, reference, hhead, hresolve, hlookup⟩

theorem stateParents_recorded {native : NativeRepository} {progress : Progress}
    {others : List Oid}
    (h : stateParents api objects ⟨some native⟩ native progress = .ok others) :
    MergeRecorded api objects native progress others := by
  rw [stateParents] at h
  cases hstate : progress.state with
  | none =>
    rw [hstate] at h
    cases h
    exact .inl ⟨hstate, rfl⟩
  | merge =>
    rw [hstate] at h
    obtain ⟨hcommits, rfl⟩ := mapM_mergeParent_eq_ok.mp h
    refine .inr ⟨hstate, hcommits, ?_⟩
    rw [mergeHeads]
    by_cases heach : api.mergeHeadForeach native = 0
    · exact .inl ⟨heach, if_pos heach⟩
    · exact .inr ⟨heach, if_neg heach⟩
  | other code =>
    rw [hstate] at h
    cases h

theorem planCommit_records {now : CommitDisk} {path : NetString} {native : NativeRepository}
    {tree : Oid} {parents : List Oid}
    (h : planCommit api indexApi objects now path = .ok (some (native, tree, parents)))
    (id : Oid) : Records api objects now native ⟨id, tree, parents⟩ := by
  obtain ⟨⟨located, repo⟩, hlocate, h⟩ := except_bind_eq_ok.mp h
  cases located with
  | false => cases h
  | true =>
    obtain ⟨index, hindex, h⟩ := except_bind_eq_ok.mp h
    obtain ⟨native', rfl, -, rfl⟩ := GitRepository.getIndexInstance_eq_ok.mp hindex
    obtain ⟨written, htree, h⟩ := except_bind_eq_ok.mp h
    obtain ⟨found, hfound, h⟩ := except_bind_eq_ok.mp h
    obtain ⟨b, -, rfl⟩ := lookup_eq_ok.mp hfound
    cases b with
    | false => cases h
    | true =>
      obtain ⟨_, hnative, h⟩ := except_bind_eq_ok.mp h
      cases hnative
      obtain ⟨first, hfirst, h⟩ := except_bind_eq_ok.mp h
      obtain ⟨others, hothers, h⟩ := except_bind_eq_ok.mp h
      cases h
      exact ⟨createTree_eq_ok.mp htree, first, others, rfl, headParents_recorded hfirst,
        stateParents_recorded hothers⟩

theorem cleanupState_writes (native : NativeRepository) (now : CommitDisk) :
    ((cleanupState api native).run now).2.disk = now.disk ∧
    ∃ new, ((cleanupState api native).run now).2.writes = now.writes ++ new ∧
      ∀ write ∈ new, write = (native, RepositoryWrite.cleanup) := by
  have hnone : ∃ new, now.writes = now.writes ++ new ∧
      ∀ write ∈ new, write = (native, RepositoryWrite.cleanup) :=
    ⟨[], (List.append_nil _).symm, fun _ h => absurd h List.not_mem_nil⟩
  rw [cleanupState]
  split_ifs
  · exact ⟨rfl, _, rfl, fun _ h => List.mem_singleton.mp h⟩
  · exact ⟨rfl, hnone⟩
  · exact ⟨rfl, hnone⟩

/-- What a commit writes: nothing, or a commit that records the index and perhaps a cleanup. -/
theorem commit_writes (paths : List NetString) (now : CommitDisk) :
    ((commit api indexApi objects paths).run now).2.disk = now.disk ∧
    ∃ new, ((commit api indexApi objects paths).run now).2.writes = now.writes ++ new ∧
      ∀ native c, (native, RepositoryWrite.commit c) ∈ new → Records api objects now native c := by
  have hnone : ∃ new, now.writes = now.writes ++ new ∧
      ∀ native c, (native, RepositoryWrite.commit c) ∈ new →
        Records api objects now native c :=
    ⟨[], (List.append_nil _).symm, fun _ _ h => absurd h List.not_mem_nil⟩
  cases paths with
  | nil => exact ⟨rfl, hnone⟩
  | cons path paths =>
    rw [commit, Action.get_bind]
    cases hplan : planCommit api indexApi objects now path with
    | error e => exact ⟨rfl, hnone⟩
    | ok plan =>
      rw [Action.run_bind_ok rfl]
      cases plan with
      | none => exact ⟨rfl, hnone⟩
      | some plan =>
        obtain ⟨native, tree, parents⟩ := plan
        dsimp only
        cases hcreate : api.createCommit native tree parents with
        | error r =>
          have hrun : (createCommit api native tree parents).run now = (.error (.git r), now) := by
            rw [createCommit, hcreate]
            rfl
          rw [Action.run_bind_error hrun]
          exact ⟨rfl, hnone⟩
        | ok id =>
          have hrun : (createCommit api native tree parents).run now =
              (.ok true, now.log native (.commit ⟨id, tree, parents⟩)) := by
            rw [createCommit, hcreate]
            rfl
          rw [Action.run_bind_ok hrun, if_pos rfl]
          have hrecords := planCommit_records hplan id
          split_ifs
          · obtain ⟨hdisk, tail, hwrites, hcleanup⟩ := @cleanupState_writes api native
              (now.log native (.commit ⟨id, tree, parents⟩))
            refine ⟨hdisk, _, hwrites.trans (List.append_assoc _ _ _), ?_⟩
            intro other c hmem
            obtain hmem | hmem := List.mem_append.mp hmem
            · obtain ⟨rfl, heq⟩ := Prod.mk.inj (List.mem_singleton.mp hmem)
              cases heq
              exact hrecords
            · cases hcleanup _ hmem
          · refine ⟨rfl, _, rfl, ?_⟩
            intro other c hmem
            obtain ⟨rfl, heq⟩ := Prod.mk.inj (List.mem_singleton.mp hmem)
            cases heq
            exact hrecords

end Commit

section Session

variable {api : IndexApi}

theorem afterCall_keepsOthers (hapi : api.Lawful) (hadds : api.Adds) (now : CommitDisk)
    (call : ClientCall) :
    KeepsOthers (fun native path => call.Concerns native path) now.disk
      (afterCall api now call).disk := by
  cases call with
  | stage paths => exact stageAll_keepsOthers hapi paths now.disk
  | unstage objects paths => exact unstageAll_keepsOthers hapi hadds objects paths now.disk
  | delete files p keepLocal => exact delete_keepsOthers hapi files p keepLocal now.disk
  | commit commitApi objects paths =>
    exact .refl (congrArg Disk.index (commit_writes paths now).1)
  | outside fs => exact .refl rfl

/-- The indexes are sorted, and what no call concerns is as it was at the start. -/
theorem session_keeps (hapi : api.Lawful) (hadds : api.Adds) {calls : List ClientCall}
    {start : CommitDisk} (hs : ∀ native, SortedIndex (start.disk.index native))
    (native : NativeRepository) :
    Reindexed (fun path => ∃ call ∈ calls, call.Concerns native path) (start.disk.index native)
      ((Events.run (afterCall api) start calls).disk.index native) := by
  have hstep : ∀ now, ∀ call ∈ calls,
      (∀ native, Reindexed (fun path => ∃ call ∈ calls, call.Concerns native path)
        (start.disk.index native) (now.disk.index native)) →
      ∀ native, Reindexed (fun path => ∃ call ∈ calls, call.Concerns native path)
        (start.disk.index native) ((afterCall api now call).disk.index native) := by
    intro now call hcall hnow native
    have hchange := afterCall_keepsOthers hapi hadds now call
      (fun native => (hnow native).sorted) native
    exact (hnow native).trans (hchange.mono fun path hconcerns => ⟨call, hcall, hconcerns⟩)
  exact Events.run_of_forall
    (fun now : CommitDisk => ∀ native,
      Reindexed (fun path => ∃ call ∈ calls, call.Concerns native path)
        (start.disk.index native) (now.disk.index native))
    hstep (fun native => .refl (hs native)) native

/-- A working copy with the entries a and b. -/
def exampleStart : CommitDisk where
  disk := exampleDisk (fun _ => .ok .file) [exampleEntry [0x61], exampleEntry [0x62]]
  progress _ := ⟨.none, []⟩
  writes := []

theorem exampleStart_sorted (native : NativeRepository) :
    SortedIndex (exampleStart.disk.index native) := by
  change SortedIndex [exampleEntry [0x61], exampleEntry [0x62]]
  decide

theorem afterCall_writes (now : CommitDisk) (call : ClientCall) :
    ∃ log, (afterCall api now call).writes = now.writes ++ log ∧
      ∀ native new, (native, RepositoryWrite.commit new) ∈ log →
        ∃ commitApi objects paths, call = .commit commitApi objects paths ∧
          Records commitApi objects now native new := by
  have hnone : ∃ log, now.writes = now.writes ++ log ∧
      ∀ native new, (native, RepositoryWrite.commit new) ∈ log →
        ∃ commitApi objects paths, call = .commit commitApi objects paths ∧
          Records commitApi objects now native new :=
    ⟨[], (List.append_nil _).symm, fun _ _ h => absurd h List.not_mem_nil⟩
  cases call with
  | commit commitApi objects paths =>
    obtain ⟨-, log, hlog, hrecords⟩ :=
      @commit_writes commitApi api objects paths now
    exact ⟨log, hlog, fun native new h => ⟨commitApi, objects, paths, rfl, hrecords native new h⟩⟩
  | stage paths => exact hnone
  | unstage objects paths => exact hnone
  | delete files p keepLocal => exact hnone
  | outside fs => exact hnone

/-- Every commit of a run is that of one of its calls, made where the calls before it led. -/
theorem session_writes (calls : List ClientCall) (start : CommitDisk) :
    ∃ log, (Events.run (afterCall api) start calls).writes = start.writes ++ log ∧
      ∀ native new, (native, RepositoryWrite.commit new) ∈ log →
        ∃ front commitApi objects paths back,
          calls = front ++ .commit commitApi objects paths :: back ∧
          Records commitApi objects (Events.run (afterCall api) start front) native new := by
  induction calls generalizing start with
  | nil => exact ⟨[], (List.append_nil _).symm, fun _ _ h => absurd h List.not_mem_nil⟩
  | cons call calls ih =>
    obtain ⟨first, hfirst, hcall⟩ := @afterCall_writes api start call
    obtain ⟨rest, hrest, hcalls⟩ := ih (afterCall api start call)
    refine ⟨first ++ rest, ?_, ?_⟩
    · rw [← List.append_assoc, ← hfirst]
      exact hrest
    · intro native new hmem
      obtain hmem | hmem := List.mem_append.mp hmem
      · obtain ⟨commitApi, objects, paths, rfl, hrecords⟩ := hcall native new hmem
        exact ⟨[], commitApi, objects, paths, calls, rfl, hrecords⟩
      · obtain ⟨front, commitApi, objects, paths, back, rfl, hrecords⟩ := hcalls native new hmem
        exact ⟨call :: front, commitApi, objects, paths, back, rfl, hrecords⟩

end Session

end SharpGit.GitClient
