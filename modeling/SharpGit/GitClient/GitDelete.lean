import SharpGit.GitClient.GitStage

namespace SharpGit.GitClient

open Library Native Svn Implementation Plumbing

/-- The file and directory calls of the runtime that `Delete` makes. -/
structure LocalFiles where
  fileExists : FileSystem → NetString → Bool
  deleteFile : FileSystem → NetString → Except Failure FileSystem
  directoryExists : FileSystem → NetString → Bool
  deleteDirectory : FileSystem → NetString → Except Failure FileSystem

def deleteLocal (files : LocalFiles) (path : NetString) : Action Disk Failure Unit := do
  let disk ← Action.get
  if files.fileExists disk.fs path then
    let fs ← Action.ofExcept (files.deleteFile disk.fs path)
    Action.modify fun disk => { disk with fs := fs }
  else if files.directoryExists disk.fs path then
    let fs ← Action.ofExcept (files.deleteDirectory disk.fs path)
    Action.modify fun disk => { disk with fs := fs }

def delete (api : IndexApi) (files : LocalFiles) (path : NetString) (keepLocal : Bool) :
    Action Disk Failure Bool := do
  if path = [] then Action.raise (.argumentNull "path")
  else
    let disk ← Action.get
    let (located, repo) ← Action.ofExcept (GitRepository.locate disk.fs ⟨none⟩ path)
    if located then
      Action.ofExcept (assertNotBare repo)
      let index ← Action.ofExcept (repo.getIndexInstance api disk)
      let relativePath ← Action.ofExcept (repo.makeRelativePath path)
      let (removed, index) ← Action.ofExcept
        (GitIndex.remove api index (relativePath.getD []) true)
      if removed then
        let native ← Action.ofExcept repo.handle
        let written ← GitIndex.write api native index
        if written then
          if !keepLocal then deleteLocal files path
          return true
        else return false
      else return false
    else return false

/-- The working copy is deleted without touching an index. -/
theorem deleteLocal_index {files : LocalFiles} {path : NetString} {disk disk' : Disk}
    (h : (deleteLocal files path).run disk = (.ok (), disk')) : disk'.index = disk.index := by
  rw [deleteLocal, Action.get_bind] at h
  split_ifs at h
  · obtain ⟨fs, -, h⟩ := Action.ofExcept_bind_eq_ok.mp h
    obtain ⟨-, rfl⟩ := Prod.mk.inj h
    rfl
  · obtain ⟨fs, -, h⟩ := Action.ofExcept_bind_eq_ok.mp h
    obtain ⟨-, rfl⟩ := Prod.mk.inj h
    rfl
  · obtain ⟨-, rfl⟩ := Prod.mk.inj h
    rfl

/-- A `Delete` that returns true has removed something from the index and written the rest. -/
theorem delete_eq_true {api : IndexApi} {files : LocalFiles} {path : NetString}
    {keepLocal : Bool} {disk disk' : Disk}
    (h : (delete api files path keepLocal).run disk = (.ok true, disk')) :
    ∃ native relativePath index,
      GitRepository.locate disk.fs ⟨none⟩ path = .ok (true, ⟨some native⟩) ∧
      GitRepository.makeRelativePath ⟨some native⟩ path = .ok relativePath ∧
      GitIndex.remove api (disk.index native) (relativePath.getD []) true = .ok (true, index) ∧
      disk'.index native = index := by
  by_cases hpath : path = []
  · rw [delete, if_pos hpath] at h
    simp at h
  rw [delete, if_neg hpath, Action.get_bind] at h
  obtain ⟨⟨located, repo⟩, hlocate, h⟩ := Action.ofExcept_bind_eq_ok.mp h
  cases located with
  | false => simp at h
  | true =>
    obtain ⟨_, -, h⟩ := Action.ofExcept_bind_eq_ok.mp h
    obtain ⟨_, hopen, h⟩ := Action.ofExcept_bind_eq_ok.mp h
    obtain ⟨native, rfl, -, rfl⟩ := GitRepository.getIndexInstance_eq_ok.mp hopen
    obtain ⟨relativePath, hrel, h⟩ := Action.ofExcept_bind_eq_ok.mp h
    obtain ⟨⟨removed, index⟩, hremove, h⟩ := Action.ofExcept_bind_eq_ok.mp h
    cases removed with
    | false => simp at h
    | true =>
      refine ⟨native, relativePath, index, hlocate, hrel, hremove, ?_⟩
      obtain ⟨_, hhandle, h⟩ := Action.ofExcept_bind_eq_ok.mp h
      obtain rfl := Except.ok.inj hhandle
      obtain ⟨written, disk₁, hwrite, h⟩ := Action.bind_eq_ok.mp h
      obtain ⟨rfl, -, rfl⟩ := GitIndex.write_eq_ok.mp hwrite
      rw [if_pos rfl] at h
      cases keepLocal with
      | true =>
        obtain ⟨-, rfl⟩ := Prod.mk.inj h
        exact disk.setIndex_index native index
      | false =>
        obtain ⟨_, disk₂, hlocal, h⟩ := Action.bind_eq_ok.mp h
        obtain ⟨-, rfl⟩ := Prod.mk.inj h
        rw [deleteLocal_index hlocal]
        exact disk.setIndex_index native index

/-- A canonical relpath as a managed string. -/
structure IsRelpathString (p : NetString) : Prop where
  canonical : relpathIsCanonical (utf8GetBytes p) = true
  no_backslash : backslash ∉ utf8GetBytes p

/-- `Remove` leaves exactly the other entries, in order, and says whether there was one. -/
def RemovesExactly (api : IndexApi) (index : Index) (p : NetString) (recursive : Bool) : Prop :=
  ∃ deletedOne after, GitIndex.remove api index p recursive = .ok (deletedOne, after) ∧
    after = index.filter (fun e => ¬Addresses (utf8GetBytes p) recursive e) ∧
    (deletedOne = true ↔ ∃ e ∈ index, Addresses (utf8GetBytes p) recursive e)

/-- No two neighbours of the index are both addressed. -/
def NoNeighbours (path : CStr) (recursive : Bool) (index : Index) : Prop :=
  index.IsChain fun e f => ¬(Addresses path recursive e ∧ Addresses path recursive f)

instance (path : CStr) (recursive : Bool) (index : Index) :
    Decidable (NoNeighbours path recursive index) :=
  inferInstanceAs (Decidable (List.IsChain _ index))

theorem noNeighbours_iff {path : CStr} {recursive : Bool} {index : Index} :
    NoNeighbours path recursive index ↔
      index.IsChain fun e f => ¬(GitIndex.removeMatches path recursive e = true ∧
        GitIndex.removeMatches path recursive f = true) := by
  simp only [NoNeighbours, GitIndex.removeMatches_iff]

theorem removesExactly_iff {api : IndexApi} (hapi : api.Removes) {index : Index}
    (hs : SortedIndex index) {p : NetString} (hp : IsRelpathString p) (recursive : Bool) :
    RemovesExactly api index p recursive ↔
      p ≠ [] ∧ NoNeighbours (utf8GetBytes p) recursive index := by
  by_cases hnil : p = []
  · simp [RemovesExactly, GitIndex.remove, hnil]
  have hfilter : (index.filter fun e => ¬Addresses (utf8GetBytes p) recursive e) =
      index.filter fun e => !GitIndex.removeMatches (utf8GetBytes p) recursive e := by
    apply List.filter_congr
    intro e _
    rw [Bool.eq_iff_iff]
    simp [← GitIndex.removeMatches_iff]
  have hany : index.any (GitIndex.removeMatches (utf8GetBytes p) recursive) = true ↔
      ∃ e ∈ index, Addresses (utf8GetBytes p) recursive e := by
    simp [GitIndex.removeMatches_iff]
  have hrun := GitIndex.remove_eq hapi hs hnil recursive
  rw [allocRelpath_canonical hp.canonical hp.no_backslash] at hrun
  rw [RemovesExactly, hrun, noNeighbours_iff, ← skipRemove_eq_filter_iff, ← hfilter,
    and_iff_right hnil]
  constructor
  · intro h
    obtain ⟨deletedOne, after, hremoved, hafter, -⟩ := h
    obtain ⟨-, rfl⟩ := Prod.mk.inj (Except.ok.inj hremoved)
    exact hafter
  · intro h
    exact ⟨_, _, rfl, h, hany⟩

/-- What a successful `Delete` writes has no addressed entry iff no two were neighbours. -/
theorem delete_none_left_iff {api : IndexApi} (hapi : api.Removes) {files : LocalFiles}
    {disk disk' : Disk} (hs : ∀ native, SortedIndex (disk.index native)) {path : NetString}
    {keepLocal : Bool} {native : NativeRepository} {relativePath : NetString}
    (hlocate : GitRepository.locate disk.fs ⟨none⟩ path = .ok (true, ⟨some native⟩))
    (hrel : GitRepository.makeRelativePath ⟨some native⟩ path = .ok (some relativePath))
    (hrun : (delete api files path keepLocal).run disk = (.ok true, disk')) :
    (∀ e ∈ disk'.index native, ¬Addresses (allocRelpath relativePath) true e) ↔
      NoNeighbours (allocRelpath relativePath) true (disk.index native) := by
  obtain ⟨native', relativePath', index, hlocate', hrel', hremove, hindex⟩ := delete_eq_true hrun
  rw [hlocate] at hlocate'
  simp only [Except.ok.injEq, Prod.mk.injEq, GitRepository.mk.injEq, Option.some_inj, true_and]
    at hlocate'
  subst hlocate'
  rw [hrel] at hrel'
  obtain rfl := Except.ok.inj hrel'
  have hne : relativePath ≠ [] := by
    intro hnil
    simp [hnil, GitIndex.remove] at hremove
  rw [Option.getD_some, GitIndex.remove_eq hapi (hs native) hne] at hremove
  obtain ⟨-, hafter⟩ := Prod.mk.inj (Except.ok.inj hremove)
  rw [hindex, ← hafter, noNeighbours_iff, ← skipRemove_no_hit_iff]
  simp only [← GitIndex.removeMatches_iff, Bool.not_eq_true]

/-- `Remove`, and `Delete` on top of it, delete what they address exactly when no two addressed
entries are neighbours in the index: the entry behind a deleted one is never looked at. -/
theorem remove_delete_exact_iff {api : IndexApi} (hapi : api.Removes) :
    (∀ index, SortedIndex index → ∀ p, IsRelpathString p → ∀ recursive,
      (RemovesExactly api index p recursive ↔
        p ≠ [] ∧ NoNeighbours (utf8GetBytes p) recursive index)) ∧
    ∀ files disk disk' path keepLocal native relativePath,
      (∀ native, SortedIndex (disk.index native)) →
      GitRepository.locate disk.fs ⟨none⟩ path = .ok (true, ⟨some native⟩) →
      GitRepository.makeRelativePath ⟨some native⟩ path = .ok (some relativePath) →
      (delete api files path keepLocal).run disk = (.ok true, disk') →
      ((∀ e ∈ disk'.index native, ¬Addresses (allocRelpath relativePath) true e) ↔
        NoNeighbours (allocRelpath relativePath) true (disk.index native)) := by
  refine ⟨?_, ?_⟩
  · intro index hs p hp recursive
    exact removesExactly_iff hapi hs hp recursive
  · intro files disk disk' path keepLocal native relativePath hs hlocate hrel hrun
    exact delete_none_left_iff hapi hs hlocate hrel hrun

def exampleFiles : LocalFiles where
  fileExists _ _ := false
  deleteFile fs _ := .ok fs
  directoryExists _ _ := false
  deleteDirectory fs _ := .ok fs

/-- Two entries at and below "a" with a third between them in the index. -/
def apartIndex : Index :=
  [exampleEntry [0x61], exampleEntry [0x61, 0x2d], exampleEntry [0x61, 0x2f, 0x78]]

theorem apartIndex_sorted : SortedIndex apartIndex := by decide

theorem remove_delete_exact_apart :
    RemovesExactly exampleApi apartIndex [0x61] true ∧
      ∀ e ∈ ((delete exampleApi exampleFiles [0x43, 0x3a, 0x5c, 0x77, 0x5c, 0x61] true).run
        (exampleDisk (fun _ => .ok .dir) apartIndex)).2.index exampleNative,
          ¬Addresses [0x61] true e := by
  have h := remove_delete_exact_iff (listIndexApi_lawful fun _ _ _ => some (0o100644, [])).removes
  constructor
  · exact (h.1 apartIndex apartIndex_sorted [0x61] ⟨by decide, by decide⟩ true).mpr
      ⟨by decide, by decide⟩
  · refine (h.2 exampleFiles (exampleDisk (fun _ => .ok .dir) apartIndex) _
      [0x43, 0x3a, 0x5c, 0x77, 0x5c, 0x61] true exampleNative [0x61] (fun _ => apartIndex_sorted)
      (by decide) (by decide) (Prod.ext ?_ rfl)).mpr ?_
    · decide
    · decide

/-- Removing "a" from a/x and a/y leaves a/y. -/
theorem remove_leaves_neighbour :
    ¬(∀ index, SortedIndex index → ∀ p, IsRelpathString p → ∀ recursive,
      RemovesExactly exampleApi index p recursive) := by
  intro h
  obtain ⟨deletedOne, after, hrun, hafter, -⟩ :=
    h [exampleEntry [0x61, 0x2f, 0x78], exampleEntry [0x61, 0x2f, 0x79]] (by decide) [0x61]
      ⟨by decide, by decide⟩ true
  subst hafter
  revert hrun
  cases deletedOne <;> decide

end SharpGit.GitClient
