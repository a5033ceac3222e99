import SharpGit.GitClient.GitUnstage
import SharpGit.GitClient.StagePath

namespace SharpGit.GitClient

open Library Native Svn Implementation Plumbing

/-- The index holds exactly the files of the tree. -/
structure IsIndexOf (tree : GitTree) (index : Index) : Prop where
  sorted : SortedIndex index
  mem : ∀ e, e ∈ index ↔ tree.Lists e

/-- When `Unstage` undoes a `Stage` of a path at which `kind` stands on disk. -/
structure Restorable (tree : GitTree) (cPath : CStr) (kind : NodeKind) : Prop where
  notDirectory : ¬tree.IsDirectory cPath
  noFileAbove : kind ≠ .none → ∀ e, tree.Lists e → ¬e.path ++ [slash] <+: cPath
  nothingBelowFile : kind = .file → ∀ e, tree.Lists e → ¬Below cPath e.path

/-- Two indexes that differ at most in the stage 0 entry of the path. -/
structure DiffersAt (cPath : CStr) (index after : Index) : Prop where
  others : ∀ e, e.path ≠ cPath → (e ∈ after ↔ e ∈ index)
  stage : ∀ e ∈ after, e.path = cPath → e.stage = 0

section Restore

variable {api : IndexApi} {objects : ObjectApi} {fs : FileSystem} {native : NativeRepository}
  {tree : GitTree} {cPath : CStr} {kind : NodeKind} {index after : Index}

theorem IsIndexOf.stage (hidx : IsIndexOf tree index) {e : IndexEntry} (he : e ∈ index) :
    e.stage = 0 := ((hidx.mem e).mp he).1

/-- The path has no file in HEAD: `Unstage` takes its entry out. -/
theorem unstageEntry_absent (hapi : api.Lawful) (hidx : IsIndexOf tree index)
    (hs : SortedIndex after) (hdiff : DiffersAt cPath index after)
    (hnone : tree.findPath cPath = none) (hfind : objects.entryByPath tree cPath = none) :
    unstageEntry api objects (some tree) cPath after = .ok index := by
  have habsent (e : IndexEntry) (he : e ∈ index) : e.path ≠ cPath := by
    intro hp
    have hlist := ((hidx.mem e).mp he).2.2
    rw [hp, hnone] at hlist
    cases hlist
  cases hentry : after.find? (sameKey cPath 0) with
  | none =>
    have hkeys := List.find?_eq_none.mp hentry
    have hsame : after = index := by
      apply hs.ext hidx.sorted
      intro e
      by_cases hp : e.path = cPath
      · refine iff_of_false ?_ fun he => habsent e he hp
        intro he
        exact hkeys e he (sameKey_iff.mpr ⟨hp, hdiff.stage e he hp⟩)
      · exact hdiff.others e hp
    simp only [unstageEntry, Option.bind_some, hfind, hentry]
    rw [hsame]
  | some iEntry =>
    have hkey := sameKey_iff.mp (List.find?_some hentry)
    have hmem := List.mem_of_find?_eq_some hentry
    have hremove := hapi.removes after cPath 0 hs ⟨iEntry, hmem, sameKey_iff.mpr hkey⟩
    have hsame : after.filter (fun e => !sameKey cPath 0 e) = index := by
      apply (hs.sublist List.filter_sublist).ext hidx.sorted
      intro e
      rw [List.mem_filter, Bool.not_eq_true', ← Bool.not_eq_true, sameKey_iff]
      by_cases hp : e.path = cPath
      · refine iff_of_false ?_ fun he => habsent e he hp
        intro ⟨he, hk⟩
        exact hk ⟨hp, hdiff.stage e he hp⟩
      · rw [hdiff.others e hp]
        exact and_iff_left fun hk => hp hk.1
    simp [unstageEntry, hfind, hentry, hkey.2, hremove, checked, hsame]

/-- The path is a file of HEAD: `Unstage` puts HEAD's entry back. -/
theorem unstageEntry_file (hadds : api.Adds) (htaken : tree.TakenBy api)
    (hidx : IsIndexOf tree index) (hs : SortedIndex after)
    (hdiff : DiffersAt cPath index after) {entry : TreeEntry}
    (hmode : isTreeMode entry.mode = false) (hsome : tree.findPath cPath = some entry)
    (hfind : objects.entryByPath tree cPath = some entry) :
    unstageEntry api objects (some tree) cPath after = .ok index := by
  have hlists : tree.Lists ⟨cPath, 0, entry.mode, entry.id⟩ := ⟨rfl, hmode, hsome⟩
  obtain ⟨final, hadd⟩ : ∃ final, api.add after ⟨cPath, 0, entry.mode, entry.id⟩ = (0, final) :=
    ⟨_, Prod.ext (htaken after _ hs hlists) rfl⟩
  have hplace := hadds after _ final hs hadd
  have hsame : final = index := by
    apply hplace.sorted.ext hidx.sorted
    intro e
    rw [hplace.mem, hidx.mem]
    by_cases hp : e.path = cPath
    · constructor
      · intro h
        obtain rfl | ⟨he, hkeep⟩ := h
        · exact hlists
        · exact absurd ⟨hdiff.stage e he hp, .inl hp⟩ hkeep
      · intro h
        exact .inl (h.eq_of_path hlists hp)
    · have hne : e ≠ ⟨cPath, 0, entry.mode, entry.id⟩ := fun h => hp (h ▸ rfl)
      rw [or_iff_right hne, hdiff.others e hp, hidx.mem]
      apply and_iff_left_of_imp
      intro he ⟨_, hcol⟩
      obtain h | h := hcol
      · exact hp h
      · exact hlists.no_collision he h
  simp [unstageEntry, hfind, hadd, checked, hsame]

/-- `Unstage` restores HEAD's index unless the path names a directory of HEAD. -/
theorem unstageEntry_restores (hapi : api.Lawful) (hadds : api.Adds)
    (htaken : tree.TakenBy api) (hobjects : objects.FindsEntries)
    (hwf : tree.WellFormed) (hcanonical : relpathIsCanonical cPath = true)
    (hidx : IsIndexOf tree index) (hs : SortedIndex after) (hdiff : DiffersAt cPath index after)
    (hdir : ¬tree.IsDirectory cPath) :
    unstageEntry api objects (some tree) cPath after = .ok index := by
  have hfind := hobjects tree cPath hwf hcanonical
  cases hpath : tree.findPath cPath with
  | none => exact unstageEntry_absent hapi hidx hs hdiff hpath (hfind.trans hpath)
  | some entry =>
    have hmode : isTreeMode entry.mode = false := by
      by_contra h
      exact hdir ⟨entry, hpath, by simpa using h⟩
    exact unstageEntry_file hadds htaken hidx hs hdiff hmode hpath (hfind.trans hpath)

/-- An `Unstage` of a path that HEAD does not have only removes. -/
theorem unstageEntry_absent_keeps (hapi : api.Lawful) (hs : SortedIndex after)
    (hnone : objects.entryByPath tree cPath = none)
    (h : unstageEntry api objects (some tree) cPath after = .ok index) :
    ∀ e ∈ index, e ∈ after := by
  intro e he
  rw [unstageEntry, Option.bind_some, hnone] at h
  cases hentry : after.find? (sameKey cPath 0) with
  | none =>
    rw [hentry] at h
    cases h
    exact he
  | some iEntry =>
    have hkey := List.find?_some hentry
    have hremove := hapi.removes after cPath 0 hs
      ⟨iEntry, List.mem_of_find?_eq_some hentry, hkey⟩
    rw [hentry] at h
    dsimp only at h
    rw [(sameKey_iff.mp hkey).2, hremove, checked_eq_ok] at h
    obtain ⟨-, rfl⟩ := Prod.mk.inj h
    exact (List.mem_filter.mp he).1

/-- An `Unstage` that adds HEAD's entry adds a file, and nothing at other paths. -/
theorem unstageEntry_present_keeps (hadds : api.Adds) (hrejects : api.RejectsTrees)
    (hs : SortedIndex after) {entry : TreeEntry}
    (hsome : objects.entryByPath tree cPath = some entry)
    (h : unstageEntry api objects (some tree) cPath after = .ok index) :
    isTreeMode entry.mode = false ∧ ∀ e ∈ index, e.path ≠ cPath → e ∈ after := by
  rw [unstageEntry, Option.bind_some, hsome] at h
  have hadd := checked_eq_ok.mp h
  have hmode : isTreeMode entry.mode = false := by
    by_contra htree
    exact hrejects after ⟨cPath, 0, entry.mode, entry.id⟩ (by simpa using htree)
      (by rw [hadd])
  refine ⟨hmode, ?_⟩
  intro e he hp
  obtain rfl | ⟨he, -⟩ := ((hadds after _ index hs hadd).mem e).mp he
  · exact absurd rfl hp
  · exact he

/-- An `Unstage` that succeeds is not one of a directory of HEAD, and it brings back nothing at
other paths. -/
theorem unstageEntry_eq_ok (hapi : api.Lawful) (hadds : api.Adds)
    (hrejects : api.RejectsTrees) (hobjects : objects.FindsEntries)
    (hwf : tree.WellFormed) (hcanonical : relpathIsCanonical cPath = true)
    (hs : SortedIndex after)
    (h : unstageEntry api objects (some tree) cPath after = .ok index) :
    ¬tree.IsDirectory cPath ∧ ∀ e ∈ index, e.path ≠ cPath → e ∈ after := by
  have hfind := hobjects tree cPath hwf hcanonical
  cases hpath : tree.findPath cPath with
  | none =>
    have hkeeps := unstageEntry_absent_keeps hapi hs (hfind.trans hpath) h
    refine ⟨?_, fun e he _ => hkeeps e he⟩
    intro ⟨entry, hentry, _⟩
    rw [hpath] at hentry
    cases hentry
  | some entry =>
    obtain ⟨hmode, hkeeps⟩ := unstageEntry_present_keeps hadds hrejects hs (hfind.trans hpath) h
    refine ⟨?_, hkeeps⟩
    intro ⟨other, hother, htree⟩
    rw [hpath] at hother
    cases hother
    rw [hmode] at htree
    cases htree

/-- An entry below a path that is no directory of HEAD is below the root. -/
theorem root_of_below {e : IndexEntry} (hdir : ¬tree.IsDirectory cPath) (he : tree.Lists e)
    (hbelow : Below cPath e.path) : cPath = [] := by
  obtain h | h := hbelow
  · exact h
  · exact absurd (GitTree.findPath_below h he.2.2) hdir

theorem StageEffect.sorted (hapi : api.Lawful) (hs : SortedIndex index)
    (h : StageEffect api fs native cPath kind index after) : SortedIndex after := by
  cases h with
  | added _ hadd _ =>
    obtain ⟨_, _, _, hplace⟩ := hapi.addsByPath fs native index cPath after hs hadd
    exact hplace.sorted
  | removed _ e he hpath hremove =>
    rw [hapi.removes index cPath e.stage hs ⟨e, he, sameKey_iff.mpr ⟨hpath, rfl⟩⟩] at hremove
    exact (Prod.mk.inj hremove).2 ▸ hs.sublist List.filter_sublist
  | directoryRemoved _ _ _ _ _ hremove =>
    rw [hapi.removesDirectory index cPath 0 hs] at hremove
    exact (Prod.mk.inj hremove).2 ▸ hs.sublist List.filter_sublist
  | unchanged _ _ hafter => exact hafter ▸ hs

/-- Under the condition a `Stage` touches no entry but the path's own. -/
theorem StageEffect.differsAt (hapi : api.Lawful) (hwf : tree.WellFormed)
    (hidx : IsIndexOf tree index) (hcond : Restorable tree cPath kind)
    (h : StageEffect api fs native cPath kind index after) : DiffersAt cPath index after := by
  cases h with
  | added hkind hadd _ =>
    obtain ⟨mode, id, -, hplace⟩ := hapi.addsByPath fs native index cPath after hidx.sorted hadd
    constructor
    · intro e hp
      have hne : e ≠ ⟨cPath, 0, mode, id⟩ := fun h => hp (h ▸ rfl)
      rw [hplace.mem, or_iff_right hne]
      apply and_iff_left_of_imp
      intro he
      have hlists := (hidx.mem e).mp he
      intro hrep
      obtain h | ⟨-, h | h⟩ := hrep
      · exact hp h
      · by_cases hroot : cPath = []
        · rw [hroot, List.nil_append] at h
          exact hlists.not_below_slash hwf h
        · exact hroot (root_of_below hcond.notDirectory hlists (.inr h))
      · exact hcond.noFileAbove hkind e hlists h
    · intro e he hp
      obtain rfl | ⟨he, -⟩ := (hplace.mem e).mp he
      · rfl
      · exact hidx.stage he
  | removed _ e he hpath hremove =>
    rw [hapi.removes index cPath e.stage hidx.sorted ⟨e, he, sameKey_iff.mpr ⟨hpath, rfl⟩⟩]
      at hremove
    obtain ⟨-, rfl⟩ := Prod.mk.inj hremove
    constructor
    · intro f hp
      rw [List.mem_filter]
      apply and_iff_left_of_imp
      intro _
      simp [sameKey, hp]
    · intro f hf _
      exact hidx.stage (List.mem_filter.mp hf).1
  | directoryRemoved hkind _ e he hbelow _ =>
    exact absurd hbelow (hcond.nothingBelowFile hkind e ((hidx.mem e).mp he))
  | unchanged _ _ hafter =>
    subst hafter
    exact ⟨fun _ _ => Iff.rfl, fun e he _ => hidx.stage he⟩

section Kept

variable (hapi : api.Lawful) (hidx : IsIndexOf tree index) (hdir : ¬tree.IsDirectory cPath)
  (hkeep : ∀ e ∈ index, e.path ≠ cPath → e ∈ after)
  (h : StageEffect api fs native cPath kind index after)

include hapi hidx hdir hkeep h

/-- Where a `Stage` has kept the entries at other paths, no file was above the path. -/
theorem StageEffect.noFileAbove (hkind : kind ≠ .none) {e : IndexEntry} (he : tree.Lists e) :
    ¬e.path ++ [slash] <+: cPath := by
  intro habove
  have hmem := (hidx.mem e).mpr he
  have hne : cPath ≠ [] := by
    intro heq
    subst heq
    simp at habove
  have hp : e.path ≠ cPath := by
    intro heq
    subst heq
    have hlen := habove.length_le
    rw [List.length_append, List.length_singleton] at hlen
    omega
  cases h with
  | added _ hadd _ =>
    obtain ⟨mode, id, -, hplace⟩ :=
      hapi.addsByPath fs native index cPath after hidx.sorted hadd
    obtain rfl | ⟨-, hnot⟩ := (hplace.mem e).mp (hkeep e hmem hp)
    · exact hp rfl
    · exact hnot (.inr ⟨he.1, .inr habove⟩)
  | removed hnone => exact hkind hnone
  | directoryRemoved _ _ f hf hbelow _ =>
    exact hne (root_of_below hdir ((hidx.mem f).mp hf) hbelow)
  | unchanged _ hreason _ =>
    obtain hnone | ⟨-, f, hf, hbelow⟩ := hreason
    · exact hkind hnone
    · exact hne (root_of_below hdir ((hidx.mem f).mp hf) hbelow)

/-- And nothing was below a file. -/
theorem StageEffect.nothingBelowFile (hwf : tree.WellFormed) (hkind : kind = .file)
    {e : IndexEntry} (he : tree.Lists e) : ¬Below cPath e.path := by
  intro hbelow
  have hmem := (hidx.mem e).mpr he
  have hroot := root_of_below hdir he hbelow
  subst hroot
  have hnotroot (f : IndexEntry) (hf : f ∈ index) : f.path ≠ [] :=
    ((hidx.mem f).mp hf).path_ne_nil hwf
  cases h with
  | added _ _ hrootEntry =>
    obtain ⟨f, hf, hp⟩ := hrootEntry rfl e hmem
    exact hnotroot f hf hp
  | removed hnone =>
    rw [hkind] at hnone
    cases hnone
  | directoryRemoved _ _ _ _ _ hremove =>
    rw [hapi.removesDirectory index [] 0 hidx.sorted] at hremove
    obtain ⟨-, rfl⟩ := Prod.mk.inj hremove
    have hkept := hkeep e hmem (hnotroot e hmem)
    simp [Below, he.1] at hkept
  | unchanged _ hreason _ =>
    obtain hnone | ⟨hnot, -⟩ := hreason
    · rw [hkind] at hnone
      cases hnone
    · exact hnot hkind

theorem StageEffect.restorable (hwf : tree.WellFormed) : Restorable tree cPath kind where
  notDirectory := hdir
  noFileAbove hkind _ he := h.noFileAbove hapi hidx hdir hkeep hkind he
  nothingBelowFile hkind _ he := h.nothingBelowFile hapi hidx hdir hkeep hwf hkind he

end Kept

end Restore

/-- From HEAD's index, an `Unstage` after a `Stage` of the same path succeeds and brings the
index back exactly under the condition. -/
theorem unstage_stage_iff {api : IndexApi} {objects : ObjectApi} (hapi : api.Lawful)
    (hadds : api.Adds) (hrejects : api.RejectsTrees) (hobjects : objects.FindsEntries)
    {native : NativeRepository} {tree : GitTree} (htaken : tree.TakenBy api)
    (hwf : tree.WellFormed) (hhead : objects.ReadsHead native tree) {disk staged : Disk}
    (hwrite : ∀ index, api.write native index = 0) (hidx : IsIndexOf tree (disk.index native))
    {path : NetString} {cPath : CStr} {kind : NodeKind}
    (hlocate : GitRepository.locate disk.fs ⟨none⟩ path = .ok (true, ⟨some native⟩))
    (hrel : GitRepository.makeRelpath ⟨some native⟩ path = .ok (some cPath))
    (hcanonical : relpathIsCanonical cPath = true)
    (hkind : disk.fs.checkPath (svnDirentJoin (svnDirentInternalStyle native.workdir) cPath) =
      .ok kind)
    (hstage : (stage api path).run disk = (.ok true, staged)) :
    (∃ after, (unstage api objects path).run staged = (.ok true, after) ∧
      after.index native = disk.index native) ↔ Restorable tree cPath kind := by
  obtain ⟨native', cPath', index, hlocate', hbare, hrel', hopen, hwalk, rfl⟩ :=
    stage_eq_true hstage
  rw [hlocate] at hlocate'
  cases hlocate'
  rw [hrel] at hrel'
  cases hrel'
  obtain ⟨kind', hkind', heffect⟩ := stageWalk_single hidx.sorted hwalk
  rw [hkind] at hkind'
  cases hkind'
  have hs := heffect.sorted hapi hidx.sorted
  have htree := headTree_of_readsHead hhead
  constructor
  · intro ⟨after, hunstage, hback⟩
    obtain ⟨native', cTree, cPath', final, hlocate', -, htree', hrel', -, hentry, rfl⟩ :=
      unstage_eq_true hunstage
    rw [Disk.setIndex_fs, hlocate] at hlocate'
    cases hlocate'
    rw [hrel] at hrel'
    cases hrel'
    rw [htree] at htree'
    cases htree'
    rw [Disk.setIndex_index] at hentry hback
    subst hback
    obtain ⟨hdir, hkeep⟩ := unstageEntry_eq_ok hapi hadds hrejects hobjects hwf hcanonical hs hentry
    exact heffect.restorable hapi hidx hdir hkeep hwf
  · intro hcond
    have hentry := unstageEntry_restores hapi hadds htaken hobjects hwf hcanonical hidx hs
      (heffect.differsAt hapi hwf hidx hcond) hcond.notDirectory
    have hrun := @run_unstage api objects path (disk.setIndex native index) native (some tree)
      cPath (disk.index native) hlocate hbare htree hrel hopen
      (by rw [Disk.setIndex_index]; exact hentry) (hwrite _)
    exact ⟨_, hrun, Disk.setIndex_index _ native _⟩

def exampleHead : GitTree := .blob [0x61] 0o100755 [1] .nil

def exampleHeadIndex : Index := [⟨[0x61], 0, 0o100755, [1]⟩]

theorem exampleHead_isIndexOf : IsIndexOf exampleHead exampleHeadIndex := by
  refine ⟨by decide, fun e => ?_⟩
  constructor
  · intro he
    obtain rfl := List.mem_singleton.mp he
    exact ⟨rfl, by decide, by decide⟩
  · intro ⟨hstage, _, hfind⟩
    obtain ⟨path, stage, mode, id⟩ := e
    obtain rfl : stage = 0 := hstage
    have hjoin : [slash].intercalate (path.splitOn slash) = path := List.intercalate_splitOn slash
    cases hnames : path.splitOn slash with
    | nil => exact absurd hnames (List.splitOn_ne_nil slash path)
    | cons w ws =>
      simp only [GitTree.findPath, hnames, exampleHead, GitTree.find] at hfind
      split_ifs at hfind with hw hws
      · obtain ⟨rfl, rfl⟩ := TreeEntry.mk.inj (Option.some.inj hfind)
        rw [hnames, hws, ← hw, List.intercalate_singleton] at hjoin
        rw [← hjoin]
        exact List.mem_singleton.mpr rfl

/-- A changed file a is staged and unstaged. -/
theorem unstage_stage_changed :
    ∃ after, (unstage exampleApi (headObjectApi exampleHead) (examplePath [0x61])).run
        ((stage exampleApi (examplePath [0x61])).run
          (exampleDisk (fun _ => .ok .file) exampleHeadIndex)).2 = (.ok true, after) ∧
      after.index exampleNative = exampleHeadIndex := by
  have hwf : exampleHead.WellFormed := ⟨by decide, by decide, by decide, trivial⟩
  have hlist (e : IndexEntry) (he : exampleHead.Lists e) : e = ⟨[0x61], 0, 0o100755, [1]⟩ :=
    List.mem_singleton.mp ((exampleHead_isIndexOf.mem e).mpr he)
  have hcond : Restorable exampleHead [0x61] .file := by
    refine ⟨?_, ?_, ?_⟩
    · exact fun hdir => ((exampleHead_isIndexOf.mem _).mp List.mem_cons_self).not_directory hdir
    · intro _ e he
      rw [hlist e he]
      decide
    · intro _ e he
      rw [hlist e he]
      decide
  have htaken : exampleHead.TakenBy exampleApi := by
    intro index e _ he
    rw [hlist e he]
    rfl
  exact (unstage_stage_iff (listIndexApi_lawful fun _ _ _ => some (0o100644, []))
    (listIndexApi_adds _) (listIndexApi_rejectsTrees _) (headObjectApi_findsEntries exampleHead)
    htaken hwf
    (headObjectApi_readsHead exampleHead exampleNative) (fun _ => rfl) exampleHead_isIndexOf
    (by decide) (by decide) (by decide) rfl (Prod.ext (by decide) rfl)).mpr hcond

/-- C:/w/a is a directory now. -/
def exampleReplaced (path : CStr) : Except Int NodeKind :=
  .ok (if path = [0x43, 0x3a, 0x2f, 0x77, 0x2f, 0x61] then .dir else .file)

/-- a became a directory: a/x is staged, and unstaging it does not bring a back. -/
theorem unstage_keeps_collision :
    IsIndexOf exampleHead exampleHeadIndex ∧
    ((stage exampleApi (examplePath [0x61, 0x5c, 0x78])).run
      (exampleDisk exampleReplaced exampleHeadIndex)).1 = .ok true ∧
    ((unstage exampleApi (headObjectApi exampleHead) (examplePath [0x61, 0x5c, 0x78])).run
      ((stage exampleApi (examplePath [0x61, 0x5c, 0x78])).run
        (exampleDisk exampleReplaced exampleHeadIndex)).2).2.index exampleNative ≠
      exampleHeadIndex :=
  ⟨exampleHead_isIndexOf, by decide, by decide⟩

end SharpGit.GitClient
