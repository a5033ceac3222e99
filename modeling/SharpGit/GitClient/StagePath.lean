import SharpGit.GitClient.GitStage

namespace SharpGit.GitClient

open Library Native Svn Implementation Plumbing

/-- The first entry from the cursor on that is not before the path. -/
def stopEntry (cPath : CStr) (nIndex : Nat) (index : Index) : Option IndexEntry :=
  (index.drop nIndex).find? fun entry => 0 ≤ strcmp entry.path cPath

/-- The index after the turn that ends the path. -/
def stageEntry (api : IndexApi) (fs : FileSystem) (native : NativeRepository) (cPath : CStr)
    (kind : NodeKind) (index : Index) : Option IndexEntry → Except Failure Index
  | none => if kind ≠ .none then checked (api.addByPath fs native index cPath) else .ok index
  | some entry =>
    if strcmp entry.path cPath = 0 then
      if kind ≠ .none then checked (api.addByPath fs native index cPath)
      else checked (api.remove index cPath entry.stage)
    else if (svnRelpathSkipAncestor cPath entry.path).isSome then
      if kind = .file then checked (api.removeDirectory index cPath 0) else .ok index
    else if kind ≠ .none then checked (api.addByPath fs native index cPath)
    else .ok index

section Walk

variable {api : IndexApi} {fs : FileSystem} {native : NativeRepository} {repoAbspath : CStr}
  {cPath : CStr} {kind : NodeKind} {nIndex : Nat} {index : Index}

theorem stopEntry_cons {entry : IndexEntry} (hentry : index[nIndex]? = some entry) :
    stopEntry cPath nIndex index =
      if 0 ≤ strcmp entry.path cPath then some entry else stopEntry cPath (nIndex + 1) index := by
  obtain ⟨hlt, rfl⟩ := List.getElem?_eq_some_iff.mp hentry
  rw [stopEntry, ← List.getElem_cons_drop hlt, List.find?_cons]
  split
  · rename_i h
    rw [if_pos (of_decide_eq_true h)]
  · rename_i h
    rw [if_neg (of_decide_eq_false h)]
    rfl

theorem stopEntry_end (hentry : index[nIndex]? = none) : stopEntry cPath nIndex index = none := by
  rw [stopEntry, List.drop_of_length_le (List.getElem?_eq_none_iff.mp hentry)]
  rfl

/-- The turn that ends the path, whatever it makes of the cursor. -/
theorem stageTurn_stop (hkind : fs.checkPath (svnDirentJoin repoAbspath cPath) = .ok kind)
    (hstop : ∀ entry, index[nIndex]? = some entry → 0 ≤ strcmp entry.path cPath) :
    ∃ next, stageTurn api fs native repoAbspath cPath nIndex index =
      (stageEntry api fs native cPath kind index index[nIndex]?).map fun after =>
        (true, next, after) := by
  have hmap (result : Except Failure Index) (next : Nat) :
      (result >>= fun after => pure (true, next, after)) =
        result.map fun after => (true, next, after) := by
    cases result <;> rfl
  have hio : ioCheckPath fs (svnDirentJoin repoAbspath cPath) = pure kind :=
    ioCheckPath_eq_ok.mpr hkind
  cases hentry : index[nIndex]? with
  | none =>
    simp only [stageTurn, hio, pure_bind, hentry, stageEntry]
    split_ifs
    · exact ⟨_, hmap _ _⟩
    · exact ⟨_, rfl⟩
  | some entry =>
    have hnot : ¬strcmp entry.path cPath < 0 := by
      have := hstop entry hentry
      omega
    simp only [stageTurn, hio, pure_bind, hentry, stageEntry, if_neg hnot]
    split_ifs
    · exact ⟨_, hmap _ _⟩
    · exact ⟨_, hmap _ _⟩
    · exact ⟨_, hmap _ _⟩
    · exact ⟨_, rfl⟩
    · exact ⟨_, hmap _ _⟩
    · exact ⟨_, rfl⟩

theorem stageTurn_moveUp (hkind : fs.checkPath (svnDirentJoin repoAbspath cPath) = .ok kind)
    {entry : IndexEntry} (hentry : index[nIndex]? = some entry)
    (hbefore : ¬0 ≤ strcmp entry.path cPath) :
    stageTurn api fs native repoAbspath cPath nIndex index = .ok (false, nIndex + 1, index) := by
  have hne : strcmp entry.path cPath ≠ 0 := by omega
  have hlt : strcmp entry.path cPath < 0 := by omega
  rw [stageTurn, ioCheckPath, hkind]
  simp only [bind, Except.bind, hentry, if_neg hne, if_pos hlt]
  rfl

theorem stagePath_index (hkind : fs.checkPath (svnDirentJoin repoAbspath cPath) = .ok kind)
    {fuel : Nat} (hfuel : index.length - nIndex < fuel) :
    (stagePath api fs native repoAbspath cPath fuel nIndex index).map Prod.snd =
      stageEntry api fs native cPath kind index (stopEntry cPath nIndex index) := by
  induction fuel generalizing nIndex with
  | zero => exact absurd hfuel (Nat.not_lt_zero _)
  | succ fuel ih =>
    by_cases hstop : ∀ entry, index[nIndex]? = some entry → 0 ≤ strcmp entry.path cPath
    · obtain ⟨next, hturn⟩ := stageTurn_stop hkind hstop
      have hentry : stopEntry cPath nIndex index = index[nIndex]? := by
        cases hentry : index[nIndex]? with
        | none => exact stopEntry_end hentry
        | some entry => rw [stopEntry_cons hentry, if_pos (hstop entry hentry)]
      rw [stagePath, hturn, hentry]
      cases stageEntry api fs native cPath kind index index[nIndex]? <;> rfl
    · push Not at hstop
      obtain ⟨entry, hentry, hbefore⟩ := hstop
      have hnot : ¬0 ≤ strcmp entry.path cPath := not_le.mpr hbefore
      obtain ⟨hlt, _⟩ := List.getElem?_eq_some_iff.mp hentry
      rw [stagePath, stageTurn_moveUp hkind hentry hnot, stopEntry_cons hentry, if_neg hnot]
      exact ih (by omega)

theorem stageWalk_one (hkind : fs.checkPath (svnDirentJoin repoAbspath cPath) = .ok kind) :
    stageWalk api fs native repoAbspath [cPath] 0 index =
      stageEntry api fs native cPath kind index (stopEntry cPath 0 index) := by
  rw [← stagePath_index hkind (Nat.lt_succ_self _), stageWalk]
  cases stagePath api fs native repoAbspath cPath (index.length - 0 + 1) 0 index <;> rfl

theorem mem_of_stopEntry {entry : IndexEntry} (h : stopEntry cPath nIndex index = some entry) :
    entry ∈ index ∧ 0 ≤ strcmp entry.path cPath := by
  have hafter := List.find?_some h
  exact ⟨List.mem_of_mem_drop (List.mem_of_find?_eq_some h), of_decide_eq_true hafter⟩

theorem stopEntry_some {e : IndexEntry} (he : e ∈ index) (hafter : 0 ≤ strcmp e.path cPath) :
    ∃ f, stopEntry cPath 0 index = some f := by
  apply Option.isSome_iff_exists.mp
  exact List.find?_isSome.mpr ⟨e, he, decide_eq_true hafter⟩

/-- No entry that the walk could stop at comes before the one where it stops. -/
theorem stopEntry_first (hs : SortedIndex index) {e f : IndexEntry}
    (hf : stopEntry cPath nIndex index = some f) (he : e ∈ index.drop nIndex)
    (hafter : 0 ≤ strcmp e.path cPath) : f = e ∨ entryLt f e := by
  obtain ⟨_, before, behind, hsplit, hbefore⟩ := List.find?_eq_some_iff_append.mp hf
  have hsorted := hs.sublist (List.drop_sublist nIndex index)
  rw [hsplit] at he hsorted
  obtain hmem | hmem := List.mem_append.mp he
  · have hnot := hbefore e hmem
    simp [hafter] at hnot
  · obtain rfl | hmem := List.mem_cons.mp hmem
    · exact .inl rfl
    · have htail := (List.pairwise_append.mp hsorted).2.1
      exact .inr ((List.pairwise_cons.mp htail).1 e hmem)

/-- From the start, the walk stops at an entry of the path if there is one. -/
theorem stopEntry_present (hs : SortedIndex index) {e : IndexEntry} (he : e ∈ index)
    (hpath : e.path = cPath) : ∃ f, stopEntry cPath 0 index = some f ∧ f.path = cPath := by
  have hself : 0 ≤ strcmp e.path cPath := by
    rw [hpath, strcmp_self]
  obtain ⟨f, hf⟩ := stopEntry_some he hself
  refine ⟨f, hf, ?_⟩
  obtain rfl | hlt | ⟨hsame, _⟩ := stopEntry_first hs hf he hself
  · exact hpath
  · have hafter := (mem_of_stopEntry hf).2
    rw [hpath] at hlt
    omega
  · exact hsame.trans hpath

theorem absent_of_stopEntry (hs : SortedIndex index)
    (h : ∀ f, stopEntry cPath 0 index = some f → f.path ≠ cPath) :
    ∀ e ∈ index, e.path ≠ cPath := by
  intro e he hpath
  obtain ⟨f, hf, hsame⟩ := stopEntry_present hs he hpath
  exact h f hf hsame

/-- The walk stops at an entry below the path. -/
def StopsBelow (cPath : CStr) : Option IndexEntry → Prop
  | none => False
  | some entry => entry.path ≠ cPath ∧ Below cPath entry.path

instance (cPath : CStr) : DecidablePred (StopsBelow cPath)
  | none => inferInstanceAs (Decidable False)
  | some _ => inferInstanceAs (Decidable (_ ∧ _))

theorem skipAncestor_iff_below {path : CStr} (hne : path ≠ cPath) :
    (svnRelpathSkipAncestor cPath path).isSome = true ↔ Below cPath path := by
  constructor
  · exact below_of_skipAncestor hne
  · intro h
    by_cases hroot : cPath = []
    · rw [hroot]
      simp [svnRelpathSkipAncestor]
    · exact (svnRelpathSkipAncestor_isSome hroot).mpr (.inr (h.resolve_left hroot))

/-- With something at the path, what is below it is kept or taken out, or the path is added. -/
theorem stageEntry_present (hkind : kind ≠ .none) (stop : Option IndexEntry) :
    stageEntry api fs native cPath kind index stop =
      if StopsBelow cPath stop then
        if kind = .file then checked (api.removeDirectory index cPath 0) else .ok index
      else checked (api.addByPath fs native index cPath) := by
  cases stop with
  | none =>
    have hnot : ¬StopsBelow cPath none := id
    rw [stageEntry, if_pos hkind, if_neg hnot]
  | some entry =>
    rw [stageEntry]
    by_cases hpath : entry.path = cPath
    · have hnot : ¬StopsBelow cPath (some entry) := fun h => h.1 hpath
      rw [if_pos (strcmp_eq_zero.mpr hpath), if_pos hkind, if_neg hnot]
    · rw [if_neg (mt strcmp_eq_zero.mp hpath), if_pos hkind]
      by_cases hbelow : Below cPath entry.path
      · have hstops : StopsBelow cPath (some entry) := ⟨hpath, hbelow⟩
        rw [if_pos ((skipAncestor_iff_below hpath).mpr hbelow), if_pos hstops]
      · have hnot : ¬StopsBelow cPath (some entry) := fun h => hbelow h.2
        rw [if_neg (mt (skipAncestor_iff_below hpath).mp hbelow), if_neg hnot]

/-- With nothing there, one entry of the path is taken out. -/
theorem stageEntry_missing {entry : IndexEntry} (hpath : entry.path = cPath) :
    stageEntry api fs native cPath .none index (some entry) =
      checked (api.remove index cPath entry.stage) := by
  rw [stageEntry, if_pos (strcmp_eq_zero.mpr hpath), if_neg (not_not.mpr rfl)]

theorem stageEntry_absent {stop : Option IndexEntry}
    (h : ∀ entry, stop = some entry → entry.path ≠ cPath) :
    stageEntry api fs native cPath .none index stop = .ok index := by
  cases stop with
  | none => rfl
  | some entry =>
    rw [stageEntry, if_neg (mt strcmp_eq_zero.mp (h entry rfl))]
    exact ite_self _

/-- What the walk does to a sorted index for one path, by what stands at the path. -/
inductive StageEffect (api : IndexApi) (fs : FileSystem) (native : NativeRepository)
    (cPath : CStr) (kind : NodeKind) (index after : Index) : Prop
  | added (hkind : kind ≠ .none) (hadd : api.addByPath fs native index cPath = (0, after))
      (hroot : cPath = [] → ∀ e ∈ index, ∃ f ∈ index, f.path = cPath)
  | removed (hkind : kind = .none) (e : IndexEntry) (he : e ∈ index) (hpath : e.path = cPath)
      (hremove : api.remove index cPath e.stage = (0, after))
  | directoryRemoved (hkind : kind = .file) (habsent : ∀ e ∈ index, e.path ≠ cPath)
      (e : IndexEntry) (he : e ∈ index) (hbelow : Below cPath e.path)
      (hremove : api.removeDirectory index cPath 0 = (0, after))
  | unchanged (habsent : ∀ e ∈ index, e.path ≠ cPath)
      (hkind : kind = .none ∨ (kind ≠ .file ∧ ∃ e ∈ index, Below cPath e.path))
      (hafter : after = index)

/-- The walk stops below the path only where the path has no entry. -/
theorem absent_of_stopsBelow (hs : SortedIndex index)
    (h : StopsBelow cPath (stopEntry cPath 0 index)) : ∀ e ∈ index, e.path ≠ cPath := by
  apply absent_of_stopEntry hs
  intro f hf
  rw [hf] at h
  exact h.1

/-- From the start, the walk stops below the root or at an entry of it, if there is any. -/
theorem root_present (hstop : ¬StopsBelow cPath (stopEntry cPath 0 index)) (hroot : cPath = []) :
    ∀ e ∈ index, ∃ f ∈ index, f.path = cPath := by
  subst hroot
  intro e he
  obtain ⟨f, hf⟩ := stopEntry_some he (not_lt.mp (not_strcmp_root e.path))
  refine ⟨f, (mem_of_stopEntry hf).1, ?_⟩
  by_contra hpath
  rw [hf] at hstop
  exact hstop ⟨hpath, .inl rfl⟩

theorem stageEntry_effect (hs : SortedIndex index) {after : Index}
    (h : stageEntry api fs native cPath kind index (stopEntry cPath 0 index) = .ok after) :
    StageEffect api fs native cPath kind index after := by
  by_cases hkind : kind = .none
  · subst hkind
    by_cases hpresent : ∃ e ∈ index, e.path = cPath
    · obtain ⟨e, he, hpath⟩ := hpresent
      obtain ⟨f, hf, hfpath⟩ := stopEntry_present hs he hpath
      rw [hf, stageEntry_missing hfpath] at h
      exact .removed rfl f (mem_of_stopEntry hf).1 hfpath (checked_eq_ok.mp h)
    · push Not at hpresent
      rw [stageEntry_absent fun f hf => hpresent f (mem_of_stopEntry hf).1] at h
      exact .unchanged hpresent (.inl rfl) (Except.ok.inj h).symm
  · rw [stageEntry_present hkind] at h
    split at h
    · rename_i hbelow
      have habsent := absent_of_stopsBelow hs hbelow
      cases hstop : stopEntry cPath 0 index with
      | none =>
        rw [hstop] at hbelow
        exact hbelow.elim
      | some f =>
        rw [hstop] at hbelow
        have hmem := (mem_of_stopEntry hstop).1
        split at h
        · rename_i hfile
          exact .directoryRemoved hfile habsent f hmem hbelow.2 (checked_eq_ok.mp h)
        · rename_i hfile
          exact .unchanged habsent (.inr ⟨hfile, f, hmem, hbelow.2⟩) (Except.ok.inj h).symm
    · rename_i hstop
      exact .added hkind (checked_eq_ok.mp h) (root_present hstop)

theorem stageWalk_single (hs : SortedIndex index) {after : Index}
    (h : stageWalk api fs native repoAbspath [cPath] 0 index = .ok after) :
    ∃ kind, fs.checkPath (svnDirentJoin repoAbspath cPath) = .ok kind ∧
      StageEffect api fs native cPath kind index after := by
  cases hkind : fs.checkPath (svnDirentJoin repoAbspath cPath) with
  | error code =>
    rw [stageWalk, stagePath, stageTurn, ioCheckPath, hkind] at h
    cases h
  | ok kind =>
    rw [stageWalk_one hkind] at h
    exact ⟨kind, rfl, stageEntry_effect hs h⟩

end Walk

/-- What a `Stage` of one path is to do: a file gets its entry, a missing path loses all of its
entries, and no unrelated entry changes. -/
structure StagesPath (cPath : CStr) (kind : NodeKind) (index after : Index) : Prop where
  file : kind = .file → ∃ e ∈ after, e.path = cPath ∧ e.stage = 0
  missing : kind = .none → (∃ e ∈ index, e.path = cPath) → ∀ e ∈ after, e.path ≠ cPath
  others : ∀ e, e.path ≠ cPath → ¬Below cPath e.path → ¬Below e.path cPath →
    (e ∈ after ↔ e ∈ index)

/-- When it does so: the walk does not stop below a file, and a missing path has one entry at
most. -/
structure Stageable (cPath : CStr) (kind : NodeKind) (index : Index) : Prop where
  file : kind = .file → ¬StopsBelow cPath (stopEntry cPath 0 index)
  missing : kind = .none → ∀ e ∈ index, ∀ f ∈ index, e.path = cPath → f.path = cPath → e = f

section OnePath

variable {api : IndexApi} {fs : FileSystem} {native : NativeRepository} {cPath : CStr}
  {kind : NodeKind} {index after : Index}

/-- Adding the path does all that is asked for. -/
theorem stagesPath_added (hapi : api.Lawful) (hs : SortedIndex index) (hkind : kind ≠ .none)
    (hadd : checked (api.addByPath fs native index cPath) = .ok after) :
    StagesPath cPath kind index after := by
  obtain ⟨mode, id, _, hplace⟩ :=
    hapi.addsByPath fs native index cPath after hs (checked_eq_ok.mp hadd)
  refine ⟨?_, ?_, ?_⟩
  · intro _
    exact ⟨_, (hplace.mem _).mpr (.inl rfl), rfl, rfl⟩
  · intro hnone
    exact absurd hnone hkind
  · intro e hpath hbelow habove
    have hne : e ≠ ⟨cPath, 0, mode, id⟩ := fun h => hpath (congrArg IndexEntry.path h)
    rw [hplace.mem, or_iff_right hne]
    apply and_iff_left
    intro hreplaced
    obtain hsame | ⟨_, hunder | hover⟩ := hreplaced
    · exact hpath hsame
    · exact hbelow (.inr hunder)
    · exact habove (.inr hover)

theorem stagesPath_removed (hapi : api.Lawful) (hs : SortedIndex index) {f : IndexEntry}
    (hf : f ∈ index) (hpath : f.path = cPath)
    (hremove : checked (api.remove index cPath f.stage) = .ok after) :
    StagesPath cPath .none index after ↔
      ∀ e ∈ index, ∀ g ∈ index, e.path = cPath → g.path = cPath → e = g := by
  have hkey : ∃ e ∈ index, sameKey cPath f.stage e = true := ⟨f, hf, by simp [sameKey, hpath]⟩
  rw [hapi.removes index cPath f.stage hs hkey, checked_eq_ok] at hremove
  obtain ⟨_, rfl⟩ := Prod.mk.inj hremove
  have hmem (e : IndexEntry) :
      e ∈ index.filter (fun e => !sameKey cPath f.stage e) ↔
        e ∈ index ∧ ¬(e.path = cPath ∧ e.stage = f.stage) := by
    rw [List.mem_filter, Bool.not_eq_true', ← Bool.not_eq_true, sameKey_iff]
  constructor
  · intro h
    have honly (e : IndexEntry) (he : e ∈ index) (hp : e.path = cPath) : e = f := by
      apply hs.eq_of_key he hf (hp.trans hpath.symm)
      by_contra hstage
      exact h.missing rfl ⟨f, hf, hpath⟩ e ((hmem e).mpr ⟨he, fun hk => hstage hk.2⟩) hp
    intro e he g hg hep hgp
    rw [honly e he hep, honly g hg hgp]
  · intro h
    refine ⟨NodeKind.noConfusion, ?_, ?_⟩
    · intro _ _ e he hp
      obtain ⟨hin, hnot⟩ := (hmem e).mp he
      obtain rfl := h e hin f hf hp hpath
      exact hnot ⟨hp, rfl⟩
    · intro e hp _ _
      rw [hmem]
      exact and_iff_left fun hk => hp hk.1

theorem stagesPath_unchanged (hkind : kind ≠ .file)
    (h : kind = .none → ∀ e ∈ index, e.path ≠ cPath) : StagesPath cPath kind index index where
  file hfile := absurd hfile hkind
  missing hnone hpresent := by
    obtain ⟨e, he, hpath⟩ := hpresent
    exact absurd hpath (h hnone e he)
  others _ _ _ _ := Iff.rfl

theorem stageEntry_stagesPath_iff (hapi : api.Lawful) (hs : SortedIndex index)
    (h : stageEntry api fs native cPath kind index (stopEntry cPath 0 index) = .ok after) :
    StagesPath cPath kind index after ↔ Stageable cPath kind index := by
  by_cases hkind : kind = .none
  · subst hkind
    by_cases hpresent : ∃ e ∈ index, e.path = cPath
    · obtain ⟨e, he, hpath⟩ := hpresent
      obtain ⟨f, hf, hfpath⟩ := stopEntry_present hs he hpath
      rw [hf, stageEntry_missing hfpath] at h
      rw [stagesPath_removed hapi hs (mem_of_stopEntry hf).1 hfpath h]
      constructor
      · intro honly
        exact ⟨NodeKind.noConfusion, fun _ => honly⟩
      · intro hcond
        exact hcond.missing rfl
    · push Not at hpresent
      rw [stageEntry_absent fun f hf => hpresent f (mem_of_stopEntry hf).1] at h
      obtain rfl := Except.ok.inj h
      apply iff_of_true
      · exact stagesPath_unchanged NodeKind.noConfusion fun _ => hpresent
      · refine ⟨NodeKind.noConfusion, ?_⟩
        intro _ e he _ _ hpath _
        exact absurd hpath (hpresent e he)
  · rw [stageEntry_present hkind] at h
    split at h
    · rename_i hbelow
      split at h
      · rename_i hfile
        have habsent := absent_of_stopsBelow hs hbelow
        rw [hapi.removesDirectory index cPath 0 hs, checked_eq_ok] at h
        obtain ⟨_, rfl⟩ := Prod.mk.inj h
        apply iff_of_false
        · intro hstaged
          obtain ⟨e, he, hpath, _⟩ := hstaged.file hfile
          exact habsent e (List.mem_filter.mp he).1 hpath
        · intro hcond
          exact hcond.file hfile hbelow
      · rename_i hfile
        obtain rfl := Except.ok.inj h
        apply iff_of_true
        · exact stagesPath_unchanged hfile fun hnone => absurd hnone hkind
        · exact ⟨fun h => absurd h hfile, fun h => absurd h hkind⟩
    · rename_i hbelow
      apply iff_of_true
      · exact stagesPath_added hapi hs hkind h
      · exact ⟨fun _ => hbelow, fun h => absurd h hkind⟩

end OnePath

/-- A `Stage` of one path does what it is to do exactly under the condition. -/
theorem stage_stagesPath_iff {api : IndexApi} (hapi : api.Lawful) {native : NativeRepository}
    {disk staged : Disk} (hs : SortedIndex (disk.index native)) {path : NetString} {cPath : CStr}
    {kind : NodeKind}
    (hlocate : GitRepository.locate disk.fs ⟨none⟩ path = .ok (true, ⟨some native⟩))
    (hrel : GitRepository.makeRelpath ⟨some native⟩ path = .ok (some cPath))
    (hkind : disk.fs.checkPath (svnDirentJoin (svnDirentInternalStyle native.workdir) cPath) =
      .ok kind)
    (hstage : (stage api path).run disk = (.ok true, staged)) :
    StagesPath cPath kind (disk.index native) (staged.index native) ↔
      Stageable cPath kind (disk.index native) := by
  obtain ⟨native', cPath', index, hlocate', _, hrel', _, hwalk, rfl⟩ := stage_eq_true hstage
  rw [hlocate] at hlocate'
  cases hlocate'
  rw [hrel] at hrel'
  cases hrel'
  rw [stageWalk_one hkind] at hwalk
  rw [Disk.setIndex_index]
  exact stageEntry_stagesPath_iff hapi hs hwalk

/-- A `Stage` of one path of the example work tree, in which the same stands at each path. -/
def exampleStage (kind : NodeKind) (index : Index) (name : NetString) :
    Except Failure Bool × Disk :=
  (stage exampleApi (examplePath name)).run (exampleDisk (fun _ => .ok kind) index)

/-- a.x and a/y. -/
def neighbours : Index := [exampleEntry [0x61, 0x2e, 0x78], exampleEntry [0x61, 0x2f, 0x79]]

/-- The file a is staged: the walk stops at a.x, so a is added and a/y makes room for it. -/
theorem stage_stagesPath_neighbours :
    StagesPath [0x61] .file neighbours
      ((exampleStage .file neighbours [0x61]).2.index exampleNative) := by
  have hcond : Stageable [0x61] .file neighbours := by
    refine ⟨fun _ => by decide, ?_⟩
    intro hnone
    cases hnone
  have hsucceeds : (exampleStage .file neighbours [0x61]).1 = .ok true := by decide
  exact (@stage_stagesPath_iff exampleApi (listIndexApi_lawful _) exampleNative
    (exampleDisk (fun _ => .ok .file) neighbours) _ (by decide) (examplePath [0x61]) [0x61] .file
    (by decide) (by decide) rfl (Prod.ext hsucceeds rfl)).mpr hcond

/-- a/y, where a is a file by now. -/
def replacedDirectory : Index := [exampleEntry [0x61, 0x2f, 0x79]]

/-- a in conflict, and deleted. -/
def conflictedEntries : Index :=
  [⟨[0x61], 1, 0o100644, []⟩, ⟨[0x61], 2, 0o100644, []⟩, ⟨[0x61], 3, 0o100644, []⟩]

/-- Staging the file a takes a/y out and adds nothing; a deleted a in conflict keeps two of its
entries. -/
theorem stage_leaves_path :
    (SortedIndex replacedDirectory ∧ (exampleStage .file replacedDirectory [0x61]).1 = .ok true ∧
      ¬StagesPath [0x61] .file replacedDirectory
        ((exampleStage .file replacedDirectory [0x61]).2.index exampleNative)) ∧
    SortedIndex conflictedEntries ∧ (exampleStage .none conflictedEntries [0x61]).1 = .ok true ∧
      ¬StagesPath [0x61] .none conflictedEntries
        ((exampleStage .none conflictedEntries [0x61]).2.index exampleNative) := by
  refine ⟨⟨by decide, by decide, ?_⟩, by decide, by decide, ?_⟩
  · intro h
    exact absurd (h.file rfl) (by decide)
  · intro h
    exact absurd (h.missing rfl ⟨_, List.mem_cons_self, rfl⟩) (by decide)

end SharpGit.GitClient
