import SharpGit.GitClient.StagePath
import SharpGit.Library.Runs

namespace SharpGit.GitClient

open Library Native Svn Implementation Plumbing

/-- The turns for one path, from where the walk has come to. -/
def stageNext (api : IndexApi) (fs : FileSystem) (native : NativeRepository) (repoAbspath : CStr)
    (walk : Nat × Index) (cPath : CStr) : Except Failure (Nat × Index) :=
  stagePath api fs native repoAbspath cPath (walk.2.length - walk.1 + 1) walk.1 walk.2

/-- `nIndex` and the index behind some paths of the walk. -/
def stageRun (api : IndexApi) (fs : FileSystem) (native : NativeRepository) (repoAbspath : CStr)
    (cPaths : List CStr) (index : Index) : Except Failure (Nat × Index) :=
  cPaths.foldlM (stageNext api fs native repoAbspath) (0, index)

/-- The walk on each path alone, in list order, with a fresh cursor. -/
def stageAlone (api : IndexApi) (fs : FileSystem) (native : NativeRepository) (repoAbspath : CStr)
    (cPaths : List CStr) (index : Index) : Except Failure Index :=
  cPaths.foldlM (fun index cPath => stageWalk api fs native repoAbspath [cPath] 0 index) index

/-- The merge walk keeps to the walks alone, and takes no path that the index has for absent. -/
structure MergesAlone (api : IndexApi) (fs : FileSystem) (native : NativeRepository)
    (repoAbspath : CStr) (cPaths : List CStr) (index : Index) : Prop where
  same : ∀ front, front <+: cPaths →
    stageWalk api fs native repoAbspath front 0 index =
      stageAlone api fs native repoAbspath front index
  absent : ∀ front cPath nIndex after, front ++ [cPath] <+: cPaths →
    stageRun api fs native repoAbspath front index = .ok (nIndex, after) →
    fs.checkPath (svnDirentJoin repoAbspath cPath) = .ok .none →
    (∀ e, stopEntry cPath nIndex after = some e → e.path ≠ cPath) → ∀ e ∈ after, e.path ≠ cPath

/-- Where the cursor stands, the walk does to the index what it does from the start: no entry of
a missing path is behind it, and it stops below a path that has something on disk just as a walk
from the start does, or adding that path would take out what is below it and nothing else. -/
structure InStep (api : IndexApi) (fs : FileSystem) (native : NativeRepository) (cPath : CStr)
    (kind : NodeKind) (nIndex : Nat) (index : Index) : Prop where
  missing : kind = .none → ∀ e ∈ index.take nIndex, e.path ≠ cPath
  stops : kind ≠ .none → StopsBelow cPath (stopEntry cPath 0 index) →
    StopsBelow cPath (stopEntry cPath nIndex index)
  passes : kind ≠ .none → StopsBelow cPath (stopEntry cPath nIndex index) →
    StopsBelow cPath (stopEntry cPath 0 index) ∨
      api.addByPath fs native index cPath =
        if kind = .file then api.removeDirectory index cPath 0 else (0, index)

/-- The cursor is in step at every path that the walk comes to. -/
def StaysInStep (api : IndexApi) (fs : FileSystem) (native : NativeRepository) (repoAbspath : CStr)
    (cPaths : List CStr) (index : Index) : Prop :=
  ∀ front cPath, front ++ [cPath] <+: cPaths → ∀ nIndex after,
    stageRun api fs native repoAbspath front index = .ok (nIndex, after) →
    ∀ kind, fs.checkPath (svnDirentJoin repoAbspath cPath) = .ok kind →
      InStep api fs native cPath kind nIndex after

section Step

variable {api : IndexApi} {fs : FileSystem} {native : NativeRepository} {repoAbspath : CStr}
  {cPath : CStr} {kind : NodeKind} {nIndex : Nat} {index : Index}

/-- With all entries before the cursor before the path, the walk stops where it does from the
start. -/
theorem stopEntry_of_cursorAt (hcur : CursorAt cPath nIndex index) :
    stopEntry cPath nIndex index = stopEntry cPath 0 index := by
  have hbefore : (index.take nIndex).find? (fun e => decide (0 ≤ strcmp e.path cPath)) = none := by
    rw [List.find?_eq_none]
    intro e he
    have := hcur e he
    simp only [decide_eq_true_eq, not_le]
    exact this
  have hsplit : stopEntry cPath 0 index =
      (index.take nIndex ++ index.drop nIndex).find? fun e => 0 ≤ strcmp e.path cPath := by
    rw [List.take_append_drop]
    rfl
  rw [hsplit, List.find?_append, hbefore, Option.none_or]
  rfl

/-- Where the path has an entry but none before the cursor, all entries there are before it. -/
theorem cursorAt_of_present (hs : SortedIndex index) {f : IndexEntry} (hf : f ∈ index)
    (hpath : f.path = cPath) (hnone : ∀ e ∈ index.take nIndex, e.path ≠ cPath) :
    CursorAt cPath nIndex index := by
  intro e he
  have hsplit := hs
  rw [SortedIndex, ← List.take_append_drop nIndex index, List.pairwise_append] at hsplit
  have hbehind : f ∈ index.drop nIndex := by
    rw [← List.take_append_drop nIndex index, List.mem_append] at hf
    exact hf.resolve_left fun h => hnone f h hpath
  obtain hlt | ⟨hsame, _⟩ := hsplit.2.2 e he f hbehind
  · exact hpath ▸ hlt
  · exact absurd (hsame.trans hpath) (hnone e he)

/-- The walk stops where it does from the start only if all entries before the cursor are before
the path. -/
theorem cursorAt_of_stopEntry (hs : SortedIndex index) {f : IndexEntry}
    (hstart : stopEntry cPath 0 index = some f) (hcur : stopEntry cPath nIndex index = some f) :
    CursorAt cPath nIndex index := by
  intro e he
  by_contra hnot
  have hsplit := hs
  rw [SortedIndex, ← List.take_append_drop nIndex index, List.pairwise_append] at hsplit
  have hlt : entryLt e f := hsplit.2.2 e he f (List.mem_of_find?_eq_some hcur)
  obtain rfl | hfirst := stopEntry_first hs hstart (List.mem_of_mem_take he) (not_lt.mp hnot)
  · exact entryLt_irrefl _ hlt
  · exact entryLt_irrefl _ (hlt.trans hfirst)

theorem stageEntry_remove (hapi : api.Lawful) (hs : SortedIndex index) {e : IndexEntry}
    (he : e ∈ index) (hpath : e.path = cPath) :
    stageEntry api fs native cPath .none index (some e) =
      .ok (index.filter fun f => !sameKey cPath e.stage f) := by
  have hkey : ∃ f ∈ index, sameKey cPath e.stage f = true :=
    ⟨e, he, sameKey_iff.mpr ⟨hpath, rfl⟩⟩
  rw [stageEntry_missing hpath, hapi.removes index cPath e.stage hs hkey]
  rfl

/-- The walk takes out the entry that it takes out from the start only by stopping at it. -/
theorem stopEntry_of_removed (hapi : api.Lawful) (hs : SortedIndex index) {f : IndexEntry}
    (hf : f ∈ index) (hpath : f.path = cPath)
    (h : stageEntry api fs native cPath .none index (stopEntry cPath nIndex index) =
      stageEntry api fs native cPath .none index (some f)) :
    stopEntry cPath nIndex index = some f := by
  have hgone : f ∉ index.filter fun e => !sameKey cPath f.stage e := by
    simp [sameKey_iff.mpr ⟨hpath, rfl⟩]
  rw [stageEntry_remove hapi hs hf hpath] at h
  by_cases hstop : ∃ e, stopEntry cPath nIndex index = some e ∧ e.path = cPath
  · obtain ⟨e, he, hepath⟩ := hstop
    have hmem := (mem_of_stopEntry he).1
    rw [he, stageEntry_remove hapi hs hmem hepath] at h
    have hstage : f.stage = e.stage := by
      by_contra hne
      apply hgone
      rw [← Except.ok.inj h, List.mem_filter, Bool.not_eq_true', ← Bool.not_eq_true, sameKey_iff]
      exact ⟨hf, fun hkey => hne hkey.2⟩
    rw [he, hs.eq_of_key hf hmem (hpath.trans hepath.symm) hstage]
  · push Not at hstop
    rw [stageEntry_absent hstop] at h
    exact absurd (Except.ok.inj h ▸ hf) hgone

/-- A missing path that the index has: the entry that goes is the same one just where none of
the path is before the cursor. -/
theorem stageEntry_missing_iff (hapi : api.Lawful) (hs : SortedIndex index) {g : IndexEntry}
    (hg : g ∈ index) (hpath : g.path = cPath) :
    stageEntry api fs native cPath .none index (stopEntry cPath nIndex index) =
        stageEntry api fs native cPath .none index (stopEntry cPath 0 index) ↔
      ∀ e ∈ index.take nIndex, e.path ≠ cPath := by
  constructor
  · intro h e he
    obtain ⟨f, hf, hfpath⟩ := stopEntry_present hs hg hpath
    rw [hf] at h
    have hcur := stopEntry_of_removed hapi hs (mem_of_stopEntry hf).1 hfpath h
    exact strcmp_ne (cursorAt_of_stopEntry hs hf hcur e he)
  · intro h
    rw [stopEntry_of_cursorAt (cursorAt_of_present hs hg hpath h)]

/-- Below a path with no entry, what is kept or taken out is never what adding the path gives. -/
theorem addByPath_ne (hapi : api.Lawful) (hs : SortedIndex index)
    (habsent : ∀ e ∈ index, e.path ≠ cPath) :
    api.addByPath fs native index cPath ≠
      if kind = .file then api.removeDirectory index cPath 0 else (0, index) := by
  intro h
  have hkept : ∃ kept : Index, (∀ e ∈ kept, e ∈ index) ∧
      api.addByPath fs native index cPath = (0, kept) := by
    split at h
    · rw [hapi.removesDirectory index cPath 0 hs] at h
      exact ⟨_, fun e he => (List.mem_filter.mp he).1, h⟩
    · exact ⟨index, fun _ he => he, h⟩
  obtain ⟨kept, hsub, hadd⟩ := hkept
  obtain ⟨mode, id, _, hplace⟩ := hapi.addsByPath fs native index cPath kept hs hadd
  exact habsent _ (hsub _ ((hplace.mem _).mpr (.inl rfl))) rfl

theorem stageEntry_present_iff (hapi : api.Lawful) (hs : SortedIndex index)
    (hkind : kind ≠ .none) :
    stageEntry api fs native cPath kind index (stopEntry cPath nIndex index) =
        stageEntry api fs native cPath kind index (stopEntry cPath 0 index) ↔
      (StopsBelow cPath (stopEntry cPath 0 index) →
        StopsBelow cPath (stopEntry cPath nIndex index)) ∧
      (StopsBelow cPath (stopEntry cPath nIndex index) →
        StopsBelow cPath (stopEntry cPath 0 index) ∨
          api.addByPath fs native index cPath =
            if kind = .file then api.removeDirectory index cPath 0 else (0, index)) := by
  obtain ⟨kept, hkept⟩ : ∃ kept,
      (if kind = .file then api.removeDirectory index cPath 0 else (0, index)) = (0, kept) := by
    rw [hapi.removesDirectory index cPath 0 hs]
    split
    · exact ⟨_, rfl⟩
    · exact ⟨_, rfl⟩
  have hbelow : (if kind = .file then checked (api.removeDirectory index cPath 0) else .ok index) =
      .ok kept := by
    rw [← checked_eq_ok.mpr hkept]
    split <;> rfl
  rw [stageEntry_present hkind, stageEntry_present hkind, hbelow, hkept, ← checked_eq_ok]
  by_cases hstart : StopsBelow cPath (stopEntry cPath 0 index)
  · have hne := @addByPath_ne api fs native cPath kind index hapi hs
      (absent_of_stopsBelow hs hstart)
    rw [hkept, ne_eq, ← checked_eq_ok] at hne
    by_cases hcur : StopsBelow cPath (stopEntry cPath nIndex index)
    · simp [hstart, hcur]
    · simp [hstart, hcur, hne]
  · by_cases hcur : StopsBelow cPath (stopEntry cPath nIndex index)
    · simp only [hstart, hcur, if_true, if_false, false_imp_iff, true_imp_iff, true_and, false_or]
      exact eq_comm
    · simp [hstart, hcur]

theorem stageEntry_inStep_iff (hapi : api.Lawful) (hs : SortedIndex index) :
    stageEntry api fs native cPath kind index (stopEntry cPath nIndex index) =
        stageEntry api fs native cPath kind index (stopEntry cPath 0 index) ↔
      InStep api fs native cPath kind nIndex index := by
  by_cases hkind : kind = .none
  · subst hkind
    have hmissing : (∀ e ∈ index.take nIndex, e.path ≠ cPath) ↔
        InStep api fs native cPath .none nIndex index := by
      constructor
      · intro h
        exact ⟨fun _ => h, fun h => absurd rfl h, fun h => absurd rfl h⟩
      · intro h
        exact h.missing rfl
    rw [← hmissing]
    by_cases hpresent : ∃ g ∈ index, g.path = cPath
    · obtain ⟨g, hg, hpath⟩ := hpresent
      exact stageEntry_missing_iff hapi hs hg hpath
    · push Not at hpresent
      apply iff_of_true
      · rw [stageEntry_absent fun e he => hpresent e (mem_of_stopEntry he).1,
          stageEntry_absent fun e he => hpresent e (mem_of_stopEntry he).1]
      · intro e he
        exact hpresent e (List.mem_of_mem_take he)
  · rw [stageEntry_present_iff hapi hs hkind]
    constructor
    · intro h
      exact ⟨fun hnone => absurd hnone hkind, fun _ => h.1, fun _ => h.2⟩
    · intro h
      exact ⟨h.stops hkind, h.passes hkind⟩

/-- The turn that ends the path keeps some of the entries, or puts one at the path. -/
theorem stageEntry_cases (hapi : api.Lawful) (hs : SortedIndex index) {stop : Option IndexEntry}
    (hmem : ∀ e, stop = some e → e ∈ index) {after : Index}
    (h : stageEntry api fs native cPath kind index stop = .ok after) :
    (∃ keep : IndexEntry → Bool, after = index.filter keep) ∨
      ∃ mode id, Places ⟨cPath, 0, mode, id⟩ (ReplacedByPath cPath) index after := by
  have hsame (h : Except.ok index = Except.ok (ε := Failure) after) :
      ∃ keep : IndexEntry → Bool, after = index.filter keep := by
    obtain rfl := Except.ok.inj h
    exact ⟨fun _ => true, (List.filter_eq_self.mpr fun _ _ => rfl).symm⟩
  by_cases hkind : kind = .none
  · subst hkind
    by_cases hpath : ∃ e, stop = some e ∧ e.path = cPath
    · obtain ⟨e, rfl, hpath⟩ := hpath
      rw [stageEntry_remove hapi hs (hmem e rfl) hpath] at h
      exact .inl ⟨_, (Except.ok.inj h).symm⟩
    · push Not at hpath
      rw [stageEntry_absent hpath] at h
      exact .inl (hsame h)
  · rw [stageEntry_present hkind] at h
    split_ifs at h
    · rw [hapi.removesDirectory index cPath 0 hs, checked_eq_ok] at h
      exact .inl ⟨_, (Prod.mk.inj h).2.symm⟩
    · exact .inl (hsame h)
    · obtain ⟨mode, id, _, hplace⟩ :=
        hapi.addsByPath fs native index cPath after hs (checked_eq_ok.mp h)
      exact .inr ⟨mode, id, hplace⟩

theorem stageNext_index (hkind : fs.checkPath (svnDirentJoin repoAbspath cPath) = .ok kind)
    (walk : Nat × Index) :
    (stageNext api fs native repoAbspath walk cPath).map Prod.snd =
      stageEntry api fs native cPath kind walk.2 (stopEntry cPath walk.1 walk.2) :=
  stagePath_index hkind (Nat.lt_succ_self _)

theorem stageNext_cases (hapi : api.Lawful) {walk walk' : Nat × Index} (hs : SortedIndex walk.2)
    (h : stageNext api fs native repoAbspath walk cPath = .ok walk') :
    (∃ keep : IndexEntry → Bool, walk'.2 = walk.2.filter keep) ∨
      ∃ mode id, Places ⟨cPath, 0, mode, id⟩ (ReplacedByPath cPath) walk.2 walk'.2 := by
  cases hkind : fs.checkPath (svnDirentJoin repoAbspath cPath) with
  | error code =>
    rw [stageNext, stagePath, stageTurn, ioCheckPath, hkind] at h
    cases h
  | ok kind =>
    have hentry := @stageNext_index api fs native repoAbspath cPath kind hkind walk
    rw [h] at hentry
    exact stageEntry_cases hapi hs (fun e he => (mem_of_stopEntry he).1) hentry.symm

theorem stageNext_sorted (hapi : api.Lawful) {walk walk' : Nat × Index} (hs : SortedIndex walk.2)
    (h : stageNext api fs native repoAbspath walk cPath = .ok walk') : SortedIndex walk'.2 := by
  obtain ⟨keep, hkeep⟩ | ⟨mode, id, hplace⟩ := stageNext_cases hapi hs h
  · rw [hkeep]
    exact hs.sublist List.filter_sublist
  · exact hplace.sorted

/-- All entries behind one path of the walk are old ones or of the path. -/
theorem stageNext_mem (hapi : api.Lawful) {walk walk' : Nat × Index} (hs : SortedIndex walk.2)
    (h : stageNext api fs native repoAbspath walk cPath = .ok walk') :
    ∀ e ∈ walk'.2, e ∈ walk.2 ∨ e.path = cPath := by
  intro e he
  obtain ⟨keep, hkeep⟩ | ⟨mode, id, hplace⟩ := stageNext_cases hapi hs h
  · rw [hkeep] at he
    exact .inl (List.mem_filter.mp he).1
  · obtain rfl | ⟨hold, _⟩ := (hplace.mem e).mp he
    · exact .inr rfl
    · exact .inl hold

/-- One path does to the index what the walk on it alone does, exactly if the cursor is in
step. -/
theorem stageNext_alone_iff (hapi : api.Lawful) (hs : SortedIndex index) :
    (stageNext api fs native repoAbspath (nIndex, index) cPath).map Prod.snd =
        stageWalk api fs native repoAbspath [cPath] 0 index ↔
      ∀ kind, fs.checkPath (svnDirentJoin repoAbspath cPath) = .ok kind →
        InStep api fs native cPath kind nIndex index := by
  cases hkind : fs.checkPath (svnDirentJoin repoAbspath cPath) with
  | error code =>
    apply iff_of_true
    · rw [stageNext, stageWalk, stagePath, stagePath, stageTurn, stageTurn, ioCheckPath, hkind]
      rfl
    · intro kind h
      cases h
  | ok kind =>
    rw [stageNext_index hkind, stageWalk_one hkind, stageEntry_inStep_iff hapi hs]
    constructor
    · intro h other hother
      cases hother
      exact h
    · intro h
      exact h kind rfl

end Step

section Invariant

variable {api : IndexApi} {fs : FileSystem} {native : NativeRepository} {repoAbspath : CStr}
  {cPath : CStr} {kind : NodeKind} {nIndex : Nat} {index after : Index}

theorem CursorAt.mono (hcur : CursorAt cPath nIndex index) {other : CStr}
    (hlt : strcmp cPath other < 0) : CursorAt other nIndex index :=
  fun e he => strcmp_lt_trans (hcur e he) hlt

/-- The cursor keeps its place where only entries behind it go. -/
theorem CursorAt.filter (hcur : CursorAt cPath nIndex index) {keep : IndexEntry → Bool}
    (hkeep : ∀ e ∈ index.take nIndex, keep e = true) :
    CursorAt cPath nIndex (index.filter keep) := by
  have hfront : (index.take nIndex).filter keep = index.take nIndex :=
    List.filter_eq_self.mpr hkeep
  intro e he
  apply hcur
  rw [← List.take_append_drop nIndex index, List.filter_append, hfront, List.take_append] at he
  obtain he | he := List.mem_append.mp he
  · exact List.mem_of_mem_take he
  · by_cases hlength : nIndex ≤ index.length
    · rw [List.length_take, min_eq_left hlength, Nat.sub_self, List.take_zero] at he
      cases he
    · rw [List.drop_of_length_le (Nat.le_of_not_le hlength)] at he
      simp at he

/-- Behind an entry that is put at the path, the cursor is past the path, if nothing before it
has gone. -/
theorem CursorAt.places (hcur : CursorAt cPath nIndex index) (hs : SortedIndex index)
    {e : IndexEntry} (hpath : e.path = cPath) {dropped : IndexEntry → Prop}
    (hplace : Places e dropped index after) (hkeep : ∀ f ∈ index.take nIndex, ¬dropped f)
    {other : CStr} (hlt : strcmp cPath other < 0) : CursorAt other (nIndex + 1) after := by
  intro g hg
  by_contra hnot
  obtain ⟨i, hi, rfl⟩ := List.mem_take_iff_getElem.mp hg
  have hilength : i < after.length := by omega
  -- what was before the cursor, and the new entry, come before g
  have hbefore : ∀ f ∈ e :: index.take nIndex, f ∈ after.take i := by
    intro f hf
    have hfother : strcmp f.path other < 0 := by
      obtain rfl | hf := List.mem_cons.mp hf
      · rw [hpath]
        exact hlt
      · exact strcmp_lt_trans (hcur f hf) hlt
    apply hplace.sorted.mem_take hilength
    · rw [hplace.mem]
      obtain rfl | hf := List.mem_cons.mp hf
      · exact .inl rfl
      · exact .inr ⟨List.mem_of_mem_take hf, hkeep f hf⟩
    · obtain h | h | h := strcmp_trichotomy f.path after[i].path
      · exact .inl h
      · exact absurd (h ▸ hfother) hnot
      · exact absurd (strcmp_lt_trans h hfother) hnot
  have hnodup : (e :: index.take nIndex).Nodup := by
    apply List.nodup_cons.mpr
    constructor
    · intro he
      exact strcmp_ne (hcur e he) hpath
    · apply List.Pairwise.imp ?_ (hs.sublist (List.take_sublist nIndex index))
      intro f f' hff' heq
      subst heq
      exact entryLt_irrefl f hff'
  have hcount := (List.subperm_of_subset hnodup hbefore).length_le
  rw [List.length_cons, List.length_take, List.length_take] at hcount
  by_cases hlength : nIndex ≤ index.length
  · omega
  · -- the cursor is past the end, so all entries are before the path
    obtain hnew | ⟨hold, _⟩ := (hplace.mem _).mp (List.getElem_mem hilength)
    · rw [hnew, hpath] at hnot
      exact hnot hlt
    · rw [← List.take_of_length_le (Nat.le_of_not_le hlength)] at hold
      exact hnot (strcmp_lt_trans (hcur _ hold) hlt)

theorem not_below_before {path : CStr} (hlt : strcmp path cPath < 0) : ¬Below cPath path := by
  intro hbelow
  obtain rfl | ⟨rest, rfl⟩ := hbelow
  · exact not_strcmp_root path hlt
  · rw [List.append_assoc] at hlt
    have hbehind : strcmp cPath (cPath ++ ([slash] ++ rest)) < 0 :=
      strcmp_append_pos (List.cons_ne_nil _ _)
    exact strcmp_ne (strcmp_lt_trans hlt hbehind) rfl

/-- A turn that ends the path leaves the cursor before all later paths, if the path is not put in
place of one of its parents. -/
theorem TurnStep.past (hapi : api.Lawful) (hs : SortedIndex index)
    (hcur : CursorAt cPath nIndex index)
    (hparents : kind ≠ .none → ∀ e ∈ index, e.stage = 0 → ¬e.path ++ [slash] <+: cPath)
    {next : Nat} (h : TurnStep api fs native cPath kind nIndex index true next after)
    {other : CStr} (hlt : strcmp cPath other < 0) : CursorAt other next after := by
  have hadded (hkind : kind ≠ .none) (hadd : api.addByPath fs native index cPath = (0, after)) :
      CursorAt other (nIndex + 1) after := by
    obtain ⟨mode, id, _, hplace⟩ := hapi.addsByPath fs native index cPath after hs hadd
    apply hcur.places hs rfl hplace ?_ hlt
    intro f hf hreplaced
    obtain hsame | ⟨hstage, hbelow | habove⟩ := hreplaced
    · exact strcmp_ne (hcur f hf) hsame
    · exact not_below_before (hcur f hf) (.inr hbelow)
    · exact hparents hkind f (List.mem_of_mem_take hf) hstage habove
  cases h with
  | replace _ _ hkind hadd => exact hadded hkind hadd
  | add _ hkind hadd => exact hadded hkind hadd
  | @remove entry hentry hpath _ _ hremove =>
    have hkey : ∃ e ∈ index, sameKey cPath entry.stage e = true :=
      ⟨entry, List.mem_of_getElem? hentry, sameKey_iff.mpr ⟨hpath, rfl⟩⟩
    rw [hapi.removes index cPath entry.stage hs hkey] at hremove
    obtain ⟨_, rfl⟩ := Prod.mk.inj hremove
    apply (hcur.filter ?_).mono hlt
    intro e he
    rw [Bool.not_eq_true', ← Bool.not_eq_true, sameKey_iff]
    exact fun hkey => strcmp_ne (hcur e he) hkey.1
  | removeDirectory _ _ _ _ hremove =>
    rw [hapi.removesDirectory index cPath 0 hs] at hremove
    obtain ⟨_, rfl⟩ := Prod.mk.inj hremove
    apply (hcur.filter ?_).mono hlt
    intro e he
    apply decide_eq_true
    exact fun hgone => not_below_before (hcur e he) hgone.1
  | keepDirectory => exact hcur.mono hlt
  | skip => exact hcur.mono hlt

theorem stagePath_past (hapi : api.Lawful) (hs : SortedIndex index)
    (hcur : CursorAt cPath nIndex index)
    (hparents : fs.checkPath (svnDirentJoin repoAbspath cPath) ≠ .ok .none →
      ∀ e ∈ index, e.stage = 0 → ¬e.path ++ [slash] <+: cPath)
    {fuel next : Nat}
    (h : stagePath api fs native repoAbspath cPath fuel nIndex index = .ok (next, after))
    {other : CStr} (hlt : strcmp cPath other < 0) : CursorAt other next after := by
  induction fuel generalizing nIndex with
  | zero => cases h
  | succ fuel ih =>
    obtain ⟨⟨pathDone, moved, turned⟩, hturn, hrest⟩ := except_bind_eq_ok.mp h
    obtain ⟨kind, hkind, hstep⟩ := stageTurn_step hturn
    cases pathDone with
    | false =>
      obtain ⟨-, -, rfl⟩ := hstep.not_done
      exact ih (hstep.cursorAt hcur) hrest
    | true =>
      cases hrest
      apply hstep.past hapi hs hcur ?_ hlt
      intro hnone
      apply hparents
      rw [hkind]
      intro heq
      exact hnone (Except.ok.inj heq)

end Invariant

section Run

variable {api : IndexApi} {fs : FileSystem} {native : NativeRepository} {repoAbspath : CStr}
  {cPaths : List CStr} {index : Index}

theorem stageWalk_eq_run (cPaths : List CStr) (nIndex : Nat) (index : Index) :
    stageWalk api fs native repoAbspath cPaths nIndex index =
      (cPaths.foldlM (stageNext api fs native repoAbspath) (nIndex, index)).map Prod.snd := by
  induction cPaths generalizing nIndex index with
  | nil => rfl
  | cons cPath cPaths ih =>
    rw [stageWalk, List.foldlM_cons, stageNext]
    cases stagePath api fs native repoAbspath cPath (index.length - nIndex + 1) nIndex index with
    | error e => rfl
    | ok walk => exact ih walk.1 walk.2

/-- The index stays sorted all along the walk. -/
theorem stageRun_sorted (hapi : api.Lawful) (hs : SortedIndex index) {front : List CStr}
    {nIndex : Nat} {after : Index}
    (hrun : stageRun api fs native repoAbspath front index = .ok (nIndex, after)) :
    SortedIndex after := by
  have hkeeps := @foldlM_keeps _ _ _ (stageNext api fs native repoAbspath) front
    (fun _ walk => SortedIndex walk.2) (fun _ _ _ _ _ => stageNext_sorted hapi) (0, index) hs
  exact hkeeps List.prefix_rfl hrun

/-- After every beginning of the list, exactly if each path makes of the index it finds what the
walk on it alone does. -/
theorem stageWalk_alone_iff :
    (∀ front, front <+: cPaths →
        stageWalk api fs native repoAbspath front 0 index =
          stageAlone api fs native repoAbspath front index) ↔
      ∀ front cPath, front ++ [cPath] <+: cPaths → ∀ walk,
        stageRun api fs native repoAbspath front index = .ok walk →
        (stageNext api fs native repoAbspath walk cPath).map Prod.snd =
          stageWalk api fs native repoAbspath [cPath] 0 walk.2 := by
  simp only [stageWalk_eq_run, stageAlone]
  exact lockstep_iff

theorem StaysInStep.mergesAlone (hapi : api.Lawful) (hs : SortedIndex index)
    (h : StaysInStep api fs native repoAbspath cPaths index) :
    MergesAlone api fs native repoAbspath cPaths index := by
  refine ⟨stageWalk_alone_iff.mpr ?_, ?_⟩
  · intro front cPath hfront ⟨nIndex, after⟩ hrun
    apply (stageNext_alone_iff hapi (stageRun_sorted hapi hs hrun)).mpr
    exact h front cPath hfront nIndex after hrun
  · intro front cPath nIndex after hfront hrun hkind hstop e he hpath
    have hsorted := stageRun_sorted hapi hs hrun
    have hnone := (h front cPath hfront nIndex after hrun .none hkind).missing rfl
    obtain ⟨f, hf, hfpath⟩ := stopEntry_present hsorted he hpath
    rw [← stopEntry_of_cursorAt (cursorAt_of_present hsorted he hpath hnone)] at hf
    exact hstop f hf hfpath

theorem MergesAlone.staysInStep (hapi : api.Lawful) (hs : SortedIndex index)
    (h : MergesAlone api fs native repoAbspath cPaths index) :
    StaysInStep api fs native repoAbspath cPaths index := by
  intro front cPath hfront nIndex after hrun
  apply (stageNext_alone_iff hapi (stageRun_sorted hapi hs hrun)).mp
  exact stageWalk_alone_iff.mp h.same front cPath hfront (nIndex, after) hrun

end Run

/-- No path is listed twice, and no path with something on disk has a parent among the entries
or in the list. -/
structure Undisturbed (fs : FileSystem) (repoAbspath : CStr) (cPaths : List CStr) (index : Index) :
    Prop where
  strict : cPaths.Pairwise fun p q => strcmp p q < 0
  entries : ∀ cPath ∈ cPaths, fs.checkPath (svnDirentJoin repoAbspath cPath) ≠ .ok .none →
    ∀ e ∈ index, e.stage = 0 → ¬e.path ++ [slash] <+: cPath
  listed : ∀ cPath ∈ cPaths, fs.checkPath (svnDirentJoin repoAbspath cPath) ≠ .ok .none →
    ∀ p ∈ cPaths, ¬p ++ [slash] <+: cPath

/-- What holds of the walk behind the paths of `front`: the cursor is before no later path. -/
structure Behind (index : Index) (front : List CStr) (walk : Nat × Index) : Prop where
  sorted : SortedIndex walk.2
  entries : ∀ e ∈ walk.2, e ∈ index ∨ e.path ∈ front
  cursor : ∀ cPath, (∀ p ∈ front, strcmp p cPath < 0) → CursorAt cPath walk.1 walk.2

section Undisturbed

variable {api : IndexApi} {fs : FileSystem} {native : NativeRepository} {repoAbspath : CStr}
  {cPaths front : List CStr} {cPath : CStr} {nIndex : Nat} {index after : Index}

theorem InStep.of_cursorAt (hcur : CursorAt cPath nIndex index) (kind : NodeKind) :
    InStep api fs native cPath kind nIndex index := by
  have hstop := stopEntry_of_cursorAt hcur
  refine ⟨?_, ?_, ?_⟩
  · intro _ e he
    exact strcmp_ne (hcur e he)
  · intro _ h
    rw [hstop]
    exact h
  · intro _ h
    rw [hstop] at h
    exact .inl h

theorem Undisturbed.before (h : Undisturbed fs repoAbspath cPaths index)
    (hfront : front ++ [cPath] <+: cPaths) : ∀ p ∈ front, strcmp p cPath < 0 := by
  intro p hp
  have hpairs := List.pairwise_append.mp (h.strict.sublist hfront.sublist)
  exact hpairs.2.2 p hp cPath List.mem_cons_self

theorem Undisturbed.behind (hapi : api.Lawful) (hs : SortedIndex index)
    (h : Undisturbed fs repoAbspath cPaths index) (hfront : front <+: cPaths)
    (hrun : stageRun api fs native repoAbspath front index = .ok (nIndex, after)) :
    Behind index front (nIndex, after) := by
  have hstart : Behind index [] (0, index) := by
    refine ⟨hs, fun e he => .inl he, ?_⟩
    intro cPath _ e he
    rw [List.take_zero] at he
    cases he
  apply @foldlM_keeps _ _ _ (stageNext api fs native repoAbspath) cPaths (Behind index) ?_ _
    hstart _ hfront _ hrun
  intro front cPath walk walk' hfront hwalk hstep
  have hlisted : cPath ∈ cPaths := hfront.subset (List.mem_append_right _ List.mem_cons_self)
  refine ⟨stageNext_sorted hapi hwalk.sorted hstep, ?_, ?_⟩
  · intro e he
    rw [List.mem_append, List.mem_singleton]
    obtain hold | hnew := stageNext_mem hapi hwalk.sorted hstep e he
    · obtain hold | hpassed := hwalk.entries e hold
      · exact .inl hold
      · exact .inr (.inl hpassed)
    · exact .inr (.inr hnew)
  · intro other hother
    have hlt := hother cPath (List.mem_append_right _ List.mem_cons_self)
    apply stagePath_past hapi hwalk.sorted (hwalk.cursor cPath (h.before hfront)) ?_ hstep hlt
    intro hkind e he hstage
    obtain hold | hpassed := hwalk.entries e he
    · exact h.entries cPath hlisted hkind e hold hstage
    · apply h.listed cPath hlisted hkind
      exact hfront.subset (List.mem_append_left _ hpassed)

theorem Undisturbed.staysInStep (hapi : api.Lawful) (hs : SortedIndex index)
    (h : Undisturbed fs repoAbspath cPaths index) :
    StaysInStep api fs native repoAbspath cPaths index := by
  intro front cPath hfront nIndex after hrun kind _
  have hbehind := h.behind hapi hs ((List.prefix_append _ _).trans hfront) hrun
  exact .of_cursorAt (hbehind.cursor cPath (h.before hfront)) kind

/-- On such a list the merge walk makes what the walks alone make. -/
theorem Undisturbed.mergesAlone (hapi : api.Lawful) (hs : SortedIndex index)
    (h : Undisturbed fs repoAbspath cPaths index) :
    MergesAlone api fs native repoAbspath cPaths index :=
  (h.staysInStep hapi hs).mergesAlone hapi hs

end Undisturbed

/-- The merge walk makes what the walks over each path alone make, after every path of the list,
exactly if its cursor stays in step. -/
theorem stageWalk_mergesAlone_iff {api : IndexApi} (hapi : api.Lawful) {fs : FileSystem}
    {native : NativeRepository} {repoAbspath : CStr} {cPaths : List CStr} {index : Index}
    (hs : SortedIndex index) :
    MergesAlone api fs native repoAbspath cPaths index ↔
      StaysInStep api fs native repoAbspath cPaths index := by
  constructor
  · intro h
    exact h.staysInStep hapi hs
  · intro h
    exact h.mergesAlone hapi hs

/-- C:/w, as the walk names it. -/
def exampleAbspath : CStr := svnDirentInternalStyle exampleNative.workdir

/-- The example work tree in which one path is missing and a file stands at all others. -/
def missingFs (missing : CStr) : FileSystem :=
  let checkPath := fun path =>
    if path = svnDirentJoin exampleAbspath missing then .ok .none else .ok .file
  (exampleDisk checkPath []).fs

/-- The new file a is staged, then the deleted c. -/
theorem stageWalk_mergesAlone_example :
    MergesAlone exampleApi (missingFs [0x63]) exampleNative exampleAbspath
      [[0x61], [0x63]] [exampleEntry [0x62], exampleEntry [0x63]] := by
  apply (stageWalk_mergesAlone_iff (listIndexApi_lawful _) (by decide)).mpr
  apply Undisturbed.staysInStep (listIndexApi_lawful _) (by decide)
  refine ⟨by decide, ?_, ?_⟩
  · intro cPath hc _
    revert cPath
    decide
  · intro cPath hc _
    revert cPath
    decide

/-- a/b and c, where a and c are in the index. -/
def nestedPaths : List CStr := [[0x61, 0x2f, 0x62], [0x63]]

/-- c twice and d, where c and d are in the index. -/
def repeatedPaths : List CStr := [[0x63], [0x63], [0x64]]

/-- Where a/b is put in the place of the entry a, and where the file c is listed twice, the cursor
gets past the deleted entry that comes next: it stays. -/
theorem stageWalk_not_mergesAlone :
    (SortedIndex [exampleEntry [0x61], exampleEntry [0x63]] ∧
      sortPaths nestedPaths = nestedPaths ∧
      ¬MergesAlone exampleApi (missingFs [0x63]) exampleNative exampleAbspath nestedPaths
        [exampleEntry [0x61], exampleEntry [0x63]]) ∧
    SortedIndex [exampleEntry [0x63], exampleEntry [0x64]] ∧
      sortPaths repeatedPaths = repeatedPaths ∧
      ¬MergesAlone exampleApi (missingFs [0x64]) exampleNative exampleAbspath repeatedPaths
        [exampleEntry [0x63], exampleEntry [0x64]] := by
  refine ⟨⟨by decide, by decide, ?_⟩, by decide, by decide, ?_⟩
  · intro h
    exact absurd (h.same _ List.prefix_rfl) (by decide)
  · intro h
    exact absurd (h.same _ List.prefix_rfl) (by decide)

end SharpGit.GitClient
