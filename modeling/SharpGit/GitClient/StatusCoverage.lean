import SharpGit.Library.Runs
import SharpGit.Svn.DirentSplit
import SharpGit.GitClient.GitStatus

namespace SharpGit.GitClient

open Library Native Svn Implementation Plumbing

/-- A directory that is `path` or holds it, the root left out. -/
def AtOrAbove (dir path : CStr) : Prop :=
  dir ≠ [] ∧ (svnRelpathSkipAncestor dir path).isSome = true

/-- A directory that holds `path`, the root left out. -/
def Holds (dir path : CStr) : Prop := AtOrAbove dir path ∧ dir ≠ path

/-- Where the buffer of the walk starts: at the parent of the requested path. -/
def requestedParent (path : NetString) : CStr :=
  if path = [] then allocDirent path else pathRemoveComponent (allocDirent path)

theorem atOrAbove_iff {dir path : CStr} :
    AtOrAbove dir path ↔ dir ≠ [] ∧ (dir = path ∨ dir ++ [slash] <+: path) := by
  unfold AtOrAbove
  apply and_congr_right
  intro hne
  rw [svnRelpathSkipAncestor_isSome hne]
  exact or_congr_left eq_comm

theorem not_atOrAbove_nil (dir : CStr) : ¬AtOrAbove dir [] := by
  intro h
  obtain ⟨hne, heq | hpre⟩ := atOrAbove_iff.mp h
  · exact hne heq
  · exact absurd (List.prefix_nil.mp hpre) (by simp)

/-- What holds a joined path is joined from a front of its names. -/
theorem atOrAbove_joinNames {dir : CStr} {ks : List CStr} (hk : AreNames ks) :
    AtOrAbove dir (joinNames ks) ↔ ∃ q, q ≠ [] ∧ q <+: ks ∧ dir = joinNames q := by
  rw [atOrAbove_iff]
  constructor
  · intro ⟨hne, h⟩
    obtain heq | ⟨rest, hrest⟩ := h
    · refine ⟨ks, ?_, List.prefix_rfl, heq⟩
      intro hnil
      subst hnil
      exact hne heq
    · rw [List.append_assoc, List.singleton_append] at hrest
      have hks : ks ≠ [] := by
        intro hnil
        subst hnil
        exact absurd hrest (by simp)
      have hsplit : ks = dir.splitOn slash ++ rest.splitOn slash := by
        rw [← List.splitOn_append_cons_self, hrest]
        exact (List.splitOn_intercalate slash (fun k hk' => (hk k hk').2) hks).symm
      refine ⟨dir.splitOn slash, List.splitOn_ne_nil slash dir, ⟨_, hsplit.symm⟩, ?_⟩
      exact (List.intercalate_splitOn slash).symm
  · intro ⟨q, hq, hpre, hdir⟩
    subst hdir
    have hnames : AreNames q := fun k hk' => hk k (hpre.subset hk')
    refine ⟨fun h => hq ((joinNames_eq_nil hnames).mp h), ?_⟩
    by_cases heq : q = ks
    · exact .inl (congrArg joinNames heq)
    · exact .inr ((joinNames_below_iff hnames hk hq).mpr ⟨hpre, heq⟩)

/-- One name further down, only the directory itself is new. -/
theorem atOrAbove_concat {dir : CStr} {ks : List CStr} {k : CStr} (hk : AreNames (ks ++ [k])) :
    AtOrAbove dir (joinNames (ks ++ [k])) ↔
      dir = joinNames (ks ++ [k]) ∨ AtOrAbove dir (joinNames ks) := by
  have hks : AreNames ks := fun q hq => hk q (List.mem_append_left _ hq)
  rw [atOrAbove_joinNames hk, atOrAbove_joinNames hks]
  constructor
  · intro ⟨q, hq, hpre, hdir⟩
    obtain rfl | hpre := List.prefix_concat_iff.mp hpre
    · exact .inl hdir
    · exact .inr ⟨q, hq, hpre, hdir⟩
  · intro h
    obtain hdir | ⟨q, hq, hpre, hdir⟩ := h
    · exact ⟨ks ++ [k], by simp, List.prefix_rfl, hdir⟩
    · exact ⟨q, hq, hpre.trans (List.prefix_append _ _), hdir⟩

theorem holds_concat {dir : CStr} {ks : List CStr} {k : CStr} (hk : AreNames (ks ++ [k])) :
    Holds dir (joinNames (ks ++ [k])) → AtOrAbove dir (joinNames ks) := by
  intro ⟨habove, hne⟩
  exact ((atOrAbove_concat hk).mp habove).resolve_left hne

theorem atOrAbove_dirname {dir path : CStr} (hpath : relpathIsCanonical path = true) :
    AtOrAbove dir path → dir = path ∨ AtOrAbove dir (svnRelpathDirname path) := by
  have hk := areNames_pathNames path
  have hjoin : joinNames (pathNames path) = path := (relpathIsCanonical_iff _).mp hpath
  rw [← hjoin, svnRelpathDirname_joinNames hk]
  generalize pathNames path = ks at hk
  cases ks using List.reverseRecOn with
  | nil => exact fun h => absurd h (not_atOrAbove_nil dir)
  | append_singleton ks k =>
    rw [List.dropLast_concat]
    exact (atOrAbove_concat hk).mp

theorem pathRemoveComponent_relative {path : CStr} (hs : path[0]? ≠ some slash) :
    pathRemoveComponent path = dirPart path := by
  by_cases hne : path = []
  · subst hne
    rfl
  have hlen : path.length ≠ 0 := fun h => hne (List.length_eq_zero_iff.mp h)
  unfold pathRemoveComponent pathPreviousSegment
  dsimp only
  by_cases hmem : slash ∈ path
  · obtain ⟨dir, k, rfl, hk⟩ := split_last_slash hmem
    rw [if_neg hlen, scanBack_joined hk, if_neg fun h => hs h.2, dirPart_split hk, List.take_left]
  · rw [if_neg hlen, scanBack_word hmem, if_neg fun h => hs h.2, dirPart_word hmem, List.take_zero]

/-- From "/" there is no way further up. -/
theorem pathRemoveComponent_rooted {path : CStr} (hs : path[0]? = some slash) :
    (pathRemoveComponent path)[0]? = some slash := by
  have hpos : 0 < pathPreviousSegment path path.length := by
    have hlen : path.length ≠ 0 := Nat.ne_of_gt (List.getElem?_eq_some_iff.mp hs).1
    unfold pathPreviousSegment
    dsimp only
    rw [if_neg hlen]
    split_ifs with hroot
    · exact Nat.one_pos
    · exact Nat.pos_of_ne_zero fun h => hroot ⟨h, hs⟩
  rw [pathRemoveComponent, List.getElem?_take_of_lt hpos, hs]

/-- What stands at or above the directory of a path stands above the path. -/
theorem atOrAbove_dirPart {dir path : CStr} (h : AtOrAbove dir (dirPart path)) :
    AtOrAbove dir path := by
  by_cases hmem : slash ∈ path
  · obtain ⟨front, k, rfl, hk⟩ := split_last_slash hmem
    rw [dirPart_split hk] at h
    obtain ⟨hne, h⟩ := atOrAbove_iff.mp h
    refine atOrAbove_iff.mpr ⟨hne, .inr ?_⟩
    obtain rfl | h := h
    · exact ⟨k, by simp⟩
    · exact h.trans (List.prefix_append _ _)
  · rw [dirPart_word hmem] at h
    exact absurd h (not_atOrAbove_nil dir)

theorem dirPart_relative {path : CStr} (hs : path[0]? ≠ some slash) :
    (dirPart path)[0]? ≠ some slash := by
  by_cases hne : path = []
  · subst hne
    exact hs
  · obtain ⟨tail, -, hpath⟩ := dirPart_append hne
    intro h
    apply hs
    rw [hpath]
    exact getElem?_front h

/-- The first loop ends at a directory above the next path that the buffer stood at or below. -/
theorem popUnrelated_relative {sb : CStr} (hs : sb[0]? ≠ some slash) {ds : List CStr}
    (hd : AreNames ds) {fuel : Nat} (hfuel : sb.length < fuel) :
    ∃ common, popUnrelated (joinNames ds) fuel sb = .ok (joinNames common) ∧ common <+: ds ∧
      ∀ dir, AtOrAbove dir (joinNames common) → AtOrAbove dir sb := by
  induction fuel generalizing sb with
  | zero => exact absurd hfuel (Nat.not_lt_zero _)
  | succ fuel ih =>
    rw [popUnrelated]
    by_cases hne : sb = []
    · subst hne
      exact ⟨[], by simp, List.nil_prefix, fun dir h => h⟩
    by_cases habove : AtOrAbove sb (joinNames ds)
    · obtain ⟨q, -, hpre, hsb⟩ := (atOrAbove_joinNames hd).mp habove
      refine ⟨q, ?_, hpre, fun dir h => hsb ▸ h⟩
      have hskip : ¬(sb ≠ [] ∧ (svnRelpathSkipAncestor sb (joinNames ds)).isNone = true) := by
        intro hskip
        have hnone := Option.isNone_iff_eq_none.mp hskip.2
        have hsome := habove.2
        rw [hnone] at hsome
        exact absurd hsome (by simp)
      rw [if_neg hskip, hsb]
    · have hskip : sb ≠ [] ∧ (svnRelpathSkipAncestor sb (joinNames ds)).isNone = true := by
        refine ⟨hne, ?_⟩
        rw [Option.isNone_iff_eq_none, ← Option.not_isSome_iff_eq_none]
        exact fun hsome => habove ⟨hne, hsome⟩
      obtain ⟨tail, htail, hsb⟩ := dirPart_append hne
      have hless : (dirPart sb).length < fuel := by
        have hpos : 0 < tail.length := List.length_pos_iff.mpr htail
        have hlen := congrArg List.length hsb
        rw [List.length_append] at hlen
        omega
      obtain ⟨common, hrun, hpre, hcover⟩ := ih (dirPart_relative hs) hless
      refine ⟨common, ?_, hpre, fun dir h => atOrAbove_dirPart (hcover dir h)⟩
      rw [if_pos hskip, pathRemoveComponent_relative hs, hrun]

/-- From a rooted buffer the first loop never gets to a relative directory. -/
theorem popUnrelated_rooted {dir : CStr} (hd : dir[0]? ≠ some slash) (fuel : Nat) {sb : CStr}
    (hs : sb[0]? = some slash) : popUnrelated dir fuel sb = .error .diverges := by
  induction fuel generalizing sb with
  | zero => rfl
  | succ fuel ih =>
    have hskip : sb ≠ [] ∧ (svnRelpathSkipAncestor sb dir).isNone = true := by
      have hne : sb ≠ [] := by
        intro hnil
        subst hnil
        exact absurd hs (by simp)
      refine ⟨hne, ?_⟩
      rw [Option.isNone_iff_eq_none, ← Option.not_isSome_iff_eq_none,
        svnRelpathSkipAncestor_isSome hne]
      intro h
      obtain rfl | ⟨rest, hrest⟩ := h
      · exact hd hs
      · apply hd
        rw [← hrest, List.append_assoc]
        exact getElem?_front hs
    rw [popUnrelated, if_pos hskip]
    exact ih (pathRemoveComponent_rooted hs)

section Walk

variable {start : CStr}

/-- What stands in the log or is given with the requested path. -/
def Covered (start : CStr) (log : List CStr) (dir : CStr) : Prop :=
  dir ∈ log ∨ AtOrAbove dir start

/-- Each reported path comes after the directories it lies in, and so does what the buffer
stands for. -/
structure WalkInv (start sb : CStr) (log : List CStr) : Prop where
  relative : sb[0]? ≠ some slash
  founded : Founded Holds (AtOrAbove · start) log
  covered : ∀ dir, AtOrAbove dir sb → Covered start log dir

/-- Going down by names keeps the invariant, one name after the other. -/
theorem WalkInv.down {above below : List CStr} {log : List CStr} (hd : AreNames (above ++ below))
    (h : WalkInv start (joinNames above) log) :
    WalkInv start (joinNames (above ++ below))
      (log ++ below.inits.tail.map fun q => joinNames (above ++ q)) := by
  induction below generalizing above log with
  | nil => simpa using h
  | cons k below ih =>
    have hassoc : above ++ k :: below = above ++ [k] ++ below := by simp
    have hnext : AreNames (above ++ [k]) := by
      intro q hq
      apply hd
      rw [hassoc]
      exact List.mem_append_left _ hq
    have hstep : WalkInv start (joinNames (above ++ [k])) (log ++ [joinNames (above ++ [k])]) := by
      refine ⟨joinNames_relative hnext, founded_concat.mpr ⟨h.founded, ?_⟩, ?_⟩
      · exact fun dir hdir => h.covered dir (holds_concat hnext hdir)
      · intro dir hdir
        obtain rfl | hdir := (atOrAbove_concat hnext).mp hdir
        · exact .inl (by simp)
        · exact (h.covered dir hdir).imp_left fun hmem => List.mem_append_left _ hmem
    have hrest := ih (hassoc ▸ hd) hstep
    have htail : below.inits = [] :: below.inits.tail := by cases below <;> rfl
    rw [hassoc, List.inits_cons, List.tail_cons, htail]
    simpa [List.map_map, Function.comp_def] using hrest

/-- The block under `introduce_dirs` makes the directory of the next path covered. -/
theorem moveTo_keeps (wcPath : CStr) {path sb : CStr} {reported : Reported}
    (hpath : relpathIsCanonical path = true)
    (h : WalkInv start sb (reported.map GitStatusEventArgs.path)) :
    ∃ sb' introduced, (moveTo wcPath path sb).run reported = (.ok sb', reported ++ introduced) ∧
      WalkInv start (svnRelpathDirname path)
        ((reported ++ introduced).map GitStatusEventArgs.path) ∧
      (sb' = path ∨ sb' = svnRelpathDirname path) := by
  have hp := areNames_pathNames path
  have hjoin : joinNames (pathNames path) = path := (relpathIsCanonical_iff _).mp hpath
  have hdir : svnRelpathDirname path = joinNames (pathNames path).dropLast := by
    rw [← svnRelpathDirname_joinNames hp, hjoin]
  by_cases hsame : svnRelpathDirname path = sb
  · refine ⟨path, [], ?_, ?_, .inl rfl⟩
    · rw [moveTo]
      simp [hsame]
    · rw [hsame, List.append_nil]
      exact h
  · obtain ⟨above, hpop, ⟨below, hbelow⟩, hcover⟩ :=
      popUnrelated_relative h.relative hp.dropLast (Nat.lt_succ_self sb.length)
    have hnames : AreNames (above ++ below) := hbelow ▸ hp.dropLast
    have habove : AreNames above := fun k hk => hnames k (List.mem_append_left _ hk)
    have hlen := length_le_joinNames hnames
    rw [List.length_append] at hlen
    have hinv : WalkInv start (joinNames above) (reported.map GitStatusEventArgs.path) :=
      ⟨joinNames_relative habove, h.founded, fun dir hd => h.covered dir (hcover dir hd)⟩
    refine ⟨joinNames (above ++ below),
      below.inits.tail.map fun q => ⟨joinNames (above ++ q), wcPath, true⟩, ?_, ?_, .inr ?_⟩
    · rw [moveTo, if_pos hsame, hdir, hpop, ← hbelow]
      apply (Action.run_bind_ok rfl _).trans
      rw [introduceDirs_joinNames wcPath hnames (by omega)]
    · rw [hdir, ← hbelow, List.map_append, List.map_map]
      exact hinv.down hnames
    · rw [hdir, ← hbelow]

/-- A report after the directories it lies in keeps the invariant. -/
theorem WalkInv.report {path sb : CStr} {log : List CStr} (hpath : relpathIsCanonical path = true)
    (h : WalkInv start (svnRelpathDirname path) log)
    (hsb : sb = path ∨ sb = svnRelpathDirname path) : WalkInv start sb (log ++ [path]) := by
  have hmore : ∀ dir, Covered start log dir → Covered start (log ++ [path]) dir := fun _ hdir =>
    hdir.imp_left fun hmem => List.mem_append_left _ hmem
  have hfounded : Founded Holds (AtOrAbove · start) (log ++ [path]) := by
    refine founded_concat.mpr ⟨h.founded, fun dir hdir => ?_⟩
    exact h.covered dir ((atOrAbove_dirname hpath hdir.1).resolve_left hdir.2)
  obtain rfl | rfl := hsb
  · refine ⟨?_, hfounded, fun dir hdir => ?_⟩
    · rw [← (relpathIsCanonical_iff _).mp hpath]
      exact joinNames_relative (areNames_pathNames sb)
    · obtain rfl | hdir := atOrAbove_dirname hpath hdir
      · exact .inl (by simp)
      · exact hmore dir (h.covered dir hdir)
  · exact ⟨h.relative, hfounded, fun dir hdir => hmore dir (h.covered dir hdir)⟩

/-- One turn of the loop keeps the invariant and reports its entry. -/
theorem statusTurn_keeps (wcPath : CStr) {entry : StatusEntry} {sb : CStr} {reported : Reported}
    (hentry : relpathIsCanonical entry.path = true)
    (h : WalkInv start sb (reported.map GitStatusEventArgs.path)) :
    ∃ sb' more, (statusTurn wcPath true entry sb).run reported = (.ok sb', reported ++ more) ∧
      WalkInv start sb' ((reported ++ more).map GitStatusEventArgs.path) ∧
      entry.path ∈ more.map GitStatusEventArgs.path := by
  obtain ⟨sb', introduced, hmove, hinv, hsb⟩ := moveTo_keeps wcPath hentry h
  refine ⟨sb', introduced ++ [⟨entry.path, wcPath, entry.isDir⟩], ?_, ?_, by simp⟩
  · rw [statusTurn, if_pos rfl]
    apply (Action.run_bind_ok hmove _).trans
    rw [← List.append_assoc]
    rfl
  · rw [← List.append_assoc, List.map_append]
    exact hinv.report hentry hsb

/-- The loop reports every entry and keeps the invariant. -/
theorem statusLoop_keeps (wcPath : CStr) (collapse : Bool) {entries : List StatusEntry} {sb : CStr}
    {reported : Reported} (hcanonical : ∀ e ∈ entries, relpathIsCanonical e.path = true)
    (h : WalkInv start sb (reported.map GitStatusEventArgs.path)) :
    ∃ more, (statusLoop wcPath true collapse entries sb).run reported =
        (.ok (), reported ++ more) ∧
      Founded Holds (AtOrAbove · start) ((reported ++ more).map GitStatusEventArgs.path) ∧
      ∀ e ∈ entries, e.path ∈ more.map GitStatusEventArgs.path := by
  induction hn : entries.length using Nat.strongRecOn generalizing entries sb reported with
  | ind n ih =>
    cases entries with
    | nil => exact ⟨[], by simp [statusLoop], by simpa using h.founded, by simp⟩
    | cons entry entries =>
      obtain ⟨hentry, hrest⟩ := List.forall_mem_cons.mp hcanonical
      obtain ⟨sb', more, hturn, hinv, hmem⟩ := statusTurn_keeps wcPath hentry h
      cases entries with
      | nil =>
        refine ⟨more, ?_, hinv.founded, by simpa using hmem⟩
        rw [statusLoop]
        exact Action.run_bind_ok hturn _
      | cons next entries =>
        obtain ⟨_, hlast⟩ := List.forall_mem_cons.mp hrest
        rw [statusLoop]
        by_cases hskip : collapse = true ∧ entry.path = next.path
        · -- the next entry has been reported with this one
          obtain ⟨rest, hrun, hfounded, hall⟩ :=
            ih entries.length (by simp at hn; omega) hlast hinv rfl
          rw [List.append_assoc] at hrun hfounded
          refine ⟨more ++ rest, ?_, hfounded, ?_⟩
          · apply (Action.run_bind_ok hturn _).trans
            rw [if_pos hskip]
            exact hrun
          · simp only [List.forall_mem_cons, List.map_append, List.mem_append]
            exact ⟨.inl hmem, .inl (hskip.2 ▸ hmem), fun e he => .inr (hall e he)⟩
        · obtain ⟨rest, hrun, hfounded, hall⟩ :=
            ih (next :: entries).length (by simp at hn ⊢; omega) hrest hinv rfl
          rw [List.append_assoc] at hrun hfounded
          refine ⟨more ++ rest, ?_, hfounded, ?_⟩
          · apply (Action.run_bind_ok hturn _).trans
            rw [if_neg hskip]
            exact hrun
          · rw [List.forall_mem_cons, List.map_append]
            exact ⟨List.mem_append_left _ hmem, fun e he => List.mem_append_right _ (hall e he)⟩

/-- With a rooted buffer the first turn does not end. -/
theorem statusLoop_rooted (wcPath : CStr) (collapse : Bool) {entries : List StatusEntry} {sb : CStr}
    {reported : Reported} (hcanonical : ∀ e ∈ entries, relpathIsCanonical e.path = true)
    (hne : entries ≠ []) (hs : sb[0]? = some slash) :
    (statusLoop wcPath true collapse entries sb).run reported = (.error .diverges, reported) := by
  have hturn : ∀ entry ∈ entries,
      (statusTurn wcPath true entry sb).run reported = (.error .diverges, reported) := by
    intro entry hentry
    have hdir : (svnRelpathDirname entry.path)[0]? ≠ some slash := by
      have hp := areNames_pathNames entry.path
      have hjoin := (relpathIsCanonical_iff _).mp (hcanonical entry hentry)
      rw [← hjoin, svnRelpathDirname_joinNames hp]
      exact joinNames_relative hp.dropLast
    have hdiffer : svnRelpathDirname entry.path ≠ sb := fun h => hdir (h ▸ hs)
    have hmove : (moveTo wcPath entry.path sb).run reported = (.error .diverges, reported) := by
      rw [moveTo, if_pos hdiffer, popUnrelated_rooted hdir _ hs]
      rfl
    rw [statusTurn, if_pos rfl]
    exact Action.run_bind_error hmove _
  cases entries with
  | nil => exact absurd rfl hne
  | cons entry entries =>
    have hfirst := hturn entry List.mem_cons_self
    cases entries with
    | nil =>
      rw [statusLoop]
      exact Action.run_bind_error hfirst _
    | cons next entries =>
      rw [statusLoop]
      exact Action.run_bind_error hfirst _

end Walk

theorem requestedParent_head (path : NetString) :
    (requestedParent path)[0]? = some slash ↔ (allocDirent path)[0]? = some slash := by
  unfold requestedParent
  split_ifs with hpath
  · rfl
  · by_cases hs : (allocDirent path)[0]? = some slash
    · exact iff_of_true (pathRemoveComponent_rooted hs) hs
    · apply iff_of_false _ hs
      rw [pathRemoveComponent_relative hs]
      exact dirPart_relative hs

theorem reportRoot_run (wcPath : CStr) (path : NetString) (given : CStr → Prop) :
    ∃ first : Reported, (reportRoot wcPath true path).run [] = (.ok (), first) ∧
      Founded Holds given (first.map GitStatusEventArgs.path) := by
  by_cases hempty : path = []
  · refine ⟨[⟨[], wcPath, true⟩], by simp [reportRoot, onStatus, hempty], ?_⟩
    apply founded_concat.mpr ⟨founded_nil, ?_⟩
    exact fun dir hdir => absurd hdir.1 (not_atOrAbove_nil dir)
  · exact ⟨[], by simp [reportRoot, hempty], founded_nil⟩

/-- With directories introduced, the run over a list of relpaths ends, reports every entry, and
reports nothing before the directories it lies in, apart from those at or above the parent of the
requested path, exactly where the list is empty or the requested path has no '/' in front. -/
theorem status_covers_iff (native : NativeRepository) {entries : List StatusEntry}
    (path : NetString) (args : GitStatusArgs)
    (hdirs : (args.generateVersionedDirs && args.includeUnmodified) = true)
    (hcanonical : ∀ e ∈ entries, relpathIsCanonical e.path = true) :
    (∃ reported, (status native entries path args).run [] = (.ok true, reported) ∧
        (∀ e ∈ entries, e.path ∈ reported.map GitStatusEventArgs.path) ∧
        Founded Holds (AtOrAbove · (requestedParent path))
          (reported.map GitStatusEventArgs.path)) ↔
      entries = [] ∨ (allocDirent path)[0]? ≠ some slash := by
  obtain ⟨first, hroot, hfirst⟩ := reportRoot_run (svnDirentInternalStyle native.workdir) path
    (AtOrAbove · (requestedParent path))
  by_cases hempty : entries = []
  · subst hempty
    refine iff_of_true ⟨first, ?_, by simp, hfirst⟩ (.inl rfl)
    rw [status, hdirs]
    exact Action.run_bind_ok hroot _
  rw [or_iff_right hempty]
  by_cases hs : (allocDirent path)[0]? = some slash
  · apply iff_of_false
    · intro hcovers
      obtain ⟨reported, hrun, -⟩ := hcovers
      have hloop := @statusLoop_rooted (svnDirentInternalStyle native.workdir)
        args.collapseReplacements entries _ first hcanonical hempty
        ((requestedParent_head path).mpr hs)
      have hends : (status native entries path args).run [] = (.error .diverges, first) := by
        rw [status, hdirs]
        apply (Action.run_bind_ok hroot _).trans
        exact Action.run_bind_error hloop _
      rw [hends] at hrun
      exact absurd (congrArg Prod.fst hrun) (by simp)
    · exact fun h => h hs
  · have hinv : WalkInv (requestedParent path) (requestedParent path)
        (first.map GitStatusEventArgs.path) :=
      ⟨mt (requestedParent_head path).mp hs, hfirst, fun _ h => .inr h⟩
    obtain ⟨more, hloop, hfounded, hall⟩ := statusLoop_keeps
      (svnDirentInternalStyle native.workdir) args.collapseReplacements hcanonical hinv
    refine iff_of_true ⟨first ++ more, ?_, ?_, hfounded⟩ hs
    · rw [status, hdirs]
      apply (Action.run_bind_ok hroot _).trans
      exact Action.run_bind_ok hloop _
    · intro e he
      rw [List.map_append]
      exact List.mem_append_right _ (hall e he)

/-- The path "/a" and the entry a/b: the buffer "/" is never left, at any length of the run. -/
theorem status_rooted_diverges :
    ((status ⟨[], [], false⟩ [workdirEntry [0x61, 0x2f, 0x62]] [0x2f, 0x61] allDirs).run []).1 =
        .error .diverges ∧
      ∀ fuel, popUnrelated (svnRelpathDirname [0x61, 0x2f, 0x62]) fuel
        (requestedParent [0x2f, 0x61]) = .error .diverges := by
  constructor
  · decide
  · intro fuel
    exact popUnrelated_rooted (by decide) fuel (by decide)

/-- The entries d/a/b and d/a of the requested path d/x: the directory d is given with the path,
d/a comes before what lies in it. -/
theorem status_covers_given :
    ∃ reported, (status ⟨[], [], false⟩ [workdirEntry [0x64, 0x2f, 0x61, 0x2f, 0x62],
        workdirEntry [0x64, 0x2f, 0x61]] [0x64, 0x2f, 0x78] allDirs).run [] = (.ok true, reported) ∧
      (∀ e ∈ [workdirEntry [0x64, 0x2f, 0x61, 0x2f, 0x62], workdirEntry [0x64, 0x2f, 0x61]],
        e.path ∈ reported.map GitStatusEventArgs.path) ∧
      Founded Holds (AtOrAbove · (requestedParent [0x64, 0x2f, 0x78]))
        (reported.map GitStatusEventArgs.path) :=
  (status_covers_iff ⟨[], [], false⟩ [0x64, 0x2f, 0x78] allDirs (by decide) (by decide)).mpr
    (.inr (by decide))

end SharpGit.GitClient
