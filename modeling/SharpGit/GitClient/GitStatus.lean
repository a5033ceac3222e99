import SharpGit.GitClient.GitStatusEventArgs
import SharpGit.Library.DirectoryWalk
import SharpGit.Svn.Path

namespace SharpGit.GitClient

open Library Native Svn Implementation Plumbing

/-- An entry of the list: the old paths of its two deltas, of which one exists. -/
structure StatusEntry where
  headToIndex : Option CStr
  indexToWorkdir : Option CStr
  hasDelta : headToIndex.isSome ∨ indexToWorkdir.isSome

namespace StatusEntry

def rawPath (entry : StatusEntry) : CStr :=
  entry.headToIndex.getD (entry.indexToWorkdir.getD [])

def isDir (entry : StatusEntry) : Bool := entry.rawPath.getLast? = some slash

/-- `get_entry`: the path, less the '/' at the end of a directory. -/
def path (entry : StatusEntry) : CStr :=
  if entry.isDir then entry.rawPath.dropLast else entry.rawPath

end StatusEntry

/-- What the handlers of the caller have been called with, in order. -/
abbrev Reported := List GitStatusEventArgs

def onStatus (directory : Bool) (path wcPath : CStr) : Action Reported Failure Unit :=
  Action.modify fun reported => reported ++ [⟨path, wcPath, directory⟩]

/-- `add_one_component`: the next name of `dir` is appended. -/
def addOneComponent (sb dir : CStr) : Except Failure CStr :=
  match svnRelpathSkipAncestor sb dir with
  | none => .error .accessViolation
  | some p =>
    let sb := if sb = [] then sb else sb ++ [slash]
    -- up to the first '/' behind the first character, or all of it
    .ok (sb ++ (p.take 1 ++ (p.drop 1).takeWhile (· ≠ slash)))

/-- The loop that leaves directories until `dir` is below what is left. -/
def popUnrelated (dir : CStr) : Nat → CStr → Except Failure CStr
  | 0, _ => .error .diverges
  | fuel + 1, sb =>
    if sb ≠ [] ∧ (svnRelpathSkipAncestor sb dir).isNone then
      popUnrelated dir fuel (pathRemoveComponent sb)
    else .ok sb

/-- The loop that goes down to `dir` and reports the directories on the way. -/
def introduceDirs (wcPath dir : CStr) : Nat → CStr → Action Reported Failure CStr
  | 0, _ => Action.raise .diverges
  | fuel + 1, sb =>
    if dir = [] then return sb
    else
      match svnRelpathSkipAncestor sb dir with
      | none => Action.raise .accessViolation
      | some [] => return sb
      | some (_ :: _) => do
        let sb ← Action.ofExcept (addOneComponent sb dir)
        onStatus true sb wcPath
        introduceDirs wcPath dir fuel sb

/-- The block under `introduce_dirs`, with the new contents of `sb`. -/
def moveTo (wcPath entryPath sb : CStr) : Action Reported Failure CStr := do
  let dir := svnRelpathDirname entryPath
  if dir ≠ sb then
    let sb ← Action.ofExcept (popUnrelated dir (sb.length + 1) sb)
    introduceDirs wcPath dir (dir.length + 1) sb
  else return entryPath

def statusTurn (wcPath : CStr) (introduce : Bool) (entry : StatusEntry) (sb : CStr) :
    Action Reported Failure CStr := do
  let sb ← if introduce then moveTo wcPath entry.path sb else return sb
  onStatus entry.isDir entry.path wcPath
  return sb

/-- The loop over the list; with `collapseReplacements` an entry with the path of the one
before it is skipped. -/
def statusLoop (wcPath : CStr) (introduce collapseReplacements : Bool) :
    List StatusEntry → CStr → Action Reported Failure Unit
  | [], _ => return ()
  | [entry], sb => do
    let _ ← statusTurn wcPath introduce entry sb
    return ()
  | entry :: next :: entries, sb => do
    let sb ← statusTurn wcPath introduce entry sb
    if collapseReplacements ∧ entry.path = next.path then
      statusLoop wcPath introduce collapseReplacements entries sb
    else statusLoop wcPath introduce collapseReplacements (next :: entries) sb

/-- The flags of `GitStatusArgs` that the walk reads. -/
structure GitStatusArgs where
  generateVersionedDirs : Bool
  includeUnmodified : Bool
  collapseReplacements : Bool

/-- The root is reported before the list is looked at. -/
def reportRoot (wcPath : CStr) (introduce : Bool) (path : NetString) :
    Action Reported Failure Unit :=
  if introduce ∧ path = [] then onStatus true [] wcPath else return ()

/-- `GitRepository::Status` over the list that `git_status_list_new` gives. -/
def status (native : NativeRepository) (entries : List StatusEntry) (path : NetString)
    (args : GitStatusArgs) : Action Reported Failure Bool := do
  let wcPath := svnDirentInternalStyle native.workdir
  let introduce := args.generateVersionedDirs && args.includeUnmodified
  reportRoot wcPath introduce path
  let sb := if path = [] then allocDirent path else pathRemoveComponent (allocDirent path)
  statusLoop wcPath introduce args.collapseReplacements entries sb
  return true

section Walk

variable (wcPath : CStr)

theorem length_le_joinNames {ks : List CStr} (hk : AreNames ks) :
    ks.length ≤ (joinNames ks).length := by
  induction ks with
  | nil => simp
  | cons k ks ih =>
    have hne : k ≠ [] := (keepName_iff.mp (hk k List.mem_cons_self).1).1
    have hpos := List.length_pos_iff.mpr hne
    have ih := ih fun k' hk' => hk k' (List.mem_cons_of_mem k hk')
    cases ks with
    | nil =>
      rw [joinNames_singleton]
      exact hpos
    | cons k' ks =>
      rw [joinNames_cons (by simp), List.length_append]
      simp only [List.length_cons] at ih ⊢
      omega

/-- The first loop ends at the last directory above both. -/
theorem popUnrelated_joinNames {cursor dir : List CStr} (hc : AreNames cursor)
    (hd : AreNames dir) {fuel : Nat} (hfuel : cursor.length < fuel) :
    ∃ common, popUnrelated (joinNames dir) fuel (joinNames cursor) = .ok (joinNames common) ∧
      common <+: cursor ∧ common <+: dir ∧
      ∀ q, q <+: cursor → q <+: dir → q <+: common := by
  induction fuel generalizing cursor with
  | zero => exact absurd hfuel (Nat.not_lt_zero _)
  | succ fuel ih =>
    rw [popUnrelated, svnRelpathSkipAncestor_joinNames hc hd]
    by_cases hpre : cursor <+: dir
    · refine ⟨cursor, ?_, List.prefix_rfl, hpre, fun q hq _ => hq⟩
      rw [if_neg (by simp [hpre])]
    · have hne : cursor ≠ [] := by
        intro heq
        subst heq
        exact hpre List.nil_prefix
      have hpos := List.length_pos_iff.mpr hne
      have hjoin : joinNames cursor ≠ [] := fun h => hne ((joinNames_eq_nil hc).mp h)
      rw [if_pos ⟨hjoin, by simp [hpre]⟩, pathRemoveComponent_joinNames hc]
      obtain ⟨common, hrun, hcursor, hdir, hall⟩ := ih hc.dropLast (by
        rw [List.length_dropLast]
        omega)
      refine ⟨common, hrun, hcursor.trans (List.dropLast_prefix cursor), hdir, ?_⟩
      intro q hq hqd
      refine hall q ((prefix_dropLast_iff hne).mpr ⟨hq, ?_⟩) hqd
      intro heq
      subst heq
      exact hpre hqd

theorem skipAncestor_append {above below : List CStr} (hd : AreNames (above ++ below)) :
    svnRelpathSkipAncestor (joinNames above) (joinNames (above ++ below)) =
      some (joinNames below) := by
  rw [svnRelpathSkipAncestor_joinNames (fun q hq => hd q (List.mem_append_left _ hq)) hd,
    if_pos (List.prefix_append above below), List.drop_left]

theorem firstComponent_joinNames {k : CStr} (hne : k ≠ []) (hslash : slash ∉ k)
    (below : List CStr) :
    (joinNames (k :: below)).take 1 ++ ((joinNames (k :: below)).drop 1).takeWhile (· ≠ slash) =
      k := by
  obtain ⟨rest, hrest, hsep⟩ : ∃ rest, joinNames (k :: below) = k ++ rest ∧
      rest.takeWhile (· ≠ slash) = [] := by
    cases below with
    | nil => exact ⟨[], by simp, rfl⟩
    | cons k' below => exact ⟨_, joinNames_cons (by simp), by simp⟩
  cases k with
  | nil => exact absurd rfl hne
  | cons c k =>
    have hk : ∀ b ∈ k, decide (b ≠ slash) = true := by
      intro b hb
      rw [decide_eq_true_eq]
      intro heq
      subst heq
      exact hslash (List.mem_cons_of_mem c hb)
    rw [hrest, List.cons_append, List.take_succ_cons, List.take_zero, List.drop_succ_cons,
      List.drop_zero, List.takeWhile_append_of_pos hk, hsep, List.append_nil]
    rfl

theorem addOneComponent_joinNames {above : List CStr} {k : CStr} {below : List CStr}
    (hd : AreNames (above ++ k :: below)) :
    addOneComponent (joinNames above) (joinNames (above ++ k :: below)) =
      .ok (joinNames (above ++ [k])) := by
  have habove : AreNames above := fun q hq => hd q (List.mem_append_left _ hq)
  obtain ⟨hkeep, hslash⟩ := hd k (by simp)
  rw [addOneComponent, skipAncestor_append hd]
  dsimp only
  rw [firstComponent_joinNames (keepName_iff.mp hkeep).1 hslash]
  by_cases hne : above = []
  · simp [hne]
  · rw [if_neg fun h => hne ((joinNames_eq_nil habove).mp h), joinNames_append_singleton hne,
      List.append_assoc, List.singleton_append]

/-- The second loop reports the directories below `above` one by one. -/
theorem introduceDirs_joinNames {above below : List CStr} (hd : AreNames (above ++ below))
    {fuel : Nat} (hfuel : below.length < fuel) (reported : Reported) :
    (introduceDirs wcPath (joinNames (above ++ below)) fuel (joinNames above)).run reported =
      (.ok (joinNames (above ++ below)), reported ++
        below.inits.tail.map fun q => ⟨joinNames (above ++ q), wcPath, true⟩) := by
  induction below generalizing above fuel reported with
  | nil =>
    obtain ⟨fuel, rfl⟩ : ∃ n, fuel = n + 1 := ⟨fuel - 1, by simp at hfuel; omega⟩
    have hskip := skipAncestor_append hd
    rw [List.append_nil] at hskip ⊢
    rw [introduceDirs, hskip]
    by_cases hroot : joinNames above = [] <;> simp [hroot]
  | cons k below ih =>
    obtain ⟨fuel, rfl⟩ : ∃ n, fuel = n + 1 := ⟨fuel - 1, by simp at hfuel; omega⟩
    have hassoc : above ++ k :: below = above ++ [k] ++ below := by simp
    have hbelow : AreNames (k :: below) := fun q hq => hd q (List.mem_append_right _ hq)
    have hroot : joinNames (above ++ k :: below) ≠ [] := by
      rw [Ne, joinNames_eq_nil hd]
      simp
    obtain ⟨c, rest, hrest⟩ : ∃ c rest, joinNames (k :: below) = c :: rest := by
      apply List.exists_cons_of_ne_nil
      rw [Ne, joinNames_eq_nil hbelow]
      simp
    have hstep := ih (hassoc ▸ hd) (by simp at hfuel; omega)
      (reported ++ [⟨joinNames (above ++ [k]), wcPath, true⟩])
    rw [← hassoc] at hstep
    rw [introduceDirs, if_neg hroot, skipAncestor_append hd, hrest]
    dsimp only
    rw [addOneComponent_joinNames hd]
    apply (Action.run_bind_ok rfl _).trans
    apply (Action.run_bind_ok rfl _).trans
    rw [hstep]
    refine Prod.ext rfl ?_
    have htail : below.inits = [] :: below.inits.tail := by cases below <;> rfl
    rw [List.inits_cons, List.tail_cons, htail]
    simp [List.map_map, Function.comp_def]

/-- The block under `introduce_dirs` does what the walk does for one path. -/
theorem moveTo_joinNames {cursor path : List CStr} (hc : AreNames cursor) (hp : AreNames path)
    (reported : Reported) :
    (moveTo wcPath (joinNames path) (joinNames cursor)).run reported =
      (.ok (joinNames (cursorNext cursor path)), reported ++
        (introduced cursor path).map fun q => ⟨joinNames q, wcPath, true⟩) := by
  rw [moveTo, svnRelpathDirname_joinNames hp]
  by_cases hsame : path.dropLast = cursor
  · have hnone : introduced cursor path = [] := by
      rw [List.eq_nil_iff_forall_not_mem]
      intro q hq
      obtain ⟨hin, hnot⟩ := mem_introduced.mp hq
      exact hnot (hsame ▸ hin)
    rw [cursorNext, if_pos hsame, hnone]
    simp [hsame]
  · have hdir : joinNames path.dropLast ≠ joinNames cursor :=
      fun h => hsame (joinNames_injective hp.dropLast hc h)
    have hfuel := Nat.lt_succ_of_le (length_le_joinNames hc)
    obtain ⟨above, hpop, hcursor, ⟨below, hbelow⟩, hall⟩ :=
      popUnrelated_joinNames hc hp.dropLast hfuel
    have hnames : AreNames (above ++ below) := hbelow ▸ hp.dropLast
    have hlen := length_le_joinNames hnames
    rw [List.length_append] at hlen
    rw [cursorNext, if_neg hsame, introduced_eq hbelow.symm hcursor hall]
    rw [if_pos hdir, hpop, ← hbelow]
    apply (Action.run_bind_ok rfl _).trans
    rw [introduceDirs_joinNames wcPath hnames (by omega), List.map_map]
    rfl

/-- The names of the path that an entry is reported with. -/
def StatusEntry.names (entry : StatusEntry) : List CStr := pathNames entry.path

/-- One turn reports the directories that the walk introduces, then the entry. -/
theorem statusTurn_joinNames {cursor : List CStr} (hc : AreNames cursor) {entry : StatusEntry}
    (hentry : relpathIsCanonical entry.path = true) (reported : Reported) :
    (statusTurn wcPath true entry (joinNames cursor)).run reported =
      (.ok (joinNames (cursorNext cursor entry.names)), reported ++
        (introduced cursor entry.names).map (fun q => ⟨joinNames q, wcPath, true⟩) ++
        [⟨entry.path, wcPath, entry.isDir⟩]) := by
  have hpath : joinNames entry.names = entry.path := (relpathIsCanonical_iff _).mp hentry
  have hmove := moveTo_joinNames wcPath hc (areNames_pathNames entry.path) reported
  rw [← StatusEntry.names, hpath] at hmove
  rw [statusTurn, if_pos rfl]
  apply (Action.run_bind_ok hmove _).trans
  rfl

/-- The loop over entries none of which repeats the one before it is the walk over their
names. -/
theorem statusLoop_walk (collapse : Bool) {entries : List StatusEntry} {cursor : List CStr}
    (hc : AreNames cursor) (hcanonical : ∀ e ∈ entries, relpathIsCanonical e.path = true)
    (hdistinct : entries.IsChain fun e f => e.path ≠ f.path) (reported : Reported) :
    ∃ after, (statusLoop wcPath true collapse entries (joinNames cursor)).run reported =
        (.ok (), after) ∧
      after.map GitStatusEventArgs.path = reported.map GitStatusEventArgs.path ++
        (directoryWalk cursor (entries.map StatusEntry.names)).map joinNames := by
  induction entries generalizing cursor reported with
  | nil => exact ⟨reported, rfl, by simp [directoryWalk]⟩
  | cons entry entries ih =>
    have hentry := hcanonical entry List.mem_cons_self
    have hturn := statusTurn_joinNames wcPath hc hentry reported
    have hpath : joinNames entry.names = entry.path := (relpathIsCanonical_iff _).mp hentry
    have hnext : AreNames (cursorNext cursor entry.names) := by
      intro k hk
      exact areNames_pathNames entry.path k ((cursorNext_above_path _ _).subset hk)
    obtain ⟨after, hloop, hafter⟩ := ih hnext
      (fun e he => hcanonical e (List.mem_cons_of_mem _ he)) hdistinct.of_cons
      (reported ++ (introduced cursor entry.names).map (fun q => ⟨joinNames q, wcPath, true⟩) ++
        [⟨entry.path, wcPath, entry.isDir⟩])
    refine ⟨after, ?_, ?_⟩
    · cases entries with
      | nil =>
        obtain ⟨-, rfl⟩ := Prod.mk.inj hloop
        rw [statusLoop]
        exact Action.run_bind_ok hturn _
      | cons next entries =>
        have hne := (List.isChain_cons_cons.mp hdistinct).1
        rw [statusLoop]
        apply (Action.run_bind_ok hturn _).trans
        rw [if_neg fun h => hne h.2]
        exact hloop
    · rw [hafter, List.map_cons, directoryWalk]
      simp [hpath, Function.comp_def]

end Walk

/-- The start of the walk: the parent of the requested path. -/
def startNames (path : NetString) : List CStr := (pathNames (allocDirent path)).dropLast

theorem status_walk (native : NativeRepository) {entries : List StatusEntry} {path : NetString}
    (args : GitStatusArgs) (hdirs : (args.generateVersionedDirs && args.includeUnmodified) = true)
    (hpath : relpathIsCanonical (allocDirent path) = true)
    (hcanonical : ∀ e ∈ entries, relpathIsCanonical e.path = true)
    (hdistinct : entries.IsChain fun e f => e.path ≠ f.path) :
    ∃ reported, (status native entries path args).run [] = (.ok true, reported) ∧
      reported.map GitStatusEventArgs.path = (if path = [] then [[]] else []) ++
        (directoryWalk (startNames path) (entries.map StatusEntry.names)).map joinNames := by
  have hstart : AreNames (startNames path) := (areNames_pathNames _).dropLast
  have hsb : (if path = [] then allocDirent path else pathRemoveComponent (allocDirent path)) =
      joinNames (startNames path) := by
    split_ifs with hempty
    · subst hempty
      rfl
    · rw [startNames, ← pathRemoveComponent_joinNames (areNames_pathNames _),
        (relpathIsCanonical_iff _).mp hpath]
  have hroot : (reportRoot (svnDirentInternalStyle native.workdir) true path).run [] =
      (.ok (), if path = [] then [⟨[], svnDirentInternalStyle native.workdir, true⟩] else []) := by
    by_cases hempty : path = [] <;> simp [reportRoot, onStatus, hempty]
  obtain ⟨after, hloop, hafter⟩ := statusLoop_walk (svnDirentInternalStyle native.workdir)
    args.collapseReplacements hstart hcanonical hdistinct
    (if path = [] then [⟨[], svnDirentInternalStyle native.workdir, true⟩] else [])
  refine ⟨after, ?_, ?_⟩
  · rw [status, hdirs]
    apply (Action.run_bind_ok hroot _).trans
    rw [hsb]
    exact Action.run_bind_ok hloop _
  · rw [hafter]
    split_ifs <;> rfl

section Order

variable {e f g : StatusEntry}

theorem StatusEntry.names_ne_nil (he : relpathIsCanonical e.path = true) (hne : e.path ≠ []) :
    e.names ≠ [] := by
  intro h
  apply hne
  rw [← (relpathIsCanonical_iff _).mp he]
  exact (joinNames_eq_nil (areNames_pathNames _)).mpr h

/-- Lying in a directory, in names and in bytes. -/
theorem StatusEntry.inside_iff (he : relpathIsCanonical e.path = true) (hne : e.path ≠ [])
    {dir : List CStr} (hdir : AreNames dir) (hd : dir ≠ []) :
    dir <+: e.names.dropLast ↔ joinNames dir ++ [slash] <+: e.path := by
  have h := joinNames_below_iff hdir (areNames_pathNames e.path) hd
  rw [(relpathIsCanonical_iff _).mp he] at h
  rw [prefix_dropLast_iff (StatusEntry.names_ne_nil he hne)]
  exact h.symm

theorem not_above_of_lt (he : relpathIsCanonical e.path = true) (hne : e.path ≠ [])
    (hf : relpathIsCanonical f.path = true) (hnf : f.path ≠ [])
    (hlt : strcmp e.path f.path < 0) : ¬f.names <+: e.names := by
  intro hpre
  have hjoin : joinNames f.names = f.path := (relpathIsCanonical_iff _).mp hf
  by_cases hsame : f.names = e.names
  · have hpath : f.path = e.path := by
      rw [← hjoin, hsame]
      exact (relpathIsCanonical_iff _).mp he
    rw [hpath, strcmp_self] at hlt
    exact absurd hlt (by decide)
  · have hin := (prefix_dropLast_iff (StatusEntry.names_ne_nil he hne)).mpr ⟨hpre, hsame⟩
    obtain ⟨rest, hrest⟩ := (StatusEntry.inside_iff he hne (areNames_pathNames f.path)
      (StatusEntry.names_ne_nil hf hnf)).mp hin
    change joinNames f.names ++ [slash] ++ rest = e.path at hrest
    rw [hjoin, List.append_assoc] at hrest
    have hback : strcmp f.path e.path < 0 := by
      rw [← hrest]
      exact strcmp_append_pos (by simp)
    have hself := strcmp_lt_trans hlt hback
    rw [strcmp_self] at hself
    exact absurd hself (by decide)

theorem inside_between (he : relpathIsCanonical e.path = true) (hne : e.path ≠ [])
    (hf : relpathIsCanonical f.path = true) (hnf : f.path ≠ [])
    (hg : relpathIsCanonical g.path = true) (hng : g.path ≠ [])
    (hef : strcmp e.path f.path < 0) (hfg : strcmp f.path g.path < 0) {dir : List CStr}
    (hdir : dir <+: e.names.dropLast) (hin : dir <+: g.names.dropLast) :
    dir <+: f.names.dropLast := by
  by_cases hd : dir = []
  · exact hd ▸ List.nil_prefix
  · have hnames : AreNames dir := fun k hk =>
      (areNames_pathNames e.path).dropLast k (hdir.subset hk)
    rw [StatusEntry.inside_iff he hne hnames hd] at hdir
    rw [StatusEntry.inside_iff hg hng hnames hd] at hin
    rw [StatusEntry.inside_iff hf hnf hnames hd]
    exact front_between hdir hin hef hfg

/-- Paths in byte order are grouped by their directories. -/
theorem grouped_of_sorted {entries : List StatusEntry}
    (hcanonical : ∀ e ∈ entries, relpathIsCanonical e.path = true)
    (hne : ∀ e ∈ entries, e.path ≠ [])
    (hsorted : entries.Pairwise fun e f => strcmp e.path f.path < 0) :
    Grouped (entries.map StatusEntry.names) := by
  induction entries with
  | nil => trivial
  | cons entry entries ih =>
    obtain ⟨hhead, htail⟩ := List.pairwise_cons.mp hsorted
    obtain ⟨hc, hcs⟩ := List.forall_mem_cons.mp hcanonical
    obtain ⟨hn, hns⟩ := List.forall_mem_cons.mp hne
    refine ⟨StatusEntry.names_ne_nil hc hn, ?_, ?_, ih hcs hns htail⟩
    · intro later hlater
      obtain ⟨f, hf, rfl⟩ := List.mem_map.mp hlater
      exact not_above_of_lt hc hn (hcs f hf) (hns f hf) (hhead f hf)
    · intro dir hdir
      apply List.pairwise_map.mpr
      apply htail.imp_of_mem
      intro f g hf hg hfg hin
      exact inside_between hc hn (hcs _ hf) (hns _ hf) (hcs _ hg) (hns _ hg) (hhead _ hf) hfg
        hdir hin

end Order

theorem areNames_of_mem_walk {cursor : List CStr} {entries : List StatusEntry} {q : List CStr}
    (h : q ∈ directoryWalk cursor (entries.map StatusEntry.names)) : AreNames q := by
  obtain h | ⟨path, hpath, hin⟩ := mem_directoryWalk h
  · obtain ⟨e, -, rfl⟩ := List.mem_map.mp h
    exact areNames_pathNames e.path
  · obtain ⟨e, -, rfl⟩ := List.mem_map.mp hpath
    exact fun k hk => (areNames_pathNames e.path).dropLast k (hin.subset hk)

/-- With directories introduced, a run over a list in byte order reports no path twice iff every
entry that has others below it is aligned and comes right before one of them. -/
theorem status_reports_once_iff (native : NativeRepository) {entries : List StatusEntry}
    {path : NetString} (args : GitStatusArgs)
    (hdirs : (args.generateVersionedDirs && args.includeUnmodified) = true)
    (hpath : relpathIsCanonical (allocDirent path) = true)
    (hcanonical : ∀ e ∈ entries, relpathIsCanonical e.path = true)
    (hne : ∀ e ∈ entries, e.path ≠ [])
    (hsorted : entries.Pairwise fun e f => strcmp e.path f.path < 0) :
    ∃ reported, (status native entries path args).run [] = (.ok true, reported) ∧
      ((reported.map GitStatusEventArgs.path).Nodup ↔
        Announces (startNames path) (entries.map StatusEntry.names)) := by
  have hdistinct : entries.IsChain fun e f => e.path ≠ f.path := by
    apply List.Pairwise.isChain
    exact hsorted.imp fun h heq => by simp [heq, strcmp_self] at h
  obtain ⟨reported, hrun, hreported⟩ :=
    status_walk native args hdirs hpath hcanonical hdistinct
  refine ⟨reported, hrun, ?_⟩
  have hgrouped := grouped_of_sorted hcanonical hne hsorted
  have hroot : [] ∉ directoryWalk (startNames path) (entries.map StatusEntry.names) := by
    apply not_mem_directoryWalk List.nil_prefix
    · exact List.pairwise_of_forall fun _ _ _ => List.nil_prefix
    · exact fun h => hgrouped.ne_nil [] h rfl
  rw [hreported, ← directoryWalk_nodup hgrouped]
  constructor
  · intro h
    exact ((List.nodup_append.mp h).2.1).of_map
  · intro h
    refine List.nodup_append.mpr ⟨by split_ifs <;> simp, ?_, ?_⟩
    · exact List.Nodup.map_on (fun q hq r hr heq =>
        joinNames_injective (areNames_of_mem_walk hq) (areNames_of_mem_walk hr) heq) h
    · intro first hfirst second hsecond heq
      obtain ⟨q, hq, rfl⟩ := List.mem_map.mp hsecond
      have hnil : first = [] := by
        split_ifs at hfirst
        · exact List.mem_singleton.mp hfirst
        · exact absurd hfirst List.not_mem_nil
      have hqnil := (joinNames_eq_nil (areNames_of_mem_walk hq)).mp (heq ▸ hnil)
      exact hroot (hqnil ▸ hq)

/-- An entry with a change in the work tree only. -/
def workdirEntry (path : CStr) : StatusEntry := ⟨none, some path, .inr rfl⟩

def allDirs : GitStatusArgs := ⟨true, true, false⟩

/-- The directory a, then the file a/b in it: each once. -/
theorem status_reports_once_directory :
    ∃ reported, (status ⟨[], [], false⟩ [workdirEntry [0x61, 0x2f],
        workdirEntry [0x61, 0x2f, 0x62]] [] allDirs).run [] = (.ok true, reported) ∧
      (reported.map GitStatusEventArgs.path).Nodup := by
  have hcanonical : ∀ e ∈ [workdirEntry [0x61, 0x2f], workdirEntry [0x61, 0x2f, 0x62]],
      relpathIsCanonical e.path = true := by decide
  have hne : ∀ e ∈ [workdirEntry [0x61, 0x2f], workdirEntry [0x61, 0x2f, 0x62]],
      e.path ≠ [] := by decide
  have hsorted : [workdirEntry [0x61, 0x2f], workdirEntry [0x61, 0x2f, 0x62]].Pairwise
      fun e f => strcmp e.path f.path < 0 := by decide
  obtain ⟨reported, hrun, hiff⟩ := status_reports_once_iff ⟨[], [], false⟩ allDirs (by decide)
    (by decide : relpathIsCanonical (allocDirent []) = true) hcanonical hne hsorted
  refine ⟨reported, hrun, hiff.mpr ?_⟩
  apply (directoryWalk_nodup (grouped_of_sorted hcanonical hne hsorted)).mp
  decide

/-- The file a/x and, below it, a/x/y: a/x is reported as an entry and as a directory. -/
theorem status_reports_twice :
    ¬(∀ entries : List StatusEntry, (∀ e ∈ entries, relpathIsCanonical e.path = true) →
      (∀ e ∈ entries, e.path ≠ []) →
      (entries.Pairwise fun e f => strcmp e.path f.path < 0) →
      (((status ⟨[], [], false⟩ entries [] allDirs).run []).2.map
        GitStatusEventArgs.path).Nodup) := by
  intro h
  have hnodup := h [workdirEntry [0x61, 0x2f, 0x78], workdirEntry [0x61, 0x2f, 0x78, 0x2f, 0x79]]
    (by decide) (by decide) (by decide)
  revert hnodup
  decide

end SharpGit.GitClient
