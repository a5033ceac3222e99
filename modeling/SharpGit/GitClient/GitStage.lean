import SharpGit.Plumbing.GitIndex

namespace SharpGit.GitClient

open Library Native Svn Implementation Plumbing

def assertNotBare (repo : GitRepository) : Except Failure Unit := do
  let repository ← repo.handle
  if repository.bare then .error .invalidOperation

/-- The loop that opens the repository of every path, in one and the same object. -/
def locateAll (fs : FileSystem) :
    GitRepository → List NetString → Except Failure (Bool × GitRepository)
  | repo, [] => .ok (true, repo)
  | repo, p :: paths => do
    let (located, repo) ← GitRepository.locate fs repo p
    if located then locateAll fs repo paths else return (false, repo)

/-- A result code other than 0 is thrown by `HandleGitError`. -/
def checked (result : Int × Index) : Except Failure Index :=
  if result.1 ≠ 0 then .error (.git result.1) else .ok result.2

def ioCheckPath (fs : FileSystem) (abspath : CStr) : Except Failure NodeKind :=
  match fs.checkPath abspath with
  | .error code => .error (.svn code)
  | .ok kind => .ok kind

/-- One turn of the walk: whether the path is done, the new `nIndex`, the index. -/
def stageTurn (api : IndexApi) (fs : FileSystem) (native : NativeRepository) (repoAbspath : CStr)
    (cPath : CStr) (nIndex : Nat) (index : Index) : Except Failure (Bool × Nat × Index) := do
  let abspath := svnDirentJoin repoAbspath cPath
  let kind ← ioCheckPath fs abspath
  match index[nIndex]? with
  | some entry =>
    let n := strcmp entry.path cPath
    if n = 0 then
      if kind ≠ .none then
        let index ← checked (api.addByPath fs native index cPath)
        return (true, nIndex + 1, index)
      else
        let index ← checked (api.remove index cPath entry.stage)
        return (true, nIndex, index)
    else if n < 0 then return (false, nIndex + 1, index)
    else if (svnRelpathSkipAncestor cPath entry.path).isSome then
      if kind = .file then
        let index ← checked (api.removeDirectory index cPath 0)
        return (true, nIndex, index)
      else return (true, nIndex, index)
    else if kind ≠ .none then
      let index ← checked (api.addByPath fs native index cPath)
      return (true, nIndex + 1, index)
    else return (true, nIndex, index)
  | none =>
    if kind ≠ .none then
      let index ← checked (api.addByPath fs native index cPath)
      return (true, nIndex + 1, index)
    else return (true, nIndex, index)

/-- The turns for one path. -/
def stagePath (api : IndexApi) (fs : FileSystem) (native : NativeRepository) (repoAbspath : CStr)
    (cPath : CStr) : Nat → Nat → Index → Except Failure (Nat × Index)
  | 0, _, _ => .error .diverges
  | fuel + 1, nIndex, index => do
    let (pathDone, nIndex, index) ← stageTurn api fs native repoAbspath cPath nIndex index
    if pathDone then return (nIndex, index)
    else stagePath api fs native repoAbspath cPath fuel nIndex index

/-- The `while (havePath)` loop. -/
def stageWalk (api : IndexApi) (fs : FileSystem) (native : NativeRepository)
    (repoAbspath : CStr) : List CStr → Nat → Index → Except Failure Index
  | [], _, index => .ok index
  | cPath :: cPaths, nIndex, index => do
    -- a turn that does not end the path moves `nIndex` up and leaves the index as it is
    let (nIndex, index) ←
      stagePath api fs native repoAbspath cPath (index.length - nIndex + 1) nIndex index
    stageWalk api fs native repoAbspath cPaths nIndex index

/-- `svn_sort__array` with `compare_strict`. -/
def sortPaths (cPaths : List CStr) : List CStr :=
  cPaths.insertionSort fun a b => strcmp a b ≤ 0

/-- `Stage(IEnumerable<String^>^, GitStageArgs^)`. -/
def stageAll (api : IndexApi) (paths : List NetString) : Action Disk Failure Bool := do
  let disk ← Action.get
  let (located, repo) ← Action.ofExcept (locateAll disk.fs ⟨none⟩ paths)
  if !located then return false
  else if repo.isDisposed then return false
  else
    Action.ofExcept (assertNotBare repo)
    let cPaths ← Action.ofExcept (paths.mapM repo.makeRelpath)
    let index ← Action.ofExcept (repo.getIndexInstance api disk)
    let native ← Action.ofExcept repo.handle
    -- a null from `MakeRelpath` is read by `strcmp` or `svn_dirent_join`
    let cPaths ← Action.ofExcept ((cPaths.mapM id).elim (.error .accessViolation) .ok)
    let repoAbspath := svnDirentInternalStyle native.workdir
    let index ← Action.ofExcept
      (stageWalk api disk.fs native repoAbspath (sortPaths cPaths) 0 index)
    GitIndex.write api native index

/-- `Stage(String^, GitStageArgs^)`. -/
def stage (api : IndexApi) (path : NetString) : Action Disk Failure Bool :=
  if path = [] then Action.raise (.argumentNull "path") else stageAll api [path]

theorem checked_eq_ok {result : Int × Index} {index : Index} :
    checked result = .ok index ↔ result = (0, index) := by
  obtain ⟨r, after⟩ := result
  by_cases hr : r = 0 <;> simp [checked, hr]

theorem ioCheckPath_eq_ok {fs : FileSystem} {abspath : CStr} {kind : NodeKind} :
    ioCheckPath fs abspath = .ok kind ↔ fs.checkPath abspath = .ok kind := by
  cases h : fs.checkPath abspath <;> simp [ioCheckPath, h]

section Walk

variable {api : IndexApi} {fs : FileSystem} {native : NativeRepository} {repoAbspath : CStr}

/-- The cursor stands behind the entries before the path. -/
def CursorAt (cPath : CStr) (nIndex : Nat) (index : Index) : Prop :=
  ∀ e ∈ index.take nIndex, strcmp e.path cPath < 0

theorem strcmp_ne {s t : CStr} (h : strcmp s t < 0) : s ≠ t := by
  intro heq
  subst heq
  rw [strcmp_self] at h
  exact absurd h (by decide)

theorem not_strcmp_root (s : CStr) : ¬strcmp s [] < 0 := by
  cases s <;> simp [strcmp]

theorem below_of_skipAncestor {cPath path : CStr} (hne : path ≠ cPath)
    (h : (svnRelpathSkipAncestor cPath path).isSome = true) : Below cPath path := by
  by_cases hp : cPath = []
  · exact .inl hp
  · obtain h | h := (svnRelpathSkipAncestor_isSome hp).mp h
    · exact absurd h hne
    · exact .inr h

/-- No entry stands under the cursor, or one behind the path and not below it. -/
def FreeAt (cPath : CStr) (nIndex : Nat) (index : Index) : Prop :=
  ∀ entry, index[nIndex]? = some entry →
    strcmp cPath entry.path < 0 ∧ (svnRelpathSkipAncestor cPath entry.path).isSome = false

/-- What one turn can do, by the entry under the cursor and by what stands at the path. -/
inductive TurnStep (api : IndexApi) (fs : FileSystem) (native : NativeRepository) (cPath : CStr)
    (kind : NodeKind) (nIndex : Nat) (index : Index) : Bool → Nat → Index → Prop
  | moveUp {entry : IndexEntry} (hentry : index[nIndex]? = some entry)
      (hbefore : strcmp entry.path cPath < 0) :
      TurnStep api fs native cPath kind nIndex index false (nIndex + 1) index
  | replace {entry : IndexEntry} (hentry : index[nIndex]? = some entry)
      (hpath : entry.path = cPath) (hkind : kind ≠ .none) {after : Index}
      (hadd : api.addByPath fs native index cPath = (0, after)) :
      TurnStep api fs native cPath kind nIndex index true (nIndex + 1) after
  | remove {entry : IndexEntry} (hentry : index[nIndex]? = some entry)
      (hpath : entry.path = cPath) (hkind : kind = .none) {after : Index}
      (hremove : api.remove index cPath entry.stage = (0, after)) :
      TurnStep api fs native cPath kind nIndex index true nIndex after
  | removeDirectory {entry : IndexEntry} (hentry : index[nIndex]? = some entry)
      (hbehind : strcmp cPath entry.path < 0)
      (hbelow : (svnRelpathSkipAncestor cPath entry.path).isSome = true) (hkind : kind = .file)
      {after : Index} (hremove : api.removeDirectory index cPath 0 = (0, after)) :
      TurnStep api fs native cPath kind nIndex index true nIndex after
  | keepDirectory {entry : IndexEntry} (hentry : index[nIndex]? = some entry)
      (hbehind : strcmp cPath entry.path < 0)
      (hbelow : (svnRelpathSkipAncestor cPath entry.path).isSome = true) (hkind : kind ≠ .file) :
      TurnStep api fs native cPath kind nIndex index true nIndex index
  | add (hfree : FreeAt cPath nIndex index) (hkind : kind ≠ .none) {after : Index}
      (hadd : api.addByPath fs native index cPath = (0, after)) :
      TurnStep api fs native cPath kind nIndex index true (nIndex + 1) after
  | skip (hfree : FreeAt cPath nIndex index) (hkind : kind = .none) :
      TurnStep api fs native cPath kind nIndex index true nIndex index

theorem stageTurn_step {cPath : CStr} {nIndex : Nat} {index : Index} {pathDone : Bool}
    {nIndex' : Nat} {after : Index}
    (h : stageTurn api fs native repoAbspath cPath nIndex index = .ok (pathDone, nIndex', after)) :
    ∃ kind, fs.checkPath (svnDirentJoin repoAbspath cPath) = .ok kind ∧
      TurnStep api fs native cPath kind nIndex index pathDone nIndex' after := by
  obtain ⟨kind, hkind, h⟩ := except_bind_eq_ok.mp h
  refine ⟨kind, ioCheckPath_eq_ok.mp hkind, ?_⟩
  cases hentry : index[nIndex]? with
  | none =>
    have hfree : FreeAt cPath nIndex index := by
      intro entry hsome
      rw [hentry] at hsome
      cases hsome
    simp only [hentry] at h
    split_ifs at h with hnone
    · obtain ⟨added, hadd, h⟩ := except_bind_eq_ok.mp h
      cases h
      exact .add hfree hnone (checked_eq_ok.mp hadd)
    · cases h
      exact .skip hfree (not_not.mp hnone)
  | some entry =>
    simp only [hentry] at h
    split_ifs at h with hzero hnone hlt hskip hfile hnone
    · obtain ⟨added, hadd, h⟩ := except_bind_eq_ok.mp h
      cases h
      exact .replace hentry (strcmp_eq_zero.mp hzero) hnone (checked_eq_ok.mp hadd)
    · obtain ⟨removed, hremove, h⟩ := except_bind_eq_ok.mp h
      cases h
      exact .remove hentry (strcmp_eq_zero.mp hzero) (not_not.mp hnone) (checked_eq_ok.mp hremove)
    · cases h
      exact .moveUp hentry hlt
    all_goals
      have hbehind : strcmp cPath entry.path < 0 := by
        rw [strcmp_swap entry.path cPath]
        omega
    · obtain ⟨removed, hremove, h⟩ := except_bind_eq_ok.mp h
      cases h
      exact .removeDirectory hentry hbehind hskip hfile (checked_eq_ok.mp hremove)
    · cases h
      exact .keepDirectory hentry hbehind hskip hfile
    all_goals
      have hfree : FreeAt cPath nIndex index := by
        intro other hother
        rw [hentry] at hother
        cases hother
        exact ⟨hbehind, by simpa using hskip⟩
    · obtain ⟨added, hadd, h⟩ := except_bind_eq_ok.mp h
      cases h
      exact .add hfree hnone (checked_eq_ok.mp hadd)
    · cases h
      exact .skip hfree (not_not.mp hnone)

/-- A turn that does not end the path moves up in the same index. -/
theorem TurnStep.not_done {cPath : CStr} {kind : NodeKind} {nIndex nIndex' : Nat}
    {index after : Index} (h : TurnStep api fs native cPath kind nIndex index false nIndex' after) :
    nIndex < index.length ∧ nIndex' = nIndex + 1 ∧ after = index := by
  cases h with
  | moveUp hentry hbefore => exact ⟨(List.getElem?_eq_some_iff.mp hentry).1, rfl, rfl⟩

theorem TurnStep.cursorAt {cPath : CStr} {kind : NodeKind} {nIndex nIndex' : Nat}
    {index after : Index} (hcur : CursorAt cPath nIndex index)
    (h : TurnStep api fs native cPath kind nIndex index false nIndex' after) :
    CursorAt cPath nIndex' index := by
  cases h with
  | moveUp hentry hbefore =>
    intro e he
    rw [List.take_add_one, hentry] at he
    obtain he | he := List.mem_append.mp he
    · exact hcur e he
    · obtain rfl := by simpa using he
      exact hbefore

theorem checked_error {result : Int × Index} : checked result ≠ .error .diverges := by
  by_cases hr : result.1 = 0 <;> simp [checked, hr]

theorem ioCheckPath_error {abspath : CStr} : ioCheckPath fs abspath ≠ .error .diverges := by
  cases h : fs.checkPath abspath <;> simp [ioCheckPath, h]

theorem stageTurn_error {cPath : CStr} {nIndex : Nat} {index : Index} :
    stageTurn api fs native repoAbspath cPath nIndex index ≠ .error .diverges := by
  intro h
  obtain h | ⟨kind, -, h⟩ := except_bind_eq_error.mp h
  · exact ioCheckPath_error h
  have throws (result : Int × Index) (next : Index → Bool × Nat × Index)
      (h : (checked result >>= fun index => pure (next index)) = .error .diverges) : False := by
    obtain h | ⟨_, -, h⟩ := except_bind_eq_error.mp h
    · exact checked_error h
    · cases h
  cases hentry : index[nIndex]? with
  | none =>
    simp only [hentry] at h
    split_ifs at h
    · exact throws _ (fun index => (true, nIndex + 1, index)) h
    · cases h
  | some entry =>
    simp only [hentry] at h
    split_ifs at h
    · exact throws _ (fun index => (true, nIndex + 1, index)) h
    · exact throws _ (fun index => (true, nIndex, index)) h
    · cases h
    · exact throws _ (fun index => (true, nIndex, index)) h
    · cases h
    · exact throws _ (fun index => (true, nIndex + 1, index)) h
    · cases h

/-- The turns for one path come to an end: the fuel of `stageWalk` is enough. -/
theorem stagePath_ends {cPath : CStr} {fuel nIndex : Nat} {index : Index}
    (hfuel : index.length - nIndex < fuel) :
    stagePath api fs native repoAbspath cPath fuel nIndex index ≠ .error .diverges := by
  induction fuel generalizing nIndex with
  | zero => exact absurd hfuel (Nat.not_lt_zero _)
  | succ fuel ih =>
    intro h
    obtain hturn | ⟨⟨pathDone, next, turned⟩, hturn, hrest⟩ := except_bind_eq_error.mp h
    · exact stageTurn_error hturn
    cases pathDone with
    | true => cases hrest
    | false =>
      obtain ⟨kind, -, hstep⟩ := stageTurn_step hturn
      obtain ⟨hlt, rfl, rfl⟩ := hstep.not_done
      exact ih (by omega) hrest

theorem stageWalk_ends {cPaths : List CStr} {nIndex : Nat} {index : Index} :
    stageWalk api fs native repoAbspath cPaths nIndex index ≠ .error .diverges := by
  induction cPaths generalizing nIndex index with
  | nil => simp [stageWalk]
  | cons cPath cPaths ih =>
    intro h
    obtain h | ⟨_, -, h⟩ := except_bind_eq_error.mp h
    · exact stagePath_ends (Nat.lt_succ_self _) h
    · exact ih h

end Walk

theorem assertNotBare_eq_ok {native : NativeRepository} {done : Unit} :
    assertNotBare ⟨some native⟩ = .ok done ↔ native.bare = false := by
  cases h : native.bare <;> simp [assertNotBare, GitRepository.handle, h, bind, Except.bind, pure,
    Except.pure]

theorem locateAll_single {fs : FileSystem} {path : NetString} {located : Bool}
    {repo : GitRepository} (h : locateAll fs ⟨none⟩ [path] = .ok (located, repo)) :
    located = true ∧ ∃ native, repo = ⟨some native⟩ ∧
      GitRepository.locate fs ⟨none⟩ path = .ok (true, ⟨some native⟩) := by
  obtain ⟨⟨opened, found⟩, hlocate, h⟩ := except_bind_eq_ok.mp h
  obtain ⟨rfl, native, rfl⟩ := GitRepository.locate_eq_ok hlocate
  cases h
  exact ⟨rfl, native, rfl, hlocate⟩

theorem mapM_singleton_eq_ok {α β : Type} {f : α → Except Failure β} {a : α} {bs : List β} :
    [a].mapM f = .ok bs ↔ ∃ b, f a = .ok b ∧ [b] = bs := by
  rw [List.mapM_cons, except_bind_eq_ok]
  simp [pure, Except.pure, bind, Except.bind]

/-- What a `Stage` of one path that returns true has done. -/
theorem stage_eq_true {api : IndexApi} {path : NetString} {disk disk' : Disk}
    (h : (stage api path).run disk = (.ok true, disk')) :
    ∃ native cPath after,
      GitRepository.locate disk.fs ⟨none⟩ path = .ok (true, ⟨some native⟩) ∧
      native.bare = false ∧
      GitRepository.makeRelpath ⟨some native⟩ path = .ok (some cPath) ∧
      api.openIndex disk.fs native = 0 ∧
      stageWalk api disk.fs native (svnDirentInternalStyle native.workdir) [cPath] 0
        (disk.index native) = .ok after ∧
      disk' = disk.setIndex native after := by
  rw [stage] at h
  split_ifs at h with hpath
  · simp at h
  rw [stageAll, Action.get_bind] at h
  obtain ⟨⟨located, repo⟩, hall, h⟩ := Action.ofExcept_bind_eq_ok.mp h
  obtain ⟨rfl, native, rfl, hlocate⟩ := locateAll_single hall
  obtain ⟨_, hbare, h⟩ := Action.ofExcept_bind_eq_ok.mp h
  obtain ⟨cPaths, hpaths, h⟩ := Action.ofExcept_bind_eq_ok.mp h
  obtain ⟨relpath, hrel, rfl⟩ := mapM_singleton_eq_ok.mp hpaths
  obtain ⟨_, hindex, h⟩ := Action.ofExcept_bind_eq_ok.mp h
  obtain ⟨_, hrepo, hopen, rfl⟩ := GitRepository.getIndexInstance_eq_ok.mp hindex
  cases hrepo
  obtain ⟨_, hnative, h⟩ := Action.ofExcept_bind_eq_ok.mp h
  cases hnative
  obtain ⟨cPaths, hnull, h⟩ := Action.ofExcept_bind_eq_ok.mp h
  cases relpath with
  | none => cases hnull
  | some cPath =>
    cases hnull
    obtain ⟨after, hwalk, h⟩ := Action.ofExcept_bind_eq_ok.mp h
    obtain ⟨-, -, rfl⟩ := GitIndex.write_eq_ok.mp h
    exact ⟨native, cPath, after, hlocate, assertNotBare_eq_ok.mp hbare, hrel, hopen, hwalk, rfl⟩

end SharpGit.GitClient
