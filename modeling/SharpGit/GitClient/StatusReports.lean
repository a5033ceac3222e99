import SharpGit.GitClient.GitStatus
import SharpGit.Library.Calls

namespace SharpGit.GitClient

open Library Native Svn Implementation Plumbing

/-- A `git_status_entry` with its flags. -/
structure StatusItem where
  entry : StatusEntry
  status : Nat

/-- Which of the three entries of a conflict `git_index_conflict_get` finds. -/
structure ConflictStages where
  ancestor : Bool
  ours : Bool
  theirs : Bool
  deriving DecidableEq, Repr

/-- All fields of a `GitStatusEventArgs` that its constructor sets. -/
structure StatusReport extends GitStatusEventArgs where
  status : Nat
  has : Nat
  conflicted : Nat
  deriving DecidableEq, Repr

def statusConflicted : Nat := 0x8000

/-- The flags `GitStatusHas`. -/
def statusHas (directory : Bool) (item : Option StatusItem) : Nat :=
  (if item.isNone then 0x40 else 0) ||| (if directory then 0x20 else 0x10) |||
    (if item.any fun item => item.entry.headToIndex.isSome then 0x1 else 0) |||
    (if item.any fun item => item.entry.indexToWorkdir.isSome then 0x2 else 0)

/-- The flags `GitConflicted`, of which `HasTheirs` is the other two together. -/
def conflictedFlags (stages : Option ConflictStages) : Nat :=
  match stages with
  | none => 0
  | some stages =>
    (if stages.ancestor then 1 else 0) ||| (if stages.ours then 2 else 0) |||
      (if stages.theirs then 3 else 0)

/-- The constructor; the second entry of a collapsed pair is not read. -/
def gitStatusEventArgs (path wcPath : CStr) (directory : Bool) (item _addItem : Option StatusItem)
    (stages : Option ConflictStages) : StatusReport where
  path := path
  wcPath := wcPath
  directory := directory
  status := (item.map StatusItem.status).getD 0
  has := statusHas directory item
  conflicted := conflictedFlags stages

/-- What `on_status` is called with. -/
structure Announced where
  directory : Bool
  path : CStr
  item : Option StatusItem
  addItem : Option StatusItem

namespace StatusCalls

def introduceDirs (dir : CStr) : Nat → CStr → Caller Announced Failure CStr
  | 0, _ => fun _ _ => Action.raise .diverges
  | fuel + 1, sb => fun σ on =>
    if dir = [] then pure sb
    else
      match svnRelpathSkipAncestor sb dir with
      | none => Action.raise .accessViolation
      | some [] => pure sb
      | some (_ :: _) => do
        let sb ← Action.ofExcept (addOneComponent sb dir)
        on ⟨true, sb, none, none⟩
        introduceDirs dir fuel sb σ on

def moveTo (entryPath sb : CStr) : Caller Announced Failure CStr := fun σ on =>
  let dir := svnRelpathDirname entryPath
  if dir ≠ sb then do
    let sb ← Action.ofExcept (popUnrelated dir (sb.length + 1) sb)
    introduceDirs dir (dir.length + 1) sb σ on
  else pure entryPath

def statusTurn (introduce : Bool) (item : StatusItem) (addItem : Option StatusItem) (sb : CStr) :
    Caller Announced Failure CStr := fun σ on => do
  let sb ← if introduce then moveTo item.entry.path sb σ on else pure sb
  on ⟨item.entry.isDir, item.entry.path, some item, addItem⟩
  return sb

def statusLoop (introduce collapseReplacements : Bool) :
    List StatusItem → CStr → Caller Announced Failure Unit
  | [], _ => fun _ _ => pure ()
  | [item], sb => fun σ on => do
    let _ ← statusTurn introduce item none sb σ on
    return ()
  | item :: next :: items, sb => fun σ on =>
    if collapseReplacements ∧ item.entry.path = next.entry.path then do
      let sb ← statusTurn introduce item (some next) sb σ on
      statusLoop introduce collapseReplacements items sb σ on
    else do
      let sb ← statusTurn introduce item none sb σ on
      statusLoop introduce collapseReplacements (next :: items) sb σ on

/-- The block behind `git_status_list_new`. -/
def walk (items : List StatusItem) (path : NetString) (args : GitStatusArgs) :
    Caller Announced Failure Unit := fun σ on => do
  let introduce := args.generateVersionedDirs && args.includeUnmodified
  if introduce ∧ path = [] then on ⟨true, [], none, none⟩
  let sb := if path = [] then allocDirent path else pathRemoveComponent (allocDirent path)
  statusLoop introduce args.collapseReplacements items sb σ on

theorem introduceDirs_calls (dir : CStr) (fuel : Nat) (sb : CStr) :
    MakesCalls (introduceDirs dir fuel sb) := by
  induction fuel generalizing sb with
  | zero => exact ⟨[], .error .diverges, fun _ _ _ => rfl⟩
  | succ fuel ih =>
    unfold introduceDirs
    by_cases hdir : dir = []
    · simp only [if_pos hdir]
      exact ⟨[], .ok sb, calls_pure sb⟩
    simp only [if_neg hdir]
    cases svnRelpathSkipAncestor sb dir with
    | none => exact ⟨[], .error .accessViolation, fun _ _ _ => rfl⟩
    | some rest =>
      cases rest with
      | nil => exact ⟨[], .ok sb, calls_pure sb⟩
      | cons c rest =>
        refine MakesCalls.bind ⟨[], _, calls_ofExcept _⟩ fun sb => ?_
        exact MakesCalls.bind ⟨_, _, calls_call _⟩ fun _ => ih sb

theorem moveTo_calls (entryPath sb : CStr) : MakesCalls (moveTo entryPath sb) := by
  unfold moveTo
  by_cases hdir : svnRelpathDirname entryPath ≠ sb
  · simp only [if_pos hdir]
    exact MakesCalls.bind ⟨[], _, calls_ofExcept _⟩ fun sb => introduceDirs_calls _ _ sb
  · simp only [if_neg hdir]
    exact ⟨[], .ok entryPath, calls_pure entryPath⟩

theorem statusTurn_calls (introduce : Bool) (item : StatusItem) (addItem : Option StatusItem)
    (sb : CStr) : MakesCalls (statusTurn introduce item addItem sb) := by
  unfold statusTurn
  have hlast (sb : CStr) : MakesCalls
      fun (σ : Type) (on : Announced → Action σ Failure Unit) =>
        on ⟨item.entry.isDir, item.entry.path, some item, addItem⟩ >>= fun _ => pure sb :=
    MakesCalls.bind ⟨_, _, calls_call _⟩ fun _ => ⟨[], .ok sb, calls_pure sb⟩
  cases introduce with
  | true => exact MakesCalls.bind (moveTo_calls _ sb) hlast
  | false => exact MakesCalls.bind ⟨[], .ok sb, calls_pure sb⟩ hlast

theorem statusLoop_calls (introduce collapse : Bool) (items : List StatusItem) (sb : CStr) :
    MakesCalls (statusLoop introduce collapse items sb) := by
  fun_induction statusLoop introduce collapse items sb with
  | case1 sb => exact ⟨[], .ok (), calls_pure ()⟩
  | case2 item sb =>
    exact MakesCalls.bind (statusTurn_calls _ _ _ _) fun _ => ⟨[], .ok (), calls_pure ()⟩
  | case3 item next items sb ih₁ ih₂ =>
    by_cases hsame : collapse ∧ item.entry.path = next.entry.path
    · simp only [if_pos hsame]
      exact MakesCalls.bind (statusTurn_calls _ _ _ _) fun sb => ih₁ sb
    · simp only [if_neg hsame]
      exact MakesCalls.bind (statusTurn_calls _ _ _ _) fun sb => ih₂ sb

theorem walk_calls (items : List StatusItem) (path : NetString) (args : GitStatusArgs) :
    MakesCalls (walk items path args) := by
  unfold walk
  dsimp only
  by_cases hroot : (args.generateVersionedDirs && args.includeUnmodified) = true ∧ path = []
  · simp only [if_pos hroot]
    exact MakesCalls.bind ⟨_, _, calls_call _⟩ fun _ => statusLoop_calls _ _ _ _
  · simp only [if_neg hroot]
    exact MakesCalls.bind ⟨[], .ok (), calls_pure ()⟩ fun _ => statusLoop_calls _ _ _ _

end StatusCalls

section Written

variable (wcPath : CStr)

def writeDown (a : Announced) : Action Reported Failure Unit := onStatus a.directory a.path wcPath

theorem introduceDirs_writeDown (dir : CStr) (fuel : Nat) (sb : CStr) :
    StatusCalls.introduceDirs dir fuel sb Reported (writeDown wcPath) =
      introduceDirs wcPath dir fuel sb := by
  induction fuel generalizing sb with
  | zero => rfl
  | succ fuel ih =>
    rw [StatusCalls.introduceDirs, introduceDirs]
    simp only [ih]
    rfl

theorem statusTurn_writeDown (item : StatusItem) (addItem : Option StatusItem) (sb : CStr) :
    StatusCalls.statusTurn true item addItem sb Reported (writeDown wcPath) =
      statusTurn wcPath true item.entry sb := by
  have hmove : StatusCalls.moveTo item.entry.path sb Reported (writeDown wcPath) =
      moveTo wcPath item.entry.path sb := by
    unfold StatusCalls.moveTo moveTo
    simp only [introduceDirs_writeDown]
  unfold StatusCalls.statusTurn statusTurn
  rw [if_pos rfl, if_pos rfl, hmove]
  rfl

theorem statusLoop_writeDown (collapse : Bool) (items : List StatusItem) (sb : CStr) :
    StatusCalls.statusLoop true collapse items sb Reported (writeDown wcPath) =
      statusLoop wcPath true collapse (items.map StatusItem.entry) sb := by
  fun_induction StatusCalls.statusLoop true collapse items sb with
  | case1 sb => rfl
  | case2 item sb =>
    simp only [statusTurn_writeDown]
    rfl
  | case3 item next items sb ih₁ ih₂ =>
    rw [List.map_cons, List.map_cons, statusLoop]
    by_cases hsame : collapse ∧ item.entry.path = next.entry.path
    · simp only [if_pos hsame, statusTurn_writeDown, ih₁]
    · simp only [if_neg hsame, statusTurn_writeDown, ih₂]
      rfl

theorem walk_writeDown (native : NativeRepository) (items : List StatusItem) (path : NetString)
    {args : GitStatusArgs} (hdirs : (args.generateVersionedDirs && args.includeUnmodified) = true)
    (reported : Reported) :
    (status native (items.map StatusItem.entry) path args).run reported =
      (StatusCalls.walk items path args Reported
        (writeDown (svnDirentInternalStyle native.workdir)) >>= fun _ => pure true).run
          reported := by
  unfold status StatusCalls.walk reportRoot
  dsimp only
  rw [hdirs]
  by_cases hpath : path = []
  · simp only [hpath, and_self, if_true, statusLoop_writeDown]
    rfl
  · simp only [hpath, and_false, if_false, statusLoop_writeDown]
    rfl

end Written

inductive NativeCall
  | statusListNew
  | statusListFree
  deriving DecidableEq, Repr

/-- The handlers of `GitStatusArgs::Status`, the calls of them so far, and libgit2's list. -/
structure StatusState where
  handlers : List Nat
  calls : List (Nat × StatusReport)
  native : List NativeCall

/-- What libgit2 answers: the index, the list of entries, and the entries of a conflict. -/
structure StatusApi where
  openIndex : Except Int Unit
  listNew : Except Int (List StatusItem)
  conflictGet : CStr → Except Int ConflictStages

section Call

variable (api : StatusApi)
  (react : Nat → List (Nat × StatusReport) → StatusReport → Except Failure Unit)

/-- A handler is called; what it does may depend on all calls before. -/
def invoke (call : Nat × StatusReport) : Action StatusState Failure Unit := do
  let before ← Action.get
  Action.modify fun now => { now with calls := now.calls ++ [call] }
  Action.ofExcept (react call.1 before.calls call.2)

/-- `GitStatusArgs::OnStatus`. -/
def raiseStatus (report : StatusReport) : Action StatusState Failure Unit := do
  let now ← Action.get
  callAll (invoke react) (now.handlers.map fun handler => (handler, report))

def isConflicted (a : Announced) : Bool :=
  a.item.any fun item => item.status &&& statusConflicted != 0

/-- `on_status`; an entry of a conflict that cannot be read is thrown by `GIT_THROW`. -/
def onStatusReport (wcPath : CStr) (a : Announced) : Action StatusState Failure Unit :=
  if !isConflicted a then
    raiseStatus react (gitStatusEventArgs a.path wcPath a.directory a.item a.addItem none)
  else
    match api.conflictGet a.path with
    | .error r => Action.raise (.git r)
    | .ok stages =>
      raiseStatus react
        (gitStatusEventArgs a.path wcPath a.directory a.item a.addItem (some stages))

/-- `-=` takes the last of equal handlers out. -/
def removeLast (handler : Nat) (handlers : List Nat) : List Nat :=
  (handlers.reverse.erase handler).reverse

/-- `GitRepository::Status`. -/
def statusCall (native : NativeRepository) (path : NetString) (args : GitStatusArgs)
    (handler : Option Nat) : Action StatusState Failure Bool := do
  Action.modify fun now => { now with handlers := now.handlers ++ handler.toList }
  Action.tryFinally
    (do
      match api.openIndex, api.listNew with
      | .error r, _ => Action.raise (.git r)
      | .ok _, .error r => Action.raise (.git r)
      | .ok _, .ok items => do
        Action.modify fun now => { now with native := now.native ++ [.statusListNew] }
        Action.tryFinally
          (StatusCalls.walk items path args StatusState
            (onStatusReport api react (svnDirentInternalStyle native.workdir)))
          (Action.modify fun now => { now with native := now.native ++ [.statusListFree] })
        return true)
    (Action.modify fun now =>
      { now with handlers := handler.elim now.handlers fun h => removeLast h now.handlers })

end Call

/-- What the walk announces when nothing raises. -/
def announced (items : List StatusItem) (path : NetString) (args : GitStatusArgs) :
    List Announced :=
  ((StatusCalls.walk items path args (List Announced) note).run []).2

/-- The report of an announcement, where its conflict can be read. -/
def reportOf (api : StatusApi) (wcPath : CStr) (a : Announced) : Option StatusReport :=
  if !isConflicted a then
    some (gitStatusEventArgs a.path wcPath a.directory a.item a.addItem none)
  else
    (api.conflictGet a.path).toOption.map fun stages =>
      gitStatusEventArgs a.path wcPath a.directory a.item a.addItem (some stages)

/-- Every report to every handler, in order. -/
def reportedTo (api : StatusApi) (wcPath : CStr) (handlers : List Nat) (log : List Announced) :
    List (Nat × StatusReport) :=
  log.flatMap fun a =>
    (reportOf api wcPath a).toList.flatMap fun report => handlers.map fun handler =>
      (handler, report)

/-- Where directories are introduced, the announcements are what `status` reports. -/
theorem status_announced (native : NativeRepository) (items : List StatusItem) (path : NetString)
    {args : GitStatusArgs} (hdirs : (args.generateVersionedDirs && args.includeUnmodified) = true) :
    ((status native (items.map StatusItem.entry) path args).run []).2 =
      (announced items path args).map fun a =>
        ⟨a.path, svnDirentInternalStyle native.workdir, a.directory⟩ := by
  have hwritten (log : List Announced) (reported : Reported) :
      (callAll (writeDown (svnDirentInternalStyle native.workdir)) log).run reported =
        (.ok (), reported ++ log.map fun a =>
          ⟨a.path, svnDirentInternalStyle native.workdir, a.directory⟩) := by
    induction log generalizing reported with
    | nil => simp [callAll]
    | cons a log ih =>
      have hfirst : (writeDown (svnDirentInternalStyle native.workdir) a).run reported =
          (.ok (), reported ++ [⟨a.path, svnDirentInternalStyle native.workdir, a.directory⟩]) :=
        rfl
      rw [callAll, Action.run_bind_ok hfirst, ih, List.append_assoc]
      rfl
  have hwalk := (StatusCalls.walk_calls items path args).calls Reported
    (writeDown (svnDirentInternalStyle native.workdir)) []
  rw [Action.run_bind_ok (hwritten _ []), List.nil_append] at hwalk
  rw [walk_writeDown native items path hdirs, Action.run_bind, hwalk, announced]
  cases ((StatusCalls.walk items path args (List Announced) note).run []).1 <;> rfl

section Handlers

variable {api : StatusApi}
  {react : Nat → List (Nat × StatusReport) → StatusReport → Except Failure Unit}

theorem run_raiseStatus (report : StatusReport) (s : StatusState) :
    (raiseStatus react report).run s =
      (callAll (invoke react) (s.handlers.map fun handler => (handler, report))).run s := rfl

/-- One announcement: the calls of its report, or an exception before them. -/
theorem run_onStatusReport {wcPath : CStr} {handlers : List Nat} (a : Announced)
    {s : StatusState} (hs : s.handlers = handlers) :
    (onStatusReport api react wcPath a).run s =
        (callAll (invoke react) (reportedTo api wcPath handlers [a])).run s ∨
      ∃ e, (onStatusReport api react wcPath a).run s = (.error e, s) := by
  rw [onStatusReport, reportedTo, List.flatMap_singleton, reportOf]
  by_cases hconflicted : (!isConflicted a) = true
  · rw [if_pos hconflicted, if_pos hconflicted, run_raiseStatus, hs]
    left
    rw [Option.toList_some, List.flatMap_singleton]
  · rw [if_neg hconflicted, if_neg hconflicted]
    cases api.conflictGet a.path with
    | error r => exact .inr ⟨_, rfl⟩
    | ok stages =>
      left
      dsimp only [Except.toOption, Option.map_some]
      rw [run_raiseStatus, hs, Option.toList_some, List.flatMap_singleton]

/-- The walk calls a beginning of what it announces, and keeps all else. -/
theorem run_walk_made (items : List StatusItem) (path : NetString) (args : GitStatusArgs)
    (wcPath : CStr) (s : StatusState) :
    ((StatusCalls.walk items path args StatusState (onStatusReport api react wcPath)).run s).2 =
        { s with calls := ((StatusCalls.walk items path args StatusState
          (onStatusReport api react wcPath)).run s).2.calls } ∧
    ∃ made, made <+: reportedTo api wcPath s.handlers (announced items path args) ∧
      ((StatusCalls.walk items path args StatusState
        (onStatusReport api react wcPath)).run s).2.calls = s.calls ++ made ∧
      (((StatusCalls.walk items path args StatusState
        (onStatusReport api react wcPath)).run s).1 = .ok () →
          made = reportedTo api wcPath s.handlers (announced items path args)) := by
  have hwalk := (StatusCalls.walk_calls items path args).calls StatusState
    (onStatusReport api react wcPath) s
  have hother (call : Nat × StatusReport) (now : StatusState)
      (h : now.handlers = s.handlers ∧ now.native = s.native) :
      ((invoke react call).run now).2.handlers = s.handlers ∧
        ((invoke react call).run now).2.native = s.native := h
  have hon (a : Announced) (now : StatusState)
      (h : now.handlers = s.handlers ∧ now.native = s.native) :
      (onStatusReport api react wcPath a).run now =
          (callAll (invoke react) (reportedTo api wcPath s.handlers [a])).run now ∨
        ∃ e, (onStatusReport api react wcPath a).run now = (.error e, now) :=
    run_onStatusReport a h.1
  have hkeeps (a : Announced) (now : StatusState)
      (h : now.handlers = s.handlers ∧ now.native = s.native) :
      ((onStatusReport api react wcPath a).run now).2.handlers = s.handlers ∧
        ((onStatusReport api react wcPath a).run now).2.native = s.native := by
    obtain hcalls | ⟨e, herror⟩ := hon a now h
    · rw [hcalls]
      exact run_callAll_keeps hother _ h
    · rw [herror]
      exact h
  have hafter := run_callAll_keeps hkeeps (announced items path args) (s := s) ⟨rfl, rfl⟩
  obtain ⟨made, hprefix, hcalls, hall⟩ := @run_callAll_nested Announced StatusState Failure
    (Nat × StatusReport) _ _ _ StatusState.calls _ (fun call now => rfl) hother hon
    (announced items path args) s ⟨rfl, rfl⟩
  have hparts : (announced items path args).flatMap
      (fun a => reportedTo api wcPath s.handlers [a]) =
        reportedTo api wcPath s.handlers (announced items path args) := by
    simp only [reportedTo, List.flatMap_singleton]
  rw [hparts] at hprefix hall
  rw [hwalk, Action.run_bind]
  change _ ∧ _
  rw [← announced]
  cases hrun : (callAll (onStatusReport api react wcPath) (announced items path args)).run s with
  | mk result after =>
    rw [hrun] at hafter hcalls hall
    obtain ⟨handlers, calls, native⟩ := after
    obtain ⟨rfl, rfl⟩ := hafter
    cases result with
    | error e =>
      refine ⟨rfl, made, hprefix, hcalls, ?_⟩
      intro h
      cases h
    | ok _ => exact ⟨rfl, made, hprefix, hcalls, fun _ => hall rfl⟩

theorem removeLast_concat (handler : Nat) (handlers : List Nat) :
    removeLast handler (handlers ++ [handler]) = handlers := by
  rw [removeLast, List.reverse_append, List.reverse_singleton, List.singleton_append,
    List.erase_cons_head, List.reverse_reverse]

/-- The subscription, and what takes it back. -/
theorem unsubscribe_subscribed (handler : Option Nat) (handlers : List Nat) :
    (handler.elim (handlers ++ handler.toList)
      fun h => removeLast h (handlers ++ handler.toList)) = handlers := by
  cases handler with
  | none => exact List.append_nil handlers
  | some h => exact removeLast_concat h handlers

variable {native : NativeRepository} {path : NetString} {args : GitStatusArgs}

theorem run_statusCall_closed {handler : Option Nat} {before : StatusState}
    (hclosed : ∀ items, ¬(api.openIndex = .ok () ∧ api.listNew = .ok items)) :
    ((statusCall api react native path args handler).run before).2 = before ∧
      ((statusCall api react native path args handler).run before).1 ≠ .ok true := by
  have hrestored : { before with
      handlers := handler.elim (before.handlers ++ handler.toList)
        fun h => removeLast h (before.handlers ++ handler.toList) } = before := by
    rw [unsubscribe_subscribed]
  cases hopen : api.openIndex with
  | error r =>
    have hrun : (statusCall api react native path args handler).run before =
        (.error (.git r), { before with
          handlers := handler.elim (before.handlers ++ handler.toList)
            fun h => removeLast h (before.handlers ++ handler.toList) }) := by
      simp only [statusCall, hopen]
      rfl
    rw [hrun, hrestored]
    exact ⟨rfl, fun h => by cases h⟩
  | ok _ =>
    cases hlist : api.listNew with
    | error r =>
      have hrun : (statusCall api react native path args handler).run before =
          (.error (.git r), { before with
            handlers := handler.elim (before.handlers ++ handler.toList)
              fun h => removeLast h (before.handlers ++ handler.toList) }) := by
        simp only [statusCall, hopen, hlist]
        rfl
      rw [hrun, hrestored]
      exact ⟨rfl, fun h => by cases h⟩
    | ok items => exact absurd ⟨hopen, hlist⟩ (hclosed items)

/-- With the list made: what the walk leaves, the list freed and the handlers from before. -/
theorem run_statusCall_listed {handler : Option Nat} {before subscribed : StatusState}
    {items : List StatusItem} (hopen : api.openIndex = .ok ()) (hlist : api.listNew = .ok items)
    (hsubscribed : subscribed = ⟨before.handlers ++ handler.toList, before.calls,
      before.native ++ [.statusListNew]⟩) :
    ((statusCall api react native path args handler).run before).2 =
      { before with
        native := before.native ++ [.statusListNew, .statusListFree]
        calls := ((StatusCalls.walk items path args StatusState (onStatusReport api react
          (svnDirentInternalStyle native.workdir))).run subscribed).2.calls } ∧
    (((statusCall api react native path args handler).run before).1 = .ok true ↔
      ((StatusCalls.walk items path args StatusState (onStatusReport api react
        (svnDirentInternalStyle native.workdir))).run subscribed).1 = .ok ()) := by
  have hkept := (@run_walk_made api react items path args
    (svnDirentInternalStyle native.workdir) subscribed).1
  have hrun : (statusCall api react native path args handler).run before =
      (match (StatusCalls.walk items path args StatusState (onStatusReport api react
          (svnDirentInternalStyle native.workdir))).run subscribed with
        | (.ok _, s) => (.ok true, { s with
            handlers := handler.elim s.handlers fun h => removeLast h s.handlers
            native := s.native ++ [.statusListFree] })
        | (.error e, s) => (.error e, { s with
            handlers := handler.elim s.handlers fun h => removeLast h s.handlers
            native := s.native ++ [.statusListFree] })) := by
    subst hsubscribed
    clear hkept
    simp only [statusCall, hopen, hlist]
    rw [Action.run_bind_ok rfl, Action.run_tryFinally_ok fun _ => rfl, Action.run_bind_ok rfl,
      Action.run_bind, Action.run_tryFinally_ok fun _ => rfl]
    dsimp only
    cases (StatusCalls.walk items path args StatusState (onStatusReport api react
      (svnDirentInternalStyle native.workdir))).run ⟨before.handlers ++ handler.toList,
        before.calls, before.native ++ [.statusListNew]⟩ with
    | mk result after => cases result <;> rfl
  rw [hrun]
  revert hkept
  cases (StatusCalls.walk items path args StatusState (onStatusReport api react
    (svnDirentInternalStyle native.workdir))).run subscribed with
  | mk result after =>
    intro hkept
    obtain ⟨handlers, calls, nativeCalls⟩ := after
    subst hsubscribed
    dsimp only at hkept
    obtain ⟨rfl, -, rfl⟩ := StatusState.mk.inj hkept
    cases result with
    | error e =>
      refine ⟨?_, by simp⟩
      dsimp only
      rw [unsubscribe_subscribed, List.append_assoc]
      rfl
    | ok _ =>
      refine ⟨?_, by simp⟩
      dsimp only
      rw [unsubscribe_subscribed, List.append_assoc]
      rfl

/-- Whatever a handler or a lookup raises: the handlers are those from before, libgit2's list is
freed once if it was made, and the subscribed handlers have been called with a beginning of the
reports in order, with all of them if the call returns. -/
theorem status_restores (handler : Option Nat) (before : StatusState) :
    ((statusCall api react native path args handler).run before).2.handlers = before.handlers ∧
    ((∀ items, ¬(api.openIndex = .ok () ∧ api.listNew = .ok items)) →
      ((statusCall api react native path args handler).run before).2 = before ∧
      ((statusCall api react native path args handler).run before).1 ≠ .ok true) ∧
    ∀ items, api.openIndex = .ok () → api.listNew = .ok items →
      ((statusCall api react native path args handler).run before).2.native =
        before.native ++ [.statusListNew, .statusListFree] ∧
      ∃ made, ((statusCall api react native path args handler).run before).2.calls =
          before.calls ++ made ∧
        made <+: reportedTo api (svnDirentInternalStyle native.workdir)
          (before.handlers ++ handler.toList) (announced items path args) ∧
        (((statusCall api react native path args handler).run before).1 = .ok true →
          made = reportedTo api (svnDirentInternalStyle native.workdir)
            (before.handlers ++ handler.toList) (announced items path args)) := by
  by_cases hclosed : ∀ items, ¬(api.openIndex = .ok () ∧ api.listNew = .ok items)
  · have hbefore := @run_statusCall_closed api react native path args handler before hclosed
    refine ⟨by rw [hbefore.1], fun _ => hbefore, ?_⟩
    intro items hopen hlist
    exact absurd ⟨hopen, hlist⟩ (hclosed items)
  push Not at hclosed
  obtain ⟨items, hopen, hlist⟩ := hclosed
  obtain ⟨hafter, hreturns⟩ := @run_statusCall_listed api react native path args handler before _
    items hopen hlist rfl
  obtain ⟨-, made, hprefix, hcalls, hall⟩ := @run_walk_made api react items path args
    (svnDirentInternalStyle native.workdir) ⟨before.handlers ++ handler.toList, before.calls,
      before.native ++ [.statusListNew]⟩
  refine ⟨by rw [hafter], fun hclosed => absurd ⟨hopen, hlist⟩ (hclosed items), ?_⟩
  intro listed _ hlisted
  obtain rfl : items = listed := Except.ok.inj (hlist.symm.trans hlisted)
  refine ⟨by rw [hafter], made, by rw [hafter, hcalls], hprefix, ?_⟩
  intro hreturned
  exact hall (hreturns.mp hreturned)

end Handlers

end SharpGit.GitClient
