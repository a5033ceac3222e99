import SharpGit.Library.Handles
import SharpGit.Plumbing.GitBranch
import SharpGit.Plumbing.GitBranchTracking

namespace SharpGit.GitClient

open Library Native Implementation Plumbing

inductive PullException
  | failure (failure : Failure)
  | indexOutOfRange
  | notImplemented
  deriving DecidableEq, Repr

def raisedInPull {α : Type} : Except Failure α → Except PullException α
  | .ok a => .ok a
  | .error e => .error (.failure e)

/-- `GIT_THROW`. -/
def throwInPull {α : Type} : Except Int α → Except PullException α
  | .ok a => .ok a
  | .error r => .error (.failure (.git r))

/-- A `GitCommitInfo`; `uri` is its `AbsoluteUri`. -/
structure GitCommitInfo where
  branchName : Option NetString
  uri : NetString
  reference : Option CStr
  id : Oid
  deriving DecidableEq, Repr

/-- An entry of FETCH_HEAD. -/
structure FetchHead where
  refName : CStr
  remoteUrl : CStr
  id : Oid
  isMerge : Bool
  deriving DecidableEq, Repr

/-- What a `git_annotated_commit` is made of. -/
inductive AnnotatedSource
  | fetchHead (branchName url : CStr) (id : Oid)
  | ref (reference : CStr)
  | lookup (id : Oid)
  deriving DecidableEq, Repr

/-- The choice of `GitCommitInfo::Alloc`. -/
def GitCommitInfo.source (info : GitCommitInfo) : AnnotatedSource :=
  match info.branchName, info.reference with
  | some branchName, _ =>
    .fetchHead (passString (some branchName)) (passString (some info.uri)) info.id
  | none, some reference => .ref reference
  | none, none => .lookup info.id

/-- `git_merge_analysis_t`. -/
structure GitMergeAnalysis where
  analysis : Nat
  deriving DecidableEq, Repr

def GitMergeAnalysis.isUpToDate (an : GitMergeAnalysis) : Bool := an.analysis &&& 2 != 0

def GitMergeAnalysis.isUnborn (an : GitMergeAnalysis) : Bool := an.analysis &&& 8 != 0

/-- What libgit2 and the other operations of the client do to the world of a pull; `R` is what a
`git_remote` stands for. -/
structure PullApi (W R : Type) where
  locate : W → Except Failure Bool × W
  isEmpty : W → Bool
  head : W → Except Int CStr
  branches : W → BranchRepository R
  fetch : R → W → Except Failure Bool × W
  remoteLs : R → W → Except Int (List Oid) × W
  defaultBranch : R → W → Except Int CStr × W
  fetchHeads : W → Except Int (List FetchHead)
  absoluteUri : NetString → Except Failure NetString
  annotated : AnnotatedSource → W → Except Int (Option Unit) × W
  mergeAnalysis : List AnnotatedSource → W → Except Int Nat × W
  merge : List AnnotatedSource → W → Except Int Unit × W
  lookup : Oid → W → Except Failure Bool × W
  branchApi : BranchApi
  references : W → References
  setReferences : References → W → W
  checkoutHead : W → Except Int Unit × W
  hasConflicts : W → Except Failure Bool
  commit : W → Except Failure Bool × W
  free : W → W

/-- The calls of a pull with what came of them; `false` where one failed, or has not found what
there has to be. -/
inductive PullStep
  | sought (located : Option Bool)
  | asked (empty : Bool)
  | query (good : Bool)
  | fetched (good : Bool)
  | annotated (source : AnnotatedSource) (good : Bool)
  | analysed (analysis : Option GitMergeAnalysis)
  | branchCreated (good : Bool)
  | headRecorded (good : Bool)
  | checkedOut (good : Bool)
  | merged (good : Bool)
  | conflicts (found : Option Bool)
  | committed (good : Bool)
  deriving DecidableEq, Repr

namespace Pull

variable {W R : Type} (api : PullApi W R)

abbrev Run (W α : Type) := Action (Handling W PullStep) PullException α

/-- A call that may return null has returned something else. -/
def gave {ε α : Type} : Except ε (Option α) → Bool
  | .ok found => found.isSome
  | .error _ => false

def gaveTrue {ε : Type} : Except ε Bool → Bool
  | .ok found => found
  | .error _ => false

/-- Null raises. -/
def orInvalid {α : Type} : Option α → Except PullException α
  | some a => .ok a
  | none => .error (.failure .invalidOperation)

/-- False raises. -/
def requireTrue (found : Except Failure Bool) : Except PullException Unit :=
  raisedInPull found >>= fun found =>
    if found then .ok () else .error (.failure .invalidOperation)

/-- What a call only reads; `good` tells whether it went well. -/
def query {δ α : Type} (handles : List Nat) (good : δ → Bool) (f : W → δ × W)
    (check : δ → Except PullException α) : Run W α :=
  Handling.use handles (fun r => .query (good r)) f check

/-- What `foreach_fetchhead` adds to the list. -/
def fetchHeadInfo (head : FetchHead) : Run W GitCommitInfo :=
  query [] (fun uri => uri.isOk && !(utf8PtrToString head.refName).isEmpty)
    (fun w => (api.absoluteUri (utf8PtrToString head.remoteUrl), w))
    fun uri => do
      let uri ← raisedInPull uri
      let branchName := utf8PtrToString head.refName
      if branchName = [] then throw (.failure (.argumentNull "BranchName"))
      return ⟨some branchName, uri, none, head.id⟩

def fetchHeadInfos : List FetchHead → Run W (List GitCommitInfo)
  | [] => return []
  | head :: heads => do
    let info ← fetchHeadInfo api head
    let infos ← fetchHeadInfos heads
    return info :: infos

/-- `GitRepository::LastFetchResult`. -/
def lastFetchResult (repo : Nat) : Run W (List GitCommitInfo) := do
  let heads ← query [repo] Except.isOk (fun w => (api.fetchHeads w, w)) throwInPull
  fetchHeadInfos api (heads.filter FetchHead.isMerge)

/-- `GitCommitInfo::Alloc`, and the check for null behind it. -/
def alloc (repo : Nat) (info : GitCommitInfo) : Run W (Nat × AnnotatedSource) :=
  Handling.acquireOr (.failure .invalidOperation) [repo]
    (fun r => .annotated info.source (gave r)) (api.annotated info.source)
    fun r => throwInPull (r.map (Option.map fun _ => info.source))

/-- The loop that fills `heads`: what they are where it ends, with the exception that ended it. -/
def allocHeads (repo : Nat) : List GitCommitInfo → List (Nat × AnnotatedSource) →
    Run W (List (Nat × AnnotatedSource) × Except PullException Unit)
  | [], heads => return (heads, .ok ())
  | info :: descriptions, heads => do
    match ← Action.attempt (alloc api repo info) with
    | .error e => return (heads, .error e)
    | .ok head => allocHeads repo descriptions (heads ++ [head])

/-- `while (headsAlloced)`, from the last one. -/
def freeHeads : List (Nat × AnnotatedSource) → Run W Unit
  | [] => return ()
  | head :: heads => do
    Handling.release head.1 api.free
    freeHeads heads

/-- The `try` block around the loop and a call on all heads, with its `finally`. -/
def withHeads {α : Type} (repo : Nat) (descriptions : List GitCommitInfo)
    (f : List (Nat × AnnotatedSource) → Run W α) : Run W α := do
  let (heads, ended) ← allocHeads api repo descriptions []
  Action.tryFinally
    (do
      Action.ofExcept ended
      f heads)
    (freeHeads api heads.reverse)

/-- `GitRepository::MergeAnalysis`. -/
def mergeAnalysis (repo : Nat) (descriptions : List GitCommitInfo) : Run W GitMergeAnalysis :=
  withHeads api repo descriptions fun heads =>
    Handling.use (repo :: heads.map Prod.fst)
      (fun r => .analysed (r.toOption.map GitMergeAnalysis.mk))
      (api.mergeAnalysis (heads.map Prod.snd)) fun r => throwInPull (r.map GitMergeAnalysis.mk)

/-- `GitRepository::Merge`. -/
def merge (repo : Nat) (descriptions : List GitCommitInfo) : Run W Bool :=
  withHeads api repo descriptions fun heads =>
    Handling.use (repo :: heads.map Prod.fst) (fun r => .merged r.isOk)
      (api.merge (heads.map Prod.snd)) fun r => throwInPull (r.map fun _ => true)

/-- `IsTracking`. -/
def isTracking (branches : BranchRepository R) (b : TrackingBranch) : Except Failure Bool :=
  if b.type = .remoteBranch ∨ b.localUpstreamName branches = none then .ok false
  else (b.trackedBranch branches).map Option.isSome

/-- "origin" -/
def origin : NetString := [0x6f, 0x72, 0x69, 0x67, 0x69, 0x6e]

/-- "refs/heads/master" -/
def masterName : NetString :=
  [0x72, 0x65, 0x66, 0x73, 0x2f, 0x68, 0x65, 0x61, 0x64, 0x73, 0x2f,
    0x6d, 0x61, 0x73, 0x74, 0x65, 0x72]

/-- `repo.Remotes->TryGet`; the exception where there is none. -/
def remoteNamed (repo : Nat) (name : Option NetString) : Run W (Nat × R) :=
  Handling.acquireOr (.failure .invalidOperation) [repo] (fun r => .query (gave r))
    (fun w => (GitRemoteCollection.tryGet (api.branches w) name, w)) raisedInPull

/-- The remote of the branch that HEAD is on. -/
def upstreamRemote (repo : Nat) : Run W (Nat × R) := do
  let name ← query [repo] Except.isOk (fun w => (api.head w, w)) fun r => orInvalid r.toOption
  let current : TrackingBranch := ⟨utf8PtrToString name, .localBranch⟩
  query [repo] gaveTrue (fun w => (isTracking (api.branches w) current, w)) requireTrue
  let remoteName ← query [repo] Option.isSome
    (fun w => (current.remoteName (api.branches w), w)) orInvalid
  remoteNamed api repo (some remoteName)

/-- The remote to fetch from: "origin" in an empty repository. -/
def remoteOf (repo : Nat) (initialCheckout : Bool) : Run W (Nat × R) :=
  if !initialCheckout then upstreamRemote api repo else remoteNamed api repo (some origin)

/-- The `try` block that fetches: the heads and the default branch, for a first checkout. -/
def fetchFrom (repo : Nat) (initialCheckout : Bool) (rm : Nat × R) :
    Run W (List Oid × Option NetString) :=
  Action.tryFinally
    (do
      let _ ← Handling.use [rm.1, repo] (fun r => .fetched r.isOk) (api.fetch rm.2) raisedInPull
      if initialCheckout then do
        let heads ← query [rm.1, repo] Except.isOk (api.remoteLs rm.2) throwInPull
        let defaultBranch ← query [rm.1, repo] Except.isOk (api.defaultBranch rm.2) throwInPull
        return (heads, some (utf8PtrToString defaultBranch))
      else return ([], none))
    (Handling.release rm.1 api.free)

/-- The lookup of `heads[0]`, if that is there. -/
def lookFirst (heads : List Oid) (w : W) : Option (Oid × Except Failure Bool) × W :=
  match heads with
  | [] => (none, w)
  | first :: _ => (some (first, (api.lookup first w).1), (api.lookup first w).2)

def foundFirst : Option (Oid × Except Failure Bool) → Bool
  | some (_, found) => gaveTrue found
  | none => false

def firstCommit : Option (Oid × Except Failure Bool) → Except PullException Oid
  | some (first, found) => requireTrue found >>= fun _ => .ok first
  | none => .error .indexOutOfRange

/-- The branch of a first checkout, HEAD on it, and its files. -/
def checkOutFirst (repo : Nat) (heads : List Oid) (defaultBranch : Option NetString) :
    Run W Bool := do
  let commit ← query [repo] foundFirst (lookFirst api heads) firstCommit
  let branch ← Handling.use [repo] (fun r => .branchCreated r.isOk)
    (fun w =>
      match GitBranchCollection.create api.branchApi repo (some (api.references w))
        (some ⟨repo, false, commit⟩) (defaultBranch.getD masterName) with
      | .error e => (.error e, w)
      | .ok (branch, references) => (.ok branch, api.setReferences references w))
    raisedInPull
  let _ ← Handling.use [repo] (fun r => .headRecorded r.isOk)
    (fun w =>
      match branch.recordAsHeadBranch api.branchApi (some (api.references w)) with
      | .error e => (.error e, w)
      | .ok (recorded, references) => (.ok recorded, api.setReferences references w))
    raisedInPull
  Handling.use [repo] (fun r => .checkedOut r.isOk) api.checkoutHead throwInPull
  return true

/-- The merge of what was fetched, and the commit behind it. -/
def mergeFetched (repo : Nat) (commitOnSuccess : Bool) : Run W Bool := do
  let descriptions ← lastFetchResult api repo
  if ← merge api repo descriptions then do
    let conflicts ← Handling.use [repo] (fun r => .conflicts r.toOption)
      (fun w => (api.hasConflicts w, w)) raisedInPull
    if !conflicts && commitOnSuccess then do
      let _ ← Handling.use [repo] (fun r => .committed r.isOk) api.commit raisedInPull
      return true
    else return true
  else return false

/-- `Pull` on the repository it has located. -/
def pullIn (commitOnSuccess : Bool) (repo : Nat) : Run W Bool := do
  let initialCheckout ← Handling.use [repo] .asked (fun w => (api.isEmpty w, w)) .ok
  let rm ← remoteOf api repo initialCheckout
  let (heads, defaultBranch) ← fetchFrom api repo initialCheckout rm
  let descriptions ← lastFetchResult api repo
  let an ← mergeAnalysis api repo descriptions
  if an.isUpToDate then return true
  else if an.isUnborn then
    if !initialCheckout then Action.raise .notImplemented
    else checkOutFirst api repo heads defaultBranch
  else mergeFetched api repo commitOnSuccess

/-- `GitClient::Pull`. -/
def pull (commitOnSuccess : Bool) : Run W Bool := do
  match ← Handling.acquire [] (fun r => .sought r.toOption) api.locate
    fun r => raisedInPull (r.map fun located => if located then some () else none) with
  | none => return false
  | some (repo, _) =>
    Action.tryFinally (pullIn api commitOnSuccess repo) (Handling.release repo api.free)

section Handles

variable {api} {held : List Nat}

theorem keeps_query {δ α : Type} {handles : List Nat} (h : handles ⊆ held) (good : δ → Bool)
    (f : W → δ × W) (check : δ → Except PullException α) :
    Handling.Keeps held (query handles good f check) := Handling.keeps_use h _ f check

theorem keeps_fetchHeadInfos (heads : List FetchHead) :
    Handling.Keeps held (fetchHeadInfos api heads) := by
  induction heads with
  | nil => exact Handling.keeps_pure _
  | cons head heads ih =>
    apply (keeps_query (List.nil_subset _) _ _ _).bind
    intro info
    exact ih.bind fun infos => Handling.keeps_pure _

theorem keeps_lastFetchResult {repo : Nat} (h : repo ∈ held) :
    Handling.Keeps held (lastFetchResult api repo) :=
  (keeps_query (singleton_subset h) _ _ _).bind fun _ => keeps_fetchHeadInfos _

theorem opens_alloc {repo : Nat} (h : repo ∈ held) (info : GitCommitInfo) :
    Handling.Opens held (alloc api repo info) fun head => head.1 :: held :=
  Handling.opens_acquireOr _ (singleton_subset h) _ _ _

/-- The loop ends with these heads open, whatever ended it. -/
theorem allocHeads_open {repo : Nat} (h : repo ∈ held) (descriptions : List GitCommitInfo)
    (heads : List (Nat × AnnotatedSource)) {s : Handling W PullStep}
    (hs : s.Open (heads.reverse.map Prod.fst ++ held)) :
    ∃ loop, ((allocHeads api repo descriptions heads).run s).1 = .ok loop ∧
      ((allocHeads api repo descriptions heads).run s).2.Open
        (loop.1.reverse.map Prod.fst ++ held) := by
  induction descriptions generalizing heads s with
  | nil => exact ⟨(heads, .ok ()), rfl, hs⟩
  | cons info descriptions ih =>
    have halloc := @opens_alloc W R api (heads.reverse.map Prod.fst ++ held) repo
      (List.mem_append_right _ h) info s hs
    cases hrun : (alloc api repo info).run s with
    | mk result s' =>
      rw [hrun] at halloc
      have hattempt : (Action.attempt (alloc api repo info) :
          Run W (Except PullException (Nat × AnnotatedSource))).run s = (.ok result, s') :=
        congrArg (fun run => (Except.ok run.1, run.2)) hrun
      rw [allocHeads, Action.run_bind_ok hattempt]
      cases result with
      | error e => exact ⟨(heads, .error e), rfl, halloc⟩
      | ok head =>
        apply ih (heads ++ [head])
        rw [List.reverse_append]
        exact halloc

theorem goes_freeHeads (heads : List (Nat × AnnotatedSource)) :
    Handling.Goes (heads.map Prod.fst ++ held) (freeHeads api heads) held := by
  induction heads with
  | nil => exact Handling.keeps_pure ()
  | cons head heads ih =>
    exact (Handling.moves_release head.1 api.free).bind fun _ => ih

theorem keeps_withHeads {α : Type} {repo : Nat} (h : repo ∈ held)
    (descriptions : List GitCommitInfo) {f : List (Nat × AnnotatedSource) → Run W α}
    (hf : ∀ heads, Handling.Keeps (heads.reverse.map Prod.fst ++ held) (f heads)) :
    Handling.Keeps held (withHeads api repo descriptions f) := by
  refine Handling.goes_iff.mpr fun s hs => ?_
  obtain ⟨⟨heads, ended⟩, hloop, hopen⟩ :=
    @allocHeads_open W R api held repo h descriptions [] s hs
  have hbody := (Handling.keeps_ofExcept ended).bind fun _ => hf heads
  rw [withHeads, Action.run_bind_ok (Prod.ext hloop rfl)]
  exact Handling.goes_iff.mp (Handling.Goes.tryFinally hbody (goes_freeHeads heads.reverse)) _
    hopen

theorem heads_subset {repo : Nat} (h : repo ∈ held) (heads : List (Nat × AnnotatedSource)) :
    repo :: heads.map Prod.fst ⊆ heads.reverse.map Prod.fst ++ held := by
  refine List.cons_subset.mpr ⟨List.mem_append_right _ h, ?_⟩
  intro head hhead
  rw [List.map_reverse]
  exact List.mem_append_left _ (List.mem_reverse.mpr hhead)

theorem keeps_mergeAnalysis {repo : Nat} (h : repo ∈ held) (descriptions : List GitCommitInfo) :
    Handling.Keeps held (mergeAnalysis api repo descriptions) :=
  keeps_withHeads h descriptions fun heads => Handling.keeps_use (heads_subset h heads) _ _ _

theorem keeps_merge {repo : Nat} (h : repo ∈ held) (descriptions : List GitCommitInfo) :
    Handling.Keeps held (merge api repo descriptions) :=
  keeps_withHeads h descriptions fun heads => Handling.keeps_use (heads_subset h heads) _ _ _

theorem opens_remoteNamed {repo : Nat} (h : repo ∈ held) (name : Option NetString) :
    Handling.Opens held (remoteNamed api repo name) fun rm => rm.1 :: held :=
  Handling.opens_acquireOr _ (singleton_subset h) _ _ _

theorem opens_upstreamRemote {repo : Nat} (h : repo ∈ held) :
    Handling.Opens held (upstreamRemote api repo) fun rm => rm.1 :: held := by
  apply (keeps_query (singleton_subset h) _ _ _).bind
  intro name
  apply (keeps_query (singleton_subset h) _ _ _).bind
  intro _
  apply (keeps_query (singleton_subset h) _ _ _).bind
  intro remoteName
  exact opens_remoteNamed h _

theorem opens_remoteOf {repo : Nat} (h : repo ∈ held) (initialCheckout : Bool) :
    Handling.Opens held (remoteOf api repo initialCheckout) fun rm => rm.1 :: held := by
  cases initialCheckout with
  | false => exact opens_upstreamRemote h
  | true => exact opens_remoteNamed h _

theorem goes_fetchFrom {repo : Nat} (h : repo ∈ held) (initialCheckout : Bool) (rm : Nat × R) :
    Handling.Goes (rm.1 :: held) (fetchFrom api repo initialCheckout rm) held := by
  have hboth : [rm.1, repo] ⊆ rm.1 :: held :=
    List.cons_subset.mpr ⟨List.mem_cons_self, singleton_subset (List.mem_cons_of_mem _ h)⟩
  refine Handling.Goes.tryFinally ?_ (Handling.moves_release rm.1 api.free)
  apply (Handling.keeps_use hboth _ _ _).bind
  intro _
  cases initialCheckout with
  | false => exact Handling.keeps_pure _
  | true =>
    apply (keeps_query hboth _ _ _).bind
    intro heads
    apply (keeps_query hboth _ _ _).bind
    intro defaultBranch
    exact Handling.keeps_pure _

theorem keeps_checkOutFirst {repo : Nat} (h : repo ∈ held) (heads : List Oid)
    (defaultBranch : Option NetString) :
    Handling.Keeps held (checkOutFirst api repo heads defaultBranch) := by
  apply (keeps_query (singleton_subset h) _ _ _).bind
  intro commit
  apply (Handling.keeps_use (singleton_subset h) _ _ _).bind
  intro branch
  apply (Handling.keeps_use (singleton_subset h) _ _ _).bind
  intro _
  apply (Handling.keeps_use (singleton_subset h) _ _ _).bind
  intro _
  exact Handling.keeps_pure _

theorem keeps_mergeFetched {repo : Nat} (h : repo ∈ held) (commitOnSuccess : Bool) :
    Handling.Keeps held (mergeFetched api repo commitOnSuccess) := by
  apply (keeps_lastFetchResult h).bind
  intro descriptions
  apply (keeps_merge h descriptions).bind
  intro merged
  cases merged with
  | false => exact Handling.keeps_pure _
  | true =>
    apply (Handling.keeps_use (singleton_subset h) _ _ _).bind
    intro conflicts
    by_cases hcommit : (!conflicts && commitOnSuccess) = true
    · rw [if_pos hcommit]
      apply (Handling.keeps_use (singleton_subset h) _ _ _).bind
      intro _
      exact Handling.keeps_pure _
    · rw [if_neg hcommit]
      exact Handling.keeps_pure _

theorem keeps_pullIn {repo : Nat} (h : repo ∈ held) (commitOnSuccess : Bool) :
    Handling.Keeps held (pullIn api commitOnSuccess repo) := by
  apply (Handling.keeps_use (singleton_subset h) _ _ _).bind
  intro initialCheckout
  apply (opens_remoteOf h initialCheckout).bind
  intro rm
  apply (goes_fetchFrom h initialCheckout rm).bind
  intro fetched
  apply (keeps_lastFetchResult h).bind
  intro descriptions
  apply (keeps_mergeAnalysis h descriptions).bind
  intro an
  split_ifs
  · exact Handling.keeps_pure true
  · exact fun _ hs => hs
  · exact keeps_checkOutFirst h _ _
  · exact keeps_mergeFetched h commitOnSuccess

theorem keeps_pull (commitOnSuccess : Bool) : Handling.Keeps [] (pull api commitOnSuccess) := by
  apply (Handling.opens_acquire (List.nil_subset _) _ _ _).bind
  intro located
  cases located with
  | none => exact Handling.keeps_pure false
  | some located =>
    exact Handling.Goes.tryFinally (keeps_pullIn List.mem_cons_self commitOnSuccess)
      (Handling.moves_release located.1 api.free)

end Handles

end Pull

/-- The call failed. -/
def PullStep.raised : PullStep → Bool
  | .sought located => located.isNone
  | .asked _ => false
  | .query good => !good
  | .fetched good => !good
  | .annotated _ good => !good
  | .analysed analysis => analysis.isNone
  | .branchCreated good => !good
  | .headRecorded good => !good
  | .checkedOut good => !good
  | .merged good => !good
  | .conflicts found => found.isNone
  | .committed good => !good

/-- How far a pull has come. -/
inductive PullPhase
  | start
  | notLocated
  | opened
  | located (empty : Bool)
  | fetched (empty : Bool)
  | analysed (empty : Bool) (an : GitMergeAnalysis)
  | branchMade
  | headMoved
  | checkedOut
  | merged
  | conflicted
  | clean
  | committed
  | failed
  deriving DecidableEq, Repr

namespace PullPhase

/-- The phase a step leads to, if it may be taken: a merge follows an analysis of what was fetched,
a branch, HEAD and the files are only made in an empty repository, only a merge without conflicts
is committed, and nothing follows a step that raised. -/
def next (commitOnSuccess : Bool) : PullPhase → PullStep → Option PullPhase
  | start, .sought found =>
    some (found.elim failed fun located => if located then opened else notLocated)
  | opened, .asked empty => some (located empty)
  | located empty, .query ok => some (if ok then located empty else failed)
  | located empty, .fetched ok => some (if ok then fetched empty else failed)
  | fetched empty, .query ok => some (if ok then fetched empty else failed)
  | fetched empty, .annotated _ ok => some (if ok then fetched empty else failed)
  | fetched empty, .analysed an => some (an.elim failed (analysed empty))
  | analysed empty an, .query ok =>
    if an.isUpToDate then none else some (if ok then analysed empty an else failed)
  | analysed empty an, .annotated _ ok =>
    if !an.isUnborn && !an.isUpToDate then some (if ok then analysed empty an else failed)
    else none
  | analysed empty an, .branchCreated ok =>
    if empty && an.isUnborn && !an.isUpToDate then some (if ok then branchMade else failed)
    else none
  | branchMade, .headRecorded ok => some (if ok then headMoved else failed)
  | headMoved, .checkedOut ok => some (if ok then checkedOut else failed)
  | analysed _ an, .merged ok =>
    if !an.isUnborn && !an.isUpToDate then some (if ok then merged else failed) else none
  | merged, .conflicts found =>
    some (found.elim failed fun found => if found then conflicted else clean)
  | clean, .committed ok =>
    if commitOnSuccess then some (if ok then committed else failed) else none
  | _, _ => none

/-- Where a pull can end that returns true. -/
def complete (commitOnSuccess : Bool) : PullPhase → Bool
  | analysed _ an => an.isUpToDate
  | checkedOut => true
  | conflicted => true
  | clean => !commitOnSuccess
  | committed => true
  | _ => false

section Raised

variable {commitOnSuccess : Bool} {p q : PullPhase}

theorem next_of_raised {step : PullStep} (hraised : step.raised = true)
    (h : next commitOnSuccess p step = some q) : q = failed := by
  revert h
  unfold next
  split <;> simp_all only [PullStep.raised, Bool.not_eq_true', Option.isNone_iff_eq_none,
    Option.elim_none, Option.some.injEq, reduceCtorEq, Bool.false_eq_true, if_false]
  all_goals try split
  all_goals simp [eq_comm]

/-- A step that raised is the last one. -/
theorem last_of_raised {front back : List PullStep} {step : PullStep}
    (h : (front ++ step :: back).foldlM (next commitOnSuccess) p = some q)
    (hraised : step.raised = true) : back = [] ∧ q = failed := by
  rw [List.foldlM_append] at h
  obtain ⟨before, -, h⟩ := Option.bind_eq_some_iff.mp h
  rw [List.foldlM_cons] at h
  obtain ⟨behind, hstep, h⟩ := Option.bind_eq_some_iff.mp h
  obtain rfl := next_of_raised hraised hstep
  cases back with
  | nil => exact ⟨rfl, (Option.some.inj h).symm⟩
  | cons other back =>
    rw [List.foldlM_cons] at h
    cases h

end Raised

end PullPhase

namespace Pull

section Phases

variable {W R : Type} {api : PullApi W R} {commitOnSuccess : Bool} {p : PullPhase}

/-- The phase that a result leads to. -/
def reached {α : Type} (q : α → PullPhase) : Except PullException α → PullPhase
  | .ok a => q a
  | .error _ => .failed

def Reaches {α : Type} (q : α → PullPhase) (result : Except PullException α) (phase : PullPhase) :
    Prop := phase = reached q result

/-- A call that takes a pull from one phase to the next, or fails. -/
theorem leads_step {δ α : Type} {handles : List Nat} {what : δ → PullStep} {f : W → δ × W}
    {check : δ → Except PullException α} {q : α → PullPhase}
    (h : ∀ r, p.next commitOnSuccess (what r) = some (reached q (check r))) :
    Handling.Leads (PullPhase.next commitOnSuccess) p
      (Handling.use handles what f check : Run W α) (Reaches q) :=
  Handling.leads_use fun r => ⟨_, h r, rfl⟩

/-- The steps that leave a pull where it is, or fail. -/
def Stays (commitOnSuccess : Bool) (p : PullPhase) (step : Bool → PullStep) : Prop :=
  ∀ good, p.next commitOnSuccess (step good) = some (if good then p else .failed)

theorem leads_query {δ α : Type} {handles : List Nat} {good : δ → Bool} {f : W → δ × W}
    {check : δ → Except PullException α} (hquery : Stays commitOnSuccess p .query)
    (hgood : ∀ r, good r = (check r).isOk) :
    Handling.Leads (PullPhase.next commitOnSuccess) p (query handles good f check)
      (Reaches fun _ => p) := by
  apply leads_step
  intro r
  rw [hquery (good r), hgood r]
  cases check r <;> rfl

/-- A call that gets a handle, or fails. -/
theorem leads_handle {ε β α : Type} {e : PullException} {handles : List Nat}
    {step : Bool → PullStep} {f : W → Except ε (Option β) × W}
    {check : Except ε (Option β) → Except PullException (Option α)}
    (hstep : Stays commitOnSuccess p step) (hgave : ∀ r, gave r = gave (check r)) :
    Handling.Leads (PullPhase.next commitOnSuccess) p
      (Handling.acquireOr e handles (fun r => step (gave r)) f check : Run W (Nat × α))
      (Reaches fun _ => p) := by
  apply Handling.leads_acquireOr
  intro r handle
  refine ⟨_, hstep (gave r), ?_⟩
  rw [hgave r]
  cases check r with
  | error e => rfl
  | ok found => cases found <;> rfl

theorem isOk_throwInPull {α : Type} (r : Except Int α) : r.isOk = (throwInPull r).isOk := by
  cases r <;> rfl

theorem gaveTrue_eq (r : Except Failure Bool) : gaveTrue r = (requireTrue r).isOk := by
  cases r with
  | error e => rfl
  | ok found => cases found <;> rfl

theorem foundFirst_eq (r : Option (Oid × Except Failure Bool)) :
    foundFirst r = (firstCommit r).isOk := by
  cases r with
  | none => rfl
  | some first =>
    rw [foundFirst, firstCommit, gaveTrue_eq]
    cases requireTrue first.2 <;> rfl

/-- An exception that is passed on. -/
theorem Reaches.raised {α β : Type} {q : α → PullPhase} {r : β → PullPhase} {e : PullException}
    {phase : PullPhase} (h : Reaches q (.error e) phase) : Reaches r (.error e) phase := h

theorem leads_fetchHeadInfos (hquery : Stays commitOnSuccess p .query) (heads : List FetchHead) :
    Handling.Leads (PullPhase.next commitOnSuccess) p (fetchHeadInfos api heads)
      (Reaches fun _ => p) := by
  induction heads with
  | nil => exact Handling.leads_pure rfl
  | cons head heads ih =>
    have hhead : Handling.Leads (PullPhase.next commitOnSuccess) p (fetchHeadInfo api head)
        (Reaches fun _ => p) := by
      apply leads_query hquery
      intro uri
      cases uri with
      | error e => rfl
      | ok uri =>
        by_cases hname : utf8PtrToString head.refName = []
        · simp [hname, raisedInPull, Except.isOk, Except.toBool, bind, Except.bind, throw,
            throwThe, MonadExceptOf.throw]
        · simp [hname, raisedInPull, Except.isOk, Except.toBool, bind, Except.bind, pure,
            Except.pure]
    apply hhead.bind _ fun _ _ => Reaches.raised
    intro info q hq
    obtain rfl : q = p := hq
    apply ih.bind _ fun _ _ => Reaches.raised
    intro infos q' hq'
    exact Handling.leads_pure hq'

theorem leads_lastFetchResult (hquery : Stays commitOnSuccess p .query) (repo : Nat) :
    Handling.Leads (PullPhase.next commitOnSuccess) p (lastFetchResult api repo)
      (Reaches fun _ => p) := by
  apply (leads_query hquery isOk_throwInPull).bind _ fun _ _ => Reaches.raised
  intro heads q hq
  obtain rfl : q = p := hq
  exact leads_fetchHeadInfos hquery _

/-- The loop takes all its steps, or the last one raised. -/
theorem leads_allocHeads (repo : Nat)
    (hannotated : ∀ source, Stays commitOnSuccess p (.annotated source))
    (descriptions : List GitCommitInfo) (heads : List (Nat × AnnotatedSource)) :
    Handling.Leads (PullPhase.next commitOnSuccess) p (allocHeads api repo descriptions heads)
      fun result phase => ∃ loop, result = .ok loop ∧
        Reaches (fun _ => p) loop.2 phase := by
  induction descriptions generalizing heads with
  | nil => exact Handling.leads_pure ⟨_, rfl, rfl⟩
  | cons info descriptions ih =>
    have halloc : Handling.Leads (PullPhase.next commitOnSuccess) p (alloc api repo info)
        (Reaches fun _ => p) := by
      apply leads_handle (hannotated info.source)
      intro r
      cases r with
      | error r => rfl
      | ok found => cases found <;> rfl
    have hattempt : Handling.Leads (PullPhase.next commitOnSuccess) p
        (Action.attempt (alloc api repo info) :
          Run W (Except PullException (Nat × AnnotatedSource))) _ := halloc.attempt
    apply hattempt.bind
    · intro caught q hq
      obtain ⟨_, heq, hq⟩ := hq
      cases heq
      cases caught with
      | error e => exact Handling.leads_pure ⟨_, rfl, hq⟩
      | ok head =>
        obtain rfl : q = p := hq
        exact ih (heads ++ [head])
    · intro e q hq
      obtain ⟨_, heq, -⟩ := hq
      cases heq

theorem does_freeHeads (heads : List (Nat × AnnotatedSource)) :
    Handling.Does (freeHeads api heads) fun result done => result = .ok () ∧ done = [] := by
  induction heads with
  | nil => exact Handling.does_pure ⟨rfl, rfl⟩
  | cons head heads ih =>
    have hfirst : Handling.Does (Handling.release head.1 api.free : Run W Unit)
        fun result done => result = .ok () ∧ done = [] := Handling.does_release ⟨rfl, rfl⟩
    refine Handling.Does.bind hfirst ?_ ?_
    · intro _ done hdone
      obtain ⟨-, rfl⟩ := hdone
      exact ih
    · intro e done hdone
      cases hdone.1

/-- What is done with the heads is done in the phase of the block. -/
theorem leads_withHeads {α : Type} {repo : Nat} {descriptions : List GitCommitInfo}
    {f : List (Nat × AnnotatedSource) → Run W α} {post : Except PullException α → PullPhase → Prop}
    (hannotated : ∀ source, Stays commitOnSuccess p (.annotated source))
    (hf : ∀ heads, Handling.Leads (PullPhase.next commitOnSuccess) p (f heads) post)
    (herror : ∀ e, post (.error e) .failed) :
    Handling.Leads (PullPhase.next commitOnSuccess) p (withHeads api repo descriptions f) post := by
  apply (leads_allocHeads repo hannotated descriptions []).bind
  · intro loop q hq
    obtain ⟨_, heq, hended⟩ := hq
    cases heq
    refine Handling.Leads.tryFinally ?_ (does_freeHeads _)
    have hentered : Handling.Leads (PullPhase.next commitOnSuccess) q
        (Action.ofExcept loop.2 : Run W Unit) (Reaches fun _ => p) :=
      Handling.leads_ofExcept hended
    apply hentered.bind
    · intro _ r hr
      obtain rfl : r = p := hr
      exact hf loop.1
    · intro e r hr
      obtain rfl : r = .failed := hr
      exact herror e
  · intro e q hq
    obtain ⟨_, heq, -⟩ := hq
    cases heq

theorem leads_mergeAnalysis {empty : Bool} (repo : Nat) (descriptions : List GitCommitInfo) :
    Handling.Leads (PullPhase.next commitOnSuccess) (.fetched empty)
      (mergeAnalysis api repo descriptions) (Reaches (.analysed empty)) := by
  apply leads_withHeads
  · exact fun _ _ => rfl
  · intro heads
    apply leads_step
    intro r
    cases r <;> rfl
  · exact fun _ => rfl

section Analysed

variable {empty : Bool} {an : GitMergeAnalysis}

theorem stays_query (hupToDate : an.isUpToDate = false) :
    Stays commitOnSuccess (.analysed empty an) .query := by
  intro good
  rw [PullPhase.next, hupToDate]
  rfl

theorem next_merging (hunborn : an.isUnborn = false) (hupToDate : an.isUpToDate = false)
    (phase : PullPhase) :
    (if !an.isUnborn && !an.isUpToDate then some phase else none) = some phase := by
  rw [hunborn, hupToDate]
  rfl

theorem leads_merge (hunborn : an.isUnborn = false) (hupToDate : an.isUpToDate = false)
    (repo : Nat) (descriptions : List GitCommitInfo) :
    Handling.Leads (PullPhase.next commitOnSuccess) (.analysed empty an)
      (merge api repo descriptions) fun result phase =>
        result ≠ .ok false ∧ Reaches (fun _ => .merged) result phase := by
  apply leads_withHeads
  · exact fun _ _ => next_merging hunborn hupToDate _
  · intro heads
    apply Handling.leads_use
    intro r
    cases r with
    | ok _ =>
      exact ⟨.merged, next_merging hunborn hupToDate _,
        fun h => Bool.noConfusion (Except.ok.inj h), rfl⟩
    | error r =>
      exact ⟨.failed, next_merging hunborn hupToDate _, by simp [throwInPull, Except.map], rfl⟩
  · exact fun _ => ⟨by simp, rfl⟩

end Analysed

/-- How a pull ends on the repository it has located. -/
def Ends (commitOnSuccess : Bool) (result : Except PullException Bool) (phase : PullPhase) :
    Prop :=
  result ≠ .ok false ∧ phase ≠ .notLocated ∧
    (result = .ok true ↔ phase.complete commitOnSuccess = true)

theorem ends_true (h : p.complete commitOnSuccess = true) : Ends commitOnSuccess (.ok true) p := by
  refine ⟨by decide, ?_, fun _ => h, fun _ => rfl⟩
  rintro rfl
  cases h

theorem ends_error (h : p.complete commitOnSuccess = false) (hlocated : p ≠ .notLocated)
    (e : PullException) : Ends commitOnSuccess (.error e) p := by
  refine ⟨by simp, hlocated, ?_⟩
  rw [h]
  simp

theorem Reaches.ends {α : Type} {q : α → PullPhase} {e : PullException} {phase : PullPhase}
    (h : Reaches q (.error e) phase) : Ends commitOnSuccess (.error e) phase := by
  obtain rfl : phase = .failed := h
  exact ends_error rfl (by decide) e

theorem leads_checkOutFirst {an : GitMergeAnalysis} (hunborn : an.isUnborn = true)
    (hupToDate : an.isUpToDate = false) (repo : Nat) (heads : List Oid)
    (defaultBranch : Option NetString) :
    Handling.Leads (PullPhase.next commitOnSuccess) (.analysed true an)
      (checkOutFirst api repo heads defaultBranch) (Ends commitOnSuccess) := by
  have hbranch {α : Type} (r : Except Failure α) : PullPhase.next commitOnSuccess
      (.analysed true an) (.branchCreated r.isOk) =
        some (reached (fun _ => .branchMade) (raisedInPull r)) := by
    rw [PullPhase.next, hunborn, hupToDate]
    cases r <;> rfl
  apply (leads_query (stays_query hupToDate) foundFirst_eq).bind _ fun _ _ => Reaches.ends
  intro commit q hq
  obtain rfl : q = .analysed true an := hq
  apply (leads_step hbranch).bind _ fun _ _ => Reaches.ends
  intro branch q hq
  obtain rfl : q = .branchMade := hq
  apply (leads_step fun r => by cases r <;> rfl).bind _ fun _ _ => Reaches.ends
  intro _ q hq
  obtain rfl : q = .headMoved := hq
  apply (leads_step fun r => by cases r <;> rfl).bind _ fun _ _ => Reaches.ends
  intro _ q hq
  obtain rfl : q = .checkedOut := hq
  exact Handling.leads_pure (ends_true rfl)

theorem leads_mergeFetched {empty : Bool} {an : GitMergeAnalysis}
    (hunborn : an.isUnborn = false) (hupToDate : an.isUpToDate = false) (repo : Nat) :
    Handling.Leads (PullPhase.next commitOnSuccess) (.analysed empty an)
      (mergeFetched api repo commitOnSuccess) (Ends commitOnSuccess) := by
  apply (leads_lastFetchResult (stays_query hupToDate) repo).bind _ fun _ _ => Reaches.ends
  intro descriptions q hq
  obtain rfl : q = .analysed empty an := hq
  apply (leads_merge hunborn hupToDate repo descriptions).bind _ fun _ _ h => h.2.ends
  intro merged q hq
  obtain ⟨htrue, rfl⟩ : _ ∧ q = .merged := hq
  cases merged with
  | false => exact absurd rfl htrue
  | true =>
    apply (leads_step fun r => by cases r <;> rfl).bind _ fun _ _ => Reaches.ends
    intro conflicts q hq
    cases conflicts with
    | true =>
      obtain rfl : q = .conflicted := hq
      exact Handling.leads_pure (ends_true rfl)
    | false =>
      obtain rfl : q = .clean := hq
      cases commitOnSuccess with
      | false => exact Handling.leads_pure (ends_true rfl)
      | true =>
        apply (leads_step fun r => by cases r <;> rfl).bind _ fun _ _ => Reaches.ends
        intro _ q hq
        obtain rfl : q = .committed := hq
        exact Handling.leads_pure (ends_true rfl)

theorem leads_remoteNamed {empty : Bool} (repo : Nat) (name : Option NetString) :
    Handling.Leads (PullPhase.next commitOnSuccess) (.located empty) (remoteNamed api repo name)
      (Reaches fun _ => .located empty) :=
  leads_handle (fun _ => rfl) fun r => by cases r <;> rfl

theorem leads_remoteOf (repo : Nat) (initialCheckout : Bool) :
    Handling.Leads (PullPhase.next commitOnSuccess) (.located initialCheckout)
      (remoteOf api repo initialCheckout) (Reaches fun _ => .located initialCheckout) := by
  cases initialCheckout with
  | true => exact leads_remoteNamed repo _
  | false =>
    have hquery : Stays commitOnSuccess (.located false) .query := fun _ => rfl
    apply (leads_query hquery fun r => by cases r <;> rfl).bind _ fun _ _ => Reaches.raised
    intro name q hq
    obtain rfl : q = .located false := hq
    apply (leads_query hquery gaveTrue_eq).bind _ fun _ _ => Reaches.raised
    intro _ q hq
    obtain rfl : q = .located false := hq
    apply (leads_query hquery fun r => by cases r <;> rfl).bind _ fun _ _ => Reaches.raised
    intro remoteName q hq
    obtain rfl : q = .located false := hq
    exact leads_remoteNamed repo _

theorem leads_fetchFrom (repo : Nat) (initialCheckout : Bool) (rm : Nat × R) :
    Handling.Leads (PullPhase.next commitOnSuccess) (.located initialCheckout)
      (fetchFrom api repo initialCheckout rm) (Reaches fun _ => .fetched initialCheckout) := by
  refine Handling.Leads.tryFinally ?_ (Handling.does_release ⟨rfl, rfl⟩)
  apply (leads_step fun r => by cases r <;> rfl).bind _ fun _ _ => Reaches.raised
  intro _ q hq
  obtain rfl : q = .fetched initialCheckout := hq
  cases initialCheckout with
  | false => exact Handling.leads_pure rfl
  | true =>
    have hquery : Stays commitOnSuccess (.fetched true) .query := fun _ => rfl
    apply (leads_query hquery isOk_throwInPull).bind _ fun _ _ => Reaches.raised
    intro heads q hq
    obtain rfl : q = .fetched true := hq
    apply (leads_query hquery isOk_throwInPull).bind _ fun _ _ => Reaches.raised
    intro defaultBranch q hq
    obtain rfl : q = .fetched true := hq
    exact Handling.leads_pure rfl

theorem leads_pullIn (repo : Nat) :
    Handling.Leads (PullPhase.next commitOnSuccess) .opened (pullIn api commitOnSuccess repo)
      (Ends commitOnSuccess) := by
  have hasked : Handling.Leads (PullPhase.next commitOnSuccess) .opened
      (Handling.use [repo] .asked (fun w => (api.isEmpty w, w)) .ok : Run W Bool)
      (Reaches .located) := leads_step fun _ => rfl
  apply hasked.bind _ fun _ _ => Reaches.ends
  intro initialCheckout q hq
  obtain rfl : q = .located initialCheckout := hq
  apply (leads_remoteOf repo initialCheckout).bind _ fun _ _ => Reaches.ends
  intro rm q hq
  obtain rfl : q = .located initialCheckout := hq
  apply (leads_fetchFrom repo initialCheckout rm).bind _ fun _ _ => Reaches.ends
  intro fetched q hq
  obtain rfl : q = .fetched initialCheckout := hq
  apply (leads_lastFetchResult (fun _ => rfl) repo).bind _ fun _ _ => Reaches.ends
  intro descriptions q hq
  obtain rfl : q = .fetched initialCheckout := hq
  apply (leads_mergeAnalysis repo descriptions).bind _ fun _ _ => Reaches.ends
  intro an q hq
  obtain rfl : q = .analysed initialCheckout an := hq
  cases hupToDate : an.isUpToDate with
  | true => exact Handling.leads_pure (@ends_true commitOnSuccess (.analysed _ an) hupToDate)
  | false =>
    cases hunborn : an.isUnborn with
    | false => exact leads_mergeFetched hunborn hupToDate repo
    | true =>
      cases initialCheckout with
      | false =>
        exact Handling.leads_raise
          (@ends_error commitOnSuccess (.analysed _ an) hupToDate (by simp) _)
      | true => exact leads_checkOutFirst hunborn hupToDate repo _ _

/-- A pull that locates nothing has done nothing else. -/
theorem leads_pull :
    Handling.Leads (PullPhase.next commitOnSuccess) .start (pull api commitOnSuccess)
      fun result phase => (result = .ok false ↔ phase = .notLocated) ∧
        (result = .ok true ↔ phase.complete commitOnSuccess = true) := by
  have hsought : Handling.Leads (PullPhase.next commitOnSuccess) .start
      (Handling.acquire [] (fun r => .sought r.toOption) api.locate
        fun r => raisedInPull (r.map fun located => if located then some () else none) :
        Run W (Option (Nat × Unit)))
      (Reaches fun located => if located.isSome then .opened else .notLocated) := by
    apply Handling.leads_acquire
    intro r handle
    cases r with
    | error e => exact ⟨.failed, rfl, rfl⟩
    | ok located =>
      cases located with
      | false => exact ⟨.notLocated, rfl, rfl⟩
      | true => exact ⟨.opened, rfl, rfl⟩
  apply hsought.bind
  · intro located q hq
    cases located with
    | none =>
      obtain rfl : q = .notLocated := hq
      exact Handling.leads_pure ⟨by simp, by simp [PullPhase.complete]⟩
    | some located =>
      obtain rfl : q = .opened := hq
      refine Handling.Leads.tryFinally ?_ (Handling.does_release ⟨rfl, rfl⟩)
      refine (leads_pullIn located.1).mono ?_
      intro result done hdone
      obtain ⟨phase, hphase, hnot, hlocated, hends⟩ := hdone
      exact ⟨phase, hphase, iff_of_false hnot hlocated, hends⟩
  · intro e q hq
    obtain rfl : q = .failed := hq
    exact ⟨by simp, by simp [PullPhase.complete]⟩

end Phases

variable {W R : Type}

/-- Whatever libgit2 answers and whatever raises: the repository, the remote and the annotated
commits are closed once, and not used behind that; the steps are taken in their order, and the
pull returns true iff they are complete; a step that raised is the last one, and then the pull
raises. -/
theorem pull_ordered (api : PullApi W R) (commitOnSuccess : Bool) (world : W) :
    let run := (pull api commitOnSuccess).run ⟨world, 0, []⟩
    let done := run.2.log.filterMap HandleEvent.what
    HandleEvent.openAfter run.2.log = some [] ∧
    (∃ phase, done.foldlM (PullPhase.next commitOnSuccess) .start = some phase ∧
      (run.1 = .ok false ↔ phase = .notLocated) ∧
      (run.1 = .ok true ↔ phase.complete commitOnSuccess = true)) ∧
    ∀ front step back, done = front ++ step :: back → step.raised = true →
      back = [] ∧ ∃ e, run.1 = .error e := by
  intro run done
  have hstart : Handling.Open [] (⟨world, 0, []⟩ : Handling W PullStep) := by
    refine ⟨rfl, ?_⟩
    intro handle h
    cases h
  have hleads : Handling.Leads (PullPhase.next commitOnSuccess) .start (pull api commitOnSuccess)
    _ := leads_pull
  obtain ⟨new, hlog, phase, hphase, hfalse, htrue⟩ := hleads ⟨world, 0, []⟩
  obtain rfl : run.2.log = new := hlog.trans (List.nil_append _)
  refine ⟨(Handling.goes_iff.mp (keeps_pull commitOnSuccess) _ hstart).after,
    ⟨phase, hphase, hfalse, htrue⟩, ?_⟩
  intro front step back hdone hraised
  change done.foldlM _ _ = _ at hphase
  rw [hdone] at hphase
  obtain ⟨hback, rfl⟩ := PullPhase.last_of_raised hphase hraised
  refine ⟨hback, ?_⟩
  cases hrun : run.1 with
  | error e => exact ⟨e, rfl⟩
  | ok returned =>
    cases returned with
    | false => cases hfalse.mp hrun
    | true => cases htrue.mp hrun

section Heads

variable {api : PullApi W R}

/-- What `Alloc` and the check for null make of an answer. -/
def annotatedCheck (r : Except Int (Option Unit)) : Except PullException Unit :=
  Handling.orRaise (.failure .invalidOperation) (throwInPull r)

/-- Every description gets its annotated commit, one after the other. -/
inductive Annotates (api : PullApi W R) : W → List GitCommitInfo → W → Prop
  | nil (w : W) : Annotates api w [] w
  | cons {w w' w'' : W} {info : GitCommitInfo} {descriptions : List GitCommitInfo}
      (hhad : api.annotated info.source w = (.ok (some ()), w'))
      (hrest : Annotates api w' descriptions w'') : Annotates api w (info :: descriptions) w''

/-- The heads of these descriptions, opened one after the other. -/
def headsFrom : Nat → List GitCommitInfo → List (Nat × AnnotatedSource)
  | _, [] => []
  | next, info :: descriptions => (next, info.source) :: headsFrom (next + 1) descriptions

/-- What is written down while these heads are opened. -/
def openings (repo : Nat) (heads : List (Nat × AnnotatedSource)) : List (HandleEvent PullStep) :=
  heads.flatMap fun head => [.used [repo] (.annotated head.2 true), .opened head.1]

theorem headsFrom_sources (next : Nat) (descriptions : List GitCommitInfo) :
    (headsFrom next descriptions).map Prod.snd = descriptions.map GitCommitInfo.source := by
  induction descriptions generalizing next with
  | nil => rfl
  | cons info descriptions ih => rw [headsFrom, List.map_cons, List.map_cons, ih]

theorem annotatedCheck_ok {r : Except Int (Option Unit)} (h : annotatedCheck r = .ok ()) :
    r = .ok (some ()) := by
  cases r with
  | error r => cases h
  | ok found =>
    cases found with
    | none => cases h
    | some found => rfl

theorem annotatedCheck_error {r : Except Int (Option Unit)} {e : PullException}
    (h : annotatedCheck r = .error e) : gave r = false ∧ ∀ source : AnnotatedSource,
      Handling.orRaise (.failure .invalidOperation)
        (throwInPull (r.map (Option.map fun _ => source))) = .error e := by
  cases r with
  | error r =>
    cases h
    exact ⟨rfl, fun _ => rfl⟩
  | ok found =>
    cases found with
    | none =>
      cases h
      exact ⟨rfl, fun _ => rfl⟩
    | some found => cases h

theorem run_alloc_ok {repo : Nat} {info : GitCommitInfo} {s : Handling W PullStep} {w : W}
    (h : api.annotated info.source s.world = (.ok (some ()), w)) :
    (alloc api repo info).run s = (.ok (s.next, info.source), ⟨w, s.next + 1,
      s.log ++ [.used [repo] (.annotated info.source true), .opened s.next]⟩) := by
  have hcheck : throwInPull ((api.annotated info.source s.world).1.map
      (Option.map fun _ => info.source)) = .ok (some info.source) := by
    rw [h]
    rfl
  refine (Handling.run_acquireOr_ok hcheck).trans ?_
  rw [h]
  rfl

theorem run_alloc_error {repo : Nat} {info : GitCommitInfo} {s : Handling W PullStep}
    {e : PullException}
    (h : annotatedCheck (api.annotated info.source s.world).1 = .error e) :
    (alloc api repo info).run s = (.error e, ⟨(api.annotated info.source s.world).2, s.next,
      s.log ++ [.used [repo] (.annotated info.source false)]⟩) := by
  obtain ⟨hgave, hraised⟩ := annotatedCheck_error h
  refine (Handling.run_acquireOr_error (hraised info.source)).trans ?_
  rw [hgave]

/-- The loop: descriptions that get their annotated commit, and then nothing more, or one that
does not. -/
theorem allocHeads_made (repo : Nat) (descriptions : List GitCommitInfo)
    (heads : List (Nat × AnnotatedSource)) (s : Handling W PullStep) :
    (∃ w, Annotates api s.world descriptions w ∧
      (allocHeads api repo descriptions heads).run s =
        (.ok (heads ++ headsFrom s.next descriptions, .ok ()),
          ⟨w, s.next + descriptions.length,
            s.log ++ openings repo (headsFrom s.next descriptions)⟩)) ∨
    ∃ made info rest w e w', descriptions = made ++ info :: rest ∧
      Annotates api s.world made w ∧
      annotatedCheck (api.annotated info.source w).1 = .error e ∧
      (allocHeads api repo descriptions heads).run s =
        (.ok (heads ++ headsFrom s.next made, .error e), ⟨w', s.next + made.length,
          s.log ++ openings repo (headsFrom s.next made) ++
            [.used [repo] (.annotated info.source false)]⟩) := by
  induction descriptions generalizing heads s with
  | nil => exact .inl ⟨s.world, .nil _, by simp [allocHeads, headsFrom, openings]⟩
  | cons info descriptions ih =>
    have hattempt : (Action.attempt (alloc api repo info) :
        Run W (Except PullException (Nat × AnnotatedSource))).run s =
          (.ok ((alloc api repo info).run s).1, ((alloc api repo info).run s).2) := rfl
    cases hcheck : annotatedCheck (api.annotated info.source s.world).1 with
    | error e =>
      rw [run_alloc_error hcheck] at hattempt
      refine .inr ⟨[], info, descriptions, s.world, e,
        (api.annotated info.source s.world).2, rfl, .nil _, hcheck, ?_⟩
      rw [allocHeads, Action.run_bind_ok hattempt]
      simp [headsFrom, openings]
    | ok _ =>
      have hhad : api.annotated info.source s.world =
          (.ok (some ()), (api.annotated info.source s.world).2) :=
        Prod.ext (annotatedCheck_ok hcheck) rfl
      rw [run_alloc_ok hhad] at hattempt
      have hcount (n : Nat) : s.next + 1 + n = s.next + (n + 1) := by omega
      have hopened (more : List (Nat × AnnotatedSource)) :
          s.log ++ [.used [repo] (.annotated info.source true), .opened s.next] ++
            openings repo more = s.log ++ openings repo ((s.next, info.source) :: more) := by
        rw [List.append_assoc]
        rfl
      obtain ⟨w', hrest, hrun⟩ | ⟨made, other, rest, w', e, w'', hsplit, hmade, hcheck, hrun⟩ :=
        ih (heads ++ [(s.next, info.source)]) ⟨(api.annotated info.source s.world).2, s.next + 1,
          s.log ++ [.used [repo] (.annotated info.source true), .opened s.next]⟩
      · refine .inl ⟨w', .cons hhad hrest, ?_⟩
        rw [allocHeads, Action.run_bind_ok hattempt]
        refine hrun.trans ?_
        dsimp only
        rw [hcount, hopened, List.append_assoc]
        rfl
      · refine .inr ⟨info :: made, other, rest, w', e, w'', by rw [hsplit, List.cons_append],
          .cons hhad hmade, hcheck, ?_⟩
        rw [allocHeads, Action.run_bind_ok hattempt]
        refine hrun.trans ?_
        dsimp only
        rw [hcount, hopened, List.append_assoc]
        rfl

theorem freeHeads_closes (heads : List (Nat × AnnotatedSource)) (s : Handling W PullStep) :
    ∃ w, (freeHeads api heads).run s =
      (.ok (), ⟨w, s.next, s.log ++ heads.map fun head => .closed head.1⟩) := by
  induction heads generalizing s with
  | nil => exact ⟨s.world, by simp [freeHeads]⟩
  | cons head heads ih =>
    obtain ⟨w, hrest⟩ := ih ⟨api.free s.world, s.next, s.log ++ [.closed head.1]⟩
    refine ⟨w, ?_⟩
    rw [freeHeads, Action.run_bind_ok rfl]
    refine hrest.trans ?_
    rw [List.append_assoc]
    rfl

/-- The result of the block and the events behind those of the loop. -/
theorem run_freeing {α : Type} (body : Run W α) (heads : List (Nat × AnnotatedSource))
    (s : Handling W PullStep) :
    ((Action.tryFinally body (freeHeads api heads)).run s).1 = (body.run s).1 ∧
      ((Action.tryFinally body (freeHeads api heads)).run s).2.log =
        (body.run s).2.log ++ heads.map fun head => .closed head.1 := by
  obtain ⟨w, hfree⟩ := @freeHeads_closes W R api heads (body.run s).2
  unfold Action.tryFinally
  dsimp only
  rw [hfree]
  exact ⟨rfl, rfl⟩

/-- `git_annotated_commit_*` is asked for the descriptions in order until one cannot be had, which
raises; only with all of them is `git_merge` called, with all of them; and all that were had are
freed, from the last. -/
theorem merge_events (api : PullApi W R) (repo : Nat) (descriptions : List GitCommitInfo)
    (s : Handling W PullStep) :
    let run := (merge api repo descriptions).run s
    let freed (heads : List (Nat × AnnotatedSource)) : List (HandleEvent PullStep) :=
      heads.reverse.map fun head => .closed head.1
    (∃ w, Annotates api s.world descriptions w ∧
      run.1 = throwInPull ((api.merge (descriptions.map GitCommitInfo.source) w).1.map
        fun _ => true) ∧
      run.2.log = s.log ++ openings repo (headsFrom s.next descriptions) ++
        [.used (repo :: (headsFrom s.next descriptions).map Prod.fst)
          (.merged (api.merge (descriptions.map GitCommitInfo.source) w).1.isOk)] ++
        freed (headsFrom s.next descriptions)) ∨
    ∃ made info rest w e, descriptions = made ++ info :: rest ∧ Annotates api s.world made w ∧
      annotatedCheck (api.annotated info.source w).1 = .error e ∧ run.1 = .error e ∧
      run.2.log = s.log ++ openings repo (headsFrom s.next made) ++
        [.used [repo] (.annotated info.source false)] ++ freed (headsFrom s.next made) := by
  intro run freed
  obtain ⟨w, hall, hloop⟩ | ⟨made, info, rest, w, e, w', hsplit, hmade, hcheck, hloop⟩ :=
    @allocHeads_made W R api repo descriptions [] s
  · have hrun : run = _ := Action.run_bind_ok hloop _
    obtain ⟨hresult, hlog⟩ := @run_freeing W R api Bool (Action.ofExcept (.ok ()) >>= fun _ =>
      Handling.use (repo :: (headsFrom s.next descriptions).map Prod.fst) (fun r => .merged r.isOk)
        (api.merge ((headsFrom s.next descriptions).map Prod.snd))
        fun r => throwInPull (r.map fun _ => true))
      (headsFrom s.next descriptions).reverse
      ⟨w, s.next + descriptions.length, s.log ++ openings repo (headsFrom s.next descriptions)⟩
    refine .inl ⟨w, hall, ?_⟩
    rw [hrun, ← headsFrom_sources s.next descriptions]
    exact ⟨hresult, hlog⟩
  · have hrun : run = _ := Action.run_bind_ok hloop _
    obtain ⟨hresult, hlog⟩ := @run_freeing W R api Bool (Action.ofExcept (.error e) >>= fun _ =>
      Handling.use (repo :: (headsFrom s.next made).map Prod.fst) (fun r => .merged r.isOk)
        (api.merge ((headsFrom s.next made).map Prod.snd))
        fun r => throwInPull (r.map fun _ => true))
      (headsFrom s.next made).reverse ⟨w', s.next + made.length,
        s.log ++ openings repo (headsFrom s.next made) ++
          [.used [repo] (.annotated info.source false)]⟩
    refine .inr ⟨made, info, rest, w, e, hsplit, hmade, hcheck, ?_⟩
    rw [hrun]
    exact ⟨hresult, hlog⟩

end Heads

end Pull

end SharpGit.GitClient
