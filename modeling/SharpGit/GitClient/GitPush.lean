import Mathlib.Data.List.AList
import Mathlib.Data.List.Forall2
import SharpGit.Library.Grouping
import SharpGit.Plumbing.GitBranchTracking

namespace SharpGit.GitClient

open Library Native Implementation Plumbing

inductive PushException (E : Type)
  | failure (f : Failure)
  | duplicateKey
  | keyNotFound
  | push (e : E)
  deriving DecidableEq, Repr

abbrev Dictionary (V : Type) := AList fun _ : NetString => V

variable {R E W : Type}

/-- The exceptions that the branches and the remotes raise. -/
def raised {α : Type} (x : Except Failure α) : Except (PushException E) α :=
  x.mapError PushException.failure

/-- `Dictionary::Add`. -/
def Dictionary.add {V : Type} (d : Dictionary V) (name : NetString) (v : V) :
    Except (PushException E) (Dictionary V) :=
  if name ∈ d then .error .duplicateKey else .ok (d.insert name v)

/-- The local variables of the first loop. `refSpecs` has references to the lists, by number. -/
structure Collected (R : Type) where
  remotes : Dictionary R
  refSpecs : Dictionary Nat
  lists : List (List GitRefSpec)

namespace Collected

def start : Collected R := ⟨∅, ∅, []⟩

/-- The list of a remote, which is looked up when its name comes for the first time. -/
def listFor (repo : BranchRepository R) (c : Collected R) (name : NetString) :
    Except (PushException E) (Collected R × Nat) :=
  if name ∉ c.remotes then do
    match ← raised (GitRemoteCollection.tryGet repo (some name)) with
    | some rm =>
      let remotes ← c.remotes.add name rm
      let refSpecs ← c.refSpecs.add name c.lists.length
      return (⟨remotes, refSpecs, c.lists ++ [[]]⟩, c.lists.length)
    | none => .error (.failure .invalidOperation)
  else
    match c.refSpecs.lookup name with
    | some rs => .ok (c, rs)
    | none => .error .keyNotFound

/-- A turn of the first loop. -/
def collect (repo : BranchRepository R) (c : Collected R) (b : TrackingBranch) :
    Except (PushException E) (Collected R) := do
  match ← raised (b.trackedBranch repo) with
  | none => return c
  | some tracked =>
    match tracked.remoteName repo with
    | none => .error (.failure (.argumentNull "key"))
    | some name =>
      let (c, rs) ← c.listFor repo name
      let spec ← raised (b.asRefSpec repo)
      return { c with lists := c.lists.modify rs (· ++ [spec]) }

def collectAll (repo : BranchRepository R) : List TrackingBranch → Collected R →
    Except (PushException E) (Collected R)
  | [], c => .ok c
  | b :: branches, c => do
    let c ← c.collect repo b
    collectAll repo branches c

end Collected

/-- A call of `GitRemote::Push` and how it has ended. -/
structure PushCall (R E : Type) where
  remote : R
  specs : List GitRefSpec
  outcome : Except E Bool

/-- What the calls have been so far, and whatever else they change. -/
structure Pushes (W R E : Type) where
  world : W
  calls : List (PushCall R E)

/-- `GitRemote::Push` of the remote, as `push` says that it ends. -/
def callPush (push : R → List GitRefSpec → W → Except E Bool × W) (rm : R)
    (specs : List GitRefSpec) : Action (Pushes W R E) (PushException E) Bool :=
  ⟨fun s =>
    let (outcome, world) := push rm specs s.world
    (outcome.mapError PushException.push, ⟨world, s.calls ++ [⟨rm, specs, outcome⟩]⟩)⟩

/-- The second loop: the list is looked up by the name of the remote. -/
def pushRemotes (repo : BranchRepository R)
    (push : R → List GitRefSpec → W → Except E Bool × W) (c : Collected R) :
    List R → Action (Pushes W R E) (PushException E) Bool
  | [] => return true
  | rm :: rest => do
    match (c.refSpecs.lookup (repo.nameOf rm)).bind (c.lists[·]?) with
    | none => Action.raise .keyNotFound
    | some specs =>
      let _ ← callPush push rm specs
      pushRemotes repo push c rest

/-- `PushAll`; `order` are the values of a dictionary as it enumerates them. -/
def pushAll (repo : BranchRepository R) (order : Dictionary R → List R)
    (push : R → List GitRefSpec → W → Except E Bool × W) :
    Action (Pushes W R E) (PushException E) Bool := do
  let c ← Action.ofExcept (Collected.collectAll repo repo.enumerate .start)
  pushRemotes repo push c (order c.remotes)

section Due

variable (repo : BranchRepository R)

/-- The remote that a branch is pushed to. -/
def trackedRemote (b : TrackingBranch) : Option NetString :=
  match b.trackedBranch repo with
  | .ok (some tracked) => tracked.remoteName repo
  | _ => none

/-- From the name of the branch to its upstream name. -/
def IsSpecOf (b : TrackingBranch) (spec : GitRefSpec) : Prop :=
  ∃ destination, b.remoteUpstreamName repo = .ok (some destination) ∧
    GitRefSpec.ofNames (some b.name) (some destination) = .ok spec

/-- The branch tracks nothing, or has a remote and an upstream name. -/
def Pushable (b : TrackingBranch) : Prop :=
  b.trackedBranch repo = .ok none ∨ ∃ tracked name destination,
    b.trackedBranch repo = .ok (some tracked) ∧ tracked.remoteName repo = some name ∧
      b.remoteUpstreamName repo = .ok (some destination)

/-- A branch of these tracks the remote. -/
def Tracked (branches : List TrackingBranch) (name : NetString) : Prop :=
  ∃ b ∈ branches, trackedRemote repo b = some name

def Found (name : NetString) : Prop :=
  ∃ rm, GitRemoteCollection.tryGet repo (some name) = .ok (some rm)

/-- The calls that are due: one for every remote that is tracked, with a refspec for each branch
that tracks it, in the order of the branches. -/
structure Plan (branches : List TrackingBranch) (plan : List (R × List GitRefSpec)) : Prop where
  distinct : (plan.map fun call => repo.nameOf call.1).Nodup
  remotes : ∀ name, name ∈ plan.map (fun call => repo.nameOf call.1) ↔
    Tracked repo branches name
  found : ∀ call ∈ plan,
    GitRemoteCollection.tryGet repo (some (repo.nameOf call.1)) = .ok (some call.1)
  specs : ∀ call ∈ plan,
    List.Forall₂ (IsSpecOf repo) (group (trackedRemote repo) (repo.nameOf call.1) branches) call.2
  partition : (plan.flatMap fun call =>
      group (trackedRemote repo) (repo.nameOf call.1) branches).Perm
    (keyed (trackedRemote repo) branches)

end Due

def PushCall.target (call : PushCall R E) : R × List GitRefSpec := (call.remote, call.specs)

def PushCall.Returned (call : PushCall R E) : Prop := ∃ pushed, call.outcome = .ok pushed

/-- All calls of the plan are made, or those up to the first that raises. -/
inductive Makes (plan : List (R × List GitRefSpec)) :
    Except (PushException E) Bool → List (PushCall R E) → Prop
  | all (calls : List (PushCall R E)) (hplan : calls.map PushCall.target = plan)
      (hreturn : ∀ call ∈ calls, call.Returned) : Makes plan (.ok true) calls
  | raises (done : List (PushCall R E)) (last : PushCall R E) (e : E)
      (hplan : (done ++ [last]).map PushCall.target <+: plan)
      (hreturn : ∀ call ∈ done, call.Returned)
      (hlast : last.outcome = .error e) : Makes plan (.error (.push e)) (done ++ [last])

/-- What has been collected for the branches that are done, with a list for each known remote. -/
structure Collects (repo : BranchRepository R) (done : List TrackingBranch)
    (known : NetString → Prop) (c : Collected R) : Prop where
  keys : ∀ name, name ∈ c.remotes ↔ known name
  inStep : ∀ name, name ∈ c.refSpecs ↔ known name
  remotes : ∀ name rm, c.remotes.lookup name = some rm →
    GitRemoteCollection.tryGet repo (some name) = .ok (some rm) ∧ repo.nameOf rm = name
  lists : ∀ name rs, c.refSpecs.lookup name = some rs → ∃ specs, c.lists[rs]? = some specs ∧
    List.Forall₂ (IsSpecOf repo) (group (trackedRemote repo) name done) specs
  distinct : ∀ name name' rs, c.refSpecs.lookup name = some rs →
    c.refSpecs.lookup name' = some rs → name = name'

theorem Dictionary.add_new {V : Type} {d : Dictionary V} {name : NetString} (h : name ∉ d) (v : V) :
    d.add name v = (.ok (d.insert name v) : Except (PushException E) (Dictionary V)) := by
  rw [Dictionary.add, if_neg h]

theorem lookup_insert_cases {V : Type} {d : Dictionary V} {name key : NetString} {v w : V}
    (h : (d.insert name v).lookup key = some w) :
    (key = name ∧ w = v) ∨ (key ≠ name ∧ d.lookup key = some w) := by
  by_cases hkey : key = name
  · subst hkey
    rw [AList.lookup_insert] at h
    exact .inl ⟨rfl, (Option.some.inj h).symm⟩
  · rw [AList.lookup_insert_ne hkey] at h
    exact .inr ⟨hkey, h⟩

section Collect

variable {repo : BranchRepository R} {done : List TrackingBranch} {known : NetString → Prop}
  {c : Collected R}

theorem Collects.start : Collects repo [] (fun _ => False) (Collected.start : Collected R) where
  keys name := by simp [Collected.start]
  inStep name := by simp [Collected.start]
  remotes name rm h := by simp [Collected.start] at h
  lists name rs h := by simp [Collected.start] at h
  distinct name name' rs h := by simp [Collected.start] at h

/-- A list that is there has a place among the lists. -/
theorem Collects.lt (h : Collects repo done known c) {name : NetString} {rs : Nat}
    (hlookup : c.refSpecs.lookup name = some rs) : rs < c.lists.length := by
  obtain ⟨specs, hspecs, -⟩ := h.lists name rs hlookup
  exact (List.getElem?_eq_some_iff.mp hspecs).1

/-- A remote that is new gets an empty list. -/
theorem Collects.insert (h : Collects repo done known c) {name : NetString} {rm : R}
    (hnew : ¬known name) (hnone : ∀ b ∈ done, trackedRemote repo b ≠ some name)
    (hfound : GitRemoteCollection.tryGet repo (some name) = .ok (some rm))
    (hname : repo.nameOf rm = name) :
    Collects repo done (fun key => key = name ∨ known key)
      ⟨c.remotes.insert name rm, c.refSpecs.insert name c.lists.length, c.lists ++ [[]]⟩ where
  keys key := by rw [AList.mem_insert, h.keys]
  inStep key := by rw [AList.mem_insert, h.inStep]
  remotes key rm' hlookup := by
    obtain ⟨rfl, rfl⟩ | ⟨-, hlookup⟩ := lookup_insert_cases hlookup
    · exact ⟨hfound, hname⟩
    · exact h.remotes key rm' hlookup
  lists key rs hlookup := by
    obtain ⟨rfl, rfl⟩ | ⟨-, hlookup⟩ := lookup_insert_cases hlookup
    · refine ⟨[], by simp, ?_⟩
      rw [group_eq_nil hnone]
      exact List.Forall₂.nil
    · obtain ⟨specs, hspecs, hall⟩ := h.lists key rs hlookup
      exact ⟨specs, by rw [List.getElem?_append_left (h.lt hlookup), hspecs], hall⟩
  distinct key key' rs hlookup hlookup' := by
    obtain ⟨rfl, rfl⟩ | ⟨-, hlookup⟩ := lookup_insert_cases hlookup
    · obtain ⟨rfl, -⟩ | ⟨-, hlookup'⟩ := lookup_insert_cases hlookup'
      · rfl
      · exact absurd (h.lt hlookup') (Nat.lt_irrefl _)
    · obtain ⟨-, rfl⟩ | ⟨-, hlookup'⟩ := lookup_insert_cases hlookup'
      · exact absurd (h.lt hlookup) (Nat.lt_irrefl _)
      · exact h.distinct key key' rs hlookup hlookup'

/-- Of a remote that can be looked up, `listFor` gives the list. -/
theorem Collects.listFor (h : Collects repo done known c)
    (hknown : ∀ name, known name ↔ Tracked repo done name)
    {name : NetString} {rm : R}
    (hfound : GitRemoteCollection.tryGet repo (some name) = .ok (some rm))
    (hname : repo.nameOf rm = name) :
    ∃ c' rs, c.listFor repo name = (.ok (c', rs) : Except (PushException E) _) ∧
      c'.refSpecs.lookup name = some rs ∧
      Collects repo done (fun key => key = name ∨ known key) c' := by
  by_cases hmem : known name
  · have hsome := AList.lookup_isSome.mpr ((h.inStep name).mpr hmem)
    obtain ⟨rs, hrs⟩ := Option.isSome_iff_exists.mp hsome
    have hsame : (fun key => key = name ∨ known key) = known := by
      funext key
      apply propext
      constructor
      · rintro (rfl | hkey)
        · exact hmem
        · exact hkey
      · exact .inr
    refine ⟨c, rs, ?_, hrs, ?_⟩
    · rw [Collected.listFor, if_neg (not_not.mpr ((h.keys name).mpr hmem)), hrs]
    · rw [hsame]
      exact h
  · have hnone : ∀ b ∈ done, trackedRemote repo b ≠ some name :=
      fun b hb hb' => hmem ((hknown name).mpr ⟨b, hb, hb'⟩)
    refine ⟨_, c.lists.length, ?_, ?_, h.insert hmem hnone hfound hname⟩
    · rw [Collected.listFor, if_pos (mt (h.keys name).mp hmem), hfound]
      simp only [raised, Except.mapError, bind, Except.bind,
        Dictionary.add_new (mt (h.keys name).mp hmem),
        Dictionary.add_new (mt (h.inStep name).mp hmem)]
      rfl
    · exact AList.lookup_insert _

/-- The refspec of the next branch goes to the end of the list of its remote. -/
theorem Collects.addSpec (h : Collects repo done known c) {b : TrackingBranch} {name : NetString}
    (htracked : trackedRemote repo b = some name) {rs : Nat}
    (hrs : c.refSpecs.lookup name = some rs) {spec : GitRefSpec} (hspec : IsSpecOf repo b spec) :
    Collects repo (done ++ [b]) known { c with lists := c.lists.modify rs (· ++ [spec]) } where
  keys := h.keys
  inStep := h.inStep
  remotes := h.remotes
  lists key rs' hlookup := by
    obtain ⟨specs, hspecs, hall⟩ := h.lists key rs' hlookup
    by_cases hkey : key = name
    · subst hkey
      obtain rfl := Option.some.inj (hrs.symm.trans hlookup)
      refine ⟨specs ++ [spec], by simp [hspecs], ?_⟩
      rw [group_concat, if_pos htracked]
      exact List.rel_append hall (.cons hspec .nil)
    · have hne : rs ≠ rs' := fun heq => hkey (h.distinct key name rs' hlookup (heq ▸ hrs))
      refine ⟨specs, by simp [hne, hspecs], ?_⟩
      have hother : ¬trackedRemote repo b = some key :=
        fun heq => hkey (Option.some.inj (heq.symm.trans htracked))
      rw [group_concat, if_neg hother]
      exact hall
  distinct := h.distinct

/-- A branch that tracks nothing changes nothing. -/
theorem Collects.skip (h : Collects repo done known c) {b : TrackingBranch}
    (hnone : trackedRemote repo b = none) : Collects repo (done ++ [b]) known c where
  keys := h.keys
  inStep := h.inStep
  remotes := h.remotes
  lists key rs hlookup := by
    obtain ⟨specs, hspecs, hall⟩ := h.lists key rs hlookup
    refine ⟨specs, hspecs, ?_⟩
    rw [group_concat, if_neg (by simp [hnone])]
    exact hall
  distinct := h.distinct

theorem tracked_concat (done : List TrackingBranch) (b : TrackingBranch) (name : NetString) :
    Tracked repo (done ++ [b]) name ↔
      trackedRemote repo b = some name ∨ Tracked repo done name := by
  simp only [Tracked, List.mem_append, List.mem_singleton]
  constructor
  · rintro ⟨b', hb' | rfl, htracked⟩
    · exact .inr ⟨b', hb', htracked⟩
    · exact .inl htracked
  · rintro (htracked | ⟨b', hb', htracked⟩)
    · exact ⟨b, .inr rfl, htracked⟩
    · exact ⟨b', .inl hb', htracked⟩

theorem tracked_concat_some {done : List TrackingBranch} {b : TrackingBranch} {name : NetString}
    (h : trackedRemote repo b = some name) :
    Tracked repo (done ++ [b]) = fun key => key = name ∨ Tracked repo done key := by
  funext key
  rw [tracked_concat, h, Option.some_inj]
  exact propext (or_congr eq_comm Iff.rfl)

theorem tracked_concat_none {done : List TrackingBranch} {b : TrackingBranch}
    (h : trackedRemote repo b = none) : Tracked repo (done ++ [b]) = Tracked repo done := by
  funext key
  rw [tracked_concat, h]
  simp

/-- What a branch tracks by a remote's name, and its refspec. -/
theorem Pushable.cases {b : TrackingBranch} (h : Pushable repo b) :
    (b.trackedBranch repo = .ok none ∧ trackedRemote repo b = none) ∨
      ∃ tracked name spec, b.trackedBranch repo = .ok (some tracked) ∧
        tracked.remoteName repo = some name ∧ trackedRemote repo b = some name ∧
        b.asRefSpec repo = .ok spec ∧ IsSpecOf repo b spec := by
  obtain hnone | ⟨tracked, name, destination, htracked, hname, hdestination⟩ := h
  · exact .inl ⟨hnone, by rw [trackedRemote, hnone]⟩
  · refine .inr ⟨tracked, name, _, htracked, hname, ?_, ?_, destination, hdestination, rfl⟩
    · rw [trackedRemote, htracked]
      exact hname
    · rw [TrackingBranch.asRefSpec, hdestination]
      rfl

/-- A turn of the first loop whose remote can be looked up. -/
theorem collect_found (hrepo : repo.Documented) (h : Collects repo done (Tracked repo done) c)
    {b : TrackingBranch} (hb : Pushable repo b)
    (hfound : ∀ name, trackedRemote repo b = some name → Found repo name) :
    ∃ c', c.collect repo b = (.ok c' : Except (PushException E) _) ∧
      Collects repo (done ++ [b]) (Tracked repo (done ++ [b])) c' := by
  obtain ⟨htracked, hnone⟩ | ⟨tracked, name, spec, htracked, hname, hremote, hspec, hof⟩ := hb.cases
  · refine ⟨c, ?_, ?_⟩
    · rw [Collected.collect, htracked]
      rfl
    · rw [tracked_concat_none hnone]
      exact h.skip hnone
  · obtain ⟨rm, hrm⟩ := hfound name hremote
    obtain ⟨s, hs, rfl⟩ := TrackingBranch.remoteName_native hrepo hname
    have hnameOf := nameOf_tryGet hrepo hs hrm
    obtain ⟨c', rs, hlist, hrs, hc'⟩ :=
      @Collects.listFor _ E _ _ _ _ h (fun _ => Iff.rfl) _ _ hrm hnameOf
    refine ⟨{ c' with lists := c'.lists.modify rs (· ++ [spec]) }, ?_, ?_⟩
    · rw [Collected.collect, htracked]
      simp only [raised, Except.mapError, bind, Except.bind, hname, hlist, hspec]
      rfl
    · rw [tracked_concat_some hremote]
      exact hc'.addSpec hremote hrs hof

/-- A turn of the first loop whose remote cannot be looked up. -/
theorem collect_not_found (h : Collects repo done (Tracked repo done) c) {b : TrackingBranch}
    (hb : Pushable repo b) {name : NetString} (hremote : trackedRemote repo b = some name)
    (hmissing : ¬Found repo name) :
    ∃ f, c.collect repo b = (.error (.failure f) : Except (PushException E) _) := by
  obtain ⟨-, hnone⟩ | ⟨tracked, name', spec, htracked, hname, hremote', -, -⟩ := hb.cases
  · rw [hremote] at hnone
    cases hnone
  · obtain rfl := Option.some.inj (hremote.symm.trans hremote')
    have hnew : name ∉ c.remotes := by
      intro hmem
      obtain ⟨rm, hrm⟩ := Option.isSome_iff_exists.mp (AList.lookup_isSome.mpr hmem)
      exact hmissing ⟨rm, (h.remotes name rm hrm).1⟩
    have hcollect : c.collect repo b = (do
        let (c, rs) ← c.listFor repo name
        let spec ← raised (b.asRefSpec repo)
        return { c with lists := c.lists.modify rs (· ++ [spec]) } :
          Except (PushException E) (Collected R)) := by
      rw [Collected.collect, htracked]
      simp only [raised, Except.mapError, bind, Except.bind, hname]
    rw [hcollect, Collected.listFor, if_pos hnew]
    cases htry : GitRemoteCollection.tryGet repo (some name) with
    | error f => exact ⟨f, rfl⟩
    | ok rm =>
      cases rm with
      | none => exact ⟨.invalidOperation, rfl⟩
      | some rm => exact absurd ⟨rm, htry⟩ hmissing

/-- The first loop either raises for a remote that cannot be looked up or collects the refspecs of
all branches. -/
theorem collectAll_cases (hrepo : repo.Documented) (h : Collects repo done (Tracked repo done) c)
    {branches : List TrackingBranch} (hpushable : ∀ b ∈ branches, Pushable repo b) :
    (∃ name, Tracked repo branches name ∧ ¬Found repo name ∧
      ∃ f, Collected.collectAll repo branches c =
        (.error (.failure f) : Except (PushException E) _)) ∨
    ((∀ name, Tracked repo branches name → Found repo name) ∧
      ∃ c', Collected.collectAll repo branches c = (.ok c' : Except (PushException E) _) ∧
        Collects repo (done ++ branches) (Tracked repo (done ++ branches)) c') := by
  induction branches generalizing done c with
  | nil =>
    refine .inr ⟨?_, c, rfl, ?_⟩
    · rintro name ⟨b, hb, -⟩
      cases hb
    · rw [List.append_nil]
      exact h
  | cons b branches ih =>
    have hb := hpushable b List.mem_cons_self
    have hrest := fun b' hb' => hpushable b' (List.mem_cons_of_mem b hb')
    by_cases hfound : ∀ name, trackedRemote repo b = some name → Found repo name
    · obtain ⟨c', hcollect, hc'⟩ := @collect_found _ E _ _ _ hrepo h b hb hfound
      have hrun : Collected.collectAll repo (b :: branches) c =
          (Collected.collectAll repo branches c' : Except (PushException E) _) := by
        rw [Collected.collectAll, hcollect]
        rfl
      rw [hrun]
      obtain ⟨name, ⟨b', hb', htracked⟩, hmissing, hfails⟩ | ⟨hall, c'', hok, hc''⟩ := ih hc' hrest
      · exact .inl ⟨name, ⟨b', List.mem_cons_of_mem b hb', htracked⟩, hmissing, hfails⟩
      · refine .inr ⟨?_, c'', hok, ?_⟩
        · rintro name ⟨b', hb', htracked⟩
          rcases List.mem_cons.mp hb' with rfl | hb'
          · exact hfound name htracked
          · exact hall name ⟨b', hb', htracked⟩
        · rw [List.append_assoc, List.singleton_append] at hc''
          exact hc''
    · simp only [not_forall] at hfound
      obtain ⟨name, hremote, hmissing⟩ := hfound
      obtain ⟨f, hfails⟩ := @collect_not_found _ E _ _ _ h b hb name hremote hmissing
      refine .inl ⟨name, ⟨b, List.mem_cons_self, hremote⟩, hmissing, f, ?_⟩
      rw [Collected.collectAll, hfails]
      rfl

end Collect

/-- The list of a remote, as the second loop finds it. -/
def Collected.specsOf (repo : BranchRepository R) (c : Collected R) (rm : R) :
    Option (List GitRefSpec) :=
  (c.refSpecs.lookup (repo.nameOf rm)).bind (c.lists[·]?)

def Collected.planOf (repo : BranchRepository R) (c : Collected R) (remotes : List R) :
    List (R × List GitRefSpec) :=
  remotes.map fun rm => (rm, (c.specsOf repo rm).getD [])

section Push

variable {repo : BranchRepository R} {branches : List TrackingBranch} {c : Collected R}

/-- Every remote in the dictionary has a list, under its own name. -/
theorem Collects.specsOf {known : NetString → Prop} (h : Collects repo branches known c)
    {name : NetString} {rm : R} (hrm : c.remotes.lookup name = some rm) :
    ∃ specs, c.specsOf repo rm = some specs ∧
      List.Forall₂ (IsSpecOf repo)
        (group (trackedRemote repo) (repo.nameOf rm) branches) specs := by
  obtain ⟨-, rfl⟩ := h.remotes name rm hrm
  have hknown := (h.keys _).mp (AList.lookup_isSome.mp (by rw [hrm]; rfl))
  obtain ⟨rs, hrs⟩ :=
    Option.isSome_iff_exists.mp (AList.lookup_isSome.mpr ((h.inStep _).mpr hknown))
  obtain ⟨specs, hspecs, hall⟩ := h.lists _ rs hrs
  exact ⟨specs, by rw [Collected.specsOf, hrs, Option.bind_some, hspecs], hall⟩

theorem mem_remotes {remotes : List R} (horder : remotes.Perm (c.remotes.entries.map Sigma.snd))
    {rm : R} (hrm : rm ∈ remotes) : ∃ name, c.remotes.lookup name = some rm := by
  obtain ⟨⟨name, rm'⟩, hentry, rfl⟩ := List.mem_map.mp (horder.mem_iff.mp hrm)
  exact ⟨name, AList.mem_lookup_iff.mpr hentry⟩

/-- The names of the remotes are the keys of the dictionary. -/
theorem Collects.names_perm {known : NetString → Prop} (h : Collects repo branches known c)
    {remotes : List R} (horder : remotes.Perm (c.remotes.entries.map Sigma.snd)) :
    (remotes.map repo.nameOf).Perm c.remotes.keys := by
  have hkeys : (c.remotes.entries.map Sigma.snd).map repo.nameOf = c.remotes.keys := by
    rw [List.map_map]
    apply List.map_congr_left
    intro entry hentry
    exact (h.remotes entry.1 entry.2 (AList.mem_lookup_iff.mpr hentry)).2
  rw [← hkeys]
  exact horder.map repo.nameOf

/-- What has been collected is the plan. -/
theorem Collects.plan (h : Collects repo branches (Tracked repo branches) c) {remotes : List R}
    (horder : remotes.Perm (c.remotes.entries.map Sigma.snd)) :
    Plan repo branches (c.planOf repo remotes) := by
  have hperm := h.names_perm horder
  have hnames : (c.planOf repo remotes).map (fun call => repo.nameOf call.1) =
      remotes.map repo.nameOf := by
    rw [Collected.planOf, List.map_map]
    rfl
  have hnodup : (remotes.map repo.nameOf).Nodup := hperm.nodup_iff.mpr c.remotes.keys_nodup
  have hmem (name : NetString) : name ∈ remotes.map repo.nameOf ↔ Tracked repo branches name := by
    rw [hperm.mem_iff, ← AList.mem_keys, h.keys]
  constructor
  · rw [hnames]
    exact hnodup
  · intro name
    rw [hnames]
    exact hmem name
  · intro call hcall
    obtain ⟨rm, hrm, rfl⟩ := List.mem_map.mp hcall
    obtain ⟨name, hlookup⟩ := mem_remotes horder hrm
    obtain ⟨hfound, hname⟩ := h.remotes name rm hlookup
    rw [hname]
    exact hfound
  · intro call hcall
    obtain ⟨rm, hrm, rfl⟩ := List.mem_map.mp hcall
    obtain ⟨name, hlookup⟩ := mem_remotes horder hrm
    obtain ⟨specs, hspecs, hall⟩ := h.specsOf hlookup
    rw [hspecs]
    exact hall
  · have hgroups : (c.planOf repo remotes).flatMap (fun call =>
        group (trackedRemote repo) (repo.nameOf call.1) branches) =
          (remotes.map repo.nameOf).flatMap fun name =>
            group (trackedRemote repo) name branches := by
      rw [Collected.planOf, List.flatMap_map, List.flatMap_map]
    rw [hgroups]
    exact flatMap_group_perm hnodup fun b hb name hname => (hmem name).mpr ⟨b, hb, hname⟩

/-- A call that returns leaves the rest of the plan. -/
theorem Makes.cons {plan : List (R × List GitRefSpec)} {result : Except (PushException E) Bool}
    {calls : List (PushCall R E)} (h : Makes plan result calls) {call : PushCall R E}
    (hcall : call.Returned) : Makes (call.target :: plan) result (call :: calls) := by
  cases h with
  | all calls hplan hreturn =>
    apply Makes.all
    · rw [List.map_cons, hplan]
    · exact List.forall_mem_cons.mpr ⟨hcall, hreturn⟩
  | raises done last e hplan hreturn hlast =>
    apply Makes.raises (call :: done) last e
    · rw [List.cons_append, List.map_cons, List.cons_prefix_cons]
      exact ⟨rfl, hplan⟩
    · exact List.forall_mem_cons.mpr ⟨hcall, hreturn⟩
    · exact hlast

theorem pushRemotes_makes (push : R → List GitRefSpec → W → Except E Bool × W) {remotes : List R}
    (hspecs : ∀ rm ∈ remotes, ∃ specs, c.specsOf repo rm = some specs) (s : Pushes W R E) :
    ∃ calls, ((pushRemotes repo push c remotes).run s).2.calls = s.calls ++ calls ∧
      Makes (c.planOf repo remotes) ((pushRemotes repo push c remotes).run s).1 calls := by
  induction remotes generalizing s with
  | nil => exact ⟨[], (List.append_nil _).symm, .all [] rfl (by simp)⟩
  | cons rm rest ih =>
    obtain ⟨specs, hrm⟩ := hspecs rm List.mem_cons_self
    have hrest := fun rm' hrm' => hspecs rm' (List.mem_cons_of_mem rm hrm')
    have hplan : c.planOf repo (rm :: rest) = (rm, specs) :: c.planOf repo rest := by
      rw [Collected.planOf, List.map_cons, hrm]
      rfl
    have hloop : pushRemotes repo push c (rm :: rest) =
        (callPush push rm specs >>= fun _ => pushRemotes repo push c rest) := by
      rw [pushRemotes]
      rw [Collected.specsOf] at hrm
      rw [hrm]
    rw [hplan, hloop]
    cases houtcome : push rm specs s.world with
    | mk outcome world =>
      cases outcome with
      | ok pushed =>
        have hcall : (callPush push rm specs).run s =
            (.ok pushed, ⟨world, s.calls ++ [⟨rm, specs, .ok pushed⟩]⟩) := by
          simp only [callPush, houtcome]
          rfl
        rw [Action.run_bind_ok hcall]
        obtain ⟨calls, hcalls, hmakes⟩ := ih hrest ⟨world, s.calls ++ [⟨rm, specs, .ok pushed⟩]⟩
        have hreturned : PushCall.Returned (⟨rm, specs, .ok pushed⟩ : PushCall R E) := ⟨pushed, rfl⟩
        refine ⟨⟨rm, specs, .ok pushed⟩ :: calls, ?_, hmakes.cons hreturned⟩
        rw [hcalls, List.append_assoc]
        rfl
      | error e =>
        have hcall : (callPush push rm specs).run s =
            (.error (.push e), ⟨world, s.calls ++ [⟨rm, specs, .error e⟩]⟩) := by
          simp only [callPush, houtcome]
          rfl
        rw [Action.run_bind_error hcall]
        refine ⟨[⟨rm, specs, .error e⟩], rfl, .raises [] _ e ?_ (by simp) rfl⟩
        exact List.prefix_append [(rm, specs)] _

end Push

/-- What `PushAll` does: it raises before any call, for a remote that cannot be looked up, or it
makes the calls that are due, up to the first that raises. -/
def PushesAll (repo : BranchRepository R) (world : W)
    (run : Except (PushException E) Bool × Pushes W R E) : Prop :=
  ((∃ name, Tracked repo repo.enumerate name ∧ ¬Found repo name) ∧
    ∃ f, run = (.error (.failure f), ⟨world, []⟩)) ∨
  ((∀ name, Tracked repo repo.enumerate name → Found repo name) ∧
    ∃ plan, Plan repo repo.enumerate plan ∧ Makes plan run.1 run.2.calls)

/-- However the dictionary enumerates its values and whatever the calls do. -/
theorem pushAll_pushesAll (repo : BranchRepository R) (hrepo : repo.Documented)
    (order : Dictionary R → List R)
    (horder : ∀ d, (order d).Perm (d.entries.map Sigma.snd))
    (push : R → List GitRefSpec → W → Except E Bool × W) (world : W)
    (hpushable : ∀ b ∈ repo.enumerate, Pushable repo b) :
    PushesAll repo world ((pushAll repo order push).run ⟨world, []⟩) := by
  have hstart : Collects repo [] (Tracked repo []) (Collected.start : Collected R) := by
    have hnone : Tracked repo [] = fun _ => False := by
      funext name
      simp [Tracked]
    rw [hnone]
    exact .start
  obtain ⟨name, htracked, hmissing, f, hfails⟩ | ⟨hfound, c, hok, hc⟩ :=
    @collectAll_cases _ E _ _ _ hrepo hstart _ hpushable
  · refine .inl ⟨⟨name, htracked, hmissing⟩, f, ?_⟩
    rw [pushAll, hfails]
    rfl
  · rw [List.nil_append] at hc
    have hspecs : ∀ rm ∈ order c.remotes, ∃ specs, c.specsOf repo rm = some specs := by
      intro rm hrm
      obtain ⟨name, hlookup⟩ := mem_remotes (horder c.remotes) hrm
      obtain ⟨specs, hspecs, -⟩ := hc.specsOf hlookup
      exact ⟨specs, hspecs⟩
    obtain ⟨calls, hcalls, hmakes⟩ := pushRemotes_makes push hspecs ⟨world, []⟩
    have hrun : (pushAll repo order push).run ⟨world, []⟩ =
        (pushRemotes repo push c (order c.remotes)).run ⟨world, []⟩ := by
      rw [pushAll, hok]
      rfl
    refine .inr ⟨hfound, _, hc.plan (horder c.remotes), ?_⟩
    rw [hrun, hcalls]
    exact hmakes

/-- The branches "a", "b" and "c", of which "b" tracks the remote "y" and the others "x". -/
def exampleBranches : BranchRepository CStr where
  branches := [([0x61], .localBranch), ([0x62], .localBranch), ([0x63], .localBranch)]
  branchName name := some name
  branchUpstreamName name := some ((if name = [0x62] then [0x79] else [0x78]) ++ slash :: name)
  branchRemoteName name := if name.head? = some 0x79 then some [0x79] else some [0x78]
  -- "branch.a.merge" is "a"
  configString key := if key.length = 14 ∧ 0 ∉ key then some ((key.drop 7).take 1) else none
  remoteIsValidName _ := true
  remoteLookup name := some name
  remoteName name := name
  remoteRefSpec _ := none

theorem exampleBranches_documented : exampleBranches.Documented where
  lookup name rm h := (Option.some.inj h).symm
  branchRemoteName name s h := by
    rw [exampleBranches] at h
    dsimp only at h
    split at h
    · rw [← Option.some.inj h]
      decide
    · rw [← Option.some.inj h]
      decide
  configString key s h := by
    rw [exampleBranches] at h
    dsimp only at h
    split at h
    · rw [← Option.some.inj h]
      exact fun hmem =>
        ‹key.length = 14 ∧ 0 ∉ key›.2 (List.mem_of_mem_drop (List.mem_of_mem_take hmem))
    · cases h

theorem exampleBranches_pushable : ∀ b ∈ exampleBranches.enumerate, Pushable exampleBranches b := by
  have hbranches : exampleBranches.enumerate =
      [⟨[0x61], .localBranch⟩, ⟨[0x62], .localBranch⟩, ⟨[0x63], .localBranch⟩] := by decide
  rw [hbranches]
  intro b hb
  simp only [List.mem_cons, List.not_mem_nil, or_false] at hb
  rcases hb with rfl | rfl | rfl
  · exact .inr ⟨⟨[0x78, 0x2f, 0x61], .remoteBranch⟩, [0x78], [0x61],
      by decide, by decide, by decide⟩
  · exact .inr ⟨⟨[0x79, 0x2f, 0x62], .remoteBranch⟩, [0x79], [0x62],
      by decide, by decide, by decide⟩
  · exact .inr ⟨⟨[0x78, 0x2f, 0x63], .remoteBranch⟩, [0x78], [0x63],
      by decide, by decide, by decide⟩

/-- A dictionary's values, the latest first. -/
def exampleOrder (d : Dictionary CStr) : List CStr := d.entries.map Sigma.snd

/-- Every call pushes. -/
def examplePush (_ : CStr) (_ : List GitRefSpec) (world : Nat) : Except Unit Bool × Nat :=
  (.ok true, world + 1)

theorem pushAll_pushesAll_example :
    PushesAll exampleBranches 0
      ((pushAll exampleBranches exampleOrder examplePush).run ⟨0, []⟩) :=
  pushAll_pushesAll exampleBranches exampleBranches_documented exampleOrder
    (fun _ => List.Perm.refl _) examplePush 0 exampleBranches_pushable

end SharpGit.GitClient
