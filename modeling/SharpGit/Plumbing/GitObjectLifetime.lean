import Mathlib.Logic.Function.Basic
import SharpGit.Plumbing.GitObject

namespace SharpGit.Plumbing

open Library

/-- What a `git_object*` points to, with the `git_repository` it is of. -/
structure NativeObject where
  repository : Nat
  id : Oid
  kind : ObjectKind
  deriving DecidableEq, Repr

/-- A managed object, with whether it has been disposed, or its repository since. -/
structure GitObject where
  repository : Nat
  obj : Option Nat
  id : Option Oid
  disposed : Bool
  repositoryDisposed : Bool
  deriving DecidableEq, Repr

/-- The repositories and objects, by number; a repository starts unopened. Native pointers are
numbers that are not used again, and each lookup has one of its own. -/
structure Heap where
  nextRepository : Nat
  nextObject : Nat
  repositories : Nat → Option Nat
  objects : Nat → Option GitObject
  nativeRepositories : Nat → Bool
  nativeObjects : Nat → Option NativeObject

namespace Heap

def start : Heap := ⟨0, 0, fun _ => none, fun _ => none, fun _ => false, fun _ => none⟩

/-- libgit2 reads an object: the pointer is not null, the object and its repository not freed. -/
def read (h : Heap) (pointer : Option Nat) : Except Failure NativeObject :=
  match pointer.bind h.nativeObjects with
  | none => .error .accessViolation
  | some native =>
    if h.nativeRepositories native.repository then .ok native else .error .accessViolation

/-- `GitObject::IsDisposed`. -/
def isDisposed (h : Heap) (o : GitObject) : Bool :=
  o.obj.isNone && !(h.repositories o.repository).isNone

def handle (h : Heap) (o : GitObject) : Except Failure (Option Nat) :=
  if h.isDisposed o then .error (.objectDisposed "object") else .ok o.obj

/-- `Id`, which the object keeps. -/
def getId (h : Heap) (o : GitObject) : Except Failure (Option Oid) :=
  if o.id.isNone && !h.isDisposed o then do
    let pointer ← h.handle o
    let native ← h.read pointer
    return some native.id
  else return o.id

/-- `Kind`; none is `GitObjectKind::Bad`. -/
def kind (h : Heap) (o : GitObject) : Except Failure (Option ObjectKind) :=
  if !h.isDisposed o then do
    let native ← h.read o.obj
    return some native.kind
  else return none

/-- `Peel`, where `git_object_peel` finds this. -/
def peel (h : Heap) (o : GitObject) (found : Option (Oid × ObjectKind)) :
    Except Failure (Option NativeObject) :=
  if h.isDisposed o then .error (.objectDisposed "object")
  else do
    let pointer ← h.handle o
    let native ← h.read pointer
    return found.map fun peeled => ⟨native.repository, peeled.1, peeled.2⟩

/-- `GitObject::Create`. -/
def create (h : Heap) (repository : Nat) (native : NativeObject) : Heap :=
  { h with
    nextObject := h.nextObject + 1
    objects := Function.update h.objects h.nextObject
      (some ⟨repository, some h.nextObject, none, false, false⟩)
    nativeObjects := Function.update h.nativeObjects h.nextObject (some native) }

/-- `GitRepository::Open`, where `git_repository_open` does or does not succeed. -/
def openRepository (h : Heap) (repository : Nat) (opens : Bool) : Except Failure Heap :=
  if (h.repositories repository).isSome then .error .invalidOperation
  else if opens then
    .ok { h with
      nextRepository := h.nextRepository + 1
      repositories := Function.update h.repositories repository (some h.nextRepository)
      nativeRepositories := Function.update h.nativeRepositories h.nextRepository true }
  else .error (.git (-1))

/-- `GitRepository::Lookup`, where `git_object_lookup` finds this. -/
def lookup (h : Heap) (repository : Nat) (found : Option (Oid × ObjectKind)) :
    Except Failure Heap :=
  match h.repositories repository with
  | none => .error (.objectDisposed "repository")
  | some native =>
    match found with
    | none => .error (.git (-3))
    | some (id, kind) => .ok (h.create repository ⟨native, id, kind⟩)

/-- `~GitObject`. -/
def disposeObject (h : Heap) (k : Nat) (o : GitObject) : Heap :=
  { h with
    objects := Function.update h.objects k (some { o with obj := none, disposed := true })
    nativeObjects := match o.obj with
      | none => h.nativeObjects
      | some pointer => Function.update h.nativeObjects pointer none }

/-- `~GitRepository`. -/
def disposeRepository (h : Heap) (repository : Nat) : Heap :=
  { h with
    repositories := Function.update h.repositories repository none
    objects := fun k => (h.objects k).map fun o =>
      { o with repositoryDisposed := o.repositoryDisposed || o.repository = repository }
    nativeRepositories := match h.repositories repository with
      | none => h.nativeRepositories
      | some native => Function.update h.nativeRepositories native false }

end Heap

inductive Operation
  | openRepository (repository : Nat) (opens : Bool)
  | lookup (repository : Nat) (found : Option (Oid × ObjectKind))
  | peel (object : Nat) (found : Option (Oid × ObjectKind))
  | getId (object : Nat)
  | disposeObject (object : Nat)
  | disposeRepository (repository : Nat)
  deriving DecidableEq, Repr

namespace Heap

/-- An operation on an object there is. -/
def onObject (h : Heap) (k : Nat) (action : GitObject → Except Failure Heap) :
    Except Failure Heap :=
  match h.objects k with
  | none => .ok h
  | some o => action o

def perform (h : Heap) : Operation → Except Failure Heap
  | .openRepository repository opens => h.openRepository repository opens
  | .lookup repository found => h.lookup repository found
  | .peel k found => h.onObject k fun o => do
    match ← h.peel o found with
    | none => return h
    | some native => return h.create o.repository native
  | .getId k => h.onObject k fun o => do
    let id ← h.getId o
    return { h with objects := Function.update h.objects k (some { o with id := id }) }
  | .disposeObject k => h.onObject k fun o => .ok (h.disposeObject k o)
  | .disposeRepository repository => .ok (h.disposeRepository repository)

/-- An operation that raises leaves the heap as it is. -/
def run (operations : List Operation) : Heap :=
  operations.foldl (fun h operation => (h.perform operation).toOption.getD h) start

variable {α : Type}

/-- The answer is read from a live native object. -/
def Uses (h : Heap) (o : GitObject) (answer : Except Failure α) (value : NativeObject → α) : Prop :=
  ∃ native, h.read o.obj = .ok native ∧ answer = .ok (value native)

def UsesOrRaises (h : Heap) (o : GitObject) (answer : Except Failure α)
    (value : NativeObject → α) : Prop :=
  h.Uses o answer value ∨ answer = .error (.objectDisposed "object")

/-- Each member uses a live object or raises. -/
structure Raising (h : Heap) (o : GitObject) : Prop where
  isDisposed : h.isDisposed o = true ↔ o.disposed = true ∨ o.repositoryDisposed = true
  handle : h.UsesOrRaises o (h.handle o) fun _ => o.obj
  getId : h.UsesOrRaises o (h.getId o) fun native => some native.id
  kind : h.UsesOrRaises o (h.kind o) fun native => some native.kind
  peel : ∀ found, h.UsesOrRaises o (h.peel o found) fun native =>
    found.map fun peeled => ⟨native.repository, peeled.1, peeled.2⟩

/-- `Handle` and `Peel` use a live object or raise; a disposed object answers `Id` with what it
has kept and `Kind` with `Bad`. -/
structure Guarded (h : Heap) (o : GitObject) : Prop where
  isDisposed : h.isDisposed o = true ↔ o.disposed = true
  handle : h.UsesOrRaises o (h.handle o) fun _ => o.obj
  getId : h.Uses o (h.getId o) (fun native => some native.id) ∨
    o.disposed = true ∧ h.getId o = .ok o.id
  kind : h.Uses o (h.kind o) (fun native => some native.kind) ∨
    o.disposed = true ∧ h.kind o = .ok none
  peel : ∀ found, h.UsesOrRaises o (h.peel o found) fun native =>
    found.map fun peeled => ⟨native.repository, peeled.1, peeled.2⟩

/-- The native object is the one of `o`, and its repository is open if that of `o` still is the
one it was found in. -/
structure Belongs (h : Heap) (o : GitObject) (native : NativeObject) : Prop where
  id : ∀ id, o.id = some id → id = native.id
  bound : native.repository < h.nextRepository
  current : h.nativeRepositories native.repository = true →
    h.repositories o.repository = some native.repository
  kept : o.repositoryDisposed = false → h.nativeRepositories native.repository = true

structure Tracked (h : Heap) (k : Nat) (o : GitObject) : Prop where
  bound : k < h.nextObject
  disposed : o.disposed = o.obj.isNone
  native : ∀ pointer, o.obj = some pointer → pointer = k ∧
    ∃ native, h.nativeObjects k = some native ∧ h.Belongs o native
  opened : o.repositoryDisposed = false →
    ∃ repository, h.repositories o.repository = some repository

/-- Every open repository and every object has a native pointer of its own. -/
structure Sound (h : Heap) : Prop where
  opened : ∀ r native, h.repositories r = some native →
    native < h.nextRepository ∧ h.nativeRepositories native = true
  own : ∀ r s native, h.repositories r = some native → h.repositories s = some native → r = s
  tracked : ∀ k o, h.objects k = some o → h.Tracked k o

theorem read_eq_ok {h : Heap} {k : Nat} {native : NativeObject}
    (hread : h.read (some k) = .ok native) :
    h.nativeObjects k = some native ∧ h.nativeRepositories native.repository = true := by
  rw [read, Option.bind_some] at hread
  cases hfound : h.nativeObjects k with
  | none =>
    rw [hfound] at hread
    cases hread
  | some found =>
    rw [hfound] at hread
    dsimp only at hread
    split at hread
    · rename_i hopen
      obtain rfl := Except.ok.inj hread
      exact ⟨rfl, hopen⟩
    · cases hread

theorem handle_eq_ok {h : Heap} {o : GitObject} {pointer : Option Nat}
    (hhandle : h.handle o = .ok pointer) : pointer = o.obj := by
  rw [handle] at hhandle
  split at hhandle
  · cases hhandle
  · exact (Except.ok.inj hhandle).symm

/-- A disposed object raises, or answers with what it has kept. -/
theorem guarded_disposed {h : Heap} {o : GitObject} (hguard : h.isDisposed o = true)
    (hdisposed : o.disposed = true) : h.Guarded o := by
  refine ⟨?_, ?_, ?_, ?_, ?_⟩
  · rw [hguard, hdisposed]
  · exact .inr (if_pos hguard)
  · refine .inr ⟨hdisposed, ?_⟩
    rw [getId, hguard, Bool.not_true, Bool.and_false]
    rfl
  · refine .inr ⟨hdisposed, ?_⟩
    rw [kind, hguard]
    rfl
  · intro found
    exact .inr (if_pos hguard)

/-- An object that is not disposed uses its native one. -/
theorem guarded_live {h : Heap} {o : GitObject} {native : NativeObject}
    (hguard : h.isDisposed o = false) (hdisposed : o.disposed = false)
    (hread : h.read o.obj = .ok native) (hbelongs : h.Belongs o native) : h.Guarded o := by
  have hhandle : h.handle o = .ok o.obj := by
    rw [handle, hguard]
    rfl
  refine ⟨?_, ?_, ?_, ?_, ?_⟩
  · rw [hguard, hdisposed]
  · exact .inl ⟨native, hread, hhandle⟩
  · refine .inl ⟨native, hread, ?_⟩
    cases hkept : o.id with
    | none =>
      rw [getId, hkept, hguard, hhandle]
      show (h.read o.obj >>= fun native => pure (some native.id)) = _
      rw [hread]
      rfl
    | some id =>
      rw [getId, hkept, hbelongs.id id hkept]
      rfl
  · refine .inl ⟨native, hread, ?_⟩
    rw [kind, hguard, hread]
    rfl
  · intro found
    refine .inl ⟨native, hread, ?_⟩
    rw [peel, hguard, hhandle]
    show (h.read o.obj >>= fun native => pure _) = _
    rw [hread]
    rfl

theorem Sound.guarded {h : Heap} (hsound : h.Sound) {k : Nat} {o : GitObject}
    (ho : h.objects k = some o) (hrepository : o.repositoryDisposed = false) : h.Guarded o := by
  obtain ⟨_, hdisposed, hnative, hopened⟩ := hsound.tracked k o ho
  obtain ⟨repository, hopen⟩ := hopened hrepository
  have hguard : h.isDisposed o = o.disposed := by
    rw [isDisposed, hopen, hdisposed]
    exact Bool.and_true _
  cases hobj : o.obj with
  | none =>
    rw [hobj] at hdisposed
    exact guarded_disposed (hguard.trans hdisposed) hdisposed
  | some pointer =>
    obtain ⟨rfl, native, hfound, hbelongs⟩ := hnative pointer hobj
    have hread : h.read o.obj = .ok native := by
      rw [read, hobj, Option.bind_some, hfound]
      exact if_pos (hbelongs.kept hrepository)
    rw [hobj] at hdisposed
    exact guarded_live (hguard.trans hdisposed) hdisposed hread hbelongs

/-- What opening a repository does: it has a native one that there was not before. -/
structure Opens (h h' : Heap) (repository : Nat) : Prop where
  closed : h.repositories repository = none
  next : h'.nextRepository = h.nextRepository + 1
  nextObject : h'.nextObject = h.nextObject
  objects : h'.objects = h.objects
  nativeObjects : h'.nativeObjects = h.nativeObjects
  this : h'.repositories repository = some h.nextRepository
  others : ∀ r, r ≠ repository → h'.repositories r = h.repositories r
  new : h'.nativeRepositories h.nextRepository = true
  old : ∀ native, native < h.nextRepository →
    h'.nativeRepositories native = h.nativeRepositories native

theorem openRepository_eq_ok {h h' : Heap} {repository : Nat} {opens : Bool}
    (hstep : h.openRepository repository opens = .ok h') : h.Opens h' repository := by
  rw [openRepository] at hstep
  split at hstep
  · cases hstep
  · rename_i hclosed
    split at hstep
    · obtain rfl := Except.ok.inj hstep
      exact ⟨Option.not_isSome_iff_eq_none.mp hclosed, rfl, rfl, rfl, rfl,
        Function.update_self .., fun r hr => Function.update_of_ne hr ..,
        Function.update_self .., fun native hlt => Function.update_of_ne (Nat.ne_of_lt hlt) ..⟩
    · cases hstep

namespace Opens

variable {h h' : Heap} {repository : Nat} (hopens : h.Opens h' repository)

include hopens

theorem cases {r native : Nat} (hr : h'.repositories r = some native) :
    r = repository ∧ native = h.nextRepository ∨ h.repositories r = some native := by
  by_cases heq : r = repository
  · subst heq
    rw [hopens.this] at hr
    exact .inl ⟨rfl, (Option.some.inj hr).symm⟩
  · exact .inr ((hopens.others r heq).symm.trans hr)

theorem keeps {r native : Nat} (hr : h.repositories r = some native) :
    h'.repositories r = some native := by
  have hne : r ≠ repository := by
    intro heq
    rw [heq, hopens.closed] at hr
    cases hr
  exact (hopens.others r hne).trans hr

theorem belongs {o : GitObject} {native : NativeObject} (ho : h.Belongs o native) :
    h'.Belongs o native := by
  have hold := hopens.old _ ho.bound
  refine ⟨ho.id, ?_, ?_, ?_⟩
  · rw [hopens.next]
    exact Nat.lt_succ_of_lt ho.bound
  · intro hlive
    exact hopens.keeps (ho.current (hold.symm.trans hlive))
  · intro hfalse
    exact hold.trans (ho.kept hfalse)

theorem tracked {k : Nat} {o : GitObject} (ho : h.Tracked k o) : h'.Tracked k o := by
  refine ⟨?_, ho.disposed, ?_, ?_⟩
  · rw [hopens.nextObject]
    exact ho.bound
  · intro pointer hpointer
    obtain ⟨hk, native, hfound, hbelongs⟩ := ho.native pointer hpointer
    rw [hopens.nativeObjects]
    exact ⟨hk, native, hfound, hopens.belongs hbelongs⟩
  · intro hfalse
    obtain ⟨native, hrepository⟩ := ho.opened hfalse
    exact ⟨native, hopens.keeps hrepository⟩

end Opens

/-- The native repository of a repository that is disposed is freed, and no other. -/
theorem disposeRepository_live {h : Heap} (repository native : Nat) :
    (h.disposeRepository repository).nativeRepositories native = true ↔
      h.nativeRepositories native = true ∧ h.repositories repository ≠ some native := by
  rw [disposeRepository]
  cases hopen : h.repositories repository with
  | none => simp
  | some freed =>
    by_cases heq : native = freed
    · subst heq
      simp
    · have hne : freed ≠ native := fun h => heq h.symm
      simp [Function.update_of_ne heq, hne]

theorem disposeRepository_others {h : Heap} {repository r : Nat} (hr : r ≠ repository) :
    (h.disposeRepository repository).repositories r = h.repositories r :=
  Function.update_of_ne hr ..

theorem disposeRepository_cases {h : Heap} {repository r native : Nat}
    (hr : (h.disposeRepository repository).repositories r = some native) :
    r ≠ repository ∧ h.repositories r = some native := by
  have hgone : (h.disposeRepository repository).repositories repository = none :=
    Function.update_self ..
  by_cases heq : r = repository
  · subst heq
    rw [hgone] at hr
    cases hr
  · exact ⟨heq, (disposeRepository_others heq).symm.trans hr⟩

theorem repositoryDisposed_cases {o : GitObject} {repository : Nat}
    (hfalse : (o.repositoryDisposed || decide (o.repository = repository)) = false) :
    o.repositoryDisposed = false ∧ o.repository ≠ repository := by
  obtain ⟨hfalse, hne⟩ := Bool.or_eq_false_iff.mp hfalse
  exact ⟨hfalse, of_decide_eq_false hne⟩

theorem Belongs.disposeRepository {h : Heap} {o : GitObject} {native : NativeObject}
    (ho : h.Belongs o native)
    (hown : ∀ r s native, h.repositories r = some native → h.repositories s = some native → r = s)
    (repository : Nat) :
    (h.disposeRepository repository).Belongs
      { o with repositoryDisposed := o.repositoryDisposed || o.repository = repository }
      native := by
  refine ⟨ho.id, ho.bound, ?_, ?_⟩
  · intro hlive
    obtain ⟨hlive, hne⟩ := (disposeRepository_live _ _).mp hlive
    have hrepository := ho.current hlive
    have hother : o.repository ≠ repository := by
      intro heq
      rw [heq] at hrepository
      exact hne hrepository
    exact (disposeRepository_others hother).trans hrepository
  · intro hfalse
    obtain ⟨hfalse, hother⟩ := repositoryDisposed_cases hfalse
    have hlive := ho.kept hfalse
    refine (disposeRepository_live _ _).mpr ⟨hlive, ?_⟩
    intro hfreed
    exact hother (hown _ _ _ (ho.current hlive) hfreed)

/-- A change that leaves the repositories, and the object `k` with its native one, alone. -/
theorem Tracked.frame {h h' : Heap} {k : Nat} {o : GitObject} (ho : h.Tracked k o)
    (hnext : h.nextObject ≤ h'.nextObject) (hrepositories : h'.repositories = h.repositories)
    (hnextRepository : h'.nextRepository = h.nextRepository)
    (hlive : h'.nativeRepositories = h.nativeRepositories)
    (hobject : h'.nativeObjects k = h.nativeObjects k) : h'.Tracked k o := by
  refine ⟨Nat.lt_of_lt_of_le ho.bound hnext, ho.disposed, ?_, ?_⟩
  · intro pointer hpointer
    obtain ⟨hk, native, hfound, hid, hbound, hcurrent, hkept⟩ := ho.native pointer hpointer
    refine ⟨hk, native, hobject.trans hfound, hid, ?_, ?_, ?_⟩
    · rw [hnextRepository]
      exact hbound
    · rw [hlive, hrepositories]
      exact hcurrent
    · rw [hlive]
      exact hkept
  · rw [hrepositories]
    exact ho.opened

namespace Sound

variable {h : Heap} (hsound : h.Sound)

include hsound

/-- A change of one object, which may be a new one. -/
theorem of_object {h' : Heap} {k : Nat} {p : GitObject}
    (hobjects : h'.objects = Function.update h.objects k (some p)) (hthis : h'.Tracked k p)
    (hnext : h.nextObject ≤ h'.nextObject) (hrepositories : h'.repositories = h.repositories)
    (hnextRepository : h'.nextRepository = h.nextRepository)
    (hlive : h'.nativeRepositories = h.nativeRepositories)
    (hothers : ∀ l, l ≠ k → h'.nativeObjects l = h.nativeObjects l) : h'.Sound := by
  refine ⟨?_, ?_, ?_⟩
  · rw [hrepositories, hnextRepository, hlive]
    exact hsound.opened
  · rw [hrepositories]
    exact hsound.own
  · intro l o ho
    rw [hobjects] at ho
    by_cases hl : l = k
    · subst hl
      rw [Function.update_self] at ho
      obtain rfl := Option.some.inj ho
      exact hthis
    · rw [Function.update_of_ne hl] at ho
      exact (hsound.tracked l o ho).frame hnext hrepositories hnextRepository hlive (hothers l hl)

theorem create {repository : Nat} {native : NativeObject}
    (hopen : h.repositories repository = some native.repository) :
    (h.create repository native).Sound := by
  obtain ⟨hbound, hlive⟩ := hsound.opened _ _ hopen
  have hthis : (h.create repository native).Tracked h.nextObject
      ⟨repository, some h.nextObject, none, false, false⟩ := by
    refine ⟨Nat.lt_succ_self _, rfl, ?_, fun _ => ⟨_, hopen⟩⟩
    intro pointer hpointer
    refine ⟨(Option.some.inj hpointer).symm, native, Function.update_self .., ?_, hbound,
      fun _ => hopen, fun _ => hlive⟩
    intro id hid
    cases hid
  exact hsound.of_object rfl hthis (Nat.le_succ _) rfl rfl rfl fun l hl =>
    Function.update_of_ne hl ..

theorem openRepository {repository : Nat} {opens : Bool} {h' : Heap}
    (hstep : h.openRepository repository opens = .ok h') : h'.Sound := by
  have hopens := openRepository_eq_ok hstep
  refine ⟨?_, ?_, ?_⟩
  · intro r native hr
    rw [hopens.next]
    obtain ⟨_, rfl⟩ | hr := hopens.cases hr
    · exact ⟨Nat.lt_succ_self _, hopens.new⟩
    · obtain ⟨hlt, hopened⟩ := hsound.opened r native hr
      exact ⟨Nat.lt_succ_of_lt hlt, (hopens.old native hlt).trans hopened⟩
  · intro r t native hr ht
    obtain ⟨rfl, hnew⟩ | hr := hopens.cases hr
    · obtain ⟨rfl, _⟩ | ht := hopens.cases ht
      · rfl
      · exact absurd hnew (Nat.ne_of_lt (hsound.opened t native ht).1)
    · obtain ⟨_, hnew⟩ | ht := hopens.cases ht
      · exact absurd hnew (Nat.ne_of_lt (hsound.opened r native hr).1)
      · exact hsound.own r t native hr ht
  · intro k o ho
    rw [hopens.objects] at ho
    exact hopens.tracked (hsound.tracked k o ho)

theorem disposeObject {k : Nat} {o : GitObject} (ho : h.objects k = some o) :
    (h.disposeObject k o).Sound := by
  obtain ⟨hbound, _, hnative, hopened⟩ := hsound.tracked k o ho
  have hthis : (h.disposeObject k o).Tracked k { o with obj := none, disposed := true } := by
    refine ⟨hbound, rfl, ?_, hopened⟩
    intro pointer hpointer
    cases hpointer
  apply hsound.of_object rfl hthis (Nat.le_refl _) rfl rfl rfl
  intro l hl
  cases hobj : o.obj with
  | none => rw [Heap.disposeObject, hobj]
  | some pointer =>
    obtain ⟨rfl, _⟩ := hnative pointer hobj
    rw [Heap.disposeObject, hobj]
    exact Function.update_of_ne hl ..

theorem disposeRepository (repository : Nat) : (h.disposeRepository repository).Sound := by
  refine ⟨?_, ?_, ?_⟩
  · intro r native hr
    obtain ⟨hne, hr⟩ := disposeRepository_cases hr
    obtain ⟨hlt, hlive⟩ := hsound.opened r native hr
    refine ⟨hlt, (disposeRepository_live repository native).mpr ⟨hlive, ?_⟩⟩
    intro hfreed
    exact hne (hsound.own r repository native hr hfreed)
  · intro r t native hr ht
    exact hsound.own r t native (disposeRepository_cases hr).2 (disposeRepository_cases ht).2
  · intro k p hp
    obtain ⟨o, ho, rfl⟩ := Option.map_eq_some_iff.mp hp
    obtain ⟨hbound, hdisposed, hnative, hopened⟩ := hsound.tracked k o ho
    refine ⟨hbound, hdisposed, ?_, ?_⟩
    · intro pointer hpointer
      obtain ⟨hk, native, hfound, hbelongs⟩ := hnative pointer hpointer
      exact ⟨hk, native, hfound, hbelongs.disposeRepository hsound.own repository⟩
    · intro hfalse
      obtain ⟨hfalse, hother⟩ := repositoryDisposed_cases hfalse
      obtain ⟨native, hrepository⟩ := hopened hfalse
      exact ⟨native, (disposeRepository_others hother).trans hrepository⟩

omit hsound in
/-- What `Id` gives of an object that has its native one is the id of that. -/
theorem id_of_getId {k : Nat} {o : GitObject} (hobj : o.obj = some k) {native : NativeObject}
    (hfound : h.nativeObjects k = some native) (hid : ∀ id, o.id = some id → id = native.id)
    {id : Option Oid} (hget : h.getId o = .ok id) :
    ∀ known, id = some known → known = native.id := by
  intro known hknown
  rw [Heap.getId] at hget
  split at hget
  · obtain ⟨handle, hhandle, hget⟩ := except_bind_eq_ok.mp hget
    obtain ⟨found, hread, hget⟩ := except_bind_eq_ok.mp hget
    obtain rfl := handle_eq_ok hhandle
    rw [hobj] at hread
    have hsame := Option.some.inj (hfound.symm.trans (read_eq_ok hread).1)
    subst hsame
    exact Option.some.inj (hknown.symm.trans (Except.ok.inj hget).symm)
  · obtain rfl := Except.ok.inj hget
    exact hid known hknown

/-- `Id` stores what the object is known by. -/
theorem getId {k : Nat} {o : GitObject} (ho : h.objects k = some o) {id : Option Oid}
    (hget : h.getId o = .ok id) :
    Heap.Sound { h with objects := Function.update h.objects k (some { o with id := id }) } := by
  obtain ⟨hbound, hdisposed, hnative, hopened⟩ := hsound.tracked k o ho
  have hthis : Heap.Tracked { h with objects := Function.update h.objects k (some { o with
      id := id }) } k { o with id := id } := by
    refine ⟨hbound, hdisposed, ?_, hopened⟩
    intro pointer hpointer
    have hobj : o.obj = some pointer := hpointer
    obtain ⟨rfl, native, hfound, hid, hlt, hcurrent, hkept⟩ := hnative pointer hobj
    exact ⟨rfl, native, hfound, id_of_getId hobj hfound hid hget, hlt, hcurrent, hkept⟩
  exact hsound.of_object rfl hthis (Nat.le_refl _) rfl rfl rfl fun l _ => rfl

/-- `Peel` finds its object in the repository that is open. -/
theorem peel {k : Nat} {o : GitObject} (ho : h.objects k = some o)
    {found : Option (Oid × ObjectKind)} {native : NativeObject}
    (hpeel : h.peel o found = .ok (some native)) :
    (h.create o.repository native).Sound := by
  apply hsound.create
  rw [Heap.peel] at hpeel
  split at hpeel
  · cases hpeel
  · obtain ⟨handle, hhandle, hbound⟩ := except_bind_eq_ok.mp hpeel
    obtain ⟨source, hread, hfound⟩ := except_bind_eq_ok.mp hbound
    obtain ⟨peeled, _, rfl⟩ := Option.map_eq_some_iff.mp (Except.ok.inj hfound)
    obtain rfl := handle_eq_ok hhandle
    cases hobj : o.obj with
    | none =>
      rw [hobj] at hread
      cases hread
    | some pointer =>
      obtain ⟨rfl, own, hown, _, _, hcurrent, _⟩ := (hsound.tracked k o ho).native pointer hobj
      rw [hobj] at hread
      obtain ⟨hsource, hlive⟩ := read_eq_ok hread
      obtain rfl := Option.some.inj (hown.symm.trans hsource)
      exact hcurrent hlive

theorem perform {operation : Operation} {h' : Heap} (hstep : h.perform operation = .ok h') :
    h'.Sound := by
  cases operation with
  | openRepository repository opens => exact hsound.openRepository hstep
  | lookup repository found =>
    rw [Heap.perform, Heap.lookup] at hstep
    split at hstep
    · cases hstep
    · rename_i native hopen
      cases found with
      | none => cases hstep
      | some found =>
        obtain rfl := Except.ok.inj hstep
        exact hsound.create hopen
  | peel k found =>
    rw [Heap.perform, onObject] at hstep
    split at hstep
    · obtain rfl := Except.ok.inj hstep
      exact hsound
    · rename_i o ho
      obtain ⟨peeled, hpeel, hstep⟩ := except_bind_eq_ok.mp hstep
      cases peeled with
      | none =>
        obtain rfl := Except.ok.inj hstep
        exact hsound
      | some native =>
        obtain rfl := Except.ok.inj hstep
        exact hsound.peel ho hpeel
  | getId k =>
    rw [Heap.perform, onObject] at hstep
    split at hstep
    · obtain rfl := Except.ok.inj hstep
      exact hsound
    · rename_i o ho
      obtain ⟨id, hget, hstep⟩ := except_bind_eq_ok.mp hstep
      obtain rfl := Except.ok.inj hstep
      exact hsound.getId ho hget
  | disposeObject k =>
    rw [Heap.perform, onObject] at hstep
    split at hstep
    · obtain rfl := Except.ok.inj hstep
      exact hsound
    · rename_i o ho
      obtain rfl := Except.ok.inj hstep
      exact hsound.disposeObject ho
  | disposeRepository repository =>
    obtain rfl := Except.ok.inj hstep
    exact hsound.disposeRepository repository

end Sound

theorem start_sound : start.Sound := by
  refine ⟨?_, ?_, ?_⟩
  · intro r native hr
    cases hr
  · intro r t native hr
    cases hr
  · intro k o ho
    cases ho

theorem run_sound (operations : List Operation) : (run operations).Sound := by
  induction operations using List.reverseRecOn with
  | nil => exact start_sound
  | append_singleton operations operation ih =>
    rw [run, List.foldl_append]
    show (((run operations).perform operation).toOption.getD (run operations)).Sound
    cases hstep : (run operations).perform operation with
    | error failure => exact ih
    | ok h => exact ih.perform hstep

/-- In every run, the members of an object guard its native one while its repository is not
disposed. -/
theorem run_guarded (operations : List Operation) (k : Nat) (o : GitObject)
    (ho : (run operations).objects k = some o) (hrepository : o.repositoryDisposed = false) :
    (run operations).Guarded o :=
  (run_sound operations).guarded ho hrepository

/-- A disposed object, next to another one of the same repository. -/
theorem run_guarded_disposed :
    let operations := [.openRepository 0 true, .lookup 0 (some ([1], .commit)),
      .lookup 0 (some ([2], .tree)), .disposeObject 0]
    (run operations).Guarded ⟨0, none, none, true, false⟩ :=
  run_guarded _ 0 _ rfl rfl

/-- A disposed object has a `Kind`, and that of a disposed repository is not disposed. -/
theorem disposed_not_raising :
    (∃ o, (run [.openRepository 0 true, .lookup 0 (some ([1], .commit)),
        .disposeObject 0]).objects 0 = some o ∧
      ¬(run [.openRepository 0 true, .lookup 0 (some ([1], .commit)),
        .disposeObject 0]).Raising o) ∧
    ∃ o, (run [.openRepository 0 true, .lookup 0 (some ([1], .commit)),
        .disposeRepository 0]).objects 0 = some o ∧
      ¬(run [.openRepository 0 true, .lookup 0 (some ([1], .commit)),
        .disposeRepository 0]).Raising o := by
  constructor
  · refine ⟨_, rfl, ?_⟩
    intro h
    obtain ⟨native, hread, _⟩ | hraises := h.kind
    · cases hread
    · cases hraises
  · refine ⟨_, rfl, ?_⟩
    intro h
    exact absurd (h.isDisposed.mpr (.inr rfl)) (by decide)

end Heap

end SharpGit.Plumbing
