import SharpGit.Library.Runs
import SharpGit.Library.Owners
import SharpGit.Plumbing.GitIndex

namespace SharpGit.Plumbing.References

open Library Native Svn Implementation

/-- What a `GitRepository` keeps a reference to. -/
inductive Referenced
  | configuration
  | index
  | objectDatabase
  deriving DecidableEq, Repr

inductive ManagedClass
  | repository
  | referenced (what : Referenced)
  deriving DecidableEq, Repr

/-- `GitConfigurationLevel`. -/
inductive Level
  | unspecified
  | system
  | xdg
  | user
  | repository
  | application
  deriving DecidableEq, Repr

/-- What libgit2 is asked about a repository. -/
inductive Flag
  | isEmpty
  | isBare
  | isShallow
  | headDetached
  | headUnborn
  deriving DecidableEq, Repr

/-- The calls that take or return a handle, and the one that looks at the disk. -/
inductive NativeCall
  | checkPath
  | open
  | get (what : Referenced)
  | flag (flag : Flag)
  | hasConflicts
  | entryCount
  | write
  | addByPath (path : CStr)
  | find (path : CStr)
  | read
  | clear
  | getByIndex (pos : Nat)
  | getByPath (path : CStr)
  | remove (path : CStr) (stage : Nat)
  | writeTree
  | openLevel (level : Level)
  | getEntry (key : CStr)
  | setEntry (key : CStr)
  | deleteEntry (key : CStr)
  deriving DecidableEq, Repr

/-- libgit2, over a world of its own; handles are numbers. -/
structure ReferenceApi (W : Type) where
  openRepository : CStr → W → Except Int Unit × W
  initRepository : CStr → W → Except Int Unit × W
  /-- `svn_io_check_path`. -/
  checkPath : CStr → W → Except Int NodeKind × W
  /-- `git_repository_open_ext`, across file systems. -/
  openExt : CStr → W → Except Int Unit × W
  /-- `git_repository_config`, `git_repository_index` and `git_repository_odb`. -/
  get : Referenced → Nat → W → Except Int Unit × W
  flag : Flag → Nat → W → Bool × W
  hasConflicts : Nat → W → Bool × W
  entryCount : Nat → W → Nat × W
  write : Nat → W → Except Int Unit × W
  addByPath : Nat → CStr → W → Except Int Unit × W
  find : Nat → CStr → W → Except Int Nat × W
  /-- `git_index_read`, forced. -/
  read : Nat → W → Except Int Unit × W
  clear : Nat → W → Except Int Unit × W
  getByIndex : Nat → Nat → W → Option IndexEntry × W
  /-- `git_index_get_bypath`, stage 0. -/
  getByPath : Nat → CStr → W → Option IndexEntry × W
  remove : Nat → CStr → Nat → W → Except Int Unit × W
  writeTree : Nat → W → Except Int Oid × W
  openLevel : Nat → Level → W → Except Int Unit × W
  getInt32 : Nat → CStr → W → Except Int Int × W
  getInt64 : Nat → CStr → W → Except Int Int × W
  getString : Nat → CStr → W → Except Int CStr × W
  getBool : Nat → CStr → W → Except Int Bool × W
  setInt32 : Int → Nat → CStr → W → Except Int Unit × W
  setInt64 : Int → Nat → CStr → W → Except Int Unit × W
  setString : CStr → Nat → CStr → W → Except Int Unit × W
  setBool : Bool → Nat → CStr → W → Except Int Unit × W
  deleteEntry : Nat → CStr → W → Except Int Unit × W
  /-- `git_repository_free`, `git_config_free`, `git_index_free` and `git_odb_free`. -/
  free : Nat → W → W

/-- The fields of the managed objects, by the number of the object: `_repository`, `_config`,
`_index` or `_odb`, the repository that a configuration was made for, and what a repository keeps
in `_configuration`, `_indexRef` and `_dbRef`. -/
structure Objects where
  created : Nat
  kind : Nat → Option ManagedClass
  pointer : Nat → Option Nat
  parent : Nat → Option Nat
  reference : Referenced → Nat → Option Nat

structure State (W : Type) where
  objects : Objects
  native : Handling W NativeCall

variable {W α : Type}

abbrev Member (W α : Type) : Type := Action (State W) Failure α

abbrev NativeAction (W α : Type) : Type := Action (Handling W NativeCall) Failure α

def start (w : W) : State W :=
  ⟨⟨0, fun _ => none, fun _ => none, fun _ => none, fun _ _ => none⟩, ⟨w, 0, []⟩⟩

namespace State

def outside (x : NativeAction W α) : Member W α :=
  ⟨fun s => ((x.run s.native).1, { s with native := (x.run s.native).2 })⟩

def withObjects (f : Objects → Objects) : Member W Unit :=
  Action.modify fun s => { s with objects := f s.objects }

def objects? : Member W Objects := do
  let s ← Action.get
  return s.objects

end State

namespace Objects

def setPointer (x : Nat) (handle : Option Nat) (o : Objects) : Objects :=
  { o with pointer := Function.update o.pointer x handle }

def setReference (what : Referenced) (r : Nat) (x : Option Nat) (o : Objects) : Objects :=
  { o with
    reference := Function.update o.reference what (Function.update (o.reference what) r x) }

/-- `gcnew`, with the handle that the constructor takes. -/
def gcnew (kind : ManagedClass) (parent handle : Option Nat) (o : Objects) : Objects :=
  { o with
    created := o.created + 1
    kind := Function.update o.kind o.created (some kind)
    pointer := Function.update o.pointer o.created handle
    parent := Function.update o.parent o.created parent }

def isDisposed (x : Nat) (o : Objects) : Bool := (o.pointer x).isNone

/-- `GitConfiguration::IsDisposed`. -/
def configurationIsDisposed (c : Nat) (o : Objects) : Bool :=
  o.isDisposed c || (o.parent c).any fun r => o.isDisposed r

end Objects

open State

namespace GitRepository

open Plumbing.GitRepository (cutWildcard)

/-- `Open`, `Locate` and `CreateAndOpen`, behind their checks. -/
def openedBy (call : W → Except Int Unit × W) (r : Nat) : Member W Bool := do
  match ← outside (Handling.openOn [] .open call) with
  | .error code => Action.raise (.git code)
  | .ok repository => do
    withObjects (Objects.setPointer r (some repository))
    return true

def assertNotOpen (r : Nat) : Member W Unit := do
  let o ← objects?
  if o.isDisposed r then return () else Action.raise .invalidOperation

variable (api : ReferenceApi W)

def «open» (r : Nat) (repositoryPath : NetString) : Member W Bool := do
  assertNotOpen r
  if repositoryPath = [] then Action.raise (.argumentNull "repositoryPath")
  else openedBy (api.openRepository (allocDirent repositoryPath)) r

def createAndOpen (r : Nat) (repositoryPath : NetString) : Member W Bool := do
  assertNotOpen r
  openedBy (api.initRepository (allocDirent repositoryPath)) r

/-- The walk of `Locate` up to a directory that exists, or to a root. -/
def existing : Nat → CStr → Member W CStr
  | 0, _ => Action.raise .diverges
  | fuel + 1, dirent => do
    match ← outside (Handling.ask [] .checkPath (api.checkPath dirent)) with
    | .error code => Action.raise (.svn code)
    | .ok kind =>
      if kind = .none ∧ svnDirentIsRoot dirent = false then existing fuel (svnDirentDirname dirent)
      else return dirent

def locate (r : Nat) (path : NetString) : Member W Bool := do
  assertNotOpen r
  if path = [] then Action.raise (.argumentNull "path")
  else do
    let dirent ← Action.ofExcept (cutWildcard (allocDirentUpToNul path))
    let dirent ← existing api (dirent.length + 1) dirent
    openedBy (api.openExt dirent) r

/-- `IsEmpty`, `IsBare` and `IsShallow`, which raise on a repository that is not open. -/
def flag (what : Flag) (r : Nat) : Member W Bool := do
  let o ← objects?
  match o.pointer r with
  | none => Action.raise (.objectDisposed "repository")
  | some repository => outside (Handling.ask [repository] (.flag what) (api.flag what repository))

def isEmpty : Nat → Member W Bool := flag api .isEmpty
def isBare : Nat → Member W Bool := flag api .isBare
def isShallow : Nat → Member W Bool := flag api .isShallow

/-- `IsHeadDetached` and `IsHeadUnborn`, which answer false there. -/
def headFlag (what : Flag) (r : Nat) : Member W Bool := do
  let o ← objects?
  match o.pointer r with
  | none => return false
  | some repository => outside (Handling.ask [repository] (.flag what) (api.flag what repository))

def isHeadDetached : Nat → Member W Bool := headFlag api .headDetached
def isHeadUnborn : Nat → Member W Bool := headFlag api .headUnborn

/-- The object for a handle that `git_repository_config`, `git_repository_index` or
`git_repository_odb` returns, kept by the repository. -/
def keepInstance (what : Referenced) (parent : Option Nat) (r repository : Nat) :
    Member W (Option Nat) := do
  match ← outside (Handling.openOn [repository] (.get what) (api.get what repository)) with
  | .error code => Action.raise (.git code)
  | .ok handle => do
    let o ← objects?
    withObjects (Objects.gcnew (.referenced what) parent (some handle))
    withObjects (Objects.setReference what r (some o.created))
    return some o.created

/-- `Configuration` makes a new object whenever it is read. -/
def configuration (r : Nat) : Member W (Option Nat) := do
  let o ← objects?
  match o.pointer r with
  | none => return none
  | some repository => keepInstance api .configuration (some r) r repository

/-- `Index` and `ObjectDatabase` keep the object that they have made. -/
def kept (what : Referenced) (r : Nat) : Member W (Option Nat) := do
  let o ← objects?
  match o.reference what r, o.pointer r with
  | none, some repository => keepInstance api what none r repository
  | found, _ => return found

def index : Nat → Member W (Option Nat) := kept api .index
def objectDatabase : Nat → Member W (Option Nat) := kept api .objectDatabase

end GitRepository

namespace GitIndex

open Plumbing.GitIndex (removeMatches)

variable (api : ReferenceApi W)

def count (i : Nat) : Member W Nat := do
  let o ← objects?
  match o.pointer i with
  | none => return 0
  | some index => outside (Handling.ask [index] .entryCount (api.entryCount index))

def hasConflicts (i : Nat) : Member W Bool := do
  let o ← objects?
  match o.pointer i with
  | none => return false
  | some index => outside (Handling.ask [index] .hasConflicts (api.hasConflicts index))

def assertOpen (i : Nat) : Member W Nat := do
  let o ← objects?
  match o.pointer i with
  | none => Action.raise (.objectDisposed "index")
  | some index => return index

/-- One call on the index, whose result code `HandleGitError` gets. -/
def checked (index : Nat) (what : NativeCall) (call : Nat → W → Except Int α × W) : Member W α := do
  match ← outside (Handling.ask [index] what (call index)) with
  | .error code => Action.raise (.git code)
  | .ok a => return a

def write (i : Nat) : Member W Bool := do
  let index ← assertOpen i
  checked index .write api.write
  return true

def reload (i : Nat) : Member W Bool := do
  let index ← assertOpen i
  checked index .read api.read
  return true

def createTree (i : Nat) : Member W (Bool × Oid) := do
  let index ← assertOpen i
  let id ← checked index .writeTree api.writeTree
  return (true, id)

def add (i : Nat) (relPath : NetString) : Member W Bool := do
  let index ← assertOpen i
  let path := allocRelpath relPath
  if path = [] then Action.raise (.argumentNull "relPath")
  else do
    checked index (.addByPath path) fun index => api.addByPath index path
    return true

/-- The result code of `git_index_clear` is not looked at. -/
def clear (i : Nat) : Member W Bool := do
  let index ← assertOpen i
  let _ ← outside (Handling.ask [index] .clear (api.clear index))
  return true

def contains (i : Nat) (relPath : NetString) : Member W Bool := do
  let index ← assertOpen i
  let path := allocRelpath relPath
  match ← outside (Handling.ask [index] (.find path) (api.find index path)) with
  | .error _ => return false
  | .ok _ => return true

/-- `default[int]`. -/
def itemAt (i : Nat) (pos : Int) : Member W IndexEntry := do
  let index ← assertOpen i
  if pos < 0 then Action.raise (.argumentOutOfRange "index")
  else do
    match ← outside (Handling.ask [index] (.getByIndex pos.toNat)
        (api.getByIndex index pos.toNat)) with
    | none => Action.raise (.argumentOutOfRange "index")
    | some entry => return entry

/-- `default[String^]`. -/
def item (i : Nat) (relativePath : NetString) : Member W IndexEntry := do
  let index ← assertOpen i
  if relativePath = [] then Action.raise (.argumentNull "relativePath")
  else do
    let path := allocRelpath relativePath
    match ← outside (Handling.ask [index] (.getByPath path) (api.getByPath index path)) with
    | none => Action.raise (.argumentOutOfRange "relativePath")
    | some entry => return entry

/-- `git_index_remove` of an entry: whether it succeeds. -/
def removeEntry (index : Nat) (entry : IndexEntry) : Member W Bool := do
  match ← outside (Handling.ask [index] (.remove entry.path entry.stage)
      (api.remove index entry.path entry.stage)) with
  | .error _ => return false
  | .ok () => return true

/-- `Remove(int)`. -/
def removeAt (i : Nat) (pos : Int) : Member W Bool := do
  let index ← assertOpen i
  if pos < 0 then Action.raise (.argumentOutOfRange "index")
  else do
    match ← outside (Handling.ask [index] (.getByIndex pos.toNat)
        (api.getByIndex index pos.toNat)) with
    | none => return false
    | some entry => removeEntry api index entry

/-- The loop of `Remove(String^, bool)`; `fuel` turns are enough, as `pos` goes up and `c` never
does. -/
def removeTurns (index : Nat) (path : CStr) (recursive : Bool) :
    Nat → Nat → Nat → Bool → Member W Bool
  | 0, _, _, deletedOne => return deletedOne
  | fuel + 1, pos, c, deletedOne =>
    if pos < c then do
      match ← outside (Handling.ask [index] (.getByIndex pos) (api.getByIndex index pos)) with
      | none => Action.raise .accessViolation
      | some entry =>
        if removeMatches path recursive entry then do
          let _ ← removeEntry api index entry
          removeTurns index path recursive fuel (pos + 1) (c - 1) true
        else removeTurns index path recursive fuel (pos + 1) c deletedOne
    else return deletedOne

def remove (i : Nat) (relativePath : NetString) (recursive : Bool) : Member W Bool := do
  let index ← assertOpen i
  if relativePath = [] then Action.raise (.argumentNull "relativePath")
  else do
    let c ← outside (Handling.ask [index] .entryCount (api.entryCount index))
    removeTurns api index (allocRelpath relativePath) recursive c 0 c false

end GitIndex

namespace GitConfiguration

def handle (c : Nat) : Member W Nat := do
  let o ← objects?
  if o.configurationIsDisposed c then Action.raise (.objectDisposed "configuration")
  else
    match o.pointer c with
    | none => Action.raise .accessViolation
    | some config => return config

variable (api : ReferenceApi W)

/-- A call on the configuration, or on one of its levels, which is opened and freed for it. -/
def onLevel (config : Nat) (level : Level) (what : NativeCall) (call : Nat → W → Except Int α × W) :
    NativeAction W (Except Int α) :=
  if level = .unspecified then Handling.ask [config] what (call config)
  else do
    match ← Handling.openOn [config] (.openLevel level) (api.openLevel config level) with
    | .error code => return .error code
    | .ok cfg => do
      let r ← Handling.ask [cfg] what (call cfg)
      Handling.release cfg (api.free cfg)
      return r

/-- `TryGet`, with the value that is left where there is none. -/
def tryGet (get : Nat → CStr → W → Except Int α × W) (zero : α) (c : Nat) (level : Level)
    (key : NetString) : Member W (Bool × α) :=
  if key = [] then Action.raise (.argumentNull "key")
  else do
    let config ← handle c
    match ← outside (onLevel api config level (.getEntry (allocString key)) fun cfg =>
        get cfg (allocString key)) with
    | .error _ => return (false, zero)
    | .ok value => return (true, value)

def tryGetInt32 : Nat → Level → NetString → Member W (Bool × Int) := tryGet api api.getInt32 0
def tryGetInt64 : Nat → Level → NetString → Member W (Bool × Int) := tryGet api api.getInt64 0

def tryGetString (c : Nat) (level : Level) (key : NetString) :
    Member W (Bool × Option NetString) := do
  let (found, value) ← tryGet api api.getString [] c level key
  return (found, if found then some (utf8PtrToString value) else none)

/-- The value is assigned to the parameter, a handle of its own: the caller never sees it. -/
def tryGetBoolean (c : Nat) (level : Level) (key : NetString) : Member W Bool := do
  let (found, _) ← tryGet api api.getBool false c level key
  return found

/-- `Set` and `Delete`: the call that changes an entry. -/
def change (what : CStr → NativeCall) (entry : Nat → CStr → W → Except Int Unit × W) (c : Nat)
    (level : Level) (key : NetString) : Member W Bool :=
  if key = [] then Action.raise (.argumentNull "key")
  else do
    let config ← handle c
    match ← outside (onLevel api config level (what (allocString key)) fun cfg =>
        entry cfg (allocString key)) with
    | .error code => Action.raise (.git code)
    | .ok () => return true

def setInt32 (value : Int) : Nat → Level → NetString → Member W Bool :=
  change api .setEntry (api.setInt32 value)
def setInt64 (value : Int) : Nat → Level → NetString → Member W Bool :=
  change api .setEntry (api.setInt64 value)
def setString (value : NetString) : Nat → Level → NetString → Member W Bool :=
  change api .setEntry (api.setString (allocString value))
def setBool (value : Bool) : Nat → Level → NetString → Member W Bool :=
  change api .setEntry (api.setBool value)
def delete : Nat → Level → NetString → Member W Bool := change api .deleteEntry api.deleteEntry

end GitConfiguration

section Disposal

variable (api : ReferenceApi W)

/-- An object frees its handle, if it has one, and forgets it. -/
def free (x : Nat) : Member W Unit := do
  let o ← objects?
  match o.pointer x with
  | none => return ()
  | some handle => do
    outside (Handling.release handle (api.free handle))
    withObjects (Objects.setPointer x none)

/-- One of the references of a repository is deleted, if there is one. -/
def deleteReference (what : Referenced) (r : Nat) : Member W Unit := do
  let o ← objects?
  match o.reference what r with
  | none => return ()
  | some x => free api x

def clearReferences (r : Nat) : Member W Unit := do
  deleteReference api .configuration r
  deleteReference api .index r
  deleteReference api .objectDatabase r
  withObjects (Objects.setReference .configuration r none)
  withObjects (Objects.setReference .index r none)
  withObjects (Objects.setReference .objectDatabase r none)

/-- The destructors. -/
def dispose (x : Nat) : Member W Unit := do
  let o ← objects?
  match o.kind x with
  | none => return ()
  | some (.referenced _) => free api x
  | some .repository => do
    clearReferences api x
    free api x

/-- The finalizers, which do nothing to an object without a handle. -/
def finalize (x : Nat) : Member W Unit := do
  let o ← objects?
  if o.isDisposed x then return () else dispose api x

/-- `GitRepository::Create`. -/
def create (repositoryPath : NetString) : Member W (Option Nat) := do
  let o ← objects?
  withObjects (Objects.gcnew .repository none none)
  match ← Action.attempt (GitRepository.createAndOpen api o.created repositoryPath) with
  | .ok true => return some o.created
  | .ok false => do
    dispose api o.created
    Action.raise .invalidOperation
  | .error e => do
    dispose api o.created
    Action.raise e

end Disposal

inductive Call
  | new
  | create (path : NetString)
  | open (r : Nat) (path : NetString)
  | createAndOpen (r : Nat) (path : NetString)
  | locate (r : Nat) (path : NetString)
  | flag (what : Flag) (r : Nat)
  | headFlag (what : Flag) (r : Nat)
  | configuration (r : Nat)
  | index (r : Nat)
  | objectDatabase (r : Nat)
  | count (i : Nat)
  | hasConflicts (i : Nat)
  | write (i : Nat)
  | reload (i : Nat)
  | createTree (i : Nat)
  | add (i : Nat) (relPath : NetString)
  | clear (i : Nat)
  | contains (i : Nat) (relPath : NetString)
  | itemAt (i : Nat) (pos : Int)
  | item (i : Nat) (relativePath : NetString)
  | removeAt (i : Nat) (pos : Int)
  | remove (i : Nat) (relativePath : NetString) (recursive : Bool)
  | tryGetInt32 (c : Nat) (level : Level) (key : NetString)
  | tryGetInt64 (c : Nat) (level : Level) (key : NetString)
  | tryGetString (c : Nat) (level : Level) (key : NetString)
  | tryGetBoolean (c : Nat) (level : Level) (key : NetString)
  | setInt32 (value : Int) (c : Nat) (level : Level) (key : NetString)
  | setInt64 (value : Int) (c : Nat) (level : Level) (key : NetString)
  | setString (value : NetString) (c : Nat) (level : Level) (key : NetString)
  | setBool (value : Bool) (c : Nat) (level : Level) (key : NetString)
  | delete (c : Nat) (level : Level) (key : NetString)
  | dispose (x : Nat)
  | finalize (x : Nat)
  deriving DecidableEq, Repr

/-- A call on an object of the class; there is no other. -/
def onObject (kind : ManagedClass) (x : Nat) (member : Member W α) : Member W Unit := do
  let o ← objects?
  if o.kind x = some kind then do
    let _ ← member
    return ()
  else return ()

def discard (member : Member W α) : Member W Unit := do
  let _ ← member
  return ()

def perform (api : ReferenceApi W) : Call → Member W Unit
  | .new => withObjects (Objects.gcnew .repository none none)
  | .create path => discard (create api path)
  | .open r path => onObject .repository r (GitRepository.open api r path)
  | .createAndOpen r path => onObject .repository r (GitRepository.createAndOpen api r path)
  | .locate r path => onObject .repository r (GitRepository.locate api r path)
  | .flag what r => onObject .repository r (GitRepository.flag api what r)
  | .headFlag what r => onObject .repository r (GitRepository.headFlag api what r)
  | .configuration r => onObject .repository r (GitRepository.configuration api r)
  | .index r => onObject .repository r (GitRepository.index api r)
  | .objectDatabase r => onObject .repository r (GitRepository.objectDatabase api r)
  | .count i => onObject (.referenced .index) i (GitIndex.count api i)
  | .hasConflicts i => onObject (.referenced .index) i (GitIndex.hasConflicts api i)
  | .write i => onObject (.referenced .index) i (GitIndex.write api i)
  | .reload i => onObject (.referenced .index) i (GitIndex.reload api i)
  | .createTree i => onObject (.referenced .index) i (GitIndex.createTree api i)
  | .add i relPath => onObject (.referenced .index) i (GitIndex.add api i relPath)
  | .clear i => onObject (.referenced .index) i (GitIndex.clear api i)
  | .contains i relPath => onObject (.referenced .index) i (GitIndex.contains api i relPath)
  | .itemAt i pos => onObject (.referenced .index) i (GitIndex.itemAt api i pos)
  | .item i relativePath => onObject (.referenced .index) i (GitIndex.item api i relativePath)
  | .removeAt i pos => onObject (.referenced .index) i (GitIndex.removeAt api i pos)
  | .remove i relativePath recursive =>
    onObject (.referenced .index) i (GitIndex.remove api i relativePath recursive)
  | .tryGetInt32 c level key =>
    onObject (.referenced .configuration) c (GitConfiguration.tryGetInt32 api c level key)
  | .tryGetInt64 c level key =>
    onObject (.referenced .configuration) c (GitConfiguration.tryGetInt64 api c level key)
  | .tryGetString c level key =>
    onObject (.referenced .configuration) c (GitConfiguration.tryGetString api c level key)
  | .tryGetBoolean c level key =>
    onObject (.referenced .configuration) c (GitConfiguration.tryGetBoolean api c level key)
  | .setInt32 value c level key =>
    onObject (.referenced .configuration) c (GitConfiguration.setInt32 api value c level key)
  | .setInt64 value c level key =>
    onObject (.referenced .configuration) c (GitConfiguration.setInt64 api value c level key)
  | .setString value c level key =>
    onObject (.referenced .configuration) c (GitConfiguration.setString api value c level key)
  | .setBool value c level key =>
    onObject (.referenced .configuration) c (GitConfiguration.setBool api value c level key)
  | .delete c level key =>
    onObject (.referenced .configuration) c (GitConfiguration.delete api c level key)
  | .dispose x => dispose api x
  | .finalize x => finalize api x

/-- A member that raises leaves what it has done. -/
def step (api : ReferenceApi W) (s : State W) (call : Call) : State W :=
  ((perform api call).run s).2

def run (api : ReferenceApi W) (w : W) (calls : List Call) : State W :=
  Events.run (step api) (start w) calls

end SharpGit.Plumbing.References
