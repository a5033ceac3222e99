import Mathlib.Logic.Function.Basic
import SharpGit.Library.Runs
import SharpGit.Plumbing.GitTreeDescendants

namespace SharpGit.Plumbing

open Library Native Implementation

/-- The trees that are disposed, and the `_relativePath` that the entries keep. -/
structure Wrappers where
  isDisposed : TreeObject → Bool
  relativePath : GitTreeEntry → Option NetString

namespace Wrappers

def start : Wrappers := ⟨fun _ => false, fun _ => none⟩

def keep (w : Wrappers) (e : GitTreeEntry) (path : NetString) : Wrappers :=
  { w with relativePath := Function.update w.relativePath e (some path) }

@[simp] theorem keep_isDisposed (w : Wrappers) (e : GitTreeEntry) (path : NetString) :
    (w.keep e path).isDisposed = w.isDisposed := rfl

@[simp] theorem keep_relativePath (w : Wrappers) (e : GitTreeEntry) (path : NetString) :
    (w.keep e path).relativePath = Function.update w.relativePath e (some path) := rfl

/-- The getter of `RelativePath` around what it computes. -/
def readPath (w : Wrappers) (e : GitTreeEntry) (compute : NetString × Wrappers) :
    Option NetString × Wrappers :=
  match w.relativePath e with
  | some path => (some path, w)
  | none =>
    if w.isDisposed e.tree then (none, w)
    else
      let (path, w) := compute
      (some path, w.keep e path)

end Wrappers

/-- `RelativePath` of an entry of the tree; a null string in front of "/" counts as empty. -/
def TreeObject.getRelativePath (w : Wrappers) : TreeObject → NamedEntry →
    Option NetString × Wrappers
  | root tree, entry => w.readPath ⟨root tree, entry⟩ (utf8PtrToString entry.name, w)
  | ofEntry parent parentEntry tree, entry =>
    let (front, after) := parent.getRelativePath w parentEntry
    w.readPath ⟨ofEntry parent parentEntry tree, entry⟩
      (front.getD [] ++ 0x2f :: utf8PtrToString entry.name, after)

namespace GitTreeEntry

def getRelativePath (e : GitTreeEntry) (w : Wrappers) : Option NetString × Wrappers :=
  e.tree.getRelativePath w e.entry

/-- `CompareTo`: `cmp` is `git_tree_entry_cmp` and `compare` is `String::Compare`. -/
def compareTo (cmp : NamedEntry → NamedEntry → Int)
    (compare : Option NetString → Option NetString → Int) (e : GitTreeEntry)
    (other : Option GitTreeEntry) (w : Wrappers) : Int × Wrappers :=
  match other with
  | none => (-1, w)
  | some other =>
    if !w.isDisposed e.tree && !w.isDisposed other.tree then (cmp e.entry other.entry, w)
    else
      let (path, w) := e.getRelativePath w
      let (otherPath, w) := other.getRelativePath w
      (compare path otherPath, w)

def equals (cmp : NamedEntry → NamedEntry → Int)
    (compare : Option NetString → Option NetString → Int) (e : GitTreeEntry)
    (other : Option GitTreeEntry) (w : Wrappers) : Bool × Wrappers :=
  let (n, w) := e.compareTo cmp compare other w
  (0 == n, w)

/-- `GetHashCode`, with the hash of `StringComparer::Ordinal`. -/
def getHashCode (hash : NetString → Int) (e : GitTreeEntry) (w : Wrappers) :
    Except Failure Int × Wrappers :=
  let (path, w) := e.getRelativePath w
  (match path with
    | some path => .ok (hash path)
    | none => .error (.argumentNull "obj"), w)

end GitTreeEntry

inductive WrapperEvent
  | read (e : GitTreeEntry)
  | dispose (tree : TreeObject)

def Wrappers.step (w : Wrappers) : WrapperEvent → Wrappers
  | .read e => (e.getRelativePath w).2
  | .dispose tree => { w with isDisposed := Function.update w.isDisposed tree true }

/-- The tree and those it was reached through are not disposed. -/
def TreeObject.Open (w : Wrappers) : TreeObject → Prop
  | root tree => w.isDisposed (root tree) = false
  | ofEntry parent parentEntry tree =>
    w.isDisposed (ofEntry parent parentEntry tree) = false ∧ parent.Open w

namespace Wrappers

/-- What is kept for an entry of an open tree is its path. -/
def Faithful (w : Wrappers) : Prop :=
  ∀ (e : GitTreeEntry) (path : NetString), e.tree.Open w → w.relativePath e = some path →
    path = e.relativePath

/-- The answer of `RelativePath` and what the entries keep after it. -/
structure Answers (w : Wrappers) (e : GitTreeEntry) (answer : Option NetString × Wrappers) :
    Prop where
  isDisposed : answer.2.isDisposed = w.isDisposed
  faithful : answer.2.Faithful
  path : e.tree.Open w → answer.1 = some e.relativePath

end Wrappers

theorem TreeObject.Open.isDisposed {w : Wrappers} {object : TreeObject} (h : object.Open w) :
    w.isDisposed object = false := by
  cases object with
  | root tree => exact h
  | ofEntry parent parentEntry tree => exact h.1

/-- Only what is disposed tells which trees are open. -/
theorem TreeObject.open_congr {w after : Wrappers} (h : after.isDisposed = w.isDisposed)
    (object : TreeObject) : object.Open after ↔ object.Open w := by
  induction object with
  | root tree => rw [Open, Open, h]
  | ofEntry parent parentEntry tree ih => rw [Open, Open, h, ih]

namespace Wrappers

theorem keep_faithful {w : Wrappers} (h : w.Faithful) {e : GitTreeEntry} {path : NetString}
    (hpath : e.tree.Open w → path = e.relativePath) : (w.keep e path).Faithful := by
  intro f kept hopen hkept
  replace hopen : f.tree.Open w := (f.tree.open_congr (keep_isDisposed w e path)).mp hopen
  by_cases hsame : f = e
  · subst hsame
    rw [keep_relativePath, Function.update_self] at hkept
    obtain rfl := Option.some.inj hkept
    exact hpath hopen
  · rw [keep_relativePath, Function.update_of_ne hsame] at hkept
    exact h f kept hopen hkept

theorem readPath_answers {w after : Wrappers} {e : GitTreeEntry} {path : NetString}
    (hw : w.Faithful) (hdisposed : after.isDisposed = w.isDisposed) (hafter : after.Faithful)
    (hpath : e.tree.Open w → path = e.relativePath) :
    w.Answers e (w.readPath e (path, after)) := by
  rw [readPath]
  cases hkept : w.relativePath e with
  | some kept => exact ⟨rfl, hw, fun hopen => congrArg some (hw e kept hopen hkept)⟩
  | none =>
    by_cases hclosed : w.isDisposed e.tree = true
    · simp only [hclosed, if_true]
      refine ⟨rfl, hw, fun hopen => ?_⟩
      rw [hopen.isDisposed] at hclosed
      cases hclosed
    · simp only [if_neg hclosed]
      refine ⟨hdisposed, keep_faithful hafter ?_, fun hopen => congrArg some (hpath hopen)⟩
      exact fun hopen => hpath ((e.tree.open_congr hdisposed).mp hopen)

end Wrappers

/-- Read in any order, `RelativePath` answers the path of an entry whose trees are open. -/
theorem TreeObject.getRelativePath_answers {w : Wrappers} (hw : w.Faithful) (object : TreeObject)
    (entry : NamedEntry) : w.Answers ⟨object, entry⟩ (object.getRelativePath w entry) := by
  induction object generalizing entry with
  | root tree => exact Wrappers.readPath_answers hw rfl hw fun _ => rfl
  | ofEntry parent parentEntry tree ih =>
    have hparent := ih parentEntry
    apply Wrappers.readPath_answers hw hparent.isDisposed hparent.faithful
    intro hopen
    rw [hparent.path hopen.2]
    rfl

/-- What is open afterwards was open before. -/
theorem TreeObject.Open.of_dispose {w : Wrappers} {tree object : TreeObject}
    (h : object.Open (w.step (.dispose tree))) : object.Open w := by
  have hbefore {t : TreeObject} (ht : (w.step (.dispose tree)).isDisposed t = false) :
      w.isDisposed t = false := by
    replace ht : Function.update w.isDisposed tree true t = false := ht
    by_cases hsame : t = tree
    · rw [hsame, Function.update_self] at ht
      cases ht
    · rwa [Function.update_of_ne hsame] at ht
  induction object with
  | root t => exact hbefore h
  | ofEntry parent parentEntry t ih => exact ⟨hbefore h.1, ih h.2⟩

namespace Wrappers

theorem step_faithful {w : Wrappers} (h : w.Faithful) (event : WrapperEvent) :
    (w.step event).Faithful := by
  cases event with
  | read e => exact (e.tree.getRelativePath_answers h e.entry).faithful
  | dispose tree => exact fun e path hopen hkept => h e path hopen.of_dispose hkept

theorem run_faithful (events : List WrapperEvent) : (Events.run step start events).Faithful := by
  refine Events.run_invariant Faithful (fun w event h => step_faithful h event) ?_ events
  intro e path _ h
  cases h

end Wrappers

/-- The name by which git sorts the entries of a tree. -/
def NamedEntry.treeKey (entry : NamedEntry) : CStr :=
  if isTreeMode entry.mode then entry.name ++ [slash] else entry.name

/-- `git_tree_entry_cmp` orders file names as a tree does. -/
def TreeOrder (cmp : NamedEntry → NamedEntry → Int) : Prop :=
  ∀ a b : NamedEntry, slash ∉ a.name → slash ∉ b.name →
    (cmp a b).sign = (strcmp a.treeKey b.treeKey).sign

namespace TreeObject

/-- The names of the directories that the tree was reached through. -/
def directories (object : TreeObject) : List NetString :=
  object.parents.map fun entry => utf8PtrToString entry.name

/-- Each entry on the way to the tree is one of the tree above it. -/
def Placed : TreeObject → Prop
  | root tree => tree.WellFormed
  | ofEntry parent parentEntry tree =>
    parentEntry ∈ parent.tree.entries ∧ parent.Placed ∧ tree.WellFormed

end TreeObject

namespace GitTreeEntry

def Placed (e : GitTreeEntry) : Prop := e.entry ∈ e.tree.tree.entries ∧ e.tree.Placed

/-- What is asked of two entries. Equal hash codes mean something where every hash has them. -/
structure Coherent (cmp : NamedEntry → NamedEntry → Int)
    (compare : Option NetString → Option NetString → Int) (w : Wrappers) (a b : GitTreeEntry) :
    Prop where
  hash : (a.equals cmp compare (some b) w).1 = true →
    ∀ hash, (a.getHashCode hash w).1 = (b.getHashCode hash w).1
  path : (a.compareTo cmp compare (some b) w).1 = 0 →
    (a.getRelativePath w).1 = (b.getRelativePath w).1

/-- The same file name and kind, reached through directories of other names. -/
def SameNameElsewhere (a b : GitTreeEntry) : Prop :=
  a.entry.name = b.entry.name ∧ isTreeMode a.entry.mode = isTreeMode b.entry.mode ∧
    a.tree.directories ≠ b.tree.directories

end GitTreeEntry

theorem GitTree.WellFormed.slash_not_mem_name {tree : GitTree} (hwf : tree.WellFormed)
    {entry : NamedEntry} (h : entry ∈ tree.entries) : slash ∉ entry.name := by
  induction tree with
  | nil => cases h
  | blob name mode id rest ih =>
    obtain ⟨-, hslash, -, hrest⟩ := hwf
    rcases List.mem_cons.mp h with rfl | h
    · exact hslash
    · exact ih hrest h
  | subtree name id entries rest ihe ihr =>
    obtain ⟨-, hslash, -, hrest⟩ := hwf
    rcases List.mem_cons.mp h with rfl | h
    · exact hslash
    · exact ihr hrest h

namespace TreeObject

theorem Placed.wellFormed {object : TreeObject} (h : object.Placed) : object.tree.WellFormed := by
  cases object with
  | root tree => exact h
  | ofEntry parent parentEntry tree => exact h.2.2

theorem Placed.slash_not_mem {object : TreeObject} (h : object.Placed) {entry : NamedEntry}
    (hentry : entry ∈ object.parents) : slash ∉ entry.name := by
  induction object with
  | root tree => cases hentry
  | ofEntry parent parentEntry tree ih =>
    rcases List.mem_append.mp hentry with hentry | hentry
    · exact ih h.2.1 hentry
    · rw [List.mem_singleton.mp hentry]
      exact h.2.1.wellFormed.slash_not_mem_name h.1

end TreeObject

theorem slash_not_mem_utf8PtrToString {s : CStr} (h : slash ∉ s) : 0x2f ∉ utf8PtrToString s := by
  intro hmem
  obtain ⟨b, hb, heq⟩ := ascii_mem_utf8GetString (by decide) hmem
  have hslash : b = slash := UInt8.toNat_inj.mp heq
  exact h (hslash ▸ hb)

/-- The '/' is at the end of a key or nowhere. -/
theorem NamedEntry.treeKey_inj {a b : NamedEntry} (ha : slash ∉ a.name) (hb : slash ∉ b.name) :
    a.treeKey = b.treeKey ↔ a.name = b.name ∧ isTreeMode a.mode = isTreeMode b.mode := by
  constructor
  · intro h
    rw [treeKey, treeKey] at h
    split at h <;> split at h
    · exact ⟨List.append_cancel_right h, by simp [*]⟩
    · exact absurd (by simp [← h]) hb
    · exact absurd (by simp [h]) ha
    · exact ⟨h, by simp [*]⟩
  · intro ⟨hname, hmode⟩
    rw [treeKey, treeKey, hname, hmode]

theorem TreeOrder.eq_zero_iff {cmp : NamedEntry → NamedEntry → Int} (hcmp : TreeOrder cmp)
    {a b : NamedEntry} (ha : slash ∉ a.name) (hb : slash ∉ b.name) :
    cmp a b = 0 ↔ a.name = b.name ∧ isTreeMode a.mode = isTreeMode b.mode := by
  rw [← Int.sign_eq_zero_iff_zero, hcmp a b ha hb, Int.sign_eq_zero_iff_zero, strcmp_eq_zero,
    NamedEntry.treeKey_inj ha hb]

namespace GitTreeEntry

theorem slash_not_mem {e : GitTreeEntry} (h : e.Placed) : slash ∉ e.entry.name :=
  h.2.wellFormed.slash_not_mem_name h.1

/-- A path tells the names on it. -/
theorem relativePath_eq_iff {a b : GitTreeEntry} (ha : a.Placed) (hb : b.Placed)
    (hname : a.entry.name = b.entry.name) :
    a.relativePath = b.relativePath ↔ a.tree.directories = b.tree.directories := by
  have hnames {e : GitTreeEntry} (he : e.Placed) :
      List.splitOn 0x2f e.relativePath = e.tree.directories ++ [utf8PtrToString e.entry.name] := by
    rw [relativePath, TreeObject.relativePath_eq, joinEntries, List.splitOn_intercalate]
    · rw [List.map_append]
      rfl
    · intro name hmem
      obtain ⟨entry, hentry, rfl⟩ := List.mem_map.mp hmem
      apply slash_not_mem_utf8PtrToString
      rcases List.mem_append.mp hentry with hentry | hentry
      · exact he.2.slash_not_mem hentry
      · rw [List.mem_singleton.mp hentry]
        exact slash_not_mem he
    · simp
  constructor
  · intro h
    have hlist := hnames ha
    rw [h, hnames hb, hname] at hlist
    exact (List.append_cancel_right hlist).symm
  · intro h
    have hlist := hnames ha
    rw [h, hname, ← hnames hb] at hlist
    have hjoin := congrArg ([0x2f].intercalate ·) hlist
    rwa [List.intercalate_splitOn, List.intercalate_splitOn] at hjoin

section Compare

variable {cmp : NamedEntry → NamedEntry → Int}
  {compare : Option NetString → Option NetString → Int} {w : Wrappers} {a b : GitTreeEntry}

/-- Between open trees the native order decides. -/
theorem compareTo_open (ha : a.tree.Open w) (hb : b.tree.Open w) :
    a.compareTo cmp compare (some b) w = (cmp a.entry b.entry, w) := by
  simp [compareTo, ha.isDisposed, hb.isDisposed]

theorem getRelativePath_open (hw : w.Faithful) (ha : a.tree.Open w) :
    (a.getRelativePath w).1 = some a.relativePath :=
  (a.tree.getRelativePath_answers hw a.entry).path ha

theorem getHashCode_open (hw : w.Faithful) (ha : a.tree.Open w) (hash : NetString → Int) :
    (a.getHashCode hash w).1 = .ok (hash a.relativePath) := by
  have hpath := getRelativePath_open hw ha
  rw [getHashCode]
  dsimp only
  rw [hpath]

/-- Every hash is the same just for one path. -/
theorem getHashCode_eq_iff (hw : w.Faithful) (ha : a.tree.Open w) (hb : b.tree.Open w) :
    (∀ hash, (a.getHashCode hash w).1 = (b.getHashCode hash w).1) ↔
      a.relativePath = b.relativePath := by
  constructor
  · intro h
    by_contra hne
    have hhash := h fun path => if path = a.relativePath then 1 else 0
    rw [getHashCode_open hw ha, getHashCode_open hw hb, if_pos rfl, if_neg (Ne.symm hne)] at hhash
    cases hhash
  · intro h hash
    rw [getHashCode_open hw ha, getHashCode_open hw hb, h]

theorem coherent_open (hw : w.Faithful) (ha : a.tree.Open w) (hb : b.tree.Open w) :
    Coherent cmp compare w a b ↔ (cmp a.entry b.entry = 0 → a.relativePath = b.relativePath) := by
  have hequals : (a.equals cmp compare (some b) w).1 = true ↔ cmp a.entry b.entry = 0 := by
    rw [equals, compareTo_open ha hb, beq_iff_eq]
    exact eq_comm
  have hpath : (a.getRelativePath w).1 = (b.getRelativePath w).1 ↔
      a.relativePath = b.relativePath := by
    rw [getRelativePath_open hw ha, getRelativePath_open hw hb, Option.some_inj]
  constructor
  · intro h hzero
    refine hpath.mp (h.path ?_)
    rw [compareTo_open ha hb]
    exact hzero
  · intro h
    constructor
    · intro heq
      exact (getHashCode_eq_iff hw ha hb).mpr (h (hequals.mp heq))
    · intro hzero
      rw [compareTo_open ha hb] at hzero
      exact hpath.mpr (h hzero)

end Compare

/-- Whatever has been read and disposed before, two entries of open trees disagree just where one
name stands in different directories. -/
theorem coherent_iff (cmp : NamedEntry → NamedEntry → Int) (hcmp : TreeOrder cmp)
    (compare : Option NetString → Option NetString → Int) (events : List WrapperEvent)
    (a b : GitTreeEntry) (ha : a.Placed) (hb : b.Placed)
    (hopena : a.tree.Open (Events.run Wrappers.step Wrappers.start events))
    (hopenb : b.tree.Open (Events.run Wrappers.step Wrappers.start events)) :
    Coherent cmp compare (Events.run Wrappers.step Wrappers.start events) a b ↔
      ¬SameNameElsewhere a b := by
  rw [coherent_open (Wrappers.run_faithful events) hopena hopenb, SameNameElsewhere,
    hcmp.eq_zero_iff (slash_not_mem ha) (slash_not_mem hb)]
  constructor
  · intro h ⟨hname, hmode, hpath⟩
    exact hpath ((relativePath_eq_iff ha hb hname).mp (h ⟨hname, hmode⟩))
  · intro h ⟨hname, hmode⟩
    by_contra hne
    exact h ⟨hname, hmode, fun hpath => hne ((relativePath_eq_iff ha hb hname).mpr hpath)⟩

/-- `git_tree_entry_cmp`, by the keys. -/
def treeEntryCmp (a b : NamedEntry) : Int := strcmp a.treeKey b.treeKey

theorem treeEntryCmp_order : TreeOrder treeEntryCmp := fun _ _ _ _ => rfl

/-- "f" at the root and "d/f", of a tree with both. -/
def twiceNamedTree : GitTree := .subtree [0x64] [9] exampleDirectory exampleDirectory

def rootFile : GitTreeEntry := ⟨.root twiceNamedTree, fileEntry⟩

def directoryFile : GitTreeEntry :=
  ⟨.ofEntry (.root twiceNamedTree) directoryEntry exampleDirectory, fileEntry⟩

/-- `String::Compare`, as far as equal strings go. -/
def exampleCompare (s t : Option NetString) : Int := if s = t then 0 else 1

theorem rootFile_placed : rootFile.Placed := by
  refine ⟨by decide, ?_⟩
  simp only [rootFile, TreeObject.Placed, twiceNamedTree, exampleDirectory, GitTree.WellFormed]
  decide

theorem directoryFile_placed : directoryFile.Placed := by
  refine ⟨by decide, ?_⟩
  simp only [directoryFile, TreeObject.Placed, twiceNamedTree, exampleDirectory,
    GitTree.WellFormed]
  decide

/-- "d" of the same tree. -/
def rootDirectory : GitTreeEntry := ⟨.root twiceNamedTree, directoryEntry⟩

theorem rootDirectory_placed : rootDirectory.Placed := ⟨by decide, rootFile_placed.2⟩

/-- "d/f" has another name than "d". -/
theorem coherent_iff_example :
    Coherent treeEntryCmp exampleCompare
      (Events.run Wrappers.step Wrappers.start [.read directoryFile]) rootDirectory
        directoryFile := by
  apply (coherent_iff treeEntryCmp treeEntryCmp_order exampleCompare [.read directoryFile]
    rootDirectory directoryFile rootDirectory_placed directoryFile_placed rfl ⟨rfl, rfl⟩).mpr
  intro hsame
  exact absurd hsame.1 (by decide)

/-- "f" and "d/f" are equal, with different paths and hash codes. -/
theorem equals_other_tree :
    (rootFile.equals treeEntryCmp exampleCompare (some directoryFile) Wrappers.start).1 = true ∧
      (rootFile.getRelativePath Wrappers.start).1 = some [0x66] ∧
      (directoryFile.getRelativePath Wrappers.start).1 = some [0x64, 0x2f, 0x66] ∧
      ¬∀ (cmp : NamedEntry → NamedEntry → Int)
        (compare : Option NetString → Option NetString → Int) (events : List WrapperEvent)
        (a b : GitTreeEntry), TreeOrder cmp → a.Placed → b.Placed →
          a.tree.Open (Events.run Wrappers.step Wrappers.start events) →
          b.tree.Open (Events.run Wrappers.step Wrappers.start events) →
            Coherent cmp compare (Events.run Wrappers.step Wrappers.start events) a b := by
  refine ⟨by decide, by decide, by decide, ?_⟩
  intro h
  have hcoherent := h treeEntryCmp exampleCompare [] rootFile directoryFile treeEntryCmp_order
    rootFile_placed directoryFile_placed rfl ⟨rfl, rfl⟩
  exact absurd (hcoherent.path (by decide)) (by decide)

end GitTreeEntry

end SharpGit.Plumbing
