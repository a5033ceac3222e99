import SharpGit.Library.Records
import SharpGit.Plumbing.GitRepository

namespace SharpGit.Plumbing

open Library Native Svn

abbrev Oid := List UInt8

/-- The fields of a `git_index_entry` that the code reads or writes. -/
structure IndexEntry where
  path : CStr
  stage : Nat
  mode : Nat
  id : Oid
  deriving DecidableEq, Repr

abbrev Index := List IndexEntry

/-- The index functions of libgit2: each gives a result code, the ones that change an index
also the index after the call. -/
structure IndexApi where
  openIndex : FileSystem → NativeRepository → Int
  remove : Index → CStr → Nat → Int × Index
  removeDirectory : Index → CStr → Nat → Int × Index
  add : Index → IndexEntry → Int × Index
  addByPath : FileSystem → NativeRepository → Index → CStr → Int × Index
  write : NativeRepository → Index → Int

/-- What lives on after a call: the files, and the index file of each repository. -/
structure Disk where
  fs : FileSystem
  index : NativeRepository → Index

def Disk.setIndex (disk : Disk) (native : NativeRepository) (index : Index) : Disk :=
  { disk with index := fun other => if other = native then index else disk.index other }

/-- Byte order of the paths, the stages of one path in order. -/
def entryLt (e f : IndexEntry) : Prop :=
  strcmp e.path f.path < 0 ∨ (e.path = f.path ∧ e.stage < f.stage)

def SortedIndex (index : Index) : Prop := index.Pairwise entryLt

def sameKey (path : CStr) (stage : Nat) (e : IndexEntry) : Bool := e.path = path && e.stage = stage

/-- `path` lies below the directory `dir`; everything lies below the root. -/
def Below (dir path : CStr) : Prop := dir = [] ∨ dir ++ [slash] <+: path

instance (dir path : CStr) : Decidable (Below dir path) := inferInstanceAs (Decidable (_ ∨ _))

/-- The file type bits of a directory. -/
def isTreeMode (mode : Nat) : Bool := mode &&& 0o170000 = 0o040000

/-- One of the two would have to be a file and a directory. -/
def Collides (path other : CStr) : Prop := path ++ [slash] <+: other ∨ other ++ [slash] <+: path

instance (path other : CStr) : Decidable (Collides path other) :=
  inferInstanceAs (Decidable (_ ∨ _))

/-- What adding by path takes out: the path at every stage, and file/directory collisions. -/
def ReplacedByPath (path : CStr) (f : IndexEntry) : Prop :=
  f.path = path ∨ (f.stage = 0 ∧ Collides path f.path)

instance (path : CStr) (f : IndexEntry) : Decidable (ReplacedByPath path f) :=
  inferInstanceAs (Decidable (_ ∨ _))

/-- What adding an entry takes out: the old entry at its stage, and collisions there. -/
def ReplacedByEntry (e f : IndexEntry) : Prop :=
  f.stage = e.stage ∧ (f.path = e.path ∨ Collides e.path f.path)

instance (e f : IndexEntry) : Decidable (ReplacedByEntry e f) :=
  inferInstanceAs (Decidable (_ ∧ _))

structure Places (e : IndexEntry) (dropped : IndexEntry → Prop) (index after : Index) : Prop where
  sorted : SortedIndex after
  mem : ∀ f, f ∈ after ↔ f = e ∨ (f ∈ index ∧ ¬dropped f)

/-- `git_index_remove` takes out the one entry with this path and stage. -/
def IndexApi.Removes (api : IndexApi) : Prop :=
  ∀ index path stage, SortedIndex index → (∃ e ∈ index, sameKey path stage e = true) →
    api.remove index path stage = (0, index.filter fun e => !sameKey path stage e)

/-- What a `git_index_add` that succeeds has done. -/
def IndexApi.Adds (api : IndexApi) : Prop :=
  ∀ index e after, SortedIndex index → api.add index e = (0, after) →
    Places e (ReplacedByEntry e) index after

/-- `git_index_add` rejects an entry with a tree mode. -/
def IndexApi.RejectsTrees (api : IndexApi) : Prop :=
  ∀ index e, isTreeMode e.mode = true → (api.add index e).1 ≠ 0

/-- What libgit2 documents of the other functions that change an index. -/
structure IndexApi.Lawful (api : IndexApi) : Prop where
  removes : api.Removes
  removesDirectory : ∀ index dir stage, SortedIndex index →
    api.removeDirectory index dir stage =
      (0, index.filter fun e => ¬(Below dir e.path ∧ e.stage = stage))
  addsByPath : ∀ fs native index path after, SortedIndex index →
    api.addByPath fs native index path = (0, after) →
    ∃ mode id, isTreeMode mode = false ∧
      Places ⟨path, 0, mode, id⟩ (ReplacedByPath path) index after

@[simp] theorem Disk.setIndex_index (disk : Disk) (native : NativeRepository) (index : Index) :
    (disk.setIndex native index).index native = index := by
  simp [setIndex]

@[simp] theorem Disk.setIndex_fs (disk : Disk) (native : NativeRepository) (index : Index) :
    (disk.setIndex native index).fs = disk.fs := rfl

theorem SortedIndex.sublist {index index' : Index} (h : SortedIndex index)
    (hs : index'.Sublist index) : SortedIndex index' :=
  List.Pairwise.sublist hs h

theorem sameKey_iff {path : CStr} {stage : Nat} {e : IndexEntry} :
    sameKey path stage e = true ↔ e.path = path ∧ e.stage = stage := by
  simp [sameKey]

theorem entryLt.key_ne {e f : IndexEntry} (h : entryLt e f) :
    sameKey f.path f.stage e = false ∧ sameKey e.path e.stage f = false := by
  have hne : e.path = f.path → e.stage ≠ f.stage := by
    intro hp
    obtain h | h := h
    · rw [hp, strcmp_self] at h
      exact absurd h (by decide)
    · exact Nat.ne_of_lt h.2
  simp only [sameKey, Bool.and_eq_false_iff, decide_eq_false_iff_not]
  constructor
  · by_cases hp : e.path = f.path
    · exact .inr (hne hp)
    · exact .inl hp
  · by_cases hp : e.path = f.path
    · exact .inr (hne hp).symm
    · exact .inl (Ne.symm hp)

theorem entryLt.trans {e f g : IndexEntry} (hef : entryLt e f) (hfg : entryLt f g) :
    entryLt e g := by
  obtain hef | ⟨hp, hst⟩ := hef <;> obtain hfg | ⟨hp', hst'⟩ := hfg
  · exact .inl (strcmp_lt_trans hef hfg)
  · exact .inl (hp' ▸ hef)
  · exact .inl (hp ▸ hfg)
  · exact .inr ⟨hp.trans hp', hst.trans hst'⟩

instance : IsTrans IndexEntry entryLt := ⟨fun _ _ _ => entryLt.trans⟩

theorem entryLt_irrefl (e : IndexEntry) : ¬entryLt e e := by
  intro h
  have := h.key_ne.1
  simp [sameKey] at this

instance : Std.Irrefl entryLt := ⟨entryLt_irrefl⟩

instance : Std.Antisymm entryLt := ⟨fun e _ h h' => absurd (h.trans h') (entryLt_irrefl e)⟩

theorem entryLt_total {e f : IndexEntry} (h : sameKey e.path e.stage f = false) :
    entryLt f e ∨ entryLt e f := by
  obtain hlt | heq | hgt := strcmp_trichotomy f.path e.path
  · exact .inl (.inl hlt)
  · have hst : f.stage ≠ e.stage := by simpa [sameKey, heq] using h
    obtain hlt | hgt := Nat.lt_or_gt_of_ne hst
    · exact .inl (.inr ⟨heq, hlt⟩)
    · exact .inr (.inr ⟨heq.symm, hgt⟩)
  · exact .inr (.inl hgt)

instance (e f : IndexEntry) : Decidable (entryLt e f) := inferInstanceAs (Decidable (_ ∨ _))

instance (index : Index) : Decidable (SortedIndex index) :=
  inferInstanceAs (Decidable (List.Pairwise entryLt index))

/-- A sorted index is known by its entries. -/
theorem SortedIndex.ext {index index' : Index} (h : SortedIndex index) (h' : SortedIndex index')
    (hmem : ∀ e, e ∈ index ↔ e ∈ index') : index = index' :=
  List.Pairwise.eq_of_mem_iff h h' hmem

theorem SortedIndex.eq_of_key {index : Index} (h : SortedIndex index) {e f : IndexEntry}
    (he : e ∈ index) (hf : f ∈ index) (hpath : e.path = f.path) (hstage : e.stage = f.stage) :
    e = f := by
  have hne {a b : IndexEntry} (hlt : entryLt a b) : ¬(a.path = b.path ∧ a.stage = b.stage) := by
    intro hkey
    exact absurd (sameKey_iff.mpr hkey) (by rw [hlt.key_ne.1]; exact Bool.false_ne_true)
  by_contra hdiffer
  obtain ⟨i, hi, rfl⟩ := List.mem_iff_getElem.mp he
  obtain ⟨j, hj, rfl⟩ := List.mem_iff_getElem.mp hf
  have hpairs := List.pairwise_iff_getElem.mp h
  obtain hlt | heq | hgt := Nat.lt_trichotomy i j
  · exact hne (hpairs i j hi hj hlt) ⟨hpath, hstage⟩
  · subst heq
    exact hdiffer rfl
  · exact hne (hpairs j i hj hi hgt) ⟨hpath.symm, hstage.symm⟩

/-- In a sorted index an entry before another comes before it. -/
theorem SortedIndex.mem_take {index : Index} (hs : SortedIndex index) {i : Nat}
    (hi : i < index.length) {e : IndexEntry} (he : e ∈ index) (hlt : entryLt e index[i]) :
    e ∈ index.take i := by
  obtain ⟨j, hj, rfl⟩ := List.mem_iff_getElem.mp he
  have hpairs := List.pairwise_iff_getElem.mp hs
  obtain hij | rfl | hji := Nat.lt_trichotomy j i
  · exact List.mem_take_iff_getElem.mpr ⟨j, by omega, rfl⟩
  · exact absurd hlt (entryLt_irrefl _)
  · exact absurd (hlt.trans (hpairs i j hi hj hji)) (entryLt_irrefl _)

/-- The entries dropped, the new one put at its place. -/
def placeEntry (e : IndexEntry) (dropped : IndexEntry → Prop) [DecidablePred dropped]
    (index : Index) : Index :=
  place entryLt e (index.filter fun f => ¬dropped f)

theorem placeEntry_places {e : IndexEntry} {dropped : IndexEntry → Prop} [DecidablePred dropped]
    (hkey : ∀ f, sameKey e.path e.stage f = true → dropped f) {index : Index}
    (hs : SortedIndex index) : Places e dropped index (placeEntry e dropped index) := by
  constructor
  · exact place_pairwise (hs.sublist List.filter_sublist) e
  · intro f
    rw [placeEntry, mem_place, List.mem_filter, decide_eq_true_eq]
    intro g hg
    have hdrop : ¬dropped g := by simpa using (List.mem_filter.mp hg).2
    apply entryLt_total
    cases h : sameKey e.path e.stage g with
    | false => rfl
    | true => exact absurd (hkey g h) hdrop

/-- The index functions on the list itself; `blob` is what a path of the working copy would be
added as. -/
def listIndexApi (blob : FileSystem → NativeRepository → CStr → Option (Nat × Oid)) :
    IndexApi where
  openIndex _ _ := 0
  remove index path stage :=
    if index.any (sameKey path stage) then (0, index.filter fun e => !sameKey path stage e)
    else (-3, index)
  removeDirectory index dir stage :=
    (0, index.filter fun e => ¬(Below dir e.path ∧ e.stage = stage))
  add index e :=
    if isTreeMode e.mode then (-1, index) else (0, placeEntry e (ReplacedByEntry e) index)
  addByPath fs native index path :=
    match blob fs native path with
    | some (mode, id) =>
      if isTreeMode mode then (-1, index)
      else (0, placeEntry ⟨path, 0, mode, id⟩ (ReplacedByPath path) index)
    | none => (-1, index)
  write _ _ := 0

theorem listIndexApi_adds (blob : FileSystem → NativeRepository → CStr → Option (Nat × Oid)) :
    (listIndexApi blob).Adds := by
  intro index e after hs h
  simp only [listIndexApi] at h
  split_ifs at h with hmode
  · simp at h
  · obtain rfl := (Prod.mk.inj h).2
    apply placeEntry_places _ hs
    intro f hf
    obtain ⟨hpath, hstage⟩ := sameKey_iff.mp hf
    exact ⟨hstage, .inl hpath⟩

theorem listIndexApi_rejectsTrees
    (blob : FileSystem → NativeRepository → CStr → Option (Nat × Oid)) :
    (listIndexApi blob).RejectsTrees := by
  intro index e hmode
  simp [listIndexApi, hmode]

theorem listIndexApi_lawful (blob : FileSystem → NativeRepository → CStr → Option (Nat × Oid)) :
    (listIndexApi blob).Lawful where
  removes index path stage hs h := by
    exact if_pos (List.any_eq_true.mpr h)
  removesDirectory index dir stage hs := rfl
  addsByPath fs native index path after hs h := by
    simp only [listIndexApi] at h
    split at h
    · rename_i mode id _
      split_ifs at h with hmode
      · simp at h
      · obtain rfl := (Prod.mk.inj h).2
        refine ⟨mode, id, by simpa using hmode, placeEntry_places ?_ hs⟩
        intro f hf
        simp only [sameKey, Bool.and_eq_true, decide_eq_true_eq] at hf
        exact .inl hf.1
    · simp at h

def exampleEntry (path : CStr) : IndexEntry := ⟨path, 0, 0o100644, []⟩

/-- C:\w\name. -/
def examplePath (name : NetString) : NetString := [0x43, 0x3a, 0x5c, 0x77, 0x5c] ++ name

def exampleNative : NativeRepository := ⟨[], [0x43, 0x3a, 0x2f, 0x77, 0x2f], false⟩

def exampleDisk (checkPath : CStr → Except Int NodeKind) (index : Index) : Disk where
  fs := { checkPath := checkPath, openExt := fun _ => .ok exampleNative }
  index := fun _ => index

def exampleApi : IndexApi := listIndexApi fun _ _ _ => some (0o100644, [])

end SharpGit.Plumbing
