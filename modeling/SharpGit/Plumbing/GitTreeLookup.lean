import SharpGit.Implementation.GitPool
import SharpGit.Plumbing.GitTreeDescendants

namespace SharpGit.Plumbing

open Library Native Svn Implementation

namespace TreeObject

variable (byName : GitTree → CStr → Option NamedEntry)

/-- `default[String^]`. -/
def itemByPath (object : TreeObject) (relPath : NetString) : Except Failure GitTreeEntry :=
  if relPath = [] then .error (.argumentOutOfRange "relPath")
  else match byName object.tree (allocRelpath relPath) with
    | none => .error (.argumentOutOfRange "index")
    | some entry => .ok ⟨object, entry⟩

def contains (object : TreeObject) (relPath : NetString) : Except Failure Bool :=
  if relPath = [] then .error (.argumentOutOfRange "relPath")
  else .ok (byName object.tree (allocRelpath relPath)).isSome

end TreeObject

/-- `git_tree_entry_byname` finds the immediate entries, each by its file name. -/
structure FindsByName (byName : GitTree → CStr → Option NamedEntry) : Prop where
  found : ∀ tree name entry, byName tree name = some entry →
    entry ∈ tree.entries ∧ entry.name = name
  finds : ∀ tree, ∀ entry ∈ tree.entries, (byName tree entry.name).isSome = true

/-- A canonical relpath that can be handed over as a managed string; the empty one is refused. -/
structure IsRelpath (path : CStr) : Prop where
  canonical : relpathIsCanonical path = true
  ne_nil : path ≠ []
  no_backslash : backslash ∉ path
  utf8 : ValidUtf8 path

/-- Lookup by path finds these entries and no other path. -/
def LooksUp (byName : GitTree → CStr → Option NamedEntry) (object : TreeObject)
    (found : List GitTreeEntry) : Prop :=
  (∀ e ∈ found, object.contains byName e.relativePath = .ok true ∧
    ∃ f, object.itemByPath byName e.relativePath = .ok f ∧ f.entry = e.entry) ∧
  ∀ path, IsRelpath path → (∀ e ∈ found, e.relativePath ≠ utf8PtrToString path) →
    object.contains byName (utf8PtrToString path) = .ok false

/-- Lookup by path agrees with what a loop over `Descendants` gives. -/
def LooksUpDescendants (lookup : Oid → Except Int GitTree)
    (byName : GitTree → CStr → Option NamedEntry) (object : TreeObject) : Prop :=
  ∀ (fuel : Nat) (found : List GitTreeEntry) (last : Walker),
    object.descendants lookup fuel = .ok (found.map some, last) → LooksUp byName object found

/-- No subtree of the tree has an entry. -/
def GitTree.Flat : GitTree → Prop
  | .nil => True
  | .blob _ _ _ rest => rest.Flat
  | .subtree _ _ entries rest => entries = .nil ∧ rest.Flat

/-- The trees in which each path is one name: no parents, nothing below an entry, and the names
are relpaths that tell the entries apart. -/
structure OneLevel (object : TreeObject) : Prop where
  parentless : object.parentEntry = none
  flat : object.tree.Flat
  names : ∀ e ∈ object.tree.entries, IsRelpath e.name
  distinct : ∀ e ∈ object.tree.entries, ∀ f ∈ object.tree.entries, e.name = f.name → e = f

theorem isRelpath_allocRelpath {path : NetString} (h : allocRelpath path ≠ []) :
    IsRelpath (allocRelpath path) :=
  ⟨relpathIsCanonical_allocRelpath path, h, backslash_not_mem_allocRelpath path,
    validUtf8_allocRelpath path⟩

namespace IsRelpath

variable {path : CStr} (h : IsRelpath path)

include h

theorem allocRelpath_eq : allocRelpath (utf8PtrToString path) = path := by
  have hbytes : utf8GetBytes (utf8PtrToString path) = path := utf8GetBytes_getString h.utf8
  have hcanonical := h.canonical
  have hback := h.no_backslash
  rw [← hbytes] at hcanonical hback
  rw [allocRelpath_canonical hcanonical hback, hbytes]

theorem string_ne_nil : utf8PtrToString path ≠ [] := by
  intro hnil
  apply h.ne_nil
  rw [← utf8GetBytes_getString h.utf8]
  exact utf8GetBytes_eq_nil.mpr hnil

/-- Where the string has a '/', so has the path. -/
theorem slash_mem {a b : NetString} (hpath : utf8PtrToString path = a ++ 0x2f :: b) :
    slash ∈ path := by
  rw [← utf8GetBytes_getString h.utf8, show utf8GetString path = a ++ 0x2f :: b from hpath,
    utf8GetBytes_append_slash]
  simp

end IsRelpath

namespace GitTree

theorem WellFormed.entry {tree : GitTree} (h : tree.WellFormed) {e : NamedEntry}
    (he : e ∈ tree.entries) : e.name ≠ [] ∧ slash ∉ e.name := by
  induction tree with
  | nil => cases he
  | blob name mode id rest ih =>
    obtain ⟨hname, hslash, -, hrest⟩ := h
    cases he with
    | head => exact ⟨hname, hslash⟩
    | tail _ he => exact ih hrest he
  | subtree name id entries rest _ ih =>
    obtain ⟨hname, hslash, -, hrest⟩ := h
    cases he with
    | head => exact ⟨hname, hslash⟩
    | tail _ he => exact ih hrest he

end GitTree

namespace TreeObject

theorem mem_listed (object : TreeObject) {tree : GitTree} {e : NamedEntry}
    (he : e ∈ tree.entries) : ⟨object, e⟩ ∈ object.listed tree := by
  induction tree with
  | nil => cases he
  | blob name mode id rest ih =>
    cases he with
    | head => exact List.mem_cons_self
    | tail _ he => exact List.mem_cons_of_mem _ (ih he)
  | subtree name id entries rest _ ih =>
    cases he with
    | head => exact List.mem_cons_self
    | tail _ he => exact List.mem_cons_of_mem _ (List.mem_append_right _ (ih he))

/-- What is listed is of the tree itself or of one that has a parent. -/
theorem tree_of_listed {object : TreeObject} {tree : GitTree} {e : GitTreeEntry}
    (he : e ∈ object.listed tree) :
    e.tree = object ∨ ∃ parent, e.tree.parentEntry = some parent := by
  induction tree generalizing object with
  | nil => cases he
  | blob name mode id rest ih =>
    cases he with
    | head => exact .inl rfl
    | tail _ he => exact ih he
  | subtree name id entries rest ihe ihr =>
    cases he with
    | head => exact .inl rfl
    | tail _ he =>
      obtain he | he := List.mem_append.mp he
      · obtain htree | hparent := ihe he
        · exact .inr ⟨_, congrArg parentEntry htree⟩
        · exact .inr hparent
      · exact ihr he

theorem listed_flat (object : TreeObject) {tree : GitTree} (h : tree.Flat) :
    object.listed tree = tree.entries.map fun e => ⟨object, e⟩ := by
  induction tree with
  | nil => rfl
  | blob name mode id rest ih => exact congrArg _ (ih h)
  | subtree name id entries rest _ ih =>
    obtain ⟨rfl, hrest⟩ := h
    exact congrArg _ (ih hrest)

/-- A tree is flat when nothing is listed below its own entries. -/
theorem flat_of_listed {object : TreeObject} {tree : GitTree}
    (h : ∀ d ∈ tree.entries, ∀ below e, ⟨.ofEntry object d below, e⟩ ∉ object.listed tree) :
    tree.Flat := by
  induction tree with
  | nil => trivial
  | blob name mode id rest ih =>
    apply ih
    intro d hd below e he
    exact h d (List.mem_cons_of_mem _ hd) below e (List.mem_cons_of_mem _ he)
  | subtree name id entries rest _ ih =>
    constructor
    · have hnone : ∀ e, e ∉ entries.entries := by
        intro e he
        have hbelow := mem_listed (.ofEntry object ⟨⟨treeMode, id⟩, name⟩ entries) he
        exact h _ List.mem_cons_self entries e
          (List.mem_cons_of_mem _ (List.mem_append_left _ hbelow))
      cases entries with
      | nil => rfl
      | blob => exact absurd List.mem_cons_self (hnone _)
      | subtree => exact absurd List.mem_cons_self (hnone _)
    · apply ih
      intro d hd below e he
      exact h d (List.mem_cons_of_mem _ hd) below e
        (List.mem_cons_of_mem _ (List.mem_append_right _ he))

end TreeObject

theorem GitTreeEntry.relativePath_parent {e parent : GitTreeEntry}
    (h : e.tree.parentEntry = some parent) :
    e.relativePath = parent.relativePath ++ 0x2f :: utf8PtrToString e.entry.name := by
  obtain ⟨object, entry⟩ := e
  cases object with
  | root tree => cases h
  | ofEntry above parentEntry tree =>
    obtain rfl := Option.some.inj h
    rfl

theorem looksUpDescendants_iff {lookup : Oid → Except Int GitTree}
    {byName : GitTree → CStr → Option NamedEntry} {object : TreeObject}
    (h : object.tree.Resolves lookup) :
    LooksUpDescendants lookup byName object ↔
      LooksUp byName object (object.listed object.tree) := by
  constructor
  · intro hall
    obtain ⟨last, hrun, _⟩ := object.descendants_eq h (Nat.lt_succ_self _)
    exact hall _ _ last hrun
  · intro hlisted fuel found last hrun
    have hfound := List.map_injective_iff.mpr (Option.some_injective _)
      (TreeObject.eq_of_descendants h hrun)
    rwa [hfound]

section Lookup

variable {byName : GitTree → CStr → Option NamedEntry} {object : TreeObject}

theorem TreeObject.itemByPath_eq_ok {relPath : NetString} {e : GitTreeEntry}
    (h : object.itemByPath byName relPath = .ok e) :
    byName object.tree (allocRelpath relPath) = some e.entry := by
  rw [itemByPath] at h
  split at h
  · cases h
  · split at h
    · cases h
    · rename_i entry hentry
      obtain rfl := Except.ok.inj h
      exact hentry

theorem IsRelpath.contains {path : CStr} (h : IsRelpath path) :
    object.contains byName (utf8PtrToString path) = .ok (byName object.tree path).isSome := by
  rw [TreeObject.contains, if_neg h.string_ne_nil, h.allocRelpath_eq]

section LooksUp

variable {found : List GitTreeEntry} (hbyName : FindsByName byName)
  (h : LooksUp byName object found)

include hbyName h

theorem LooksUp.entry {e : GitTreeEntry} (he : e ∈ found) :
    byName object.tree (allocRelpath e.relativePath) = some e.entry ∧
      e.entry ∈ object.tree.entries ∧ e.entry.name = allocRelpath e.relativePath := by
  obtain ⟨_, f, hitem, hentry⟩ := h.1 e he
  have hfound := TreeObject.itemByPath_eq_ok hitem
  rw [hentry] at hfound
  exact ⟨hfound, hbyName.found _ _ _ hfound⟩

/-- What is found by its path has that path for its name. -/
theorem LooksUp.isRelpath (hwf : object.tree.WellFormed) {e : GitTreeEntry} (he : e ∈ found) :
    IsRelpath e.entry.name ∧ slash ∉ e.entry.name := by
  obtain ⟨_, hmem, hname⟩ := h.entry hbyName he
  obtain ⟨hne, hslash⟩ := hwf.entry hmem
  rw [hname] at hne
  exact ⟨hname ▸ isRelpath_allocRelpath hne, hslash⟩

/-- An entry that a name finds is listed under that name. -/
theorem LooksUp.listed {e : NamedEntry} (he : e ∈ object.tree.entries) (hname : IsRelpath e.name) :
    ∃ f ∈ found, f.relativePath = utf8PtrToString e.name := by
  by_contra hnone
  push Not at hnone
  have hcontains := h.2 e.name hname hnone
  rw [hname.contains, hbyName.finds _ e he] at hcontains
  cases hcontains

end LooksUp

section Listed

variable (hbyName : FindsByName byName) (hwf : object.tree.WellFormed)
  (h : LooksUp byName object (object.listed object.tree))

include hbyName hwf h

/-- The path of an entry below a parent has a '/', but its name is found as well. -/
theorem LooksUp.parentless (hne : object.tree ≠ .nil) : object.parentEntry = none := by
  obtain ⟨e, he⟩ : ∃ e, e ∈ object.tree.entries := by
    cases htree : object.tree with
    | nil => exact absurd htree hne
    | blob => exact ⟨_, List.mem_cons_self⟩
    | subtree => exact ⟨_, List.mem_cons_self⟩
  obtain ⟨hname, hslash⟩ := h.isRelpath hbyName hwf (object.mem_listed he)
  obtain ⟨f, hf, hpath⟩ := h.listed hbyName he hname
  by_contra hparent
  obtain ⟨parent, hparent⟩ : ∃ parent, f.tree.parentEntry = some parent := by
    obtain htree | hparent' := TreeObject.tree_of_listed hf
    · rw [htree]
      exact Option.ne_none_iff_exists'.mp hparent
    · exact hparent'
  apply hslash
  apply hname.slash_mem
  exact hpath.symm.trans (GitTreeEntry.relativePath_parent hparent)

/-- An entry below "d" would have the name of the path "d/e". -/
theorem LooksUp.flat : object.tree.Flat := by
  apply TreeObject.flat_of_listed
  intro d hd below e he
  obtain ⟨hname, hslash⟩ := h.isRelpath hbyName hwf he
  obtain ⟨hdirName, _⟩ := h.isRelpath hbyName hwf (object.mem_listed hd)
  obtain ⟨_, _, hpath⟩ := h.entry hbyName he
  obtain ⟨_, _, hdir⟩ := h.entry hbyName (object.mem_listed hd)
  have hdirNe : allocRelpath (object.relativePath d) ≠ [] := by
    rw [← show d.name = allocRelpath (object.relativePath d) from hdir]
    exact hdirName.ne_nil
  have hnameNe : allocRelpath (utf8PtrToString e.name) ≠ [] := by
    rw [hname.allocRelpath_eq]
    exact hname.ne_nil
  apply hslash
  rw [hpath, GitTreeEntry.relativePath_parent rfl]
  show slash ∈ allocRelpath (object.relativePath d ++ 0x2f :: utf8PtrToString e.name)
  rw [allocRelpath_append_slash hdirNe hnameNe]
  simp

omit hwf in
theorem LooksUp.distinct {e f : NamedEntry} (he : e ∈ object.tree.entries)
    (hf : f ∈ object.tree.entries) (hnames : e.name = f.name) : e = f := by
  obtain ⟨hfindE, _, hpathE⟩ := h.entry hbyName (object.mem_listed he)
  obtain ⟨hfindF, _, hpathF⟩ := h.entry hbyName (object.mem_listed hf)
  rw [← hpathE] at hfindE
  rw [← hpathF] at hfindF
  exact Option.some.inj (hfindE.symm.trans ((congrArg _ hnames).trans hfindF))

theorem LooksUp.oneLevel (hne : object.tree ≠ .nil) : OneLevel object where
  parentless := h.parentless hbyName hwf hne
  flat := h.flat hbyName hwf
  names _ he := (h.isRelpath hbyName hwf (object.mem_listed he)).1
  distinct _ he _ hf := h.distinct hbyName he hf

end Listed

theorem OneLevel.looksUp (hbyName : FindsByName byName) (h : OneLevel object) :
    LooksUp byName object (object.listed object.tree) := by
  obtain ⟨tree, rfl⟩ : ∃ tree, object = .root tree := by
    cases object with
    | root tree => exact ⟨tree, rfl⟩
    | ofEntry => cases h.parentless
  have hlisted := TreeObject.listed_flat (.root tree) h.flat
  constructor
  · intro e he
    rw [hlisted] at he
    obtain ⟨entry, hentry, rfl⟩ := List.mem_map.mp he
    have hname := h.names entry hentry
    have hpath : GitTreeEntry.relativePath ⟨.root tree, entry⟩ = utf8PtrToString entry.name := rfl
    obtain ⟨f, hf⟩ := Option.isSome_iff_exists.mp (hbyName.finds tree entry hentry)
    obtain ⟨hmem, hsame⟩ := hbyName.found _ _ _ hf
    obtain rfl := h.distinct f hmem entry hentry hsame
    constructor
    · rw [hpath, hname.contains, show (TreeObject.root tree).tree = tree from rfl, hf]
      rfl
    · refine ⟨⟨.root tree, f⟩, ?_, rfl⟩
      rw [hpath, TreeObject.itemByPath, if_neg hname.string_ne_nil, hname.allocRelpath_eq,
        show (TreeObject.root tree).tree = tree from rfl, hf]
  · intro path hpath hnone
    rw [hpath.contains]
    congr
    rw [Option.isSome_eq_false_iff, Option.isNone_iff_eq_none]
    by_contra hsome
    obtain ⟨f, hf⟩ := Option.ne_none_iff_exists'.mp hsome
    obtain ⟨hmem, rfl⟩ := hbyName.found _ _ _ hf
    exact hnone _ (TreeObject.mem_listed _ hmem) rfl

/-- The lookup knows no path but a name: it agrees with `Descendants` on one level only. -/
theorem looksUpDescendants_iff_oneLevel {lookup : Oid → Except Int GitTree}
    (hbyName : FindsByName byName) (hwf : object.tree.WellFormed)
    (hresolves : object.tree.Resolves lookup) :
    LooksUpDescendants lookup byName object ↔ object.tree = .nil ∨ OneLevel object := by
  rw [looksUpDescendants_iff hresolves]
  constructor
  · intro h
    rw [or_iff_not_imp_left]
    exact h.oneLevel hbyName hwf
  · intro h
    obtain hnil | hone := h
    · rw [hnil]
      constructor
      · intro e he
        cases he
      · intro path hpath _
        have hnone : byName .nil path = none := by
          by_contra hsome
          obtain ⟨f, hf⟩ := Option.ne_none_iff_exists'.mp hsome
          cases (hbyName.found _ _ _ hf).1
        rw [hpath.contains, hnil, hnone]
        rfl
    · exact hone.looksUp hbyName

end Lookup

def entryByName (tree : GitTree) (name : CStr) : Option NamedEntry :=
  tree.entries.find? fun entry => entry.name = name

theorem findsByName_entryByName : FindsByName entryByName where
  found tree name entry h := by
    have hname := List.find?_some h
    exact ⟨List.mem_of_find?_eq_some h, of_decide_eq_true hname⟩
  finds tree entry h := by
    rw [entryByName, List.find?_isSome]
    exact ⟨entry, h, decide_eq_true rfl⟩

theorem exampleTree_wellFormed : exampleTree.WellFormed := by
  refine ⟨?_, ?_, ⟨?_, ?_, ?_, trivial⟩, trivial⟩
  all_goals decide

/-- A tree with the one file "f". -/
theorem looksUpDescendants_example :
    LooksUpDescendants exampleLookup entryByName (.root exampleDirectory) := by
  have hwf : exampleDirectory.WellFormed := exampleTree_wellFormed.2.2.1
  have hresolves : exampleDirectory.Resolves exampleLookup := ⟨rfl, trivial⟩
  have hlevel : OneLevel (.root exampleDirectory) := by
    refine ⟨rfl, trivial, ?_, by decide⟩
    intro e he
    obtain rfl := List.mem_singleton.mp he
    exact ⟨by decide, by decide, by decide, validUtf8_ascii (by decide)⟩
  have hiff : LooksUpDescendants exampleLookup entryByName (.root exampleDirectory) ↔
      exampleDirectory = .nil ∨ OneLevel (.root exampleDirectory) :=
    looksUpDescendants_iff_oneLevel findsByName_entryByName hwf hresolves
  exact hiff.mpr (.inr hlevel)

/-- `Descendants` gives "d/f", but no entry of the tree has this name. -/
theorem descendants_not_contained :
    ¬∀ (lookup : Oid → Except Int GitTree) (byName : GitTree → CStr → Option NamedEntry)
      (object : TreeObject), FindsByName byName → object.tree.WellFormed →
        object.tree.Resolves lookup → LooksUpDescendants lookup byName object := by
  intro h
  have hresolves : exampleTree.Resolves exampleLookup := ⟨rfl, ⟨rfl, trivial⟩, trivial⟩
  have hlookup := h exampleLookup entryByName (.root exampleTree) findsByName_entryByName
    exampleTree_wellFormed hresolves
  obtain ⟨hcontains, _⟩ := ((looksUpDescendants_iff hresolves).mp hlookup).1
    ⟨.ofEntry (.root exampleTree) directoryEntry exampleDirectory, fileEntry⟩ (by decide)
  revert hcontains
  decide

end SharpGit.Plumbing
