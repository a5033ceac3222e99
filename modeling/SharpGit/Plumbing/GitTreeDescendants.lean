import SharpGit.Library.Enumerator
import SharpGit.Plumbing.GitObject

namespace SharpGit.Plumbing

open Library Native Implementation

structure NamedEntry extends TreeEntry where
  name : CStr
  deriving DecidableEq, Repr

/-- `git_tree_entry_type`: a link to a commit is a submodule. -/
def TreeEntry.kind (entry : TreeEntry) : ObjectKind :=
  if entry.mode &&& 0o170000 = 0o160000 then .commit
  else if isTreeMode entry.mode then .tree
  else .blob

namespace GitTree

/-- The immediate entries, in the order of `git_tree_entry_byindex`. -/
def entries : GitTree → List NamedEntry
  | nil => []
  | blob name mode id rest => ⟨⟨mode, id⟩, name⟩ :: rest.entries
  | subtree name id _ rest => ⟨⟨treeMode, id⟩, name⟩ :: rest.entries

/-- Every entry of the tree, the entries above it first; an entry comes before what is below it. -/
def preorder : GitTree → List (List NamedEntry × NamedEntry)
  | nil => []
  | blob name mode id rest => ([], ⟨⟨mode, id⟩, name⟩) :: rest.preorder
  | subtree name id entries rest =>
    ([], ⟨⟨treeMode, id⟩, name⟩) ::
      (entries.preorder.map fun below => (⟨⟨treeMode, id⟩, name⟩ :: below.1, below.2)) ++
        rest.preorder

/-- Looking up a subtree succeeds, at every depth. -/
def Resolves (lookup : Oid → Except Int GitTree) : GitTree → Prop
  | nil => True
  | blob _ mode _ rest => isTreeMode mode = false ∧ rest.Resolves lookup
  | subtree _ id entries rest =>
    lookup id = .ok entries ∧ entries.Resolves lookup ∧ rest.Resolves lookup

end GitTree

/-- A `GitTree`: one without a `ParentEntry`, or one that `AsTree` has made of an entry. -/
inductive TreeObject
  | root (tree : GitTree)
  | ofEntry (parent : TreeObject) (parentEntry : NamedEntry) (tree : GitTree)
  deriving DecidableEq, Repr

structure GitTreeEntry where
  tree : TreeObject
  entry : NamedEntry
  deriving DecidableEq, Repr

namespace TreeObject

def tree : TreeObject → GitTree
  | root tree => tree
  | ofEntry _ _ tree => tree

def parentEntry : TreeObject → Option GitTreeEntry
  | root _ => none
  | ofEntry parent parentEntry _ => some ⟨parent, parentEntry⟩

def count (object : TreeObject) : Nat := object.tree.entries.length

/-- `default[int]`. -/
def item (object : TreeObject) (index : Int) : Except Failure GitTreeEntry :=
  if index < 0 then .error (.argumentOutOfRange "index")
  else match object.tree.entries[index.toNat]? with
    | none => .error (.argumentOutOfRange "index")
    | some entry => .ok ⟨object, entry⟩

/-- `RelativePath` of an entry of the tree. -/
def relativePath : TreeObject → NamedEntry → NetString
  | root _, entry => utf8PtrToString entry.name
  | ofEntry parent parentEntry _, entry =>
    relativePath parent parentEntry ++ 0x2f :: utf8PtrToString entry.name

end TreeObject

namespace GitTreeEntry

def relativePath (e : GitTreeEntry) : NetString := e.tree.relativePath e.entry

/-- `AsTree`; null where the entry is no tree or the lookup fails. -/
def asTree (lookup : Oid → Except Int GitTree) (e : GitTreeEntry) : Option TreeObject :=
  if e.entry.kind = .tree then
    match lookup e.entry.id with
    | .ok tree => some (.ofEntry e.tree e.entry tree)
    | .error _ => none
  else none

end GitTreeEntry

/-- `GitTreeDescendantsWalker`, or null. -/
inductive Walker
  | null
  | mk (tree : TreeObject) (inner : Walker) (index : Int) (current : Option GitTreeEntry)

namespace Walker

variable (lookup : Oid → Except Int GitTree)

def create (tree : Option TreeObject) : Except Failure Walker :=
  match tree with
  | none => .error (.argumentNull "tree")
  | some tree => .ok (mk tree null (-1) none)

/-- The inner walker of an entry. -/
def innerOf (e : GitTreeEntry) : Except Failure Walker :=
  if e.entry.kind = .tree then create (e.asTree lookup) else .ok null

def moveNext : Walker → Except Failure (Bool × Walker)
  | null => return (false, null)
  | mk tree inner index _ => do
    let (moved, inner) ← moveNext inner
    if moved then return (true, mk tree inner index none)
    else if index + 1 ≥ tree.count then return (false, mk tree null index none)
    else
      let index := index + 1
      let current ← tree.item index
      let inner ← innerOf lookup current
      return (true, mk tree inner index (some current))

/-- `Current`, which takes it over from the inner walker when it is read. -/
def current : Walker → Option GitTreeEntry × Walker
  | null => (none, null)
  | mk tree inner index (some e) => (some e, mk tree inner index (some e))
  | mk tree inner index none =>
    let (e, inner) := current inner
    (e, mk tree inner index e)

def enumerator : Enumerator Walker Failure (Option GitTreeEntry) where
  moveNext := moveNext lookup
  current := current

end Walker

/-- A `for each` loop over `Descendants`. -/
def TreeObject.descendants (lookup : Oid → Except Int GitTree) (object : TreeObject)
    (fuel : Nat) : Except Failure (List (Option GitTreeEntry) × Walker) :=
  (Walker.enumerator lookup).forEach .diverges fuel (.mk object .null (-1) none)

/-- The entries of `tree`, which is what is left of the tree of `object`, in preorder. -/
def TreeObject.listed (object : TreeObject) : GitTree → List GitTreeEntry
  | .nil => []
  | .blob name mode id rest => ⟨object, ⟨⟨mode, id⟩, name⟩⟩ :: listed object rest
  | .subtree name id entries rest =>
    ⟨object, ⟨⟨treeMode, id⟩, name⟩⟩ ::
      listed (.ofEntry object ⟨⟨treeMode, id⟩, name⟩ entries) entries ++ listed object rest

namespace Walker

variable {lookup : Oid → Except Int GitTree}

/-- What a walker still has to give: the rest of the inner one and of its own tree. -/
inductive Left (lookup : Oid → Except Int GitTree) : Walker → List (Option GitTreeEntry) → Prop
  | null : Left lookup null []
  | mk {object : TreeObject} {inner : Walker} {index : Nat} {current : Option GitTreeEntry}
      {rest : GitTree} {items : List (Option GitTreeEntry)}
      (hrest : object.tree.entries.drop index = rest.entries) (hresolves : rest.Resolves lookup)
      (hinner : Left lookup inner items) :
      Left lookup (mk object inner ((index : Int) - 1) current)
        (items ++ (object.listed rest).map some)

theorem kind_treeMode (id : Oid) : (TreeEntry.mk treeMode id).kind = .tree := by
  have hlink : ¬treeMode &&& 0o170000 = 0o160000 := by decide
  rw [TreeEntry.kind, if_neg hlink, if_pos isTreeMode_treeMode]

theorem kind_ne_tree {entry : TreeEntry} (h : isTreeMode entry.mode = false) :
    entry.kind ≠ .tree := by
  rw [TreeEntry.kind, h]
  split
  · exact ObjectKind.noConfusion
  · exact ObjectKind.noConfusion

section MoveNext

variable {object : TreeObject} {inner ended : Walker} {index : Nat}
  (hinner : inner.moveNext lookup = .ok (false, ended)) (current : Option GitTreeEntry)

include hinner

/-- Once the inner walker has ended, a walker ends behind the last entry of its tree. -/
theorem moveNext_end (hentry : object.tree.entries[index]? = none) :
    (Walker.mk object inner ((index : Int) - 1) current).moveNext lookup =
      .ok (false, Walker.mk object null ((index : Int) - 1) none) := by
  have hcount : (index : Int) - 1 + 1 ≥ object.count := by
    rw [Int.sub_add_cancel, TreeObject.count]
    exact_mod_cast List.getElem?_eq_none_iff.mp hentry
  rw [moveNext, hinner]
  simp only [bind, Except.bind, Bool.false_eq_true, if_false, if_pos hcount]
  rfl

/-- Before that it takes the next entry, with a new inner walker if that is a tree. -/
theorem moveNext_entry {entry : NamedEntry} {next : Walker}
    (hentry : object.tree.entries[index]? = some entry)
    (hnext : innerOf lookup ⟨object, entry⟩ = .ok next) :
    (Walker.mk object inner ((index : Int) - 1) current).moveNext lookup =
      .ok (true, Walker.mk object next index (some ⟨object, entry⟩)) := by
  have hcount : ¬(index : Int) ≥ object.count := by
    obtain ⟨hlt, _⟩ := List.getElem?_eq_some_iff.mp hentry
    rw [TreeObject.count]
    omega
  have hitem : object.item (index : Int) = .ok ⟨object, entry⟩ := by
    rw [TreeObject.item, if_neg (by omega), Int.toNat_natCast, hentry]
  rw [moveNext, hinner]
  simp only [bind, Except.bind, Bool.false_eq_true, if_false, Int.sub_add_cancel, if_neg hcount,
    hitem, hnext]
  rfl

end MoveNext

theorem Left.ends {walker : Walker} (h : Left lookup walker []) :
    ∃ last, walker.moveNext lookup = .ok (false, last) ∧
      last.moveNext lookup = .ok (false, last) := by
  generalize hitems : ([] : List (Option GitTreeEntry)) = items at h
  induction h with
  | null => exact ⟨Walker.null, rfl, rfl⟩
  | @mk object inner index current rest items hrest hresolves hinner ih =>
    obtain ⟨hnone, hlisted⟩ := List.append_eq_nil_iff.mp hitems.symm
    obtain ⟨ended, hended, _⟩ := ih hnone.symm
    have hentry : object.tree.entries[index]? = none := by
      cases rest with
      | nil => exact List.getElem?_eq_none (List.drop_eq_nil_iff.mp hrest)
      | blob => cases hlisted
      | subtree => cases hlisted
    refine ⟨Walker.mk object Walker.null ((index : Int) - 1) none, ?_, ?_⟩
    · exact moveNext_end hended current hentry
    · exact moveNext_end (rfl : Walker.null.moveNext lookup = .ok (false, Walker.null)) none hentry

theorem drop_succ_of_drop {entries rest : List NamedEntry} {entry : NamedEntry} {index : Nat}
    (h : entries.drop index = entry :: rest) :
    entries[index]? = some entry ∧ entries.drop (index + 1) = rest := by
  constructor
  · rw [← List.head?_drop, h, List.head?_cons]
  · rw [← List.tail_drop, h, List.tail_cons]

theorem Left.moves {walker : Walker} {x : Option GitTreeEntry}
    {rest : List (Option GitTreeEntry)} (h : Left lookup walker (x :: rest)) :
    ∃ next, walker.moveNext lookup = .ok (true, next) ∧ next.current.1 = x ∧
      Left lookup next.current.2 rest := by
  generalize hitems : x :: rest = items at h
  induction h generalizing x rest with
  | null => cases hitems
  | @mk object inner index current left items hrest hresolves hinner ih =>
    cases items with
    | cons y ys =>
      -- The inner walker has an entry left, which `Current` takes over.
      obtain ⟨rfl, rfl⟩ := List.cons.inj hitems
      obtain ⟨next, hmove, hcurrent, hleft⟩ := ih rfl
      refine ⟨Walker.mk object next ((index : Int) - 1) none, ?_, hcurrent, ?_⟩
      · rw [moveNext, hmove]
        rfl
      · exact Left.mk hrest hresolves hleft
    | nil =>
      obtain ⟨ended, hended, _⟩ := hinner.ends
      have hindex : (index : Int) = ((index + 1 : Nat) : Int) - 1 := by
        omega
      cases left with
      | nil => cases hitems
      | blob name mode id left =>
        obtain ⟨rfl, rfl⟩ := List.cons.inj hitems
        obtain ⟨hentry, hdrop⟩ := drop_succ_of_drop hrest
        have hnext : innerOf lookup ⟨object, ⟨⟨mode, id⟩, name⟩⟩ = .ok Walker.null :=
          if_neg (kind_ne_tree hresolves.1)
        refine ⟨_, moveNext_entry hended current hentry hnext, rfl, ?_⟩
        rw [hindex]
        exact Left.mk hdrop hresolves.2 Left.null
      | subtree name id entries left =>
        obtain ⟨rfl, rfl⟩ := List.cons.inj hitems
        obtain ⟨hentry, hdrop⟩ := drop_succ_of_drop hrest
        obtain ⟨hlookup, hentries, hleft⟩ := hresolves
        have hnext : innerOf lookup ⟨object, ⟨⟨treeMode, id⟩, name⟩⟩ =
            .ok (Walker.mk (.ofEntry object ⟨⟨treeMode, id⟩, name⟩ entries) Walker.null (-1)
              none) := by
          rw [innerOf, if_pos (kind_treeMode id), GitTreeEntry.asTree, if_pos (kind_treeMode id),
            hlookup]
          rfl
        refine ⟨_, moveNext_entry hended current hentry hnext, rfl, ?_⟩
        rw [List.append_eq, List.map_append, hindex]
        apply Left.mk hdrop hleft
        exact @Left.mk lookup (.ofEntry object ⟨⟨treeMode, id⟩, name⟩ entries) _ 0 none entries []
          rfl hentries Left.null

theorem gives (lookup : Oid → Except Int GitTree) :
    (enumerator lookup).Gives (Left lookup) where
  ends _ h := h.ends
  moves _ _ _ h := h.moves

end Walker

namespace TreeObject

variable {lookup : Oid → Except Int GitTree}

theorem left_start (object : TreeObject) (h : object.tree.Resolves lookup) :
    Walker.Left lookup (.mk object .null (-1) none) ((object.listed object.tree).map some) :=
  @Walker.Left.mk lookup object _ 0 none object.tree [] rfl h .null

/-- A loop over `Descendants` gives the entries in preorder, and has then come to its end. -/
theorem descendants_eq (object : TreeObject) (h : object.tree.Resolves lookup) {fuel : Nat}
    (hfuel : (object.listed object.tree).length < fuel) :
    ∃ last, object.descendants lookup fuel = .ok ((object.listed object.tree).map some, last) ∧
      last.moveNext lookup = .ok (false, last) := by
  apply (Walker.gives lookup).forEach .diverges (left_start object h)
  rw [List.length_map]
  exact hfuel

theorem eq_of_descendants {object : TreeObject} (h : object.tree.Resolves lookup) {fuel : Nat}
    {items : List (Option GitTreeEntry)} {last : Walker}
    (hrun : object.descendants lookup fuel = .ok (items, last)) :
    items = (object.listed object.tree).map some :=
  (Walker.gives lookup).eq_of_forEach (left_start object h) hrun

/-- The entries that a tree was reached through, from the outermost tree on. -/
def parents : TreeObject → List NamedEntry
  | root _ => []
  | ofEntry parent parentEntry _ => parent.parents ++ [parentEntry]

end TreeObject

/-- The names of the entries with a '/' between them. -/
def joinEntries (entries : List NamedEntry) : NetString :=
  [0x2f].intercalate (entries.map fun entry => utf8PtrToString entry.name)

theorem joinEntries_singleton (entry : NamedEntry) :
    joinEntries [entry] = utf8PtrToString entry.name := by
  simp [joinEntries]

theorem joinEntries_append {entries : List NamedEntry} (h : entries ≠ []) (entry : NamedEntry) :
    joinEntries (entries ++ [entry]) =
      joinEntries entries ++ 0x2f :: utf8PtrToString entry.name := by
  rw [joinEntries, List.map_append, intercalate_append (by simpa using h) (by simp)]
  simp [joinEntries]

namespace TreeObject

theorem relativePath_eq (object : TreeObject) (entry : NamedEntry) :
    object.relativePath entry = joinEntries (object.parents ++ [entry]) := by
  induction object generalizing entry with
  | root tree => exact (joinEntries_singleton entry).symm
  | ofEntry parent parentEntry tree ih =>
    have hparents : parent.parents ++ [parentEntry] ≠ [] := by simp
    rw [relativePath, ih, parents, joinEntries_append hparents]

/-- The listing is the preorder of the tree, with the paths below the parents. -/
theorem listed_preorder (object : TreeObject) (tree : GitTree) :
    (object.listed tree).map (fun e => (e.entry, e.relativePath)) =
      tree.preorder.map fun p => (p.2, joinEntries (object.parents ++ (p.1 ++ [p.2]))) := by
  induction tree generalizing object with
  | nil => rfl
  | blob name mode id rest ih =>
    rw [listed, GitTree.preorder, List.map_cons, List.map_cons, ih, GitTreeEntry.relativePath,
      relativePath_eq]
    rfl
  | subtree name id entries rest ihe ihr =>
    rw [listed, GitTree.preorder, List.cons_append, List.cons_append, List.map_cons, List.map_cons,
      List.map_append, List.map_append, ihe, ihr, List.map_map, GitTreeEntry.relativePath,
      relativePath_eq]
    simp [parents, Function.comp_def]

end TreeObject

/-- `Descendants` gives the entries of the tree in preorder, with these entries in front of each
path, and then keeps answering that there is no more. -/
def ListsDescendants (lookup : Oid → Except Int GitTree) (object : TreeObject)
    (front : List NamedEntry) : Prop :=
  ∀ fuel, object.tree.preorder.length < fuel → ∃ (found : List GitTreeEntry) (last : Walker),
    object.descendants lookup fuel = .ok (found.map some, last) ∧
      (found.map fun e => (e.entry, e.relativePath)) =
        object.tree.preorder.map (fun p => (p.2, joinEntries (front ++ (p.1 ++ [p.2])))) ∧
      last.moveNext lookup = .ok (false, last)

/-- The listing of `Descendants`; each path starts with the parents of the tree. -/
theorem descendants_preorder (lookup : Oid → Except Int GitTree) (object : TreeObject)
    (h : object.tree.Resolves lookup) : ListsDescendants lookup object object.parents := by
  intro fuel hfuel
  have hlisted := object.listed_preorder object.tree
  have hlength : (object.listed object.tree).length = object.tree.preorder.length := by
    have hsame := congrArg List.length hlisted
    rwa [List.length_map, List.length_map] at hsame
  rw [← hlength] at hfuel
  obtain ⟨last, hrun, hlast⟩ := object.descendants_eq h hfuel
  exact ⟨_, last, hrun, hlisted, hlast⟩

/-- A tree with one file, and the tree that has it as its directory "d". -/
def exampleDirectory : GitTree := .blob [0x66] 0o100644 [1] .nil

def directoryEntry : NamedEntry := ⟨⟨treeMode, [9]⟩, [0x64]⟩

def fileEntry : NamedEntry := ⟨⟨0o100644, [1]⟩, [0x66]⟩

def exampleTree : GitTree := .subtree [0x64] [9] exampleDirectory .nil

def exampleLookup (id : Oid) : Except Int GitTree :=
  if id = [9] then .ok exampleDirectory else .error (-3)

theorem descendants_preorder_example :
    ListsDescendants exampleLookup (.root exampleTree) [] :=
  descendants_preorder exampleLookup (.root exampleTree) ⟨rfl, ⟨rfl, trivial⟩, trivial⟩

/-- The file in the tree of the entry "d" is called "d/f", not "f". -/
theorem descendants_below_parent :
    ¬∀ (lookup : Oid → Except Int GitTree) (object : TreeObject),
      object.tree.Resolves lookup → ListsDescendants lookup object [] := by
  intro h
  let object : TreeObject := .ofEntry (.root exampleTree) directoryEntry exampleDirectory
  have hresolves : object.tree.Resolves exampleLookup := ⟨rfl, trivial⟩
  obtain ⟨found, last, hrun, hpaths, _⟩ := h exampleLookup object hresolves 2 (by decide)
  have hfound := List.map_injective_iff.mpr (Option.some_injective _)
    (TreeObject.eq_of_descendants hresolves hrun)
  rw [hfound, TreeObject.listed_preorder] at hpaths
  have hpath : joinEntries ([directoryEntry] ++ [fileEntry]) = joinEntries [fileEntry] :=
    (Prod.mk.inj (List.cons.inj hpaths).1).2
  have hlength := congrArg List.length hpath
  rw [joinEntries_append (List.cons_ne_nil _ _), joinEntries_singleton, joinEntries_singleton,
    List.length_append, List.length_cons] at hlength
  omega

end SharpGit.Plumbing
