import SharpGit.Plumbing.IndexApi

namespace SharpGit.Plumbing

open Library Native

/-- A git tree: its entries one after the other. A blob is a file, a link or a submodule. -/
inductive GitTree
  | nil
  | blob (name : CStr) (mode : Nat) (id : Oid) (rest : GitTree)
  | subtree (name : CStr) (id : Oid) (entries rest : GitTree)
  deriving DecidableEq, Repr

structure TreeEntry where
  mode : Nat
  id : Oid
  deriving DecidableEq, Repr

abbrev treeMode : Nat := 0o040000

theorem isTreeMode_treeMode : isTreeMode treeMode = true := by decide

namespace GitTree

/-- What stands in the tree under these names, one below the other. -/
def find : GitTree → List CStr → Option TreeEntry
  | nil, _ => none
  | _, [] => none
  | blob name mode id rest, w :: ws =>
    if name = w then if ws = [] then some ⟨mode, id⟩ else none else rest.find (w :: ws)
  | subtree name id entries rest, w :: ws =>
    if name = w then if ws = [] then some ⟨treeMode, id⟩ else entries.find ws
    else rest.find (w :: ws)

/-- Names are file names, and only subtrees have a tree mode. -/
def WellFormed : GitTree → Prop
  | nil => True
  | blob name mode _ rest =>
    name ≠ [] ∧ slash ∉ name ∧ isTreeMode mode = false ∧ rest.WellFormed
  | subtree name _ entries rest =>
    name ≠ [] ∧ slash ∉ name ∧ entries.WellFormed ∧ rest.WellFormed

def findPath (tree : GitTree) (path : CStr) : Option TreeEntry := tree.find (path.splitOn slash)

/-- The index entry is one of the files of the tree. -/
def Lists (tree : GitTree) (e : IndexEntry) : Prop :=
  e.stage = 0 ∧ isTreeMode e.mode = false ∧ tree.findPath e.path = some ⟨e.mode, e.id⟩

/-- `git_index_add` takes the files of the tree, as it takes every mode that is valid there. -/
def TakenBy (tree : GitTree) (api : IndexApi) : Prop :=
  ∀ index e, SortedIndex index → tree.Lists e → (api.add index e).1 = 0

def IsDirectory (tree : GitTree) (path : CStr) : Prop :=
  ∃ entry, tree.findPath path = some entry ∧ isTreeMode entry.mode = true

/-- What has something below it is a subtree. -/
theorem find_append {tree : GitTree} {ws us : List CStr} {entry : TreeEntry} (hw : ws ≠ [])
    (hu : us ≠ []) (h : tree.find (ws ++ us) = some entry) :
    ∃ id, tree.find ws = some ⟨treeMode, id⟩ := by
  induction tree generalizing ws with
  | nil => simp [find] at h
  | blob name mode id rest ih =>
    cases ws with
    | nil => exact absurd rfl hw
    | cons w ws =>
      rw [List.cons_append] at h
      by_cases hn : name = w
      · simp [find, hn, hu] at h
      · rw [find, if_neg hn] at h ⊢
        exact ih (by simp) h
  | subtree name id entries rest ihe ihr =>
    cases ws with
    | nil => exact absurd rfl hw
    | cons w ws =>
      rw [List.cons_append] at h
      by_cases hn : name = w
      · rw [find, if_pos hn] at h ⊢
        rw [if_neg (by simp [hu])] at h
        by_cases hws : ws = []
        · exact ⟨id, by rw [if_pos hws]⟩
        · rw [if_neg hws]
          exact ihe hws h
      · rw [find, if_neg hn] at h ⊢
        exact ihr (by simp) h

theorem find_names {tree : GitTree} (hwf : tree.WellFormed) {ws : List CStr} {entry : TreeEntry}
    (h : tree.find ws = some entry) : [] ∉ ws := by
  induction tree generalizing ws with
  | nil => simp [find] at h
  | blob name mode id rest ih =>
    cases ws with
    | nil => simp
    | cons w ws =>
      obtain ⟨hname, -, -, hrest⟩ := hwf
      by_cases hn : name = w
      · have hws : ws = [] := by
          by_contra hne
          simp [find, hn, hne] at h
        simpa [hws, ← hn] using hname.symm
      · rw [find, if_neg hn] at h
        exact ih hrest h
  | subtree name id entries rest ihe ihr =>
    cases ws with
    | nil => simp
    | cons w ws =>
      obtain ⟨hname, -, hentries, hrest⟩ := hwf
      by_cases hn : name = w
      · rw [find, if_pos hn] at h
        have hw : [] ≠ w := hn ▸ hname.symm
        by_cases hws : ws = []
        · simpa [hws] using hw
        · rw [if_neg hws] at h
          rw [List.mem_cons, not_or]
          exact ⟨hw, ihe hentries h⟩
      · rw [find, if_neg hn] at h
        exact ihr hrest h

theorem findPath_below {tree : GitTree} {dir path : CStr} {entry : TreeEntry}
    (hb : dir ++ [slash] <+: path) (h : tree.findPath path = some entry) :
    tree.IsDirectory dir := by
  obtain ⟨rest, rfl⟩ := hb
  rw [findPath, List.append_assoc, List.singleton_append, List.splitOn_append_cons_self] at h
  obtain ⟨id, hdir⟩ :=
    find_append (List.splitOn_ne_nil slash dir) (List.splitOn_ne_nil slash rest) h
  exact ⟨_, hdir, isTreeMode_treeMode⟩

theorem Lists.not_directory {tree : GitTree} {e : IndexEntry} (h : tree.Lists e) :
    ¬tree.IsDirectory e.path := by
  intro ⟨entry, hfind, hmode⟩
  rw [h.2.2] at hfind
  obtain rfl := Option.some.inj hfind
  rw [h.2.1] at hmode
  exact absurd hmode (by decide)

/-- No file of a tree collides with another. -/
theorem Lists.no_collision {tree : GitTree} {e f : IndexEntry} (he : tree.Lists e)
    (hf : tree.Lists f) : ¬Collides e.path f.path := by
  intro h
  obtain h | h := h
  · exact he.not_directory (findPath_below h hf.2.2)
  · exact hf.not_directory (findPath_below h he.2.2)

theorem Lists.eq_of_path {tree : GitTree} {e f : IndexEntry} (he : tree.Lists e)
    (hf : tree.Lists f) (hp : e.path = f.path) : e = f := by
  have hentry := he.2.2.symm.trans (hp ▸ hf.2.2)
  obtain ⟨hmode, hid⟩ := TreeEntry.mk.inj (Option.some.inj hentry)
  cases e
  cases f
  simp_all [Lists]

/-- Nothing of a tree has an empty first name. -/
theorem Lists.not_below_slash {tree : GitTree} (hwf : tree.WellFormed) {e : IndexEntry}
    (he : tree.Lists e) : ¬[slash] <+: e.path := by
  intro ⟨rest, hrest⟩
  have hnames := find_names hwf he.2.2
  rw [← hrest, List.singleton_append, splitOn_cons_self] at hnames
  exact hnames List.mem_cons_self

theorem Lists.path_ne_nil {tree : GitTree} (hwf : tree.WellFormed) {e : IndexEntry}
    (he : tree.Lists e) : e.path ≠ [] := by
  intro hp
  have hnames := find_names hwf he.2.2
  rw [hp] at hnames
  exact hnames (by simp)

end GitTree

end SharpGit.Plumbing
