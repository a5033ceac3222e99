import SharpGit.GitClient.AbsolutePath
import SharpGit.GitClient.IndexErrors
import SharpGit.Library.Segments

namespace SharpGit.GitClient.GitTools

open Library Native

/-- `GetFileAttributesW`. -/
abbrev FileAttributes := NetString → UInt32

def invalidFileAttributes : UInt32 := 0xffffffff

def fileAttributeDirectory : UInt32 := 0x10

/-- ".git" -/
def administrativeDirectoryName : NetString := [0x2e, 0x67, 0x69, 0x74]

def isDirectory (api : PathApi) (attributes : FileAttributes) (path : NetString) :
    Except GitToolsException Bool := do
  let p ← if path.length ≥ maxPath - 4 then
      (longPathMark ++ ·) <$> getNormalizedFullPath api path
    else .ok path
  let r := attributes p
  if r = invalidFileAttributes then return false
  else return r &&& fileAttributeDirectory != 0

def isManagedPath (api : PathApi) (attributes : FileAttributes) (path : NetString) :
    Except GitToolsException Bool := do
  if path = [] then .error (.argumentNull "path")
  else
    let path := if ← isSeparator path (path.length - 1) then path ++ administrativeDirectoryName
      else path ++ backslash :: administrativeDirectoryName
    isDirectory api attributes (path.map fun c => if c = slash then backslash else c)

/-- `LastIndexOf(c, nEnd)`. -/
def lastIndexOf (path : NetString) (c : UInt16) (nEnd : Nat) : Option Nat :=
  let front := path.take (nEnd + 1)
  if c ∈ front then some (nEnd - (front.reverse.takeWhile (· ≠ c)).length) else none

/-- `OrdinalIgnoreCase`. No character outside ASCII has the upper case of one of ".git". -/
def equalsIgnoreCase (s t : NetString) : Bool := s.map toUpper == t.map toUpper

/-- The search for the last administrative directory, back to `nStart`: none where nothing
follows it, otherwise where the search for a working copy starts. -/
def searchBack (path : NetString) : Nat → Nat → Nat → Option Nat
  | 0, nStart, _ => some nStart
  | turns + 1, nStart, nEnd =>
    match lastIndexOf path backslash nEnd with
    | none => some nStart
    | some i =>
      if nStart ≤ i then
        let len := nEnd - i
        if len = administrativeDirectoryName.length &&
            equalsIgnoreCase ((path.drop (i + 1)).take len) administrativeDirectoryName then
          let nStart := nEnd + 2
          if nStart ≥ path.length then none else some nStart
        else searchBack path turns nStart (i - 1)
      else some nStart

/-- The search for a working copy from `nStart` on; each turn moves it. -/
def searchManaged (api : PathApi) (attributes : FileAttributes) (path : NetString) :
    Nat → Nat → Except GitToolsException Bool
  | 0, _ => return false
  | turns + 1, nStart =>
    match indexOf path backslash nStart with
    | some i => do
      if ← isManagedPath api attributes (path.take i) then return true
      else searchManaged api attributes path turns (i + 1)
    | none =>
      if nStart ≥ path.length then return false
      else isManagedPath api attributes path

def isBelowManagedPath (api : PathApi) (attributes : FileAttributes) (path : NetString) :
    Except GitToolsException Bool := do
  if path = [] then .error (.argumentNull "path")
  else
    let path ← getNormalizedFullPath api path
    match ← getPathRootPart api.unicode path with
    | none => return false
    | some root =>
      match searchBack path path.length root.length (path.length - 1) with
      | none => return false
      | some nStart => searchManaged api attributes path (path.length + 1 - nStart) nStart

variable {unicode : UnicodeData} {invalid : List UInt16}

def isAdministrative (name : NetString) : Bool :=
  equalsIgnoreCase name administrativeDirectoryName

/-- The number of names up to the last administrative directory, or zero. -/
def lastAdministrative (names : List NetString) : Nat :=
  (names.rdropWhile fun name => !isAdministrative name).length

/-- The prefix of so many names is a working copy. -/
def ManagedAt (api : PathApi) (attributes : FileAttributes) (root : NetString)
    (names : List NetString) (j : Nat) : Prop :=
  isManagedPath api attributes (joinRoot root (names.take j)) = .ok true

/-- Some prefix behind the last administrative directory is a working copy. -/
def BelowManaged (api : PathApi) (attributes : FileAttributes) (root : NetString)
    (names : List NetString) : Prop :=
  ∃ j, (lastAdministrative names = 0 ∨ lastAdministrative names < j) ∧ j ≤ names.length ∧
    ManagedAt api attributes root names j

theorem Component.not_separator {name : NetString} (h : Component invalid name) :
    ∀ c ∈ name, ¬Separator c := by
  intro c hc
  obtain ⟨_, hbackslash, hslash, _⟩ := h.valid c hc
  exact not_or.mpr ⟨hbackslash, hslash⟩

theorem joinRoot_getLast {root : NetString} {names : List NetString} (hnonempty : names ≠ [])
    (hnames : ∀ name ∈ names, Component invalid name) :
    (joinRoot root names).getLast? ≠ some backslash := by
  have hcomponents := components_joinComponents hnonempty hnames
  rw [joinRoot, if_neg hnonempty, List.getLast?_append_of_ne_nil _ hcomponents.ne_nil]
  exact hcomponents.getLast

theorem closeRoot_of_not_closed {path : NetString} (h : path.getLast? ≠ some backslash) :
    closeRoot path = path ++ [backslash] := if_neg h

/-- What is below a path with a root comes behind a separator. -/
theorem joinRoot_append {root : NetString} {front back : List NetString}
    (hfront : ∀ name ∈ front, Component invalid name) (hback : back ≠ []) :
    joinRoot root (front ++ back) = closeRoot (joinRoot root front) ++ joinComponents back := by
  by_cases hnil : front = []
  · subst hnil
    rw [List.nil_append, joinRoot, if_neg hback]
    rfl
  · rw [closeRoot_of_not_closed (joinRoot_getLast hnil hfront), joinRoot, if_neg (by simp [hnil]),
      joinRoot, if_neg hnil, joinComponents, intercalate_append hnil hback]
    simp

theorem joinRoot_concat {root : NetString} {front : List NetString} (name : NetString)
    (hfront : ∀ name ∈ front, Component invalid name) :
    joinRoot root (front ++ [name]) = closeRoot (joinRoot root front) ++ name := by
  rw [joinRoot_append hfront (List.cons_ne_nil _ _), joinComponents, List.intercalate_singleton]

theorem IsRoot.ne_nil {root : NetString} (h : IsRoot unicode root) : root ≠ [] := by
  cases h with
  | drive => exact List.cons_ne_nil _ _
  | share => exact List.cons_ne_nil _ _

theorem joinRoot_ne_nil {root : NetString} (h : root ≠ []) (names : List NetString) :
    joinRoot root names ≠ [] := by
  rw [joinRoot]
  split
  · exact h
  · apply List.append_ne_nil_of_left_ne_nil
    rw [closeRoot]
    split
    · exact h
    · exact List.append_ne_nil_of_left_ne_nil h _

theorem shareChar_not_slash {c : UInt16} (h : ShareChar unicode c) : c ≠ slash := by
  intro hc
  subst hc
  rcases h with hletter | hmem
  · rw [unicode.letterOrDigit_ascii _ (by decide)] at hletter
    revert hletter
    decide
  · revert hmem
    decide

theorem IsRoot.no_slash {root : NetString} (h : IsRoot unicode root) : slash ∉ root := by
  cases h with
  | @drive letter hletter =>
    have hne : slash ≠ letter := (isUpper_ne hletter rfl).symm
    simp only [List.mem_cons, List.not_mem_nil, or_false, not_or]
    exact ⟨hne, by decide, by decide⟩
  | @share host share _ hhostChars _ hshareChars =>
    have hhost : slash ∉ host := fun h => by
      have hchar := hhostChars _ h
      revert hchar
      decide
    have hshare : slash ∉ share := fun h => shareChar_not_slash (hshareChars _ h) rfl
    simp only [List.mem_cons, List.mem_append, not_or]
    exact ⟨by decide, by decide, hhost, by decide, hshare⟩

theorem joinComponents_no_slash {names : List NetString}
    (hnames : ∀ name ∈ names, Component invalid name) : slash ∉ joinComponents names := by
  induction names with
  | nil => simp [joinComponents]
  | cons name names ih =>
    have hname : slash ∉ name := fun h =>
      (hnames name List.mem_cons_self).not_separator _ h (.inr rfl)
    have hrest := ih fun n hn => hnames n (List.mem_cons_of_mem _ hn)
    by_cases hnil : names = []
    · rw [hnil, joinComponents, List.intercalate_singleton]
      exact hname
    · rw [joinComponents_cons name hnil]
      simp only [List.mem_append, List.mem_cons, not_or]
      exact ⟨hname, by decide, hrest⟩

theorem closeRoot_no_slash {path : NetString} (h : slash ∉ path) : slash ∉ closeRoot path := by
  rw [closeRoot]
  split
  · exact h
  · rw [List.mem_append, not_or]
    exact ⟨h, by decide⟩

theorem joinRoot_no_slash {root : NetString} (hroot : IsRoot unicode root)
    {names : List NetString} (hnames : ∀ name ∈ names, Component invalid name) :
    slash ∉ joinRoot root names := by
  rw [joinRoot]
  split
  · exact hroot.no_slash
  · rw [List.mem_append, not_or]
    exact ⟨closeRoot_no_slash hroot.no_slash, joinComponents_no_slash hnames⟩

theorem isSeparator_last {path : NetString} (hpath : path ≠ []) :
    isSeparator path (path.length - 1) = .ok (separator (path.getLast hpath)) := by
  have hread := isSeparator_at path.dropLast (path.getLast hpath) []
  rw [List.dropLast_concat_getLast, List.length_dropLast] at hread
  exact hread

section Managed

variable {api : PathApi} {attributes : FileAttributes}
  (hadm : Component api.invalidPathChars administrativeDirectoryName)

theorem isDirectory_returns {path : NetString}
    (h : NormalizedPath api.unicode api.invalidPathChars path) :
    Returns (isDirectory api attributes path) := by
  rw [isDirectory]
  split
  · rw [getNormalizedFullPath_of_normalized h]
    simp only [Functor.map, Except.map, bind, Except.bind]
    split
    · exact ⟨_, rfl⟩
    · exact ⟨_, rfl⟩
  · simp only [bind, Except.bind]
    split
    · exact ⟨_, rfl⟩
    · exact ⟨_, rfl⟩

include hadm

theorem concat_component {names : List NetString}
    (hnames : ∀ name ∈ names, Component api.invalidPathChars name) :
    ∀ name ∈ names ++ [administrativeDirectoryName], Component api.invalidPathChars name := by
  intro name hname
  rcases List.mem_append.mp hname with hname | hname
  · exact hnames name hname
  · rw [List.mem_singleton.mp hname]
    exact hadm

/-- Of a path with its root the administrative directory is looked for below it. -/
theorem isManagedPath_joinRoot {root : NetString} (hroot : IsRoot api.unicode root)
    {names : List NetString} (hnames : ∀ name ∈ names, Component api.invalidPathChars name) :
    isManagedPath api attributes (joinRoot root names) =
      isDirectory api attributes (joinRoot root (names ++ [administrativeDirectoryName])) := by
  have hpath := joinRoot_ne_nil hroot.ne_nil names
  have hslash := joinRoot_no_slash hroot hnames
  have hbelow := joinRoot_no_slash hroot (concat_component hadm hnames)
  have hreplace : (joinRoot root (names ++ [administrativeDirectoryName])).map
      (fun c => if c = slash then backslash else c) =
        joinRoot root (names ++ [administrativeDirectoryName]) := by
    have hsame : ∀ c ∈ joinRoot root (names ++ [administrativeDirectoryName]),
        (if c = slash then backslash else c) = id c := by
      intro c hc
      have hne : c ≠ slash := fun h => hbelow (h ▸ hc)
      exact if_neg hne
    rw [List.map_congr_left hsame, List.map_id]
  have hlast : separator ((joinRoot root names).getLast hpath) = true ↔
      (joinRoot root names).getLast? = some backslash := by
    rw [separator_iff, List.getLast?_eq_some_getLast hpath, Option.some_inj]
    refine or_iff_left ?_
    intro h
    exact hslash (h ▸ List.getLast_mem hpath)
  have hjoin := @joinRoot_concat _ root names administrativeDirectoryName hnames
  rw [closeRoot] at hjoin
  rw [isManagedPath, if_neg hpath, isSeparator_last hpath]
  simp only [bind, Except.bind, hlast]
  have happend : (if (joinRoot root names).getLast? = some backslash then
      joinRoot root names ++ administrativeDirectoryName
      else joinRoot root names ++ backslash :: administrativeDirectoryName) =
        joinRoot root (names ++ [administrativeDirectoryName]) := by
    rw [hjoin]
    split
    · rfl
    · simp
  rw [happend, hreplace]

/-- Of a normalized path the test gives an answer. -/
theorem isManagedPath_returns {root : NetString} (hroot : IsRoot api.unicode root)
    {names : List NetString} (hnames : ∀ name ∈ names, Component api.invalidPathChars name) :
    Returns (isManagedPath api attributes (joinRoot root names)) := by
  rw [isManagedPath_joinRoot hadm hroot hnames]
  exact isDirectory_returns (normalizedPath_joinRoot hroot (concat_component hadm hnames))

end Managed

section Search

variable {api : PathApi} {attributes : FileAttributes} {root : NetString}
  (hadm : Component api.invalidPathChars administrativeDirectoryName)
  (hroot : IsRoot api.unicode root)

/-- Some prefix with at least one of the names behind `front` is a working copy. -/
def ManagedBehind (api : PathApi) (attributes : FileAttributes) (root : NetString)
    (front back : List NetString) : Prop :=
  ∃ k, 1 ≤ k ∧ k ≤ back.length ∧
    isManagedPath api attributes (joinRoot root (front ++ back.take k)) = .ok true

theorem managedBehind_cons {front back : List NetString} {name : NetString} :
    ManagedBehind api attributes root front (name :: back) ↔
      isManagedPath api attributes (joinRoot root (front ++ [name])) = .ok true ∨
        ManagedBehind api attributes root (front ++ [name]) back := by
  constructor
  · intro ⟨k, hpos, hle, hmanaged⟩
    obtain ⟨k, rfl⟩ := Nat.exists_eq_add_of_le' hpos
    rw [List.take_succ_cons] at hmanaged
    by_cases hk : k = 0
    · subst hk
      exact .inl hmanaged
    · refine .inr ⟨k, by omega, by simpa using hle, ?_⟩
      simpa using hmanaged
  · intro h
    rcases h with hmanaged | ⟨k, hpos, hle, hmanaged⟩
    · exact ⟨1, Nat.le_refl _, by simp, hmanaged⟩
    · exact ⟨k + 1, by omega, by simpa using hle, by simpa using hmanaged⟩

/-- A turn of the search that no separator follows looks at the whole path. -/
theorem searchManaged_last {front : List NetString} {name : NetString}
    (hfront : ∀ n ∈ front, Component api.invalidPathChars n)
    (hname : Component api.invalidPathChars name) (turns : Nat) :
    searchManaged api attributes (joinRoot root (front ++ [name])) (turns + 1)
        (closeRoot (joinRoot root front)).length =
      isManagedPath api attributes (joinRoot root (front ++ [name])) := by
  have hword : ∀ c ∈ name, c ≠ backslash := fun c hc => (hname.valid c hc).2.1
  have hconcat := @joinRoot_concat _ root front name hfront
  have hindex : indexOf (joinRoot root (front ++ [name])) backslash
      (closeRoot (joinRoot root front)).length = none := by
    have h := indexOf_append (closeRoot (joinRoot root front)) hword (.inl rfl)
    rw [List.append_nil, if_pos rfl, ← hconcat] at h
    exact h
  have hmore : ¬(closeRoot (joinRoot root front)).length ≥
      (joinRoot root (front ++ [name])).length := by
    have hpos := List.length_pos_iff.mpr hname.nonempty
    rw [hconcat, List.length_append]
    omega
  rw [searchManaged, hindex]
  simp only [if_neg hmore]

/-- A turn with more names to come looks at the path up to its own name. -/
theorem searchManaged_more {front rest : List NetString} {name : NetString}
    (hfront : ∀ n ∈ front, Component api.invalidPathChars n)
    (hname : Component api.invalidPathChars name) (hrest : rest ≠ []) (turns : Nat) :
    searchManaged api attributes (joinRoot root (front ++ name :: rest)) (turns + 1)
        (closeRoot (joinRoot root front)).length =
      (do
        let managed ← isManagedPath api attributes (joinRoot root (front ++ [name]))
        if managed then return true
        else
          searchManaged api attributes (joinRoot root (front ++ name :: rest)) turns
            ((joinRoot root (front ++ [name])).length + 1)) := by
  have hword : ∀ c ∈ name, c ≠ backslash := fun c hc => (hname.valid c hc).2.1
  have hconcat := @joinRoot_concat _ root front name hfront
  have hpath : joinRoot root (front ++ name :: rest) =
      closeRoot (joinRoot root front) ++ (name ++ backslash :: joinComponents rest) := by
    rw [joinRoot_append hfront (List.cons_ne_nil _ _), joinComponents_cons name hrest]
  have hindex : indexOf (joinRoot root (front ++ name :: rest)) backslash
      (closeRoot (joinRoot root front)).length =
        some (joinRoot root (front ++ [name])).length := by
    rw [hpath, indexOf_append _ hword (.inr ⟨_, rfl⟩), if_neg (List.cons_ne_nil _ _), hconcat,
      List.length_append]
  have htake : (joinRoot root (front ++ name :: rest)).take
      (joinRoot root (front ++ [name])).length = joinRoot root (front ++ [name]) := by
    rw [hpath, hconcat, ← List.append_assoc, List.take_left]
  rw [searchManaged, hindex]
  simp only [htake]

include hadm hroot

theorem searchManaged_decides {front back : List NetString} (hback : back ≠ [])
    (hnames : ∀ name ∈ front ++ back, Component api.invalidPathChars name) (turns : Nat)
    (hturns : back.length ≤ turns) :
    Decides (searchManaged api attributes (joinRoot root (front ++ back)) turns
        (closeRoot (joinRoot root front)).length)
      (ManagedBehind api attributes root front back) := by
  induction back generalizing front turns with
  | nil => exact absurd rfl hback
  | cons name rest ih =>
    obtain ⟨turns, rfl⟩ := Nat.exists_eq_add_of_le' (Nat.le_trans (Nat.succ_pos _) hturns)
    have hfront := fun n hn => hnames n (List.mem_append_left _ hn)
    have hname := hnames name (by simp)
    have hassoc : front ++ name :: rest = (front ++ [name]) ++ rest := by simp
    have hprefix : ∀ n ∈ front ++ [name], Component api.invalidPathChars n := by
      intro n hn
      apply hnames
      rw [hassoc]
      exact List.mem_append_left _ hn
    obtain ⟨managed, hmanaged⟩ := @isManagedPath_returns api attributes hadm root hroot _ hprefix
    rw [managedBehind_cons, hmanaged]
    by_cases hrest : rest = []
    · subst hrest
      have hnone : ¬ManagedBehind api attributes root (front ++ [name]) [] := by
        intro ⟨k, hpos, hle, _⟩
        rw [List.length_nil] at hle
        omega
      rw [searchManaged_last hfront hname]
      refine ⟨managed, hmanaged, ?_⟩
      simp [hnone]
    · rw [searchManaged_more hfront hname hrest, hmanaged]
      cases managed with
      | true => exact decides_true (.inl rfl)
      | false =>
        have hnext := closeRoot_of_not_closed (@joinRoot_getLast _ root (front ++ [name])
          (by simp) hprefix)
        have hgoes := ih hrest (by rw [← hassoc]; exact hnames) turns (by simpa using hturns)
        rw [hnext, List.length_append, List.length_singleton, ← hassoc] at hgoes
        apply hgoes.congr
        simp

end Search

theorem lastIndexOf_le {path : NetString} {c : UInt16} {nEnd i : Nat}
    (h : lastIndexOf path c nEnd = some i) : i ≤ nEnd := by
  rw [lastIndexOf] at h
  split at h
  · obtain rfl := Option.some.inj h
    exact Nat.sub_le _ _
  · cases h

theorem lastIndexOf_word (front tail : NetString) {c : UInt16} {word : NetString}
    (hword : c ∉ word) :
    lastIndexOf (front ++ c :: (word ++ tail)) c (front.length + word.length) =
      some front.length := by
  have htake : (front ++ c :: (word ++ tail)).take (front.length + word.length + 1) =
      front ++ c :: word := by
    have hsplit : front ++ c :: (word ++ tail) = (front ++ c :: word) ++ tail := by simp
    have hlength : front.length + word.length + 1 = (front ++ c :: word).length := by
      rw [List.length_append, List.length_cons, Nat.add_assoc]
    rw [hsplit, hlength, List.take_left]
  have hreverse : (front ++ c :: word).reverse = word.reverse ++ c :: front.reverse := by simp
  rw [lastIndexOf, htake, hreverse, takeWhile_ne_cut (by simpa using hword), List.length_reverse,
    Nat.add_sub_cancel]
  exact if_pos (by simp)

theorem lastAdministrative_concat (front : List NetString) (name : NetString) :
    lastAdministrative (front ++ [name]) =
      if isAdministrative name then front.length + 1 else lastAdministrative front := by
  rw [lastAdministrative, lastAdministrative]
  cases h : isAdministrative name with
  | true =>
    rw [List.rdropWhile_concat_neg _ _ _ (by simp [h]), if_pos rfl, List.length_append,
      List.length_singleton]
  | false => rw [List.rdropWhile_concat_pos _ _ _ (by simp [h]), if_neg Bool.false_ne_true]

theorem lastAdministrative_le (names : List NetString) :
    lastAdministrative names ≤ names.length :=
  (List.rdropWhile_prefix _ names).length_le

theorem isAdministrative_length {name : NetString} (h : isAdministrative name = true) :
    name.length = administrativeDirectoryName.length := by
  rw [isAdministrative, equalsIgnoreCase, beq_iff_eq] at h
  have hlength := congrArg List.length h
  rw [List.length_map, List.length_map] at hlength
  exact hlength

/-- How many names at the start the search does not look at. -/
def unseen (root : NetString) : Nat := if root.getLast? = some backslash then 1 else 0

theorem unseen_le_one (root : NetString) : unseen root ≤ 1 := by
  rw [unseen]
  split
  · exact Nat.le_refl _
  · exact Nat.zero_le _

theorem closeRoot_joinRoot {root : NetString} {front : List NetString}
    (hfront : ∀ name ∈ front, Component invalid name) (hseen : unseen root ≤ front.length) :
    closeRoot (joinRoot root front) = joinRoot root front ++ [backslash] := by
  apply closeRoot_of_not_closed
  by_cases hnil : front = []
  · subst hnil
    intro hlast
    have hunseen : unseen root = 1 := if_pos hlast
    rw [hunseen, List.length_nil] at hseen
    omega
  · exact joinRoot_getLast hnil hfront

theorem root_le_joinRoot (root : NetString) (names : List NetString) :
    root.length ≤ (joinRoot root names).length := by
  have hclose : root.length ≤ (closeRoot root).length := by
    rw [closeRoot]
    split
    · exact Nat.le_refl _
    · rw [List.length_append]
      exact Nat.le_add_right _ _
  rw [joinRoot]
  split
  · exact Nat.le_refl _
  · rw [List.length_append]
    exact Nat.le_trans hclose (Nat.le_add_right _ _)

/-- Behind a name of the path comes a separator or the end. -/
theorem joinComponents_front (name : NetString) (back : List NetString) :
    ∃ tail, joinComponents (name :: back) = name ++ tail := by
  by_cases hback : back = []
  · subst hback
    exact ⟨[], by rw [joinComponents, List.intercalate_singleton, List.append_nil]⟩
  · exact ⟨_, joinComponents_cons name hback⟩

theorem isAdministrative_test (name : NetString) :
    (decide (name.length = administrativeDirectoryName.length) &&
      equalsIgnoreCase name administrativeDirectoryName) = isAdministrative name := by
  rw [isAdministrative]
  cases h : equalsIgnoreCase name administrativeDirectoryName with
  | true =>
    rw [decide_eq_true (isAdministrative_length h)]
    rfl
  | false => rw [Bool.and_false]

theorem joinRoot_split {root : NetString} {front back : List NetString} {name : NetString}
    (hnames : ∀ n ∈ front ++ name :: back, Component invalid n) :
    ∃ tail, joinRoot root (front ++ name :: back) =
      closeRoot (joinRoot root front) ++ (name ++ tail) := by
  obtain ⟨tail, htail⟩ := joinComponents_front name back
  refine ⟨tail, ?_⟩
  have hfront : ∀ n ∈ front, Component invalid n := fun n hn => hnames n (by simp [hn])
  rw [joinRoot_append hfront (List.cons_ne_nil _ _), htail]

/-- Where the search goes on behind a name: nowhere after the last one. -/
theorem searchBack_found {root : NetString} {front back : List NetString} {name : NetString}
    (hnames : ∀ n ∈ front ++ name :: back, Component invalid n)
    (hclose : closeRoot (joinRoot root front) = joinRoot root front ++ [backslash]) :
    (if (joinRoot root (front ++ name :: back)).length ≤
        (joinRoot root front).length + name.length + 2 then none
      else some ((joinRoot root front).length + name.length + 2)) =
      if back = [] then none else some (closeRoot (joinRoot root (front ++ [name]))).length := by
  have hassoc : front ++ name :: back = (front ++ [name]) ++ back := by simp
  have hfront : ∀ n ∈ front, Component invalid n := fun n hn => hnames n (by simp [hn])
  have hlength : (joinRoot root (front ++ [name])).length =
      (joinRoot root front).length + name.length + 1 := by
    rw [joinRoot_concat name hfront, hclose, List.length_append, List.length_append,
      List.length_singleton]
    omega
  by_cases hback : back = []
  · subst hback
    rw [if_pos (by omega), if_pos rfl]
  · rw [hassoc] at hnames
    have hprefix : ∀ n ∈ front ++ [name], Component invalid n :=
      fun n hn => hnames n (List.mem_append_left _ hn)
    have hnext := closeRoot_of_not_closed
      (@joinRoot_getLast invalid root (front ++ [name]) (by simp) hprefix)
    have hrest := components_joinComponents hback
      fun n hn => hnames n (List.mem_append_right _ hn)
    have hpos := List.length_pos_iff.mpr hrest.ne_nil
    have hlong : (joinRoot root (front ++ name :: back)).length =
        (joinRoot root (front ++ [name])).length + 1 + (joinComponents back).length := by
      rw [hassoc, joinRoot_append hprefix hback, hnext, List.length_append, List.length_append,
        List.length_singleton]
    rw [if_neg (by omega), if_neg hback, hnext, List.length_append, List.length_singleton, hlength]

/-- One turn of the search, at the end of `name`. -/
theorem searchBack_name {root : NetString} {front back : List NetString} {name : NetString}
    (hnames : ∀ n ∈ front ++ name :: back, Component invalid n)
    (hseen : unseen root ≤ front.length) (turns : Nat) :
    searchBack (joinRoot root (front ++ name :: back)) (turns + 1) root.length
        ((joinRoot root (front ++ [name])).length - 1) =
      if isAdministrative name then
        if back = [] then none else some (closeRoot (joinRoot root (front ++ [name]))).length
      else searchBack (joinRoot root (front ++ name :: back)) turns root.length
        ((joinRoot root front).length - 1) := by
  have hfront : ∀ n ∈ front, Component invalid n := fun n hn => hnames n (by simp [hn])
  have hname := hnames name (by simp)
  have hword : backslash ∉ name := fun h => (hname.valid _ h).2.1 rfl
  have hclose := closeRoot_joinRoot hfront hseen
  obtain ⟨tail, hpath⟩ := @joinRoot_split invalid root front back name hnames
  have hend : (joinRoot root (front ++ [name])).length - 1 =
      (joinRoot root front).length + name.length := by
    rw [joinRoot_concat name hfront, hclose, List.length_append, List.length_append,
      List.length_singleton]
    omega
  have hindex : lastIndexOf (joinRoot root (front ++ name :: back)) backslash
      ((joinRoot root front).length + name.length) = some (joinRoot root front).length := by
    rw [hpath, hclose, List.append_assoc, List.singleton_append]
    exact lastIndexOf_word _ _ hword
  have hread : ((joinRoot root (front ++ name :: back)).drop
      ((joinRoot root front).length + 1)).take name.length = name := by
    have hlength : (joinRoot root front).length + 1 =
        (joinRoot root front ++ [backslash]).length := by simp
    rw [hpath, hclose, hlength, List.drop_left, List.take_left]
  have hlen : (joinRoot root front).length + name.length - (joinRoot root front).length =
      name.length := Nat.add_sub_cancel_left _ _
  rw [searchBack, hend, hindex]
  simp only [if_pos (root_le_joinRoot root front), hlen, hread, isAdministrative_test,
    ← searchBack_found hnames hclose]

/-- The first name behind a drive is not looked at: its separator belongs to the root. -/
theorem searchBack_unseen {root : NetString} {back : List NetString} {name : NetString}
    (hnames : ∀ n ∈ name :: back, Component invalid n) (hunseen : unseen root = 1) (turns : Nat) :
    searchBack (joinRoot root (name :: back)) (turns + 1) root.length
        ((joinRoot root [name]).length - 1) = some root.length := by
  have hclosed : root.getLast? = some backslash := by
    by_contra hnot
    rw [unseen, if_neg hnot] at hunseen
    cases hunseen
  obtain ⟨letters, hletters⟩ := List.getLast?_eq_some_iff.mp hclosed
  have hname := hnames name (by simp)
  have hword : backslash ∉ name := fun h => (hname.valid _ h).2.1 rfl
  have hempty : joinRoot root [] = root := if_pos rfl
  have hclose : closeRoot root = root := if_pos hclosed
  obtain ⟨tail, hpath⟩ := @joinRoot_split invalid root [] back name hnames
  rw [List.nil_append] at hpath
  have hone := @joinRoot_concat invalid root [] name (by simp)
  rw [List.nil_append, hempty, hclose] at hone
  have hend : (joinRoot root [name]).length - 1 = letters.length + name.length := by
    rw [hone, List.length_append, hletters, List.length_append, List.length_singleton]
    omega
  have hindex : lastIndexOf (joinRoot root (name :: back)) backslash
      (letters.length + name.length) = some letters.length := by
    rw [hpath, hempty, hclose, hletters, List.append_assoc, List.singleton_append]
    exact lastIndexOf_word _ _ hword
  have hshort : ¬root.length ≤ letters.length := by
    rw [hletters, List.length_append, List.length_singleton]
    omega
  rw [searchBack, hend, hindex]
  simp only [if_neg hshort]

/-- With no name left the search ends behind the root. -/
theorem searchBack_root {root path : NetString} (hroot : root ≠ []) (turns : Nat) :
    searchBack path turns root.length (root.length - 1) = some root.length := by
  have hpos := List.length_pos_iff.mpr hroot
  cases turns with
  | zero => rfl
  | succ turns =>
    rw [searchBack]
    split
    · rfl
    · rename_i i hi
      have hle := lastIndexOf_le hi
      rw [if_neg (by omega)]

/-- At an administrative directory: it is the last one. -/
theorem searchBack_administrative {root : NetString} {front back : List NetString}
    {name : NetString} (hnames : ∀ n ∈ front ++ name :: back, Component invalid n)
    (hseen : unseen root ≤ front.length) (hadm : isAdministrative name = true) (turns : Nat) :
    searchBack (joinRoot root (front ++ name :: back)) (turns + 1) root.length
        ((joinRoot root (front ++ [name])).length - 1) =
      if front.length + 1 = (front ++ name :: back).length then none
      else some (closeRoot (joinRoot root
        ((front ++ name :: back).take (front.length + 1)))).length := by
  have hassoc : front ++ [name] ++ back = front ++ name :: back := by simp
  have hlength : (front ++ name :: back).length = front.length + 1 + back.length := by
    rw [List.length_append, List.length_cons]
    omega
  rw [searchBack_name hnames hseen, if_pos hadm, hlength]
  by_cases hback : back = []
  · subst hback
    rw [if_pos rfl, if_pos (by simp)]
  · have hpos := List.length_pos_iff.mpr hback
    have hshort : front.length + 1 = (front ++ [name]).length := by simp
    rw [if_neg hback, if_neg (by omega), ← hassoc, hshort, List.take_left]

/-- The search starts at the end of `front` and goes through it backwards. -/
theorem searchBack_eq {root : NetString} (hroot : root ≠ []) {front back : List NetString}
    (hnames : ∀ name ∈ front ++ back, Component invalid name) {turns : Nat}
    (hturns : front.length ≤ turns) :
    searchBack (joinRoot root (front ++ back)) turns root.length
        ((joinRoot root front).length - 1) =
      if lastAdministrative front ≤ unseen root then some root.length
      else if lastAdministrative front = (front ++ back).length then none
      else some
        (closeRoot (joinRoot root ((front ++ back).take (lastAdministrative front)))).length := by
  induction front using List.reverseRecOn generalizing back turns with
  | nil =>
    have hempty : joinRoot root [] = root := if_pos rfl
    rw [lastAdministrative, List.rdropWhile_nil, List.length_nil, if_pos (Nat.zero_le _), hempty]
    exact searchBack_root hroot turns
  | append_singleton front name ih =>
    have hassoc : front ++ [name] ++ back = front ++ name :: back := by simp
    rw [hassoc] at hnames ⊢
    rw [List.length_append, List.length_singleton] at hturns
    obtain ⟨turns, rfl⟩ : ∃ n, turns = n + 1 := ⟨turns - 1, by omega⟩
    rw [lastAdministrative_concat]
    by_cases hseen : unseen root ≤ front.length
    · cases hadm : isAdministrative name with
      | true =>
        have hmore : ¬front.length + 1 ≤ unseen root := by omega
        rw [if_pos rfl, if_neg hmore]
        exact searchBack_administrative hnames hseen hadm turns
      | false =>
        rw [searchBack_name hnames hseen, hadm]
        simpa using ih hnames (Nat.le_of_succ_le_succ hturns)
    · -- the first name behind a drive
      have hone := unseen_le_one root
      have hnil : front = [] := List.eq_nil_of_length_eq_zero (by omega)
      have hunseen : unseen root = 1 := by omega
      subst hnil
      rw [List.nil_append, List.nil_append, searchBack_unseen hnames hunseen, hunseen, if_pos]
      split
      · exact Nat.le_refl _
      · exact Nat.le_succ_of_le (lastAdministrative_le [])

/-- Some prefix of more than `k` names is a working copy. -/
def ManagedBeyond (api : PathApi) (attributes : FileAttributes) (root : NetString)
    (names : List NetString) (k : Nat) : Prop :=
  ∃ j, k < j ∧ j ≤ names.length ∧ ManagedAt api attributes root names j

/-- What the two searches together look for. -/
def FindsManaged (api : PathApi) (attributes : FileAttributes) (root : NetString)
    (names : List NetString) : Prop :=
  if lastAdministrative names ≤ unseen root then
    ManagedBeyond api attributes root names 0 ∨
      unseen root = 0 ∧ names ≠ [] ∧ ManagedAt api attributes root names 0
  else ManagedBeyond api attributes root names (lastAdministrative names)

theorem joinRoot_length_drop {root : NetString} {names : List NetString}
    (hnames : ∀ name ∈ names, Component invalid name) {k : Nat} (hk : k < names.length) :
    names.length + (closeRoot (joinRoot root (names.take k))).length ≤
      k + (joinRoot root names).length := by
  have hback : names.drop k ≠ [] := by
    apply List.ne_nil_of_length_pos
    rw [List.length_drop]
    omega
  have hlong := @length_le_joinComponents (names.drop k)
    fun n hn => (hnames n (List.mem_of_mem_drop hn)).nonempty
  have hpath := @joinRoot_append invalid root (names.take k) (names.drop k)
    (fun n hn => hnames n (List.mem_of_mem_take hn)) hback
  rw [List.take_append_drop] at hpath
  rw [hpath, List.length_append]
  rw [List.length_drop] at hlong
  omega

section Below

variable {api : PathApi} {attributes : FileAttributes} {root : NetString}

theorem managedBehind_iff {names : List NetString} {k : Nat} (hk : k ≤ names.length) :
    ManagedBehind api attributes root (names.take k) (names.drop k) ↔
      ManagedBeyond api attributes root names k := by
  constructor
  · intro ⟨i, hpos, hle, hmanaged⟩
    rw [List.length_drop] at hle
    rw [← List.take_add] at hmanaged
    exact ⟨k + i, by omega, by omega, hmanaged⟩
  · intro ⟨j, hlt, hle, hmanaged⟩
    refine ⟨j - k, by omega, by rw [List.length_drop]; omega, ?_⟩
    rw [← List.take_add, Nat.add_sub_cancel' (Nat.le_of_lt hlt)]
    exact hmanaged

theorem not_managedBeyond_length (names : List NetString) :
    ¬ManagedBeyond api attributes root names names.length := by
  intro ⟨j, hlt, hle, _⟩
  omega

variable (hadm : Component api.invalidPathChars administrativeDirectoryName)
  (hroot : IsRoot api.unicode root) {names : List NetString}
  (hnames : ∀ name ∈ names, Component api.invalidPathChars name)

include hadm hroot hnames

/-- The search behind so many names that some are left. -/
theorem searchManaged_beyond {k : Nat} (hk : k < names.length) {turns : Nat}
    (hturns : names.length ≤ k + turns) :
    Decides (searchManaged api attributes (joinRoot root names) turns
        (closeRoot (joinRoot root (names.take k))).length)
      (ManagedBeyond api attributes root names k) := by
  have hback : names.drop k ≠ [] := by
    apply List.ne_nil_of_length_pos
    rw [List.length_drop]
    omega
  have hsplit : names.take k ++ names.drop k = names := List.take_append_drop k names
  have hgoes := @searchManaged_decides api attributes root hadm hroot (names.take k)
    (names.drop k) hback (by rw [hsplit]; exact hnames) turns
    (by rw [List.length_drop]; omega)
  rw [hsplit] at hgoes
  exact hgoes.congr (managedBehind_iff (Nat.le_of_lt hk))

omit hadm hroot hnames in
/-- No separator follows the root: its one turn ends the search. -/
theorem searchManaged_rootOnly :
    searchManaged api attributes root (root.length + 1 - root.length) root.length = .ok false := by
  have hindex : indexOf root backslash root.length = none := by
    have h := @indexOf_append root [] [] (by simp) (.inl rfl)
    rw [List.append_nil, List.append_nil, if_pos rfl] at h
    exact h
  have hturns : root.length + 1 - root.length = 1 := Nat.add_sub_cancel_left _ _
  rw [hturns, searchManaged, hindex]
  simp only [ge_iff_le, Nat.le_refl, if_true]
  rfl

/-- The root ends in its separator: the search starts behind it. -/
theorem searchManaged_rootClosed (hnil : names ≠ []) (hclosed : root.getLast? = some backslash) :
    Decides (searchManaged api attributes (joinRoot root names)
        ((joinRoot root names).length + 1 - root.length) root.length)
      (ManagedBeyond api attributes root names 0) := by
  have hempty : joinRoot root [] = root := if_pos rfl
  have hclose : closeRoot root = root := if_pos hclosed
  have hpos := List.length_pos_iff.mpr hnil
  have hlong := @joinRoot_length_drop _ root names hnames 0 hpos
  rw [List.take_zero, hempty, hclose] at hlong
  have hgoes := @searchManaged_beyond api attributes root hadm hroot names hnames 0 hpos
    ((joinRoot root names).length + 1 - root.length) (by omega)
  rw [List.take_zero, hempty, hclose] at hgoes
  exact hgoes

/-- A separator follows the root: the root is looked at first. -/
theorem searchManaged_rootOpen (hnil : names ≠ []) (hopen : root.getLast? ≠ some backslash) :
    Decides (searchManaged api attributes (joinRoot root names)
        ((joinRoot root names).length + 1 - root.length) root.length)
      (ManagedAt api attributes root names 0 ∨ ManagedBeyond api attributes root names 0) := by
  have hempty : joinRoot root [] = root := if_pos rfl
  have hclose : closeRoot root = root ++ [backslash] := if_neg hopen
  have hpos := List.length_pos_iff.mpr hnil
  have hlong := @joinRoot_length_drop _ root names hnames 0 hpos
  have hpath : joinRoot root names = root ++ backslash :: joinComponents names := by
    rw [joinRoot, if_neg hnil, hclose, List.append_assoc, List.singleton_append]
  have hindex : indexOf (joinRoot root names) backslash root.length = some root.length := by
    have h := @indexOf_append root [] (backslash :: joinComponents names) (by simp)
      (.inr ⟨_, rfl⟩)
    rw [List.nil_append, if_neg (List.cons_ne_nil _ _), ← hpath] at h
    exact h
  have htake : (joinRoot root names).take root.length = root := by rw [hpath, List.take_left]
  rw [List.take_zero, hempty, hclose, List.length_append, List.length_singleton] at hlong
  obtain ⟨turns, hturns⟩ : ∃ turns,
      (joinRoot root names).length + 1 - root.length = turns + 1 :=
    ⟨(joinRoot root names).length - root.length, by omega⟩
  have hgoes := @searchManaged_beyond api attributes root hadm hroot names hnames 0 hpos turns
    (by omega)
  rw [List.take_zero, hempty, hclose, List.length_append, List.length_singleton] at hgoes
  obtain ⟨managed, hmanaged⟩ := @isManagedPath_returns api attributes hadm root hroot []
    (by simp)
  have hat : ManagedAt api attributes root names 0 ↔ managed = true := by
    rw [ManagedAt, List.take_zero, hmanaged]
    simp
  rw [hempty] at hmanaged
  rw [hturns, searchManaged, hindex]
  simp only [htake, hmanaged, bind, Except.bind]
  cases managed with
  | true => exact decides_true (.inl (hat.mpr rfl))
  | false =>
    apply hgoes.congr
    rw [hat]
    simp

/-- The search from the root on. -/
theorem searchManaged_root :
    Decides (searchManaged api attributes (joinRoot root names)
        ((joinRoot root names).length + 1 - root.length) root.length)
      (ManagedBeyond api attributes root names 0 ∨
        unseen root = 0 ∧ names ≠ [] ∧ ManagedAt api attributes root names 0) := by
  by_cases hnil : names = []
  · subst hnil
    have hempty : joinRoot root [] = root := if_pos rfl
    rw [hempty, searchManaged_rootOnly]
    apply decides_false
    intro h
    rcases h with h | ⟨_, h, _⟩
    · exact not_managedBeyond_length [] h
    · exact h rfl
  · by_cases hclosed : root.getLast? = some backslash
    · have hunseen : unseen root = 1 := if_pos hclosed
      apply (searchManaged_rootClosed hadm hroot hnames hnil hclosed).congr
      rw [hunseen]
      simp
    · have hunseen : unseen root = 0 := if_neg hclosed
      apply (searchManaged_rootOpen hadm hroot hnames hnil hclosed).congr
      rw [hunseen]
      simp [hnil, or_comm]

theorem isBelowManagedPath_decides :
    Decides (isBelowManagedPath api attributes (joinRoot root names))
      (FindsManaged api attributes root names) := by
  have hpath := joinRoot_ne_nil hroot.ne_nil names
  have hshort : names.length ≤ (joinRoot root names).length := by
    by_cases hnil : names = []
    · rw [hnil]
      exact Nat.zero_le _
    · have hlong := @joinRoot_length_drop _ root names hnames 0
        (List.length_pos_iff.mpr hnil)
      omega
  have hback := @searchBack_eq api.invalidPathChars root hroot.ne_nil names [] (by simpa) _ hshort
  rw [List.append_nil] at hback
  rw [isBelowManagedPath, if_neg hpath,
    getNormalizedFullPath_of_normalized (normalizedPath_joinRoot hroot hnames)]
  simp only [bind, Except.bind, getPathRootPart_joinRoot names hroot, hback, FindsManaged]
  by_cases hseen : lastAdministrative names ≤ unseen root
  · simp only [if_pos hseen]
    exact searchManaged_root hadm hroot hnames
  · simp only [if_neg hseen]
    have hle := lastAdministrative_le names
    by_cases hlast : lastAdministrative names = names.length
    · rw [if_pos hlast, hlast]
      exact decides_false (not_managedBeyond_length names)
    · have hlt : lastAdministrative names < names.length := by omega
      have hlong := @joinRoot_length_drop _ root names hnames _ hlt
      rw [if_neg hlast]
      exact searchManaged_beyond hadm hroot hnames hlt (by omega)

end Below

/-- The searches pass over one prefix: of a lone root, or the first one behind a drive. -/
def SkipsPrefix (root : NetString) (names : List NetString) : Prop :=
  names = [] ∨ root.getLast? = some backslash ∧ lastAdministrative names ≤ 1

section Skips

variable {api : PathApi} {attributes : FileAttributes} {root : NetString}
  {names : List NetString}

theorem belowManaged_iff :
    BelowManaged api attributes root names ↔
      lastAdministrative names = 0 ∧ ManagedAt api attributes root names 0 ∨
        ManagedBeyond api attributes root names (lastAdministrative names) := by
  constructor
  · intro ⟨j, hj, hle, hmanaged⟩
    by_cases hlt : lastAdministrative names < j
    · exact .inr ⟨j, hlt, hle, hmanaged⟩
    · have hzero : lastAdministrative names = 0 := hj.resolve_right hlt
      obtain rfl : j = 0 := by omega
      exact .inl ⟨hzero, hmanaged⟩
  · intro h
    rcases h with ⟨hzero, hmanaged⟩ | ⟨j, hlt, hle, hmanaged⟩
    · exact ⟨0, .inl hzero, Nat.zero_le _, hmanaged⟩
    · exact ⟨j, .inr hlt, hle, hmanaged⟩

theorem managedBeyond_zero (hpos : 1 ≤ names.length) :
    ManagedBeyond api attributes root names 0 ↔
      ManagedAt api attributes root names 1 ∨ ManagedBeyond api attributes root names 1 := by
  constructor
  · intro ⟨j, hlt, hle, hmanaged⟩
    by_cases hj : j = 1
    · subst hj
      exact .inl hmanaged
    · exact .inr ⟨j, by omega, hle, hmanaged⟩
  · intro h
    rcases h with hmanaged | ⟨j, hlt, hle, hmanaged⟩
    · exact ⟨1, Nat.one_pos, hpos, hmanaged⟩
    · exact ⟨j, by omega, hle, hmanaged⟩

/-- The searches find what there is, unless the prefix that they pass over is the only one. -/
theorem findsManaged_iff :
    (FindsManaged api attributes root names ↔ BelowManaged api attributes root names) ↔
      (SkipsPrefix root names →
        ManagedAt api attributes root names (lastAdministrative names) →
          ManagedBeyond api attributes root names (lastAdministrative names)) := by
  have hle := lastAdministrative_le names
  rw [belowManaged_iff, FindsManaged, SkipsPrefix]
  by_cases hclosed : root.getLast? = some backslash
  · have hunseen : unseen root = 1 := if_pos hclosed
    rw [hunseen]
    by_cases hseen : lastAdministrative names ≤ 1
    · rw [if_pos hseen]
      by_cases hzero : lastAdministrative names = 0
      · simp [hclosed, hzero]
      · have hone : lastAdministrative names = 1 := by omega
        rw [hone, managedBeyond_zero (by omega)]
        simp [hclosed]
    · have hnil : names ≠ [] := fun h => by
        have hlength := congrArg List.length h
        rw [List.length_nil] at hlength
        omega
      rw [if_neg hseen]
      have hzero : lastAdministrative names ≠ 0 := by omega
      simp [hseen, hnil, hzero]
  · have hunseen : unseen root = 0 := if_neg hclosed
    rw [hunseen]
    by_cases hzero : lastAdministrative names = 0
    · rw [hzero, if_pos (Nat.le_refl _)]
      by_cases hnil : names = []
      · simp [hnil]
      · simp only [hnil, hclosed, ne_eq, not_false_eq_true, true_and, false_and, or_self,
          false_implies, iff_true]
        exact or_comm
    · have hnil : names ≠ [] := fun h => by
        have hlength := congrArg List.length h
        rw [List.length_nil] at hlength
        omega
      rw [if_neg (by omega)]
      simp [hclosed, hnil, hzero]

end Skips

theorem Decides.iff {x : Except GitToolsException Bool} {p q : Prop} (h : Decides x p) :
    Decides x q ↔ (p ↔ q) := by
  obtain ⟨b, hb, hp⟩ := h
  constructor
  · intro ⟨b', hb', hq⟩
    obtain rfl := Except.ok.inj (hb.symm.trans hb')
    exact hp.symm.trans hq
  · intro hpq
    exact ⟨b, hb, hp.trans hpq⟩

theorem administrative_component
    (hvalid : ∀ c ∈ administrativeDirectoryName, c ∉ invalid) :
    Component invalid administrativeDirectoryName where
  nonempty := by decide
  valid c hc := by
    have hplain : administrativeDirectoryName.all
        (fun c => c ≠ backslash ∧ c ≠ slash ∧ c ≠ colon) = true := by decide
    have hc' := List.all_eq_true.mp hplain c hc
    exact ⟨hvalid c hc, by simpa using hc'⟩
  notDots := ⟨0x67, by decide, by decide⟩

/-- Of a normalized path, the answer is right just when no lone working copy is passed over. -/
theorem isBelowManagedPath_iff (api : PathApi) (attributes : FileAttributes)
    (hadm : ∀ c ∈ administrativeDirectoryName, c ∉ api.invalidPathChars) (path : NetString)
    (h : NormalizedPath api.unicode api.invalidPathChars path) :
    ∃ root names, getPathRootPart api.unicode path = .ok (some root) ∧
      path = joinRoot root names ∧ (∀ name ∈ names, Component api.invalidPathChars name) ∧
      (Decides (isBelowManagedPath api attributes path)
          (BelowManaged api attributes root names) ↔
        (SkipsPrefix root names →
          ManagedAt api attributes root names (lastAdministrative names) →
            ManagedBeyond api attributes root names (lastAdministrative names))) := by
  obtain ⟨root, names, hroot, hnames, rfl⟩ := h.root_names
  have hdecides := @isBelowManagedPath_decides api attributes root
    (administrative_component hadm) hroot names hnames
  exact ⟨root, names, getPathRootPart_joinRoot names hroot, rfl, hnames,
    hdecides.iff.trans findsManaged_iff⟩

/-- A disk with a working copy at the root of drive C. -/
def exampleAttributes : FileAttributes := fun path =>
  if path = [0x43, 0x3a, 0x5c, 0x2e, 0x67, 0x69, 0x74] then fileAttributeDirectory
  else invalidFileAttributes

theorem exampleAdministrative :
    ∀ c ∈ administrativeDirectoryName, c ∉ examplePlatform.invalidPathChars := by
  intro c hc
  have hall : administrativeDirectoryName.all
      (fun c => c ∉ examplePlatform.invalidPathChars) = true := by decide
  simpa using List.all_eq_true.mp hall c hc

/-- "D:\\" is no working copy. -/
theorem isBelowManagedPath_example :
    Decides (isBelowManagedPath examplePlatform exampleAttributes [0x44, 0x3a, 0x5c])
      (BelowManaged examplePlatform exampleAttributes [0x44, 0x3a, 0x5c] []) := by
  obtain ⟨root, names, hroot, hpath, hnames, hdecides⟩ :=
    isBelowManagedPath_iff examplePlatform exampleAttributes exampleAdministrative
      [0x44, 0x3a, 0x5c] (.of_isNormalized (by decide) (by decide))
  have hpart : getPathRootPart examplePlatform.unicode [0x44, 0x3a, 0x5c] =
      .ok (some [0x44, 0x3a, 0x5c]) := by decide
  obtain rfl := Option.some.inj (Except.ok.inj (hroot.symm.trans hpart))
  have hnil : names = [] := by
    by_contra hne
    apply joinRoot_getLast hne hnames
    rw [← hpath]
    rfl
  subst hnil
  apply hdecides.mpr
  intro _ hmanaged
  have hnot : isManagedPath examplePlatform exampleAttributes [0x44, 0x3a, 0x5c] = .ok false := by
    decide
  cases hnot.symm.trans hmanaged

/-- "C:\\a" is below the working copy "C:\\", and the answer is no. -/
theorem isBelowManagedPath_skips_root :
    isManagedPath examplePlatform exampleAttributes [0x43, 0x3a, 0x5c] = .ok true ∧
      isBelowManagedPath examplePlatform exampleAttributes [0x43, 0x3a, 0x5c, 0x61] =
        .ok false ∧
      ¬Decides (isBelowManagedPath examplePlatform exampleAttributes [0x43, 0x3a, 0x5c, 0x61])
        (BelowManaged examplePlatform exampleAttributes [0x43, 0x3a, 0x5c] [[0x61]]) := by
  have hroot : isManagedPath examplePlatform exampleAttributes [0x43, 0x3a, 0x5c] = .ok true := by
    decide
  have hanswer : isBelowManagedPath examplePlatform exampleAttributes
      [0x43, 0x3a, 0x5c, 0x61] = .ok false := by decide
  refine ⟨hroot, hanswer, ?_⟩
  intro ⟨b, hb, hbelow⟩
  rw [hanswer] at hb
  obtain rfl := Except.ok.inj hb
  have hmanaged : BelowManaged examplePlatform exampleAttributes [0x43, 0x3a, 0x5c] [[0x61]] :=
    ⟨0, .inl (by decide), by decide, hroot⟩
  exact absurd (hbelow.mpr hmanaged) Bool.false_ne_true

end SharpGit.GitClient.GitTools
