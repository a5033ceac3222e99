import SharpGit.GitClient.ManagedPath

namespace SharpGit.GitClient.GitTools

open Library Native

def getPathRoot (unicode : UnicodeData) (path : NetString) :
    Except GitToolsException (Option NetString) :=
  if path = [] then .error (.argumentNull "path")
  else getPathRootPart unicode path

def getNormalizedDirectoryName (api : PathApi) (path : NetString) :
    Except GitToolsException (Option NetString) := do
  if path = [] then .error (.argumentNull "path")
  else
    let path ← getNormalizedFullPath api path
    match ← getPathRootPart api.unicode path with
    | none => return none
    | some root =>
      let nLs := (lastIndexOf path backslash (path.length - 1)).elim (-1 : Int) (↑)
      if nLs > root.length then return some (path.take nLs.toNat)
      else if nLs = root.length ∨ (nLs < root.length ∧ path.length > root.length) then
        return some root
      else return none

/-- So many times `GetNormalizedDirectoryName`, until it is null. -/
def climb (api : PathApi) : Nat → NetString → Except GitToolsException (Option NetString)
  | 0, path => .ok (some path)
  | steps + 1, path => do
    match ← getNormalizedDirectoryName api path with
    | none => return none
    | some directory => climb api steps directory

variable {api : PathApi} {root : NetString}

theorem normalized_joinRoot {names : List NetString} (hroot : IsRoot api.unicode root)
    (hnames : ∀ name ∈ names, Component api.invalidPathChars name) :
    getNormalizedFullPath api (joinRoot root names) = .ok (joinRoot root names) :=
  getNormalizedFullPath_of_normalized (normalizedPath_joinRoot hroot hnames)

theorem getPathRoot_joinRoot (names : List NetString) (hroot : IsRoot api.unicode root) :
    getPathRoot api.unicode (joinRoot root names) = .ok (some root) := by
  rw [getPathRoot, if_neg (joinRoot_ne_nil hroot.ne_nil names)]
  exact getPathRootPart_joinRoot names hroot

theorem closeRoot_le (path : NetString) : path.length ≤ (closeRoot path).length := by
  rw [closeRoot]
  split
  · exact Nat.le_refl _
  · rw [List.length_append]
    exact Nat.le_add_right _ _

theorem root_lt_joinRoot {names : List NetString} (hnonempty : names ≠ [])
    (hnames : ∀ name ∈ names, Component api.invalidPathChars name) :
    root.length < (joinRoot root names).length := by
  have hpos := List.length_pos_iff.mpr (components_joinComponents hnonempty hnames).ne_nil
  have hclose := closeRoot_le root
  rw [joinRoot, if_neg hnonempty, List.length_append]
  omega

/-- What the end of the function makes of the last separator. -/
theorem getNormalizedDirectoryName_run {names : List NetString} (hroot : IsRoot api.unicode root)
    (hnames : ∀ name ∈ names, Component api.invalidPathChars name) {i : Nat}
    (hlast : lastIndexOf (joinRoot root names) backslash ((joinRoot root names).length - 1) =
      some i) :
    getNormalizedDirectoryName api (joinRoot root names) =
      .ok (if root.length < i then some ((joinRoot root names).take i)
        else if i = root.length ∨ root.length < (joinRoot root names).length then some root
        else none) := by
  rw [getNormalizedDirectoryName, if_neg (joinRoot_ne_nil hroot.ne_nil names),
    normalized_joinRoot hroot hnames]
  simp only [bind, Except.bind, getPathRootPart_joinRoot names hroot, hlast, Option.elim_some,
    Int.toNat_natCast, gt_iff_lt, Int.ofNat_lt, Int.natCast_inj]
  by_cases hbehind : root.length < i
  · rw [if_pos hbehind, if_pos hbehind]
    rfl
  · have hsame : (i = root.length ∨ i < root.length ∧ root.length < (joinRoot root names).length) ↔
        (i = root.length ∨ root.length < (joinRoot root names).length) := by omega
    rw [if_neg hbehind, if_neg hbehind]
    simp only [hsame]
    split
    · rfl
    · rfl

/-- The last separator of a root stands inside it. -/
theorem lastIndexOf_root (hroot : IsRoot api.unicode root) :
    ∃ i, lastIndexOf root backslash (root.length - 1) = some i ∧ i < root.length := by
  have hpos := List.length_pos_iff.mpr hroot.ne_nil
  have hmem : backslash ∈ root.take (root.length - 1 + 1) := by
    rw [Nat.sub_add_cancel hpos, List.take_length]
    cases hroot with
    | drive => simp
    | share => simp
  have hsome : (lastIndexOf root backslash (root.length - 1)).isSome := by
    rw [lastIndexOf, if_pos hmem]
    rfl
  obtain ⟨i, hi⟩ := Option.isSome_iff_exists.mp hsome
  have hle := lastIndexOf_le hi
  exact ⟨i, hi, by omega⟩

/-- Behind a closed front the last separator is that of the front. -/
theorem lastIndexOf_closeRoot (front : NetString) {name : NetString} (hname : backslash ∉ name) :
    lastIndexOf (closeRoot front ++ name) backslash ((closeRoot front ++ name).length - 1) =
      some ((closeRoot front).length - 1) := by
  obtain ⟨start, hstart⟩ : ∃ start, closeRoot front = start ++ [backslash] := by
    rw [closeRoot]
    split
    · rename_i hclosed
      exact ⟨front.dropLast, (List.dropLast_append_getLast? _ hclosed).symm⟩
    · exact ⟨front, rfl⟩
  have hword := lastIndexOf_word start [] hname
  have hlength : (start ++ [backslash] ++ name).length - 1 = start.length + name.length := by
    simp only [List.length_append, List.length_singleton]
    omega
  rw [hstart, hlength, List.length_append, List.length_singleton, Nat.add_sub_cancel]
  simpa using hword

theorem getNormalizedDirectoryName_root (hroot : IsRoot api.unicode root) :
    getNormalizedDirectoryName api root = .ok none := by
  obtain ⟨i, hlast, hlt⟩ := lastIndexOf_root hroot
  have hrun := @getNormalizedDirectoryName_run api root [] hroot (by simp) i hlast
  have hjoin : joinRoot root [] = root := if_pos rfl
  rw [hjoin, if_neg (by omega), if_neg (by omega)] at hrun
  exact hrun

/-- Taking the last name away; the root stays whether or not a separator belongs to it. -/
theorem getNormalizedDirectoryName_concat {front : List NetString} {name : NetString}
    (hroot : IsRoot api.unicode root)
    (hnames : ∀ n ∈ front ++ [name], Component api.invalidPathChars n) :
    getNormalizedDirectoryName api (joinRoot root (front ++ [name])) =
      .ok (some (joinRoot root front)) := by
  have hfront : ∀ n ∈ front, Component api.invalidPathChars n :=
    fun n hn => hnames n (List.mem_append_left _ hn)
  have hname := hnames name (by simp)
  have hsep : backslash ∉ name := fun h => (hname.valid _ h).2.1 rfl
  have hjoin := @joinRoot_concat _ root front name hfront
  have hlast := lastIndexOf_closeRoot (joinRoot root front) hsep
  rw [← hjoin] at hlast
  rw [getNormalizedDirectoryName_run hroot hnames hlast]
  have hlonger := @root_lt_joinRoot api root _ (by simp) hnames
  by_cases hnil : front = []
  · subst hnil
    have hroots : joinRoot root [] = root := if_pos rfl
    have hclose : (closeRoot root).length - 1 ≤ root.length := by
      rw [closeRoot]
      split
      · exact Nat.sub_le _ _
      · simp
    rw [hroots, if_neg (by omega), if_pos (.inr hlonger)]
  · have hclose := closeRoot_of_not_closed (@joinRoot_getLast _ root _ hnil hfront)
    have hlength : (closeRoot (joinRoot root front)).length - 1 = (joinRoot root front).length := by
      rw [hclose]
      simp
    have hbelow := @root_lt_joinRoot api root _ hnil hfront
    have htake : (joinRoot root (front ++ [name])).take (joinRoot root front).length =
        joinRoot root front := by
      rw [hjoin, hclose, List.append_assoc, List.take_left]
    rw [hlength, if_pos hbelow, htake]

theorem getNormalizedDirectoryName_joinRoot {names : List NetString}
    (hroot : IsRoot api.unicode root)
    (hnames : ∀ name ∈ names, Component api.invalidPathChars name) :
    getNormalizedDirectoryName api (joinRoot root names) =
      .ok (if names = [] then none else some (joinRoot root names.dropLast)) := by
  by_cases hnil : names = []
  · subst hnil
    exact getNormalizedDirectoryName_root hroot
  · have hsplit := List.dropLast_append_getLast hnil
    rw [← hsplit] at hnames
    have hconcat := getNormalizedDirectoryName_concat hroot hnames
    rw [hsplit] at hconcat
    rw [if_neg hnil, hconcat]

/-- So many names from the end are taken away; one step more than there are ends in null. -/
theorem climb_joinRoot (steps : Nat) {names : List NetString} (hroot : IsRoot api.unicode root)
    (hnames : ∀ name ∈ names, Component api.invalidPathChars name) :
    climb api steps (joinRoot root names) =
      .ok (if names.length < steps then none
        else some (joinRoot root (names.take (names.length - steps)))) := by
  induction steps generalizing names with
  | zero =>
    rw [climb, if_neg (Nat.not_lt_zero _), Nat.sub_zero, List.take_length]
  | succ steps ih =>
    rw [climb, getNormalizedDirectoryName_joinRoot hroot hnames]
    by_cases hnil : names = []
    · subst hnil
      rfl
    · have hfront : ∀ name ∈ names.dropLast, Component api.invalidPathChars name :=
        fun name hn => hnames name (List.mem_of_mem_dropLast hn)
      have hpos := List.length_pos_iff.mpr hnil
      have hnext := ih hfront
      have hless : names.length - 1 < steps ↔ names.length < steps + 1 := by omega
      have hrest : names.length - 1 - steps = names.length - (steps + 1) := by omega
      have hshort : names.length - (steps + 1) ≤ names.length - 1 := by omega
      rw [List.length_dropLast, hrest, List.dropLast_eq_take, List.take_take,
        Nat.min_eq_left hshort] at hnext
      simp only [if_neg hnil, bind, Except.bind, List.dropLast_eq_take, hnext, hless]

/-- The directory of a path that is not its root. -/
structure DirectoryOf (api : PathApi) (root path directory : NetString) : Prop where
  normalized : isNormalizedFullPath api.unicode api.invalidPathChars directory = .ok true
  sameRoot : getPathRoot api.unicode directory = .ok (some root)
  shorter : directory.length < path.length
  below : ∃ name, path = closeRoot directory ++ name ∧ name ≠ [] ∧ ∀ c ∈ name, ¬Separator c

theorem directoryOf_concat {front : List NetString} {name : NetString}
    (hroot : IsRoot api.unicode root)
    (hnames : ∀ n ∈ front ++ [name], Component api.invalidPathChars n) :
    DirectoryOf api root (joinRoot root (front ++ [name])) (joinRoot root front) := by
  have hfront : ∀ n ∈ front, Component api.invalidPathChars n :=
    fun n hn => hnames n (List.mem_append_left _ hn)
  have hname := hnames name (by simp)
  have hjoin := @joinRoot_concat _ root front name hfront
  refine ⟨(normalizedPath_joinRoot hroot hfront).isNormalized api.separator,
    getPathRoot_joinRoot front hroot, ?_, name, hjoin, hname.nonempty, hname.not_separator⟩
  have hpos := List.length_pos_iff.mpr hname.nonempty
  have hclose := closeRoot_le (joinRoot root front)
  rw [hjoin, List.length_append]
  omega

/-- What holds of a path with its root and the names below it. -/
structure DirectoryNames (api : PathApi) (path root : NetString) (names : List NetString) :
    Prop where
  nonempty : root ≠ []
  front : root <+: path
  joined : path = joinRoot root names
  components : ∀ name ∈ names, Component api.invalidPathChars name
  ends : getNormalizedDirectoryName api path = .ok none ↔ path = root
  directory : path ≠ root → ∃ directory, getNormalizedDirectoryName api path =
    .ok (some directory) ∧ DirectoryOf api root path directory
  reaches : climb api names.length path = .ok (some root)
  notBefore : ∀ steps < names.length, climb api steps path ≠ .ok (some root)
  null : climb api (names.length + 1) path = .ok none

theorem root_front (names : List NetString) : root <+: joinRoot root names := by
  rw [joinRoot]
  split
  · exact List.prefix_refl _
  · rw [closeRoot]
    split
    · exact List.prefix_append _ _
    · rw [List.append_assoc]
      exact List.prefix_append _ _

theorem joinRoot_eq_root {names : List NetString}
    (hnames : ∀ name ∈ names, Component api.invalidPathChars name) :
    joinRoot root names = root ↔ names = [] := by
  constructor
  · intro h
    by_contra hnil
    have hlt := @root_lt_joinRoot api root _ hnil hnames
    rw [h] at hlt
    omega
  · intro h
    exact if_pos h

/-- The directories of a normalized path lead to its root, a name at a time. -/
theorem directoryNames (api : PathApi) (path : NetString)
    (h : isNormalizedFullPath api.unicode api.invalidPathChars path = .ok true) :
    ∃ root names, getPathRoot api.unicode path = .ok (some root) ∧
      DirectoryNames api path root names := by
  obtain ⟨root, names, hroot, hnames, rfl⟩ :=
    (NormalizedPath.of_isNormalized api.separator h).root_names
  refine ⟨root, names, getPathRoot_joinRoot names hroot, ?_⟩
  have hdirectory := getNormalizedDirectoryName_joinRoot hroot hnames
  constructor
  · exact hroot.ne_nil
  · exact root_front names
  · rfl
  · exact hnames
  · rw [hdirectory, joinRoot_eq_root hnames]
    split
    · simp [*]
    · simp [*]
  · intro hbelow
    have hnil : names ≠ [] := fun hnil => hbelow ((joinRoot_eq_root hnames).mpr hnil)
    have hsplit := List.dropLast_append_getLast hnil
    have hconcat := hnames
    rw [← hsplit] at hconcat
    have hspec := directoryOf_concat hroot hconcat
    rw [hsplit] at hspec
    exact ⟨joinRoot root names.dropLast, by rw [hdirectory, if_neg hnil], hspec⟩
  · rw [climb_joinRoot _ hroot hnames, if_neg (Nat.lt_irrefl _), Nat.sub_self]
    rfl
  · intro steps hsteps hreach
    rw [climb_joinRoot _ hroot hnames, if_neg (Nat.not_lt.mpr (Nat.le_of_lt hsteps))] at hreach
    have hroots := Option.some.inj (Except.ok.inj hreach)
    have htake := (joinRoot_eq_root
      (fun name hn => hnames name (List.mem_of_mem_take hn))).mp hroots
    have hlength := congrArg List.length htake
    rw [List.length_take, List.length_nil] at hlength
    omega
  · rw [climb_joinRoot _ hroot hnames, if_pos (Nat.lt_succ_self _)]

/-- "C:\\a\\b" -/
theorem directoryNames_example :
    isNormalizedFullPath examplePlatform.unicode examplePlatform.invalidPathChars
        [0x43, 0x3a, 0x5c, 0x61, 0x5c, 0x62] = .ok true ∧
      ∃ root names, getPathRoot examplePlatform.unicode [0x43, 0x3a, 0x5c, 0x61, 0x5c, 0x62] =
          .ok (some root) ∧
        DirectoryNames examplePlatform [0x43, 0x3a, 0x5c, 0x61, 0x5c, 0x62] root names :=
  ⟨by decide, directoryNames _ _ (by decide)⟩

end SharpGit.GitClient.GitTools
