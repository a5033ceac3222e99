import SharpGit.GitClient.ManagedPath
import SharpGit.GitClient.Spellings

namespace SharpGit.GitClient.GitTools

open Library Native

/-- What the attributes say to `IsDirectory`. -/
def tellsDirectory (r : UInt32) : Bool :=
  if r = invalidFileAttributes then false else r &&& fileAttributeDirectory != 0

/-- Whatever is on disk, the answer is that of the attributes of `asked`. -/
def AsksAbout (x : FileAttributes → Except GitToolsException Bool) (asked : NetString) : Prop :=
  ∀ attributes, x attributes = .ok (tellsDirectory (attributes asked))

/-- `pSec` of `FindTruePath`, before its loop. -/
def trueBuffer (path : NetString) : NetString :=
  if !([backslash, backslash].isPrefixOf path) then longPathMark ++ stringAt 0 path 0
  else longUnc ++ stringAt 0 path 1

/-- "\\\\?\\" and the path, or "\\\\?\\UNC\\" and what is behind its two backslashes. -/
def extendedForm (path : NetString) : NetString :=
  if [backslash, backslash].isPrefixOf path then longUncMark ++ path.drop 2
  else longPathMark ++ path

/-- What `IsManagedPath` looks for. -/
def administrativePath (path : NetString) : NetString :=
  closeRoot path ++ administrativeDirectoryName

/-- The long form is one, and the path comes back from it; a working copy is looked for under the
path or under its long form. -/
structure SameLongForm (api : PathApi) (path : NetString) : Prop where
  builds : trueBuffer path = extendedForm path
  directory : maxPath - 4 ≤ path.length → AsksAbout (isDirectory api · path) (trueBuffer path)
  strips : stripLongPrefix (trueBuffer path) = path
  managed : ∃ asked, AsksAbout (isManagedPath api · path) asked ∧
    (asked = administrativePath path ∨ asked = trueBuffer (administrativePath path))

variable {unicode : UnicodeData} {invalid : List UInt16}

theorem findTruePath_trueBuffer (find : FindFile) (path root : NetString) (bestEffort : Bool) :
    findTruePath find path root bestEffort =
      if !([backslash, backslash].isPrefixOf path) then
        findLoop find bestEffort 4 path.length (path.length - root.length) root.length true
          (trueBuffer path) root
      else if (path.length : Int) - root.length - 1 ≤ 0 then some root
      else
        findLoop find bestEffort (root.length + 6 + 1) ((path.length : Int) - root.length - 1).toNat
          ((path.length : Int) - root.length - 1).toNat 0 true (trueBuffer path)
          (root ++ [backslash]) := by
  rw [findTruePath, trueBuffer]
  split <;> rfl

theorem extendedForm_eq (path : NetString) : extendedForm path = longForm path := by
  rw [extendedForm, longForm]
  split
  · rename_i hunc
    obtain ⟨rest, rfl⟩ := List.isPrefixOf_iff_prefix.mp hunc
    rfl
  · rfl

/-- Up to its end the path is copied. -/
theorem trueBuffer_eq {path : NetString} (hnul : 0 ∉ path) : trueBuffer path = longForm path := by
  rw [trueBuffer, longForm]
  cases hunc : [backslash, backslash].isPrefixOf path with
  | false => rw [stringAt_all hnul]; rfl
  | true =>
    obtain ⟨rest, rfl⟩ := List.isPrefixOf_iff_prefix.mp hunc
    have hrest : 0 ∉ backslash :: rest := fun h => hnul (List.mem_cons_of_mem _ h)
    have hread := stringAt_front [backslash] hrest
    exact congrArg (longUnc ++ ·) hread

/-- The mark alone makes the long form of a drive's paths only. -/
theorem longForm_eq_mark_iff {path : NetString} :
    longForm path = longPathMark ++ path ↔ [backslash, backslash].isPrefixOf path = false := by
  rw [longForm]
  cases hunc : [backslash, backslash].isPrefixOf path with
  | false => simp
  | true =>
    obtain ⟨rest, rfl⟩ := List.isPrefixOf_iff_prefix.mp hunc
    simp only [if_true, Bool.true_eq_false, iff_false]
    intro h
    have hlength := congrArg List.length h
    simp [longUnc, longPathMark] at hlength
    omega

theorem NormalizedPath.nul {path : NetString} (h : NormalizedPath unicode invalid path)
    (hnul : 0 ∈ invalid) : 0 ∉ path := by
  obtain ⟨root, names, hroot, hnames, rfl⟩ := h.root_names
  have hjoin := joinComponents_nul fun name hname => (hnames name hname).fileName hnul
  rw [joinRoot]
  split
  · exact hroot.nul
  · rw [List.mem_append, not_or, closeRoot]
    refine ⟨?_, hjoin⟩
    split
    · exact hroot.nul
    · rw [List.mem_append, not_or]
      exact ⟨hroot.nul, by decide⟩

theorem AsksAbout.unique {x : FileAttributes → Except GitToolsException Bool} {s t : NetString}
    (hs : AsksAbout x s) (ht : AsksAbout x t) : s = t := by
  by_contra hne
  -- on a disk with the one directory, the answers differ
  have hs := hs fun path => if path = s then fileAttributeDirectory else invalidFileAttributes
  have ht := ht fun path => if path = s then fileAttributeDirectory else invalidFileAttributes
  rw [hs, if_pos rfl, if_neg (Ne.symm hne)] at ht
  exact absurd ht (by decide)

theorem AsksAbout.iff {x : FileAttributes → Except GitToolsException Bool} {s t : NetString}
    (hs : AsksAbout x s) : AsksAbout x t ↔ s = t := by
  constructor
  · exact hs.unique
  · intro h
    exact h ▸ hs

section Asked

variable {api : PathApi} {path : NetString}

theorem isDirectory_short (h : path.length < maxPath - 4) :
    AsksAbout (isDirectory api · path) path := by
  intro attributes
  dsimp only
  rw [isDirectory, if_neg (Nat.not_le.mpr h), tellsDirectory]
  simp only [bind, Except.bind]
  split <;> rfl

/-- A long path is asked about behind the mark, whatever its root. -/
theorem isDirectory_long (hpath : NormalizedPath api.unicode api.invalidPathChars path)
    (h : maxPath - 4 ≤ path.length) :
    AsksAbout (isDirectory api · path) (longPathMark ++ path) := by
  intro attributes
  dsimp only
  rw [isDirectory, if_pos h, getNormalizedFullPath_of_normalized hpath, tellsDirectory]
  simp only [Functor.map, Except.map, bind, Except.bind]
  split <;> rfl

/-- A long path is asked about in its long form, unless it is on a share. -/
theorem isDirectory_longForm_iff (hpath : NormalizedPath api.unicode api.invalidPathChars path)
    (h : maxPath - 4 ≤ path.length) :
    AsksAbout (isDirectory api · path) (longForm path) ↔
      [backslash, backslash].isPrefixOf path = false := by
  rw [(isDirectory_long hpath h).iff, eq_comm, longForm_eq_mark_iff]

end Asked

section Administrative

variable {api : PathApi} {path : NetString}
  (hadm : Component api.invalidPathChars administrativeDirectoryName)
  (hpath : NormalizedPath api.unicode api.invalidPathChars path)

theorem isPrefixOf_administrativePath (hlength : 2 ≤ path.length) :
    [backslash, backslash].isPrefixOf (administrativePath path) =
      [backslash, backslash].isPrefixOf path := by
  obtain ⟨c, path, rfl⟩ := List.exists_cons_of_length_pos (Nat.lt_of_succ_lt hlength)
  obtain ⟨d, path, rfl⟩ := List.exists_cons_of_length_pos (Nat.lt_of_succ_lt_succ hlength)
  rw [administrativePath, closeRoot]
  split <;> rfl

include hpath

/-- The paths of a share do not end in a separator. -/
theorem closeRoot_unc (hunc : [backslash, backslash].isPrefixOf path = true) :
    closeRoot path = path ++ [backslash] := by
  obtain ⟨root, names, hroot, hnames, rfl⟩ := hpath.root_names
  by_cases hnil : names = []
  · subst hnil
    have hroot' : joinRoot root [] = root := if_pos rfl
    rw [hroot'] at hunc ⊢
    cases hroot with
    | drive hletter =>
      rw [List.isPrefixOf, Bool.and_eq_true, beq_iff_eq] at hunc
      exact absurd hunc.1.symm (isUpper_ne hletter rfl)
    | share _ _ hshare hshareChars => exact closeRoot_share hshare hshareChars
  · exact closeRoot_of_not_closed (joinRoot_getLast hnil hnames)

theorem administrativePath_unc (hunc : [backslash, backslash].isPrefixOf path = true) :
    (administrativePath path).length = path.length + 1 + administrativeDirectoryName.length := by
  rw [administrativePath, closeRoot_unc hpath hunc, List.length_append, List.length_append,
    List.length_singleton]

include hadm

theorem isManagedPath_eq (attributes : FileAttributes) :
    isManagedPath api attributes path = isDirectory api attributes (administrativePath path) := by
  obtain ⟨root, names, hroot, hnames, rfl⟩ := hpath.root_names
  have hconcat := @joinRoot_concat _ root names administrativeDirectoryName hnames
  rw [isManagedPath_joinRoot hadm hroot hnames, administrativePath, hconcat]

theorem normalizedPath_administrative :
    NormalizedPath api.unicode api.invalidPathChars (administrativePath path) := by
  obtain ⟨root, names, hroot, hnames, rfl⟩ := hpath.root_names
  have hconcat := @joinRoot_concat _ root names administrativeDirectoryName hnames
  rw [administrativePath, ← hconcat]
  exact normalizedPath_joinRoot hroot (concat_component hadm hnames)

theorem isManagedPath_asks {asked : NetString}
    (h : AsksAbout (isDirectory api · (administrativePath path)) asked) :
    AsksAbout (isManagedPath api · path) asked := by
  intro attributes
  dsimp only
  rw [isManagedPath_eq hadm hpath]
  exact h attributes

/-- A working copy is looked for under its path or the long form, unless the path is long and on a
share. -/
theorem isManagedPath_longForm_iff (hnul : 0 ∈ api.invalidPathChars) :
    (∃ asked, AsksAbout (isManagedPath api · path) asked ∧
        (asked = administrativePath path ∨ asked = trueBuffer (administrativePath path))) ↔
      [backslash, backslash].isPrefixOf path = false ∨
        (administrativePath path).length < maxPath - 4 := by
  have hbelow := normalizedPath_administrative hadm hpath
  have hprefix := @isPrefixOf_administrativePath path (Nat.le_of_succ_le hpath.three_le)
  rw [trueBuffer_eq (hbelow.nul hnul), ← hprefix]
  by_cases hshort : (administrativePath path).length < maxPath - 4
  · have hasks := isManagedPath_asks hadm hpath (isDirectory_short hshort)
    exact iff_of_true ⟨_, hasks, .inl rfl⟩ (.inr hshort)
  · have hasks := isManagedPath_asks hadm hpath
      (isDirectory_long hbelow (Nat.le_of_not_lt hshort))
    rw [or_iff_left hshort, ← longForm_eq_mark_iff]
    constructor
    · intro ⟨asked, hasked, hform⟩
      obtain rfl := hasks.unique hasked
      rcases hform with hsame | hlong
      · -- the mark makes it longer
        have hlength := congrArg List.length hsame
        simp only [longPathMark, List.length_append, List.length_cons] at hlength
        omega
      · exact hlong.symm
    · intro hlong
      exact ⟨_, hasks, .inr hlong.symm⟩

end Administrative

/-- The long forms are the same just when the path is one of a drive, or short with the name of its
administrative directory. -/
theorem sameLongForm_iff (api : PathApi) (hnul : 0 ∈ api.invalidPathChars)
    (hadm : ∀ c ∈ administrativeDirectoryName, c ∉ api.invalidPathChars) (path : NetString)
    (h : isNormalizedFullPath api.unicode api.invalidPathChars path = .ok true) :
    SameLongForm api path ↔
      [backslash, backslash].isPrefixOf path = false ∨
        path.length + 1 + administrativeDirectoryName.length < maxPath - 4 := by
  have hpath := NormalizedPath.of_isNormalized api.separator h
  have hmanaged := isManagedPath_longForm_iff (administrative_component hadm) hpath hnul
  have hbuffer := trueBuffer_eq (hpath.nul hnul)
  have hlength (hunc : ¬[backslash, backslash].isPrefixOf path = false) :=
    administrativePath_unc hpath (Bool.of_not_eq_false hunc)
  constructor
  · intro hsame
    by_cases hunc : [backslash, backslash].isPrefixOf path = false
    · exact .inl hunc
    · rw [← hlength hunc]
      exact hmanaged.mp hsame.managed
  · intro hshort
    refine ⟨hbuffer.trans (extendedForm_eq path).symm, ?_, ?_, ?_⟩
    · intro hlong
      rw [hbuffer, isDirectory_longForm_iff hpath hlong]
      apply hshort.resolve_right
      omega
    · rw [hbuffer]
      exact hpath.fullPath.stripLongPrefix.2
    · rw [hmanaged]
      by_cases hunc : [backslash, backslash].isPrefixOf path = false
      · exact .inl hunc
      · rw [hlength hunc]
        exact hshort

/-- A platform whose invalid characters have the NUL among them. -/
def nulPlatform : PathApi where
  unicode := asciiUnicode
  invalidPathChars := [0x22, 0x3c, 0x3e, 0x7c, 0]
  separator := by decide
  getFullPath := exampleGetFullPath
  getFullPathNameW _ _ _ := []

theorem nulPlatform_administrative :
    ∀ c ∈ administrativeDirectoryName, c ∉ nulPlatform.invalidPathChars := by
  intro c hc
  have hall : administrativeDirectoryName.all
      (fun c => c ∉ nulPlatform.invalidPathChars) = true := by decide
  simpa using List.all_eq_true.mp hall c hc

/-- "C:\\a" -/
theorem sameLongForm_drive : SameLongForm nulPlatform [0x43, 0x3a, 0x5c, 0x61] :=
  (sameLongForm_iff nulPlatform (by decide) nulPlatform_administrative [0x43, 0x3a, 0x5c, 0x61]
    (by decide)).mpr (.inl rfl)

/-- "\\\\s\\d\\" and a name of so many letters. -/
def longShare (length : Nat) : NetString :=
  backslash :: backslash :: [0x73] ++ backslash :: [0x64] ++ backslash :: List.replicate length 0x61

theorem longShare_length (length : Nat) : (longShare length).length = length + 6 := by
  simp [longShare]

theorem normalizedPath_longShare {length : Nat} (h : length ≠ 0) :
    NormalizedPath nulPlatform.unicode nulPlatform.invalidPathChars (longShare length) := by
  have hname : Component nulPlatform.invalidPathChars (List.replicate length 0x61) := by
    refine ⟨by simpa using h, ?_, 0x61, List.mem_replicate.mpr ⟨h, rfl⟩, by decide⟩
    intro c hc
    obtain rfl := List.eq_of_mem_replicate hc
    decide
  refine .share (List.cons_ne_nil _ _) ?_ (List.cons_ne_nil _ _) ?_ (.inr ⟨_, rfl, .last hname⟩)
  · intro c hc
    obtain rfl := List.mem_singleton.mp hc
    decide
  · intro c hc
    obtain rfl := List.mem_singleton.mp hc
    exact .inl (by decide)

/-- On a share the long path is asked about behind the mark alone. -/
theorem not_sameLongForm_share :
    isNormalizedFullPath nulPlatform.unicode nulPlatform.invalidPathChars (longShare 250) =
        .ok true ∧
      AsksAbout (isDirectory nulPlatform · (longShare 250)) (longPathMark ++ longShare 250) ∧
      ¬SameLongForm nulPlatform (longShare 250) := by
  have hpath := @normalizedPath_longShare 250 (by decide)
  have hlong : maxPath - 4 ≤ (longShare 250).length := by
    rw [longShare_length]
    decide
  have hasks := isDirectory_long hpath hlong
  refine ⟨hpath.isNormalized nulPlatform.separator, hasks, ?_⟩
  intro hsame
  have hform := hasks.unique (hsame.directory hlong)
  rw [trueBuffer_eq (hpath.nul (by decide)), eq_comm, longForm_eq_mark_iff] at hform
  cases hform

end SharpGit.GitClient.GitTools
