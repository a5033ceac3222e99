import SharpGit.GitClient.IndexErrors

namespace SharpGit.GitClient.GitTools

open Library Native

/-- `IsInvalid(v, index)`. -/
def isInvalidAt (invalidPathChars : List UInt16) (v : NetString) (index : Nat) :
    Except GitToolsException Bool := do
  let c ← charAt v index
  return isInvalid (invalidCharMap invalidPathChars) c

/-- What the check is for: it finds what `IsInvalid` finds, that is any character of the set, and
no platform gets a path with one normalized. -/
structure ChecksInvalid (invalidPathChars : List UInt16) (path : NetString) : Prop where
  finds : pathContainsInvalidChars (invalidCharMap invalidPathChars) path = true ↔
    ∃ i, isInvalidAt invalidPathChars path i = .ok true
  table : (∃ i, isInvalidAt invalidPathChars path i = .ok true) ↔ ∃ c ∈ path, c ∈ invalidPathChars
  raises : ∀ api : PathApi, api.invalidPathChars = invalidPathChars →
    (∃ c ∈ path, c ∈ invalidPathChars) → ∃ e, getNormalizedFullPath api path = .error e

theorem isInvalidAt_iff (invalidPathChars : List UInt16) (v : NetString) (index : Nat) :
    isInvalidAt invalidPathChars v index = .ok true ↔
      ∃ c ∈ invalidPathChars, v[index]? = some c := by
  rw [isInvalidAt, charAt]
  cases v[index]? with
  | none =>
    constructor
    · intro h
      cases h
    · intro h
      obtain ⟨c, -, hc⟩ := h
      cases hc
  | some c =>
    have hmap := isInvalid_iff invalidPathChars c
    constructor
    · intro h
      exact ⟨c, hmap.mp (Except.ok.inj h), rfl⟩
    · intro h
      obtain ⟨d, hd, hc⟩ := h
      obtain rfl := Option.some.inj hc
      exact congrArg Except.ok (hmap.mpr hd)

/-- The table and the set agree at some index or at none. -/
theorem isInvalidAt_exists (invalidPathChars : List UInt16) (v : NetString) :
    (∃ i, isInvalidAt invalidPathChars v i = .ok true) ↔ ∃ c ∈ v, c ∈ invalidPathChars := by
  simp only [isInvalidAt_iff]
  constructor
  · intro h
    obtain ⟨i, c, hc, hi⟩ := h
    exact ⟨c, List.mem_of_getElem? hi, hc⟩
  · intro h
    obtain ⟨c, hmem, hc⟩ := h
    obtain ⟨i, hi⟩ := List.getElem?_of_mem hmem
    exact ⟨i, c, hc, hi⟩

/-- Whatever it meets, the check answers false. -/
theorem pathContainsInvalidChars_eq (invalidMap : List Bool) (path : NetString) :
    pathContainsInvalidChars invalidMap path = false := by
  induction path with
  | nil => rfl
  | cons c path ih =>
    rw [pathContainsInvalidChars]
    split
    · rfl
    · exact ih

/-- The check does what it is for just where there is nothing to be found. -/
theorem checksInvalid_iff (invalidPathChars : List UInt16) (path : NetString) :
    ChecksInvalid invalidPathChars path ↔ ∀ c ∈ path, c ∉ invalidPathChars := by
  constructor
  · intro h c hmem hc
    have hfinds := h.finds.mpr (h.table.mpr ⟨c, hmem, hc⟩)
    rw [pathContainsInvalidChars_eq] at hfinds
    cases hfinds
  · intro h
    have hnone : ¬∃ c ∈ path, c ∈ invalidPathChars := by
      intro hsome
      obtain ⟨c, hmem, hc⟩ := hsome
      exact h c hmem hc
    constructor
    · rw [pathContainsInvalidChars_eq, isInvalidAt_exists]
      exact ⟨fun hfalse => (Bool.false_ne_true hfalse).elim, fun hsome => (hnone hsome).elim⟩
    · exact isInvalidAt_exists invalidPathChars path
    · intro api _ hsome
      exact (hnone hsome).elim

theorem Components.no_invalid {invalid : List UInt16} {rest : NetString}
    (hsep : backslash ∉ invalid) (h : Components invalid rest) : ∀ c ∈ rest, c ∉ invalid := by
  induction h with
  | last h => exact fun c hc => (h.valid c hc).1
  | more h _ ih =>
    intro c hc
    rw [List.mem_append, List.mem_cons] at hc
    obtain hname | rfl | hrest := hc
    · exact (h.valid c hname).1
    · exact hsep
    · exact ih c hrest

theorem not_normalized_of_invalid {api : PathApi} {path : NetString}
    (hhead : path.head? ≠ some backslash)
    (hinvalid : ∃ c ∈ path.drop 3, c ∈ api.invalidPathChars) :
    isNormalizedFullPath api.unicode api.invalidPathChars path = .ok false := by
  have hne : path ≠ [] := by
    intro hnil
    subst hnil
    obtain ⟨c, hc, -⟩ := hinvalid
    cases hc
  have hunfinished : ¬UnfinishedHost path := by
    intro hhost
    obtain ⟨host, -, -, rfl⟩ := hhost
    exact hhead rfl
  obtain ⟨normal, hnormal⟩ := (@isNormalizedFullPath_returns_iff api.unicode api.invalidPathChars
    path hne).1.mpr hunfinished
  cases normal with
  | false => exact hnormal
  | true =>
    obtain ⟨c, hc, hmem⟩ := hinvalid
    cases NormalizedPath.of_isNormalized api.separator hnormal with
    | drive _ hrest =>
      obtain rfl | hcomponents := hrest
      · cases hc
      · exact (hcomponents.no_invalid api.separator c hc hmem).elim
    | share => exact (hhead rfl).elim

/-- A long path with an invalid character in a name gets to the call that checks none. -/
theorem getNormalizedFullPath_unchecked {api : PathApi} {path : NetString}
    (hhead : path.head? ≠ some backslash)
    (hinvalid : ∃ c ∈ path.drop 3, c ∈ api.invalidPathChars) (hcolon : colon ∉ path.drop 2)
    (hlong : maxPath ≤ path.length) :
    getNormalizedFullPath api path = retryFullPath api path >>= normalizeEnds api.unicode := by
  have hne : path ≠ [] := by
    intro hnil
    rw [hnil] at hlong
    cases hlong
  have hnone : (path.drop 2).contains colon = false := by simpa using hcolon
  rw [getNormalizedFullPath, if_neg hne]
  simp only [if_neg hhead, not_normalized_of_invalid hhead hinvalid, pathContainsInvalidChars_eq,
    hnone, resolveFullPath, if_neg (Nat.not_lt.mpr hlong)]
  rfl

/-- The graphic characters that no path may have. -/
def graphicPathChars : List UInt16 := [0x22, 0x3c, 0x3e, 0x7c]

theorem graphicPathChars_separator : backslash ∉ graphicPathChars := by decide

/-- `Path::GetFullPath` and `GetFullPathNameW`, as far as paths go that are full already. -/
def fullPathPlatform : PathApi where
  unicode := asciiUnicode
  invalidPathChars := graphicPathChars
  separator := graphicPathChars_separator
  getFullPath := .ok
  getFullPathNameW path _ _ := path

/-- A drive path whose name is so many of "|". -/
def pipePath (length : Nat) : NetString := [0x43, 0x3a, 0x5c] ++ List.replicate length 0x7c

theorem pipePath_length (length : Nat) : (pipePath length).length = length + 3 := by
  rw [pipePath, List.length_append, List.length_replicate, Nat.add_comm]
  rfl

theorem pipePath_retry (length : Nat) :
    retryFullPath fullPathPlatform (pipePath length) = .ok (pipePath length) := by
  have hlongPath : longGetFullPath fullPathPlatform (pipePath length) = .ok (pipePath length) := by
    have hne : pipePath length ≠ [] := List.cons_ne_nil _ _
    have hstrip : stripLongPrefix (pipePath length) = pipePath length := rfl
    have hcall (second : Bool) : fullPathPlatform.getFullPathNameW (pipePath length)
        longBufferSize second = pipePath length := rfl
    rw [longGetFullPath, if_neg hne]
    simp only [hstrip, hcall, if_neg hne, ite_self]
  rw [retryFullPath, hlongPath]
  rfl

theorem pipePath_normalizeEnds {length : Nat} (hpositive : length ≠ 0) :
    normalizeEnds fullPathPlatform.unicode (pipePath length) = .ok (pipePath length) := by
  have hlast : (pipePath length).getLast? ≠ some backslash := by
    rw [pipePath, List.getLast?_append_of_ne_nil _ (by simpa using hpositive),
      List.getLast?_replicate, if_neg hpositive]
    decide
  have hmany : (pipePath length).length > 3 := by
    rw [pipePath_length]
    omega
  have hcolon : (pipePath length)[1]? = some colon := rfl
  have hupper : ((pipePath length).take 1).map toUpper ++ (pipePath length).drop 1 =
    pipePath length := rfl
  rw [normalizeEnds, if_pos hcolon]
  simp only [hupper, trimEnd_self hlast, if_pos hmany]

theorem pipePath_passes {length : Nat} (hlong : maxPath ≤ length + 3) :
    getNormalizedFullPath fullPathPlatform (pipePath length) = .ok (pipePath length) := by
  have hlength := pipePath_length length
  have hpositive : length ≠ 0 := by
    intro hzero
    rw [hzero] at hlong
    revert hlong
    decide
  have hhead : (pipePath length).head? ≠ some backslash := by
    intro hhead
    cases hhead
  have hpipe : (0x7c : UInt16) ∈ (pipePath length).drop 3 :=
    List.mem_replicate.mpr ⟨hpositive, rfl⟩
  have hcolon : colon ∉ (pipePath length).drop 2 := by
    intro hmem
    obtain hmem | hmem := List.mem_cons.mp hmem
    · revert hmem
      decide
    · have hsame := List.eq_of_mem_replicate hmem
      revert hsame
      decide
  have hrun := @getNormalizedFullPath_unchecked fullPathPlatform _ hhead
    ⟨0x7c, hpipe, by decide⟩ hcolon (by omega)
  rw [hrun, pipePath_retry]
  exact pipePath_normalizeEnds hpositive

/-- "C:\\|||..", as long as `MAX_PATH`: no check finds the invalid characters. -/
theorem pipePath_not_checked :
    pathContainsInvalidChars (invalidCharMap fullPathPlatform.invalidPathChars) (pipePath 257) =
        false ∧
      getNormalizedFullPath fullPathPlatform (pipePath 257) = .ok (pipePath 257) ∧
      ¬ChecksInvalid fullPathPlatform.invalidPathChars (pipePath 257) := by
  have hpass := @pipePath_passes 257 (by decide)
  refine ⟨pathContainsInvalidChars_eq _ _, hpass, ?_⟩
  intro hchecks
  have hmem : (0x7c : UInt16) ∈ pipePath 257 :=
    List.mem_append_right _ (List.mem_replicate.mpr ⟨by decide, rfl⟩)
  obtain ⟨e, he⟩ := hchecks.raises fullPathPlatform rfl ⟨0x7c, hmem, by decide⟩
  rw [hpass] at he
  cases he

end SharpGit.GitClient.GitTools
