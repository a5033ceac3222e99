import SharpGit.GitClient.GitTools

namespace SharpGit.GitClient.GitTools

open Library Native

namespace Buffered

/-- A buffer of characters, none where nothing has been written. -/
abbrev Buffer := List (Option UInt16)

/-- `GetFullPathNameW` by its contract: a full path that does not fit is not written, and what is
returned is the size it needs. -/
def getFullPathNameW (fullPath : NetString → NetString) (path : NetString) (size : Nat)
    (buffer : Buffer) : Nat × Buffer :=
  let full := fullPath path
  if full.length < size then (full.length, full.map some ++ buffer.drop full.length)
  else (full.length + 1, buffer)

/-- `gcnew String(buffer, 0, c)`; none where it reads a character that nobody has written. -/
def stringOf (buffer : Buffer) (c : Nat) : Option NetString :=
  if c ≤ buffer.length then (buffer.take c).mapM id else none

/-- `rPath` behind `ZeroMemory`. -/
def zeroed : Buffer := List.replicate (longBufferSize + 1) (some 0)

/-- What `_alloca` gives. -/
def allocated : Buffer := List.replicate (longBufferSize + 1) none

/-- `LongGetFullPath`; none where it reads a character that nobody has written. -/
def longGetFullPath (fullPath : NetString → NetString) (path : NetString) :
    Except GitToolsException (Option NetString) :=
  if path = [] then .error (.argumentNull "path")
  else
    let path := stripLongPrefix path
    let (c, rPath) := getFullPathNameW fullPath path longBufferSize zeroed
    if c = 0 then .error .pathTooLong
    else
      let (c, pPathBuf) :=
        if c > longBufferSize then getFullPathNameW fullPath path longBufferSize allocated
        else (c, rPath)
      .ok ((stringOf pPathBuf c).map stripLongPrefix)

/-- The whole full path comes back. -/
def ReturnsWhole (fullPath : NetString → NetString) (path : NetString) : Prop :=
  longGetFullPath fullPath path =
    .ok (some (stripLongPrefix (fullPath (stripLongPrefix path))))

variable {fullPath : NetString → NetString} {path : NetString}

theorem getFullPathNameW_fits {size : Nat} (h : (fullPath path).length < size) (buffer : Buffer) :
    getFullPathNameW fullPath path size buffer =
      ((fullPath path).length,
        (fullPath path).map some ++ buffer.drop (fullPath path).length) := if_pos h

theorem getFullPathNameW_long {size : Nat} (h : size ≤ (fullPath path).length) (buffer : Buffer) :
    getFullPathNameW fullPath path size buffer = ((fullPath path).length + 1, buffer) :=
  if_neg (Nat.not_lt.mpr h)

theorem mapM_written (full : NetString) : (full.map some).mapM id = some full := by
  induction full with
  | nil => rfl
  | cons c full ih =>
    rw [List.map_cons, List.mapM_cons, ih]
    rfl

theorem stringOf_written (full : NetString) (rest : Buffer) :
    stringOf (full.map some ++ rest) full.length = some full := by
  have hle : full.length ≤ (full.map some ++ rest).length := by
    rw [List.length_append, List.length_map]
    exact Nat.le_add_right _ _
  have htake : (full.map some ++ rest).take full.length = full.map some :=
    List.take_left' (List.length_map _)
  rw [stringOf, if_pos hle, htake, mapM_written]

theorem stringOf_allocated (c : Nat) : stringOf allocated (c + 1) = none := by
  rw [stringOf]
  split
  · rfl
  · rfl

/-- What the function does for each length of the full path. -/
theorem longGetFullPath_cases (hpath : path ≠ []) {full : NetString}
    (hfull : fullPath (stripLongPrefix path) = full) :
    longGetFullPath fullPath path =
      if full.length = 0 then .error .pathTooLong
      else if full.length < longBufferSize then .ok (some (stripLongPrefix full))
      else .ok none := by
  rw [longGetFullPath, if_neg hpath]
  by_cases hfits : full.length < longBufferSize
  · have hcall := @getFullPathNameW_fits fullPath (stripLongPrefix path) longBufferSize
      (by rwa [hfull]) zeroed
    rw [hfull] at hcall
    simp only [hcall, if_pos hfits, gt_iff_lt, if_neg (Nat.not_lt.mpr (Nat.le_of_lt hfits)),
      stringOf_written, Option.map_some]
  · -- both buffers are too small, and the second one is returned as it was allocated
    have hlong : longBufferSize ≤ full.length := Nat.le_of_not_lt hfits
    have hcall := @getFullPathNameW_long fullPath (stripLongPrefix path) longBufferSize
      (by rwa [hfull])
    rw [hfull] at hcall
    have hpos : full.length ≠ 0 := Nat.ne_of_gt (Nat.lt_of_lt_of_le (by decide) hlong)
    simp only [hcall, if_neg hfits, if_neg hpos, if_neg (Nat.succ_ne_zero _), gt_iff_lt,
      if_pos (Nat.lt_succ_of_le hlong), stringOf_allocated, Option.map_none]

/-- The function returns the whole path just when there is one and it leaves room in the first
buffer. -/
theorem longGetFullPath_whole_iff (fullPath : NetString → NetString) (path : NetString)
    (hpath : path ≠ []) :
    ReturnsWhole fullPath path ↔
      0 < (fullPath (stripLongPrefix path)).length ∧
        (fullPath (stripLongPrefix path)).length < longBufferSize := by
  rw [ReturnsWhole, longGetFullPath_cases hpath rfl]
  by_cases hzero : (fullPath (stripLongPrefix path)).length = 0
  · rw [if_pos hzero]
    constructor
    · intro h
      cases h
    · intro h
      omega
  · rw [if_neg hzero]
    split
    · rename_i hfits
      exact ⟨fun _ => ⟨Nat.pos_of_ne_zero hzero, hfits⟩, fun _ => rfl⟩
    · rename_i hlong
      constructor
      · intro h
        cases h
      · intro h
        exact absurd h.2 hlong

/-- "C:\\a" -/
theorem longGetFullPath_whole_short : ReturnsWhole id [0x43, 0x3a, 0x5c, 0x61] :=
  (longGetFullPath_whole_iff id _ (by decide)).mpr ⟨by decide, by decide⟩

/-- A full path of 1023 characters: what comes back is read from a buffer that nobody has
written. -/
theorem longGetFullPath_not_whole :
    longGetFullPath (fun _ => List.replicate 1023 0x61) [0x61] = .ok none ∧
      ¬∀ (fullPath : NetString → NetString) (path : NetString), path ≠ [] →
        ReturnsWhole fullPath path := by
  have hrun : longGetFullPath (fun _ => List.replicate 1023 0x61) [0x61] = .ok none := by
    have hzero : (List.replicate 1023 (0x61 : UInt16)).length ≠ 0 := by
      rw [List.length_replicate]
      decide
    have hlong : ¬(List.replicate 1023 (0x61 : UInt16)).length < longBufferSize := by
      rw [List.length_replicate]
      decide
    rw [longGetFullPath_cases (by decide) rfl, if_neg hzero, if_neg hlong]
  refine ⟨hrun, ?_⟩
  intro h
  have hwhole := h (fun _ => List.replicate 1023 0x61) [0x61] (by decide)
  rw [ReturnsWhole, hrun] at hwhole
  cases hwhole

/-- What a call leaves in a buffer, if all of that has been written. -/
def left (fullPath : NetString → NetString) (path : NetString) (second : Bool) :
    Option NetString :=
  let (c, buffer) :=
    getFullPathNameW fullPath path longBufferSize (if second then allocated else zeroed)
  stringOf buffer c

/-- The calls of a platform, with anything for the characters that nobody has written. -/
structure Fills (api : PathApi) (fullPath : NetString → NetString) : Prop where
  length : ∀ path second, (api.getFullPathNameW path longBufferSize second).length =
    (getFullPathNameW fullPath path longBufferSize (if second then allocated else zeroed)).1
  written : ∀ path second string, left fullPath path second = some string →
    api.getFullPathNameW path longBufferSize second = string

theorem Fills.fits {api : PathApi} (h : Fills api fullPath) (second : Bool)
    (hfits : (fullPath path).length < longBufferSize) :
    api.getFullPathNameW path longBufferSize second = fullPath path := by
  apply h.written
  rw [left, getFullPathNameW_fits hfits]
  exact stringOf_written _ _

theorem Fills.long {api : PathApi} (h : Fills api fullPath) (second : Bool)
    (hlong : longBufferSize ≤ (fullPath path).length) :
    (api.getFullPathNameW path longBufferSize second).length = (fullPath path).length + 1 := by
  rw [h.length, getFullPathNameW_long hlong]

/-- On such a platform the function is the one without buffers, with something in place of what
nobody has written. -/
theorem longGetFullPath_fills {api : PathApi} (h : Fills api fullPath) (path : NetString) :
    ∃ junk, GitTools.longGetFullPath api path =
      (longGetFullPath fullPath path).map (Option.getD · junk) := by
  by_cases hpath : path = []
  · subst hpath
    exact ⟨[], rfl⟩
  · rw [longGetFullPath_cases hpath rfl, GitTools.longGetFullPath, if_neg hpath]
    by_cases hfits : (fullPath (stripLongPrefix path)).length < longBufferSize
    · refine ⟨[], ?_⟩
      simp only [h.fits _ hfits, if_pos hfits, if_neg (Nat.not_lt.mpr (Nat.le_of_lt hfits)),
        gt_iff_lt, List.length_eq_zero_iff]
      split
      · rfl
      · rfl
    · have hlong : longBufferSize ≤ (fullPath (stripLongPrefix path)).length :=
        Nat.le_of_not_lt hfits
      have hlength := h.long false hlong
      have hpos : (fullPath (stripLongPrefix path)).length ≠ 0 :=
        Nat.ne_of_gt (Nat.lt_of_lt_of_le (by decide) hlong)
      have hsome : api.getFullPathNameW (stripLongPrefix path) longBufferSize false ≠ [] := by
        apply List.ne_nil_of_length_pos
        rw [hlength]
        exact Nat.succ_pos _
      refine ⟨stripLongPrefix
        (api.getFullPathNameW (stripLongPrefix path) longBufferSize true), ?_⟩
      simp only [if_neg hsome, hlength, if_neg hpos, if_neg hfits, gt_iff_lt,
        if_pos (Nat.lt_succ_of_le hlong)]
      rfl

end Buffered

end SharpGit.GitClient.GitTools
