import Mathlib.Data.List.DropRight
import SharpGit.Native.Utf8
import SharpGit.Svn.AbsoluteDirent

namespace SharpGit.Implementation

open Library Native Svn

def isSeparator (b : UInt8) : Bool := b = backslash || b = slash

/-- The `strstr(pd, "/.")` loop: a "/." that ends the path or stands before a '/'. -/
def hasDotSegment : CStr → Bool
  | [] => false
  | c :: cs =>
    (c = slash && cs[0]? = some dot && (cs[1]? = some slash || cs[1]? = none)) || hasDotSegment cs

/-- Upper-case the drive letter in place. -/
def upperDrive (pData : CStr) : CStr :=
  if pData[0]?.any isLower ∧ pData[1]? = some colon then
    (pData.headD 0 - (0x61 - 0x41)) :: pData.tail
  else pData

/-- `len` after the trailing separators are dropped; "X:" keeps one of them. -/
def direntLength (path : NetString) (bytes : CStr) : Nat :=
  let len := (bytes.rdropWhile isSeparator).length
  if len = 2 ∧ bytes[1]? = some colon ∧ 2 < path.length then len + 1 else len

/-- From the buffer on: canonicalize only what looks as if it needs it. -/
def shortcutDirent (pData : CStr) : CStr :=
  if (0 < pData.length ∧ pData[pData.length - 1]? = some slash) ∨
      (strstr pData.tail [slash, slash]).isSome then
    svnDirentCanonicalize pData
  else if hasDotSegment pData then svnDirentCanonicalize pData
  else upperDrive pData

/-- `AllocDirent` of a path without a NUL. -/
def allocDirent (path : NetString) : CStr :=
  if 1 ≤ path.length then
    let bytes := utf8GetBytes path
    shortcutDirent (internalStyle (bytes.take (direntLength path bytes)))
  else []

/-- `shortcutDirent` where the `len` bytes of the buffer can hold a NUL: only the test of the last
byte goes by `len`. -/
def shortcutUpToNul (data : CStr) : CStr :=
  -- behind a NUL at its start the buffer is read by `strstr(pData+1, "//")`, but the path is ""
  let pData := upToNul data
  if (0 < data.length ∧ data[data.length - 1]? = some slash) ∨
      (strstr pData.tail [slash, slash]).isSome then
    svnDirentCanonicalize pData
  else if hasDotSegment pData then svnDirentCanonicalize pData
  else upperDrive pData

/-- `AllocDirent` of any path, as C code reads it. -/
def allocDirentUpToNul (path : NetString) : CStr :=
  if 1 ≤ path.length then
    let bytes := utf8GetBytes path
    shortcutUpToNul (internalStyle (bytes.take (direntLength path bytes)))
  else []

def allocRelpath (path : NetString) : CStr :=
  if 1 ≤ path.length then
    let bytes := utf8GetBytes path
    let pData := internalStyle (bytes.rdropWhile isSeparator)
    svnRelpathCanonicalize pData
  else []

def allocString (value : NetString) : CStr :=
  if 1 ≤ value.length then utf8GetBytes value else []

def utf8PtrToString (ptr : CStr) : NetString := utf8GetString ptr

def stringFromDirent (dirent : CStr) : NetString :=
  if dirent = [] then [] else utf8PtrToString (svnDirentLocalStyle (svnDirentCanonicalize dirent))

def trimSlashes (s : CStr) : CStr := s.rdropWhile (· = slash)

/-- The buffer `allocDirent` looks at: "X:" keeps one of its trimmed separators. -/
def direntBuffer (s : CStr) : CStr :=
  if (trimSlashes s).length = 2 ∧ s[1]? = some colon ∧ 2 < s.length then trimSlashes s ++ [slash]
  else trimSlashes s

/-- A path inside which the shortcut sees something to canonicalize. -/
def Delegates (q : CStr) : Prop :=
  [slash, slash] <:+: q.tail ∨ [slash, dot] <:+ q ∨ [slash, dot, slash] <:+: q

instance : DecidablePred Delegates := fun _ => inferInstanceAs (Decidable (_ ∨ _ ∨ _))

theorem hasDotSegment_iff (s : CStr) :
    hasDotSegment s = true ↔ [slash, dot] <:+ s ∨ [slash, dot, slash] <:+: s := by
  induction s with
  | nil => simp [hasDotSegment]
  | cons c cs ih =>
    have hsuffix : [slash, dot] <:+ c :: cs ↔ (c = slash ∧ cs = [dot]) ∨ [slash, dot] <:+ cs := by
      rw [List.suffix_cons_iff]
      simp [eq_comm]
    have hsub : [slash, dot, slash] <:+: c :: cs ↔
        (c = slash ∧ cs[0]? = some dot ∧ cs[1]? = some slash) ∨ [slash, dot, slash] <:+: cs := by
      rw [List.infix_cons_iff, List.cons_prefix_cons]
      match cs with
      | [] => simp
      | [d] => simp
      | d :: e :: r => simp [List.cons_prefix_cons, eq_comm]
    have hend : cs[0]? = some dot ∧ cs[1]? = none ↔ cs = [dot] := by
      match cs with
      | [] => simp
      | [d] => simp
      | d :: e :: r => simp
    have hhere : (c = slash && cs[0]? = some dot && (cs[1]? = some slash || cs[1]? = none)) = true ↔
        (c = slash ∧ cs[0]? = some dot ∧ cs[1]? = none) ∨
          (c = slash ∧ cs[0]? = some dot ∧ cs[1]? = some slash) := by
      simp only [Bool.and_eq_true, Bool.or_eq_true, decide_eq_true_eq, and_assoc]
      rw [or_comm, and_or_left, and_or_left]
    rw [hasDotSegment, Bool.or_eq_true, ih, hsuffix, hsub, ← hend, hhere, or_or_or_comm]

theorem internalStyle_trim (bytes : CStr) :
    internalStyle (bytes.rdropWhile isSeparator) = trimSlashes (internalStyle bytes) := by
  have hsep : (fun c => decide (c = slash)) ∘ (fun c => if c = backslash then slash else c) =
      isSeparator := by
    funext b
    by_cases h : b = backslash <;> simp [isSeparator, h]
  rw [internalStyle, trimSlashes, List.rdropWhile, List.rdropWhile, internalStyle,
    ← List.map_reverse, List.dropWhile_map, hsep, List.map_reverse]

theorem internalStyle_colon (bytes : CStr) (i : Nat) :
    (internalStyle bytes)[i]? = some colon ↔ bytes[i]? = some colon := by
  rw [internalStyle, List.getElem?_map]
  cases bytes[i]? with
  | none => simp
  | some b =>
    by_cases h : b = backslash
    · subst h
      decide
    · simp [h]

theorem internalStyle_length (bytes : CStr) : (internalStyle bytes).length = bytes.length := by
  simp [internalStyle]

/-- What `allocDirent` copies into its buffer. -/
theorem internalStyle_take {path : NetString} {bytes : CStr} (hb : utf8GetBytes path = bytes) :
    internalStyle (bytes.take (direntLength path bytes)) = direntBuffer (internalStyle bytes) := by
  have hsplit : bytes.rdropWhile isSeparator ++ bytes.rtakeWhile isSeparator = bytes :=
    List.rdropWhile_append_rtakeWhile
  have hlen : (trimSlashes (internalStyle bytes)).length =
      (bytes.rdropWhile isSeparator).length := by
    rw [← internalStyle_trim, internalStyle_length]
  have hcond : ((bytes.rdropWhile isSeparator).length = 2 ∧ bytes[1]? = some colon ∧
      2 < path.length) ↔ ((trimSlashes (internalStyle bytes)).length = 2 ∧
        (internalStyle bytes)[1]? = some colon ∧ 2 < (internalStyle bytes).length) := by
    rw [hlen, internalStyle_colon, internalStyle_length]
    apply and_congr_right
    intro _
    apply and_congr_right
    intro hc
    rw [← hb] at hc ⊢
    exact utf8GetBytes_two_lt hc
  unfold direntBuffer direntLength
  dsimp only
  by_cases h : (bytes.rdropWhile isSeparator).length = 2 ∧ bytes[1]? = some colon ∧
      2 < path.length
  · rw [if_pos h, if_pos (hcond.mp h), ← internalStyle_trim]
    have hlong : 2 < bytes.length := by simpa [internalStyle_length] using (hcond.mp h).2.2
    have htake : ∀ (a : CStr) (x : UInt8) (b : CStr),
        (a ++ x :: b).take (a.length + 1) = a ++ [x] := fun a x b =>
      List.take_length_add_append 1
    cases hrt : bytes.rtakeWhile isSeparator with
    | nil =>
      have hlen := congrArg List.length hsplit
      rw [hrt, List.append_nil] at hlen
      omega
    | cons x rt =>
      have hx : isSeparator x = true := List.mem_rtakeWhile_imp (l := bytes) (by simp [hrt])
      have hcut := htake (bytes.rdropWhile isSeparator) x rt
      rw [← hrt, hsplit] at hcut
      rw [hcut, internalStyle, List.map_append]
      have hslash : (if x = backslash then slash else x) = slash := by
        by_cases hxb : x = backslash
        · simp [hxb]
        · simpa [isSeparator, hxb] using hx
      rw [List.map_singleton, hslash]
      rfl
  · have htake : bytes.take (bytes.rdropWhile isSeparator).length =
        bytes.rdropWhile isSeparator :=
      (List.prefix_iff_eq_take.mp (List.rdropWhile_prefix isSeparator bytes)).symm
    rw [if_neg h, if_neg (mt hcond.mpr h), ← internalStyle_trim, htake]

theorem endsInSlash_iff {data : CStr} :
    (0 < data.length ∧ data[data.length - 1]? = some slash) ↔ data.getLast? = some slash := by
  rw [← List.getLast?_eq_getElem?, and_iff_right_iff_imp, List.length_pos_iff]
  rintro h rfl
  simp at h

/-- The two calls of the canonicalizer in one. -/
theorem delegates_ite {α : Type} (last : Prop) [Decidable last] (q : CStr) (x y : α) :
    (if last ∨ (strstr q.tail [slash, slash]).isSome then x
      else if hasDotSegment q then x else y) = if last ∨ Delegates q then x else y := by
  unfold Delegates
  simp only [strstr_isSome, hasDotSegment_iff]
  split_ifs with h1 h2 h3 h4 h5
  · rfl
  · exact absurd (h1.imp_right .inl) h2
  · rfl
  · exact absurd (.inr (.inr h3)) h4
  · exact absurd (h5.imp_right fun h => h.resolve_right h3) h1
  · rfl

theorem shortcutDirent_eq (data : CStr) :
    shortcutDirent data =
      if data.getLast? = some slash ∨ Delegates data then svnDirentCanonicalize data
      else upperDrive data := by
  unfold shortcutDirent
  rw [delegates_ite]
  simp only [endsInSlash_iff]

/-- `allocDirent` in terms of the bytes with '/' separators. -/
theorem allocDirent_eq (path : NetString) :
    allocDirent path = shortcutDirent (direntBuffer (internalStyle (utf8GetBytes path))) := by
  unfold allocDirent
  split_ifs with hp
  · exact congrArg shortcutDirent (internalStyle_take rfl)
  · have hnil : path = [] := List.length_eq_zero_iff.mp (by omega)
    subst hnil
    decide

theorem upToNul_of_no_nul {s : CStr} (h : 0 ∉ s) : upToNul s = s := by
  apply List.takeWhile_eq_self_iff.mpr
  intro c hc
  have hne : c ≠ 0 := fun heq => h (heq ▸ hc)
  simpa using hne

theorem shortcutUpToNul_eq (data : CStr) :
    shortcutUpToNul data =
      if data.getLast? = some slash ∨ Delegates (upToNul data) then
        svnDirentCanonicalize (upToNul data)
      else upperDrive (upToNul data) := by
  unfold shortcutUpToNul
  dsimp only
  rw [delegates_ite]
  simp only [endsInSlash_iff]

/-- Without a NUL the C code reads all of it. -/
theorem allocDirentUpToNul_eq {path : NetString} (h : 0 ∉ utf8GetBytes path) :
    allocDirentUpToNul path = allocDirent path := by
  have hdata : ∀ n, 0 ∉ internalStyle ((utf8GetBytes path).take n) := by
    intro n hmem
    obtain ⟨c, hc, hzero⟩ := List.mem_map.mp hmem
    split at hzero
    · exact absurd hzero (by decide)
    · rw [hzero] at hc
      exact h (List.mem_of_mem_take hc)
  unfold allocDirentUpToNul allocDirent
  split
  · dsimp only
    rw [shortcutUpToNul_eq, upToNul_of_no_nul (hdata _), shortcutDirent_eq]
  · rfl

/-- What C code reads of the bytes with '/' separators. -/
theorem allocDirentUpToNul_buffer (path : NetString) :
    ∃ data, allocDirentUpToNul path = shortcutUpToNul data := by
  unfold allocDirentUpToNul
  split
  · exact ⟨_, rfl⟩
  · exact ⟨[], by decide⟩

theorem pathNames_append_slashes (s : CStr) (n : Nat) :
    pathNames (s ++ List.replicate n slash) = pathNames s := by
  induction n with
  | zero => simp
  | succ n ih => rw [List.replicate_succ', ← List.append_assoc, pathNames_append_slash, ih]

theorem trimSlashes_append (s : CStr) : ∃ n, s = trimSlashes s ++ List.replicate n slash := by
  refine ⟨(s.rtakeWhile (· = slash)).length, ?_⟩
  have hall : s.rtakeWhile (· = slash) =
      List.replicate (s.rtakeWhile (· = slash)).length slash := by
    refine List.eq_replicate_iff.mpr ⟨rfl, fun b hb => ?_⟩
    simpa using List.mem_rtakeWhile_imp hb
  rw [← hall]
  exact List.rdropWhile_append_rtakeWhile.symm

theorem trimSlashes_getLast? (s : CStr) : (trimSlashes s).getLast? ≠ some slash := by
  intro h
  have hne : trimSlashes s ≠ [] := by
    intro hnil
    simp [hnil] at h
  have hlast := List.rdropWhile_last_not _ s hne
  rw [List.getLast?_eq_getLast_of_ne_nil hne, Option.some_inj] at h
  exact hlast (by simpa [trimSlashes] using h)

/-- `AllocRelpath` is the canonicalizer on the bytes with '/' separators. -/
theorem allocRelpath_eq (path : NetString) :
    allocRelpath path = svnRelpathCanonicalize (internalStyle (utf8GetBytes path)) := by
  unfold allocRelpath
  split_ifs with hp
  · obtain ⟨n, hn⟩ := trimSlashes_append (internalStyle (utf8GetBytes path))
    dsimp only
    rw [internalStyle_trim, svnRelpathCanonicalize, svnRelpathCanonicalize, canonicalize_relpath,
      canonicalize_relpath]
    conv_rhs => rw [hn, pathNames_append_slashes]
  · have hnil : path = [] := List.length_eq_zero_iff.mp (by omega)
    subst hnil
    decide

theorem allocString_eq (value : NetString) : allocString value = utf8GetBytes value := by
  unfold allocString
  split_ifs with h
  · rfl
  · exact (utf8GetBytes_eq_nil.mpr (List.length_eq_zero_iff.mp (by omega))).symm

theorem allocRelpath_names (path : NetString) :
    allocRelpath path = joinNames (pathNames (internalStyle (utf8GetBytes path))) := by
  rw [allocRelpath_eq, svnRelpathCanonicalize, canonicalize_relpath]

theorem backslash_not_mem_internalStyle (s : CStr) : backslash ∉ internalStyle s := by
  intro h
  obtain ⟨c, _, hc⟩ := List.mem_map.mp h
  split at hc
  · exact absurd hc (by decide)
  · contradiction

theorem validUtf8_internalStyle {s : CStr} (h : ValidUtf8 s) : ValidUtf8 (internalStyle s) := by
  apply h.map
  · intro b hb
    split
    · decide
    · exact hb
  · intro b hb
    apply if_neg
    intro heq
    subst heq
    exact absurd hb (by decide)

theorem internalStyle_of_no_backslash {s : CStr} (hb : backslash ∉ s) : internalStyle s = s := by
  conv_rhs => rw [← List.map_id s]
  apply List.map_congr_left
  intro c hc
  have hne : c ≠ backslash := fun h => hb (h ▸ hc)
  simp [hne]

theorem validUtf8_allocRelpath (path : NetString) : ValidUtf8 (allocRelpath path) := by
  rw [allocRelpath_names]
  exact validUtf8_joinNames
    (validUtf8_pathNames (validUtf8_internalStyle (validUtf8_getBytes path)))

theorem backslash_not_mem_allocRelpath (path : NetString) : backslash ∉ allocRelpath path := by
  rw [allocRelpath_names]
  intro hmem
  obtain hslash | ⟨k, hk, hmem⟩ := mem_joinNames hmem
  · exact absurd hslash (by decide)
  · have hstyle := (mem_splitOn_within (List.mem_filter.mp hk).1).subset hmem
    exact backslash_not_mem_internalStyle _ hstyle

theorem relpathIsCanonical_allocRelpath (path : NetString) :
    relpathIsCanonical (allocRelpath path) = true := by
  rw [allocRelpath_names]
  exact relpathIsCanonical_pathNames _

theorem allocRelpath_canonical {path : NetString}
    (hc : relpathIsCanonical (utf8GetBytes path) = true) (hb : backslash ∉ utf8GetBytes path) :
    allocRelpath path = utf8GetBytes path := by
  rw [allocRelpath_eq, internalStyle_of_no_backslash hb, svnRelpathCanonicalize,
    canonicalize_relpath, (relpathIsCanonical_iff _).mp hc]

theorem allocRelpath_append_slash {a b : NetString} (ha : allocRelpath a ≠ [])
    (hb : allocRelpath b ≠ []) :
    allocRelpath (a ++ 0x2f :: b) = allocRelpath a ++ slash :: allocRelpath b := by
  rw [allocRelpath_names] at ha hb
  have hstyle : internalStyle (utf8GetBytes (a ++ 0x2f :: b)) =
      internalStyle (utf8GetBytes a) ++ slash :: internalStyle (utf8GetBytes b) := by
    rw [utf8GetBytes_append_slash, internalStyle, List.map_append, List.map_cons]
    rfl
  rw [allocRelpath_names, allocRelpath_names, allocRelpath_names, hstyle, pathNames_append,
    joinNames_append (fun h => ha (by rw [h, joinNames_nil]))
      (fun h => hb (by rw [h, joinNames_nil]))]

/-- Separators at the end change nothing, but for those that end a drive letter's root. -/
theorem svnDirentCanonicalize_append_slashes {q : CStr} (hne : q ≠ [])
    (hlast : q.getLast? ≠ some slash) (hdrive : ∀ c, isLetter c = true → q ≠ [c, colon]) (n : Nat) :
    svnDirentCanonicalize (q ++ List.replicate n slash) = svnDirentCanonicalize q := by
  have hget : ∀ r : CStr, r ≠ [] → (r ++ List.replicate n slash)[0]? = r[0]? := fun r hr =>
    List.getElem?_append_left (List.length_pos_iff.mpr hr)
  cases shape q with
  | empty => exact absurd rfl hne
  | unc r =>
    rw [List.cons_append, List.cons_append, svnDirentCanonicalize_unc, svnDirentCanonicalize_unc,
      pathNames_append_slashes]
  | rooted r hr =>
    have hrne : r ≠ [] := by
      intro heq
      subst heq
      simp at hlast
    rw [List.cons_append, svnDirentCanonicalize_rooted hr,
      svnDirentCanonicalize_rooted (by rwa [hget r hrne]), pathNames_append_slashes]
  | drive c r hc =>
    have hrne : r ≠ [] := by
      intro heq
      subst heq
      exact hdrive c hc rfl
    by_cases hr : r[0]? = some slash
    · obtain ⟨r, rfl⟩ := eq_cons_of_front hr
      show svnDirentCanonicalize (c :: colon :: slash :: (r ++ _)) = _
      rw [svnDirentCanonicalize_driveRoot hc, svnDirentCanonicalize_driveRoot hc,
        pathNames_append_slashes]
    · show svnDirentCanonicalize (c :: colon :: (r ++ _)) = _
      rw [svnDirentCanonicalize_drive hc hr, svnDirentCanonicalize_drive hc (by rwa [hget r hrne])]
      exact congrArg (fun ks => _ :: joinNames ks) (pathNames_append_slashes (colon :: r) n)
  | relative c r hs hd =>
    have hd' : isLetter c = true → (r ++ List.replicate n slash)[0]? ≠ some colon := by
      intro hc
      cases r with
      | nil =>
        cases n with
        | zero => simp
        | succ n => exact fun h => absurd (Option.some_inj.mp h) (by decide)
      | cons d r => simpa using hd hc
    rw [List.cons_append, svnDirentCanonicalize_relative hs hd,
      svnDirentCanonicalize_relative hs hd']
    exact congrArg joinNames (pathNames_append_slashes (c :: r) n)

/-- Trimming and the kept separator of "X:/" leave the canonical form alone. -/
theorem canonicalize_direntBuffer {s : CStr} (hq : trimSlashes s ≠ []) :
    svnDirentCanonicalize (direntBuffer s) = svnDirentCanonicalize s := by
  obtain ⟨n, hs⟩ := trimSlashes_append s
  have hlast := trimSlashes_getLast? s
  by_cases hdrive : ∃ c, isLetter c = true ∧ trimSlashes s = [c, colon]
  · obtain ⟨c, hc, hcq⟩ := hdrive
    rw [direntBuffer, hcq]
    rw [hcq] at hs
    cases n with
    | zero => simp [hs]
    | succ n =>
      have hroot : s = c :: colon :: slash :: List.replicate n slash := hs
      have hnames : pathNames (List.replicate n slash) = pathNames [] :=
        pathNames_append_slashes [] n
      rw [if_pos (by simp [hroot]), hroot, svnDirentCanonicalize_driveRoot hc, hnames]
      exact svnDirentCanonicalize_driveRoot hc []
  · have hnot : ∀ c, isLetter c = true → trimSlashes s ≠ [c, colon] :=
      fun c hc h => hdrive ⟨c, hc, h⟩
    have hwhole := svnDirentCanonicalize_append_slashes hq hlast hnot n
    have hone := svnDirentCanonicalize_append_slashes hq hlast hnot 1
    rw [← hs] at hwhole
    unfold direntBuffer
    split_ifs
    · exact hone.trans hwhole.symm
    · exact hwhole.symm

/-- The paths that can stay as they are: no "." in front, and a UNC path has a share and a
server name without upper-case letters. -/
def StartsCanonical (q : CStr) : Prop :=
  (q ≠ [dot] ∧ ¬[dot, slash] <+: q) ∧
    (q.take 2 = [slash, slash] →
      slash ∈ q.drop 2 ∧ ∀ c ∈ (q.drop 2).takeWhile (· ≠ slash), isUpper c = false)

def ShortcutAgrees (s : CStr) : Prop :=
  s = [] ∨ trimSlashes s ≠ [] ∧ (Delegates (trimSlashes s) ∨ StartsCanonical (trimSlashes s))

theorem delegates_cons {c : UInt8} {r : CStr} (h : Delegates r) : Delegates (c :: r) := by
  obtain h | h | h := h
  · exact .inl (h.trans (List.tail_suffix r).isInfix)
  · exact .inr (.inl (h.trans (List.suffix_cons c r)))
  · exact .inr (.inr (h.trans (List.suffix_cons c r).isInfix))

/-- Behind a separator, a path that does not delegate has only names. -/
theorem clean_of_not_delegates {r : CStr} (hne : r ≠ []) (hlast : r.getLast? ≠ some slash)
    (h : ¬Delegates (slash :: r)) (hr : r[0]? ≠ some slash) :
    ∀ w ∈ r.splitOn slash, keepName w = true := by
  rw [Delegates, not_or, not_or, List.tail_cons] at h
  obtain ⟨hslashes, hend, hinside⟩ := h
  have hsuffix : r <:+ slash :: r := List.suffix_cons slash r
  rw [pieces_keep_iff hne]
  refine ⟨⟨hr, hlast, hslashes⟩, ?_, ?_, ?_, ?_⟩
  · intro heq
    subst heq
    exact hend (List.suffix_refl _)
  · intro hp
    exact hinside (List.infix_cons_iff.mpr (.inl (List.cons_prefix_cons.mpr ⟨rfl, hp⟩)))
  · exact fun hs => hend (hs.trans hsuffix)
  · exact fun hi => hinside (hi.trans hsuffix.isInfix)

/-- Without a separator in front, only a leading "." is left to look for. -/
theorem clean_iff_of_not_delegates {c : UInt8} {r : CStr} (hc : c ≠ slash)
    (hlast : (c :: r).getLast? ≠ some slash) (h : ¬Delegates (c :: r)) :
    (∀ w ∈ (c :: r).splitOn slash, keepName w = true) ↔
      c :: r ≠ [dot] ∧ ¬[dot, slash] <+: c :: r := by
  rw [Delegates, not_or, not_or, List.tail_cons] at h
  obtain ⟨hslashes, hend, hinside⟩ := h
  have hpair : ¬[slash, slash] <:+: c :: r := by
    rw [List.infix_cons_iff, List.cons_prefix_cons]
    rintro (⟨hs, -⟩ | hi)
    · exact hc hs.symm
    · exact hslashes hi
  rw [pieces_keep_iff (by simp)]
  constructor
  · intro ⟨_, hdot, hp, _⟩
    exact ⟨hdot, hp⟩
  · intro ⟨hdot, hp⟩
    exact ⟨⟨by simpa using hc, hlast, hpair⟩, hdot, hp, hend, hinside⟩

theorem joinNames_eq_self {s : CStr} (hne : s ≠ []) :
    joinNames (pathNames s) = s ↔ ∀ w ∈ s.splitOn slash, keepName w = true :=
  (intercalate_names_eq_self keepName_nil).trans (or_iff_right hne)

theorem upperDrive_drive (c : UInt8) (r : CStr) :
    upperDrive (c :: colon :: r) = canonicalizeToUpper c :: colon :: r := by
  unfold upperDrive canonicalizeToUpper
  cases hl : isLower c with
  | true =>
    obtain ⟨hlow, hhigh⟩ := isLower_range hl
    have hsub : ∀ d : UInt8, d.toNat ≤ 0x61 → (c - d).toNat = c.toNat - d.toNat := fun d hd =>
      UInt8.toNat_sub_of_le c d (UInt8.le_iff_toNat_le.mpr (hd.trans hlow))
    have hupper : c - 0x20 = c - 0x61 + 0x41 := by
      rw [← UInt8.toNat_inj, UInt8.toNat_add, hsub 0x20 (by decide), hsub 0x61 (by decide)]
      simp
      omega
    simp [hl, hupper]
  | false => simp [hl]

theorem upperDrive_of_not_drive {c : UInt8} {r : CStr}
    (h : isLetter c = true → r[0]? ≠ some colon) : upperDrive (c :: r) = c :: r := by
  unfold upperDrive
  rw [if_neg]
  intro ⟨hc, hr⟩
  exact h (by simp_all [isLetter]) (by simpa using hr)

theorem lowerServer_eq_self (s : CStr) :
    lowerServer s = s ↔ ∀ c ∈ s.takeWhile (· ≠ slash), isUpper c = false := by
  conv_lhs => rhs; rw [← List.takeWhile_append_dropWhile (p := (· ≠ slash)) (l := s)]
  rw [lowerServer, List.append_left_inj]
  conv_lhs => rhs; rw [← List.map_id (s.takeWhile _)]
  rw [List.map_inj_left]
  simp only [id, canonicalizeToLower_eq_self]

theorem take_two_ne {c : UInt8} {r : CStr} (h : c = slash → r[0]? ≠ some slash) :
    (c :: r).take 2 ≠ [slash, slash] := by
  cases r with
  | nil => simp
  | cons d r =>
    intro ht
    simp at ht h
    exact h ht.1 ht.2

theorem not_slash_of_not_delegates {c : UInt8} {r : CStr} (h : ¬Delegates (c :: slash :: r)) :
    r[0]? ≠ some slash := by
  intro hr
  obtain ⟨r, rfl⟩ := eq_cons_of_front hr
  exact h (.inl ⟨[], r, rfl⟩)

theorem getLast?_tail {c : UInt8} {r : CStr} (hr : r ≠ []) : (c :: r).getLast? = r.getLast? :=
  List.getLast?_append_of_ne_nil [c] hr

theorem pathNames_length_lt_two {r : CStr} (hclean : ∀ w ∈ r.splitOn slash, keepName w = true) :
    (pathNames r).length < 2 ↔ slash ∉ r := by
  have hnames : pathNames r = r.splitOn slash := List.filter_eq_self.mpr hclean
  rw [hnames]
  constructor
  · intro hlen hr
    obtain ⟨a, b, rfl⟩ := List.append_of_mem hr
    rw [List.splitOn_append_cons_self, List.length_append] at hlen
    have ha := List.length_pos_iff.mpr (List.splitOn_ne_nil slash a)
    have hb := List.length_pos_iff.mpr (List.splitOn_ne_nil slash b)
    omega
  · intro hr
    simp [List.splitOn_eq_singleton hr]

theorem no_dot_front {c : UInt8} (hc : c ≠ dot) (r : CStr) :
    c :: r ≠ [dot] ∧ ¬[dot, slash] <+: c :: r := by
  rw [List.cons_prefix_cons]
  exact ⟨fun h => hc (List.cons.inj h).1, fun h => hc h.1.symm⟩

theorem behind_slash {r : CStr} (h : (slash :: r).getLast? ≠ some slash) :
    r ≠ [] ∧ r.getLast? ≠ some slash := by
  have hne : r ≠ [] := by
    intro hr
    simp [hr] at h
  exact ⟨hne, by rwa [getLast?_tail hne] at h⟩

theorem startsCanonical_of_front {c : UInt8} {r : CStr} (hdot : c ≠ dot)
    (hr : c = slash → r[0]? ≠ some slash) : StartsCanonical (c :: r) :=
  ⟨no_dot_front hdot _, fun ht => absurd ht (take_two_ne hr)⟩

theorem isLetter_ne_dot {c : UInt8} (hc : isLetter c = true) : c ≠ dot := by
  intro heq
  subst heq
  exact absurd hc (by decide)

theorem upperDrive_eq_canonicalize_unc {r : CStr}
    (hlast : (slash :: slash :: r).getLast? ≠ some slash) (h : ¬Delegates (slash :: slash :: r)) :
    upperDrive (slash :: slash :: r) = svnDirentCanonicalize (slash :: slash :: r) ↔
      StartsCanonical (slash :: slash :: r) := by
  obtain ⟨hrne, hrlast⟩ := behind_slash (behind_slash hlast).2
  have hclean := clean_of_not_delegates hrne hrlast (fun hd => h (delegates_cons hd))
    (not_slash_of_not_delegates h)
  have hself := (joinNames_eq_self hrne).mpr hclean
  have hslash : isLetter slash = false := by decide
  rw [upperDrive_of_not_drive (by simp [hslash]), svnDirentCanonicalize_unc, hself,
    StartsCanonical, and_iff_right (no_dot_front (by decide) _)]
  by_cases hr : slash ∈ r
  · have hlen := mt (pathNames_length_lt_two hclean).mp (not_not.mpr hr)
    rw [if_neg hlen, List.cons_inj_right, List.cons_inj_right, eq_comm, lowerServer_eq_self]
    simp [hr]
  · rw [if_pos ((pathNames_length_lt_two hclean).mpr hr)]
    simp [hr]

theorem upperDrive_eq_canonicalize_drive {c : UInt8} {r : CStr} (hc : isLetter c = true)
    (hlast : (c :: colon :: r).getLast? ≠ some slash) (h : ¬Delegates (c :: colon :: r)) :
    upperDrive (c :: colon :: r) = svnDirentCanonicalize (c :: colon :: r) := by
  have hcolon : colon ≠ slash := by decide
  have hlast' : (colon :: r).getLast? ≠ some slash := by rwa [getLast?_tail (by simp)] at hlast
  have htail : ¬Delegates (colon :: r) := fun hd => h (delegates_cons hd)
  rw [upperDrive_drive]
  by_cases hr : r[0]? = some slash
  · obtain ⟨r, rfl⟩ := eq_cons_of_front hr
    rw [getLast?_tail (by simp)] at hlast'
    obtain ⟨hrne, hrlast⟩ := behind_slash hlast'
    have hclean := clean_of_not_delegates hrne hrlast (fun hd => htail (delegates_cons hd))
      (not_slash_of_not_delegates htail)
    rw [svnDirentCanonicalize_driveRoot hc, (joinNames_eq_self hrne).mpr hclean]
  · have hclean :=
      (clean_iff_of_not_delegates hcolon hlast' htail).mpr (no_dot_front (by decide) r)
    rw [svnDirentCanonicalize_drive hc hr, (joinNames_eq_self (by simp)).mpr hclean]

/-- Where nothing delegates, leaving the path alone is right exactly for these paths. -/
theorem upperDrive_eq_canonicalize {q : CStr} (hne : q ≠ []) (hlast : q.getLast? ≠ some slash)
    (h : ¬Delegates q) :
    upperDrive q = svnDirentCanonicalize q ↔ StartsCanonical q := by
  cases shape q with
  | empty => exact absurd rfl hne
  | unc r => exact upperDrive_eq_canonicalize_unc hlast h
  | rooted r hr =>
    obtain ⟨hrne, hrlast⟩ := behind_slash hlast
    have hself := (joinNames_eq_self hrne).mpr (clean_of_not_delegates hrne hrlast h hr)
    have hslash : isLetter slash = false := by decide
    rw [upperDrive_of_not_drive (by simp [hslash]), svnDirentCanonicalize_rooted hr, hself,
      iff_true_right (startsCanonical_of_front (by decide) fun _ => hr)]
  | drive c r hc =>
    apply iff_of_true (upperDrive_eq_canonicalize_drive hc hlast h)
    exact startsCanonical_of_front (isLetter_ne_dot hc)
      fun hs => absurd hs (isLetter_ne_slash hc)
  | relative c r hs hd =>
    have hclean := clean_iff_of_not_delegates hs hlast h
    rw [svnDirentCanonicalize_relative hs hd, upperDrive_of_not_drive hd, eq_comm,
      joinNames_eq_self hne, hclean, StartsCanonical]
    refine (and_iff_left fun ht => ?_).symm
    exact absurd ht (take_two_ne fun hc => absurd hc hs)

theorem canonicalize_slashes (n : Nat) :
    svnDirentCanonicalize (List.replicate (n + 1) slash) = [slash] := by
  have hnames : pathNames (List.replicate n slash) = [] := pathNames_append_slashes [] n
  cases n with
  | zero => decide
  | succ n =>
    have hrest : pathNames (List.replicate n slash) = [] := pathNames_append_slashes [] n
    show svnDirentCanonicalize (slash :: slash :: List.replicate n slash) = _
    rw [svnDirentCanonicalize_unc, hrest]
    rfl

theorem shortcutDirent_agrees_iff (s : CStr) :
    shortcutDirent (direntBuffer s) = svnDirentCanonicalize s ↔ ShortcutAgrees s := by
  by_cases hs : s = []
  · subst hs
    exact iff_of_true (by decide) (.inl rfl)
  rw [ShortcutAgrees, or_iff_right hs]
  by_cases hq : trimSlashes s = []
  · obtain ⟨n, hn⟩ := trimSlashes_append s
    rw [hq, List.nil_append] at hn
    obtain ⟨m, rfl⟩ : ∃ m, n = m + 1 := ⟨n - 1, by
      cases n with
      | zero => exact absurd hn hs
      | succ n => rfl⟩
    have hbuf : direntBuffer s = [] := by simp [direntBuffer, hq]
    have hcanon := canonicalize_slashes m
    rw [← hn] at hcanon
    refine iff_of_false ?_ fun h => h.1 hq
    rw [hbuf, hcanon]
    decide
  have hlast := trimSlashes_getLast? s
  have hcanon := canonicalize_direntBuffer hq
  rw [and_iff_right hq, shortcutDirent_eq]
  by_cases hroot : (trimSlashes s).length = 2 ∧ s[1]? = some colon ∧ 2 < s.length
  · have hbuf : direntBuffer s = trimSlashes s ++ [slash] := if_pos hroot
    refine iff_of_true ?_ (.inr ?_)
    · rw [if_pos (.inl (by simp [hbuf])), hcanon]
    · obtain ⟨n, hn⟩ := trimSlashes_append s
      obtain ⟨c, d, hcd⟩ := List.length_eq_two.mp hroot.1
      have hd : d = colon := by
        have h1 := hroot.2.1
        rw [hn, hcd] at h1
        simpa using h1
      have hslash : colon ≠ slash := by decide
      rw [hcd, hd]
      exact ⟨⟨by simp, by simp [List.cons_prefix_cons, hslash.symm]⟩, by simp [hslash]⟩
  · have hbuf : direntBuffer s = trimSlashes s := if_neg hroot
    rw [← hcanon, hbuf]
    by_cases hd : Delegates (trimSlashes s)
    · rw [if_pos (.inr hd)]
      exact iff_of_true rfl (.inl hd)
    · rw [if_neg (not_or.mpr ⟨hlast, hd⟩), or_iff_right hd]
      exact upperDrive_eq_canonicalize hq hlast hd

/-- A relative path whose first name comes out as a drive: "./c:", or "c:." with its ".". -/
def UncanonicalDrive (s : CStr) : Prop :=
  s[0]? ≠ some slash ∧
    match pathNames s with
    | (c :: d :: r) :: _ =>
      isLetter c = true ∧ d = colon ∧ (r = [dot] ∨ isLower c = true ∧ s[0]? = some dot)
    | _ => False

/-- A first name that `svn_dirent_is_canonical` reads as a drive and rejects. -/
def RejectedDrive : CStr → Prop
  | c :: d :: r => isLetter c = true ∧ d = colon ∧ (r = [dot] ∨ isLower c = true)
  | _ => False

theorem joinNames_cons_cons (c : UInt8) (k : CStr) (ks : List CStr) :
    joinNames ((c :: k) :: ks) = c :: joinNames (k :: ks) :=
  List.intercalate_cons_cons_left

theorem joinNames_head? {k : CStr} (hk : k ≠ []) (ks : List CStr) :
    (joinNames (k :: ks))[0]? = k[0]? := by
  cases k with
  | nil => exact absurd rfl hk
  | cons c k => rw [joinNames_cons_cons, List.getElem?_cons_zero, List.getElem?_cons_zero]

theorem svnDirentIsCanonical_drive_names {c : UInt8} (hc : isLetter c = true) {r : CStr}
    {ks : List CStr} (hr : slash ∉ r) (hks : ∀ k ∈ ks, keepName k = true ∧ slash ∉ k) :
    svnDirentIsCanonical (c :: colon :: joinNames (r :: ks)) = true ↔
      ¬(r = [dot] ∨ isLower c = true) := by
  cases hup : isUpper c with
  | false =>
    have hlow : isLower c = true := by simpa [isLetter, hup] using hc
    have hs : c ≠ slash := isLetter_ne_slash hc
    simp [svnDirentIsCanonical, hs, hc, hup, hlow]
  | true =>
    rw [not_isLower_of_isUpper hup]
    by_cases hrne : r = []
    · subst hrne
      cases ks with
      | nil => simp [svnDirentIsCanonical_drive hup, relpathIsCanonical]
      | cons k ks =>
        rw [joinNames_cons (by simp), List.nil_append, svnDirentIsCanonical_driveRoot hup,
          relpathIsCanonical_joinNames hks]
        simp
    · have hhead : (joinNames (r :: ks))[0]? ≠ some slash := by
        rw [joinNames_head? hrne]
        intro h
        exact hr (List.mem_of_getElem? h)
      have hsplit : (joinNames (r :: ks)).splitOn slash = r :: ks :=
        List.splitOn_intercalate slash (by simpa [hr] using fun k hk => (hks k hk).2) (by simp)
      rw [svnDirentIsCanonical_drive hup hhead, relpathIsCanonical_pieces,
        or_iff_right (joinNames_cons_ne_nil ks hrne), hsplit]
      rw [List.forall_mem_cons, and_iff_left fun k hk => (hks k hk).1, keepName_iff]
      simp [hrne]

theorem svnDirentIsCanonical_joinNames {k : CStr} {ks : List CStr}
    (h : ∀ n ∈ k :: ks, keepName n = true ∧ slash ∉ n) :
    svnDirentIsCanonical (joinNames (k :: ks)) = true ↔ ¬RejectedDrive k := by
  obtain ⟨hk, hslash⟩ := h k (by simp)
  cases k with
  | nil => simp [keepName] at hk
  | cons c k =>
    have hc : c ≠ slash := fun hc => hslash (by simp [hc])
    by_cases hdrive : isLetter c = true ∧ k[0]? = some colon
    · obtain ⟨hl, hcolon⟩ := hdrive
      obtain ⟨r, rfl⟩ := eq_cons_of_front hcolon
      rw [joinNames_cons_cons, joinNames_cons_cons, svnDirentIsCanonical_drive_names hl
        (fun hr => hslash (by simp [hr])) fun n hn => h n (List.mem_cons_of_mem _ hn)]
      simp [RejectedDrive, hl]
    · have hrel : isLetter c = true → (joinNames (k :: ks))[0]? ≠ some colon := by
        intro hl
        cases k with
        | nil =>
          cases ks with
          | nil => simp
          | cons l ls =>
            rw [joinNames_cons (by simp)]
            exact fun he => absurd (Option.some_inj.mp he) (by decide)
        | cons d r =>
          rw [joinNames_head? (by simp)]
          exact fun he => hdrive ⟨hl, he⟩
      have hcanon := relpathIsCanonical_joinNames h
      rw [joinNames_cons_cons] at hcanon ⊢
      rw [svnDirentIsCanonical_relative hc hrel, hcanon]
      apply iff_of_true rfl
      cases k with
      | nil => simp [RejectedDrive]
      | cons d r => exact fun hrej => hdrive ⟨hrej.1, by simp [hrej.2.1]⟩

theorem pathNames_cons {c : UInt8} {s w : CStr} {rest : List CStr} (hc : c ≠ slash)
    (h : s.splitOn slash = w :: rest) :
    pathNames (c :: s) = (if keepName (c :: w) then [c :: w] else []) ++ rest.filter keepName := by
  rw [pathNames, names, splitOn_cons_ne hc, h, List.modifyHead_cons, List.filter_cons]
  split_ifs <;> rfl

theorem keepName_cons {c : UInt8} (hc : c ≠ dot) (w : CStr) : keepName (c :: w) = true := by
  rw [keepName_iff]
  exact ⟨by simp, fun h => hc (List.cons.inj h).1⟩

theorem canonicalize_isCanonical_unc (r : CStr) :
    svnDirentIsCanonical (svnDirentCanonicalize (slash :: slash :: r)) = true := by
  rw [svnDirentCanonicalize_unc]
  split_ifs with hlen
  · rw [svnDirentIsCanonical_rooted joinNames_head]
    exact relpathIsCanonical_pathNames r
  · match hn : pathNames r with
    | [] => simp [hn] at hlen
    | [k] => simp [hn] at hlen
    | k :: l :: ks =>
      have hmem : ∀ n ∈ k :: l :: ks, keepName n = true ∧ slash ∉ n := fun n hm =>
        mem_pathNames (s := r) (by simpa [hn] using hm)
      have hk := hmem k (by simp)
      rw [lowerServer_joinNames hk.2]
      apply svnDirentIsCanonical_unc
      · intro n hn'
        rw [List.mem_cons] at hn'
        obtain rfl | hn' := hn'
        · exact lower_keep hk
        · exact hmem n (List.mem_cons_of_mem _ hn')
      · rw [List.map_map]
        exact List.map_congr_left fun c _ => canonicalizeToLower_idem c

/-- The first name of a drive path is the drive with what follows it up to a separator. -/
theorem pathNames_drive {c : UInt8} (hc : isLetter c = true) {r w : CStr} {rest : List CStr}
    (hsplit : r.splitOn slash = w :: rest) :
    pathNames (c :: colon :: r) = (c :: colon :: w) :: rest.filter keepName := by
  have hcolon : (colon :: r).splitOn slash = (colon :: w) :: rest := by
    rw [splitOn_cons_ne (by decide), hsplit, List.modifyHead_cons]
  rw [pathNames_cons (isLetter_ne_slash hc) hcolon, if_pos (keepName_cons (isLetter_ne_dot hc) _)]
  rfl

theorem uncanonicalDrive_drive {c : UInt8} (hc : isLetter c = true) {r w : CStr}
    {rest : List CStr} (hsplit : r.splitOn slash = w :: rest) :
    UncanonicalDrive (c :: colon :: r) ↔ w = [dot] := by
  rw [UncanonicalDrive, pathNames_drive hc hsplit]
  simp [isLetter_ne_slash hc, hc, isLetter_ne_dot hc]

theorem canonicalize_isCanonical_drive {c : UInt8} (hc : isLetter c = true) {r w : CStr}
    {rest : List CStr} (hsplit : r.splitOn slash = w :: rest) :
    svnDirentIsCanonical (svnDirentCanonicalize (c :: colon :: r)) = true ↔ w ≠ [dot] := by
  by_cases hr : r[0]? = some slash
  · obtain ⟨r, rfl⟩ := eq_cons_of_front hr
    rw [splitOn_cons_self] at hsplit
    have hw : w = [] := (List.cons.inj hsplit).1.symm
    rw [svnDirentCanonicalize_driveRoot hc, svnDirentIsCanonical_driveRoot (isUpper_toUpper hc),
      relpathIsCanonical_pathNames]
    simp [hw]
  · have hslash : slash ∉ w := not_mem_splitOn (show w ∈ r.splitOn slash by simp [hsplit])
    have hks : ∀ k ∈ rest.filter keepName, keepName k = true ∧ slash ∉ k := fun k hk => by
      obtain ⟨hmem, hkeep⟩ := List.mem_filter.mp hk
      exact ⟨hkeep, not_mem_splitOn (show k ∈ r.splitOn slash by simp [hsplit, hmem])⟩
    have htail := pathNames_cons (show colon ≠ slash by decide) hsplit
    rw [if_pos (keepName_cons (by decide) w)] at htail
    rw [svnDirentCanonicalize_drive hc hr, htail, List.singleton_append, joinNames_cons_cons,
      svnDirentIsCanonical_drive_names (isLetter_toUpper hc) hslash hks,
      not_isLower_of_isUpper (isUpper_toUpper hc)]
    simp

/-- A relative path has a drive as its first name only behind a name that is skipped. -/
theorem dot_of_drive_name {c a : UInt8} {r t : CStr} {ks : List CStr} (hs : c ≠ slash)
    (hd : isLetter c = true → r[0]? ≠ some colon) (ha : isLetter a = true)
    (hn : pathNames (c :: r) = (a :: colon :: t) :: ks) : c = dot := by
  by_contra hdot
  cases hsplit : r.splitOn slash with
  | nil => exact List.splitOn_ne_nil slash r hsplit
  | cons w rest =>
    rw [pathNames_cons hs hsplit, if_pos (keepName_cons hdot w)] at hn
    obtain ⟨rfl, hw⟩ := List.cons.inj (List.cons.inj hn).1
    have hr : joinNames (w :: rest) = r := hsplit ▸ List.intercalate_splitOn slash
    have hhead := joinNames_head? (show w ≠ [] by simp [hw]) rest
    exact hd ha (by rw [← hr, hhead, hw, List.getElem?_cons_zero])

theorem canonicalize_isCanonical_relative {c : UInt8} {r : CStr} (hs : c ≠ slash)
    (hd : isLetter c = true → r[0]? ≠ some colon) :
    svnDirentIsCanonical (svnDirentCanonicalize (c :: r)) = true ↔ ¬UncanonicalDrive (c :: r) := by
  rw [svnDirentCanonicalize_relative hs hd]
  cases hn : pathNames (c :: r) with
  | nil => exact iff_of_true (by decide) (by simp [UncanonicalDrive, hn])
  | cons k ks =>
    have hmem : ∀ n ∈ k :: ks, keepName n = true ∧ slash ∉ n := fun n hm =>
      mem_pathNames (s := c :: r) (by simpa [hn] using hm)
    rw [svnDirentIsCanonical_joinNames hmem, not_iff_not, UncanonicalDrive, hn]
    match k with
    | [] => simp [RejectedDrive]
    | [a] => simp [RejectedDrive]
    | a :: b :: t =>
      constructor
      · intro ⟨ha, hb, h⟩
        subst hb
        have hfront := dot_of_drive_name hs hd ha hn
        exact ⟨by simpa using hs, ha, rfl, h.imp_right fun hl => ⟨hl, by simp [hfront]⟩⟩
      · intro ⟨_, ha, hb, h⟩
        exact ⟨ha, hb, h.imp_right fun hl => hl.1⟩

theorem canonicalize_isCanonical_iff (s : CStr) :
    svnDirentIsCanonical (svnDirentCanonicalize s) = true ↔ ¬UncanonicalDrive s := by
  cases shape s with
  | empty => exact iff_of_true (by decide) (by simp [UncanonicalDrive, pathNames_nil])
  | unc r => exact iff_of_true (canonicalize_isCanonical_unc r) (by simp [UncanonicalDrive])
  | rooted r hr =>
    refine iff_of_true ?_ (by simp [UncanonicalDrive])
    rw [svnDirentCanonicalize_rooted hr, svnDirentIsCanonical_rooted joinNames_head]
    exact relpathIsCanonical_pathNames r
  | drive c r hc =>
    cases hsplit : r.splitOn slash with
    | nil => exact absurd hsplit (List.splitOn_ne_nil slash r)
    | cons w rest =>
      rw [canonicalize_isCanonical_drive hc hsplit, uncanonicalDrive_drive hc hsplit]
  | relative c r hs hd => exact canonicalize_isCanonical_relative hs hd

/-- `AllocDirent` is the canonicalizer, and its result is canonical, on exactly these paths. -/
theorem allocDirent_canonicalizes_iff (path : NetString) :
    (allocDirent path = svnDirentCanonicalize (internalStyle (utf8GetBytes path)) ∧
        svnDirentIsCanonical (allocDirent path) = true) ↔
      ShortcutAgrees (internalStyle (utf8GetBytes path)) ∧
        ¬UncanonicalDrive (internalStyle (utf8GetBytes path)) := by
  rw [allocDirent_eq, shortcutDirent_agrees_iff]
  apply and_congr_right
  intro h
  rw [(shortcutDirent_agrees_iff _).mpr h, canonicalize_isCanonical_iff]

theorem trimSlashes_cons {c : UInt8} (hc : c ≠ slash) (r : CStr) :
    trimSlashes (c :: r) = c :: trimSlashes r := by
  have hsingle : [c].dropWhile (fun b => decide (b = slash)) = [c] := by simp [hc]
  rw [trimSlashes, trimSlashes, List.rdropWhile, List.rdropWhile, List.reverse_cons,
    List.dropWhile_append, hsingle]
  split_ifs with h
  · rw [List.isEmpty_iff.mp h]
    rfl
  · simp

theorem trimSlashes_of_getLast? {s : CStr} {c : UInt8} (h : s.getLast? = some c) (hc : c ≠ slash) :
    trimSlashes s = s := by
  apply List.rdropWhile_eq_self_iff.mpr
  intro hne
  rw [List.getLast?_eq_getLast_of_ne_nil hne, Option.some_inj] at h
  simpa [h] using hc

/-- On absolute dirents the shortcut agrees. -/
theorem shortcutAgrees_spell (d : AbsoluteDirent) : ShortcutAgrees d.spell := by
  obtain ⟨root, names, hroot, hnames⟩ := d
  cases root with
  | drive c =>
    have hc : isLetter c = true := isLetter_of_isUpper hroot
    have htrim : trimSlashes (c :: colon :: slash :: joinNames names) =
        c :: colon :: trimSlashes (slash :: joinNames names) := by
      rw [trimSlashes_cons (isLetter_ne_slash hc), trimSlashes_cons (by decide)]
    refine .inr ⟨by simp [AbsoluteDirent.spell, htrim], .inr ?_⟩
    simp only [AbsoluteDirent.spell, htrim]
    exact ⟨no_dot_front (isLetter_ne_dot hc) _,
      fun ht => absurd ht (take_two_ne fun hs => absurd hs (isLetter_ne_slash hc))⟩
  | server host share =>
    have hvalid := server_names_valid hroot hnames
    obtain ⟨x, hlast, hx, -⟩ := joinNames_getLast? (by simp) hvalid
    have hne : joinNames (host :: share :: names) ≠ [] := by
      intro hnil
      simp [hnil] at hlast
    have hspell : (slash :: slash :: joinNames (host :: share :: names)).getLast? = some x := by
      rw [getLast?_tail (by simp), getLast?_tail hne, hlast]
    have htrim := trimSlashes_of_getLast? hspell hx
    have hjoin : joinNames (host :: share :: names) = host ++ slash :: joinNames (share :: names) :=
      joinNames_cons (by simp)
    refine .inr ⟨by simp [AbsoluteDirent.spell, htrim], .inr ?_⟩
    simp only [AbsoluteDirent.spell, htrim]
    refine ⟨no_dot_front (by decide) _, fun _ => ?_⟩
    show slash ∈ joinNames (host :: share :: names) ∧
      ∀ c ∈ (joinNames (host :: share :: names)).takeWhile (· ≠ slash), isUpper c = false
    rw [hjoin, takeWhile_word hroot.1.no_slash (.inr rfl)]
    refine ⟨by simp, fun c hc => ?_⟩
    have hlow := hroot.2.2
    rw [← List.map_id host, List.map_map, List.map_inj_left] at hlow
    exact canonicalizeToLower_eq_self.mp (hlow c hc)

/-- The path "\\" is the root of the current drive; the shortcut makes it the empty path. -/
theorem allocDirent_backslash :
    ¬(allocDirent [0x5c] = svnDirentCanonicalize (internalStyle (utf8GetBytes [0x5c])) ∧
      svnDirentIsCanonical (allocDirent [0x5c]) = true) := by
  decide

end SharpGit.Implementation
