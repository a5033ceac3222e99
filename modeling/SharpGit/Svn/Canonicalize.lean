import SharpGit.Library.Segments
import SharpGit.Native.CString

namespace SharpGit.Svn

open Library Native

/-- `dirent_uri.c` is read under `SVN_USE_DOS_PATHS`. -/
inductive PathType
  | dirent
  | relpath
  deriving DecidableEq, Repr

/-- `internal_style`: local separators to '/'. -/
def internalStyle (path : CStr) : CStr := path.map fun c => if c = backslash then slash else c

def canonicalizeToLower (c : UInt8) : UInt8 := if isUpper c then c - 0x41 + 0x61 else c
def canonicalizeToUpper (c : UInt8) : UInt8 := if isLower c then c - 0x61 + 0x41 else c

/-- The separators or drive letter that come before the first segment, and what follows. The
':' of a drive is left to be part of a segment. -/
def copyRoot : PathType → CStr → CStr × CStr
  | .relpath, path => ([], path)
  | .dirent, [] => ([], [])
  | .dirent, c :: src =>
    if c = slash then
      if src[0]? = some slash then ([slash, slash], src.tail) else ([slash], src)
    else if isLetter c && src[0]? = some colon then ([canonicalizeToUpper c], src)
    else ([], c :: src)

/-- One turn of the `while (*src)` loop: `dst` and `canon_segments` after a segment. -/
def appendSegment (acc : CStr × Nat) (seg : CStr × Bool) : CStr × Nat :=
  if seg.1 = [] ∨ seg.1 = [dot] then acc
  else (acc.1 ++ seg.1 ++ if seg.2 then [slash] else [], acc.2 + 1)

/-- Lower the server name of a UNC path, the part before the first separator. -/
def lowerServer (s : CStr) : CStr :=
  (s.takeWhile (· ≠ slash)).map canonicalizeToLower ++ s.dropWhile (· ≠ slash)

/-- The whole loop, then the trailing slash removed if there was a canonical segment. -/
def copySegments (dst src : CStr) : CStr × Nat :=
  let (dst, canonSegments) := (segments slash src).foldl appendSegment (dst, 0)
  (if 0 < canonSegments then chop slash dst else dst, canonSegments)

def canonicalize (type : PathType) (path : CStr) : CStr :=
  if path = [] then []
  else
    let (dst, src) := copyRoot type path
    let (canon, canonSegments) := copySegments dst src
    if type = .dirent ∧ canon[0]? = some slash ∧ canon[1]? = some slash then
      -- a UNC path must have two segments
      if canonSegments < 2 then canon.tail
      else canon.take 2 ++ lowerServer (canon.drop 2)
    else canon

/-- `canonicalize_dirent`: the final '/' of "X:/" is put back. -/
def svnDirentCanonicalize (dirent : CStr) : CStr :=
  let dst := canonicalize .dirent dirent
  if dirent[0]?.any isLetter ∧ dirent[1]? = some colon ∧ dirent[2]? = some slash ∧
      dst[3]? = none then
    [canonicalizeToUpper (dirent.headD 0), colon, slash]
  else dst

def svnRelpathCanonicalize (relpath : CStr) : CStr := canonicalize .relpath relpath

/-- The search for "/./", by its dots: `before` is the byte in front of the rest. -/
def dotSegmentInside (before : Option UInt8) : CStr → Bool
  | [] => false
  | c :: cs =>
    (c = dot && before = some slash && cs[0]? = some slash) || dotSegmentInside (some c) cs

/-- The search for "//", in a sliding window of two bytes. -/
def slashesInside (pattern : Nat) : CStr → Bool
  | [] => false
  | c :: cs =>
    let pattern := pattern % 0x100 * 0x100 + c.toNat
    pattern = 0x101 * slash.toNat || slashesInside pattern cs

def relpathIsCanonical (relpath : CStr) : Bool :=
  if relpath[0]? = some slash then false
  else if relpath[0]? = some dot ∧ (relpath[1]? = some slash ∨ relpath[1]? = none) then false
  else
    let len := relpath.length
    if len < 2 then true
    else if relpath[len - 1]? = some slash ∨
        (relpath[len - 1]? = some dot ∧ relpath[len - 2]? = some slash) then false
    else if dotSegmentInside none relpath then false
    else !slashesInside 0 (relpath.take (len - 1))

def svnDirentIsCanonical (dirent : CStr) : Bool :=
  match dirent with
  | [] => relpathIsCanonical []
  | c :: ptr =>
    if c = slash then
      if ptr[0]? = some slash then decide (dirent = svnDirentCanonicalize dirent)
      else relpathIsCanonical ptr
    else if isLetter c && ptr[0]? = some colon then
      if isUpper c then
        if ptr[1]? = some slash then relpathIsCanonical (ptr.drop 2)
        else relpathIsCanonical ptr.tail
      else false
    else relpathIsCanonical dirent

/-- What the canonicalizer keeps of a path: neither empty nor ".". -/
def keepName (w : CStr) : Bool := w ≠ [] && w ≠ [dot]

def pathNames (s : CStr) : List CStr := names slash keepName s

def joinNames (ks : List CStr) : CStr := [slash].intercalate ks

theorem keepName_nil : keepName [] = false := rfl

theorem keepName_iff {w : CStr} : keepName w = true ↔ w ≠ [] ∧ w ≠ [dot] := by simp [keepName]

theorem mem_pathNames {s k : CStr} (h : k ∈ pathNames s) : keepName k = true ∧ slash ∉ k :=
  mem_names h

theorem pathNames_nil : pathNames [] = [] := names_nil keepName_nil

theorem pathNames_append (a b : CStr) : pathNames (a ++ slash :: b) = pathNames a ++ pathNames b :=
  names_append a b

theorem pathNames_append_slash (s : CStr) : pathNames (s ++ [slash]) = pathNames s :=
  names_append_sep keepName_nil s

theorem pathNames_word {w : CStr} (hw : slash ∉ w) (hk : keepName w = true) :
    pathNames w = [w] := by
  rw [pathNames, names_word hw, if_pos hk]

theorem pathNames_joinNames {ks : List CStr} (h : ∀ k ∈ ks, keepName k = true ∧ slash ∉ k) :
    pathNames (joinNames ks) = ks :=
  names_intercalate keepName_nil h

@[simp] theorem joinNames_nil : joinNames [] = [] := List.intercalate_nil

@[simp] theorem joinNames_singleton (k : CStr) : joinNames [k] = k := List.intercalate_singleton

theorem joinNames_cons {k : CStr} {ks : List CStr} (h : ks ≠ []) :
    joinNames (k :: ks) = k ++ slash :: joinNames ks := by
  simp [joinNames, List.intercalate_cons_of_ne_nil h]

theorem joinNames_cons_ne_nil {k : CStr} (ks : List CStr) (h : k ≠ []) :
    joinNames (k :: ks) ≠ [] := by
  cases ks with
  | nil => simpa using h
  | cons k' ks => simp [joinNames_cons]

theorem joinNames_append {ks ls : List CStr} (hk : ks ≠ []) (hl : ls ≠ []) :
    joinNames (ks ++ ls) = joinNames ks ++ slash :: joinNames ls :=
  intercalate_append hk hl

/-- Names start with no separator. -/
theorem joinNames_relative {ks : List CStr} (h : ∀ k ∈ ks, keepName k = true ∧ slash ∉ k) :
    (joinNames ks)[0]? ≠ some slash := by
  cases ks with
  | nil => simp
  | cons k ks =>
    obtain ⟨hk, hs⟩ := h k List.mem_cons_self
    cases k with
    | nil => simp [keepName] at hk
    | cons c k =>
      have hc : c ≠ slash := by
        intro heq
        subst heq
        simp at hs
      cases ks with
      | nil => simpa using hc
      | cons k' ks => simpa [joinNames_cons] using hc

theorem joinNames_head {s : CStr} : (joinNames (pathNames s))[0]? ≠ some slash :=
  joinNames_relative fun _ hk => mem_pathNames hk

theorem foldl_appendSegment (segs : List (CStr × Bool)) (dst : CStr) (n : Nat) :
    segs.foldl appendSegment (dst, n) =
      (dst ++ spell slash (segs.filter fun seg => keepName seg.1),
        n + (segs.filter fun seg => keepName seg.1).length) := by
  induction segs generalizing dst n with
  | nil => simp [spell]
  | cons seg segs ih =>
    rw [List.foldl_cons]
    by_cases hk : keepName seg.1 = true
    · have hstep : appendSegment (dst, n) seg =
          (dst ++ seg.1 ++ (if seg.2 then [slash] else []), n + 1) := by
        rw [keepName_iff] at hk
        simp [appendSegment, hk.1, hk.2]
      rw [hstep, ih, List.filter_cons_of_pos (by simpa using hk)]
      simp [spell, Nat.add_assoc, Nat.add_comm 1]
    · have hstep : appendSegment (dst, n) seg = (dst, n) := by
        rw [keepName_iff, not_and_or, not_not, not_not] at hk
        rw [appendSegment, if_pos hk]
      rw [hstep, ih, List.filter_cons_of_neg (by simpa using hk)]

/-- The loop joins the names of `src` after the root. -/
theorem copySegments_eq (dst src : CStr) :
    copySegments dst src = (dst ++ joinNames (pathNames src), (pathNames src).length) := by
  have hlen : ((segments slash src).filter fun seg => keepName seg.1).length =
      (pathNames src).length := by
    rw [pathNames, ← segments_names slash keepName keepName_nil, List.filter_map,
      List.length_map]
    rfl
  have hjoin : joinNames (pathNames src) =
      chop slash (spell slash ((segments slash src).filter fun seg => keepName seg.1)) :=
    (chop_spell_names keepName_nil src).symm
  rw [copySegments, foldl_appendSegment, hjoin]
  dsimp only
  rw [Nat.zero_add, hlen, Prod.mk.injEq]
  refine ⟨?_, rfl⟩
  rw [← hlen]
  cases hsegs : (segments slash src).filter fun seg => keepName seg.1 with
  | nil => simp [spell, chop]
  | cons seg segs =>
    have hkeep : keepName seg.1 = true := by
      have hmem : seg ∈ (segments slash src).filter fun seg => keepName seg.1 := by simp [hsegs]
      simpa using (List.mem_filter.mp hmem).2
    rw [keepName_iff] at hkeep
    rw [if_pos (by simp), chop_append dst (by simp [spell, hkeep.1])]

theorem canonicalize_relpath (path : CStr) :
    canonicalize .relpath path = joinNames (pathNames path) := by
  unfold canonicalize
  split_ifs with h
  · rw [h, pathNames_nil, joinNames_nil]
  · simp [copyRoot, copySegments_eq]

theorem canonicalize_slash {s : CStr} (h : s[0]? ≠ some slash) :
    canonicalize .dirent (slash :: s) = slash :: joinNames (pathNames s) := by
  have hjoin : (joinNames (pathNames s))[0]? ≠ some slash := joinNames_head
  simp [canonicalize, copyRoot, h, copySegments_eq, hjoin]

theorem canonicalize_unc (s : CStr) :
    canonicalize .dirent (slash :: slash :: s) =
      if (pathNames s).length < 2 then slash :: joinNames (pathNames s)
      else slash :: slash :: lowerServer (joinNames (pathNames s)) := by
  simp [canonicalize, copyRoot, copySegments_eq]

theorem isUpper_toUpper {c : UInt8} (hc : isLetter c = true) :
    isUpper (canonicalizeToUpper c) = true := by
  unfold canonicalizeToUpper
  split_ifs with hl
  · have := isLower_range hl
    have hsub : (c - 0x61).toNat = c.toNat - 0x61 :=
      UInt8.toNat_sub_of_le c 0x61 (UInt8.le_iff_toNat_le.mpr (by simpa using this.1))
    have hadd : (c - 0x61 + 0x41).toNat = c.toNat - 0x61 + 0x41 := by
      rw [UInt8.toNat_add, hsub]
      simp
      omega
    simp only [isUpper, UInt8.le_iff_toNat_le, hadd, Bool.and_eq_true, decide_eq_true_eq]
    simp
    omega
  · simpa [isLetter, hl] using hc

theorem isLetter_toUpper {c : UInt8} (hc : isLetter c = true) :
    isLetter (canonicalizeToUpper c) = true := by
  rw [isLetter, isUpper_toUpper hc, Bool.or_true]

theorem canonicalize_drive {c : UInt8} (hc : isLetter c = true) (s : CStr) :
    canonicalize .dirent (c :: colon :: s) =
      canonicalizeToUpper c :: joinNames (pathNames (colon :: s)) := by
  have hslash : c ≠ slash := isLetter_ne_slash hc
  have hroot : canonicalizeToUpper c ≠ slash := isLetter_ne_slash (isLetter_toUpper hc)
  simp [canonicalize, copyRoot, copySegments_eq, hc, hslash, hroot]

/-- The root shapes a dirent can have on Windows. -/
inductive Shape : CStr → Prop
  | empty : Shape []
  | unc (r : CStr) : Shape (slash :: slash :: r)
  | rooted (r : CStr) (hr : r[0]? ≠ some slash) : Shape (slash :: r)
  | drive (c : UInt8) (r : CStr) (hc : isLetter c = true) : Shape (c :: colon :: r)
  | relative (c : UInt8) (r : CStr) (hs : c ≠ slash)
      (hd : isLetter c = true → r[0]? ≠ some colon) : Shape (c :: r)

theorem shape (s : CStr) : Shape s := by
  cases s with
  | nil => exact .empty
  | cons c r =>
    by_cases hs : c = slash
    · subst hs
      cases r with
      | nil => exact .rooted [] (by simp)
      | cons d r =>
        by_cases hd : d = slash
        · exact hd ▸ .unc r
        · exact .rooted (d :: r) (by simpa using hd)
    · by_cases hd : isLetter c = true ∧ r[0]? = some colon
      · obtain ⟨r, rfl⟩ := eq_cons_of_front hd.2
        exact .drive c r hd.1
      · exact .relative c r hs fun hc hr => hd ⟨hc, hr⟩

theorem canonicalize_relative {c : UInt8} {r : CStr} (hs : c ≠ slash)
    (hd : isLetter c = true → r[0]? ≠ some colon) :
    canonicalize .dirent (c :: r) = joinNames (pathNames (c :: r)) := by
  have hjoin : (joinNames (pathNames (c :: r)))[0]? ≠ some slash := joinNames_head
  have hroot : copyRoot .dirent (c :: r) = ([], c :: r) := by
    have hdrive : ¬(isLetter c = true ∧ r[0]? = some colon) := fun h => hd h.1 h.2
    simp [copyRoot, hs, hdrive]
  simp [canonicalize, hroot, copySegments_eq, hjoin]

theorem svnDirentCanonicalize_of_not_drive {s : CStr}
    (h : ∀ c r, isLetter c = true → s ≠ c :: colon :: slash :: r) :
    svnDirentCanonicalize s = canonicalize .dirent s := by
  unfold svnDirentCanonicalize
  rw [if_neg]
  intro ⟨h0, h1, h2, _⟩
  match s with
  | [] => simp at h0
  | [c] => simp at h1
  | [c, d] => simp at h2
  | c :: d :: e :: r =>
    simp at h0 h1 h2
    exact h c r h0 (by rw [h1, h2])

theorem svnDirentCanonicalize_unc (r : CStr) :
    svnDirentCanonicalize (slash :: slash :: r) =
      if (pathNames r).length < 2 then slash :: joinNames (pathNames r)
      else slash :: slash :: lowerServer (joinNames (pathNames r)) := by
  rw [svnDirentCanonicalize_of_not_drive, canonicalize_unc]
  intro c r hc h
  simp at h
  exact absurd h.2.1 (by decide)

theorem svnDirentCanonicalize_rooted {r : CStr} (hr : r[0]? ≠ some slash) :
    svnDirentCanonicalize (slash :: r) = slash :: joinNames (pathNames r) := by
  rw [svnDirentCanonicalize_of_not_drive, canonicalize_slash hr]
  intro c r hc h
  simp at h
  exact isLetter_ne_slash hc h.1.symm

theorem pathNames_colon_slash (r : CStr) :
    pathNames (colon :: slash :: r) = [colon] :: pathNames r := by
  have hcolon : pathNames [colon] = [[colon]] := pathNames_word (by decide) (by decide)
  have h := pathNames_append [colon] r
  rwa [hcolon] at h

/-- A drive root keeps its separator, whether or not anything follows. -/
theorem svnDirentCanonicalize_driveRoot {c : UInt8} (hc : isLetter c = true) (r : CStr) :
    svnDirentCanonicalize (c :: colon :: slash :: r) =
      canonicalizeToUpper c :: colon :: slash :: joinNames (pathNames r) := by
  have hcanon := canonicalize_drive hc (slash :: r)
  rw [pathNames_colon_slash] at hcanon
  unfold svnDirentCanonicalize
  rw [hcanon]
  cases hn : pathNames r with
  | nil => simp [hc]
  | cons k ks =>
    obtain ⟨hk, -⟩ := mem_pathNames (s := r) (k := k) (by simp [hn])
    have hne := joinNames_cons_ne_nil ks (keepName_iff.mp hk).1
    rw [joinNames_cons (by simp), if_neg]
    · rfl
    · simpa [hc] using hne

theorem svnDirentCanonicalize_drive {c : UInt8} (hc : isLetter c = true) {r : CStr}
    (hr : r[0]? ≠ some slash) :
    svnDirentCanonicalize (c :: colon :: r) =
      canonicalizeToUpper c :: joinNames (pathNames (colon :: r)) := by
  rw [svnDirentCanonicalize_of_not_drive, canonicalize_drive hc]
  intro c' r' _ h
  simp at h
  simp [h.2] at hr

theorem svnDirentCanonicalize_relative {c : UInt8} {r : CStr} (hs : c ≠ slash)
    (hd : isLetter c = true → r[0]? ≠ some colon) :
    svnDirentCanonicalize (c :: r) = joinNames (pathNames (c :: r)) := by
  rw [svnDirentCanonicalize_of_not_drive, canonicalize_relative hs hd]
  intro c' r' hc' h
  simp at h
  exact hd (h.1 ▸ hc') (by simp [h.2])

/-- All pieces of a path are names, by where a separator or a "." can stand. -/
theorem pieces_keep_iff {s : CStr} (hne : s ≠ []) :
    (∀ w ∈ s.splitOn slash, keepName w = true) ↔
      (s[0]? ≠ some slash ∧ s.getLast? ≠ some slash ∧ ¬[slash, slash] <:+: s) ∧
        s ≠ [dot] ∧ ¬[dot, slash] <+: s ∧ ¬[slash, dot] <:+ s ∧ ¬[slash, dot, slash] <:+: s := by
  have hsplit : (∀ w ∈ s.splitOn slash, keepName w = true) ↔
      [] ∉ s.splitOn slash ∧ [dot] ∉ s.splitOn slash := by
    simp only [keepName_iff]
    constructor
    · intro h
      exact ⟨fun hm => (h _ hm).1 rfl, fun hm => (h _ hm).2 rfl⟩
    · rintro ⟨h1, h2⟩ w hw
      exact ⟨fun h => h1 (h ▸ hw), fun h => h2 (h ▸ hw)⟩
  have hhead : [slash] <+: s ↔ s[0]? = some slash := by
    cases s <;> simp [List.cons_prefix_cons, eq_comm]
  have hlast : [slash] <:+ s ↔ s.getLast? = some slash := by
    rw [← List.reverse_prefix, List.getLast?_eq_head?_reverse]
    cases s.reverse <;> simp [List.cons_prefix_cons, eq_comm]
  have hdot : slash ∉ [dot] := by decide
  have hnil : slash ∉ ([] : CStr) := by simp
  rw [hsplit, mem_splitOn_iff, mem_splitOn_iff, and_iff_right hdot, and_iff_right hnil]
  simp [hne, hhead, hlast]

theorem dotSegmentInside_iff (before : Option UInt8) (s : CStr) :
    dotSegmentInside before s = true ↔ [slash, dot, slash] <:+: before.toList ++ s := by
  induction s generalizing before with
  | nil => cases before <;> simp [dotSegmentInside, List.infix_cons_iff]
  | cons c cs ih =>
    have hhead : [slash] <+: cs ↔ cs[0]? = some slash := by
      cases cs <;> simp [List.cons_prefix_cons, eq_comm]
    rw [dotSegmentInside, Bool.or_eq_true, ih]
    cases before with
    | none => simp
    | some x =>
      rw [Option.toList_some, Option.toList_some, List.singleton_append, List.singleton_append,
        List.infix_cons_iff (a := x), List.cons_prefix_cons, List.cons_prefix_cons, hhead]
      have hcond : (c = dot && some x = some slash && cs[0]? = some slash) = true ↔
          slash = x ∧ dot = c ∧ cs[0]? = some slash := by
        simp only [Bool.and_eq_true, decide_eq_true_eq, Option.some_inj]
        constructor
        · intro ⟨⟨hc, hx⟩, hcs⟩
          exact ⟨hx.symm, hc.symm, hcs⟩
        · intro ⟨hx, hc, hcs⟩
          exact ⟨⟨hc.symm, hx.symm⟩, hcs⟩
      rw [hcond]

theorem slashesInside_iff (pattern : Nat) (x : UInt8) (hx : pattern % 0x100 = x.toNat) (s : CStr) :
    slashesInside pattern s = true ↔ [slash, slash] <:+: x :: s := by
  induction s generalizing pattern x with
  | nil => simp [slashesInside, List.infix_cons_iff]
  | cons c cs ih =>
    have hlt := c.toNat_lt
    have hwin : (pattern % 0x100 * 0x100 + c.toNat) % 0x100 = c.toNat := by omega
    have hpair : pattern % 0x100 * 0x100 + c.toNat = 0x101 * slash.toNat ↔
        slash = x ∧ slash = c := by
      rw [hx, ← UInt8.toNat_inj, ← UInt8.toNat_inj]
      have : slash.toNat = 47 := rfl
      have := x.toNat_lt
      omega
    rw [slashesInside, Bool.or_eq_true, ih _ c hwin, decide_eq_true_eq, hpair,
      List.infix_cons_iff (a := x), List.cons_prefix_cons, List.cons_prefix_cons]
    simp

theorem infix_take_last {s : CStr} {x : UInt8} (hl : s.getLast? ≠ some x) :
    [x, x] <:+: s.take (s.length - 1) ↔ [x, x] <:+: s := by
  constructor
  · exact fun h => h.trans (List.take_prefix _ _).isInfix
  · intro ⟨a, b, hs⟩
    cases hb : b.reverse with
    | nil =>
      rw [List.reverse_eq_nil_iff] at hb
      simp [← hs, hb] at hl
    | cons y b' =>
      have hb : b = b'.reverse ++ [y] := by simpa using congrArg List.reverse hb
      refine ⟨a, b'.reverse, ?_⟩
      rw [← hs, hb, ← List.append_assoc, List.length_append, List.length_singleton,
        Nat.add_sub_cancel, List.take_left]

theorem relpathIsCanonical_long {s : CStr} (hlen : 2 ≤ s.length) :
    relpathIsCanonical s = true ↔
      (s[0]? ≠ some slash ∧ s.getLast? ≠ some slash ∧ ¬[slash, slash] <:+: s) ∧
        ¬[dot, slash] <+: s ∧ ¬[slash, dot] <:+ s ∧ ¬[slash, dot, slash] <:+: s := by
  have hlast : s[s.length - 1]? = s.getLast? := by rw [List.getLast?_eq_getElem?]
  have hstart : [dot, slash] <+: s ↔ s[0]? = some dot ∧ s[1]? = some slash := by
    match s, hlen with
    | c :: d :: r, _ => simp [List.cons_prefix_cons, eq_comm]
  have hsecond : s[1]? ≠ none := by
    match s, hlen with
    | c :: d :: r, _ => simp
  have hend : [slash, dot] <:+ s ↔
      s[s.length - 1]? = some dot ∧ s[s.length - 2]? = some slash := by
    have hr0 : s.reverse[0]? = s[s.length - 1]? := List.getElem?_reverse (by omega)
    have hr1 : s.reverse[1]? = s[s.length - 2]? := List.getElem?_reverse (by omega)
    rw [← List.reverse_prefix, ← hr0, ← hr1]
    match s.reverse with
    | [] => simp
    | [c] => simp
    | c :: d :: r => simp [List.cons_prefix_cons, eq_comm]
  have hslashes : slashesInside 0 (s.take (s.length - 1)) = true ↔
      [slash, slash] <:+: s.take (s.length - 1) := by
    have hzero : slash ≠ 0 := by decide
    rw [slashesInside_iff 0 0 rfl, List.infix_cons_iff, List.cons_prefix_cons]
    simp [hzero]
  have hdots : dotSegmentInside none s = true ↔ [slash, dot, slash] <:+: s :=
    dotSegmentInside_iff none s
  have hshort : ¬s.length < 2 := by omega
  unfold relpathIsCanonical
  dsimp only
  rw [if_neg hshort]
  split_ifs with h0 h1 h2 h3
  · simp [h0]
  · have hp := hstart.mpr ⟨h1.1, h1.2.resolve_right hsecond⟩
    simp [hp]
  · obtain h2 | h2 := h2
    · rw [hlast] at h2
      simp [h2]
    · have hs := hend.mpr h2
      simp [hs]
  · simp [hdots.mp h3]
  · rw [hlast] at h2
    obtain ⟨hl, hs⟩ := not_or.mp h2
    have hp : ¬[dot, slash] <+: s := fun h => h1 ⟨(hstart.mp h).1, .inl (hstart.mp h).2⟩
    rw [← hlast, ← hend] at hs
    rw [Bool.not_eq_true', ← Bool.not_eq_true, hslashes, infix_take_last hl]
    simp [h0, hl, hp, hs, ← hdots, h3]

/-- `relpath_is_canonical` accepts the paths without an empty or "." segment. -/
theorem relpathIsCanonical_pieces (s : CStr) :
    relpathIsCanonical s = true ↔ s = [] ∨ ∀ w ∈ s.splitOn slash, keepName w = true := by
  match s with
  | [] => simp [relpathIsCanonical]
  | [c] =>
    rw [or_iff_right (by simp), pieces_keep_iff (by simp)]
    simp [relpathIsCanonical, List.infix_cons_iff, List.cons_prefix_cons, List.suffix_cons_iff]
  | c :: d :: r =>
    rw [or_iff_right (by simp), pieces_keep_iff (by simp), relpathIsCanonical_long (by simp)]
    simp

/-- A canonical relpath is its own names joined. -/
theorem relpathIsCanonical_iff (s : CStr) :
    relpathIsCanonical s = true ↔ joinNames (pathNames s) = s :=
  (relpathIsCanonical_pieces s).trans (intercalate_names_eq_self keepName_nil).symm

theorem relpathIsCanonical_joinNames {ks : List CStr}
    (h : ∀ k ∈ ks, keepName k = true ∧ slash ∉ k) : relpathIsCanonical (joinNames ks) = true := by
  rw [relpathIsCanonical_iff, pathNames_joinNames h]

theorem relpathIsCanonical_pathNames (s : CStr) :
    relpathIsCanonical (joinNames (pathNames s)) = true :=
  relpathIsCanonical_joinNames fun _ h => mem_pathNames h

theorem svnDirentIsCanonical_rooted {r : CStr} (hr : r[0]? ≠ some slash) :
    svnDirentIsCanonical (slash :: r) = relpathIsCanonical r := by
  simp [svnDirentIsCanonical, hr]

theorem svnDirentIsCanonical_relative {c : UInt8} {r : CStr} (hs : c ≠ slash)
    (hd : isLetter c = true → r[0]? ≠ some colon) :
    svnDirentIsCanonical (c :: r) = relpathIsCanonical (c :: r) := by
  have hdrive : ¬(isLetter c = true ∧ r[0]? = some colon) := fun h => hd h.1 h.2
  simp [svnDirentIsCanonical, hs, hdrive]

theorem svnDirentIsCanonical_driveRoot {c : UInt8} (hc : isUpper c = true) (r : CStr) :
    svnDirentIsCanonical (c :: colon :: slash :: r) = relpathIsCanonical r := by
  have hl : isLetter c = true := by rw [isLetter, hc, Bool.or_true]
  have hs : c ≠ slash := isLetter_ne_slash hl
  simp [svnDirentIsCanonical, hs, hl, hc]

theorem svnDirentIsCanonical_drive {c : UInt8} (hc : isUpper c = true) {r : CStr}
    (hr : r[0]? ≠ some slash) :
    svnDirentIsCanonical (c :: colon :: r) = relpathIsCanonical r := by
  have hl : isLetter c = true := by rw [isLetter, hc, Bool.or_true]
  have hs : c ≠ slash := isLetter_ne_slash hl
  simp [svnDirentIsCanonical, hs, hl, hc, hr]

theorem isLower_toLower {c : UInt8} (hc : isUpper c = true) :
    isLower (canonicalizeToLower c) = true := by
  have hr := isUpper_range hc
  have hsub : (c - 0x41).toNat = c.toNat - 0x41 :=
    UInt8.toNat_sub_of_le c 0x41 (UInt8.le_iff_toNat_le.mpr (by simpa using hr.1))
  have hadd : (c - 0x41 + 0x61).toNat = c.toNat - 0x41 + 0x61 := by
    rw [UInt8.toNat_add, hsub]
    simp
    omega
  rw [canonicalizeToLower, if_pos hc]
  simp only [isLower, UInt8.le_iff_toNat_le, hadd, Bool.and_eq_true, decide_eq_true_eq]
  simp
  omega

theorem canonicalizeToLower_of_not_upper {c : UInt8} (hc : isUpper c = false) :
    canonicalizeToLower c = c := by
  simp [canonicalizeToLower, hc]

theorem not_isUpper_of_isLower {c : UInt8} (hc : isLower c = true) : isUpper c = false := by
  rw [Bool.eq_false_iff]
  intro hu
  have := isLower_range hc
  have := isUpper_range hu
  omega

theorem not_isLower_of_isUpper {c : UInt8} (hc : isUpper c = true) : isLower c = false := by
  rw [Bool.eq_false_iff]
  intro hl
  rw [not_isUpper_of_isLower hl] at hc
  exact Bool.noConfusion hc

/-- Lowering leaves the bytes that are not letters apart. -/
theorem canonicalizeToLower_eq_iff {c d : UInt8} (hd : isLetter d = false) :
    canonicalizeToLower c = d ↔ c = d := by
  cases hc : isUpper c with
  | false => rw [canonicalizeToLower_of_not_upper hc]
  | true =>
    have hlow := isLower_toLower hc
    constructor
    · intro heq
      subst heq
      simp [isLetter, hlow] at hd
    · intro heq
      subst heq
      simp [isLetter, hc] at hd

theorem canonicalizeToLower_idem (c : UInt8) :
    canonicalizeToLower (canonicalizeToLower c) = canonicalizeToLower c := by
  cases hc : isUpper c with
  | false => rw [canonicalizeToLower_of_not_upper hc, canonicalizeToLower_of_not_upper hc]
  | true => exact canonicalizeToLower_of_not_upper (not_isUpper_of_isLower (isLower_toLower hc))

theorem canonicalizeToLower_eq_self {c : UInt8} :
    canonicalizeToLower c = c ↔ isUpper c = false := by
  constructor
  · intro h
    cases hc : isUpper c with
    | false => rfl
    | true =>
      have hlow := isLower_toLower hc
      rw [h] at hlow
      rw [← hc, not_isUpper_of_isLower hlow]
  · exact canonicalizeToLower_of_not_upper

theorem lowerServer_word {k : CStr} (hk : slash ∉ k) (r : CStr) (hr : r = [] ∨ r[0]? = some slash) :
    lowerServer (k ++ r) = k.map canonicalizeToLower ++ r := by
  have hall : ∀ c ∈ k, decide (c ≠ slash) = true := fun c hc => by
    rw [decide_eq_true_eq]
    intro heq
    subst heq
    exact hk hc
  have hend : r.takeWhile (· ≠ slash) = [] ∧ r.dropWhile (· ≠ slash) = r := by
    cases r with
    | nil => simp
    | cons c r =>
      have hc : c = slash := by simpa using hr
      simp [hc]
  rw [lowerServer, List.takeWhile_append_of_pos hall, List.dropWhile_append_of_pos hall, hend.1,
    hend.2, List.append_nil]

theorem lowerServer_joinNames {k : CStr} (hk : slash ∉ k) (ks : List CStr) :
    lowerServer (joinNames (k :: ks)) = joinNames (k.map canonicalizeToLower :: ks) := by
  cases ks with
  | nil => simpa using lowerServer_word hk [] (.inl rfl)
  | cons l ks =>
    have hl : l :: ks ≠ [] := by simp
    rw [joinNames_cons hl, joinNames_cons hl]
    exact lowerServer_word hk _ (.inr rfl)

theorem lower_keep {k : CStr} (h : keepName k = true ∧ slash ∉ k) :
    keepName (k.map canonicalizeToLower) = true ∧ slash ∉ k.map canonicalizeToLower := by
  have hdot : isLetter dot = false := by decide
  have hslash : isLetter slash = false := by decide
  obtain ⟨hkeep, hmem⟩ := h
  rw [keepName_iff] at hkeep ⊢
  refine ⟨⟨by simpa using hkeep.1, ?_⟩, ?_⟩
  · rw [ne_eq, List.map_eq_singleton_iff]
    rintro ⟨c, rfl, hc⟩
    rw [canonicalizeToLower_eq_iff hdot] at hc
    exact hkeep.2 (by rw [hc])
  · rw [List.mem_map]
    intro ⟨c, hc, hlow⟩
    rw [canonicalizeToLower_eq_iff hslash] at hlow
    exact hmem (hlow ▸ hc)

theorem svnDirentIsCanonical_unc {k l : CStr} {ks : List CStr}
    (h : ∀ n ∈ k :: l :: ks, keepName n = true ∧ slash ∉ n)
    (hk : k.map canonicalizeToLower = k) :
    svnDirentIsCanonical (slash :: slash :: joinNames (k :: l :: ks)) = true := by
  have hslash := (h k (by simp)).2
  simp [svnDirentIsCanonical, svnDirentCanonicalize_unc, pathNames_joinNames h,
    lowerServer_joinNames hslash, hk]

end SharpGit.Svn
