import SharpGit.Svn.Uri

namespace SharpGit.Svn

open Library Native

/-- "%2F" stands for a separator. -/
def plainSlashes : CStr → CStr
  | c :: d :: e :: src =>
    if c = percent && d = 0x32 && canonicalizeToUpper e = 0x46 then slash :: plainSlashes src
    else c :: plainSlashes (d :: e :: src)
  | src => src

def keepRaw (w : CStr) : Bool := keepName (percentDecode w)

/-- The segments that the canonicalizer keeps, as they are spelled. -/
def rawNames (path : CStr) : List CStr := names slash keepRaw (plainSlashes path)

/-- The path that spells names, each behind a separator. -/
def namesPath (names : List (List UInt8)) : CStr :=
  percentEncode uriCharValidity (names.flatMap (slash :: ·))

theorem uriCharValidity_percent : uriCharValidity percent = false := by decide

theorem uriCharValidity_slash : uriCharValidity slash = true := by decide

theorem upperAscii_eq : upperAscii = canonicalizeToUpper := rfl

/-- What the last loop writes is what the text decodes to, escaped where it has to be. -/
theorem normalizeUriChars_eq (src : CStr) :
    normalizeUriChars src = percentEncode uriCharValidity (percentDecode src) := by
  have hvalid (c : UInt8) : (c = slash || uriCharValidity c) = uriCharValidity c := by
    by_cases hc : c = slash
    · rw [hc]
      decide
    · simp [hc]
  induction src using normalizeUriChars.induct with
  | case1 high low src hpair ih =>
    rw [Bool.and_eq_true] at hpair
    rw [normalizeUriChars, if_pos rfl, if_pos (by rw [hpair.1, hpair.2]; rfl),
      percentDecode_escaped hpair.1 hpair.2, percentEncode_cons, ih,
      percentEscape_hexPair hpair.1 hpair.2]
    rfl
  | case2 high low src hpair ih =>
    rw [normalizeUriChars, if_pos rfl, if_neg hpair, percentDecode_plain, percentEncode_cons, ih,
      uriCharValidity_percent]
    · rfl
    · intro h l rest heq
      cases heq
      rwa [Bool.and_eq_true] at hpair
  | case3 c high low src hc ih =>
    rw [normalizeUriChars, if_neg hc, percentDecode_ne hc, percentEncode_cons, ih, hvalid]
  | case4 src hshort =>
    have hdecode : percentDecode src = src := by
      obtain rfl | ⟨c, rfl⟩ | ⟨c, d, rfl⟩ := short_cases hshort <;> rfl
    have hnormalize : normalizeUriChars src =
        src.flatMap fun c => if c = slash || uriCharValidity c then [c] else percentEscape c := by
      obtain rfl | ⟨c, rfl⟩ | ⟨c, d, rfl⟩ := short_cases hshort <;> rfl
    rw [hdecode, hnormalize, percentEncode]
    simp only [hvalid]

theorem plainSlashes_ne {c : UInt8} (h : c ≠ percent) (src : CStr) :
    plainSlashes (c :: src) = c :: plainSlashes src := by
  match src with
  | [] => rfl
  | [_] => rfl
  | _ :: _ :: _ => simp [plainSlashes, h]

theorem uriSegments_eq (src : CStr) : uriSegments src = segments slash (plainSlashes src) := by
  induction src using uriSegments.induct with
  | case1 d e src ih =>
    rw [uriSegments, if_pos rfl, plainSlashes_ne (by decide), segments, if_pos rfl, ih]
  | case2 c d e src hc hslash ih =>
    rw [uriSegments, if_neg hc, if_pos hslash, plainSlashes, if_pos hslash, segments, if_pos rfl,
      ih]
  | case3 c d e src hc hslash hnil ih =>
    rw [uriSegments, if_neg hc, if_neg hslash, plainSlashes, if_neg hslash, segments, if_neg hc,
      ← ih, hnil]
  | case4 c d e src hc hslash seg closed rest hrest ih =>
    rw [uriSegments, if_neg hc, if_neg hslash, plainSlashes, if_neg hslash, segments, if_neg hc,
      ← ih, hrest]
  | case5 src hshort =>
    obtain rfl | ⟨c, rfl⟩ | ⟨c, d, rfl⟩ := short_cases hshort <;> rfl

theorem percentEscape_injective {b c : UInt8} (h : percentEscape b = percentEscape c) : b = c := by
  have hdecode := congrArg percentDecode h
  rw [← List.append_nil (percentEscape b), ← List.append_nil (percentEscape c),
    percentDecode_escape, percentDecode_escape] at hdecode
  exact (List.cons.inj hdecode).1

/-- A pair of digits reads as in the code: the first is a digit proper, the second in any case. -/
theorem hexPair_eq {high low b : UInt8} (hhigh : isHexDigit high = true)
    (hlow : isHexDigit low = true) :
    UInt8.ofNat (hexValue high * 16 + hexValue low) = b ↔
      [percent, canonicalizeToUpper high, canonicalizeToUpper low] = percentEscape b := by
  rw [← upperAscii_eq, ← percentEscape_hexPair hhigh hlow]
  exact ⟨congrArg percentEscape, percentEscape_injective⟩

theorem toUpper_eq_two {c : UInt8} : canonicalizeToUpper c = 0x32 ↔ c = 0x32 := by
  have hall : ∀ n < 256, canonicalizeToUpper (UInt8.ofNat n) = 0x32 ↔ UInt8.ofNat n = 0x32 := by
    decide +kernel
  have hc := hall c.toNat c.toNat_lt
  rwa [UInt8.ofNat_toNat] at hc

theorem isHexDigit_of_toUpper {c : UInt8} (h : isUpperHexDigit (canonicalizeToUpper c) = true) :
    isHexDigit c = true := by
  have hall : ∀ n < 256, isUpperHexDigit (canonicalizeToUpper (UInt8.ofNat n)) = true →
      isHexDigit (UInt8.ofNat n) = true := by
    decide +kernel
  have hc := hall c.toNat c.toNat_lt
  rw [UInt8.ofNat_toNat] at hc
  exact hc h

theorem isNoopSegment_eq (seg : CStr) : isNoopSegment seg = !keepRaw seg := by
  unfold keepRaw
  match seg with
  | [] => rfl
  | [c] => simp [isNoopSegment, percentDecode, keepName]
  | [c, d] => simp [isNoopSegment, percentDecode, keepName]
  | c :: high :: low :: rest =>
    by_cases hescape : c = percent ∧ isHexDigit high = true ∧ isHexDigit low = true
    · obtain ⟨rfl, hhigh, hlow⟩ := hescape
      have hdot := @hexPair_eq high low dot hhigh hlow
      have hspelled : percentEscape dot = [percent, 0x32, 0x45] := by decide
      rw [hspelled] at hdot
      simp only [List.cons.injEq, true_and, and_true, toUpper_eq_two] at hdot
      rw [percentDecode_escaped hhigh hlow]
      generalize UInt8.ofNat (hexValue high * 16 + hexValue low) = val at hdot ⊢
      rw [Bool.eq_iff_iff]
      simp [isNoopSegment, keepName, percentDecode_eq_nil, hdot]
      tauto
    · have hdecode : percentDecode (c :: high :: low :: rest) =
          c :: percentDecode (high :: low :: rest) := by
        rw [percentDecode, if_neg]
        simpa [and_assoc] using hescape
      have hne : percentDecode (high :: low :: rest) ≠ [] := by
        rw [Ne, percentDecode_eq_nil]
        exact List.cons_ne_nil _ _
      have hnoop : isNoopSegment (c :: high :: low :: rest) = false := by
        rw [← Bool.not_eq_true]
        intro hnoop
        simp [isNoopSegment] at hnoop
        obtain ⟨⟨⟨-, rfl⟩, rfl⟩, hlow⟩ := hnoop
        refine hescape ⟨rfl, by decide, isHexDigit_of_toUpper ?_⟩
        rw [hlow]
        decide
      rw [hnoop, hdecode]
      simp [keepName, hne]

theorem isHexDigit_ne {c : UInt8} (h : isHexDigit c = true) : c ≠ percent ∧ c ≠ slash := by
  refine ⟨?_, ?_⟩
  · rintro rfl
    exact absurd h (by decide)
  · rintro rfl
    exact absurd h (by decide)

/-- The first piece starts as the text does, if it is not empty. -/
theorem plainSlashes_first {b c : UInt8} {src w : CStr} {ws : List CStr}
    (h : (plainSlashes (b :: src)).splitOn slash = (c :: w) :: ws) : c = b := by
  have hcons (rest : CStr) (h : (b :: rest).splitOn slash = (c :: w) :: ws) : c = b := by
    by_cases hb : b = slash
    · subst hb
      rw [splitOn_cons_self] at h
      cases h
    · rw [splitOn_cons_ne hb] at h
      obtain ⟨v, vs, hpieces⟩ := List.exists_cons_of_ne_nil (List.splitOn_ne_nil slash rest)
      rw [hpieces, List.modifyHead_cons] at h
      exact (List.cons.inj (List.cons.inj h).1).1.symm
  match src with
  | [] => exact hcons [] h
  | [d] => exact hcons [d] h
  | d :: e :: src =>
    rw [plainSlashes] at h
    split_ifs at h with hslash
    · rw [splitOn_cons_self] at h
      cases h
    · exact hcons _ h

/-- A '%' that starts no escape starts none in its piece either. -/
theorem percentDecode_piece {high low : UInt8} {src w : CStr} {ws : List CStr}
    (hplain : ¬(isHexDigit high = true ∧ isHexDigit low = true))
    (h : (plainSlashes (high :: low :: src)).splitOn slash = w :: ws) :
    percentDecode (percent :: w) = percent :: percentDecode w := by
  refine percentDecode_plain ?_
  rintro c d rest rfl ⟨hc, hd⟩
  obtain rfl := plainSlashes_first h
  obtain ⟨hpercent, hslash⟩ := isHexDigit_ne hc
  rw [plainSlashes_ne hpercent, splitOn_cons_ne hslash] at h
  obtain ⟨v, vs, hpieces⟩ :=
    List.exists_cons_of_ne_nil (List.splitOn_ne_nil slash (plainSlashes (low :: src)))
  rw [hpieces, List.modifyHead_cons] at h
  obtain rfl : v = d :: rest := (List.cons.inj (List.cons.inj h).1).2
  obtain rfl := plainSlashes_first hpieces
  exact hplain ⟨hc, hd⟩

/-- Splitting and decoding commute, as a separator can be escaped. -/
theorem percentDecode_splitOn (src : CStr) :
    (percentDecode src).splitOn slash =
      ((plainSlashes src).splitOn slash).map percentDecode := by
  have hspelled : percentEscape slash = [percent, 0x32, 0x46] := by decide
  induction src using percentDecode.induct with
  | case1 c high low src hescape ih =>
    simp only [Bool.and_eq_true, decide_eq_true_eq] at hescape
    obtain ⟨⟨rfl, hhigh⟩, hlow⟩ := hescape
    have hval := @hexPair_eq high low slash hhigh hlow
    rw [hspelled] at hval
    simp only [List.cons.injEq, true_and, and_true, toUpper_eq_two] at hval
    rw [percentDecode_escaped hhigh hlow, plainSlashes]
    by_cases hslash : UInt8.ofNat (hexValue high * 16 + hexValue low) = slash
    · obtain ⟨rfl, hupper⟩ := hval.mp hslash
      rw [hslash, if_pos (by simp [hupper]), splitOn_cons_self, splitOn_cons_self, ih]
      rfl
    · have hne : ¬(high = 0x32 ∧ canonicalizeToUpper low = 0x46) := fun h => hslash (hval.mpr h)
      rw [if_neg (by simpa using hne), splitOn_cons_ne hslash, ih,
        plainSlashes_ne (isHexDigit_ne hhigh).1, plainSlashes_ne (isHexDigit_ne hlow).1,
        splitOn_cons_ne (by decide), splitOn_cons_ne (isHexDigit_ne hhigh).2,
        splitOn_cons_ne (isHexDigit_ne hlow).2]
      obtain ⟨w, ws, hpieces⟩ :=
        List.exists_cons_of_ne_nil (List.splitOn_ne_nil slash (plainSlashes src))
      simp [hpieces, percentDecode_escaped hhigh hlow]
  | case2 c high low src hescape ih =>
    have hnot : ¬(c = percent && high = 0x32 && canonicalizeToUpper low = 0x46) = true := by
      intro hslash
      simp only [Bool.and_eq_true, decide_eq_true_eq] at hslash
      obtain ⟨⟨rfl, rfl⟩, hupper⟩ := hslash
      have hlow : isHexDigit low = true := by
        apply isHexDigit_of_toUpper
        rw [hupper]
        decide
      exact hescape (by simp [hlow]; decide)
    rw [percentDecode, if_neg hescape, plainSlashes, if_neg hnot]
    by_cases hc : c = slash
    · subst hc
      rw [splitOn_cons_self, splitOn_cons_self, ih]
      rfl
    · rw [splitOn_cons_ne hc, splitOn_cons_ne hc, ih]
      obtain ⟨w, ws, hpieces⟩ := List.exists_cons_of_ne_nil
        (List.splitOn_ne_nil slash (plainSlashes (high :: low :: src)))
      rw [hpieces, List.map_cons, List.modifyHead_cons, List.modifyHead_cons, List.map_cons]
      by_cases hpercent : c = percent
      · subst hpercent
        have hplain : ¬(isHexDigit high = true ∧ isHexDigit low = true) := by
          simpa using hescape
        rw [percentDecode_piece hplain hpieces]
      · rw [percentDecode_ne hpercent]
  | case3 src hshort =>
    obtain rfl | ⟨c, rfl⟩ | ⟨c, d, rfl⟩ := short_cases hshort
    · rfl
    · by_cases hc : c = slash
      · rw [hc]
        decide
      · simp [percentDecode, plainSlashes, splitOn_cons_ne hc]
    · by_cases hc : c = slash <;> by_cases hd : d = slash <;>
        simp [percentDecode, plainSlashes, splitOn_cons_ne, splitOn_cons_self, hc, hd]

/-- What the canonicalizer keeps decodes to the names of the decoded path. -/
theorem map_rawNames (path : CStr) :
    (rawNames path).map percentDecode = pathNames (percentDecode path) := by
  rw [rawNames, pathNames, names, names, percentDecode_splitOn, List.filter_map]
  rfl

def keepsSegment (seg : CStr × Bool) : Bool := keepRaw seg.1

/-- Behind the first segment of a file URI, and in a text that is no URL, nothing is changed. -/
theorem foldl_appendUriSegment {url : Bool} {n : Nat} (h : url = false ∨ 1 < n)
    (segs : List (CStr × Bool)) (dst : CStr) :
    segs.foldl (appendUriSegment url) (dst, n) =
      (dst ++ spell slash (segs.filter keepsSegment), n + (segs.filter keepsSegment).length) := by
  induction segs generalizing dst n with
  | nil => simp [spell]
  | cons seg segs ih =>
    rw [List.foldl_cons]
    cases hk : keepsSegment seg with
    | true =>
      have hnot : ¬(url && n = 1 && fileScheme.isPrefixOf dst) = true := by
        rcases h with h | h
        · simp [h]
        · simp [show n ≠ 1 by omega]
      have hstep : appendUriSegment url (dst, n) seg =
          (dst ++ seg.1 ++ (if seg.2 then [slash] else []), n + 1) := by
        rw [keepsSegment] at hk
        rw [appendUriSegment, isNoopSegment_eq, hk, if_neg (by decide)]
        dsimp only
        rw [if_neg hnot]
      rw [hstep, ih (h.imp_right fun h => by omega), List.filter_cons_of_pos hk]
      simp [spell, Nat.add_assoc, Nat.add_comm 1]
    | false =>
      have hstep : appendUriSegment url (dst, n) seg = (dst, n) := by
        rw [keepsSegment] at hk
        rw [appendUriSegment, isNoopSegment_eq, hk, if_pos (by decide)]
      rw [hstep, ih h, List.filter_cons_of_neg (by rw [hk]; decide)]

/-- The drive letter in front is in upper case, in a file URI. -/
def withDrive (canon : CStr) (names : List CStr) : List CStr :=
  if fileScheme.isPrefixOf canon then names.modifyHead upperDrive else names

def segmentsWithDrive (canon : CStr) : List (CStr × Bool) → List (CStr × Bool)
  | [] => []
  | seg :: segs =>
    (if fileScheme.isPrefixOf canon then upperDrive seg.1 else seg.1, seg.2) :: segs

theorem map_segmentsWithDrive (canon : CStr) (segs : List (CStr × Bool)) :
    (segmentsWithDrive canon segs).map Prod.fst = withDrive canon (segs.map Prod.fst) := by
  cases segs with
  | nil => simp [segmentsWithDrive, withDrive]
  | cons seg segs =>
    unfold segmentsWithDrive withDrive
    split_ifs <;> rfl

theorem foldl_appendUriSegment_url (segs : List (CStr × Bool)) (front : CStr) :
    (segs.foldl (appendUriSegment true) (front, 1)).1 =
      front ++ spell slash (segmentsWithDrive front (segs.filter keepsSegment)) := by
  induction segs with
  | nil => simp [spell, segmentsWithDrive]
  | cons seg segs ih =>
    rw [List.foldl_cons]
    cases hk : keepsSegment seg with
    | true =>
      have hstep : appendUriSegment true (front, 1) seg =
          (front ++ (if fileScheme.isPrefixOf front then upperDrive seg.1 else seg.1) ++
            (if seg.2 then [slash] else []), 2) := by
        rw [keepsSegment] at hk
        rw [appendUriSegment, isNoopSegment_eq, hk, if_neg (by decide)]
        rfl
      rw [hstep, foldl_appendUriSegment (.inr (by decide)), List.filter_cons_of_pos hk]
      simp [spell, segmentsWithDrive]
    | false =>
      have hstep : appendUriSegment true (front, 1) seg = (front, 1) := by
        rw [keepsSegment] at hk
        rw [appendUriSegment, isNoopSegment_eq, hk, if_pos (by decide)]
      rw [hstep, ih, List.filter_cons_of_neg (by rw [hk]; decide)]

theorem upperDrive_cases (w : CStr) :
    upperDrive w = w ∨ ∃ c rest, isLower c = true ∧ w = c :: colon :: rest ∧
      upperDrive w = canonicalizeToUpper c :: colon :: rest := by
  cases w with
  | nil => exact .inl rfl
  | cons c w =>
    cases w with
    | nil => exact .inl rfl
    | cons d rest =>
      unfold upperDrive
      dsimp only
      split_ifs with hdrive
      · simp only [Bool.and_eq_true, decide_eq_true_eq] at hdrive
        obtain ⟨hc, rfl⟩ := hdrive
        exact .inr ⟨c, rest, hc, rfl, rfl⟩
      · exact .inl rfl

theorem isLetter_of_lower {c : UInt8} (h : isLower c = true) : isLetter c = true := by
  rw [isLetter, h, Bool.true_or]

/-- A drive letter in upper case leaves a name without separators. -/
theorem upperDrive_name {w : CStr} (h : w ≠ [] ∧ slash ∉ w) :
    upperDrive w ≠ [] ∧ slash ∉ upperDrive w := by
  obtain heq | ⟨c, rest, hc, rfl, heq⟩ := upperDrive_cases w
  · rwa [heq]
  · rw [heq]
    refine ⟨List.cons_ne_nil _ _, ?_⟩
    have hletter := isLetter_toUpper (isLetter_of_lower hc)
    have hslash := h.2
    rw [List.mem_cons, not_or] at hslash ⊢
    exact ⟨(isLetter_ne_slash hletter).symm, hslash.2⟩

theorem map_keptSegments (src : CStr) :
    ((uriSegments src).filter keepsSegment).map Prod.fst = rawNames src := by
  rw [rawNames, ← segments_names slash _ (by decide), List.filter_map, uriSegments_eq]
  rfl

theorem mem_rawNames {src w : CStr} (h : w ∈ rawNames src) : w ≠ [] ∧ slash ∉ w := by
  obtain ⟨hkeep, hslash⟩ := mem_names h
  refine ⟨?_, hslash⟩
  rintro rfl
  exact absurd hkeep (by decide)

/-- What holds of the names, and of one with its drive letter in upper case, holds of all. -/
theorem withDrive_of {P : CStr → Prop} {canon src w : CStr} (hraw : ∀ v ∈ rawNames src, P v)
    (hupper : ∀ v ∈ rawNames src, P (upperDrive v)) (h : w ∈ withDrive canon (rawNames src)) :
    P w := by
  unfold withDrive at h
  split_ifs at h
  · cases hnames : rawNames src with
    | nil =>
      rw [hnames] at h
      cases h
    | cons first rest =>
      rw [hnames, List.modifyHead_cons] at h
      rw [hnames] at hraw hupper
      obtain rfl | h := List.mem_cons.mp h
      · exact hupper first List.mem_cons_self
      · exact hraw w (List.mem_cons_of_mem first h)
  · exact hraw w h

theorem mem_withDrive {canon src w : CStr} (h : w ∈ withDrive canon (rawNames src)) :
    w ≠ [] ∧ slash ∉ w :=
  withDrive_of (fun _ hv => mem_rawNames hv) (fun _ hv => upperDrive_name (mem_rawNames hv)) h

theorem letter_ne_percent {c : UInt8} (h : isLetter c = true) : c ≠ percent := by
  rintro rfl
  exact absurd h (by decide)

theorem percentDecode_drive {c : UInt8} (hc : isLetter c = true) (rest : CStr) :
    percentDecode (c :: colon :: rest) = c :: colon :: percentDecode rest := by
  rw [percentDecode_ne (letter_ne_percent hc), percentDecode_ne (by decide)]

/-- A name stays one under its drive letter in upper case. -/
theorem decoded_upperDrive {w : CStr}
    (h : keepName (percentDecode w) = true ∧ slash ∉ percentDecode w) :
    keepName (percentDecode (upperDrive w)) = true ∧ slash ∉ percentDecode (upperDrive w) := by
  obtain heq | ⟨c, rest, hc, rfl, heq⟩ := upperDrive_cases w
  · rwa [heq]
  · have hletter := isLetter_of_lower hc
    have hupper := isLetter_toUpper hletter
    have hslash := h.2
    rw [percentDecode_drive hletter, List.mem_cons, not_or] at hslash
    rw [heq, percentDecode_drive hupper]
    refine ⟨by simp [keepName], ?_⟩
    rw [List.mem_cons, not_or]
    exact ⟨(isLetter_ne_slash hupper).symm, hslash.2⟩

theorem decoded_rawNames {src w : CStr} (h : w ∈ rawNames src) :
    keepName (percentDecode w) = true ∧ slash ∉ percentDecode w := by
  apply @mem_pathNames (percentDecode src)
  rw [← map_rawNames]
  exact List.mem_map_of_mem h

theorem decoded_withDrive {canon src w : CStr} (h : w ∈ withDrive canon (rawNames src)) :
    keepName (percentDecode w) = true ∧ slash ∉ percentDecode w :=
  @withDrive_of (fun w => keepName (percentDecode w) = true ∧ slash ∉ percentDecode w) canon src w
    (fun _ hv => decoded_rawNames hv) (fun _ hv => decoded_upperDrive (decoded_rawNames hv)) h

/-- The kept segments, spelled and chopped, are the raw names. -/
theorem chop_segmentsWithDrive (canon src : CStr) :
    chop slash (spell slash (segmentsWithDrive canon
      ((uriSegments src).filter keepsSegment))) =
        joinNames (withDrive canon (rawNames src)) := by
  have hclosed := segments_closed slash (plainSlashes src)
  rw [← uriSegments_eq] at hclosed
  have hkept := hclosed.filter keepsSegment
  have hmap := map_segmentsWithDrive canon ((uriSegments src).filter keepsSegment)
  rw [map_keptSegments] at hmap
  rw [joinNames, ← hmap]
  apply chop_spell
  · cases hsegs : (uriSegments src).filter keepsSegment with
    | nil => exact List.Pairwise.nil
    | cons seg segs =>
      rw [hsegs, List.pairwise_cons] at hkept
      exact List.pairwise_cons.mpr hkept
  · intro seg hseg
    apply @mem_withDrive canon src
    rw [← hmap]
    exact List.mem_map_of_mem hseg

theorem percentDecode_joinNames (ws : List CStr) :
    percentDecode (joinNames ws) = joinNames (ws.map percentDecode) := by
  induction ws with
  | nil => rfl
  | cons w ws ih =>
    cases ws with
    | nil => rw [joinNames_singleton, List.map_singleton, joinNames_singleton]
    | cons v ws =>
      have hcons := @joinNames_cons (percentDecode w) ((v :: ws).map percentDecode) (by simp)
      rw [joinNames_cons (List.cons_ne_nil v ws), percentDecode_append (by decide) (by decide), ih]
      exact hcons.symm

theorem percentEncode_joinNames (ws : List CStr) :
    percentEncode uriCharValidity (joinNames ws) =
      joinNames (ws.map (percentEncode uriCharValidity)) := by
  induction ws with
  | nil => rfl
  | cons w ws ih =>
    cases ws with
    | nil => rw [joinNames_singleton, List.map_singleton, joinNames_singleton]
    | cons v ws =>
      have hcons := @joinNames_cons (percentEncode uriCharValidity w)
        ((v :: ws).map (percentEncode uriCharValidity)) (by simp)
      rw [joinNames_cons (List.cons_ne_nil v ws), percentEncode_append, percentEncode_cons, ih,
        uriCharValidity_slash]
      exact hcons.symm

theorem flatMap_slash {ws : List CStr} (h : ws ≠ []) :
    ws.flatMap (slash :: ·) = slash :: joinNames ws := by
  induction ws with
  | nil => exact absurd rfl h
  | cons w ws ih =>
    cases ws with
    | nil => simp
    | cons v ws =>
      rw [List.flatMap_cons, ih (List.cons_ne_nil v ws), joinNames_cons (List.cons_ne_nil v ws)]
      rfl

theorem namesPath_nil : namesPath [] = [] := rfl

theorem namesPath_eq {ws : List CStr} (h : ws ≠ []) :
    namesPath ws = slash :: joinNames (ws.map (percentEncode uriCharValidity)) := by
  rw [namesPath, flatMap_slash h, percentEncode_cons, uriCharValidity_slash,
    percentEncode_joinNames]
  rfl

/-- Escaped text has no separator in disguise. -/
theorem plainSlashes_percentEncode (bytes : List UInt8) :
    plainSlashes (percentEncode uriCharValidity bytes) = percentEncode uriCharValidity bytes := by
  induction bytes with
  | nil => rfl
  | cons b bytes ih =>
    rw [percentEncode_cons]
    split_ifs with hb
    · have hne : b ≠ percent := by
        rintro rfl
        rw [uriCharValidity_percent] at hb
        cases hb
      rw [List.singleton_append, plainSlashes_ne hne, ih]
    · have hlt := b.toNat_lt
      obtain ⟨hhigh, hupper, -⟩ := @isHexDigit_upperHexDigit (b.toNat / 16) (by omega)
      obtain ⟨hlow, hlower, -⟩ := @isHexDigit_upperHexDigit (b.toNat % 16) (by omega)
      have hnot : ¬(upperHexDigit (b.toNat / 16) = 0x32 ∧
          canonicalizeToUpper (upperHexDigit (b.toNat % 16)) = 0x46) := by
        rintro ⟨htwo, hF⟩
        rw [canonicalizeToUpper, hlower, if_neg Bool.false_ne_true] at hF
        apply hb
        obtain rfl : b = slash := by
          apply percentEscape_injective
          rw [percentEscape, htwo, hF]
          decide
        exact uriCharValidity_slash
      change plainSlashes (percent :: _ :: _ :: percentEncode uriCharValidity bytes) = _
      rw [plainSlashes, if_neg (by simpa using hnot), plainSlashes_ne (isHexDigit_ne hhigh).1,
        plainSlashes_ne (isHexDigit_ne hlow).1, ih]
      rfl

/-- What no escape is made of stands in the text only for itself. -/
theorem mem_percentEncode {d : UInt8} (hpercent : d ≠ percent) (hhex : isHexDigit d = false)
    {bytes : List UInt8} :
    d ∈ percentEncode uriCharValidity bytes ↔ uriCharValidity d = true ∧ d ∈ bytes := by
  rw [percentEncode, List.mem_flatMap]
  constructor
  · rintro ⟨b, hb, hd⟩
    split_ifs at hd with hvalid
    · obtain rfl := List.mem_singleton.mp hd
      exact ⟨hvalid, hb⟩
    · have hlt := b.toNat_lt
      have hhigh := (@isHexDigit_upperHexDigit (b.toNat / 16) (by omega)).1
      have hlow := (@isHexDigit_upperHexDigit (b.toNat % 16) (by omega)).1
      simp only [percentEscape, List.mem_cons, List.not_mem_nil, or_false] at hd
      obtain rfl | rfl | rfl := hd
      · exact absurd rfl hpercent
      · rw [hhigh] at hhex
        cases hhex
      · rw [hlow] at hhex
        cases hhex
  · rintro ⟨hvalid, h⟩
    refine ⟨d, h, ?_⟩
    rw [if_pos hvalid]
    exact List.mem_singleton_self d

theorem slash_mem_percentEncode {bytes : List UInt8} :
    slash ∈ percentEncode uriCharValidity bytes ↔ slash ∈ bytes := by
  rw [mem_percentEncode (by decide) (by decide)]
  exact and_iff_right uriCharValidity_slash

theorem rawNames_namesPath {ws : List CStr} (h : ∀ w ∈ ws, keepName w = true ∧ slash ∉ w) :
    rawNames (namesPath ws) = ws.map (percentEncode uriCharValidity) := by
  have hkeep : keepRaw [] = false := rfl
  cases ws with
  | nil => rfl
  | cons w ws =>
    have hsplit : namesPath (w :: ws) =
        [] ++ slash :: joinNames ((w :: ws).map (percentEncode uriCharValidity)) :=
      namesPath_eq (List.cons_ne_nil w ws)
    have hplain : plainSlashes (namesPath (w :: ws)) = namesPath (w :: ws) :=
      plainSlashes_percentEncode _
    rw [rawNames, hplain, hsplit, names_append, names_nil hkeep, List.nil_append, joinNames,
      names_intercalate hkeep]
    intro k hk
    obtain ⟨v, hv, rfl⟩ := List.mem_map.mp hk
    rw [keepRaw, percentDecode_percentEncode uriCharValidity_percent, slash_mem_percentEncode]
    exact h v hv

end SharpGit.Svn
