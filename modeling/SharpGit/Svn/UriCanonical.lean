import Mathlib.Algebra.Group.Nat.Defs
import SharpGit.Svn.AbsoluteUri

namespace SharpGit.Svn

open Library Native

def digitValue (c : UInt8) : Nat := c.toNat - 0x30

/-- The number that the digits give, of any length. -/
def portValue (digits : CStr) : Nat := digits.foldl (fun port c => 10 * port + digitValue c) 0

theorem foldl_port (digits : CStr) (n : Nat) :
    digits.foldl (fun port c => 10 * port + BitVec.ofNat 64 (c.toNat - 0x30)) (BitVec.ofNat 64 n) =
      BitVec.ofNat 64 (digits.foldl (fun port c => 10 * port + digitValue c) n) := by
  induction digits generalizing n with
  | nil => rfl
  | cons c digits ih =>
    have hstep : 10 * BitVec.ofNat 64 n + BitVec.ofNat 64 (c.toNat - 0x30) =
        BitVec.ofNat 64 (10 * n + digitValue c) := by
      rw [BitVec.ofNat_add, BitVec.ofNat_mul]
      rfl
    rw [List.foldl_cons, hstep, ih, List.foldl_cons]

/-- The check counts in 64 bits. -/
theorem portNumber_eq_iff {digits : CStr} {n : Nat} (hn : n < 2 ^ 64) :
    portNumber digits = BitVec.ofNat 64 n ↔ portValue digits % 2 ^ 64 = n := by
  have hfold : portNumber digits = BitVec.ofNat 64 (portValue digits) := foldl_port digits 0
  rw [hfold, ← BitVec.toNat_inj, BitVec.toNat_ofNat, BitVec.toNat_ofNat, Nat.mod_eq_of_lt hn]

section Check

variable {host port path rest : CStr}

theorem any_isUpper_map (text : CStr) : (text.map canonicalizeToLower).any isUpper = false := by
  rw [List.any_map, List.any_eq_false]
  intro c _
  rw [Function.comp_apply, isUpper_toLower]
  exact Bool.false_ne_true

theorem canonicalHost_spell (h : IsHost host) (hplain : PlainHost host)
    (hlower : host.any isUpper = false)
    (hrest : GoesOn (fun c => c = slash ∨ c = colon) rest) :
    canonicalHost (host ++ rest) = some rest := by
  cases h with
  | name text hslash hcolon hat hbracket =>
    rw [canonicalHost, if_neg (name_not_bracket hbracket hrest)]
    dsimp only
    rw [takeWhile_name hslash hcolon hrest, hlower, List.drop_left]
    rfl
  | literal text hslash hat hbracket =>
    rw [List.cons_append, List.any_cons, List.any_append, Bool.or_eq_false_iff,
      Bool.or_eq_false_iff, List.any_eq_false] at hlower
    have hdrop : (text ++ ([rightBracket] ++ rest)).dropWhile
        (fun c => isAddressChar c && !isUpper c) = [rightBracket] ++ rest := by
      apply dropWhile_stop
      · intro c hc
        rw [hplain text rfl c hc, Bool.eq_false_iff.mpr (hlower.2.1 c hc)]
        rfl
      · intro c hc
        obtain rfl := Option.some.inj hc
        decide
    have hclosed : ([rightBracket] ++ rest)[0]? = some rightBracket := rfl
    rw [List.cons_append, List.cons_append, List.append_assoc, canonicalHost,
      if_pos List.getElem?_cons_zero]
    dsimp only [List.tail_cons]
    rw [hdrop, if_pos hclosed]
    rfl

/-- A port with the number of the default one. -/
def DefaultNumber (uri port : CStr) : Prop :=
  ∃ digits, port = colon :: digits ∧
    ((portNumber digits = 80 ∧ httpScheme.isPrefixOf uri = true) ∨
      (portNumber digits = 443 ∧ httpsScheme.isPrefixOf uri = true) ∨
      (portNumber digits = 3690 ∧ svnScheme.isPrefixOf uri = true))

/-- A port that the canonicalizer leaves passes, unless it is another spelling of the default
one. -/
theorem canonicalPort_spell (h : IsPort port) (hpath : GoesOn (· = slash) path) {uri : CStr}
    (hempty : port ≠ [colon]) :
    (DefaultNumber uri port ∧ canonicalPort uri (port ++ path) = none) ∨
      (¬DefaultNumber uri port ∧ canonicalPort uri (port ++ path) = some path) := by
  cases h with
  | none =>
    have hnot : ¬path[0]? = some colon := by
      intro hc
      exact absurd (hpath colon hc) (by decide)
    right
    refine ⟨?_, ?_⟩
    · rintro ⟨digits, hdigits, -⟩
      cases hdigits
    · rw [List.nil_append, canonicalPort, if_neg hnot]
  | number digits hdigits =>
    have hne : digits ≠ [] := by
      rintro rfl
      exact hempty rfl
    have hstop : ∀ c, path[0]? = some c → isDigit c = false := by
      intro c hc
      rw [hpath c hc]
      decide
    have hcolon : (colon :: digits ++ path)[0]? = some colon := rfl
    have hdropPath : path.dropWhile (· ≠ slash) = path :=
      @dropWhile_stop (· ≠ slash) [] path (by simp) fun c hc =>
        decide_eq_false (not_not.mpr (hpath c hc))
    have hnotEmpty : ¬(digits = [] && path.headD slash = slash) = true := by
      simp [hne]
    have hnumber : DefaultNumber uri (colon :: digits) ↔
        (portNumber digits = 80 ∧ httpScheme.isPrefixOf uri = true) ∨
          (portNumber digits = 443 ∧ httpsScheme.isPrefixOf uri = true) ∨
          (portNumber digits = 3690 ∧ svnScheme.isPrefixOf uri = true) := by
      constructor
      · rintro ⟨other, hother, hnumber⟩
        obtain rfl := (List.cons.inj hother).2
        exact hnumber
      · exact fun hnumber => ⟨digits, rfl, hnumber⟩
    rw [hnumber, canonicalPort, if_pos hcolon, List.cons_append]
    dsimp only [List.tail_cons]
    rw [takeWhile_stop hdigits hstop, List.drop_left, if_neg hnotEmpty, hdropPath]
    simp only [Bool.and_eq_true, decide_eq_true_iff]
    by_cases h80 : portNumber digits = 80 ∧ httpScheme.isPrefixOf uri = true
    · exact .inl ⟨.inl h80, if_pos h80⟩
    rw [if_neg h80]
    by_cases h443 : portNumber digits = 443 ∧ httpsScheme.isPrefixOf uri = true
    · exact .inl ⟨.inr (.inl h443), if_pos h443⟩
    rw [if_neg h443]
    by_cases h3690 : portNumber digits = 3690 ∧ svnScheme.isPrefixOf uri = true
    · exact .inl ⟨.inr (.inr h3690), if_pos h3690⟩
    rw [if_neg h3690]
    right
    refine ⟨?_, rfl⟩
    rintro (hnumber | hnumber | hnumber)
    · exact h80 hnumber
    · exact h443 hnumber
    · exact h3690 hnumber

theorem uriSegmentsCanonical_word {w : CStr} (hslash : slash ∉ w) (hne : w ≠ []) (seg : CStr)
    (before : Option UInt8) (rest : CStr) :
    uriSegmentsCanonical seg before (w ++ rest) =
      uriSegmentsCanonical (seg ++ w) w.getLast? rest := by
  induction w generalizing seg before with
  | nil => exact absurd rfl hne
  | cons c w ih =>
    rw [List.mem_cons, not_or] at hslash
    rw [List.cons_append, uriSegmentsCanonical, if_neg (Ne.symm hslash.1)]
    cases w with
    | nil => rfl
    | cons d w =>
      rw [ih hslash.2 (List.cons_ne_nil d w), List.append_assoc, List.singleton_append,
        List.getLast?_cons_cons]

/-- Names joined by separators have no piece that does not belong there. -/
theorem uriSegmentsCanonical_joinNames {ws : List CStr} (hne : ws ≠ [])
    (h : ∀ w ∈ ws, keepName w = true ∧ slash ∉ w) (before : Option UInt8) :
    uriSegmentsCanonical [] before (joinNames ws) = true := by
  induction ws generalizing before with
  | nil => exact absurd rfl hne
  | cons w ws ih =>
    obtain ⟨hkeep, hslash⟩ := h w List.mem_cons_self
    obtain ⟨hw, hdot⟩ := keepName_iff.mp hkeep
    cases ws with
    | nil =>
      have hlast : w.getLast? ≠ some slash := fun hlast => hslash (List.mem_of_getLast? hlast)
      have hword := uriSegmentsCanonical_word hslash hw [] before []
      rw [List.append_nil] at hword
      rw [joinNames_singleton, hword]
      simp [uriSegmentsCanonical, hdot, hlast]
    | cons v ws =>
      have hrest := fun w' hw' => h w' (List.mem_cons_of_mem w hw')
      have hhead := joinNames_relative hrest
      rw [joinNames_cons (List.cons_ne_nil v ws), uriSegmentsCanonical_word hslash hw,
        uriSegmentsCanonical, if_pos rfl, ih (List.cons_ne_nil v ws) hrest]
      simp [hdot, hhead]

theorem uriCharsCanonical_ne {c : UInt8} (h : c ≠ percent) (ptr : CStr) :
    uriCharsCanonical (c :: ptr) = ((c = slash || uriCharValidity c) && uriCharsCanonical ptr) := by
  cases ptr with
  | nil => simp [uriCharsCanonical]
  | cons d ptr =>
    cases ptr with
    | nil => simp [uriCharsCanonical]
    | cons e ptr => rw [uriCharsCanonical, if_neg h]

/-- Escaped text has every character as the table wants it. -/
theorem uriCharsCanonical_percentEncode (bytes : List UInt8) :
    uriCharsCanonical (percentEncode uriCharValidity bytes) = true := by
  induction bytes with
  | nil => rfl
  | cons b bytes ih =>
    rw [percentEncode_cons]
    split_ifs with hb
    · have hne : b ≠ percent := by
        rintro rfl
        rw [uriCharValidity_percent] at hb
        cases hb
      rw [List.singleton_append, uriCharsCanonical_ne hne, ih, hb]
      simp
    · have hlt := b.toNat_lt
      obtain ⟨hhigh, hupper, hhighValue⟩ := @isHexDigit_upperHexDigit (b.toNat / 16) (by omega)
      obtain ⟨hlow, hlower, hlowValue⟩ := @isHexDigit_upperHexDigit (b.toNat % 16) (by omega)
      have hvalue : b.toNat / 16 * 16 + b.toNat % 16 = b.toNat := by omega
      change uriCharsCanonical (percent :: _ :: _ :: percentEncode uriCharValidity bytes) = true
      rw [uriCharsCanonical, if_pos rfl, ih, isUpperHexDigit, isUpperHexDigit, hhigh, hlow, hupper,
        hlower, hhighValue, hlowValue, hvalue, UInt8.ofNat_toNat, Bool.eq_false_iff.mpr hb]
      rfl

end Check

/-- A drive letter in lower case, and more. -/
def LowerDrive (w : List UInt8) : Prop := ∃ c rest, isLower c = true ∧ w = c :: colon :: rest

theorem upperDrive_of_not {w : CStr} (h : ¬LowerDrive w) : upperDrive w = w := by
  obtain heq | ⟨c, rest, hc, rfl, -⟩ := upperDrive_cases w
  · exact heq
  · exact absurd ⟨c, rest, hc, rfl⟩ h

theorem upperDrive_lower {c : UInt8} (hc : isLower c = true) (rest : CStr) :
    upperDrive (c :: colon :: rest) = canonicalizeToUpper c :: colon :: rest := by
  simp [upperDrive, hc]

theorem letter_facts {c : UInt8} (hc : isLower c = true) :
    isUpper c = false ∧ isLower (canonicalizeToUpper c) = false ∧ uriCharValidity c = true := by
  have hall : ∀ n < 256, isLower (UInt8.ofNat n) = true →
      isUpper (UInt8.ofNat n) = false ∧ isLower (canonicalizeToUpper (UInt8.ofNat n)) = false ∧
        uriCharValidity (UInt8.ofNat n) = true := by
    decide +kernel
  have hn := hall c.toNat c.toNat_lt
  rw [UInt8.ofNat_toNat] at hn
  exact hn hc

/-- Behind its drive letter in upper case no name starts with one in lower case. -/
theorem not_lowerDrive_upper {c : UInt8} (hc : isLower c = true) (rest : List UInt8) :
    ¬LowerDrive (canonicalizeToUpper c :: colon :: rest) := by
  rintro ⟨d, other, hd, heq⟩
  obtain rfl := (List.cons.inj heq).1
  rw [(letter_facts hc).2.1] at hd
  cases hd

theorem percentEncode_first {b d : UInt8} {front text : List UInt8}
    (h : percentEncode uriCharValidity (b :: front) = d :: text) :
    (uriCharValidity b = true ∧ d = b ∧ text = percentEncode uriCharValidity front) ∨
      (d = percent ∧ ∃ high back, isHexDigit high = true ∧ text = high :: back) := by
  rw [percentEncode_cons] at h
  split_ifs at h with hb
  · obtain ⟨rfl, rfl⟩ := List.cons.inj h
    exact .inl ⟨hb, rfl, rfl⟩
  · obtain ⟨hd, htext⟩ := List.cons.inj h
    have hhigh := (@isHexDigit_upperHexDigit (b.toNat / 16) (by have := b.toNat_lt; omega)).1
    exact .inr ⟨hd.symm, _, _, hhigh, htext.symm⟩

/-- A drive is escaped as itself, and nothing else looks like one. -/
theorem percentEncode_drive {c : UInt8} {bytes rest : List UInt8} :
    percentEncode uriCharValidity bytes = c :: colon :: rest ↔
      ∃ back, bytes = c :: colon :: back ∧ uriCharValidity c = true ∧
        rest = percentEncode uriCharValidity back := by
  constructor
  · intro h
    cases bytes with
    | nil => cases h
    | cons b front =>
      obtain ⟨hvalid, rfl, htext⟩ | ⟨-, high, back, hhigh, htext⟩ := percentEncode_first h
      · cases front with
        | nil => cases htext
        | cons d back =>
          obtain ⟨-, rfl, hrest⟩ | ⟨hpercent, -⟩ := percentEncode_first htext.symm
          · exact ⟨back, rfl, hvalid, hrest⟩
          · exact absurd hpercent (by decide)
      · rw [← (List.cons.inj htext).1] at hhigh
        exact absurd hhigh (by decide)
  · rintro ⟨back, rfl, hvalid, rfl⟩
    rw [percentEncode_cons, percentEncode_cons, hvalid]
    rfl

theorem lowerDrive_percentEncode {bytes : List UInt8} :
    LowerDrive (percentEncode uriCharValidity bytes) ↔ LowerDrive bytes := by
  constructor
  · rintro ⟨c, rest, hc, h⟩
    obtain ⟨back, hback, -⟩ := percentEncode_drive.mp h
    exact ⟨c, back, hc, hback⟩
  · rintro ⟨c, rest, hc, h⟩
    exact ⟨c, _, hc, percentEncode_drive.mpr ⟨rest, h, (letter_facts hc).2.2, rfl⟩⟩

/-- What a first name decodes to, with the drive letter that it spells in upper case. -/
theorem decode_upperDrive (w : CStr) :
    (LowerDrive w ∧ ∃ c rest, isLower c = true ∧ percentDecode w = c :: colon :: rest ∧
        percentDecode (upperDrive w) = canonicalizeToUpper c :: colon :: rest) ∨
      (¬LowerDrive w ∧ percentDecode (upperDrive w) = percentDecode w) := by
  by_cases h : LowerDrive w
  · left
    refine ⟨h, ?_⟩
    obtain ⟨c, rest, hc, rfl⟩ := h
    have hletter := isLetter_of_lower hc
    refine ⟨c, percentDecode rest, hc, percentDecode_drive hletter rest, ?_⟩
    rw [upperDrive_lower hc, percentDecode_drive (isLetter_toUpper hletter)]
  · right
    rw [upperDrive_of_not h]
    exact ⟨h, rfl⟩

/-- Decoding an escaped name with its drive letter in upper case gives the name back, unless that
changes the letter. -/
theorem decode_upperDrive_encode (bytes : List UInt8) :
    percentDecode (upperDrive (percentEncode uriCharValidity bytes)) = bytes ↔
      ¬LowerDrive bytes := by
  obtain ⟨hlower, c, rest, hc, hdecode, hupper⟩ | ⟨hlower, hsame⟩ :=
    decode_upperDrive (percentEncode uriCharValidity bytes)
  · rw [lowerDrive_percentEncode] at hlower
    refine iff_of_false ?_ (not_not.mpr hlower)
    intro h
    rw [h] at hupper
    rw [hupper] at hlower
    exact not_lowerDrive_upper hc rest hlower
  · rw [lowerDrive_percentEncode] at hlower
    rw [hsame, percentDecode_percentEncode uriCharValidity_percent]
    exact iff_of_true rfl hlower

theorem pathNames_flatMap {ws : List CStr} (h : ∀ w ∈ ws, keepName w = true ∧ slash ∉ w) :
    pathNames (ws.flatMap (slash :: ·)) = ws := by
  cases ws with
  | nil => rfl
  | cons w ws =>
    rw [flatMap_slash (List.cons_ne_nil w ws), ← List.nil_append (slash :: _), pathNames_append,
      pathNames_nil, List.nil_append, pathNames_joinNames h]

theorem namesPath_injective {ws ws' : List CStr} (h : ∀ w ∈ ws, keepName w = true ∧ slash ∉ w)
    (h' : ∀ w ∈ ws', keepName w = true ∧ slash ∉ w) (heq : namesPath ws = namesPath ws') :
    ws = ws' := by
  rw [← pathNames_flatMap h, percentEncode_injective uriCharValidity_percent heq,
    pathNames_flatMap h']

namespace AbsoluteUri

theorem mem_names {u : AbsoluteUri} {n : List UInt8} (h : n ∈ u.names) :
    keepName n = true ∧ slash ∉ n := by
  obtain ⟨w, hw, rfl⟩ := List.mem_map.mp h
  exact decoded_withDrive hw

/-- The names of the decoded path. -/
def decodedNames (u : AbsoluteUri) : List (List UInt8) := pathNames (percentDecode u.path)

def isFile (u : AbsoluteUri) : Bool := u.lowScheme = fileScheme

/-- Which scheme it is shows in its first characters. -/
theorem scheme_eq_iff {w : CStr} (hw : colon ∉ w) (u : AbsoluteUri) :
    (w ++ [colon]).isPrefixOf u.lowScheme = true ↔ u.lowScheme = w ++ [colon] := by
  refine (scheme_prefix_iff hw u.colon_not_mem_lower []).trans ?_
  constructor
  · intro h
    rw [lowScheme, ← h]
  · intro h
    exact (List.append_inj_left' h rfl).symm

theorem isFile_eq (u : AbsoluteUri) : fileScheme.isPrefixOf u.lowScheme = u.isFile := by
  rw [Bool.eq_iff_iff, isFile, decide_eq_true_iff]
  exact @scheme_eq_iff [0x66, 0x69, 0x6c, 0x65] (by decide) u

/-- The first name decodes to a drive in lower case, but does not spell it. -/
def HidesDrive (u : AbsoluteUri) : Prop :=
  u.isFile = true ∧
    ∃ w ws, rawNames u.path = w :: ws ∧ ¬LowerDrive w ∧ LowerDrive (percentDecode w)

/-- The number of the default port, but not its digits: with leading zeros, or 64 bits too
large. -/
def OddPort (u : AbsoluteUri) : Prop :=
  ∃ digits, u.port = colon :: digits ∧
    ((portValue digits % 2 ^ 64 = 80 ∧ digits ≠ [0x38, 0x30] ∧ u.lowScheme = httpScheme) ∨
      (portValue digits % 2 ^ 64 = 443 ∧ digits ≠ [0x34, 0x34, 0x33] ∧
        u.lowScheme = httpsScheme) ∨
      (portValue digits % 2 ^ 64 = 3690 ∧ digits ≠ [0x33, 0x36, 0x39, 0x30] ∧
        u.lowScheme = svnScheme))

/-- A colon follows one character that is no letter. -/
def OddDrive (u : AbsoluteUri) : Prop :=
  u.isFile = true ∧ ∃ c rest ws, u.decodedNames = (c :: colon :: rest) :: ws ∧
    uriCharValidity c = true ∧ isLetter c = false

theorem names_of_not_file {u : AbsoluteUri} (h : u.isFile = false) : u.names = u.decodedNames := by
  rw [names, withDrive, isFile_eq, h, if_neg Bool.false_ne_true, map_rawNames]
  rfl

theorem names_of_file {u : AbsoluteUri} (h : u.isFile = true) :
    u.names = ((rawNames u.path).modifyHead upperDrive).map percentDecode := by
  rw [names, withDrive, isFile_eq, if_pos h]

theorem canonical_lowScheme (u : AbsoluteUri) : u.canonical.lowScheme = u.lowScheme := by
  rw [lowScheme, lowScheme]
  exact congrArg (· ++ [colon]) (map_toLower_map u.scheme)

theorem canonical_isFile (u : AbsoluteUri) : u.canonical.isFile = u.isFile := by
  rw [isFile, isFile, canonical_lowScheme]

theorem canonical_raw (u : AbsoluteUri) :
    rawNames u.canonical.path = u.names.map (percentEncode uriCharValidity) :=
  rawNames_namesPath fun _ h => mem_names h

theorem decode_encode_names (names : List (List UInt8)) :
    (names.map (percentEncode uriCharValidity)).map percentDecode = names := by
  rw [List.map_map]
  conv_rhs => rw [← List.map_id names]
  exact List.map_congr_left fun n _ => percentDecode_percentEncode uriCharValidity_percent n

theorem canonical_decodedNames (u : AbsoluteUri) : u.canonical.decodedNames = u.names := by
  rw [decodedNames, ← map_rawNames, canonical_raw, decode_encode_names]

/-- The first name shows a drive in lower case exactly if the text hides it. -/
theorem first_name {u : AbsoluteUri} (hfile : u.isFile = true) {n : List UInt8}
    {ns : List (List UInt8)} (hnames : u.names = n :: ns) : LowerDrive n ↔ u.HidesDrive := by
  have hraw := names_of_file hfile
  rw [hnames] at hraw
  cases hpath : rawNames u.path with
  | nil =>
    rw [hpath] at hraw
    cases hraw
  | cons w ws =>
    rw [hpath, List.modifyHead_cons, List.map_cons] at hraw
    obtain ⟨rfl, -⟩ := List.cons.inj hraw
    have hides : u.HidesDrive ↔ ¬LowerDrive w ∧ LowerDrive (percentDecode w) := by
      constructor
      · rintro ⟨-, first, rest, hfirst, hnot, hlower⟩
        obtain ⟨rfl, -⟩ := List.cons.inj (hpath.symm.trans hfirst)
        exact ⟨hnot, hlower⟩
      · rintro ⟨hnot, hlower⟩
        exact ⟨hfile, w, ws, hpath, hnot, hlower⟩
    rw [hides]
    obtain ⟨hlower, c, rest, hc, -, hupper⟩ | ⟨hnot, hsame⟩ := decode_upperDrive w
    · rw [hupper]
      exact iff_of_false (not_lowerDrive_upper hc rest) fun h => h.1 hlower
    · rw [hsame]
      exact ⟨fun h => ⟨hnot, h⟩, And.right⟩

/-- The canonical form keeps its names, unless a drive has been hidden. -/
theorem canonical_names (u : AbsoluteUri) : u.canonical.names = u.names ↔ ¬u.HidesDrive := by
  cases hfile : u.isFile with
  | false =>
    rw [names_of_not_file (u.canonical_isFile.trans hfile), canonical_decodedNames]
    refine iff_of_true rfl ?_
    rintro ⟨htrue, -⟩
    rw [hfile] at htrue
    cases htrue
  | true =>
    rw [names_of_file (u.canonical_isFile.trans hfile), canonical_raw]
    cases hnames : u.names with
    | nil =>
      refine iff_of_true rfl ?_
      rintro ⟨-, w, ws, hpath, -⟩
      rw [names_of_file hfile, hpath] at hnames
      cases hnames
    | cons n ns =>
      rw [List.map_cons, List.modifyHead_cons, List.map_cons, decode_encode_names,
        ← first_name hfile hnames, ← decode_upperDrive_encode]
      exact ⟨fun h => (List.cons.inj h).1, fun h => by rw [h]⟩

theorem dropDefaultPort_twice (canon port : CStr) :
    dropDefaultPort canon (dropDefaultPort canon port) = dropDefaultPort canon port := by
  by_cases h : port = [colon] ∨ (port = [colon, 0x38, 0x30] ∧ httpScheme.isPrefixOf canon) ∨
      (port = [colon, 0x34, 0x34, 0x33] ∧ httpsScheme.isPrefixOf canon) ∨
      (port = [colon, 0x33, 0x36, 0x39, 0x30] ∧ svnScheme.isPrefixOf canon)
  · have hdrop : dropDefaultPort canon port = [] := if_pos h
    rw [hdrop]
    unfold dropDefaultPort
    split_ifs <;> rfl
  · have hkeep : dropDefaultPort canon port = port := if_neg h
    rw [hkeep, hkeep]

theorem canonical_front (u : AbsoluteUri) : u.canonical.front = u.front := by
  have hscheme : u.canonical.scheme.map canonicalizeToLower = u.scheme.map canonicalizeToLower :=
    map_toLower_map u.scheme
  have hhost : u.canonical.host.map canonicalizeToLower = u.host.map canonicalizeToLower :=
    map_toLower_map u.host
  have hport : dropDefaultPort u.lowScheme u.canonical.port = dropDefaultPort u.lowScheme u.port :=
    dropDefaultPort_twice u.lowScheme u.port
  rw [front, hscheme, hhost, canonical_lowScheme, hport]
  rfl

/-- A second pass changes nothing, unless a drive has been hidden. -/
theorem canonicalize_twice {u : AbsoluteUri} (h : PlainHost u.host) :
    svnUriCanonicalize u.canonical.spell = some u.canonical.spell ↔ ¬u.HidesDrive := by
  rw [canonicalize_spell (h.map_toLower u.isHost), canonical_spell, canonical_front,
    canonical_spell, ← canonical_names, Option.some.injEq, List.append_right_inj]
  exact ⟨namesPath_injective (fun _ h => mem_names h) fun _ h => mem_names h,
    congrArg namesPath⟩

/-- An escaped name is a name. -/
theorem encoded_name {n : List UInt8} (h : keepName n = true ∧ slash ∉ n) :
    keepName (percentEncode uriCharValidity n) = true ∧
      slash ∉ percentEncode uriCharValidity n := by
  obtain ⟨hne, hdot⟩ := keepName_iff.mp h.1
  have hdecode := percentDecode_percentEncode uriCharValidity_percent n
  rw [slash_mem_percentEncode, keepName_iff]
  refine ⟨⟨?_, ?_⟩, h.2⟩
  · intro hnil
    rw [hnil] at hdecode
    exact hne hdecode.symm
  · intro hencode
    rw [hencode] at hdecode
    exact hdot hdecode.symm

/-- The byte in front of the path is no separator, if there is a user, a host or a port. -/
theorem getLast?_front {u : AbsoluteUri} (h : u.canonical.authority ≠ []) :
    u.front.getLast? ≠ some slash := by
  rw [front_eq, List.getLast?_append_of_ne_nil _ h]
  intro hlast
  exact u.canonical.slash_not_mem_authority (List.mem_of_getLast? hlast)

/-- Which drives the check refuses. -/
theorem lowerDriveFollows_front (u : AbsoluteUri) :
    lowerDriveFollows (u.front ++ namesPath u.names) (namesPath u.names) = true ↔
      u.isFile = true ∧ ∃ c rest ns, u.names = (c :: colon :: rest) :: ns ∧
        uriCharValidity c = true ∧ isUpper c = false := by
  have hprefix : fileScheme.isPrefixOf (u.front ++ namesPath u.names) = u.isFile := by
    have hfront : u.front ++ namesPath u.names = u.scheme.map canonicalizeToLower ++ colon ::
        (slash :: slash :: (u.canonical.authority ++ namesPath u.names)) := by
      simp [front_eq]
    rw [hfront, ← isFile_eq, lowScheme]
    exact @isPrefixOf_scheme [0x66, 0x69, 0x6c, 0x65] _ (by decide) u.colon_not_mem_lower _
  rw [lowerDriveFollows, hprefix]
  cases hnames : u.names with
  | nil => simp [namesPath_nil]
  | cons n ns =>
    have hsplit : ∃ back, namesPath (n :: ns) =
        slash :: (percentEncode uriCharValidity n ++ back) ∧ GoesOn (· = slash) back := by
      rw [namesPath_eq (List.cons_ne_nil n ns), List.map_cons]
      cases ns with
      | nil =>
        refine ⟨[], ?_, fun c hc => by cases hc⟩
        rw [List.append_nil, List.map_nil, joinNames_singleton]
      | cons m ns =>
        refine ⟨slash :: joinNames ((m :: ns).map (percentEncode uriCharValidity)), ?_, ?_⟩
        · rw [joinNames_cons (by simp)]
        · intro c hc
          exact (Option.some.inj hc).symm
    obtain ⟨back, hback, hstop⟩ := hsplit
    rw [hback]
    simp only [Bool.and_eq_true, decide_eq_true_iff, List.getElem?_cons_zero,
      List.getElem?_cons_succ, true_and, and_assoc, Bool.not_eq_true']
    refine and_congr_right fun _ => ?_
    constructor
    · rintro ⟨hupper, hcolon⟩
      cases hencode : percentEncode uriCharValidity n with
      | nil =>
        have hname := @mem_names u n (by rw [hnames]; exact List.mem_cons_self)
        exact absurd hencode (keepName_iff.mp (encoded_name hname).1).1
      | cons c text =>
        cases text with
        | nil =>
          rw [hencode] at hcolon
          exact absurd (hstop colon hcolon) (by decide)
        | cons d rest =>
          rw [hencode] at hcolon hupper
          obtain rfl : d = colon := Option.some.inj hcolon
          obtain ⟨name, rfl, hvalid, -⟩ := percentEncode_drive.mp hencode
          exact ⟨c, name, ns, rfl, hvalid, hupper⟩
    · rintro ⟨c, rest, other, heq, hvalid, hupper⟩
      obtain ⟨rfl, -⟩ := List.cons.inj heq
      have hencode := percentEncode_drive.mpr ⟨rest, rfl, hvalid, rfl⟩
      rw [hencode]
      exact ⟨hupper, rfl⟩

theorem prefix_spell {w : CStr} (hw : colon ∉ w) (u : AbsoluteUri) :
    (w ++ [colon]).isPrefixOf u.canonical.spell = true ↔ u.lowScheme = w ++ [colon] := by
  rw [← scheme_eq_iff hw, spell, lowScheme]
  exact Bool.eq_iff_iff.mp (isPrefixOf_scheme hw u.colon_not_mem_lower _)

/-- A port that goes is no odd spelling. -/
theorem not_oddPort {u : AbsoluteUri} (h : u.port = [colon] ∨
    (u.port = [colon, 0x38, 0x30] ∧ httpScheme.isPrefixOf u.lowScheme) ∨
    (u.port = [colon, 0x34, 0x34, 0x33] ∧ httpsScheme.isPrefixOf u.lowScheme) ∨
    (u.port = [colon, 0x33, 0x36, 0x39, 0x30] ∧ svnScheme.isPrefixOf u.lowScheme)) :
    ¬u.OddPort := by
  rintro ⟨digits, hport, hodd⟩
  have hdigits : digits = [] ∨ digits = [0x38, 0x30] ∨ digits = [0x34, 0x34, 0x33] ∨
      digits = [0x33, 0x36, 0x39, 0x30] := by
    rw [hport] at h
    obtain h | h | h | h := h
    · exact .inl (List.cons.inj h).2
    · exact .inr (.inl (List.cons.inj h.1).2)
    · exact .inr (.inr (.inl (List.cons.inj h.1).2))
    · exact .inr (.inr (.inr (List.cons.inj h.1).2))
  have hnot (n : Nat) (plain : CStr) (hodd : portValue digits % 2 ^ 64 = n ∧ digits ≠ plain)
      (hall : ∀ text ∈ ([[], [0x38, 0x30], [0x34, 0x34, 0x33], [0x33, 0x36, 0x39, 0x30]] :
        List CStr), ¬(portValue text % 2 ^ 64 = n ∧ text ≠ plain)) : False := by
    apply hall digits _ hodd
    simpa using hdigits
  obtain hodd | hodd | hodd := hodd
  · exact hnot 80 [0x38, 0x30] ⟨hodd.1, hodd.2.1⟩ (by decide)
  · exact hnot 443 [0x34, 0x34, 0x33] ⟨hodd.1, hodd.2.1⟩ (by decide)
  · exact hnot 3690 [0x33, 0x36, 0x39, 0x30] ⟨hodd.1, hodd.2.1⟩ (by decide)

/-- A port that is left has the number of the default one exactly if it is an odd spelling. -/
theorem defaultNumber_iff (u : AbsoluteUri) :
    DefaultNumber u.canonical.spell u.canonical.port ↔ u.OddPort := by
  by_cases hgoes : u.port = [colon] ∨
      (u.port = [colon, 0x38, 0x30] ∧ httpScheme.isPrefixOf u.lowScheme) ∨
      (u.port = [colon, 0x34, 0x34, 0x33] ∧ httpsScheme.isPrefixOf u.lowScheme) ∨
      (u.port = [colon, 0x33, 0x36, 0x39, 0x30] ∧ svnScheme.isPrefixOf u.lowScheme)
  · refine iff_of_false ?_ (not_oddPort hgoes)
    rintro ⟨digits, hdigits, -⟩
    have hnone : u.canonical.port = [] := if_pos hgoes
    rw [hnone] at hdigits
    cases hdigits
  · have hkept : u.canonical.port = u.port := if_neg hgoes
    simp only [not_or, not_and] at hgoes
    obtain ⟨-, h80, h443, h3690⟩ := hgoes
    rw [hkept]
    refine exists_congr fun digits => and_congr_right fun hport => ?_
    rw [hport] at h80 h443 h3690
    have hodd (n : Nat) (hn : n < 2 ^ 64) (plain w : CStr) (hw : colon ∉ w)
        (hplain : colon :: digits = colon :: plain →
          ¬(w ++ [colon]).isPrefixOf u.lowScheme = true) :
        (portNumber digits = BitVec.ofNat 64 n ∧
          (w ++ [colon]).isPrefixOf u.canonical.spell = true) ↔
        (portValue digits % 2 ^ 64 = n ∧ digits ≠ plain ∧ u.lowScheme = w ++ [colon]) := by
      rw [portNumber_eq_iff hn, prefix_spell hw]
      constructor
      · rintro ⟨hvalue, hscheme⟩
        refine ⟨hvalue, ?_, hscheme⟩
        rintro rfl
        exact hplain rfl ((scheme_eq_iff hw u).mpr hscheme)
      · rintro ⟨hvalue, -, hscheme⟩
        exact ⟨hvalue, hscheme⟩
    refine or_congr (hodd 80 (by decide) _ [0x68, 0x74, 0x74, 0x70] (by decide) h80) ?_
    exact or_congr (hodd 443 (by decide) _ [0x68, 0x74, 0x74, 0x70, 0x73] (by decide) h443)
      (hodd 3690 (by decide) _ [0x73, 0x76, 0x6e] (by decide) h3690)

theorem isCanonical_spell {u : AbsoluteUri} (h : PlainHost u.host) :
    svnUriIsCanonical u.canonical.spell = true ↔ ¬u.OddPort ∧ ¬(u.isFile = true ∧ ∃ c rest ns,
      u.names = (c :: colon :: rest) :: ns ∧ uriCharValidity c = true ∧ isUpper c = false) := by
  obtain ⟨hscheme, huser⟩ := u.canonical.scans
  have hurl : pathIsUrl u.canonical.spell = true := by
    rw [pathIsUrl, hscheme]
    exact decide_eq_true u.canonical.isScheme.1
  have hlower : (u.canonical.scheme).any isUpper = false := any_isUpper_map u.scheme
  have hcanonicalHost := canonicalHost_spell u.canonical.isHost (h.map_toLower u.isHost)
    (any_isUpper_map u.host) u.canonical.goesOn_port
  have hbare : u.canonical.port ≠ [colon] := by
    intro hbare
    have htwice := dropDefaultPort_twice u.lowScheme u.port
    have hdropped : dropDefaultPort u.lowScheme u.port = [colon] := hbare
    rw [hdropped, dropDefaultPort, if_pos (.inl rfl)] at htwice
    cases htwice
  rw [svnUriIsCanonical, if_pos hurl, hscheme]
  dsimp only
  rw [hlower, if_neg Bool.false_ne_true, huser, hcanonicalHost]
  dsimp only
  obtain ⟨hnumber, hport⟩ | ⟨hnumber, hport⟩ :=
    canonicalPort_spell u.canonical.isPort u.canonical.goesOn_path hbare
  · rw [hport, if_neg]
    · refine iff_of_false Bool.false_ne_true ?_
      exact fun hnot => hnot.1 ((u.defaultNumber_iff).mp hnumber)
    · intro hend
      obtain ⟨digits, hdigits, -⟩ := hnumber
      simp [hdigits] at hend
  rw [hport, ← defaultNumber_iff, and_iff_right hnumber]
  dsimp only
  have hpath : u.canonical.path = namesPath u.names := rfl
  rw [← lowerDriveFollows_front, canonical_spell, hpath]
  have hchars : uriCharsCanonical (namesPath u.names) = true :=
    uriCharsCanonical_percentEncode _
  have hsegments : u.canonical.authority ++ namesPath u.names ≠ [] →
      uriSegmentsCanonical [] ((u.front ++ namesPath u.names).take
        ((u.front ++ namesPath u.names).length - (namesPath u.names).length)).getLast?
          (namesPath u.names) = true := by
    intro hne
    rw [List.length_append, Nat.add_sub_cancel, List.take_left]
    cases hnames : u.names with
    | nil =>
      rw [hnames, namesPath_nil, List.append_nil] at hne
      have hlast := getLast?_front hne
      simp [namesPath_nil, uriSegmentsCanonical, hlast]
    | cons n ns =>
      have hmem : ∀ w ∈ (n :: ns).map (percentEncode uriCharValidity),
          keepName w = true ∧ slash ∉ w := by
        intro w hw
        obtain ⟨m, hm, rfl⟩ := List.mem_map.mp hw
        exact encoded_name (@mem_names u m (hnames ▸ hm))
      have hhead := joinNames_relative hmem
      rw [namesPath_eq (List.cons_ne_nil n ns), uriSegmentsCanonical, if_pos rfl,
        uriSegmentsCanonical_joinNames (by simp) hmem, decide_eq_true hhead]
      rfl
  split_ifs with hend
  · have hnone : namesPath u.names = [] :=
      (List.append_eq_nil_iff.mp (List.append_eq_nil_iff.mp
        (List.append_eq_nil_iff.mp hend).2).2).2
    rw [hnone]
    exact iff_of_true rfl (by simp [lowerDriveFollows])
  · have hne : u.canonical.authority ++ namesPath u.names ≠ [] := by
      rw [authority, List.append_assoc, List.append_assoc]
      exact hend
    rw [hsegments hne, hchars, Bool.and_true, Bool.and_true, Bool.not_eq_true', Bool.not_eq_true]

theorem names_of_raw {u : AbsoluteUri} (hfile : u.isFile = true) {w : CStr} {ws : List CStr}
    (h : rawNames u.path = w :: ws) :
    u.names = percentDecode (upperDrive w) :: ws.map percentDecode ∧
      u.decodedNames = percentDecode w :: ws.map percentDecode := by
  rw [names_of_file hfile, h, decodedNames, ← map_rawNames, h]
  exact ⟨rfl, rfl⟩

theorem raw_of_names {u : AbsoluteUri} {n : List UInt8} {ns : List (List UInt8)}
    (h : u.names = n :: ns ∨ u.decodedNames = n :: ns) :
    ∃ w ws, rawNames u.path = w :: ws := by
  cases hraw : rawNames u.path with
  | cons w ws => exact ⟨w, ws, rfl⟩
  | nil =>
    have hdecoded : u.decodedNames = [] := by rw [decodedNames, ← map_rawNames, hraw]; rfl
    have hnames : u.names = [] := by
      cases hfile : u.isFile with
      | false => rw [names_of_not_file hfile, hdecoded]
      | true =>
        rw [names_of_file hfile, hraw]
        rfl
    rw [hnames, hdecoded] at h
    obtain h | h := h
    · cases h
    · cases h

theorem refused_iff (u : AbsoluteUri) :
    (u.isFile = true ∧ ∃ c rest ns, u.names = (c :: colon :: rest) :: ns ∧
      uriCharValidity c = true ∧ isUpper c = false) ↔ u.HidesDrive ∨ u.OddDrive := by
  constructor
  · rintro ⟨hfile, c, rest, ns, hnames, hvalid, hupper⟩
    cases hlower : isLower c with
    | true => exact .inl ((first_name hfile hnames).mp ⟨c, rest, hlower, rfl⟩)
    | false =>
      right
      obtain ⟨w, ws, hraw⟩ := raw_of_names (.inl hnames)
      obtain ⟨hfirst, hdecoded⟩ := names_of_raw hfile hraw
      rw [hnames] at hfirst
      obtain ⟨hn, rfl⟩ := List.cons.inj hfirst
      obtain ⟨-, d, text, hd, -, hdrive⟩ | ⟨-, hsame⟩ := decode_upperDrive w
      · rw [hdrive] at hn
        rw [(List.cons.inj hn).1, isUpper_toUpper (isLetter_of_lower hd)] at hupper
        cases hupper
      · rw [hsame] at hn
        refine ⟨hfile, c, rest, _, hdecoded.trans (by rw [hn]), hvalid, ?_⟩
        rw [isLetter, hlower, hupper]
        rfl
  · rintro (⟨hfile, w, ws, hraw, hnot, c, rest, hc, hdecode⟩ |
      ⟨hfile, c, rest, ns, hdecoded, hvalid, hletter⟩)
    · obtain ⟨hfirst, -⟩ := names_of_raw hfile hraw
      rw [upperDrive_of_not hnot, hdecode] at hfirst
      exact ⟨hfile, c, rest, _, hfirst, (letter_facts hc).2.2, (letter_facts hc).1⟩
    · obtain ⟨w, ws, hraw⟩ := raw_of_names (.inr hdecoded)
      obtain ⟨hfirst, hsecond⟩ := names_of_raw hfile hraw
      rw [hdecoded] at hsecond
      obtain ⟨hn, -⟩ := List.cons.inj hsecond
      obtain ⟨-, d, text, hd, hdrive, -⟩ | ⟨-, hsame⟩ := decode_upperDrive w
      · rw [hdrive] at hn
        rw [(List.cons.inj hn).1, isLetter_of_lower hd] at hletter
        cases hletter
      · rw [hsame, ← hn] at hfirst
        rw [isLetter, Bool.or_eq_false_iff] at hletter
        exact ⟨hfile, c, rest, _, hfirst, hvalid, hletter.2⟩

theorem names_shown {u : AbsoluteUri} (h : ¬u.HidesDrive) :
    u.names = withDrive u.lowScheme u.decodedNames := by
  rw [withDrive, isFile_eq]
  cases hfile : u.isFile with
  | false => rw [names_of_not_file hfile, if_neg Bool.false_ne_true]
  | true =>
    rw [if_pos rfl]
    cases hraw : rawNames u.path with
    | nil =>
      rw [names_of_file hfile, decodedNames, ← map_rawNames, hraw]
      rfl
    | cons w ws =>
      obtain ⟨hfirst, hdecoded⟩ := names_of_raw hfile hraw
      rw [hfirst, hdecoded, List.modifyHead_cons]
      congr 1
      obtain ⟨-, c, rest, hc, hdecode, hupper⟩ | ⟨hnot, hsame⟩ := decode_upperDrive w
      · rw [hupper, hdecode, upperDrive_lower hc]
      · rw [hsame, upperDrive_of_not]
        exact fun hlower => h ⟨hfile, w, ws, hraw, hnot, hlower⟩

theorem upperDrive_twice (w : CStr) : upperDrive (upperDrive w) = upperDrive w := by
  apply upperDrive_of_not
  obtain heq | ⟨c, rest, hc, rfl, heq⟩ := upperDrive_cases w
  · rw [heq]
    rintro ⟨c, rest, hc, rfl⟩
    rw [upperDrive_lower hc] at heq
    have hletter := (letter_facts hc).2.1
    rw [(List.cons.inj heq).1, hc] at hletter
    cases hletter
  · rw [heq]
    exact not_lowerDrive_upper hc rest

theorem withDrive_twice (canon : CStr) (names : List CStr) :
    withDrive canon (withDrive canon names) = withDrive canon names := by
  unfold withDrive
  split_ifs
  · cases names with
    | nil => rfl
    | cons w ws => rw [List.modifyHead_cons, List.modifyHead_cons, upperDrive_twice]
  · rfl

end AbsoluteUri

/-- Two URIs that name the same: up to the case of scheme, host and drive, default ports, and how
the names of the path are spelled and separated. -/
structure SameUri (u v : AbsoluteUri) : Prop where
  scheme : u.scheme.map canonicalizeToLower = v.scheme.map canonicalizeToLower
  user : u.user = v.user
  host : u.host.map canonicalizeToLower = v.host.map canonicalizeToLower
  port : dropDefaultPort u.lowScheme u.port = dropDefaultPort v.lowScheme v.port
  names : withDrive u.lowScheme u.decodedNames = withDrive v.lowScheme v.decodedNames

namespace AbsoluteUri

/-- A hidden drive keeps its case in the names, and the others lose it. -/
theorem withDrive_names (u : AbsoluteUri) :
    withDrive u.lowScheme u.names = withDrive u.lowScheme u.decodedNames := by
  by_cases h : u.HidesDrive
  · obtain ⟨hfile, w, ws, hraw, hnot, -⟩ := h
    obtain ⟨hfirst, hdecoded⟩ := names_of_raw hfile hraw
    rw [hfirst, hdecoded, upperDrive_of_not hnot]
  · rw [names_shown h, withDrive_twice]

theorem canonical_same (u : AbsoluteUri) : SameUri u u.canonical := by
  refine ⟨(map_toLower_map u.scheme).symm, rfl, (map_toLower_map u.host).symm, ?_, ?_⟩
  · rw [canonical_lowScheme]
    exact (dropDefaultPort_twice u.lowScheme u.port).symm
  · rw [canonical_lowScheme, canonical_decodedNames, withDrive_names]

/-- Equal texts have equal parts. -/
theorem canonical_of_spell {u v : AbsoluteUri} (hu : PlainHost u.host) (hv : PlainHost v.host)
    (h : u.spell = v.spell) :
    u.scheme = v.scheme ∧ u.user = v.user ∧
      u.host.map canonicalizeToLower = v.host.map canonicalizeToLower ∧ u.port = v.port ∧
        u.path = v.path := by
  obtain ⟨hscheme, huser⟩ := u.scans
  obtain ⟨hscheme', huser'⟩ := v.scans
  have hhost := scanHost hu
  rw [h, hscheme', Option.some.injEq, Prod.mk.injEq] at hscheme
  rw [← hscheme.2, huser', Prod.mk.injEq] at huser
  rw [← huser.2, scanHost hv, Prod.mk.injEq] at hhost
  have hne (w : AbsoluteUri) : ∀ c ∈ w.port, decide (c ≠ slash) = true :=
    fun c hc => decide_eq_true fun heq => w.isPort.not_mem.1 (heq ▸ hc)
  have hstop (w : AbsoluteUri) : ∀ c, w.path[0]? = some c → decide (c ≠ slash) = false :=
    fun c hc => decide_eq_false (not_not.mpr (w.goesOn_path c hc))
  refine ⟨hscheme.1.symm, huser.1.symm, hhost.1.symm, ?_, ?_⟩
  · rw [← takeWhile_stop (hne u) (hstop u), ← hhost.2, takeWhile_stop (hne v) (hstop v)]
  · rw [← dropWhile_stop (hne u) (hstop u), ← hhost.2, dropWhile_stop (hne v) (hstop v)]

end AbsoluteUri

/-- A URI that names the same closes the brackets of its host. -/
theorem SameUri.bracket_mem {u v : AbsoluteUri} (h : SameUri u v) {rest : CStr}
    (hcut : ¬PlainHost u.host)
    (hspell : u.scheme.map canonicalizeToLower ++ [colon, slash, slash] ++ u.user ++ rest =
      v.spell) : rightBracket ∈ rest := by
  have hlength : (u.scheme.map canonicalizeToLower ++ [colon, slash, slash] ++ u.user).length =
      (v.scheme ++ [colon, slash, slash] ++ v.user).length := by
    have hscheme := congrArg List.length h.scheme
    rw [List.length_map, List.length_map] at hscheme
    simp [hscheme, h.user]
  have hsplit : v.spell = v.scheme ++ [colon, slash, slash] ++ v.user ++
      (v.host ++ (v.port ++ v.path)) := by
    simp [AbsoluteUri.spell]
  rw [hsplit] at hspell
  obtain ⟨address, c, text, hhost, -, -, -, -, hclosed⟩ := u.isHost.cut hcut
  have hmem : rightBracket ∈ u.host := by
    rw [hhost]
    exact List.mem_cons_of_mem _ (List.mem_append_right _ (List.mem_cons_of_mem c hclosed))
  rw [(List.append_inj hspell hlength).2]
  apply List.mem_append_left
  rwa [← @mem_map_toLower rightBracket (by decide), ← h.host, mem_map_toLower (by decide)]

/-- What `svn_uri_canonicalize` makes of an absolute URI: one that names the same. It leaves that
alone, unless the first name of a file URI hides a drive in lower case; and `svn_uri_is_canonical`
accepts it, unless it has such a drive or one that is no letter, or spells the default port oddly.
A literal in brackets with other characters than hex digits and colons is taken apart. -/
theorem svnUriCanonicalize_settles (u : AbsoluteUri) :
    ∃ text, svnUriCanonicalize u.spell = some text ∧
      (PlainHost u.host → ∃ v : AbsoluteUri, text = v.spell ∧ SameUri u v ∧
        (svnUriCanonicalize text = some text ↔ ¬u.HidesDrive) ∧
        (svnUriIsCanonical text = true ↔ ¬u.OddPort ∧ ¬u.HidesDrive ∧ ¬u.OddDrive)) ∧
      (¬PlainHost u.host → ∀ v : AbsoluteUri, text = v.spell → ¬SameUri u v) := by
  by_cases h : PlainHost u.host
  · refine ⟨u.canonical.spell, AbsoluteUri.canonicalize_spell h, ?_, absurd h⟩
    intro
    refine ⟨u.canonical, rfl, u.canonical_same, AbsoluteUri.canonicalize_twice h, ?_⟩
    rw [AbsoluteUri.isCanonical_spell h, AbsoluteUri.refused_iff, not_or]
  · obtain ⟨rest, hbracket, hcut⟩ := AbsoluteUri.canonicalize_cut h
    refine ⟨_, hcut, fun hplain => absurd hplain h, ?_⟩
    intro _ v hspell hsame
    exact hbracket (hsame.bracket_mem h hspell)

/-- "http://[::1.2]/a" and "http://h:080/a". -/
example :
    svnUriCanonicalize [0x68, 0x74, 0x74, 0x70, colon, slash, slash, leftBracket, colon, colon,
      0x31, dot, 0x32, rightBracket, slash, 0x61] =
        some [0x68, 0x74, 0x74, 0x70, colon, slash, slash, leftBracket, colon, colon, 0x31, dot,
          0x32, percent, 0x35, 0x44, slash, 0x61] ∧
      svnUriIsCanonical [0x68, 0x74, 0x74, 0x70, colon, slash, slash, 0x68, colon, 0x30, 0x38,
        0x30, slash, 0x61] = false := by
  decide +kernel

/-- It gives one form to the URIs that name the same, and different forms to others. -/
theorem svnUriCanonicalize_eq_iff {u v : AbsoluteUri} (hu : PlainHost u.host ∧ ¬u.HidesDrive)
    (hv : PlainHost v.host ∧ ¬v.HidesDrive) :
    svnUriCanonicalize u.spell = svnUriCanonicalize v.spell ↔ SameUri u v := by
  rw [AbsoluteUri.canonicalize_spell hu.1, AbsoluteUri.canonicalize_spell hv.1,
    Option.some.injEq]
  constructor
  · intro h
    obtain ⟨hscheme, huser, hhost, hport, hpath⟩ := AbsoluteUri.canonical_of_spell
      (hu.1.map_toLower u.isHost) (hv.1.map_toLower v.isHost) h
    have hnames : u.names = v.names :=
      namesPath_injective (fun _ h => AbsoluteUri.mem_names h)
        (fun _ h => AbsoluteUri.mem_names h) hpath
    refine ⟨hscheme, huser, ?_, hport, ?_⟩
    · have htwice := fun w : AbsoluteUri => map_toLower_map w.host
      exact (htwice u).symm.trans (hhost.trans (htwice v))
    · rw [← AbsoluteUri.names_shown hu.2, ← AbsoluteUri.names_shown hv.2, hnames]
  · intro h
    have hnames : u.names = v.names := by
      rw [AbsoluteUri.names_shown hu.2, AbsoluteUri.names_shown hv.2, h.names]
    rw [AbsoluteUri.spell, AbsoluteUri.spell]
    simp only [AbsoluteUri.canonical]
    rw [h.scheme, h.user, h.host, h.port, hnames]

theorem isPort_eighty : IsPort [colon, 0x38, 0x30] :=
  .number [0x38, 0x30] (by simp [isDigit])

theorem isHost_letter {c : UInt8} (hc : isLetter c = true) : IsHost [c] := by
  have hne (d : UInt8) (hd : isLetter d = false) : d ∉ [c] := by
    intro hmem
    rw [List.mem_singleton.mp hmem, hc] at hd
    cases hd
  refine .name [c] (hne slash (by decide)) (hne colon (by decide)) (hne atSign (by decide)) ?_
  intro hbracket
  rw [Option.some.inj hbracket] at hc
  cases hc

theorem plainHost_singleton (c : UInt8) : PlainHost [c] := by
  intro text h
  have hlength := congrArg List.length h
  simp at hlength

/-- "HTTP://h:80/a//%62" and "http://H/./a/b/" name the same: both give "http://h/a/b". -/
theorem svnUriCanonicalize_eq_two :
    ∃ u v : AbsoluteUri,
      u.spell = [0x48, 0x54, 0x54, 0x50, colon, slash, slash, 0x68, colon, 0x38, 0x30, slash,
        0x61, slash, slash, percent, 0x36, 0x32] ∧
      v.spell = [0x68, 0x74, 0x74, 0x70, colon, slash, slash, 0x48, slash, dot, slash, 0x61, slash,
        0x62, slash] ∧
      svnUriCanonicalize v.spell = some [0x68, 0x74, 0x74, 0x70, colon, slash, slash, 0x68, slash,
        0x61, slash, 0x62] ∧ SameUri u v := by
  refine ⟨⟨[0x48, 0x54, 0x54, 0x50], [], [0x68], [colon, 0x38, 0x30],
      [slash, 0x61, slash, slash, percent, 0x36, 0x32], by decide, .inl rfl,
      isHost_letter (by decide), isPort_eighty, by simp, .inr rfl⟩, ?_⟩
  refine ⟨⟨[0x68, 0x74, 0x74, 0x70], [], [0x48], [], [slash, dot, slash, 0x61, slash, 0x62, slash],
    by decide, .inl rfl, isHost_letter (by decide), .none, by simp, .inr rfl⟩, rfl, rfl, ?_, ?_⟩
  · decide +kernel
  · apply (svnUriCanonicalize_eq_iff _ _).mp
    · decide +kernel
    · exact ⟨plainHost_singleton 0x68, fun h => absurd h.1 (by decide)⟩
    · exact ⟨plainHost_singleton 0x48, fun h => absurd h.1 (by decide)⟩

end SharpGit.Svn
