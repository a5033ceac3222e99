import SharpGit.Native.Hex
import SharpGit.Native.Utf8

namespace SharpGit

open Native

inductive GitIdException
  | argumentNull (param : String)
  | argument (param : String)
  | argumentOutOfRange (param : String)
  | indexOutOfRange
  deriving DecidableEq, Repr

/-- `GIT_OID_RAWSZ` -/
abbrev oidRawSize : Nat := 20

/-- `GIT_OID_HEXSZ` -/
abbrev oidHexSize : Nat := 40

/-- `git_oid`. -/
@[ext]
structure GitOid where
  id : List UInt8
  size : id.length = oidRawSize
  deriving DecidableEq, Repr

/-- `git_oid_fromstr`, `git_oid_fmt` and `git_oid_cmp`. -/
structure OidApi where
  fromStr : CStr → Option GitOid
  fmt : GitOid → CStr
  cmp : GitOid → GitOid → Int

/-- What libgit2 documents of them, where `fromStr` is given as many bytes as it reads. -/
structure OidApi.Documented (api : OidApi) : Prop where
  accepts : ∀ text : CStr, text.length = oidHexSize →
    ((api.fromStr text).isSome ↔ ∀ b ∈ text, isHexDigit b = true)
  reads : ∀ (text : CStr) oid, text.length = oidHexSize → api.fromStr text = some oid →
    oid.id = hexDecode text
  writes : ∀ oid, api.fmt oid = hexEncode oid.id
  compares : ∀ oid oid', api.cmp oid oid' = 0 ↔ oid = oid'

/-- `GitId` with the bytes of `_id`; `_hex` is never set. -/
structure GitId where
  id : GitOid
  deriving DecidableEq, Repr

namespace GitId

/-- The bytes from the start of an array, as many as an id's text has, with the memory behind it. -/
def bytesRead (behind : Nat → UInt8) (bytes : CStr) : CStr :=
  (bytes ++ (List.range oidHexSize).map behind).take oidHexSize

/-- `GitId(hexString)`, with what stands in memory behind the array of its bytes. The test for an
empty string looks at a literal. -/
def ofString (api : OidApi) (behind : Nat → UInt8) (hexString : NetString) :
    Except GitIdException GitId :=
  let bytes := utf8GetBytes hexString
  if bytes = [] then .error .indexOutOfRange
  else
    match api.fromStr (bytesRead behind bytes) with
    | none => .error (.argument "hexString")
    | some value => .ok ⟨value⟩

def toString (api : OidApi) (id : GitId) : NetString := (api.fmt id.id).map (·.toUInt16)

def compareTo (api : OidApi) (id other : GitId) : Int := api.cmp id.id other.id

def equals (api : OidApi) (id other : GitId) : Bool := compareTo api id other = 0

/-- "0000000000000000000000000000000000000000" -/
def zeros : NetString := List.replicate oidHexSize 0x30

def fromPrefix (api : OidApi) (behind : Nat → UInt8) (idPrefix : NetString) :
    Except GitIdException GitId :=
  if idPrefix = [] then .error (.argumentNull "idPrefix")
  else if idPrefix.length > oidHexSize then .error (.argumentOutOfRange "idPrefix")
  else ofString api behind (idPrefix ++ zeros.take (oidHexSize - idPrefix.length))

def hexUnit (c : UInt16) : Bool := c < 0x80 && isHexDigit c.toUInt8

def lowerUnit (c : UInt16) : UInt16 := if 0x41 ≤ c && c ≤ 0x5a then c + 0x20 else c

/-- Exactly the text of an id. -/
def IsId (s : NetString) : Prop := s.length = oidHexSize ∧ ∀ c ∈ s, hexUnit c = true

theorem hexUnit_lt {c : UInt16} (h : hexUnit c = true) : c.toNat < 0x80 := by
  rw [hexUnit, Bool.and_eq_true, decide_eq_true_eq, UInt16.lt_iff_toNat_lt] at h
  exact h.1

theorem utf8EncodeChar_unit {c : UInt16} (h : c.toNat < 0x80) :
    String.utf8EncodeChar (unitChar c) = [c.toUInt8] := by
  have hall : ∀ n < 128,
      String.utf8EncodeChar (unitChar (UInt16.ofNat n)) = [(UInt16.ofNat n).toUInt8] := by
    decide +kernel
  have hc := hall c.toNat h
  rwa [UInt16.ofNat_toNat] at hc

theorem lowerAscii_unit {c : UInt16} (h : hexUnit c = true) :
    (lowerAscii c.toUInt8).toUInt16 = lowerUnit c := by
  have hall : ∀ n < 128,
      (lowerAscii (UInt16.ofNat n).toUInt8).toUInt16 = lowerUnit (UInt16.ofNat n) := by
    decide +kernel
  have hc := hall c.toNat (hexUnit_lt h)
  rwa [UInt16.ofNat_toNat] at hc

/-- A unit outside ASCII is a character outside ASCII. -/
theorem unitChar_large {c : UInt16} (h : 0x80 ≤ c.toNat) : 0x80 ≤ (unitChar c).toNat := by
  rw [unitChar]
  split
  · decide
  · rename_i hplain
    rw [Bool.not_eq_true, Bool.or_eq_false_iff, isHighSurrogate, isLowSurrogate] at hplain
    simp only [Bool.and_eq_false_iff, decide_eq_false_iff_not, UInt16.le_iff_toNat_le,
      UInt16.lt_iff_toNat_lt, UInt16.reduceToNat] at hplain
    have hlt := c.toNat_lt
    rw [toNat_charOfNat]
    · exact h
    · rw [Nat.isValidChar]
      omega

/-- A digit is a byte of its own. -/
theorem utf8GetBytes_hexUnit {c : UInt16} (h : hexUnit c = true) (s : NetString) :
    utf8GetBytes (c :: s) = c.toUInt8 :: utf8GetBytes s := by
  have hhigh : isHighSurrogate c = false := by
    have hlt := hexUnit_lt h
    rw [isHighSurrogate, Bool.and_eq_false_iff, decide_eq_false_iff_not, UInt16.le_iff_toNat_le]
    left
    simp only [UInt16.reduceToNat]
    omega
  rw [utf8GetBytes, utf16Decode_unit hhigh, List.flatMap_cons, utf8EncodeChar_unit (hexUnit_lt h)]
  rfl

theorem utf8GetBytes_hexUnits {s : NetString} (h : ∀ c ∈ s, hexUnit c = true) :
    utf8GetBytes s = s.map (·.toUInt8) := by
  induction s with
  | nil => rfl
  | cons c s ih =>
    rw [List.forall_mem_cons] at h
    rw [utf8GetBytes_hexUnit h.1, ih h.2, List.map_cons]

/-- A unit that is no digit does not begin with a byte that is one. -/
theorem utf8GetBytes_not_hexUnit {c : UInt16} (h : hexUnit c = false) (s : NetString) :
    ∃ b bytes, utf8GetBytes (c :: s) = b :: bytes ∧ isHexDigit b = false := by
  have hhead : ∀ d rest, (∀ b ∈ String.utf8EncodeChar d, isHexDigit b = false) →
      ∃ b bytes, String.utf8EncodeChar d ++ rest = b :: bytes ∧ isHexDigit b = false := by
    intro d rest hd
    obtain ⟨b, bytes, hb⟩ := List.exists_cons_of_ne_nil (@String.utf8EncodeChar_ne_nil d)
    rw [hb] at hd
    exact ⟨b, bytes ++ rest, by rw [hb, List.cons_append], hd b List.mem_cons_self⟩
  have hlarge : ∀ d : Char, 0x80 ≤ d.toNat →
      ∀ b ∈ String.utf8EncodeChar d, isHexDigit b = false := by
    intro d hd b hb
    rw [← Bool.not_eq_true]
    intro hdigit
    have hlt := (isHexDigit_lt hdigit).2
    obtain ⟨b', hb', heq, -⟩ | ⟨-, -, hge⟩ := utf8EncodeChar_cases d
    · omega
    · have hbyte := hge b hb
      omega
  obtain hdecode | ⟨v, vs, rfl, hpair, hdecode⟩ := utf16Decode_cons c s
  · rw [utf8GetBytes, hdecode, List.flatMap_cons]
    by_cases hascii : c.toNat < 0x80
    · have hbyte : isHexDigit c.toUInt8 = false := by
        have hlt : c < 0x80 := UInt16.lt_iff_toNat_lt.mpr hascii
        rwa [hexUnit, decide_eq_true hlt, Bool.true_and] at h
      rw [utf8EncodeChar_unit hascii]
      exact ⟨_, _, rfl, hbyte⟩
    · exact hhead _ _ (hlarge _ (unitChar_large (Nat.le_of_not_lt hascii)))
  · rw [utf8GetBytes, hdecode, List.flatMap_cons]
    exact hhead _ _ (hlarge _ (by omega))

/-- The bytes read are digits just where the units are, and the bytes of the memory that are
read behind them. -/
theorem digits_read_iff (n : Nat) (s : NetString) (tail : CStr) :
    (∀ b ∈ (utf8GetBytes s ++ tail).take n, isHexDigit b = true) ↔
      (∀ c ∈ s.take n, hexUnit c = true) ∧
        ∀ b ∈ tail.take (n - s.length), isHexDigit b = true := by
  induction n generalizing s with
  | zero => simp
  | succ n ih =>
    cases s with
    | nil => simp [utf8GetBytes, utf16Decode]
    | cons c s =>
      cases hc : hexUnit c with
      | true =>
        have hbyte : isHexDigit c.toUInt8 = true := by
          rw [hexUnit, Bool.and_eq_true] at hc
          exact hc.2
        rw [utf8GetBytes_hexUnit hc, List.cons_append, List.take_succ_cons, List.take_succ_cons,
          List.forall_mem_cons, List.forall_mem_cons, ih, List.length_cons, Nat.add_sub_add_right]
        simp [hc, hbyte]
      | false =>
        obtain ⟨b, bytes, hbytes, hb⟩ := utf8GetBytes_not_hexUnit hc s
        rw [hbytes, List.cons_append, List.take_succ_cons, List.take_succ_cons,
          List.forall_mem_cons, List.forall_mem_cons, hb, hc]
        simp

theorem lowerUnit_hexUnit {c : UInt16} (h : hexUnit c = true) :
    hexUnit (lowerUnit c) = true ∧ lowerUnit (lowerUnit c) = lowerUnit c := by
  have hall : ∀ n < 128, hexUnit (UInt16.ofNat n) = true →
      hexUnit (lowerUnit (UInt16.ofNat n)) = true ∧
        lowerUnit (lowerUnit (UInt16.ofNat n)) = lowerUnit (UInt16.ofNat n) := by
    decide +kernel
  have hc := hall c.toNat (hexUnit_lt h)
  rw [UInt16.ofNat_toNat] at hc
  exact hc h

theorem IsId.lower {s : NetString} (hs : IsId s) :
    IsId (s.map lowerUnit) ∧ (s.map lowerUnit).map lowerUnit = s.map lowerUnit := by
  obtain ⟨hlength, hunits⟩ := hs
  refine ⟨⟨by rw [List.length_map, hlength], ?_⟩, ?_⟩
  · intro c hc
    obtain ⟨d, hd, rfl⟩ := List.mem_map.mp hc
    exact (lowerUnit_hexUnit (hunits d hd)).1
  · rw [List.map_map]
    exact List.map_congr_left fun c hc => (lowerUnit_hexUnit (hunits c hc)).2

section Documented

variable {api : OidApi} (hapi : api.Documented)

theorem bytesRead_length (behind : Nat → UInt8) (bytes : CStr) :
    (bytesRead behind bytes).length = oidHexSize := by
  rw [bytesRead, List.length_take, List.length_append, List.length_map, List.length_range]
  omega

theorem bytesRead_digits (behind : Nat → UInt8) (s : NetString) :
    (∀ b ∈ bytesRead behind (utf8GetBytes s), isHexDigit b = true) ↔
      (∀ c ∈ s.take oidHexSize, hexUnit c = true) ∧
        ∀ i < oidHexSize - s.length, isHexDigit (behind i) = true := by
  have hmemory : ((List.range oidHexSize).map behind).take (oidHexSize - s.length) =
      (List.range (oidHexSize - s.length)).map behind := by
    rw [← List.map_take, List.take_range, Nat.min_eq_left (Nat.sub_le _ _)]
  rw [bytesRead, digits_read_iff, hmemory]
  simp

include hapi

/-- Which strings the constructor accepts. -/
theorem ofString_isOk (behind : Nat → UInt8) (s : NetString) :
    (∃ id, ofString api behind s = .ok id) ↔
      s ≠ [] ∧ (∀ c ∈ s.take oidHexSize, hexUnit c = true) ∧
        ∀ i < oidHexSize - s.length, isHexDigit (behind i) = true := by
  have hread := hapi.accepts _ (bytesRead_length behind (utf8GetBytes s))
  rw [← bytesRead_digits, ← hread, ofString]
  by_cases hs : s = []
  · rw [if_pos (utf8GetBytes_eq_nil.mpr hs)]
    simp [hs]
  · rw [if_neg fun h => hs (utf8GetBytes_eq_nil.mp h)]
    cases api.fromStr (bytesRead behind (utf8GetBytes s)) with
    | none => simp
    | some value => simp [hs]

/-- The text of an id is read as that id, in lower case. -/
theorem ofString_isId (behind : Nat → UInt8) {s : NetString} (hs : IsId s) :
    ∃ id, ofString api behind s = .ok id ∧ id.toString api = s.map lowerUnit := by
  obtain ⟨hlength, hunits⟩ := hs
  have hbytes := utf8GetBytes_hexUnits hunits
  have hne : utf8GetBytes s ≠ [] := by
    rw [hbytes]
    apply List.ne_nil_of_length_pos
    rw [List.length_map, hlength]
    decide
  have hsize : (s.map (·.toUInt8)).length = oidHexSize := by rw [List.length_map, hlength]
  have hread : bytesRead behind (utf8GetBytes s) = s.map (·.toUInt8) := by
    rw [bytesRead, hbytes]
    exact List.take_left' hsize
  have hdigits : ∀ b ∈ s.map (·.toUInt8), isHexDigit b = true := by
    intro b hb
    obtain ⟨c, hc, rfl⟩ := List.mem_map.mp hb
    have hunit := hunits c hc
    rw [hexUnit, Bool.and_eq_true] at hunit
    exact hunit.2
  obtain ⟨value, hvalue⟩ := Option.isSome_iff_exists.mp ((hapi.accepts _ hsize).mpr hdigits)
  have hid := hapi.reads _ _ hsize hvalue
  refine ⟨⟨value⟩, ?_, ?_⟩
  · rw [ofString, if_neg hne, hread, hvalue]
  · rw [toString, hapi.writes, hid, (hexEncode_hexDecode oidRawSize hsize hdigits).2, List.map_map,
      List.map_map]
    apply List.map_congr_left
    intro c hc
    exact lowerAscii_unit (hunits c hc)

/-- Ids with the same text are equal. -/
theorem equals_of_toString {id other : GitId} (h : id.toString api = other.toString api) :
    id.equals api other = true := by
  have hinjective : Function.Injective fun b : UInt8 => b.toUInt16 := by
    intro b b' hb
    have hnat := congrArg UInt16.toNat hb
    exact UInt8.toNat_inj.mp (by simpa using hnat)
  have hfmt := List.map_injective_iff.mpr hinjective h
  rw [hapi.writes, hapi.writes] at hfmt
  have hbytes := hexEncode_injective hfmt
  have hsame : id.id = other.id := GitOid.ext hbytes
  rw [equals, compareTo, decide_eq_true_eq]
  exact (hapi.compares _ _).mpr hsame

/-- What an id is written as is read as an equal id. -/
theorem ofString_toString {s : NetString} (hs : IsId s) {id : GitId}
    (htext : id.toString api = s.map lowerUnit) (behind : Nat → UInt8) :
    ∃ back, ofString api behind (id.toString api) = .ok back ∧ back.equals api id = true := by
  obtain ⟨hlower, hsame⟩ := hs.lower
  obtain ⟨back, hback, hbackText⟩ := ofString_isId hapi behind hlower
  refine ⟨back, by rw [htext, hback], ?_⟩
  apply equals_of_toString hapi
  rw [hbackText, hsame, htext]

/-- A prefix is filled up with zeros. -/
theorem fromPrefix_digits (behind : Nat → UInt8) {p : NetString} (hpos : 1 ≤ p.length)
    (hle : p.length ≤ oidHexSize) (hunits : ∀ c ∈ p, hexUnit c = true) :
    ∃ id, fromPrefix api behind p = .ok id ∧
      id.toString api = p.map lowerUnit ++ List.replicate (oidHexSize - p.length) 0x30 := by
  have hzeros : zeros.take (oidHexSize - p.length) =
      List.replicate (oidHexSize - p.length) 0x30 := by
    rw [zeros, List.take_replicate, Nat.min_eq_left (Nat.sub_le _ _)]
  have hfilled : IsId (p ++ List.replicate (oidHexSize - p.length) 0x30) := by
    constructor
    · rw [List.length_append, List.length_replicate]
      omega
    · intro c hc
      cases List.mem_append.mp hc with
      | inl hp => exact hunits c hp
      | inr hzero =>
        obtain rfl := List.eq_of_mem_replicate hzero
        decide
  obtain ⟨id, hid, htext⟩ := ofString_isId hapi behind hfilled
  have hne : p ≠ [] := List.ne_nil_of_length_pos hpos
  refine ⟨id, ?_, ?_⟩
  · rw [fromPrefix, if_neg hne, if_neg (Nat.not_lt.mpr hle), hzeros, hid]
  · have hzero : lowerUnit 0x30 = 0x30 := by decide
    rw [htext, List.map_append, List.map_replicate, hzero]

end Documented

/-- What is asked of reading and writing the text of ids. -/
structure KeepsText (api : OidApi) (behind : Nat → UInt8) (s : NetString) : Prop where
  accepts : (∃ id, ofString api behind s = .ok id) ↔ IsId s
  text : ∀ id, ofString api behind s = .ok id → id.toString api = s.map lowerUnit ∧
    ∀ behind', ∃ back, ofString api behind' (id.toString api) = .ok back ∧
      back.equals api id = true
  prefixes : ∀ (p : NetString) behind', 1 ≤ p.length → p.length ≤ oidHexSize →
    (∀ c ∈ p, hexUnit c = true) → ∃ id, fromPrefix api behind' p = .ok id ∧
      id.toString api = p.map lowerUnit ++ List.replicate (oidHexSize - p.length) 0x30

/-- The string is no id, but its digits go on behind its end, or beyond those that are read. -/
def RunsOn (behind : Nat → UInt8) (s : NetString) : Prop :=
  s ≠ [] ∧ s.length ≠ oidHexSize ∧ (∀ c ∈ s.take oidHexSize, hexUnit c = true) ∧
    ∀ i < oidHexSize - s.length, isHexDigit (behind i) = true

/-- The text of ids is kept unless what is read does not end where the string does. -/
theorem keepsText_iff (api : OidApi) (hapi : api.Documented) (behind : Nat → UInt8)
    (s : NetString) : KeepsText api behind s ↔ ¬RunsOn behind s := by
  constructor
  · intro h hruns
    obtain ⟨hne, hlength, hdigits⟩ := hruns
    have hok := (ofString_isOk hapi behind s).mpr ⟨hne, hdigits⟩
    exact hlength (h.accepts.mp hok).1
  · intro h
    have haccepts : (∃ id, ofString api behind s = .ok id) ↔ IsId s := by
      constructor
      · intro hok
        obtain ⟨hne, hdigits⟩ := (ofString_isOk hapi behind s).mp hok
        by_cases hlength : s.length = oidHexSize
        · have hall := hdigits.1
          rw [← hlength, List.take_length] at hall
          exact ⟨hlength, hall⟩
        · exact (h ⟨hne, hlength, hdigits⟩).elim
      · intro hs
        obtain ⟨id, hid, -⟩ := ofString_isId hapi behind hs
        exact ⟨id, hid⟩
    refine ⟨haccepts, ?_, fun p behind' => fromPrefix_digits hapi behind'⟩
    intro id hid
    have hs := haccepts.mp ⟨id, hid⟩
    obtain ⟨id', hid', htext⟩ := ofString_isId hapi behind hs
    obtain rfl := Except.ok.inj (hid.symm.trans hid')
    exact ⟨htext, ofString_toString hapi hs htext⟩

/-- libgit2's functions, in terms of the digits. -/
def hexOidApi : OidApi where
  fromStr text :=
    if h : text.length = oidHexSize ∧ text.all isHexDigit = true then
      some ⟨hexDecode text,
        (hexEncode_hexDecode oidRawSize h.1 (List.all_eq_true.mp h.2)).1⟩
    else none
  fmt oid := hexEncode oid.id
  cmp oid oid' := if oid = oid' then 0 else 1

theorem hexOidApi_documented : hexOidApi.Documented where
  accepts text hlength := by
    rw [hexOidApi]
    simp [hlength]
  reads text oid hlength h := by
    rw [hexOidApi] at h
    dsimp only at h
    split at h
    · obtain rfl := Option.some.inj h
      rfl
    · cases h
  writes _ := rfl
  compares oid oid' := by
    rw [hexOidApi]
    simp

theorem keepsText_zeros : KeepsText hexOidApi (fun _ => 0) zeros := by
  have hkeeps := keepsText_iff hexOidApi hexOidApi_documented (fun _ => 0) zeros
  apply hkeeps.mpr
  intro hruns
  exact hruns.2.1 (by decide)

/-- Of 41 zeros the last one is ignored. -/
theorem ofString_longer :
    (∃ id, ofString hexOidApi (fun _ => 0) (zeros ++ [0x30]) = .ok id) ∧
      ¬KeepsText hexOidApi (fun _ => 0) (zeros ++ [0x30]) := by
  have hok : ∃ id, ofString hexOidApi (fun _ => 0) (zeros ++ [0x30]) = .ok id := by
    rw [ofString_isOk hexOidApi_documented]
    refine ⟨List.append_ne_nil_of_right_ne_nil _ (List.cons_ne_nil _ _), ?_, ?_⟩
    · intro c hc
      have hzero : c = 0x30 := by
        cases List.mem_append.mp (List.mem_of_mem_take hc) with
        | inl hc => exact List.eq_of_mem_replicate hc
        | inr hc => exact List.mem_singleton.mp hc
      rw [hzero]
      decide
    · intro i hi
      exact absurd hi (Nat.not_lt_zero i)
  refine ⟨hok, ?_⟩
  intro h
  have hlength := (h.accepts.mp hok).1
  revert hlength
  decide

end GitId

end SharpGit
