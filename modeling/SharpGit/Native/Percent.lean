import SharpGit.Native.Hex

namespace SharpGit.Native

abbrev percent : UInt8 := 0x25

def upperAscii (b : UInt8) : UInt8 := if isLower b then b - 0x61 + 0x41 else b

/-- The upper-case digit of a number below sixteen. -/
def upperHexDigit (n : Nat) : UInt8 :=
  if n < 10 then UInt8.ofNat (0x30 + n) else UInt8.ofNat (0x37 + n)

def percentEscape (b : UInt8) : CStr :=
  [percent, upperHexDigit (b.toNat / 16), upperHexDigit (b.toNat % 16)]

/-- Bytes that are not `valid` are escaped. -/
def percentEncode (valid : UInt8 → Bool) (bytes : List UInt8) : CStr :=
  bytes.flatMap fun b => if valid b then [b] else percentEscape b

/-- A '%' without two digits behind it stands for itself. -/
def percentDecode : CStr → List UInt8
  | c :: high :: low :: text =>
    if c = percent && isHexDigit high && isHexDigit low then
      UInt8.ofNat (hexValue high * 16 + hexValue low) :: percentDecode text
    else c :: percentDecode (high :: low :: text)
  | text => text

/-- Where no escape fits. -/
theorem short_cases {text : CStr} (h : ∀ c high low rest, text = c :: high :: low :: rest → False) :
    text = [] ∨ (∃ c, text = [c]) ∨ ∃ c d, text = [c, d] := by
  cases text with
  | nil => exact .inl rfl
  | cons c text =>
    cases text with
    | nil => exact .inr (.inl ⟨c, rfl⟩)
    | cons d text =>
      cases text with
      | nil => exact .inr (.inr ⟨c, d, rfl⟩)
      | cons e rest => exact (h c d e rest rfl).elim

theorem isHexDigit_upperHexDigit {n : Nat} (h : n < 16) :
    isHexDigit (upperHexDigit n) = true ∧ isLower (upperHexDigit n) = false ∧
      hexValue (upperHexDigit n) = n := by
  have hall : ∀ n < 16, isHexDigit (upperHexDigit n) = true ∧
      isLower (upperHexDigit n) = false ∧ hexValue (upperHexDigit n) = n := by decide
  exact hall n h

theorem upperHexDigit_hexValue {b : UInt8} (h : isHexDigit b = true) :
    upperHexDigit (hexValue b) = upperAscii b := by
  have hall : ∀ n < 256, isHexDigit (UInt8.ofNat n) = true →
      upperHexDigit (hexValue (UInt8.ofNat n)) = upperAscii (UInt8.ofNat n) := by
    decide +kernel
  have hb := hall b.toNat b.toNat_lt
  rw [UInt8.ofNat_toNat] at hb
  exact hb h

theorem hexPair_toNat {high low : UInt8} (hhigh : isHexDigit high = true)
    (hlow : isHexDigit low = true) :
    (UInt8.ofNat (hexValue high * 16 + hexValue low)).toNat =
      hexValue high * 16 + hexValue low := by
  have hhighLt := (hexDigit_hexValue hhigh).1
  have hlowLt := (hexDigit_hexValue hlow).1
  rw [UInt8.toNat_ofNat']
  omega

/-- What two digits stand for is escaped by the same digits, in upper case. -/
theorem percentEscape_hexPair {high low : UInt8} (hhigh : isHexDigit high = true)
    (hlow : isHexDigit low = true) :
    percentEscape (UInt8.ofNat (hexValue high * 16 + hexValue low)) =
      [percent, upperAscii high, upperAscii low] := by
  have hlowLt := (hexDigit_hexValue hlow).1
  have hupper : (hexValue high * 16 + hexValue low) / 16 = hexValue high := by omega
  have hlower : (hexValue high * 16 + hexValue low) % 16 = hexValue low := by omega
  rw [percentEscape, hexPair_toNat hhigh hlow, hupper, hlower, upperHexDigit_hexValue hhigh,
    upperHexDigit_hexValue hlow]

theorem percentDecode_ne {c : UInt8} (h : c ≠ percent) (text : CStr) :
    percentDecode (c :: text) = c :: percentDecode text := by
  match text with
  | [] => rfl
  | [_] => rfl
  | _ :: _ :: _ => simp [percentDecode, h]

theorem percentDecode_escaped {high low : UInt8} (hhigh : isHexDigit high = true)
    (hlow : isHexDigit low = true) (text : CStr) :
    percentDecode (percent :: high :: low :: text) =
      UInt8.ofNat (hexValue high * 16 + hexValue low) :: percentDecode text := by
  simp [percentDecode, hhigh, hlow]

/-- A '%' that starts no escape. -/
theorem percentDecode_plain {text : CStr}
    (h : ∀ high low rest, text = high :: low :: rest →
      ¬(isHexDigit high = true ∧ isHexDigit low = true)) :
    percentDecode (percent :: text) = percent :: percentDecode text := by
  match text with
  | [] => rfl
  | [_] => rfl
  | high :: low :: rest =>
    have hpair := h high low rest rfl
    rw [percentDecode, if_neg]
    simpa using hpair

theorem percentDecode_escape (b : UInt8) (text : CStr) :
    percentDecode (percentEscape b ++ text) = b :: percentDecode text := by
  have hlt := b.toNat_lt
  obtain ⟨hhigh, -, hhighValue⟩ := @isHexDigit_upperHexDigit (b.toNat / 16) (by omega)
  obtain ⟨hlow, -, hlowValue⟩ := @isHexDigit_upperHexDigit (b.toNat % 16) (by omega)
  have hvalue : b.toNat / 16 * 16 + b.toNat % 16 = b.toNat := by omega
  change percentDecode (percent :: _ :: _ :: text) = _
  rw [percentDecode_escaped hhigh hlow, hhighValue, hlowValue, hvalue, UInt8.ofNat_toNat]

theorem percentDecode_before {c : UInt8} (hc : c ≠ percent) (hdigit : isHexDigit c = false)
    (b : UInt8) (text : CStr) :
    percentDecode (b :: c :: text) = b :: c :: percentDecode text := by
  cases text with
  | nil => rfl
  | cons d text => simp [percentDecode, hdigit, percentDecode_ne hc]

/-- No escape goes over a byte that is neither '%' nor a digit. -/
theorem percentDecode_append {c : UInt8} (hc : c ≠ percent) (hdigit : isHexDigit c = false)
    (before after : CStr) :
    percentDecode (before ++ c :: after) = percentDecode before ++ c :: percentDecode after := by
  induction before using percentDecode.induct with
  | case1 b high low text hescape ih =>
    simp only [Bool.and_eq_true, decide_eq_true_eq] at hescape
    obtain ⟨⟨rfl, hhigh⟩, hlow⟩ := hescape
    rw [percentDecode_escaped hhigh hlow, List.cons_append, List.cons_append, List.cons_append,
      percentDecode_escaped hhigh hlow, ih, List.cons_append]
  | case2 b high low text hescape ih =>
    rw [List.cons_append, List.cons_append, List.cons_append, percentDecode, if_neg hescape,
      percentDecode, if_neg hescape, List.cons_append, ← ih, List.cons_append, List.cons_append]
  | case3 text hshort =>
    obtain rfl | ⟨b, rfl⟩ | ⟨b, d, rfl⟩ := short_cases hshort
    · exact percentDecode_ne hc after
    · exact percentDecode_before hc hdigit b after
    · simp [percentDecode, hdigit, percentDecode_before hc]

theorem percentDecode_eq_nil {text : CStr} : percentDecode text = [] ↔ text = [] := by
  match text with
  | [] => simp [percentDecode]
  | [_] => simp [percentDecode]
  | [_, _] => simp [percentDecode]
  | c :: high :: low :: text =>
    rw [percentDecode]
    split_ifs <;> simp

section Encode

variable {valid : UInt8 → Bool}

theorem percentEncode_cons (b : UInt8) (bytes : List UInt8) :
    percentEncode valid (b :: bytes) =
      (if valid b then [b] else percentEscape b) ++ percentEncode valid bytes := rfl

theorem percentEncode_append (front back : List UInt8) :
    percentEncode valid (front ++ back) = percentEncode valid front ++ percentEncode valid back :=
  List.flatMap_append

/-- The bytes come back, if '%' itself is escaped. -/
theorem percentDecode_percentEncode (hvalid : valid percent = false) (bytes : List UInt8) :
    percentDecode (percentEncode valid bytes) = bytes := by
  induction bytes with
  | nil => rfl
  | cons b bytes ih =>
    rw [percentEncode_cons]
    split_ifs with hb
    · have hne : b ≠ percent := by
        rintro rfl
        rw [hvalid] at hb
        cases hb
      rw [List.singleton_append, percentDecode_ne hne, ih]
    · rw [percentDecode_escape, ih]

theorem percentEncode_injective (hvalid : valid percent = false) {bytes bytes' : List UInt8}
    (h : percentEncode valid bytes = percentEncode valid bytes') : bytes = bytes' := by
  rw [← percentDecode_percentEncode hvalid bytes, h, percentDecode_percentEncode hvalid]

end Encode

end SharpGit.Native
