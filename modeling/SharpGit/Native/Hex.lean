import SharpGit.Native.CString

namespace SharpGit.Native

def isHexDigit (b : UInt8) : Bool :=
  (0x30 ≤ b && b ≤ 0x39) || (0x61 ≤ b && b ≤ 0x66) || (0x41 ≤ b && b ≤ 0x46)

/-- The lower-case digit of a number below sixteen. -/
def hexDigit (n : Nat) : UInt8 := if n < 10 then UInt8.ofNat (0x30 + n) else UInt8.ofNat (0x57 + n)

def hexValue (b : UInt8) : Nat :=
  if b ≤ 0x39 then b.toNat - 0x30 else if b ≤ 0x46 then b.toNat - 0x37 else b.toNat - 0x57

def lowerAscii (b : UInt8) : UInt8 := if isUpper b then b + 0x20 else b

/-- Two digits a byte, the upper half first. -/
def hexEncode (bytes : List UInt8) : CStr :=
  bytes.flatMap fun b => [hexDigit (b.toNat / 16), hexDigit (b.toNat % 16)]

def hexDecode : CStr → List UInt8
  | high :: low :: text => UInt8.ofNat (hexValue high * 16 + hexValue low) :: hexDecode text
  | _ => []

theorem hexDigit_hexValue {b : UInt8} (h : isHexDigit b = true) :
    hexValue b < 16 ∧ hexDigit (hexValue b) = lowerAscii b := by
  have hall : ∀ n < 256, isHexDigit (UInt8.ofNat n) = true →
      hexValue (UInt8.ofNat n) < 16 ∧
        hexDigit (hexValue (UInt8.ofNat n)) = lowerAscii (UInt8.ofNat n) := by
    decide +kernel
  have hb := hall b.toNat b.toNat_lt
  rw [UInt8.ofNat_toNat] at hb
  exact hb h

theorem hexValue_hexDigit {n : Nat} (h : n < 16) : hexValue (hexDigit n) = n := by
  have hall : ∀ n < 16, hexValue (hexDigit n) = n := by decide
  exact hall n h

theorem isHexDigit_lt {b : UInt8} (h : isHexDigit b = true) : 0 < b.toNat ∧ b.toNat < 0x80 := by
  simp only [isHexDigit, Bool.or_eq_true, Bool.and_eq_true, decide_eq_true_eq,
    UInt8.le_iff_toNat_le, UInt8.reduceToNat] at h
  omega

theorem hexEncode_cons (b : UInt8) (bytes : List UInt8) :
    hexEncode (b :: bytes) =
      hexDigit (b.toNat / 16) :: hexDigit (b.toNat % 16) :: hexEncode bytes := rfl

/-- The digits give the bytes back. -/
theorem hexDecode_hexEncode (bytes : List UInt8) : hexDecode (hexEncode bytes) = bytes := by
  induction bytes with
  | nil => rfl
  | cons b bytes ih =>
    have hlt := b.toNat_lt
    have hhigh := @hexValue_hexDigit (b.toNat / 16) (by omega)
    have hlow := @hexValue_hexDigit (b.toNat % 16) (by omega)
    have hvalue : b.toNat / 16 * 16 + b.toNat % 16 = b.toNat := by omega
    rw [hexEncode_cons, hexDecode, hhigh, hlow, ih, hvalue, UInt8.ofNat_toNat]

theorem hexEncode_injective {bytes bytes' : List UInt8} (h : hexEncode bytes = hexEncode bytes') :
    bytes = bytes' := by
  rw [← hexDecode_hexEncode bytes, h, hexDecode_hexEncode]

/-- The bytes give the digits back, in lower case. -/
theorem hexEncode_hexDecode (n : Nat) {text : CStr} (hlength : text.length = 2 * n)
    (h : ∀ b ∈ text, isHexDigit b = true) :
    (hexDecode text).length = n ∧ hexEncode (hexDecode text) = text.map lowerAscii := by
  induction n generalizing text with
  | zero =>
    obtain rfl := List.length_eq_zero_iff.mp hlength
    exact ⟨rfl, rfl⟩
  | succ n ih =>
    obtain ⟨high, low, text, rfl⟩ : ∃ high low rest, text = high :: low :: rest := by
      cases text with
      | nil => cases hlength
      | cons high text =>
        cases text with
        | nil =>
          rw [List.length_singleton] at hlength
          omega
        | cons low text => exact ⟨high, low, text, rfl⟩
    rw [List.length_cons, List.length_cons] at hlength
    rw [List.forall_mem_cons, List.forall_mem_cons] at h
    obtain ⟨hhigh, hlow, hrest⟩ := h
    obtain ⟨hhighLt, hhighDigit⟩ := hexDigit_hexValue hhigh
    obtain ⟨hlowLt, hlowDigit⟩ := hexDigit_hexValue hlow
    obtain ⟨hsize, htext⟩ := ih (by omega) hrest
    have hvalue : (UInt8.ofNat (hexValue high * 16 + hexValue low)).toNat =
        hexValue high * 16 + hexValue low := by
      rw [UInt8.toNat_ofNat']
      omega
    have hupper : (hexValue high * 16 + hexValue low) / 16 = hexValue high := by omega
    have hlower : (hexValue high * 16 + hexValue low) % 16 = hexValue low := by omega
    rw [hexDecode, hexEncode_cons, hvalue, hupper, hlower, hhighDigit, hlowDigit, htext]
    exact ⟨by rw [List.length_cons, hsize], rfl⟩

end SharpGit.Native
