import SharpGit.Native.CString
import Mathlib.Data.List.Flatten

namespace SharpGit.Native

/-- A managed string as its UTF-16 code units. -/
abbrev NetString := List UInt16

def isHighSurrogate (u : UInt16) : Bool := 0xd800 ≤ u && u < 0xdc00
def isLowSurrogate (u : UInt16) : Bool := 0xdc00 ≤ u && u < 0xe000

def replacement : Char := '\ufffd'

/-- The character of one code unit that is not half of a pair. -/
def unitChar (u : UInt16) : Char :=
  if isHighSurrogate u || isLowSurrogate u then replacement else Char.ofNat u.toNat

def pairChar (hi lo : UInt16) : Char :=
  Char.ofNat (0x10000 + (hi.toNat - 0xd800) * 0x400 + (lo.toNat - 0xdc00))

/-- The characters of a managed string, a lone surrogate read as U+FFFD. -/
def utf16Decode : NetString → List Char
  | [] => []
  | [u] => [unitChar u]
  | u :: v :: us =>
    if isHighSurrogate u && isLowSurrogate v then pairChar u v :: utf16Decode us
    else unitChar u :: utf16Decode (v :: us)

def utf16EncodeChar (c : Char) : NetString :=
  if c.toNat < 0x10000 then [c.toNat.toUInt16]
  else [(0xd800 + (c.toNat - 0x10000) / 0x400).toUInt16,
    (0xdc00 + (c.toNat - 0x10000) % 0x400).toUInt16]

/-- `Encoding::UTF8->GetBytes`. -/
def utf8GetBytes (s : NetString) : CStr := (utf16Decode s).flatMap String.utf8EncodeChar

/-- Read `fuel` characters at most, a byte that starts none as U+FFFD. -/
def utf8Decode : Nat → CStr → List Char
  | 0, _ => []
  | _ + 1, [] => []
  | fuel + 1, b :: bs =>
    match (b :: bs).toByteArray.utf8DecodeChar? 0 with
    | some c => c :: utf8Decode fuel ((b :: bs).drop c.utf8Size)
    | none => replacement :: utf8Decode fuel bs

/-- `Encoding::UTF8->GetString`. -/
def utf8GetString (s : CStr) : NetString := (utf8Decode s.length s).flatMap utf16EncodeChar

def ValidUtf8 (s : CStr) : Prop := ∃ cs : List Char, s = cs.flatMap String.utf8EncodeChar

theorem utf8EncodeChar_cases (c : Char) :
    (∃ b : UInt8, b.toNat < 0x80 ∧ c.toNat = b.toNat ∧ String.utf8EncodeChar c = [b]) ∨
      0x80 ≤ c.toNat ∧ 2 ≤ (String.utf8EncodeChar c).length ∧
        ∀ b ∈ String.utf8EncodeChar c, 0x80 ≤ b.toNat := by
  have hv : c.toNat = c.val.toNat := rfl
  unfold String.utf8EncodeChar
  dsimp only
  split_ifs with h1 h2 h3
  · refine .inl ⟨_, ?_, ?_, rfl⟩
    · rw [UInt8.toNat_ofNat']
      omega
    · rw [UInt8.toNat_ofNat']
      omega
  all_goals
    refine .inr ⟨by omega, by simp, ?_⟩
    simp only [List.mem_cons, List.not_mem_nil, or_false, forall_eq_or_imp, forall_eq,
      UInt8.toNat_ofNat']
    omega

theorem toNat_charOfNat {n : Nat} (h : n.isValidChar) : (Char.ofNat n).toNat = n := by
  rw [Char.ofNat, dif_pos h]
  exact UInt32.toNat_ofNatLT

theorem utf8EncodeChar_of_ascii {b : UInt8} (h : b.toNat < 0x80) :
    String.utf8EncodeChar (Char.ofNat b.toNat) = [b] := by
  have hv : (Char.ofNat b.toNat).toNat = b.toNat :=
    toNat_charOfNat (Or.inl (by omega))
  obtain ⟨b', -, hb', h'⟩ | ⟨hge, -⟩ := utf8EncodeChar_cases (Char.ofNat b.toNat)
  · rw [h', UInt8.toNat_inj.mp (hb'.symm.trans hv)]
  · omega

theorem validUtf8_nil : ValidUtf8 [] := ⟨[], rfl⟩

theorem ValidUtf8.append {a b : CStr} (ha : ValidUtf8 a) (hb : ValidUtf8 b) :
    ValidUtf8 (a ++ b) := by
  obtain ⟨cs, rfl⟩ := ha
  obtain ⟨ds, rfl⟩ := hb
  exact ⟨cs ++ ds, by simp⟩

theorem validUtf8_ascii {b : UInt8} (h : b.toNat < 0x80) : ValidUtf8 [b] :=
  ⟨[Char.ofNat b.toNat], by simp [utf8EncodeChar_of_ascii h]⟩

/-- An ASCII byte is a character of its own: what stands on either side of it is valid. -/
theorem ValidUtf8.split {a b : CStr} {c : UInt8} (hc : c.toNat < 0x80)
    (h : ValidUtf8 (a ++ c :: b)) : ValidUtf8 a ∧ ValidUtf8 b := by
  obtain ⟨cs, hcs⟩ := h
  induction cs generalizing a with
  | nil => simp at hcs
  | cons d ds ih =>
    rw [List.flatMap_cons] at hcs
    obtain ⟨as, hd, hrest⟩ | ⟨bs, ha, hrest⟩ := List.append_eq_append_iff.mp hcs
    · cases as with
      | nil =>
        have hb := ih (a := []) (by simpa using hrest)
        exact ⟨⟨[d], by simpa using hd.symm⟩, hb.2⟩
      | cons x xs =>
        obtain ⟨hx, hb⟩ := List.cons.inj hrest
        subst hx
        obtain ⟨b', -, -, hd'⟩ | ⟨-, -, hge⟩ := utf8EncodeChar_cases d
        · rw [hd', eq_comm, List.append_eq_singleton_iff] at hd
          obtain ⟨rfl, hx⟩ | ⟨-, hx⟩ := hd
          · obtain ⟨-, rfl⟩ := List.cons.inj hx
            exact ⟨validUtf8_nil, ds, by simpa using hb⟩
          · simp at hx
        · have := hge c (by simp [hd])
          omega
    · obtain ⟨hbs, hb⟩ := ih hrest.symm
      exact ⟨ha ▸ ValidUtf8.append ⟨[d], by simp⟩ hbs, hb⟩

/-- A map that moves only ASCII bytes, to ASCII bytes, keeps UTF-8 valid. -/
theorem ValidUtf8.map {s : CStr} {f : UInt8 → UInt8} (h : ValidUtf8 s)
    (hlow : ∀ b, b.toNat < 0x80 → (f b).toNat < 0x80)
    (hhigh : ∀ b, 0x80 ≤ b.toNat → f b = b) : ValidUtf8 (s.map f) := by
  obtain ⟨cs, rfl⟩ := h
  induction cs with
  | nil => exact validUtf8_nil
  | cons c cs ih =>
    rw [List.flatMap_cons, List.map_append]
    refine ValidUtf8.append ?_ ih
    obtain ⟨b, hb, -, hc⟩ | ⟨-, -, hge⟩ := utf8EncodeChar_cases c
    · rw [hc]
      exact validUtf8_ascii (hlow b hb)
    · rw [List.map_congr_left (g := id) fun b hb => hhigh b (hge b hb)]
      exact ⟨[c], by simp⟩

theorem char_valid (c : Char) : c.toNat < 0xd800 ∨ 0xdfff < c.toNat ∧ c.toNat < 0x110000 := c.valid

theorem utf16Decode_unit {u : UInt16} (hu : isHighSurrogate u = false) (us : NetString) :
    utf16Decode (u :: us) = unitChar u :: utf16Decode us := by
  cases us with
  | nil => rfl
  | cons v vs => simp [utf16Decode, hu]

theorem utf16Decode_encodeChar (c : Char) (us : NetString) :
    utf16Decode (utf16EncodeChar c ++ us) = c :: utf16Decode us := by
  have hc := char_valid c
  unfold utf16EncodeChar
  split_ifs with h
  · have hu : c.toNat.toUInt16.toNat = c.toNat := by simp; omega
    have hhigh : isHighSurrogate c.toNat.toUInt16 = false := by
      simp only [isHighSurrogate, UInt16.le_iff_toNat_le, UInt16.lt_iff_toNat_lt, hu]
      simp
      omega
    have hlow : isLowSurrogate c.toNat.toUInt16 = false := by
      simp only [isLowSurrogate, UInt16.le_iff_toNat_le, UInt16.lt_iff_toNat_lt, hu]
      simp
      omega
    rw [List.singleton_append, utf16Decode_unit hhigh]
    simp only [unitChar, hhigh, hlow, Bool.or_self, Bool.false_eq_true, if_false, hu,
      Char.ofNat_toNat]
  · have hhi : (0xd800 + (c.toNat - 0x10000) / 0x400).toUInt16.toNat =
        0xd800 + (c.toNat - 0x10000) / 0x400 := by simp; omega
    have hlo : (0xdc00 + (c.toNat - 0x10000) % 0x400).toUInt16.toNat =
        0xdc00 + (c.toNat - 0x10000) % 0x400 := by simp; omega
    have hpair : pairChar (0xd800 + (c.toNat - 0x10000) / 0x400).toUInt16
        (0xdc00 + (c.toNat - 0x10000) % 0x400).toUInt16 = c := by
      have hsum : 0x10000 + (0xd800 + (c.toNat - 0x10000) / 0x400 - 0xd800) * 0x400 +
          (0xdc00 + (c.toNat - 0x10000) % 0x400 - 0xdc00) = c.toNat := by omega
      rw [pairChar, hhi, hlo, hsum, Char.ofNat_toNat]
    have hhigh : isHighSurrogate (0xd800 + (c.toNat - 0x10000) / 0x400).toUInt16 = true := by
      simp only [isHighSurrogate, UInt16.le_iff_toNat_le, UInt16.lt_iff_toNat_lt, hhi]
      simp
      omega
    have hlow : isLowSurrogate (0xdc00 + (c.toNat - 0x10000) % 0x400).toUInt16 = true := by
      simp only [isLowSurrogate, UInt16.le_iff_toNat_le, UInt16.lt_iff_toNat_lt, hlo]
      simp
      omega
    show utf16Decode (_ :: _ :: us) = _
    rw [utf16Decode, hhigh, hlow, Bool.and_self, if_pos rfl, hpair]

theorem utf16Decode_encode (cs : List Char) : utf16Decode (cs.flatMap utf16EncodeChar) = cs := by
  induction cs with
  | nil => rfl
  | cons c cs ih => rw [List.flatMap_cons, utf16Decode_encodeChar, ih]

theorem utf8Decode_encode (cs : List Char) (fuel : Nat) (hf : cs.length ≤ fuel) :
    utf8Decode fuel (cs.flatMap String.utf8EncodeChar) = cs := by
  induction cs generalizing fuel with
  | nil => cases fuel <;> rfl
  | cons c cs ih =>
    obtain ⟨fuel, rfl⟩ : ∃ n, fuel = n + 1 := ⟨fuel - 1, by simp at hf; omega⟩
    have hdec : (String.utf8EncodeChar c ++
        cs.flatMap String.utf8EncodeChar).toByteArray.utf8DecodeChar? 0 = some c := by
      rw [List.toByteArray_append]
      exact ByteArray.utf8DecodeChar?_utf8EncodeChar_append
    have hdrop : (String.utf8EncodeChar c ++ cs.flatMap String.utf8EncodeChar).drop c.utf8Size =
        cs.flatMap String.utf8EncodeChar := by
      rw [← String.length_utf8EncodeChar, List.drop_left]
    rw [List.flatMap_cons]
    cases hbs : String.utf8EncodeChar c ++ cs.flatMap String.utf8EncodeChar with
    | nil => exact absurd (List.append_eq_nil_iff.mp hbs).1 String.utf8EncodeChar_ne_nil
    | cons b bs =>
      rw [hbs] at hdec hdrop
      rw [utf8Decode, hdec]
      show c :: utf8Decode fuel _ = _
      rw [hdrop, ih fuel (by simpa using hf)]

theorem length_flatMap_utf8 (cs : List Char) :
    cs.length ≤ (cs.flatMap String.utf8EncodeChar).length := by
  induction cs with
  | nil => simp
  | cons c cs ih =>
    have := Char.utf8Size_pos c
    rw [List.flatMap_cons, List.length_append, String.length_utf8EncodeChar, List.length_cons]
    omega

/-- Valid UTF-8 survives the trip through a managed string. -/
theorem utf8GetBytes_getString {s : CStr} (h : ValidUtf8 s) :
    utf8GetBytes (utf8GetString s) = s := by
  obtain ⟨cs, rfl⟩ := h
  rw [utf8GetString, utf8GetBytes, utf8Decode_encode cs _ (length_flatMap_utf8 cs),
    utf16Decode_encode]

theorem pairChar_ge {hi lo : UInt16} (h : (isHighSurrogate hi && isLowSurrogate lo) = true) :
    0x10000 ≤ (pairChar hi lo).toNat := by
  simp only [isHighSurrogate, isLowSurrogate, UInt16.le_iff_toNat_le, UInt16.lt_iff_toNat_lt,
    Bool.and_eq_true, decide_eq_true_eq] at h
  simp at h
  rw [pairChar, toNat_charOfNat (Or.inr ⟨by omega, by omega⟩)]
  omega

theorem utf16Decode_cons (u : UInt16) (us : NetString) :
    utf16Decode (u :: us) = unitChar u :: utf16Decode us ∨
      ∃ v vs, us = v :: vs ∧ 0x10000 ≤ (pairChar u v).toNat ∧
        utf16Decode (u :: us) = pairChar u v :: utf16Decode vs := by
  cases us with
  | nil => exact .inl rfl
  | cons v vs =>
    by_cases h : isHighSurrogate u && isLowSurrogate v
    · exact .inr ⟨v, vs, rfl, pairChar_ge h, by simp [utf16Decode, h]⟩
    · exact .inl (by simp [utf16Decode, h])

theorem validUtf8_getBytes (s : NetString) : ValidUtf8 (utf8GetBytes s) := ⟨utf16Decode s, rfl⟩

theorem utf16Decode_append_slash (a b : NetString) :
    utf16Decode (a ++ 0x2f :: b) = utf16Decode a ++ '/' :: utf16Decode b := by
  induction a using utf16Decode.induct with
  | case1 => exact utf16Decode_unit (by decide) b
  | case2 u =>
    have hpair : ¬(isHighSurrogate u && isLowSurrogate 0x2f) = true := by
      rw [show isLowSurrogate 0x2f = false by decide, Bool.and_false]
      exact Bool.false_ne_true
    have hslash : utf16Decode (0x2f :: b) = '/' :: utf16Decode b :=
      utf16Decode_unit (by decide) b
    show utf16Decode (u :: 0x2f :: b) = unitChar u :: '/' :: utf16Decode b
    rw [utf16Decode, if_neg hpair, hslash]
  | case3 u v us h ih =>
    rw [List.cons_append, List.cons_append, utf16Decode, if_pos h, utf16Decode, if_pos h, ih]
    rfl
  | case4 u v us h ih =>
    rw [List.cons_append] at ih
    rw [List.cons_append, List.cons_append, utf16Decode, if_neg h, utf16Decode, if_neg h, ih]
    rfl

theorem utf8GetBytes_append_slash (a b : NetString) :
    utf8GetBytes (a ++ 0x2f :: b) = utf8GetBytes a ++ slash :: utf8GetBytes b := by
  rw [utf8GetBytes, utf16Decode_append_slash, List.flatMap_append, List.flatMap_cons]
  rfl

theorem utf8GetBytes_eq_nil {s : NetString} : utf8GetBytes s = [] ↔ s = [] := by
  constructor
  · intro h
    cases s with
    | nil => rfl
    | cons u us =>
      obtain hd | ⟨v, vs, -, -, hd⟩ := utf16Decode_cons u us
      all_goals
        rw [utf8GetBytes, hd, List.flatMap_cons, List.append_eq_nil_iff] at h
        exact absurd h.1 String.utf8EncodeChar_ne_nil
  · intro heq
    subst heq
    rfl

/-- An ASCII byte, or a byte before an ASCII one, comes from a code unit of its own. -/
theorem utf8GetBytes_cons {s : NetString} {b : UInt8} {bs : CStr} (h : utf8GetBytes s = b :: bs)
    (hb : b.toNat < 0x80 ∨ ∃ c r, bs = c :: r ∧ c.toNat < 0x80) :
    ∃ u us, s = u :: us ∧ utf8GetBytes us = bs := by
  have hchar : ∀ d rest, String.utf8EncodeChar d ++ rest = b :: bs →
      d.toNat < 0x80 ∧ rest = bs := by
    intro d rest hd
    obtain ⟨b', hlt, hd', henc⟩ | ⟨-, hlen, hge⟩ := utf8EncodeChar_cases d
    · rw [henc] at hd
      exact ⟨by omega, (List.cons.inj hd).2⟩
    · match henc : String.utf8EncodeChar d with
      | [] => simp [henc] at hlen
      | [x] => simp [henc] at hlen
      | x :: y :: r =>
        rw [henc, List.cons_append, List.cons_append] at hd
        obtain ⟨rfl, hbs⟩ := List.cons.inj hd
        obtain hb | ⟨c, r', hc, hlt⟩ := hb
        · have := hge x (by simp [henc])
          omega
        · rw [hc] at hbs
          obtain ⟨rfl, -⟩ := List.cons.inj hbs
          have := hge y (by simp [henc])
          omega
  cases s with
  | nil => simp [utf8GetBytes, utf16Decode] at h
  | cons u us =>
    obtain hd | ⟨v, vs, -, hpair, hd⟩ := utf16Decode_cons u us
    · rw [utf8GetBytes, hd, List.flatMap_cons] at h
      exact ⟨u, us, rfl, (hchar _ _ h).2⟩
    · rw [utf8GetBytes, hd, List.flatMap_cons] at h
      have := (hchar _ _ h).1
      omega

/-- Under a colon as second byte the string and its bytes agree on being longer than two. -/
theorem utf8GetBytes_two_lt {s : NetString} (h : (utf8GetBytes s)[1]? = some colon) :
    2 < s.length ↔ 2 < (utf8GetBytes s).length := by
  match hs : utf8GetBytes s with
  | [] => simp [hs] at h
  | [b] => simp [hs] at h
  | b :: c :: bs =>
    rw [hs] at h
    have hc : c = colon := by simpa using h
    have hascii : c.toNat < 0x80 := by rw [hc]; decide
    obtain ⟨u, us, rfl, hus⟩ := utf8GetBytes_cons hs (.inr ⟨c, bs, rfl, hascii⟩)
    obtain ⟨v, vs, rfl, hvs⟩ := utf8GetBytes_cons hus (.inl hascii)
    have hnil : vs = [] ↔ bs = [] := by rw [← hvs, utf8GetBytes_eq_nil]
    cases vs <;> cases bs <;> simp_all

theorem utf8DecodeChar_split {s : CStr} {c : Char}
    (h : s.toByteArray.utf8DecodeChar? 0 = some c) :
    s = String.utf8EncodeChar c ++ s.drop c.utf8Size := by
  obtain ⟨rest, hrest⟩ := ByteArray.exists_of_utf8DecodeChar?_eq_some h
  have hs : s = String.utf8EncodeChar c ++ rest.data.toList := by
    have hlist := congrArg (fun b : ByteArray => b.data.toList) hrest
    simpa using hlist
  have hdrop : s.drop c.utf8Size = rest.data.toList := by
    rw [← String.length_utf8EncodeChar, hs, List.drop_left]
  rw [hdrop]
  exact hs

/-- An ASCII character of a string is one of its bytes. -/
theorem ascii_mem_utf8Decode {fuel : Nat} {s : CStr} {c : Char} (hc : c.toNat < 0x80)
    (h : c ∈ utf8Decode fuel s) : ∃ b ∈ s, b.toNat = c.toNat := by
  induction fuel generalizing s with
  | zero => cases h
  | succ fuel ih =>
    cases s with
    | nil => cases h
    | cons b bs =>
      rw [utf8Decode] at h
      cases hdecode : (b :: bs).toByteArray.utf8DecodeChar? 0 with
      | none =>
        rw [hdecode] at h
        rcases List.mem_cons.mp h with rfl | h
        · exact absurd hc (by decide)
        · obtain ⟨b', hb', heq⟩ := ih h
          exact ⟨b', List.mem_cons_of_mem _ hb', heq⟩
      | some d =>
        rw [hdecode] at h
        have hsplit := utf8DecodeChar_split hdecode
        rcases List.mem_cons.mp h with rfl | h
        · obtain ⟨b', -, heq, hbytes⟩ | ⟨hge, -⟩ := utf8EncodeChar_cases c
          · rw [hsplit, hbytes]
            exact ⟨b', List.mem_cons_self, heq.symm⟩
          · omega
        · obtain ⟨b', hb', heq⟩ := ih h
          exact ⟨b', List.mem_of_mem_drop hb', heq⟩

theorem ascii_mem_utf16EncodeChar {u : UInt16} {c : Char} (hu : u.toNat < 0x80)
    (h : u ∈ utf16EncodeChar c) : c.toNat = u.toNat := by
  have hvalid := char_valid c
  rw [utf16EncodeChar] at h
  split at h
  · rw [List.mem_singleton] at h
    rw [h, UInt16.toNat_ofNat']
    omega
  · simp only [List.mem_cons, List.not_mem_nil, or_false] at h
    rcases h with h | h <;> rw [h, UInt16.toNat_ofNat'] at hu <;> omega

/-- An ASCII unit of a string read from bytes is one of the bytes. -/
theorem ascii_mem_utf8GetString {u : UInt16} {s : CStr} (hu : u.toNat < 0x80)
    (h : u ∈ utf8GetString s) : ∃ b ∈ s, b.toNat = u.toNat := by
  obtain ⟨c, hc, hunit⟩ := List.mem_flatMap.mp h
  have hchar := ascii_mem_utf16EncodeChar hu hunit
  obtain ⟨b, hb, heq⟩ := ascii_mem_utf8Decode (by omega) hc
  exact ⟨b, hb, heq.trans hchar⟩

/-- What has been read from bytes once is read from its own bytes again. -/
theorem utf8GetString_getBytes_getString (s : CStr) :
    utf8GetString (utf8GetBytes (utf8GetString s)) = utf8GetString s := by
  rw [utf8GetString, utf8GetString, utf8GetBytes, utf16Decode_encode,
    utf8Decode_encode _ _ (length_flatMap_utf8 _)]

/-- A string read from bytes without NUL is written without NUL. -/
theorem zero_not_mem_getBytes_getString {s : CStr} (h : 0 ∉ s) :
    0 ∉ utf8GetBytes (utf8GetString s) := by
  intro hmem
  rw [utf8GetBytes, utf8GetString, utf16Decode_encode] at hmem
  obtain ⟨c, hc, hbyte⟩ := List.mem_flatMap.mp hmem
  obtain ⟨b, hb, heq, hbytes⟩ | ⟨-, -, hge⟩ := utf8EncodeChar_cases c
  · rw [hbytes] at hbyte
    obtain rfl := List.mem_singleton.mp hbyte
    obtain ⟨b', hb', hzero⟩ := ascii_mem_utf8Decode (heq ▸ hb) hc
    have hnul : b' = 0 := UInt8.toNat_inj.mp (hzero.trans heq)
    exact h (hnul ▸ hb')
  · have hlarge := hge 0 hbyte
    revert hlarge
    decide

end SharpGit.Native
