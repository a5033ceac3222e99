import Mathlib.Data.List.TakeWhile
import SharpGit.Svn.UriPath

namespace SharpGit.Svn

open Library Native

/-- A name, or a literal in brackets. -/
inductive IsHost : CStr → Prop
  | name (text : CStr) (hslash : slash ∉ text) (hcolon : colon ∉ text) (hat : atSign ∉ text)
      (hbracket : text[0]? ≠ some leftBracket) : IsHost text
  | literal (text : CStr) (hslash : slash ∉ text) (hat : atSign ∉ text)
      (hbracket : rightBracket ∉ text) : IsHost (leftBracket :: text ++ [rightBracket])

/-- No literal, or one of hex digits and colons: neither the end of an IPv4 address nor a zone. -/
def PlainHost (host : CStr) : Prop :=
  ∀ text, host = leftBracket :: text ++ [rightBracket] → ∀ c ∈ text, isAddressChar c = true

inductive IsPort : CStr → Prop
  | none : IsPort []
  | number (digits : CStr) (hdigits : ∀ c ∈ digits, isDigit c = true) : IsPort (colon :: digits)

@[ext]
structure AbsoluteUri where
  scheme : CStr
  /-- With the '@'. -/
  user : CStr
  host : CStr
  /-- With the ':'. -/
  port : CStr
  path : CStr
  isScheme : scheme ≠ [] ∧ slash ∉ scheme ∧ colon ∉ scheme
  isUser : user = [] ∨ ∃ name, user = name ++ [atSign] ∧ slash ∉ name ∧ atSign ∉ name
  isHost : IsHost host
  isPort : IsPort port
  hosted : host = [] → port = []
  isPath : path = [] ∨ path[0]? = some slash

namespace AbsoluteUri

def spell (u : AbsoluteUri) : CStr :=
  u.scheme ++ colon :: slash :: slash :: (u.user ++ (u.host ++ (u.port ++ u.path)))

end AbsoluteUri

theorem takeWhile_stop {p : UInt8 → Bool} {front back : CStr} (hfront : ∀ c ∈ front, p c = true)
    (hback : ∀ c, back[0]? = some c → p c = false) : (front ++ back).takeWhile p = front := by
  rw [List.takeWhile_append_of_pos hfront]
  cases back with
  | nil => rw [List.takeWhile_nil, List.append_nil]
  | cons c back =>
    rw [List.takeWhile_cons_of_neg (by rw [hback c rfl]; decide), List.append_nil]

theorem dropWhile_stop {p : UInt8 → Bool} {front back : CStr} (hfront : ∀ c ∈ front, p c = true)
    (hback : ∀ c, back[0]? = some c → p c = false) : (front ++ back).dropWhile p = back := by
  rw [List.dropWhile_append_of_pos hfront]
  cases back with
  | nil => rfl
  | cons c back => rw [List.dropWhile_cons_of_neg (by rw [hback c rfl]; decide)]

/-- A text without some bytes goes on to the end of a scan for them. -/
theorem forall_ne {a b : UInt8} {text : CStr} (ha : a ∉ text) (hb : b ∉ text) :
    ∀ c ∈ text, (c ≠ a && c ≠ b) = true := by
  intro c hc
  have hca : c ≠ a := fun h => ha (h ▸ hc)
  have hcb : c ≠ b := fun h => hb (h ▸ hc)
  simp [hca, hcb]

theorem isUpper_toLower (c : UInt8) : isUpper (canonicalizeToLower c) = false := by
  have hall : ∀ n < 256, isUpper (canonicalizeToLower (UInt8.ofNat n)) = false := by decide +kernel
  have hc := hall c.toNat c.toNat_lt
  rwa [UInt8.ofNat_toNat] at hc

theorem isAddressChar_toLower (c : UInt8) :
    isAddressChar (canonicalizeToLower c) = isAddressChar c := by
  have hall : ∀ n < 256, isAddressChar (canonicalizeToLower (UInt8.ofNat n)) =
      isAddressChar (UInt8.ofNat n) := by
    decide +kernel
  have hc := hall c.toNat c.toNat_lt
  rwa [UInt8.ofNat_toNat] at hc

theorem mem_map_toLower {d : UInt8} (hd : isLetter d = false) {text : CStr} :
    d ∈ text.map canonicalizeToLower ↔ d ∈ text := by
  rw [List.mem_map]
  constructor
  · rintro ⟨c, hc, heq⟩
    rwa [(canonicalizeToLower_eq_iff hd).mp heq] at hc
  · intro h
    exact ⟨d, h, (canonicalizeToLower_eq_iff hd).mpr rfl⟩

theorem map_toLower_map (text : CStr) :
    (text.map canonicalizeToLower).map canonicalizeToLower = text.map canonicalizeToLower := by
  rw [List.map_map]
  exact List.map_congr_left fun c _ => canonicalizeToLower_idem c

theorem IsHost.not_mem {host : CStr} (h : IsHost host) : slash ∉ host ∧ atSign ∉ host := by
  cases h with
  | name text hslash hcolon hat hbracket => exact ⟨hslash, hat⟩
  | literal text hslash hat hbracket =>
    have hnot (c : UInt8) (hc : c ∉ text) (hl : c ≠ leftBracket) (hr : c ≠ rightBracket) :
        c ∉ leftBracket :: text ++ [rightBracket] := by
      rw [List.cons_append, List.mem_cons, List.mem_append, List.mem_singleton, not_or, not_or]
      exact ⟨hl, hc, hr⟩
    exact ⟨hnot slash hslash (by decide) (by decide), hnot atSign hat (by decide) (by decide)⟩

/-- Only the case of its letters changes. -/
theorem head_map_toLower {d : UInt8} (hd : isLetter d = false) {text : CStr} :
    (text.map canonicalizeToLower)[0]? = some d ↔ text[0]? = some d := by
  cases text with
  | nil => exact iff_of_false (fun h => by cases h) fun h => by cases h
  | cons c text =>
    rw [List.map_cons, List.getElem?_cons_zero, List.getElem?_cons_zero, Option.some.injEq,
      Option.some.injEq, canonicalizeToLower_eq_iff hd]

theorem IsHost.map_toLower {host : CStr} (h : IsHost host) :
    IsHost (host.map canonicalizeToLower) := by
  cases h with
  | name text hslash hcolon hat hbracket =>
    refine .name _ ?_ ?_ ?_ ?_
    · rwa [mem_map_toLower (by decide)]
    · rwa [mem_map_toLower (by decide)]
    · rwa [mem_map_toLower (by decide)]
    · rwa [ne_eq, head_map_toLower (by decide)]
  | literal text hslash hat hbracket =>
    rw [List.map_append, List.map_cons]
    refine .literal (text.map canonicalizeToLower) ?_ ?_ ?_
    · rwa [mem_map_toLower (by decide)]
    · rwa [mem_map_toLower (by decide)]
    · rwa [mem_map_toLower (by decide)]

theorem PlainHost.map_toLower {host : CStr} (h : IsHost host) (hplain : PlainHost host) :
    PlainHost (host.map canonicalizeToLower) := by
  intro lower hlower c hc
  cases h with
  | name text hslash hcolon hat hbracket =>
    have hhead : (host.map canonicalizeToLower)[0]? = some leftBracket := by rw [hlower]; rfl
    exact absurd ((head_map_toLower (by decide)).mp hhead) hbracket
  | literal text hslash hat hbracket =>
    rw [List.map_append, List.map_cons] at hlower
    obtain rfl := List.append_cancel_right (List.cons.inj hlower).2
    obtain ⟨d, hd, rfl⟩ := List.mem_map.mp hc
    rw [isAddressChar_toLower]
    exact hplain text rfl d hd

/-- Another literal in brackets ends where the scan stops, at the first character that is none of
an address. -/
theorem IsHost.cut {host : CStr} (h : IsHost host) (hplain : ¬PlainHost host) :
    ∃ address c rest, host = leftBracket :: (address ++ c :: rest) ∧
      (∀ d ∈ address, isAddressChar d = true) ∧ isAddressChar c = false ∧ c ≠ slash ∧
        c ≠ rightBracket ∧ rightBracket ∈ rest := by
  cases h with
  | name text hslash hcolon hat hbracket =>
    refine absurd ?_ hplain
    intro text hhost
    rw [hhost] at hbracket
    exact absurd rfl hbracket
  | literal text hslash hat hbracket =>
    have hsplit := @List.takeWhile_append_dropWhile _ isAddressChar text
    cases hrest : text.dropWhile isAddressChar with
    | nil =>
      refine absurd ?_ hplain
      intro other hother
      obtain rfl := List.append_cancel_right (List.cons.inj hother).2
      exact List.dropWhile_eq_nil_iff.mp hrest
    | cons c rest =>
      rw [hrest] at hsplit
      have hmem : c ∈ text := by
        rw [← hsplit]
        exact List.mem_append_right _ List.mem_cons_self
      have hstop : isAddressChar c = false := by
        have hne : text.dropWhile isAddressChar ≠ [] := hrest ▸ List.cons_ne_nil c rest
        have hhead := List.head_dropWhile_not isAddressChar hne
        simpa only [hrest, List.head_cons] using hhead
      refine ⟨text.takeWhile isAddressChar, c, rest ++ [rightBracket], ?_, ?_, hstop, ?_, ?_,
        List.mem_append_right rest (List.mem_singleton_self _)⟩
      · conv_lhs => rw [← hsplit]
        simp
      · exact fun d hd => List.mem_takeWhile_imp hd
      · rintro rfl
        exact hslash hmem
      · rintro rfl
        exact hbracket hmem

theorem isDigit_ne {c d : UInt8} (h : isDigit c = true) (hd : isDigit d = false) : c ≠ d := by
  rintro rfl
  rw [h] at hd
  cases hd

theorem IsPort.not_mem {port : CStr} (h : IsPort port) : slash ∉ port ∧ atSign ∉ port := by
  cases h with
  | none => exact ⟨List.not_mem_nil, List.not_mem_nil⟩
  | number digits hdigits =>
    have hnot (c : UInt8) (hc : isDigit c = false) (hcolon : c ≠ colon) : c ∉ colon :: digits := by
      intro hmem
      obtain hmem | hmem := List.mem_cons.mp hmem
      · exact hcolon hmem
      · exact isDigit_ne (hdigits c hmem) hc rfl
    exact ⟨hnot slash (by decide) (by decide), hnot atSign (by decide) (by decide)⟩

theorem IsPort.map_toLower {port : CStr} (h : IsPort port) :
    port.map canonicalizeToLower = port := by
  have hlower (c : UInt8) (hc : isDigit c = true ∨ c = colon) : canonicalizeToLower c = c := by
    apply canonicalizeToLower_of_not_upper
    have hall : ∀ n < 256, isDigit (UInt8.ofNat n) = true ∨ UInt8.ofNat n = colon →
        isUpper (UInt8.ofNat n) = false := by
      decide +kernel
    have hn := hall c.toNat c.toNat_lt
    rw [UInt8.ofNat_toNat] at hn
    exact hn hc
  conv_rhs => rw [← List.map_id port]
  apply List.map_congr_left
  intro c hc
  cases h with
  | none => cases hc
  | number digits hdigits =>
    obtain rfl | hc := List.mem_cons.mp hc
    · exact hlower colon (.inr rfl)
    · exact hlower c (.inl (hdigits c hc))

section Parts

variable {scheme user host port path rest : CStr}

/-- The text is at its end, or goes on with a byte of that kind. -/
def GoesOn (P : UInt8 → Prop) (text : CStr) : Prop := ∀ c, text[0]? = some c → P c

theorem uriScheme_spell (hslash : slash ∉ scheme) (hcolon : colon ∉ scheme) (rest : CStr) :
    uriScheme (scheme ++ colon :: slash :: slash :: rest) = some (scheme, rest) := by
  have htake : (scheme ++ colon :: slash :: slash :: rest).takeWhile
      (fun c => c ≠ slash && c ≠ colon) = scheme := by
    apply takeWhile_stop (forall_ne hslash hcolon)
    intro c hc
    obtain rfl := Option.some.inj hc
    decide
  unfold uriScheme
  dsimp only
  rw [htake, List.drop_left]
  rfl

theorem uriUser_spell
    (huser : user = [] ∨ ∃ name, user = name ++ [atSign] ∧ slash ∉ name ∧ atSign ∉ name)
    (hhost : slash ∉ host ∧ atSign ∉ host) (hrest : GoesOn (· = slash) rest) :
    uriUser (user ++ (host ++ rest)) = (user, host ++ rest) := by
  obtain rfl | ⟨name, rfl, hslash, hat⟩ := huser
  · have htake : (host ++ rest).takeWhile (fun c => c ≠ slash && c ≠ atSign) = host := by
      apply takeWhile_stop (forall_ne hhost.1 hhost.2)
      intro c hc
      rw [hrest c hc]
      decide
    rw [List.nil_append, uriUser, htake, List.drop_left]
    cases rest with
    | nil => rfl
    | cons c rest =>
      have hc : c = slash := hrest c rfl
      dsimp only
      rw [hc, if_neg (by decide)]
  · have htake : (name ++ [atSign] ++ (host ++ rest)).takeWhile
        (fun c => c ≠ slash && c ≠ atSign) = name := by
      rw [List.append_assoc]
      apply takeWhile_stop (forall_ne hslash hat)
      intro c hc
      obtain rfl := Option.some.inj hc
      decide
    unfold uriUser
    dsimp only
    rw [htake, List.append_assoc, List.drop_left]
    rfl

/-- A name is read up to the next '/' or ':'. -/
theorem takeWhile_name (hslash : slash ∉ host) (hcolon : colon ∉ host)
    (hrest : GoesOn (fun c => c = slash ∨ c = colon) rest) :
    (host ++ rest).takeWhile (fun c => c ≠ slash && c ≠ colon) = host := by
  apply takeWhile_stop (forall_ne hslash hcolon)
  intro c hc
  obtain rfl | rfl := hrest c hc
  · decide
  · decide

theorem name_not_bracket (hbracket : host[0]? ≠ some leftBracket)
    (hrest : GoesOn (fun c => c = slash ∨ c = colon) rest) :
    ¬(host ++ rest)[0]? = some leftBracket := by
  cases host with
  | nil =>
    intro hc
    obtain hc | hc := hrest _ hc
    · exact absurd hc (by decide)
    · exact absurd hc (by decide)
  | cons c host => exact hbracket

theorem uriHost_spell (h : IsHost host) (hplain : PlainHost host)
    (hrest : GoesOn (fun c => c = slash ∨ c = colon) rest) :
    uriHost (host ++ rest) = (host.map canonicalizeToLower, rest) := by
  cases h with
  | name text hslash hcolon hat hbracket =>
    rw [uriHost, if_neg (name_not_bracket hbracket hrest)]
    dsimp only
    rw [takeWhile_name hslash hcolon hrest, List.drop_left]
  | literal text hslash hat hbracket =>
    have htake : (text ++ ([rightBracket] ++ rest)).takeWhile isAddressChar = text := by
      apply takeWhile_stop (hplain text rfl)
      intro c hc
      obtain rfl := Option.some.inj hc
      decide
    have hclosed : ([rightBracket] ++ rest)[0]? = some rightBracket := rfl
    rw [List.cons_append, List.cons_append, List.append_assoc, uriHost,
      if_pos List.getElem?_cons_zero]
    dsimp only [List.tail_cons]
    rw [htake, List.drop_left, if_pos hclosed, List.map_cons, List.map_append]
    rfl

/-- The port that is left. -/
def dropDefaultPort (canon port : CStr) : CStr :=
  if port = [colon] ∨ (port = [colon, 0x38, 0x30] ∧ httpScheme.isPrefixOf canon) ∨
      (port = [colon, 0x34, 0x34, 0x33] ∧ httpsScheme.isPrefixOf canon) ∨
      (port = [colon, 0x33, 0x36, 0x39, 0x30] ∧ svnScheme.isPrefixOf canon) then []
  else port

theorem isDefaultPort_eq {digits : CStr} (hslash : slash ∉ port) (hdigits : slash ∉ digits)
    (hpath : GoesOn (· = slash) path) (scheme canon : CStr) :
    isDefaultPort scheme digits canon (port ++ path) =
      (port = digits && scheme.isPrefixOf canon) := by
  have hiff : (digits.isPrefixOf (port ++ path) &&
      ((port ++ path).drop digits.length).headD slash = slash) = true ↔ port = digits := by
    rw [Bool.and_eq_true, List.isPrefixOf_iff_prefix, decide_eq_true_iff]
    have hgoes (text : CStr) (h : text.headD slash = slash) : ∀ c, text[0]? = some c →
        (decide (c ≠ slash)) = false := by
      intro c hc
      cases text with
      | nil => cases hc
      | cons d text =>
        obtain rfl := Option.some.inj hc
        exact decide_eq_false (not_not.mpr h)
    have hne (text : CStr) (h : slash ∉ text) : ∀ c ∈ text, decide (c ≠ slash) = true :=
      fun c hc => decide_eq_true fun heq => h (heq ▸ hc)
    have hpathHead : path.headD slash = slash := by
      cases path with
      | nil => rfl
      | cons c path => exact hpath c rfl
    constructor
    · rintro ⟨⟨rest, hrest⟩, hhead⟩
      rw [← hrest, List.drop_left] at hhead
      rw [← takeWhile_stop (hne port hslash) (hgoes path hpathHead), ← hrest,
        takeWhile_stop (hne digits hdigits) (hgoes rest hhead)]
    · rintro rfl
      rw [List.drop_left]
      exact ⟨List.prefix_append port path, hpathHead⟩
  rw [isDefaultPort, Bool.eq_iff_iff, Bool.and_eq_true, hiff, Bool.and_eq_true,
    decide_eq_true_iff]

theorem uriPort_spell (h : IsPort port) (hpath : GoesOn (· = slash) path) (canon : CStr) :
    uriPort canon (port ++ path) = (dropDefaultPort canon port, path) := by
  have hstop : ∀ c, path[0]? = some c → decide (c ≠ slash) = false :=
    fun c hc => decide_eq_false (not_not.mpr (hpath c hc))
  have hempty : path.takeWhile (· ≠ slash) = [] ∧ path.dropWhile (· ≠ slash) = path :=
    ⟨@takeWhile_stop (· ≠ slash) [] path (by simp) hstop,
      @dropWhile_stop (· ≠ slash) [] path (by simp) hstop⟩
  have hslash := h.not_mem.1
  have hdefault := @isDefaultPort_eq port path
  cases h with
  | none =>
    have hnot : ¬path[0]? = some colon := by
      intro hc
      exact absurd (hpath colon hc) (by decide)
    have hdrop : dropDefaultPort canon [] = [] := by
      unfold dropDefaultPort
      split_ifs <;> rfl
    rw [List.nil_append, uriPort, if_neg hnot, hdrop]
  | number digits hdigits =>
    have hport : ∀ c ∈ colon :: digits, decide (c ≠ slash) = true :=
      fun c hc => decide_eq_true fun heq => hslash (heq ▸ hc)
    have hlower := (IsPort.number digits hdigits).map_toLower
    have hkept : ((colon :: digits ++ path).takeWhile (· ≠ slash)).map canonicalizeToLower =
        colon :: digits ∧ (colon :: digits ++ path).dropWhile (· ≠ slash) = path := by
      rw [takeWhile_stop hport hstop, dropWhile_stop hport hstop]
      exact ⟨hlower, rfl⟩
    have hbare : ((colon :: digits ++ path).drop 1).headD slash = slash ↔ digits = [] := by
      change (digits ++ path).headD slash = slash ↔ _
      cases digits with
      | nil =>
        cases path with
        | nil => exact iff_of_true rfl rfl
        | cons c path => exact iff_of_true (hpath c rfl) rfl
      | cons d digits =>
        refine iff_of_false ?_ (List.cons_ne_nil d digits)
        exact isDigit_ne (hdigits d List.mem_cons_self) (by decide)
    have hcolon : (colon :: digits ++ path)[0]? = some colon := rfl
    rw [uriPort, if_pos hcolon, hdefault hslash (by decide) hpath,
      hdefault hslash (by decide) hpath, hdefault hslash (by decide) hpath]
    simp only [Bool.and_eq_true, decide_eq_true_iff, hbare]
    unfold dropDefaultPort
    by_cases hhttp : colon :: digits = [colon, 0x38, 0x30] ∧ httpScheme.isPrefixOf canon = true
    · rw [if_pos hhttp, if_pos (.inr (.inl hhttp)), hhttp.1]
      exact Prod.ext (congrArg (List.map canonicalizeToLower) hempty.1) hempty.2
    rw [if_neg hhttp]
    by_cases hhttps : colon :: digits = [colon, 0x34, 0x34, 0x33] ∧
        httpsScheme.isPrefixOf canon = true
    · rw [if_pos hhttps, if_pos (.inr (.inr (.inl hhttps))), hhttps.1]
      exact Prod.ext (congrArg (List.map canonicalizeToLower) hempty.1) hempty.2
    rw [if_neg hhttps]
    by_cases hsvn : colon :: digits = [colon, 0x33, 0x36, 0x39, 0x30] ∧
        svnScheme.isPrefixOf canon = true
    · rw [if_pos hsvn, if_pos (.inr (.inr (.inr hsvn))), hsvn.1]
      exact Prod.ext (congrArg (List.map canonicalizeToLower) hempty.1) hempty.2
    rw [if_neg hsvn]
    by_cases hnone : digits = []
    · rw [if_pos hnone, if_pos (.inl (by rw [hnone])), hnone]
      exact Prod.ext (congrArg (List.map canonicalizeToLower) hempty.1) hempty.2
    · have hkeep : ¬(colon :: digits = [colon] ∨
          (colon :: digits = [colon, 0x38, 0x30] ∧ httpScheme.isPrefixOf canon = true) ∨
          (colon :: digits = [colon, 0x34, 0x34, 0x33] ∧ httpsScheme.isPrefixOf canon = true) ∨
          (colon :: digits = [colon, 0x33, 0x36, 0x39, 0x30] ∧
            svnScheme.isPrefixOf canon = true)) := by
        rintro (h | h | h | h)
        · exact hnone (List.cons.inj h).2
        · exact hhttp h
        · exact hhttps h
        · exact hsvn h
      rw [if_neg hnone, if_neg hkeep]
      exact Prod.ext hkept.1 hkept.2

end Parts

theorem scheme_prefix_iff {w s : CStr} (hw : colon ∉ w) (hs : colon ∉ s) (rest : CStr) :
    (w ++ [colon]).isPrefixOf (s ++ colon :: rest) = true ↔ w = s := by
  have hne (text : CStr) (h : colon ∉ text) : ∀ c ∈ text, decide (c ≠ colon) = true :=
    fun c hc => decide_eq_true fun heq => h (heq ▸ hc)
  have hstop (text : CStr) : ∀ c, (colon :: text)[0]? = some c → decide (c ≠ colon) = false := by
    intro c hc
    obtain rfl := Option.some.inj hc
    exact decide_eq_false (not_not.mpr rfl)
  rw [List.isPrefixOf_iff_prefix]
  constructor
  · rintro ⟨back, hback⟩
    rw [List.append_assoc, List.singleton_append] at hback
    rw [← takeWhile_stop (hne w hw) (hstop back), hback, takeWhile_stop (hne s hs) (hstop rest)]
  · rintro rfl
    refine ⟨rest, ?_⟩
    rw [List.append_assoc, List.singleton_append]

/-- Only the scheme counts. -/
theorem isPrefixOf_scheme {w s : CStr} (hw : colon ∉ w) (hs : colon ∉ s) (rest : CStr) :
    (w ++ [colon]).isPrefixOf (s ++ colon :: rest) =
      (w ++ [colon]).isPrefixOf (s ++ [colon]) := by
  rw [Bool.eq_iff_iff, scheme_prefix_iff hw hs, scheme_prefix_iff hw hs]

theorem dropDefaultPort_scheme {s : CStr} (hs : colon ∉ s) (rest port : CStr) :
    dropDefaultPort (s ++ colon :: rest) port = dropDefaultPort (s ++ [colon]) port := by
  have hhttp : httpScheme.isPrefixOf (s ++ colon :: rest) = httpScheme.isPrefixOf (s ++ [colon]) :=
    @isPrefixOf_scheme [0x68, 0x74, 0x74, 0x70] s (by decide) hs rest
  have hhttps : httpsScheme.isPrefixOf (s ++ colon :: rest) =
      httpsScheme.isPrefixOf (s ++ [colon]) :=
    @isPrefixOf_scheme [0x68, 0x74, 0x74, 0x70, 0x73] s (by decide) hs rest
  have hsvn : svnScheme.isPrefixOf (s ++ colon :: rest) = svnScheme.isPrefixOf (s ++ [colon]) :=
    @isPrefixOf_scheme [0x73, 0x76, 0x6e] s (by decide) hs rest
  rw [dropDefaultPort, dropDefaultPort, hhttp, hhttps, hsvn]

theorem withDrive_scheme {s : CStr} (hs : colon ∉ s) (rest : CStr) (names : List CStr) :
    withDrive (s ++ colon :: rest) names = withDrive (s ++ [colon]) names := by
  have hfile : fileScheme.isPrefixOf (s ++ colon :: rest) = fileScheme.isPrefixOf (s ++ [colon]) :=
    @isPrefixOf_scheme [0x66, 0x69, 0x6c, 0x65] s (by decide) hs rest
  rw [withDrive, withDrive, hfile]

theorem IsPort.dropDefault {port : CStr} (h : IsPort port) (canon : CStr) :
    IsPort (dropDefaultPort canon port) := by
  unfold dropDefaultPort
  split_ifs
  · exact .none
  · exact h

/-- The loop over the segments behind `front` and a '/', and the last loop. -/
theorem copied_path (front src : CStr) :
    let dst := ((uriSegments src).foldl (appendUriSegment true) (front ++ [slash], 1)).1
    (chop slash dst).take (front ++ [slash]).length ++
        normalizeUriChars ((chop slash dst).drop (front ++ [slash]).length) =
      front ++ namesPath ((withDrive (front ++ [slash]) (rawNames src)).map percentDecode) := by
  have hchop := chop_segmentsWithDrive (front ++ [slash]) src
  have hmap := map_segmentsWithDrive (front ++ [slash]) ((uriSegments src).filter keepsSegment)
  rw [map_keptSegments] at hmap
  dsimp only
  rw [foldl_appendUriSegment_url]
  cases hsegs : segmentsWithDrive (front ++ [slash]) ((uriSegments src).filter keepsSegment) with
  | nil =>
    rw [hsegs] at hmap
    rw [← hmap, spell, List.flatMap_nil, List.append_nil, chop_append_self, List.take_of_length_le,
      List.drop_of_length_le]
    · rfl
    · simp
    · simp
  | cons seg segs =>
    have hseg : seg.1 ≠ [] := by
      apply And.left
      apply @mem_withDrive (front ++ [slash]) src
      rw [← hmap, hsegs]
      exact List.mem_map_of_mem List.mem_cons_self
    have hspell : spell slash (seg :: segs) ≠ [] := by simp [spell, hseg]
    have hnames : (withDrive (front ++ [slash]) (rawNames src)).map percentDecode ≠ [] := by
      rw [← hmap, hsegs]
      exact List.cons_ne_nil _ _
    rw [hsegs] at hchop
    rw [chop_append _ hspell, List.take_left, List.drop_left, hchop, normalizeUriChars_eq,
      percentDecode_joinNames, percentEncode_joinNames, namesPath_eq hnames, List.append_assoc,
      List.singleton_append]

/-- The '/' behind the host or whatever is there, and the rest up to a last '/'. -/
theorem canon_front {front src : CStr} {c : UInt8} (hc : c ≠ slash) (whole : Prop)
    [Decidable whole] :
    let dst := ((uriSegments src).foldl (appendUriSegment true) (front ++ [c], 1)).1
    ∃ back, (if whole then dst else chop slash dst) = front ++ [c] ++ back := by
  intro dst
  have hdst : dst = front ++ [c] ++ spell slash (segmentsWithDrive (front ++ [c])
      ((uriSegments src).filter keepsSegment)) :=
    foldl_appendUriSegment_url _ _
  split_ifs
  · exact ⟨_, hdst⟩
  · rw [hdst]
    by_cases hback : spell slash (segmentsWithDrive (front ++ [c])
        ((uriSegments src).filter keepsSegment)) = []
    · refine ⟨[], ?_⟩
      rw [hback, List.append_nil, chop_append _ (List.cons_ne_nil c []),
        chop_of_not_mem (by rw [List.mem_singleton]; exact Ne.symm hc)]
    · exact ⟨_, chop_append _ hback⟩

namespace AbsoluteUri

/-- The scheme in lower case, with its colon. -/
def lowScheme (u : AbsoluteUri) : CStr := u.scheme.map canonicalizeToLower ++ [colon]

/-- The names of the path, decoded. -/
def names (u : AbsoluteUri) : List (List UInt8) :=
  (withDrive u.lowScheme (rawNames u.path)).map percentDecode

def canonical (u : AbsoluteUri) : AbsoluteUri where
  scheme := u.scheme.map canonicalizeToLower
  user := u.user
  host := u.host.map canonicalizeToLower
  port := dropDefaultPort u.lowScheme u.port
  path := namesPath u.names
  isScheme := by
    obtain ⟨hne, hslash, hcolon⟩ := u.isScheme
    rw [mem_map_toLower (by decide), mem_map_toLower (by decide)]
    exact ⟨fun h => hne (List.map_eq_nil_iff.mp h), hslash, hcolon⟩
  isUser := u.isUser
  isHost := u.isHost.map_toLower
  isPort := u.isPort.dropDefault u.lowScheme
  hosted := by
    intro h
    rw [u.hosted (List.map_eq_nil_iff.mp h), dropDefaultPort]
    split_ifs <;> rfl
  isPath := by
    cases hnames : u.names with
    | nil => exact .inl rfl
    | cons w ws =>
      rw [namesPath_eq (List.cons_ne_nil w ws)]
      exact .inr rfl

theorem goesOn_path (u : AbsoluteUri) : GoesOn (· = slash) u.path := by
  intro c hc
  obtain hpath | hpath := u.isPath
  · rw [hpath] at hc
    cases hc
  · rw [hpath] at hc
    exact (Option.some.inj hc).symm

theorem goesOn_port (u : AbsoluteUri) :
    GoesOn (fun c => c = slash ∨ c = colon) (u.port ++ u.path) := by
  intro c hc
  cases hport : u.port with
  | nil =>
    rw [hport, List.nil_append] at hc
    exact .inl (u.goesOn_path c hc)
  | cons d port =>
    rw [hport, List.cons_append] at hc
    obtain rfl := Option.some.inj hc
    right
    have h := u.isPort
    rw [hport] at h
    cases h
    rfl

theorem not_mem_hostPort (u : AbsoluteUri) :
    slash ∉ u.host ++ u.port ∧ atSign ∉ u.host ++ u.port := by
  rw [List.mem_append, List.mem_append, not_or, not_or]
  exact ⟨⟨u.isHost.not_mem.1, u.isPort.not_mem.1⟩, u.isHost.not_mem.2, u.isPort.not_mem.2⟩

def authority (u : AbsoluteUri) : CStr := u.user ++ (u.host ++ u.port)

theorem slash_not_mem_authority (u : AbsoluteUri) : slash ∉ u.authority := by
  rw [authority, List.mem_append, not_or]
  refine ⟨?_, u.not_mem_hostPort.1⟩
  obtain huser | ⟨name, huser, hname, -⟩ := u.isUser
  · rw [huser]
    exact List.not_mem_nil
  · rw [huser, List.mem_append, List.mem_singleton, not_or]
    exact ⟨hname, by decide⟩

/-- What the scans make of a spelled URI. -/
theorem scans (u : AbsoluteUri) :
    uriScheme u.spell = some (u.scheme, u.user ++ (u.host ++ (u.port ++ u.path))) ∧
      uriUser (u.user ++ (u.host ++ (u.port ++ u.path))) =
        (u.user, u.host ++ (u.port ++ u.path)) := by
  refine ⟨uriScheme_spell u.isScheme.2.1 u.isScheme.2.2 _, ?_⟩
  rw [← List.append_assoc u.host]
  exact uriUser_spell u.isUser u.not_mem_hostPort u.goesOn_path

theorem scanHost {u : AbsoluteUri} (h : PlainHost u.host) :
    uriHost (u.host ++ (u.port ++ u.path)) =
      (u.host.map canonicalizeToLower, u.port ++ u.path) :=
  uriHost_spell u.isHost h u.goesOn_port

theorem colon_not_mem_lower (u : AbsoluteUri) : colon ∉ u.scheme.map canonicalizeToLower := by
  rw [mem_map_toLower (by decide)]
  exact u.isScheme.2.2

theorem rawNames_path {path : CStr} : rawNames (slash :: path) = rawNames path := by
  rw [rawNames, plainSlashes_ne (by decide), ← List.nil_append (slash :: plainSlashes path),
    names_append, names_nil (by decide), List.nil_append]
  rfl

/-- Scheme and authority in canonical form. -/
def front (u : AbsoluteUri) : CStr :=
  u.scheme.map canonicalizeToLower ++ [colon, slash, slash] ++ u.user ++
    u.host.map canonicalizeToLower ++ dropDefaultPort u.lowScheme u.port

theorem front_eq (u : AbsoluteUri) :
    u.front =
      u.scheme.map canonicalizeToLower ++ [colon, slash, slash] ++ u.canonical.authority := by
  simp [front, canonical, authority]

theorem canonical_spell (u : AbsoluteUri) : u.canonical.spell = u.front ++ namesPath u.names := by
  simp [spell, canonical, front]

theorem names_slash {u : AbsoluteUri} {path : CStr} (h : u.path = slash :: path) :
    u.names = (withDrive (u.front ++ [slash]) (rawNames path)).map percentDecode := by
  have hfront : u.front ++ [slash] = u.scheme.map canonicalizeToLower ++ colon ::
      (slash :: slash :: (u.user ++ (u.host.map canonicalizeToLower ++
        (dropDefaultPort u.lowScheme u.port ++ [slash])))) := by
    simp [front]
  rw [hfront, withDrive_scheme u.colon_not_mem_lower, names, h, rawNames_path]
  rfl

/-- Without a path the last '/' goes only with a port that goes too. -/
theorem chop_front {u : AbsoluteUri} (h : u.path = [])
    (hlength : ¬u.spell.length =
      (u.scheme.map canonicalizeToLower ++ [colon, slash, slash]).length) :
    chop slash u.front = u.front := by
  have hauthority : u.canonical.authority ≠ [] := by
    intro hnil
    obtain ⟨hcanonicalUser, hrest⟩ := List.append_eq_nil_iff.mp hnil
    have huser : u.user = [] := hcanonicalUser
    have hhost : u.host = [] := List.map_eq_nil_iff.mp (List.append_eq_nil_iff.mp hrest).1
    apply hlength
    rw [spell, huser, hhost, u.hosted hhost, h]
    simp
  rw [front_eq, chop_append _ hauthority, chop_of_not_mem u.canonical.slash_not_mem_authority]

theorem spell_absolute (u : AbsoluteUri) : ¬(u.spell = [] ∨ u.spell[0]? = some slash) := by
  obtain ⟨c, scheme, hcons⟩ := List.exists_cons_of_ne_nil u.isScheme.1
  have hslash := u.isScheme.2.1
  rw [hcons, List.mem_cons, not_or] at hslash
  rw [spell, hcons]
  rintro (h | h)
  · cases h
  · exact hslash.1 (Option.some.inj h).symm

/-- The canonicalizer takes each part to its canonical form. -/
theorem canonicalize_spell {u : AbsoluteUri} (h : PlainHost u.host) :
    svnUriCanonicalize u.spell = some u.canonical.spell := by
  obtain ⟨hscheme, huser⟩ := u.scans
  have hhost := scanHost h
  have hport (rest : CStr) : uriPort (u.scheme.map canonicalizeToLower ++ colon :: rest)
      (u.port ++ u.path) = (dropDefaultPort u.lowScheme u.port, u.path) := by
    rw [uriPort_spell u.isPort u.goesOn_path, dropDefaultPort_scheme u.colon_not_mem_lower]
    rfl
  rw [svnUriCanonicalize, canonicalizeUri, if_neg u.spell_absolute, hscheme]
  dsimp only
  rw [huser]
  dsimp only
  rw [hhost]
  dsimp only
  have hcanon : u.scheme.map canonicalizeToLower ++ [colon, slash, slash] ++ u.user ++
      u.host.map canonicalizeToLower = u.scheme.map canonicalizeToLower ++ colon ::
        (slash :: slash :: (u.user ++ u.host.map canonicalizeToLower)) := by
    simp
  rw [hcanon, hport, ← hcanon]
  dsimp only
  rw [← front, canonical_spell]
  cases hpath : u.path with
  | nil =>
    have hnames : u.names = [] := by
      rw [names, hpath]
      unfold withDrive
      split_ifs <;> rfl
    have hkept : (if u.spell.length =
        (u.scheme.map canonicalizeToLower ++ [colon, slash, slash]).length then u.front
          else chop slash u.front) = u.front := by
      split_ifs with hlength
      · rfl
      · exact chop_front hpath hlength
    have hsegs : uriSegments ([] : CStr).tail = [] := rfl
    rw [List.take_nil, List.append_nil, hsegs, List.foldl_nil]
    dsimp only
    rw [hkept, List.take_length, List.drop_length, hnames]
    rfl
  | cons c path =>
    obtain rfl : c = slash := u.goesOn_path c (by rw [hpath]; rfl)
    have hlength : ¬u.spell.length =
        (u.scheme.map canonicalizeToLower ++ [colon, slash, slash]).length := by
      simp [spell, hpath]
    have hcopied := copied_path u.front path
    rw [← names_slash hpath] at hcopied
    rw [if_neg hlength, ← hcopied]
    rfl

/-- A host in other brackets loses the one that closes it. -/
theorem canonicalize_cut {u : AbsoluteUri} (h : ¬PlainHost u.host) :
    ∃ rest, rightBracket ∉ rest ∧ svnUriCanonicalize u.spell =
      some (u.scheme.map canonicalizeToLower ++ [colon, slash, slash] ++ u.user ++ rest) := by
  obtain ⟨hscheme, huser⟩ := u.scans
  obtain ⟨address, c, text, hhost, haddress, hc, hslash, hbracket, -⟩ := u.isHost.cut h
  have htake : (address ++ c :: (text ++ (u.port ++ u.path))).takeWhile isAddressChar =
      address := by
    apply takeWhile_stop haddress
    intro d hd
    obtain rfl := Option.some.inj hd
    exact hc
  have hcut : uriHost (u.host ++ (u.port ++ u.path)) =
      (leftBracket :: address.map canonicalizeToLower, c :: (text ++ (u.port ++ u.path))) := by
    rw [hhost, List.cons_append, List.append_assoc, List.cons_append, uriHost,
      if_pos List.getElem?_cons_zero]
    dsimp only [List.tail_cons]
    rw [htake, List.drop_left, if_neg]
    intro hclosed
    exact hbracket (Option.some.inj hclosed)
  have hport (canon : CStr) : uriPort canon (c :: (text ++ (u.port ++ u.path))) =
      ([], c :: (text ++ (u.port ++ u.path))) := by
    rw [uriPort, if_neg]
    intro hcolon
    rw [Option.some.inj hcolon] at hc
    exact absurd hc (by decide)
  rw [svnUriCanonicalize, canonicalizeUri, if_neg u.spell_absolute, hscheme]
  dsimp only
  rw [huser]
  dsimp only
  rw [hcut]
  dsimp only
  rw [hport]
  dsimp only [List.take_succ_cons, List.take_zero, List.tail_cons]
  obtain ⟨back, hback⟩ := @canon_front (u.scheme.map canonicalizeToLower ++ [colon, slash, slash] ++
    u.user ++ leftBracket :: address.map canonicalizeToLower ++ []) (text ++ (u.port ++ u.path)) c
    hslash (u.spell.length =
      (u.scheme.map canonicalizeToLower ++ [colon, slash, slash]).length) inferInstance
  rw [hback, List.take_left, List.drop_left]
  refine ⟨leftBracket :: address.map canonicalizeToLower ++ [c] ++ normalizeUriChars back, ?_, ?_⟩
  · rw [normalizeUriChars_eq, List.mem_append, mem_percentEncode (by decide) (by decide)]
    rintro (hmem | ⟨hvalid, -⟩)
    · rw [List.cons_append, List.mem_cons, List.mem_append, List.mem_singleton,
        mem_map_toLower (by decide)] at hmem
      obtain hmem | hmem | hmem := hmem
      · exact absurd hmem (by decide)
      · exact absurd (haddress rightBracket hmem) (by decide)
      · exact hbracket hmem.symm
    · exact absurd hvalid (by decide)
  · simp

end AbsoluteUri

end SharpGit.Svn
