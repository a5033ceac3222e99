import Mathlib.Data.List.Infix

namespace SharpGit.Native

/-- A NUL-terminated string as its bytes. The NUL is not among them: reading the byte at the
length gives `none`. -/
abbrev CStr := List UInt8

abbrev slash : UInt8 := 0x2f
abbrev backslash : UInt8 := 0x5c
abbrev dot : UInt8 := 0x2e
abbrev colon : UInt8 := 0x3a

def isLower (c : UInt8) : Bool := 0x61 ≤ c && c ≤ 0x7a
def isUpper (c : UInt8) : Bool := 0x41 ≤ c && c ≤ 0x5a
def isLetter (c : UInt8) : Bool := isLower c || isUpper c

/-- A native function sees a string up to its first NUL. -/
def upToNul (s : CStr) : CStr := s.takeWhile (· ≠ 0)

/-- The suffix of `s` at the first occurrence of `pattern`. -/
def strstr (s pattern : CStr) : Option CStr :=
  s.tails.find? fun t => pattern.isPrefixOf t

/-- The suffix of a string at the last occurrence of `c`. -/
def strrchr (c : UInt8) : CStr → Option CStr
  | [] => none
  | b :: s =>
    match strrchr c s with
    | some t => some t
    | none => if b = c then some (b :: s) else none

/-- The sign of `strcmp`: bytes are compared unsigned and the end comes before any byte. -/
def strcmp : CStr → CStr → Int
  | [], [] => 0
  | [], _ :: _ => -1
  | _ :: _, [] => 1
  | a :: s, b :: t => if a < b then -1 else if b < a then 1 else strcmp s t

theorem strstr_isSome {s pattern : CStr} : (strstr s pattern).isSome ↔ pattern <:+: s := by
  simp only [strstr, List.find?_isSome, List.mem_tails, List.isPrefixOf_iff_prefix]
  constructor
  · intro ⟨t, ht, hp⟩
    exact List.infix_iff_prefix_suffix.mpr ⟨t, hp, ht⟩
  · intro h
    obtain ⟨t, hp, ht⟩ := List.infix_iff_prefix_suffix.mp h
    exact ⟨t, ht, hp⟩

theorem strrchr_eq_none {c : UInt8} {s : CStr} : strrchr c s = none ↔ c ∉ s := by
  induction s with
  | nil => simp [strrchr]
  | cons b s ih =>
    rw [strrchr, List.mem_cons, not_or, ← ih]
    cases strrchr c s with
    | some t => simp
    | none => simp [eq_comm]

theorem strrchr_append {c : UInt8} (s : CStr) {t : CStr} (h : c ∉ t) :
    strrchr c (s ++ c :: t) = some (c :: t) := by
  induction s with
  | nil =>
    show strrchr c (c :: t) = _
    rw [strrchr, strrchr_eq_none.mpr h]
    exact if_pos rfl
  | cons b s ih =>
    rw [List.cons_append, strrchr, ih]

/-- Behind the last `c` there is no other. -/
theorem strrchr_eq_some {c : UInt8} {s t : CStr} (h : strrchr c s = some t) :
    ∃ before after, s = before ++ c :: after ∧ t = c :: after ∧ c ∉ after := by
  induction s with
  | nil => cases h
  | cons b s ih =>
    rw [strrchr] at h
    cases hs : strrchr c s with
    | some u =>
      rw [hs] at h
      obtain rfl := Option.some.inj h
      obtain ⟨before, after, rfl, hu, hafter⟩ := ih hs
      exact ⟨b :: before, after, rfl, hu, hafter⟩
    | none =>
      rw [hs] at h
      dsimp only at h
      split at h
      · rename_i hb
        subst hb
        exact ⟨[], s, rfl, (Option.some.inj h).symm, strrchr_eq_none.mp hs⟩
      · cases h

theorem strcmp_self (s : CStr) : strcmp s s = 0 := by
  induction s with
  | nil => rfl
  | cons a s ih => simp [strcmp, ih]

theorem strcmp_eq_zero {s t : CStr} : strcmp s t = 0 ↔ s = t := by
  constructor
  · intro h
    fun_induction strcmp s t with
    | case1 => rfl
    | case2 => simp at h
    | case3 => simp at h
    | case4 => simp at h
    | case5 => simp at h
    | case6 a s b t hab hba ih =>
      rw [UInt8.le_antisymm (UInt8.not_lt.mp hba) (UInt8.not_lt.mp hab), ih h]
  · intro heq
    subst heq
    exact strcmp_self s

theorem strcmp_swap (s t : CStr) : strcmp t s = -strcmp s t := by
  fun_induction strcmp s t with
  | case1 => rfl
  | case2 => rfl
  | case3 => rfl
  | case4 a s b t hab =>
    rw [strcmp, if_neg (UInt8.not_lt.mpr (UInt8.le_of_lt hab)), if_pos hab]
    rfl
  | case5 a s b t hab hba => rw [strcmp, if_pos hba]
  | case6 a s b t hab hba ih => rw [strcmp, if_neg hba, if_neg hab, ih]

theorem strcmp_lt_trans {s t u : CStr} (hst : strcmp s t < 0) (htu : strcmp t u < 0) :
    strcmp s u < 0 := by
  induction s generalizing t u with
  | nil =>
    cases u with
    | nil => cases t <;> simp [strcmp] at htu
    | cons c u => simp [strcmp]
  | cons a s ih =>
    cases t with
    | nil => simp [strcmp] at hst
    | cons b t =>
      cases u with
      | nil => simp [strcmp] at htu
      | cons c u =>
        simp only [strcmp, UInt8.lt_iff_toNat_lt] at hst htu ⊢
        split_ifs at hst htu ⊢ <;> first | omega | exact ih hst htu

theorem strcmp_trichotomy (s t : CStr) : strcmp s t < 0 ∨ s = t ∨ strcmp t s < 0 := by
  rw [strcmp_swap s t, ← strcmp_eq_zero (s := s) (t := t)]
  omega

theorem strcmp_append_left (s t u : CStr) : strcmp (s ++ t) (s ++ u) = strcmp t u := by
  induction s with
  | nil => rfl
  | cons a s ih => simpa [strcmp] using ih

theorem strcmp_append_pos {s t : CStr} (ht : t ≠ []) : strcmp s (s ++ t) < 0 := by
  have h := strcmp_append_left s [] t
  rw [List.append_nil] at h
  rw [h]
  cases t with
  | nil => exact absurd rfl ht
  | cons c t => simp [strcmp]

theorem strcmp_cons_le {a b : UInt8} {s t : CStr} (h : strcmp (a :: s) (b :: t) < 0) : a ≤ b := by
  apply UInt8.not_lt.mp
  intro hba
  rw [strcmp, if_neg (UInt8.not_lt.mpr (UInt8.le_of_lt hba)), if_pos hba] at h
  exact absurd h (by decide)

/-- What lies between two strings with a common front has it too. -/
theorem front_between {p s t u : CStr} (hs : p <+: s) (hu : p <+: u) (hst : strcmp s t < 0)
    (htu : strcmp t u < 0) : p <+: t := by
  induction p generalizing s t u with
  | nil => exact List.nil_prefix
  | cons a p ih =>
    obtain ⟨s, rfl⟩ := hs
    obtain ⟨u, rfl⟩ := hu
    cases t with
    | nil => simp [strcmp] at hst
    | cons b t =>
      obtain rfl := UInt8.le_antisymm (strcmp_cons_le hst) (strcmp_cons_le htu)
      simp only [List.cons_append, strcmp, UInt8.lt_irrefl, if_false] at hst htu
      exact List.cons_prefix_cons.mpr
        ⟨rfl, ih (List.prefix_append p s) (List.prefix_append p u) hst htu⟩

theorem isLower_range {c : UInt8} (h : isLower c = true) : 0x61 ≤ c.toNat ∧ c.toNat ≤ 0x7a := by
  simpa [isLower, UInt8.le_iff_toNat_le] using h

theorem isUpper_range {c : UInt8} (h : isUpper c = true) : 0x41 ≤ c.toNat ∧ c.toNat ≤ 0x5a := by
  simpa [isUpper, UInt8.le_iff_toNat_le] using h

theorem isLetter_ascii {c : UInt8} (h : isLetter c = true) : 0x41 ≤ c.toNat ∧ c.toNat < 0x80 := by
  rw [isLetter, Bool.or_eq_true] at h
  obtain h | h := h
  · have := isLower_range h
    omega
  · have := isUpper_range h
    omega

theorem isLetter_ne_slash {c : UInt8} (h : isLetter c = true) : c ≠ slash := by
  have := isLetter_ascii h
  intro heq
  subst heq
  exact absurd this (by decide)

theorem eq_cons_of_front {s : CStr} {c : UInt8} (h : s[0]? = some c) : ∃ r, s = c :: r := by
  rw [← List.head?_eq_getElem?] at h
  exact List.head?_eq_some_iff.mp h

end SharpGit.Native
