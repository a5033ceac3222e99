import SharpGit.Implementation.GitPool

namespace SharpGit.Implementation

open Library Native Svn

/-- The string with '/' for every '\'. -/
def unifySeparators (path : NetString) : NetString :=
  path.map fun u => if u = 0x5c then 0x2f else u

def unifyChar (c : Char) : Char := if c = '\\' then '/' else c

theorem unitChar_unify (u : UInt16) :
    unitChar (if u = 0x5c then 0x2f else u) = unifyChar (unitChar u) := by
  by_cases hu : u = 0x5c
  · subst hu
    decide
  · have hne : unitChar u ≠ '\\' := by
      rw [unitChar]
      split
      · decide
      · rename_i hsurrogate
        intro hchar
        have hvalid : u.toNat.isValidChar := by
          simp only [isHighSurrogate, isLowSurrogate, UInt16.le_iff_toNat_le,
            UInt16.lt_iff_toNat_lt, Bool.or_eq_true, Bool.and_eq_true, decide_eq_true_eq,
            not_or, not_and_or] at hsurrogate
          simp at hsurrogate
          have hlt := u.toNat_lt
          exact (by omega : u.toNat < 0xd800 ∨ 0xdfff < u.toNat ∧ u.toNat < 0x110000)
        have hnat := congrArg Char.toNat hchar
        rw [toNat_charOfNat hvalid] at hnat
        exact hu (UInt16.toNat_inj.mp hnat)
    rw [if_neg hu, unifyChar, if_neg hne]

theorem isHighSurrogate_unify (u : UInt16) :
    isHighSurrogate (if u = 0x5c then 0x2f else u) = isHighSurrogate u := by
  split
  · subst u
    decide
  · rfl

theorem isLowSurrogate_unify (u : UInt16) :
    isLowSurrogate (if u = 0x5c then 0x2f else u) = isLowSurrogate u := by
  split
  · subst u
    decide
  · rfl

/-- No half of a pair is a separator, and no pair is one. -/
theorem utf16Decode_unifySeparators (path : NetString) :
    utf16Decode (unifySeparators path) = (utf16Decode path).map unifyChar := by
  induction path using utf16Decode.induct with
  | case1 => rfl
  | case2 u =>
    rw [unifySeparators, List.map_singleton, utf16Decode, utf16Decode, unitChar_unify]
    rfl
  | case3 u v us h ih =>
    have hpair := h
    rw [← isHighSurrogate_unify u, ← isLowSurrogate_unify v] at hpair
    obtain ⟨hhigh, hlow⟩ := Bool.and_eq_true_iff.mp h
    have hu : u ≠ 0x5c := by
      rintro rfl
      exact absurd hhigh (by decide)
    have hv : v ≠ 0x5c := by
      rintro rfl
      exact absurd hlow (by decide)
    have hchar : pairChar u v ≠ '\\' := by
      intro heq
      have hge := pairChar_ge h
      rw [heq] at hge
      revert hge
      decide
    rw [unifySeparators] at ih
    rw [unifySeparators, List.map_cons, List.map_cons, utf16Decode, if_pos hpair, if_neg hu,
      if_neg hv, ih, utf16Decode, if_pos h, List.map_cons, unifyChar, if_neg hchar]
  | case4 u v us h ih =>
    have hpair := h
    rw [← isHighSurrogate_unify u, ← isLowSurrogate_unify v] at hpair
    rw [unifySeparators, List.map_cons] at ih
    rw [unifySeparators, List.map_cons, List.map_cons, utf16Decode, if_neg hpair, ih, utf16Decode,
      if_neg h, List.map_cons, unitChar_unify]

theorem utf8EncodeChar_unify (c : Char) :
    String.utf8EncodeChar (unifyChar c) = internalStyle (String.utf8EncodeChar c) := by
  by_cases hc : c = '\\'
  · subst hc
    decide
  · rw [unifyChar, if_neg hc, internalStyle_of_no_backslash]
    intro hmem
    obtain ⟨b, -, heq, hbytes⟩ | ⟨-, -, hge⟩ := utf8EncodeChar_cases c
    · rw [hbytes, List.mem_singleton] at hmem
      subst hmem
      exact hc (Char.toNat_inj.mp heq)
    · have hlarge := hge _ hmem
      revert hlarge
      decide

/-- It is the same to replace the separators in the string and in its bytes. -/
theorem utf8GetBytes_unifySeparators (path : NetString) :
    utf8GetBytes (unifySeparators path) = internalStyle (utf8GetBytes path) := by
  rw [utf8GetBytes, utf8GetBytes, utf16Decode_unifySeparators, List.flatMap_map, internalStyle,
    List.map_flatMap]
  apply List.flatMap_congr
  intro c _
  exact utf8EncodeChar_unify c

/-- The result is a path that `AllocRelpath` leaves as it is. -/
theorem allocRelpath_again (path : NetString) :
    allocRelpath (utf8PtrToString (allocRelpath path)) = allocRelpath path := by
  have hbytes : utf8GetBytes (utf8PtrToString (allocRelpath path)) = allocRelpath path :=
    utf8GetBytes_getString (validUtf8_allocRelpath path)
  rw [allocRelpath_canonical]
  · exact hbytes
  · rw [hbytes]
    exact relpathIsCanonical_allocRelpath path
  · rw [hbytes]
    exact backslash_not_mem_allocRelpath path

theorem allocRelpath_unifySeparators (path : NetString) :
    allocRelpath (unifySeparators path) = allocRelpath path := by
  have hstyle : internalStyle (internalStyle (utf8GetBytes path)) =
      internalStyle (utf8GetBytes path) :=
    internalStyle_of_no_backslash (backslash_not_mem_internalStyle _)
  rw [allocRelpath_eq, allocRelpath_eq, utf8GetBytes_unifySeparators, hstyle]

/-- Neither empty nor '.' segments and no '/' at either end. -/
structure PlainRelpath (s : CStr) : Prop where
  segments : s = [] ∨ ∀ w ∈ s.splitOn slash, w ≠ [] ∧ w ≠ [dot]
  leading : s.head? ≠ some slash
  trailing : s.getLast? ≠ some slash

theorem plainRelpath_of_canonical {s : CStr} (h : relpathIsCanonical s = true) :
    PlainRelpath s := by
  have hpieces := (relpathIsCanonical_pieces s).mp h
  have hwords (hne : s ≠ []) : ∀ w ∈ s.splitOn slash, w ≠ [] ∧ w ≠ [dot] :=
    fun w hw => keepName_iff.mp (hpieces.resolve_left hne w hw)
  constructor
  · by_cases hne : s = []
    · exact .inl hne
    · exact .inr (hwords hne)
  · intro hhead
    obtain ⟨rest, rfl⟩ := List.head?_eq_some_iff.mp hhead
    have hempty := (hwords (List.cons_ne_nil _ _) []) (by rw [splitOn_cons_self]; simp)
    exact hempty.1 rfl
  · intro hlast
    obtain ⟨front, rfl⟩ := List.getLast?_eq_some_iff.mp hlast
    have hempty := (hwords (by simp) []) (by rw [List.splitOn_append_cons_self]; simp)
    exact hempty.1 rfl

/-- `AllocRelpath` canonicalizes the path with '/' separators, into a canonical relpath that it
leaves as it is; which separators are '\' makes no difference. -/
theorem allocRelpath_canonicalizes (path : NetString) :
    allocRelpath path = svnRelpathCanonicalize (internalStyle (utf8GetBytes path)) ∧
      relpathIsCanonical (allocRelpath path) = true ∧ PlainRelpath (allocRelpath path) ∧
      allocRelpath (utf8PtrToString (allocRelpath path)) = allocRelpath path ∧
      ∀ other, unifySeparators other = unifySeparators path →
        allocRelpath other = allocRelpath path := by
  have hcanonical := relpathIsCanonical_allocRelpath path
  refine ⟨allocRelpath_eq path, hcanonical, plainRelpath_of_canonical hcanonical,
    allocRelpath_again path, ?_⟩
  intro other hother
  rw [← allocRelpath_unifySeparators other, hother, allocRelpath_unifySeparators]

end SharpGit.Implementation
