import SharpGit.GitClient.GitTools

namespace SharpGit.GitClient.GitTools

open Library Native

variable {unicode : UnicodeData} {chars : NetString}

def WordChar (unicode : UnicodeData) (chars : NetString) (c : UInt16) : Prop :=
  unicode.letterOrDigit (unitChar c) = true ∨ c ∈ chars

/-- What a scan over a name looks for at the start of `rest`. -/
def wordAt (unicode : UnicodeData) (chars rest : NetString) : Bool :=
  isLetterOrDigit unicode rest 0 || rest.head?.any chars.contains

def isSurrogate (c : UInt16) : Bool := isHighSurrogate c || isLowSurrogate c

/-- The additional characters are no halves of pairs. -/
abbrev Plain (chars : NetString) : Prop := chars.all (fun c => !isSurrogate c) = true

theorem isHighSurrogate_of_low {c : UInt16} (h : isLowSurrogate c = true) :
    isHighSurrogate c = false := by
  rw [isLowSurrogate, Bool.and_eq_true, decide_eq_true_eq] at h
  rw [isHighSurrogate, Bool.and_eq_false_iff]
  right
  rw [decide_eq_false_iff_not, UInt16.not_lt]
  exact h.1

theorem letterOrDigit_surrogate {c : UInt16} (h : isSurrogate c = true) :
    unicode.letterOrDigit (unitChar c) = false := by
  have hunit : unitChar c = replacement := if_pos h
  rw [hunit]
  exact unicode.letterOrDigit_replacement

theorem surrogate_not_contained (hplain : Plain chars) {c : UInt16} (h : isSurrogate c = true) :
    chars.contains c = false := by
  rw [← Bool.not_eq_true, List.contains_iff_mem]
  intro hmem
  have hnot := List.all_eq_true.mp hplain c hmem
  rw [h] at hnot
  cases hnot

theorem WordChar.not_surrogate (hplain : Plain chars) {c : UInt16}
    (h : WordChar unicode chars c) : isSurrogate c = false := by
  by_contra hne
  have hsurrogate : isSurrogate c = true := by simpa using hne
  cases h with
  | inl hletter =>
    rw [letterOrDigit_surrogate hsurrogate] at hletter
    cases hletter
  | inr hmem =>
    have hnot := surrogate_not_contained hplain hsurrogate
    rw [List.contains_iff_mem.mpr hmem] at hnot
    cases hnot

theorem wordAt_of_not_high {c : UInt16} (h : isHighSurrogate c = false) (rest : NetString) :
    wordAt unicode chars (c :: rest) =
      (unicode.letterOrDigit (unitChar c) || chars.contains c) := by
  cases rest with
  | nil => rfl
  | cons next rest => simp [wordAt, isLetterOrDigit, h]

/-- An ASCII character that is neither stops the scan. -/
theorem wordAt_stop {c : UInt16} (hhigh : isHighSurrogate c = false)
    (hascii : (unitChar c).toNat < 0x80) (hletter : (unitChar c).isAlphanum = false)
    (hchars : chars.contains c = false) (rest : NetString) :
    wordAt unicode chars (c :: rest) = false := by
  rw [wordAt_of_not_high hhigh, unicode.letterOrDigit_ascii _ hascii, hletter, hchars]
  rfl

/-- The second half of a pair stops the scan. -/
theorem wordAt_low (hplain : Plain chars) {c : UInt16} (h : isLowSurrogate c = true)
    (rest : NetString) : wordAt unicode chars (c :: rest) = false := by
  have hsurrogate : isSurrogate c = true := by rw [isSurrogate, h, Bool.or_true]
  rw [wordAt_of_not_high (isHighSurrogate_of_low h), letterOrDigit_surrogate hsurrogate,
    surrogate_not_contained hplain hsurrogate]
  rfl

theorem wordAt_of_wordChar (hplain : Plain chars) {c : UInt16} (h : WordChar unicode chars c)
    (rest : NetString) : wordAt unicode chars (c :: rest) = true := by
  have hnot := h.not_surrogate hplain
  rw [isSurrogate, Bool.or_eq_false_iff] at hnot
  rw [wordAt_of_not_high hnot.1, Bool.or_eq_true, List.contains_iff_mem]
  exact h

/-- What passes is a character of names, or begins a pair. -/
theorem wordChar_of_wordAt {c : UInt16} {rest : NetString}
    (h : wordAt unicode chars (c :: rest) = true) :
    WordChar unicode chars c ∨ ∃ low rest', rest = low :: rest' ∧ isLowSurrogate low = true := by
  cases rest with
  | nil =>
    rw [wordAt, Bool.or_eq_true] at h
    rw [WordChar, ← List.contains_iff_mem]
    exact .inl h
  | cons low rest =>
    cases hlow : isLowSurrogate low with
    | true => exact .inr ⟨low, rest, rfl, hlow⟩
    | false =>
      have hsingle : isLetterOrDigit unicode (c :: low :: rest) 0 =
          unicode.letterOrDigit (unitChar c) := by
        simp [isLetterOrDigit, hlow]
      rw [wordAt, hsingle, Bool.or_eq_true] at h
      rw [WordChar, ← List.contains_iff_mem]
      exact .inl h

/-- A name is scanned to its end where what follows it stops the scan. -/
theorem reach_word (hplain : Plain chars) {word tail : NetString}
    (h : ∀ c ∈ word, WordChar unicode chars c)
    (htail : tail = [] ∨ wordAt unicode chars tail = false) :
    reach (wordAt unicode chars) (word ++ tail) = word.length := by
  apply reach_append
  · intro early late hsplit hlate
    obtain ⟨c, late, rfl⟩ := List.exists_cons_of_ne_nil hlate
    apply wordAt_of_wordChar hplain
    apply h
    rw [hsplit]
    exact List.mem_append_right _ List.mem_cons_self
  · exact htail

/-- What is scanned before something that is no half of a pair is a name. -/
theorem word_of_scanned (hplain : Plain chars) {word tail : NetString}
    (h : ∀ early late, word = early ++ late → late ≠ [] →
      wordAt unicode chars (late ++ tail) = true)
    (htail : ∀ c rest, tail = c :: rest → isLowSurrogate c = false) :
    ∀ c ∈ word, WordChar unicode chars c := by
  intro c hc
  obtain ⟨early, late, hsplit⟩ := List.append_of_mem hc
  have hat := h early (c :: late) hsplit (List.cons_ne_nil _ _)
  rcases wordChar_of_wordAt hat with hword | ⟨low, rest, hrest, hlow⟩
  · exact hword
  · cases late with
    | nil =>
      have hnot := htail low rest hrest
      rw [hlow] at hnot
      cases hnot
    | cons next late =>
      obtain ⟨rfl, -⟩ := List.cons.inj hrest
      have hnext := h (early ++ [c]) (next :: late) (by simp [hsplit]) (List.cons_ne_nil _ _)
      rw [List.cons_append, wordAt_low hplain hlow] at hnext
      cases hnext

end SharpGit.GitClient.GitTools
