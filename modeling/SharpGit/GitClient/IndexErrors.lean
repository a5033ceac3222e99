import SharpGit.GitClient.TruePath

namespace SharpGit.GitClient.GitTools

open Library Native

variable {unicode : UnicodeData} {invalid : List UInt16}

/-- A UNC path that ends within its host name. -/
def UnfinishedHost (path : NetString) : Prop :=
  ∃ host, host ≠ [] ∧ (∀ c ∈ host, hostChar c = true) ∧ path = backslash :: backslash :: host

/-- The code answers, one way or the other. -/
abbrev Returns (x : Except GitToolsException Bool) : Prop := ∃ b, x = .ok b

theorem nameLoop_returns (turns : Nat) (front rest : NetString) :
    Returns (nameLoop (invalidCharMap invalid) (front ++ rest) turns front.length) := by
  induction turns generalizing front rest with
  | zero => exact ⟨true, rfl⟩
  | succ turns ih =>
    rw [nameLoop]
    split
    · rcases @nameTurn_sound invalid front rest with hturn | ⟨hturn, _⟩ |
        ⟨name, next, hsplit, _, _, hturn⟩
      · exact ⟨false, by rw [hturn]; rfl⟩
      · exact ⟨true, by rw [hturn]; rfl⟩
      · have hassoc : front ++ rest = (front ++ name ++ [backslash]) ++ next := by
          rw [hsplit]
          simp
        obtain ⟨b, hb⟩ := ih (front ++ name ++ [backslash]) next
        rw [← hassoc] at hb
        exact ⟨b, by rw [hturn]; exact hb⟩
    · exact ⟨true, rfl⟩

theorem afterShare_returns (base tail : NetString) :
    Returns (afterShare (invalidCharMap invalid) (base ++ tail) base.length) := by
  cases tail with
  | nil => exact ⟨true, by rw [afterShare, if_pos (by simp)]; rfl⟩
  | cons c names =>
    have hmore : base.length ≠ (base ++ c :: names).length := by simp
    have hbegin : base.length + 1 = (base ++ [c]).length := by simp
    have hassoc : base ++ c :: names = (base ++ [c]) ++ names := by simp
    obtain ⟨b, hb⟩ := @nameLoop_returns invalid
      ((base ++ c :: names).length - (base.length + 1)) (base ++ [c]) names
    rw [← hbegin, ← hassoc] at hb
    rw [afterShare, if_neg hmore, isDirSeparator_front]
    simp only [bind, Except.bind]
    split
    · exact ⟨false, rfl⟩
    · split
      · exact ⟨false, rfl⟩
      · exact ⟨b, hb⟩

/-- The read behind the host name is the only one that nothing guards. -/
theorem shareNormalized_returns_iff (front rest : NetString) (hfront : front.length ≠ 2) :
    (Returns (shareNormalized unicode (invalidCharMap invalid) (front ++ rest) front.length) ↔
      rest ≠ []) ∧
    (rest = [] → shareNormalized unicode (invalidCharMap invalid) (front ++ rest) front.length =
      .error .indexOutOfRange) := by
  cases rest with
  | nil =>
    have herror : shareNormalized unicode (invalidCharMap invalid) (front ++ []) front.length =
        .error .indexOutOfRange := by
      rw [shareNormalized, if_neg hfront, isDirSeparator, charAt, getElem?_front]
      rfl
    refine ⟨⟨?_, fun h => absurd rfl h⟩, fun _ => herror⟩
    intro hreturns
    obtain ⟨b, hb⟩ := hreturns
    rw [herror] at hb
    cases hb
  | cons c rest =>
    refine ⟨⟨fun _ => List.cons_ne_nil _ _, fun _ => ?_⟩, fun h => by cases h⟩
    by_cases hsep : c = backslash
    · subst hsep
      obtain ⟨share, tail, rfl, hreach, _, _⟩ := reach_split (shareAt unicode) rest
      rw [shareNormalized_run hfront hreach]
      split
      · exact ⟨false, rfl⟩
      · exact afterShare_returns _ tail
    · refine ⟨false, ?_⟩
      rw [shareNormalized, if_neg hfront, isDirSeparator_front]
      simp [hsep, bind, Except.bind, pure, Except.pure]

theorem unfinishedHost_iff (rest : NetString) :
    UnfinishedHost (backslash :: backslash :: rest) ↔
      rest.takeWhile hostChar ≠ [] ∧ rest.dropWhile hostChar = [] := by
  constructor
  · intro ⟨host, hhost, hchars, hpath⟩
    obtain rfl : rest = host := by simpa using hpath
    rw [List.dropWhile_eq_nil_iff]
    exact ⟨by rw [List.takeWhile_eq_self_iff.mpr hchars]; exact hhost, hchars⟩
  · intro ⟨htake, hdrop⟩
    have hall := List.dropWhile_eq_nil_iff.mp hdrop
    rw [List.takeWhile_eq_self_iff.mpr hall] at htake
    exact ⟨rest, htake, hall, rfl⟩

theorem drive_returns {letter : UInt16} {rest : NetString} (hletter : letter ≠ backslash)
    (hlength : 2 ≤ rest.length) :
    Returns (isNormalizedFullPath unicode invalid (letter :: rest)) := by
  obtain ⟨second, rest, rfl⟩ := List.exists_cons_of_length_pos (by omega : 0 < rest.length)
  obtain ⟨third, rest, rfl⟩ := List.exists_cons_of_length_pos
    (by rw [List.length_cons] at hlength; omega : 0 < rest.length)
  rw [driveNormalized_run hletter]
  split
  · exact nameLoop_returns rest.length [letter, second, third] rest
  · exact ⟨false, rfl⟩

/-- A host is unfinished just when the share's first separator is read behind the end. -/
theorem unc_returns_iff {rest : NetString} (hrest : rest ≠ []) :
    (Returns (isNormalizedFullPath unicode invalid (backslash :: backslash :: rest)) ↔
      ¬UnfinishedHost (backslash :: backslash :: rest)) ∧
    (UnfinishedHost (backslash :: backslash :: rest) →
      isNormalizedFullPath unicode invalid (backslash :: backslash :: rest) =
        .error .indexOutOfRange) := by
  rw [uncNormalized_run hrest, unfinishedHost_iff]
  by_cases hhost : rest.takeWhile hostChar = []
  · rw [hhost]
    exact ⟨⟨fun _ h => h.1 rfl, fun _ => ⟨false, rfl⟩⟩, fun h => absurd rfl h.1⟩
  · have hfront : (backslash :: backslash :: rest.takeWhile hostChar).length ≠ 2 := by
      simpa using hhost
    have hshare := @shareNormalized_returns_iff unicode invalid
      (backslash :: backslash :: rest.takeWhile hostChar) (rest.dropWhile hostChar) hfront
    refine ⟨?_, fun h => hshare.2 h.2⟩
    rw [hshare.1]
    simp [hhost]

/-- `IsNormalizedFullPath` answers, except for an unfinished host. -/
theorem isNormalizedFullPath_returns_iff (path : NetString) (hpath : path ≠ []) :
    (Returns (isNormalizedFullPath unicode invalid path) ↔ ¬UnfinishedHost path) ∧
    (UnfinishedHost path →
      isNormalizedFullPath unicode invalid path = .error .indexOutOfRange) := by
  have hplain : ¬UnfinishedHost path → Returns (isNormalizedFullPath unicode invalid path) →
      (Returns (isNormalizedFullPath unicode invalid path) ↔ ¬UnfinishedHost path) ∧
      (UnfinishedHost path →
        isNormalizedFullPath unicode invalid path = .error .indexOutOfRange) :=
    fun hnot hreturns => ⟨⟨fun _ => hnot, fun _ => hreturns⟩, fun h => absurd h hnot⟩
  rcases beginnings path with hshort | ⟨rest, hrest, rfl⟩ | ⟨second, rest, hsecond, hrest, rfl⟩ |
    ⟨letter, rest, hletter, hlength, rfl⟩
  · apply hplain
    · intro hunfinished
      obtain ⟨host, hhost, -, heq⟩ := hunfinished
      have hpos := List.length_pos_iff.mpr hhost
      rw [heq, List.length_cons, List.length_cons] at hshort
      omega
    · exact ⟨false, short_run hpath hshort⟩
  · exact unc_returns_iff hrest
  · apply hplain
    · intro hunfinished
      obtain ⟨host, -, -, heq⟩ := hunfinished
      exact hsecond (List.cons.inj (List.cons.inj heq).2).1
    · exact ⟨false, separator_run hsecond hrest⟩
  · apply hplain
    · intro hunfinished
      obtain ⟨host, -, -, heq⟩ := hunfinished
      exact hletter (List.cons.inj heq).1
    · exact drive_returns hletter hlength

/-- Only a path that begins with a separator can have the mark of long paths. -/
theorem strip_at_separator (path : NetString) :
    (if path.head? = some backslash then stripLongPrefix path else path) =
      stripLongPrefix path := by
  split
  · rfl
  · rename_i hhead
    have hmark : ¬longPathMark.isPrefixOf path = true := by
      intro hmark
      obtain ⟨rest, rfl⟩ := List.isPrefixOf_iff_prefix.mp hmark
      exact hhead rfl
    rw [stripLongPrefix, if_neg hmark]

/-- No character behind the end is read. -/
abbrev InRange {α : Type} (x : Except GitToolsException α) : Prop := x ≠ .error .indexOutOfRange

theorem inRange_bind {α β : Type} {x : Except GitToolsException α}
    {f : α → Except GitToolsException β} (hx : InRange x) (hf : ∀ a, x = .ok a → InRange (f a)) :
    InRange (x >>= f) := by
  intro h
  rcases except_bind_eq_error.mp h with h | ⟨a, ha, h⟩
  · exact hx h
  · exact hf a ha h

theorem getPathRootPart_inRange (path : NetString) : InRange (getPathRootPart unicode path) := by
  rw [getPathRootPart]
  repeat' split
  all_goals exact fun h => by cases h

theorem substring_inRange (path : NetString) (start : Nat) : InRange (substring path start) := by
  rw [substring]
  split
  · exact fun h => by cases h
  · exact fun h => by cases h

theorem substringTo_inRange (path : NetString) (length : Nat) :
    InRange (substringTo path length) := by
  rw [substringTo]
  split
  · exact fun h => by cases h
  · exact fun h => by cases h

theorem normalizeEnds_inRange (path : NetString) : InRange (normalizeEnds unicode path) := by
  rw [normalizeEnds]
  split
  · dsimp only
    split
    · exact fun h => by cases h
    · exact substringTo_inRange _ 3
  · split
    · apply inRange_bind (getPathRootPart_inRange path)
      intro root _
      cases root with
      | none => exact fun h => by cases h
      | some root =>
        dsimp only
        split
        · exact fun h => by cases h
        · apply inRange_bind (substring_inRange path _)
          intro rest _ h
          cases h
    · exact fun h => by cases h

section Platform

variable {api : PathApi} (hfull : ∀ path, InRange (api.getFullPath path))

theorem longGetFullPath_inRange (path : NetString) : InRange (longGetFullPath api path) := by
  rw [longGetFullPath]
  split
  · exact fun h => by cases h
  · dsimp only
    repeat' split
    all_goals exact fun h => by cases h

theorem retryFullPath_inRange (path : NetString) : InRange (retryFullPath api path) := by
  rw [retryFullPath]
  apply inRange_bind (longGetFullPath_inRange path)
  intro full _
  apply inRange_bind (getPathRootPart_inRange full)
  intro root _
  split
  · exact fun h => by cases h
  · exact fun h => by cases h

include hfull

theorem resolveFullPath_inRange (path : NetString) : InRange (resolveFullPath api path) := by
  have hget := hfull path
  rw [resolveFullPath]
  split
  · cases hx : api.getFullPath path with
    | ok full => exact fun h => by cases h
    | error e =>
      rw [hx] at hget
      cases e with
      | pathTooLong => exact retryFullPath_inRange path
      | notSupported => exact retryFullPath_inRange path
      | _ => exact hget
  · exact retryFullPath_inRange path

/-- Only the test for a normalized path can read behind the end. -/
theorem getNormalizedFullPath_inRange_iff {path : NetString} (hpath : path ≠ []) :
    InRange (getNormalizedFullPath api path) ↔ ¬UnfinishedHost (stripLongPrefix path) := by
  rw [getNormalizedFullPath, if_neg hpath]
  simp only [strip_at_separator]
  by_cases hempty : stripLongPrefix path = []
  · have hnot : ¬UnfinishedHost (stripLongPrefix path) := by
      intro hunfinished
      obtain ⟨host, -, -, heq⟩ := hunfinished
      rw [hempty] at heq
      cases heq
    refine ⟨fun _ => hnot, fun _ h => ?_⟩
    rw [hempty] at h
    cases h
  · have hnormal := @isNormalizedFullPath_returns_iff api.unicode api.invalidPathChars _ hempty
    constructor
    · intro h hhost
      rw [hnormal.2 hhost] at h
      exact h rfl
    · intro h
      obtain ⟨b, hb⟩ := hnormal.1.mpr h
      rw [hb]
      apply inRange_bind (fun h => by cases h)
      intro normal _
      cases normal with
      | true => exact fun h => by cases h
      | false =>
        rw [if_neg Bool.false_ne_true]
        split
        · exact fun h => by cases h
        · apply inRange_bind (resolveFullPath_inRange hfull _)
          intro full _
          exact normalizeEnds_inRange full

theorem getTruePath_inRange_iff {path : NetString} (hpath : path ≠ []) (find : FindFile)
    (bestEffort : Bool) :
    InRange (getTruePath api find path bestEffort) ↔ ¬UnfinishedHost (stripLongPrefix path) := by
  rw [← getNormalizedFullPath_inRange_iff hfull hpath, getTruePath, if_neg hpath]
  constructor
  · intro h herror
    rw [herror] at h
    exact h rfl
  · intro h
    apply inRange_bind h
    intro full _
    apply inRange_bind (getPathRootPart_inRange full)
    intro root _
    cases root with
    | none => exact fun h => by cases h
    | some root => exact fun h => by cases h

end Platform

/-- Stripping the mark of long paths leaves an unfinished host as it is. -/
theorem UnfinishedHost.stripLongPrefix {path : NetString} (h : UnfinishedHost path) :
    UnfinishedHost (stripLongPrefix path) := by
  have hmark : ¬longPathMark.isPrefixOf path = true := by
    intro hmark
    obtain ⟨host, hhost, hchars, rfl⟩ := h
    obtain ⟨rest, hrest⟩ := List.isPrefixOf_iff_prefix.mp hmark
    obtain ⟨c, host, rfl⟩ := List.exists_cons_of_ne_nil hhost
    obtain ⟨rfl, -⟩ := List.cons.inj (List.cons.inj (List.cons.inj hrest).2).2
    have hchar := hchars _ List.mem_cons_self
    revert hchar
    decide
  rw [GitTools.stripLongPrefix, if_neg hmark]
  exact h

/-- The three functions stay within the path just when it is not an unfinished host. -/
theorem readsWithin_iff (api : PathApi) (hfull : ∀ path, InRange (api.getFullPath path))
    (find : FindFile) (path : NetString) (hpath : path ≠ []) :
    (Returns (isNormalizedFullPath api.unicode api.invalidPathChars path) ∧
      InRange (getNormalizedFullPath api path) ∧
      ∀ bestEffort, InRange (getTruePath api find path bestEffort)) ↔
    ¬UnfinishedHost (stripLongPrefix path) := by
  constructor
  · intro ⟨_, h, _⟩
    exact (getNormalizedFullPath_inRange_iff hfull hpath).mp h
  · intro h
    have hnormal := @isNormalizedFullPath_returns_iff api.unicode api.invalidPathChars _ hpath
    exact ⟨hnormal.1.mpr fun hhost => h hhost.stripLongPrefix,
      (getNormalizedFullPath_inRange_iff hfull hpath).mpr h,
      fun bestEffort => (getTruePath_inRange_iff hfull hpath find bestEffort).mpr h⟩

/-- "c:/a" -/
theorem readsWithin_example :
    Returns (isNormalizedFullPath examplePlatform.unicode examplePlatform.invalidPathChars
        [0x63, 0x3a, 0x2f, 0x61]) ∧
      InRange (getNormalizedFullPath examplePlatform [0x63, 0x3a, 0x2f, 0x61]) ∧
      ∀ bestEffort, InRange (getTruePath examplePlatform exampleFind [0x63, 0x3a, 0x2f, 0x61]
        bestEffort) := by
  have hfull : ∀ path, examplePlatform.getFullPath path ≠ .error .indexOutOfRange := by
    intro path h
    replace h : exampleGetFullPath path = .error .indexOutOfRange := h
    rw [exampleGetFullPath] at h
    split at h
    · cases h
    · cases h
  apply (readsWithin_iff examplePlatform hfull exampleFind _ (by decide)).mpr
  rintro ⟨host, -, -, hhost⟩
  cases hhost

/-- "\\\\a": the character behind the host is read without a test. -/
theorem isNormalizedFullPath_unfinishedHost :
    ([0x5c, 0x5c, 0x61] : NetString) ≠ [] ∧
      isNormalizedFullPath asciiUnicode [0, 0x7c] [0x5c, 0x5c, 0x61] = .error .indexOutOfRange ∧
      ¬Returns (isNormalizedFullPath asciiUnicode [0, 0x7c] [0x5c, 0x5c, 0x61]) := by
  have herror : isNormalizedFullPath asciiUnicode [0, 0x7c] [0x5c, 0x5c, 0x61] =
      .error .indexOutOfRange := by decide
  refine ⟨by decide, herror, ?_⟩
  intro ⟨b, hb⟩
  rw [herror] at hb
  cases hb

end SharpGit.GitClient.GitTools
