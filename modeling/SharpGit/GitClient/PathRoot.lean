import SharpGit.GitClient.NormalizeFullPath

namespace SharpGit.GitClient.GitTools

open Library Native

variable {unicode : UnicodeData} {invalid : List UInt16}

/-- The root of a normalized path. -/
inductive IsRoot (unicode : UnicodeData) : NetString → Prop
  | drive {letter : UInt16} (hletter : isUpper letter = true) :
      IsRoot unicode [letter, colon, backslash]
  | share {host share : NetString} (hhost : host ≠ [])
      (hhostChars : ∀ c ∈ host, hostChar c = true) (hshare : share ≠ [])
      (hshareChars : ∀ c ∈ share, ShareChar unicode c) :
      IsRoot unicode (backslash :: backslash :: (host ++ backslash :: share))

/-- The root with a separator behind it; that of a drive has one. -/
def closeRoot (root : NetString) : NetString :=
  if root.getLast? = some backslash then root else root ++ [backslash]

abbrev joinComponents (names : List NetString) : NetString := [backslash].intercalate names

def joinRoot (root : NetString) (names : List NetString) : NetString :=
  if names = [] then root else closeRoot root ++ joinComponents names

theorem joinComponents_cons {names : List NetString} (name : NetString) (h : names ≠ []) :
    joinComponents (name :: names) = name ++ backslash :: joinComponents names := by
  rw [joinComponents, List.intercalate_cons_of_ne_nil h, List.append_assoc, List.singleton_append]

theorem Components.names {rest : NetString} (h : Components invalid rest) :
    ∃ names, names ≠ [] ∧ (∀ name ∈ names, Component invalid name) ∧
      rest = joinComponents names := by
  induction h with
  | @last name h =>
    exact ⟨[name], List.cons_ne_nil _ _, List.forall_mem_singleton.mpr h,
      List.intercalate_singleton.symm⟩
  | @more name rest h _ ih =>
    obtain ⟨names, hnames, hall, rfl⟩ := ih
    exact ⟨name :: names, List.cons_ne_nil _ _, List.forall_mem_cons.mpr ⟨h, hall⟩,
      (joinComponents_cons name hnames).symm⟩

theorem components_joinComponents {names : List NetString} (hnames : names ≠ [])
    (hall : ∀ name ∈ names, Component invalid name) :
    Components invalid (joinComponents names) := by
  induction names with
  | nil => exact absurd rfl hnames
  | cons name names ih =>
    have hname := hall name List.mem_cons_self
    by_cases hrest : names = []
    · rw [hrest, joinComponents, List.intercalate_singleton]
      exact .last hname
    · rw [joinComponents_cons name hrest]
      exact .more hname (ih hrest fun n hn => hall n (List.mem_cons_of_mem _ hn))

theorem closeRoot_drive (letter : UInt16) :
    closeRoot [letter, colon, backslash] = [letter, colon, backslash] := if_pos rfl

theorem hostChar_ne_backslash {c : UInt16} (h : hostChar c = true) : c ≠ backslash := by
  intro hc
  rw [hc, hostChar_backslash] at h
  cases h

theorem closeRoot_share {host share : NetString} (hshare : share ≠ [])
    (hshareChars : ∀ c ∈ share, ShareChar unicode c) :
    closeRoot (backslash :: backslash :: (host ++ backslash :: share)) =
      backslash :: backslash :: (host ++ backslash :: share) ++ [backslash] := by
  apply if_neg
  have hlast := @share_getLast [] share [] hshare
    (fun c hc => shareChar_ne_backslash (hshareChars c hc)) (.inl rfl)
    (backslash :: backslash :: (host ++ [backslash]))
  simpa using hlast

/-- Every normalized path is a root with components. -/
theorem NormalizedPath.root_names {path : NetString} (h : NormalizedPath unicode invalid path) :
    ∃ root names, IsRoot unicode root ∧ (∀ name ∈ names, Component invalid name) ∧
      path = joinRoot root names := by
  cases h with
  | @drive letter rest hletter hrest =>
    refine ⟨[letter, colon, backslash], ?_⟩
    cases hrest with
    | inl hnil =>
      subst hnil
      exact ⟨[], .drive hletter, by simp, rfl⟩
    | inr hcomponents =>
      obtain ⟨names, hnames, hall, rfl⟩ := hcomponents.names
      refine ⟨names, .drive hletter, hall, ?_⟩
      rw [joinRoot, if_neg hnames, closeRoot_drive]
      rfl
  | @share host share rest hhost hhostChars hshare hshareChars hrest =>
    refine ⟨backslash :: backslash :: (host ++ backslash :: share), ?_⟩
    have hroot : IsRoot unicode (backslash :: backslash :: (host ++ backslash :: share)) :=
      .share hhost hhostChars hshare hshareChars
    rcases hrest with hnil | ⟨rest, hrest, hcomponents⟩
    · subst hnil
      exact ⟨[], hroot, by simp, by simp [joinRoot]⟩
    · obtain ⟨names, hnames, hall, rfl⟩ := hcomponents.names
      refine ⟨names, hroot, hall, ?_⟩
      rw [joinRoot, if_neg hnames, closeRoot_share hshare hshareChars, hrest]
      simp

theorem normalizedPath_joinRoot {root : NetString} {names : List NetString}
    (hroot : IsRoot unicode root) (hall : ∀ name ∈ names, Component invalid name) :
    NormalizedPath unicode invalid (joinRoot root names) := by
  cases hroot with
  | @drive letter hletter =>
    by_cases hnames : names = []
    · rw [joinRoot, if_pos hnames]
      exact .drive hletter (.inl rfl)
    · rw [joinRoot, if_neg hnames, closeRoot_drive]
      exact .drive hletter (.inr (components_joinComponents hnames hall))
  | @share host share hhost hhostChars hshare hshareChars =>
    by_cases hnames : names = []
    · have hpath := @NormalizedPath.share unicode invalid host share [] hhost hhostChars hshare
        hshareChars (.inl rfl)
      rw [joinRoot, if_pos hnames]
      simpa using hpath
    · have hpath := @NormalizedPath.share unicode invalid host share _ hhost hhostChars hshare
        hshareChars (.inr ⟨_, rfl, components_joinComponents hnames hall⟩)
      rw [joinRoot, if_neg hnames, closeRoot_share hshare hshareChars]
      simpa using hpath

theorem isUpper_range {c : UInt16} (h : isUpper c = true) : 0x41 ≤ c.toNat ∧ c.toNat ≤ 0x5a := by
  simpa [isUpper, UInt16.le_iff_toNat_le] using h

theorem isLower_of_upper {c : UInt16} (h : isUpper c = true) : isLower c = false := by
  have hrange := isUpper_range h
  rw [isLower, Bool.and_eq_false_iff, decide_eq_false_iff_not, UInt16.le_iff_toNat_le]
  left
  simp only [UInt16.reduceToNat]
  omega

theorem hostChar_not_upper {c : UInt16} (h : hostChar c = true) : isUpper c = false := by
  rw [← Bool.not_eq_true]
  intro hupper
  have hrange := isUpper_range hupper
  simp only [hostChar, isLower_of_upper hupper, isDigit, hostChars, Bool.or_eq_true,
    Bool.and_eq_true, decide_eq_true_eq, List.contains_iff_mem, List.mem_cons, List.not_mem_nil,
    or_false, Bool.false_eq_true, false_or, UInt16.le_iff_toNat_le, UInt16.reduceToNat] at h
  rcases h with hdigit | rfl | rfl | rfl
  · omega
  · revert hrange
    decide
  · revert hrange
    decide
  · revert hrange
    decide

/-- The host of a root is in its normal case already. -/
theorem host_toLower {host : NetString} (hhost : ∀ c ∈ host, hostChar c = true) :
    host.map unicode.toLower = host := by
  have hsame : ∀ c ∈ host, unicode.toLower c = id c := by
    intro c hc
    have hchar := hhost c hc
    rw [unicode.toLower_ascii c (hostChar_lt (.inl hchar)), hostChar_not_upper hchar]
    rfl
  rw [List.map_congr_left hsame, List.map_id]

theorem getPathRootPart_joinRoot {root : NetString} (names : List NetString)
    (hroot : IsRoot unicode root) :
    getPathRootPart unicode (joinRoot root names) = .ok (some root) := by
  cases hroot with
  | @drive letter hletter =>
    have hlower := isLower_of_upper hletter
    have hfront : ∃ rest, joinRoot [letter, colon, backslash] names =
        letter :: colon :: backslash :: rest := by
      by_cases hnames : names = []
      · exact ⟨[], if_pos hnames⟩
      · refine ⟨joinComponents names, ?_⟩
        rw [joinRoot, if_neg hnames, closeRoot_drive]
        rfl
    obtain ⟨rest, hpath⟩ := hfront
    rw [hpath, getPathRootPart, if_neg (List.cons_ne_nil _ _), if_pos (by simp)]
    simp [hlower]
  | @share host share hhost hhostChars hshare hshareChars =>
    have hhostSep : ∀ c ∈ host, c ≠ backslash := fun c hc => hostChar_ne_backslash (hhostChars c hc)
    have hshareSep : ∀ c ∈ share, c ≠ backslash :=
      fun c hc => shareChar_ne_backslash (hshareChars c hc)
    by_cases hnames : names = []
    · have hroot := @getPathRootPart_share unicode host share [] hhost hhostSep hshareSep (.inl rfl)
      rw [host_toLower hhostChars, sharePath, List.append_nil] at hroot
      rw [joinRoot, if_pos hnames]
      exact hroot
    · have hroot := @getPathRootPart_share unicode host share _ hhost hhostSep hshareSep
        (.inr ⟨joinComponents names, rfl⟩)
      rw [host_toLower hhostChars, sharePath] at hroot
      rw [joinRoot, if_neg hnames, closeRoot_share hshare hshareChars, ← hroot]
      simp

end SharpGit.GitClient.GitTools
