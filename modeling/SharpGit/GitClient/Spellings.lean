import SharpGit.GitClient.IndexErrors
import SharpGit.GitClient.InvalidChars

namespace SharpGit.GitClient.GitTools

open Library Native

variable {unicode : UnicodeData} {invalid : List UInt16}

/-- The path with its drive letter or its host in any case, and with separators behind it unless
it is the root of a drive. -/
inductive Respelled : NetString → NetString → Prop
  | drive {letter letter' : UInt16} {rest : NetString} (trailing : Nat)
      (hletter : toUpper letter' = toUpper letter) (hroot : rest = [] → trailing = 0) :
      Respelled (letter :: colon :: backslash :: rest)
        (letter' :: colon :: backslash :: (rest ++ List.replicate trailing backslash))
  | share {host host' rest : NetString} (trailing : Nat) (hhost : backslash ∉ host)
      (hcase : host'.map toUpper = host.map toUpper) :
      Respelled (backslash :: backslash :: (host ++ backslash :: rest))
        (backslash :: backslash ::
          (host' ++ backslash :: (rest ++ List.replicate trailing backslash)))

/-- These, and their long forms. -/
def Spelling (path spelled : NetString) : Prop :=
  ∃ plain, Respelled path plain ∧ (spelled = plain ∨ spelled = longForm plain)

theorem toUpper_eq_cases {c d : UInt16} (h : toUpper d = toUpper c) (hc : hostChar c = true) :
    d = c ∨ isUpper d = true ∧ c = d + 0x20 := by
  rw [toUpper, toUpper] at h
  split at h
  · rename_i hd
    split at h
    · exact .inl (by simpa using h)
    · have hupper := @isUpper_toUpper d (.inr hd)
      rw [toUpper, if_pos hd, h, hostChar_not_upper hc] at hupper
      cases hupper
  · split at h
    · rename_i hlower
      have hupper := @isUpper_toUpper c (.inr hlower)
      rw [toUpper, if_pos hlower, ← h] at hupper
      exact .inr ⟨hupper, by rw [h, UInt16.sub_add_cancel]⟩
    · exact .inl h

theorem hostChar_recased {c d : UInt16} (h : toUpper d = toUpper c) (hc : hostChar c = true) :
    (hostChar d = true ∨ isUpper d = true) ∧ unicode.toLower d = c := by
  cases toUpper_eq_cases h hc with
  | inl hsame =>
    subst hsame
    rw [unicode.toLower_ascii d (hostChar_lt (.inl hc)), hostChar_not_upper hc]
    exact ⟨.inl hc, rfl⟩
  | inr hupper =>
    rw [unicode.toLower_ascii d (hostChar_lt (.inr hupper.1)), if_pos hupper.1]
    exact ⟨.inr hupper.1, hupper.2.symm⟩

theorem host_recased {host host' : NetString} (h : host'.map toUpper = host.map toUpper)
    (hhost : ∀ c ∈ host, hostChar c = true) :
    (∀ c ∈ host', hostChar c = true ∨ isUpper c = true) ∧ host'.map unicode.toLower = host := by
  induction host generalizing host' with
  | nil =>
    obtain rfl := List.map_eq_nil_iff.mp h
    exact ⟨by simp, rfl⟩
  | cons c host ih =>
    cases host' with
    | nil => cases h
    | cons d host' =>
      rw [List.map_cons, List.map_cons] at h
      obtain ⟨hhead, htail⟩ := List.cons.inj h
      obtain ⟨hd, hlower⟩ := @hostChar_recased unicode _ _ hhead (hhost c List.mem_cons_self)
      obtain ⟨hall, hrest⟩ := ih htail fun c hc => hhost c (List.mem_cons_of_mem _ hc)
      exact ⟨List.forall_mem_cons.mpr ⟨hd, hall⟩, by rw [List.map_cons, hlower, hrest]⟩

/-- Of a recased drive letter, only the case is to be normalized. -/
theorem letter_recased {c d : UInt16} (h : toUpper d = toUpper c) (hc : isUpper c = true) :
    (isUpper d = true ∨ isLower d = true) ∧ toUpper d = c := by
  have hsame : toUpper c = c := by rw [toUpper, isLower_of_upper hc, if_neg Bool.false_ne_true]
  rw [hsame] at h
  refine ⟨?_, h⟩
  cases hlower : isLower d with
  | true => exact .inr rfl
  | false =>
    rw [toUpper, hlower, if_neg Bool.false_ne_true] at h
    rw [h]
    exact .inl hc

theorem Components.no_colon {rest : NetString} (h : Components invalid rest) :
    GitTools.colon ∉ rest := by
  have hname {name : NetString} (h : Component invalid name) : GitTools.colon ∉ name :=
    fun hc => (h.valid _ hc).2.2.2 rfl
  induction h with
  | last h => exact hname h
  | more h _ ih =>
    rw [List.mem_append, List.mem_cons, not_or, not_or]
    exact ⟨hname h, by decide, ih⟩

/-- A respelled path is a full path, and the end of the function undoes the spelling. -/
theorem Respelled.normalizeEnds {path plain : NetString}
    (hpath : NormalizedPath unicode invalid path) (h : Respelled path plain) :
    FullPath unicode invalid plain ∧ normalizeEnds unicode plain = .ok path := by
  cases h with
  | @drive letter letter' rest trailing hletter hroot =>
    cases hpath with
    | drive hupper hrest =>
      obtain ⟨hcase, hsame⟩ := letter_recased hletter hupper
      exact ⟨.drive trailing hcase hrest, by rw [normalizeEnds_drive trailing hrest, hsame]⟩
  | @share host host' rest trailing hhost hcase =>
    generalize hwhole : backslash :: backslash :: (host ++ backslash :: rest) = whole at hpath
    cases hpath with
    | drive hupper =>
      obtain ⟨rfl, -⟩ := List.cons.inj hwhole
      cases hupper
    | @share name share rest' hname hnameChars hshare hshareChars hrest =>
      have hnameSep : ∀ c ∈ name, c ≠ backslash :=
        fun c hc => hostChar_ne_backslash (hnameChars c hc)
      have hsplit : host ++ backslash :: rest = name ++ backslash :: (share ++ rest') := by
        simpa using hwhole
      obtain ⟨rfl, rfl⟩ := cut_inj hhost (fun h => hnameSep _ h rfl) hsplit
      obtain ⟨hchars, hlower⟩ := host_recased hcase hnameChars
      have hsep : ∀ c ∈ host', c ≠ backslash := by
        intro c hc hc'
        have hchar := hchars c hc
        rw [hc'] at hchar
        revert hchar
        decide
      have hnonempty : host' ≠ [] := by
        intro hnil
        rw [hnil] at hlower
        exact hname hlower.symm
      rw [List.append_assoc]
      refine ⟨.share trailing hnonempty hchars hshare hshareChars hrest, ?_⟩
      rw [normalizeEnds_share trailing hnonempty hsep hshare
        (fun c hc => shareChar_ne_backslash (hshareChars c hc)) hrest, hlower]
      simp

/-- A normalized path is its own spelling. -/
theorem NormalizedPath.respelled {path : NetString} (h : NormalizedPath unicode invalid path) :
    Respelled path path := by
  cases h with
  | @drive letter rest hletter hrest =>
    have hspelled := @Respelled.drive letter letter rest 0 rfl fun _ => rfl
    simpa using hspelled
  | @share host share rest hhost hhostChars hshare hshareChars hrest =>
    have hsep : backslash ∉ host := fun hc => hostChar_ne_backslash (hhostChars _ hc) rfl
    have hspelled := @Respelled.share host host (share ++ rest) 0 hsep rfl
    simpa using hspelled

theorem NormalizedPath.fullPath {path : NetString} (h : NormalizedPath unicode invalid path) :
    FullPath unicode invalid path :=
  (h.respelled.normalizeEnds h).1

theorem NormalizedPath.normalizeEnds {path : NetString} (h : NormalizedPath unicode invalid path) :
    normalizeEnds unicode path = .ok path :=
  (h.respelled.normalizeEnds h).2

/-- The mark of long paths and only that is stripped from the long form of a full path. -/
theorem FullPath.stripLongPrefix {full : NetString} (h : FullPath unicode invalid full) :
    stripLongPrefix full = full ∧ stripLongPrefix (longForm full) = full := by
  cases h with
  | @drive letter rest trailing hletter hrest =>
    have hne : letter ≠ backslash := by
      intro hletter'
      rw [hletter'] at hletter
      revert hletter
      decide
    constructor
    · simp [GitTools.stripLongPrefix, longPathMark, List.isPrefixOf, hne.symm]
    · have hcolon : (0x4e : UInt16) ≠ colon := by decide
      simp [longForm, GitTools.stripLongPrefix, longPathMark, longUncMark, List.isPrefixOf,
        hne.symm, hcolon]
  | @share host share rest trailing hhost hhostChars =>
    obtain ⟨c, host, rfl⟩ := List.exists_cons_of_ne_nil hhost
    have hne : c ≠ 0x3f := by
      intro hc
      have hchar := hhostChars c List.mem_cons_self
      rw [hc] at hchar
      revert hchar
      decide
    constructor
    · simp [GitTools.stripLongPrefix, longPathMark, List.isPrefixOf, hne.symm]
    · rfl

theorem shareChar_ne_colon {c : UInt16} (h : ShareChar unicode c) : c ≠ GitTools.colon := by
  intro hc
  rw [hc, ShareChar, unicode.letterOrDigit_ascii _ (by decide)] at h
  revert h
  decide

theorem AfterShare.no_colon {rest : NetString} (h : AfterShare invalid rest) :
    GitTools.colon ∉ rest := by
  obtain rfl | ⟨names, rfl, hnames⟩ := h
  · exact List.not_mem_nil
  · exact List.not_mem_cons_of_ne_of_not_mem (by decide) hnames.no_colon

/-- A full path has no colon behind its drive. -/
theorem FullPath.no_colon {full : NetString} (h : FullPath unicode invalid full) :
    GitTools.colon ∉ full.drop 2 := by
  have hsep : GitTools.colon ≠ backslash := by decide
  have hreplicate (trailing : Nat) : GitTools.colon ∉ List.replicate trailing backslash :=
    fun hc => hsep (List.eq_of_mem_replicate hc)
  cases h with
  | @drive letter rest trailing hletter hrest =>
    have hnames : GitTools.colon ∉ rest := by
      obtain rfl | hcomponents := hrest
      · exact List.not_mem_nil
      · exact hcomponents.no_colon
    simp only [List.drop_succ_cons, List.drop_zero, List.mem_cons, List.mem_append, not_or]
    exact ⟨hsep, hnames, hreplicate trailing⟩
  | @share host share rest trailing hhost hhostChars hshare hshareChars hrest =>
    have hhostColon : GitTools.colon ∉ host := by
      intro hc
      have hchar := hhostChars _ hc
      revert hchar
      decide
    have hshareColon : GitTools.colon ∉ share := fun hc => shareChar_ne_colon (hshareChars _ hc) rfl
    simp only [List.drop_succ_cons, List.drop_zero, List.mem_cons, List.mem_append, not_or]
    exact ⟨hhostColon, hsep, hshareColon, hrest.no_colon, hreplicate trailing⟩

/-- A full path does not end within a host name. -/
theorem FullPath.not_unfinishedHost {full : NetString} (h : FullPath unicode invalid full) :
    ¬UnfinishedHost full := by
  intro hunfinished
  obtain ⟨name, _, hname, heq⟩ := hunfinished
  cases h with
  | @drive letter rest trailing hletter hrest =>
    obtain ⟨rfl, -⟩ := List.cons.inj heq
    revert hletter
    decide
  | share =>
    have hchar := hname backslash (by simp [← (List.cons.inj (List.cons.inj heq).2).2])
    revert hchar
    decide

theorem FullPath.root_isSome {full : NetString} (h : FullPath unicode invalid full) :
    ∃ root, getPathRootPart unicode full = .ok (some root) := by
  cases h with
  | @drive letter rest trailing hletter hrest =>
    rw [getPathRootPart, if_neg (List.cons_ne_nil _ _), if_pos (by simp)]
    split
    · exact ⟨_, rfl⟩
    · exact ⟨_, rfl⟩
  | @share host share rest trailing hhost hhostChars hshare hshareChars hrest =>
    have hsep : ∀ c ∈ host, c ≠ backslash := by
      intro c hc hc'
      have hchar := hhostChars c hc
      rw [hc'] at hchar
      revert hchar
      decide
    exact ⟨_, getPathRootPart_share hhost hsep
      (fun c hc => shareChar_ne_backslash (hshareChars c hc)) (hrest.trailing trailing)⟩

/-- Where the platform leaves a full path as it is, only its end is normalized. -/
theorem getNormalizedFullPath_full {api : PathApi} {full path spelled : NetString}
    (hfull : FullPath api.unicode api.invalidPathChars full)
    (hends : normalizeEnds api.unicode full = .ok path) (hget : api.getFullPath full = .ok full)
    (hlong : longGetFullPath api full = .ok full) (hne : spelled ≠ [])
    (hspelled : stripLongPrefix spelled = full) :
    getNormalizedFullPath api spelled = .ok path := by
  have hfullNe : full ≠ [] := by
    intro hnil
    rw [hnil] at hfull
    cases hfull
  have hresolve : resolveFullPath api full = .ok full := by
    obtain ⟨root, hroot⟩ := hfull.root_isSome
    rw [resolveFullPath]
    split
    · rw [hget]
    · rw [retryFullPath, hlong]
      simp only [bind, Except.bind, hroot]
      rfl
  obtain ⟨normal, hnormal⟩ := (@isNormalizedFullPath_returns_iff api.unicode api.invalidPathChars
    full hfullNe).1.mpr hfull.not_unfinishedHost
  have hcolon : (full.drop 2).contains colon = false := by simpa using hfull.no_colon
  have hstrip := (strip_at_separator spelled).trans hspelled
  rw [getNormalizedFullPath, if_neg hne]
  simp only [hstrip, hnormal, pathContainsInvalidChars_eq, hcolon, hresolve, bind, Except.bind]
  cases normal with
  | true =>
    have hsame := (NormalizedPath.of_isNormalized api.separator hnormal).normalizeEnds
    rw [hends] at hsame
    exact congrArg Except.ok (Except.ok.inj hsame).symm
  | false => exact hends

/-- However a normalized path is spelled, the function finds it. -/
theorem getNormalizedFullPath_spelling (api : PathApi) (path spelled : NetString)
    (hpath : isNormalizedFullPath api.unicode api.invalidPathChars path = .ok true)
    (hspelled : Spelling path spelled)
    (hget : ∀ plain, Respelled path plain → api.getFullPath plain = .ok plain)
    (hlong : ∀ plain, Respelled path plain → longGetFullPath api plain = .ok plain) :
    getNormalizedFullPath api spelled = .ok path := by
  obtain ⟨plain, hplain, hform⟩ := hspelled
  obtain ⟨hfull, hends⟩ := hplain.normalizeEnds (.of_isNormalized api.separator hpath)
  obtain ⟨hstrip, hstripLong⟩ := hfull.stripLongPrefix
  apply getNormalizedFullPath_full hfull hends (hget plain hplain) (hlong plain hplain)
  · intro hnil
    obtain rfl | rfl := hform
    · rw [hnil] at hfull
      cases hfull
    · rw [hnil] at hstripLong
      rw [← hstripLong] at hfull
      cases hfull
  · obtain rfl | rfl := hform
    · exact hstrip
    · exact hstripLong

theorem fullPathPlatform_long {full : NetString}
    (h : FullPath fullPathPlatform.unicode fullPathPlatform.invalidPathChars full) :
    longGetFullPath fullPathPlatform full = .ok full := by
  have hne : full ≠ [] := by
    intro hnil
    rw [hnil] at h
    cases h
  have hstrip := h.stripLongPrefix.1
  have hcall (second : Bool) :
      fullPathPlatform.getFullPathNameW full longBufferSize second = full :=
    rfl
  rw [longGetFullPath, if_neg hne]
  simp only [hstrip, hcall, if_neg hne, ite_self]

/-- "\\\\?\\c:\\a\\" is "C:\\a". -/
theorem getNormalizedFullPath_spelling_long :
    getNormalizedFullPath fullPathPlatform [0x5c, 0x5c, 0x3f, 0x5c, 0x63, 0x3a, 0x5c, 0x61, 0x5c] =
      .ok [0x43, 0x3a, 0x5c, 0x61] := by
  have hpath : isNormalizedFullPath fullPathPlatform.unicode fullPathPlatform.invalidPathChars
      [0x43, 0x3a, 0x5c, 0x61] = .ok true := by decide
  apply getNormalizedFullPath_spelling fullPathPlatform [0x43, 0x3a, 0x5c, 0x61] _ hpath
  · exact ⟨_, @Respelled.drive 0x43 0x63 [0x61] 1 (by decide) (by decide), .inr (by decide)⟩
  · intro plain _
    rfl
  · intro plain hplain
    have hnormal := NormalizedPath.of_isNormalized fullPathPlatform.separator hpath
    exact fullPathPlatform_long (hplain.normalizeEnds hnormal).1

end SharpGit.GitClient.GitTools
