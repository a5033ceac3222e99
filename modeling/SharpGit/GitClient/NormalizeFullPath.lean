import SharpGit.GitClient.NormalizedPath
import SharpGit.Library.Action

namespace SharpGit.GitClient.GitTools

open Library Native

variable {unicode : UnicodeData} {invalid : List UInt16}

/-- What a full path of the platform looks like: the case of the drive letter and of the host is
open, and separators may trail. -/
inductive FullPath (unicode : UnicodeData) (invalid : List UInt16) : NetString → Prop
  | drive {letter : UInt16} {rest : NetString} (trailing : Nat)
      (hletter : isUpper letter = true ∨ isLower letter = true)
      (hrest : rest = [] ∨ Components invalid rest) :
      FullPath unicode invalid
        (letter :: colon :: backslash :: (rest ++ List.replicate trailing backslash))
  | share {host share rest : NetString} (trailing : Nat) (hhost : host ≠ [])
      (hhostChars : ∀ c ∈ host, hostChar c = true ∨ isUpper c = true) (hshare : share ≠ [])
      (hshareChars : ∀ c ∈ share, ShareChar unicode c) (hrest : AfterShare invalid rest) :
      FullPath unicode invalid (backslash :: backslash :: (host ++ backslash :: (share ++
        (rest ++ List.replicate trailing backslash))))

theorem isUpper_toUpper {c : UInt16} (h : isUpper c = true ∨ isLower c = true) :
    isUpper (toUpper c) = true := by
  cases hlower : isLower c with
  | false =>
    rw [toUpper, hlower, if_neg Bool.false_ne_true]
    exact h.resolve_right (by rw [hlower]; exact Bool.false_ne_true)
  | true =>
    rw [toUpper, hlower, if_pos rfl]
    simp only [isLower, isUpper, Bool.and_eq_true, decide_eq_true_eq, UInt16.le_iff_toNat_le]
      at hlower ⊢
    have hle : (0x20 : UInt16) ≤ c := by
      rw [UInt16.le_iff_toNat_le]
      exact le_trans (by decide) hlower.1
    rw [UInt16.toNat_sub_of_le _ _ hle]
    simp only [UInt16.reduceToNat] at hlower ⊢
    omega

theorem hostChar_lt {c : UInt16} (h : hostChar c = true ∨ isUpper c = true) : c < 0x80 := by
  simp only [hostChar, isLower, isDigit, isUpper, hostChars, Bool.or_eq_true, Bool.and_eq_true,
    decide_eq_true_eq, List.contains_iff_mem, List.mem_cons, List.not_mem_nil, or_false,
    UInt16.le_iff_toNat_le, UInt16.reduceToNat] at h
  simp only [UInt16.lt_iff_toNat_lt, UInt16.reduceToNat]
  obtain ((hlower | hdigit) | (hdot | hline | hdash)) | hupper := h
  · omega
  · omega
  · rw [hdot]
    decide
  · rw [hline]
    decide
  · rw [hdash]
    decide
  · omega

theorem isLower_of_isUpper {c : UInt16} (h : isUpper c = true) : isLower (c + 0x20) = true := by
  simp only [isLower, isUpper, Bool.and_eq_true, decide_eq_true_eq, UInt16.le_iff_toNat_le,
    UInt16.toNat_add, UInt16.reduceToNat] at h ⊢
  omega

theorem hostChar_toLower {c : UInt16} (h : hostChar c = true ∨ isUpper c = true) :
    hostChar (unicode.toLower c) = true := by
  rw [unicode.toLower_ascii c (hostChar_lt h)]
  cases hupper : isUpper c with
  | true => rw [if_pos rfl, hostChar, isLower_of_isUpper hupper, Bool.true_or, Bool.true_or]
  | false =>
    rw [hupper] at h
    rw [if_neg Bool.false_ne_true]
    exact h.resolve_right Bool.false_ne_true

theorem shareChar_ne_backslash {c : UInt16} (h : ShareChar unicode c) : c ≠ backslash := by
  intro hc
  have hstop := @shareAt_backslash unicode []
  have hpass : shareAt unicode [c] = true := wordAt_of_wordChar shareChars_plain h []
  rw [← hc, hpass] at hstop
  cases hstop

theorem trimEnd_replicate (path : NetString) (trailing : Nat) :
    trimEnd (path ++ List.replicate trailing backslash) = trimEnd path := by
  induction trailing with
  | zero => rw [List.replicate_zero, List.append_nil]
  | succ trailing ih =>
    rw [List.replicate_succ', ← List.append_assoc, trimEnd, List.rdropWhile_concat_pos _ _ _ rfl]
    exact ih

theorem trimEnd_self {path : NetString} (h : path.getLast? ≠ some backslash) :
    trimEnd path = path := by
  apply List.rdropWhile_eq_self_iff.mpr
  intro hpath hlast
  apply h
  rw [List.getLast?_eq_some_getLast hpath, beq_iff_eq.mp hlast]

theorem Components.getLast {rest : NetString} (h : Components invalid rest) :
    rest.getLast? ≠ some backslash := by
  induction h with
  | last h =>
    intro hlast
    exact (h.valid _ (List.mem_of_getLast? hlast)).2.1 rfl
  | @more name rest h hrest ih =>
    rw [List.getLast?_append_cons, List.getLast?_cons_of_ne_nil hrest.ne_nil]
    exact ih

theorem AfterShare.trimEnd {rest : NetString} (h : AfterShare invalid rest) :
    trimEnd rest = rest := by
  apply trimEnd_self
  obtain rfl | ⟨names, rfl, hnames⟩ := h
  · simp
  · rw [List.getLast?_cons_of_ne_nil hnames.ne_nil]
    exact hnames.getLast

theorem normalizeEnds_drive {letter : UInt16} {rest : NetString} (trailing : Nat)
    (hrest : rest = [] ∨ Components invalid rest) :
    normalizeEnds unicode
        (letter :: colon :: backslash :: (rest ++ List.replicate trailing backslash)) =
      .ok (toUpper letter :: colon :: backslash :: rest) := by
  have htrim : trimEnd (toUpper letter :: colon :: backslash ::
      (rest ++ List.replicate trailing backslash)) =
        trimEnd (toUpper letter :: colon :: backslash :: rest) :=
    trimEnd_replicate (toUpper letter :: colon :: backslash :: rest) trailing
  have hrun : normalizeEnds unicode
      (letter :: colon :: backslash :: (rest ++ List.replicate trailing backslash)) =
        if (trimEnd (toUpper letter :: colon :: backslash :: rest)).length > 3 then
          .ok (trimEnd (toUpper letter :: colon :: backslash :: rest))
        else substringTo (toUpper letter :: colon :: backslash ::
          (rest ++ List.replicate trailing backslash)) 3 := by
    have hcolon : (letter :: colon :: backslash ::
        (rest ++ List.replicate trailing backslash))[1]? = some colon := rfl
    rw [normalizeEnds, if_pos hcolon, ← htrim]
    rfl
  rw [hrun]
  obtain rfl | hcomponents := hrest
  · have hcolon : [toUpper letter, colon].getLast? ≠ some backslash := by
      rw [List.getLast?_cons_cons, List.getLast?_singleton]
      decide
    have hroot : trimEnd [toUpper letter, colon, backslash] = [toUpper letter, colon] := by
      rw [← trimEnd_self hcolon]
      exact trimEnd_replicate [toUpper letter, colon] 1
    rw [hroot, if_neg (by simp)]
    rfl
  · have hlast : (toUpper letter :: colon :: backslash :: rest).getLast? ≠ some backslash := by
      have hrest := hcomponents.ne_nil
      rw [List.getLast?_cons_cons, List.getLast?_cons_cons, List.getLast?_cons_of_ne_nil hrest]
      exact hcomponents.getLast
    have hlong : (toUpper letter :: colon :: backslash :: rest).length > 3 := by
      have hpos := List.length_pos_iff.mpr hcomponents.ne_nil
      simp only [List.length_cons]
      omega
    rw [trimEnd_self hlast, if_pos hlong]

theorem indexOf_append (front : NetString) {word tail : NetString}
    (hword : ∀ c ∈ word, c ≠ backslash) (htail : tail = [] ∨ ∃ next, tail = backslash :: next) :
    indexOf (front ++ (word ++ tail)) backslash front.length =
      if tail = [] then none else some (front.length + word.length) := by
  have hpass : ∀ c ∈ word, (c != backslash) = true := fun c hc => bne_iff_ne.mpr (hword c hc)
  have htake : (word ++ tail).takeWhile (· != backslash) = word := by
    rw [List.takeWhile_append_of_pos hpass]
    obtain rfl | ⟨next, rfl⟩ := htail
    · exact List.append_nil _
    · rw [List.takeWhile_cons_of_neg (by simp), List.append_nil]
  rw [indexOf, List.drop_left, htake, List.length_append, List.length_append]
  obtain rfl | ⟨next, rfl⟩ := htail
  · simp
  · simp

/-- A share on a host, with what follows it. -/
abbrev sharePath (host share tail : NetString) : NetString :=
  backslash :: backslash :: (host ++ backslash :: (share ++ tail))

section SharePath

variable {host share tail : NetString}

theorem sharePath_host_end (hhost : ∀ c ∈ host, c ≠ backslash) :
    indexOf (sharePath host share tail) backslash 2 = some (2 + host.length) :=
  indexOf_append [backslash, backslash] hhost (.inr ⟨share ++ tail, rfl⟩)

theorem sharePath_share_end (hshare : ∀ c ∈ share, c ≠ backslash)
    (htail : tail = [] ∨ ∃ next, tail = backslash :: next) :
    (indexOf (sharePath host share tail) backslash (2 + host.length + 1)).getD
        (sharePath host share tail).length = 2 + host.length + 1 + share.length := by
  have hfront : sharePath host share tail =
      (backslash :: backslash :: (host ++ [backslash])) ++ (share ++ tail) := by
    simp
  have hlength : (backslash :: backslash :: (host ++ [backslash])).length =
      2 + host.length + 1 := by
    simp only [List.length_cons, List.length_append, List.length_nil]
    omega
  have hindex := indexOf_append (backslash :: backslash :: (host ++ [backslash])) hshare htail
  rw [hlength, ← hfront] at hindex
  rw [hindex]
  split
  · rename_i hnil
    subst hnil
    simp only [Option.getD_none, List.length_cons, List.length_append, List.length_nil]
    omega
  · rfl

theorem sharePath_host : ((sharePath host share tail).take (2 + host.length)).drop 2 = host := by
  rw [Nat.add_comm]
  exact List.take_left

theorem sharePath_share :
    ((sharePath host share tail).take (2 + host.length + 1 + share.length)).drop
        (2 + host.length) = backslash :: share := by
  have hfront : sharePath host share tail =
      (backslash :: backslash :: host) ++ ((backslash :: share) ++ tail) := by
    simp
  have hlength : (backslash :: backslash :: host).length = 2 + host.length := by
    simp only [List.length_cons]
    omega
  have htake : 2 + host.length + 1 + share.length =
      (backslash :: backslash :: host).length + (backslash :: share).length := by
    simp only [List.length_cons]
    omega
  rw [hfront, htake, List.take_length_add_append, ← hlength, List.drop_left, List.take_left]

end SharePath

theorem getPathRootPart_share {host share tail : NetString} (hhost : host ≠ [])
    (hhostChars : ∀ c ∈ host, c ≠ backslash) (hshare : ∀ c ∈ share, c ≠ backslash)
    (htail : tail = [] ∨ ∃ next, tail = backslash :: next) :
    getPathRootPart unicode (sharePath host share tail) =
      .ok (some (backslash :: backslash :: (host.map unicode.toLower ++ backslash :: share))) := by
  have hcolon : ¬(3 ≤ (sharePath host share tail).length ∧
      (sharePath host share tail)[1]? = some colon ∧
      (sharePath host share tail)[2]? = some backslash) := by
    intro ⟨_, h, _⟩
    cases h
  have hunc : (!([backslash, backslash].isPrefixOf (sharePath host share tail))) = false := rfl
  have hlt : ¬2 + host.length ≤ 2 := by
    have hpos := List.length_pos_iff.mpr hhost
    omega
  rw [getPathRootPart, if_neg (List.cons_ne_nil _ _), if_neg hcolon, hunc,
    if_neg Bool.false_ne_true, sharePath_host_end hhostChars]
  simp only [if_neg hlt, sharePath_share_end hshare htail, sharePath_host, sharePath_share]
  rfl

theorem share_getLast {share rest : NetString} (hshare : share ≠ [])
    (hshareChars : ∀ c ∈ share, c ≠ backslash) (hrest : AfterShare invalid rest)
    (front : NetString) : (front ++ (share ++ rest)).getLast? ≠ some backslash := by
  rw [List.getLast?_append_of_ne_nil _ (List.append_ne_nil_of_left_ne_nil hshare rest)]
  obtain rfl | ⟨names, rfl, hnames⟩ := hrest
  · rw [List.append_nil]
    intro hlast
    exact hshareChars _ (List.mem_of_getLast? hlast) rfl
  · rw [List.getLast?_append_cons, List.getLast?_cons_of_ne_nil hnames.ne_nil]
    exact hnames.getLast

/-- What follows a share name still does with more separators at the end. -/
theorem AfterShare.trailing {rest : NetString} (hrest : AfterShare invalid rest)
    (trailing : Nat) :
    rest ++ List.replicate trailing backslash = [] ∨
      ∃ next, rest ++ List.replicate trailing backslash = backslash :: next := by
  obtain rfl | ⟨names, rfl, _⟩ := hrest
  · cases trailing with
    | zero => exact .inl rfl
    | succ trailing => exact .inr ⟨_, rfl⟩
  · exact .inr ⟨_, rfl⟩

theorem trimEnd_sharePath {host share rest : NetString} (trailing : Nat) (hshare : share ≠ [])
    (hshareChars : ∀ c ∈ share, c ≠ backslash) (hrest : AfterShare invalid rest) :
    trimEnd (sharePath host share (rest ++ List.replicate trailing backslash)) =
      sharePath host share rest := by
  have hassoc (tail : NetString) : sharePath host share tail =
      backslash :: backslash :: (host ++ [backslash]) ++ (share ++ tail) := by
    simp
  have hlast := share_getLast hshare hshareChars hrest
    (backslash :: backslash :: (host ++ [backslash]))
  have htrim := trimEnd_replicate
    (backslash :: backslash :: (host ++ [backslash]) ++ (share ++ rest)) trailing
  rw [trimEnd_self hlast, List.append_assoc, List.append_assoc] at htrim
  rw [hassoc, hassoc, htrim]

/-- Of a share, the host gets its normal case and trailing separators go. -/
theorem normalizeEnds_share {host share rest : NetString} (trailing : Nat) (hhost : host ≠ [])
    (hhostChars : ∀ c ∈ host, c ≠ backslash) (hshare : share ≠ [])
    (hshareChars : ∀ c ∈ share, c ≠ backslash) (hrest : AfterShare invalid rest) :
    normalizeEnds unicode (sharePath host share (rest ++ List.replicate trailing backslash)) =
      .ok (sharePath (host.map unicode.toLower) share rest) := by
  have hroot := @getPathRootPart_share unicode _ _ _ hhost hhostChars hshareChars
    (hrest.trailing trailing)
  have htrim := @trimEnd_sharePath _ host share rest trailing hshare hshareChars hrest
  have hfront : sharePath host share (rest ++ List.replicate trailing backslash) =
      (backslash :: backslash :: (host ++ backslash :: share)) ++
        (rest ++ List.replicate trailing backslash) := by
    simp
  have hcolon : (sharePath host share (rest ++ List.replicate trailing backslash))[1]? ≠
      some colon := fun h => by cases h
  have hunc : [backslash, backslash].isPrefixOf
      (sharePath host share (rest ++ List.replicate trailing backslash)) = true := rfl
  generalize sharePath host share (rest ++ List.replicate trailing backslash) = path at *
  have hlength : (backslash :: backslash ::
      (host.map unicode.toLower ++ backslash :: share)).length =
        (backslash :: backslash :: (host ++ backslash :: share)).length := by
    simp
  rw [normalizeEnds, if_neg hcolon, if_pos hunc, hroot]
  simp only [bind, Except.bind]
  split
  · -- the root is there as it should be, so the host is in its normal case
    rename_i hsame
    obtain ⟨left, hleft⟩ := List.isPrefixOf_iff_prefix.mp hsame
    rw [hfront] at hleft
    have hroots := (List.append_inj hleft hlength).1
    have hhosts : host.map unicode.toLower = host :=
      (List.append_inj (List.cons.inj (List.cons.inj hroots).2).2 (List.length_map _)).1
    rw [htrim, hhosts]
    rfl
  · have hsubstring : substring path (backslash :: backslash ::
        (host.map unicode.toLower ++ backslash :: share)).length =
          .ok (rest ++ List.replicate trailing backslash) := by
      have hle : (backslash :: backslash :: (host ++ backslash :: share)).length ≤ path.length := by
        rw [hfront, List.length_append]
        exact Nat.le_add_right _ _
      rw [hlength, substring, if_pos hle, hfront, List.drop_left]
    rw [hsubstring]
    simp only [trimEnd_replicate, hrest.trimEnd]
    simp [pure, Except.pure]

/-- From a full path of the platform the function ends in the grammar. -/
theorem normalizeEnds_normalized {full r : NetString} (hfull : FullPath unicode invalid full)
    (h : normalizeEnds unicode full = .ok r) : NormalizedPath unicode invalid r := by
  cases hfull with
  | drive trailing hletter hrest =>
    rw [normalizeEnds_drive trailing hrest] at h
    obtain rfl := Except.ok.inj h
    exact .drive (isUpper_toUpper hletter) hrest
  | @share host share rest trailing hhost hhostChars hshare hshareChars hrest =>
    have hhostSep : ∀ c ∈ host, c ≠ backslash := by
      intro c hc hsep
      have hchar := hhostChars c hc
      rw [hsep] at hchar
      revert hchar
      decide
    have hshareSep : ∀ c ∈ share, c ≠ backslash :=
      fun c hc => shareChar_ne_backslash (hshareChars c hc)
    rw [normalizeEnds_share trailing hhost hhostSep hshare hshareSep hrest] at h
    obtain rfl := Except.ok.inj h
    have hnormal : NormalizedPath unicode invalid
        (backslash :: backslash :: host.map unicode.toLower ++ backslash :: share ++ rest) := by
      apply NormalizedPath.share
      · simpa using hhost
      · intro c hc
        obtain ⟨d, hd, rfl⟩ := List.mem_map.mp hc
        exact hostChar_toLower (hhostChars d hd)
      · exact hshare
      · exact hshareChars
      · exact hrest
    simpa using hnormal

/-- A normalized path does not begin with the mark of long paths. -/
theorem NormalizedPath.stripLongPrefix {r : NetString} (h : NormalizedPath unicode invalid r) :
    stripLongPrefix r = r := by
  have hmark : ¬longPathMark.isPrefixOf r = true := by
    intro hmark
    cases h with
    | drive hletter =>
      obtain ⟨rest, hrest⟩ := List.isPrefixOf_iff_prefix.mp hmark
      obtain ⟨rfl, -⟩ := List.cons.inj hrest
      cases hletter
    | @share host share rest hhost hhostChars =>
      obtain ⟨c, host, rfl⟩ := List.exists_cons_of_ne_nil hhost
      obtain ⟨rest, hrest⟩ := List.isPrefixOf_iff_prefix.mp hmark
      obtain ⟨rfl, -⟩ := List.cons.inj (List.cons.inj (List.cons.inj hrest).2).2
      have hchar := hhostChars _ List.mem_cons_self
      revert hchar
      decide
  rw [GitTools.stripLongPrefix, if_neg hmark]

theorem getNormalizedFullPath_of_normalized {api : PathApi} {r : NetString}
    (h : NormalizedPath api.unicode api.invalidPathChars r) :
    getNormalizedFullPath api r = .ok r := by
  have hnormal := h.isNormalized api.separator
  have hnonempty : r ≠ [] := by
    have hlength := h.three_le
    apply List.length_pos_iff.mp
    omega
  rw [getNormalizedFullPath, if_neg hnonempty]
  simp only [h.stripLongPrefix, ite_self, hnormal]
  rfl

/-- What the platform finds, on the first try or on the second, is a full path. -/
theorem resolveFullPath_fullPath {api : PathApi}
    (hfull : ∀ path full, api.getFullPath path = .ok full →
      FullPath api.unicode api.invalidPathChars full)
    (hlong : ∀ path full, longGetFullPath api path = .ok full →
      FullPath api.unicode api.invalidPathChars full)
    {path full : NetString} (h : resolveFullPath api path = .ok full) :
    FullPath api.unicode api.invalidPathChars full := by
  have hretry (h : retryFullPath api path = .ok full) :
      FullPath api.unicode api.invalidPathChars full := by
    obtain ⟨found, hfound, hrest⟩ := except_bind_eq_ok.mp h
    obtain ⟨root, _, hreturn⟩ := except_bind_eq_ok.mp hrest
    split at hreturn
    · cases hreturn
    · obtain rfl := Except.ok.inj hreturn
      exact hlong path found hfound
  rw [resolveFullPath] at h
  split at h
  · cases hget : api.getFullPath path with
    | ok found =>
      rw [hget] at h
      obtain rfl := Except.ok.inj h
      exact hfull path found hget
    | error e =>
      rw [hget] at h
      cases e with
      | pathTooLong => exact hretry h
      | notSupported => exact hretry h
      | _ => cases h
  · exact hretry h

/-- Where the platform returns full paths, the result is normalized and normalizes to itself. -/
theorem getNormalizedFullPath_normalized (api : PathApi)
    (hfull : ∀ path full, api.getFullPath path = .ok full →
      FullPath api.unicode api.invalidPathChars full)
    (hlong : ∀ path full, longGetFullPath api path = .ok full →
      FullPath api.unicode api.invalidPathChars full)
    (path r : NetString) (h : getNormalizedFullPath api path = .ok r) :
    isNormalizedFullPath api.unicode api.invalidPathChars r = .ok true ∧
      getNormalizedFullPath api r = .ok r := by
  have hnormal : NormalizedPath api.unicode api.invalidPathChars r := by
    rw [getNormalizedFullPath] at h
    split at h
    · cases h
    · obtain ⟨normal, hnormal, hrest⟩ := except_bind_eq_ok.mp h
      generalize (if path.head? = some backslash then GitTools.stripLongPrefix path else path) =
        stripped at hnormal hrest
      cases normal with
      | true =>
        rw [if_pos rfl] at hrest
        obtain rfl := Except.ok.inj hrest
        exact .of_isNormalized api.separator hnormal
      | false =>
        rw [if_neg Bool.false_ne_true] at hrest
        split at hrest
        · cases hrest
        · obtain ⟨full, hresolve, hends⟩ := except_bind_eq_ok.mp hrest
          exact normalizeEnds_normalized (resolveFullPath_fullPath hfull hlong hresolve) hends
  exact ⟨hnormal.isNormalized api.separator, getNormalizedFullPath_of_normalized hnormal⟩

/-- `Path::GetFullPath`, as far as "c:/a" goes. -/
def exampleGetFullPath (path : NetString) : Except GitToolsException NetString :=
  if path = [0x63, 0x3a, 0x2f, 0x61] then .ok [0x63, 0x3a, 0x5c, 0x61] else .error .notSupported

def examplePlatform : PathApi where
  unicode := asciiUnicode
  invalidPathChars := [0x22, 0x3c, 0x3e, 0x7c]
  separator := by decide
  getFullPath := exampleGetFullPath
  getFullPathNameW _ _ _ := []

/-- "c:/a" becomes "C:\\a". -/
theorem getNormalizedFullPath_example :
    isNormalizedFullPath examplePlatform.unicode examplePlatform.invalidPathChars
        [0x43, 0x3a, 0x5c, 0x61] = .ok true ∧
      getNormalizedFullPath examplePlatform [0x43, 0x3a, 0x5c, 0x61] =
        .ok [0x43, 0x3a, 0x5c, 0x61] := by
  apply getNormalizedFullPath_normalized examplePlatform _ _ [0x63, 0x3a, 0x2f, 0x61]
  · rfl
  · intro path full h
    have hfull : full = [0x63, 0x3a, 0x5c, 0x61] := by
      replace h : exampleGetFullPath path = .ok full := h
      rw [exampleGetFullPath] at h
      split at h
      · exact (Except.ok.inj h).symm
      · cases h
    rw [hfull]
    exact @FullPath.drive _ _ 0x63 [0x61] 0 (.inr (by decide))
      (.inr (.last ⟨by decide, List.forall_mem_singleton.mpr (by decide),
        0x61, List.mem_singleton_self _, by decide⟩))
  · intro path full h
    rw [longGetFullPath] at h
    split at h
    · cases h
    · cases h

end SharpGit.GitClient.GitTools
