import SharpGit.Svn.DirentSplit
import SharpGit.Plumbing.GitRepository

namespace SharpGit.Plumbing

open Library Native Svn Implementation

namespace GitRepository

def isWildcard (b : UInt8) : Bool := b = 0x2a || b = 0x3f

/-- What stands before the first wildcard. -/
def literalPart (dirent : CStr) : CStr := dirent.takeWhile fun b => !isWildcard b

def isDrive (s : CStr) : Bool := s.length = 2 && s[1]? = some colon && s[0]?.any isLetter

/-- What the block is for: the directory of the component with the first wildcard. -/
def holdingDirectory (dirent : CStr) : CStr :=
  if dirent.any isWildcard then
    let dir := dirPart (literalPart dirent)
    if isDrive dir then dir ++ [slash] else dir
  else dirent

/-- The first position of one kind or the other, from the two first positions. -/
theorem findIdx?_or {α : Type} {p q : α → Bool} {xs : List α} {i : Nat}
    (hi : xs.findIdx? p = some i) :
    xs.findIdx? (fun a => p a || q a) =
      some (if (xs.findIdx? q).any (· < i) then (xs.findIdx? q).getD i else i) := by
  induction xs generalizing i with
  | nil => simp at hi
  | cons a xs ih =>
    rw [List.findIdx?_cons] at hi ⊢
    by_cases hp : p a = true
    · have hzero : i = 0 := by simpa [hp, eq_comm] using hi
      subst hzero
      simp [hp]
    · rw [if_neg hp, Option.map_eq_some_iff] at hi
      obtain ⟨j, hj, rfl⟩ := hi
      rw [List.findIdx?_cons]
      by_cases hq : q a = true
      · simp [hp, hq]
      · rw [if_neg hq, if_neg (by simp [hp, hq]), ih hj]
        cases hfind : xs.findIdx? q with
        | none => simp
        | some k =>
          by_cases hk : k < j <;> simp [hk]

theorem slash_not_wildcard {b : UInt8} (hb : isWildcard b = true) : b ≠ slash := by
  intro h
  subst h
  exact absurd hb (by decide)

/-- A path with a wildcard, split at the first one. -/
theorem split_wildcard {dirent : CStr} (h : dirent.any isWildcard = true) :
    ∃ w post, isWildcard w = true ∧ dirent = literalPart dirent ++ w :: post := by
  have hsplit : literalPart dirent ++ dirent.dropWhile (fun b => !isWildcard b) = dirent :=
    List.takeWhile_append_dropWhile
  cases hrest : dirent.dropWhile (fun b => !isWildcard b) with
  | nil =>
    have hall := List.dropWhile_eq_nil_iff.mp hrest
    obtain ⟨b, hb, hw⟩ := List.any_eq_true.mp h
    have hnot := hall b hb
    rw [hw] at hnot
    exact absurd hnot (by decide)
  | cons w post =>
    have hhead := List.head?_dropWhile_not (fun b => !isWildcard b) dirent
    rw [hrest] at hhead hsplit
    exact ⟨w, post, by simpa using hhead, hsplit.symm⟩

theorem findIdx?_wildcard {dirent : CStr} (h : dirent.any isWildcard = true) :
    dirent.findIdx? isWildcard = some (literalPart dirent).length := by
  obtain ⟨w, post, hw, hsplit⟩ := split_wildcard h
  have hnone : (literalPart dirent).findIdx? isWildcard = none := by
    rw [List.findIdx?_eq_none_iff]
    intro b hb
    simpa using List.mem_takeWhile_imp hb
  conv_lhs => rw [hsplit]
  rw [List.findIdx?_append, hnone, List.findIdx?_cons, if_pos hw]
  simp

/-- No separator stands between the last one and the wildcard. -/
theorem no_slash_between {t k post : CStr} {w : UInt8} (hk : slash ∉ k) (hw : w ≠ slash) {i : Nat}
    (hi : t.length ≤ i) (hle : i ≤ (t ++ k).length) :
    (t ++ k ++ w :: post)[i]? ≠ some slash := by
  have hword : slash ∉ k ++ [w] := by
    rw [List.mem_append, List.mem_singleton, not_or]
    exact ⟨hk, hw.symm⟩
  have hlt : i < (t ++ k ++ [w]).length := by
    rw [List.length_append, List.length_singleton]
    omega
  have hsplit : t ++ k ++ w :: post = (t ++ k ++ [w]) ++ post := by simp
  rw [hsplit, List.getElem?_append_left hlt, List.append_assoc]
  exact no_slash_behind hword hi

/-- Walking back from the first wildcard stops at the last '/' before it. -/
theorem take_scanBack {s post : CStr} {w : UInt8} (hw : w ≠ slash) :
    (s ++ w :: post).take
        (scanBack (fun i => (s ++ w :: post)[i]? = some slash) s.length) = dirPart s := by
  by_cases hmem : slash ∈ s
  · obtain ⟨dir, k, rfl, hk⟩ := split_last_slash hmem
    have hsplit : dir ++ slash :: k = (dir ++ [slash]) ++ k := by simp
    have hstop : scanBack (fun i => (dir ++ slash :: k ++ w :: post)[i]? = some slash)
        (dir ++ slash :: k).length = dir.length := by
      apply scanBack_eq
      · simp
      · exact .inr (by simp)
      · intro i hi hle
        rw [decide_eq_false_iff_not, hsplit]
        rw [hsplit] at hle
        apply no_slash_between hk hw
        · simpa [Nat.succ_le_iff] using hi
        · exact hle
    rw [hstop, dirPart_split hk, List.append_assoc, List.take_left]
  · have hstop : scanBack (fun i => (s ++ w :: post)[i]? = some slash) s.length = 0 := by
      apply scanBack_eq
      · exact Nat.zero_le _
      · exact .inl rfl
      · intro i _ hle
        rw [decide_eq_false_iff_not]
        exact @no_slash_between [] s post w hmem hw i (Nat.zero_le i) hle
    rw [hstop, dirPart_word hmem, List.take_zero]

/-- What the block computes: without a '*' the null pointer is written to. -/
theorem cutWildcard_eq (dirent : CStr) :
    cutWildcard dirent =
      if dirent.any isWildcard then
        if 0x2a ∈ dirent then .ok (dirPart (literalPart dirent)) else .error .accessViolation
      else .ok dirent := by
  have hor : (fun b => decide (b = (0x2a : UInt8)) || decide (b = 0x3f)) = isWildcard := rfl
  by_cases hstar : (0x2a : UInt8) ∈ dirent
  · have hany : dirent.any isWildcard = true := List.any_eq_true.mpr ⟨0x2a, hstar, by decide⟩
    obtain ⟨w, post, hw, hsplit⟩ := split_wildcard hany
    cases hfind : dirent.findIdx? (· = 0x2a) with
    | none =>
      rw [List.findIdx?_eq_none_iff] at hfind
      exact absurd (hfind 0x2a hstar) (by decide)
    | some star =>
      have hfirst := @findIdx?_or _ _ (· = 0x3f) _ _ hfind
      rw [hor, findIdx?_wildcard hany, Option.some_inj] at hfirst
      have hcut := @take_scanBack (literalPart dirent) post w (slash_not_wildcard hw)
      rw [← hsplit] at hcut
      rw [if_pos hany, if_pos hstar]
      unfold cutWildcard
      simp only [hfind, ← hfirst, hcut]
  · have hnone : dirent.findIdx? (· = 0x2a) = none := by
      rw [List.findIdx?_eq_none_iff]
      intro b hb
      exact decide_eq_false fun h => hstar (h ▸ hb)
    unfold cutWildcard
    rw [if_neg hstar]
    simp only [hnone]
    cases hq : dirent.findIdx? (· = 0x3f) with
    | none =>
      have hany : ¬dirent.any isWildcard = true := by
        intro h
        obtain ⟨b, hb, hw⟩ := List.any_eq_true.mp h
        rw [List.findIdx?_eq_none_iff] at hnone hq
        rw [← hor] at hw
        simp only [hnone b hb, hq b hb] at hw
        exact absurd hw (by decide)
      rw [if_neg hany]
    | some q =>
      obtain ⟨hlt, hget, -⟩ := List.findIdx?_eq_some_iff_getElem.mp hq
      have hany : dirent.any isWildcard = true :=
        List.any_eq_true.mpr ⟨dirent[q], List.getElem_mem hlt, by simp_all [isWildcard]⟩
      rw [if_pos hany]

theorem append_slash_ne (s : CStr) : s ++ [slash] ≠ s := by
  intro h
  have hlen := congrArg List.length h
  simp at hlen

/-- The block leaves the directory of the component with the first wildcard exactly where there
is no wildcard, or a '*' is among them and the directory is not the root of a drive. -/
theorem cutWildcard_holds_iff (dirent : CStr) :
    cutWildcard dirent = .ok (holdingDirectory dirent) ↔
      dirent.any isWildcard = false ∨
        (0x2a ∈ dirent ∧ isDrive (dirPart (literalPart dirent)) = false) := by
  rw [cutWildcard_eq, holdingDirectory]
  dsimp only
  cases hany : dirent.any isWildcard with
  | false => exact iff_of_true rfl (.inl rfl)
  | true =>
    rw [if_pos rfl, if_pos rfl, or_iff_right (by simp)]
    by_cases hstar : (0x2a : UInt8) ∈ dirent
    · rw [if_pos hstar, and_iff_right hstar]
      cases hdrive : isDrive (dirPart (literalPart dirent)) with
      | false => exact iff_of_true rfl rfl
      | true =>
        apply iff_of_false
        · intro h
          exact append_slash_ne _ (Except.ok.inj h).symm
        · simp
    · rw [if_neg hstar]
      exact iff_of_false (by simp) fun h => hstar h.1

/-- "C:/*" becomes "C:", which is not the root of the drive, and "a?" ends in a write through the
null pointer. -/
theorem cutWildcard_drive_root :
    cutWildcard [0x43, 0x3a, 0x2f, 0x2a] = .ok [0x43, 0x3a] ∧
      holdingDirectory [0x43, 0x3a, 0x2f, 0x2a] = [0x43, 0x3a, 0x2f] ∧
      cutWildcard [0x61, 0x3f] = .error .accessViolation := by
  decide

/-- Locating a path whose wildcards are all '?' brings the process down. -/
theorem locate_question_only {fs : FileSystem} {path : NetString} (hp : path ≠ [])
    (hq : 0x3f ∈ allocDirentUpToNul path) (hstar : 0x2a ∉ allocDirentUpToNul path) :
    locate fs ⟨none⟩ path = .error .accessViolation := by
  have hany : (allocDirentUpToNul path).any isWildcard = true :=
    List.any_eq_true.mpr ⟨0x3f, hq, by decide⟩
  have hcut : cutWildcard (allocDirentUpToNul path) = .error .accessViolation := by
    rw [cutWildcard_eq, if_pos hany, if_neg hstar]
  rw [locate, if_neg (by simp), if_neg hp, hcut]
  rfl

end GitRepository

end SharpGit.Plumbing
