import Mathlib.Data.List.DropRight
import SharpGit.Svn.Path

namespace SharpGit.Svn

open Library Native

theorem getElem?_front {front tail : CStr} {i : Nat} {b : UInt8} (h : front[i]? = some b) :
    (front ++ tail)[i]? = some b := by
  rw [List.getElem?_append_left (List.getElem?_eq_some_iff.mp h).1, h]

/-- What stands before the last '/', nothing without one. -/
def dirPart (s : CStr) : CStr := (s.rdropWhile (· ≠ slash)).dropLast

/-- A string's last separator splits it into the part before and a word. -/
theorem split_last_slash {s : CStr} (h : slash ∈ s) :
    ∃ dir k, s = dir ++ slash :: k ∧ slash ∉ k := by
  have hrev : slash ∈ s.reverse := List.mem_reverse.mpr h
  obtain ⟨k, dir, hs, hk⟩ := List.eq_append_cons_of_mem hrev
  refine ⟨dir.reverse, k.reverse, ?_, by simpa using hk⟩
  rw [← List.reverse_reverse s, hs, List.reverse_append, List.reverse_cons, List.append_assoc,
    List.singleton_append]

theorem dirPart_word {k : CStr} (hk : slash ∉ k) : dirPart k = [] := by
  have hall : k.rdropWhile (· ≠ slash) = [] := by
    rw [List.rdropWhile_eq_nil_iff]
    intro b hb
    exact decide_eq_true fun h => hk (h ▸ hb)
  rw [dirPart, hall, List.dropLast_nil]

theorem dirPart_split {dir k : CStr} (hk : slash ∉ k) : dirPart (dir ++ slash :: k) = dir := by
  have hdrop : (dir ++ slash :: k).rdropWhile (· ≠ slash) = dir ++ [slash] := by
    rw [List.rdropWhile, List.reverse_append, List.reverse_cons, List.append_assoc,
      List.dropWhile_append_of_pos]
    · simp
    · intro b hb
      exact decide_eq_true fun h => hk (h ▸ List.mem_reverse.mp hb)
  rw [dirPart, hdrop, List.dropLast_concat]

theorem dirPart_append {s : CStr} (hne : s ≠ []) : ∃ tail, tail ≠ [] ∧ s = dirPart s ++ tail := by
  by_cases hmem : slash ∈ s
  · obtain ⟨dir, k, hs, hk⟩ := split_last_slash hmem
    refine ⟨slash :: k, by simp, ?_⟩
    rw [hs, dirPart_split hk]
  · exact ⟨s, hne, by rw [dirPart_word hmem, List.nil_append]⟩

/-- The root of a dirent and what follows it. -/
inductive RootSplit : CStr → CStr → Prop
  | relative {rest : CStr} (hs : rest[0]? ≠ some slash)
      (hd : rest[0]?.any isLetter = true → rest[1]? ≠ some colon) : RootSplit [] rest
  | rooted {rest : CStr} (hs : rest[0]? ≠ some slash ∨ rest = [slash]) : RootSplit [slash] rest
  | drive {c : UInt8} {rest : CStr} (hc : isLetter c = true) (hs : rest[0]? ≠ some slash) :
      RootSplit [c, colon] rest
  | driveRoot {c : UInt8} {rest : CStr} (hc : isLetter c = true) : RootSplit [c, colon, slash] rest
  | server {k rest : CStr} (hne : k ≠ []) (hk : slash ∉ k) (hs : rest = []) :
      RootSplit (slash :: slash :: k) rest
  | share {k h rest : CStr} (hk : slash ∉ k) (hh : slash ∉ h)
      (hs : rest = [] ∨ rest[0]? = some slash) :
      RootSplit (slash :: slash :: (k ++ slash :: h)) rest

/-- A word up to a separator, and the separator with the rest if there is one. -/
theorem split_first_slash (s : CStr) :
    ∃ k rest, s = k ++ rest ∧ slash ∉ k ∧ (rest = [] ∨ rest[0]? = some slash) := by
  by_cases hmem : slash ∈ s
  · obtain ⟨k, rest, hs, hk⟩ := List.eq_append_cons_of_mem hmem
    exact ⟨k, slash :: rest, hs, hk, .inr rfl⟩
  · exact ⟨s, [], by simp, hmem, .inl rfl⟩

theorem rootSplit_exists (s : CStr) : ∃ root rest, s = root ++ rest ∧ RootSplit root rest := by
  cases shape s with
  | empty => exact ⟨[], [], rfl, .relative (by simp) (by simp)⟩
  | unc r =>
    obtain ⟨k, tail, hr, hk, htail⟩ := split_first_slash r
    subst hr
    obtain htail | htail := htail
    · subst htail
      by_cases hne : k = []
      · subst hne
        exact ⟨[slash], [slash], rfl, .rooted (.inr rfl)⟩
      · exact ⟨slash :: slash :: k, [], by simp, .server hne hk rfl⟩
    · obtain ⟨tail, rfl⟩ := eq_cons_of_front htail
      obtain ⟨h, rest, htail, hh, hrest⟩ := split_first_slash tail
      subst htail
      exact ⟨slash :: slash :: (k ++ slash :: h), rest, by simp, .share hk hh hrest⟩
  | rooted r hr => exact ⟨[slash], r, rfl, .rooted (.inl hr)⟩
  | drive c r hc =>
    by_cases hr : r[0]? = some slash
    · obtain ⟨r, rfl⟩ := eq_cons_of_front hr
      exact ⟨[c, colon, slash], r, rfl, .driveRoot hc⟩
    · exact ⟨[c, colon], r, rfl, .drive hc hr⟩
  | relative c r hs hd =>
    refine ⟨[], c :: r, rfl, .relative (by simpa using hs) ?_⟩
    intro hc
    rw [List.getElem?_cons_succ]
    exact hd (by simpa using hc)

/-- What is cut off behind the root leaves the root alone. -/
theorem RootSplit.cut {root front tail : CStr} (h : RootSplit root (front ++ tail)) :
    RootSplit root front := by
  have hget : ∀ (i : Nat) (b : UInt8), front[i]? = some b → (front ++ tail)[i]? = some b :=
    fun i b hb => getElem?_front hb
  cases h with
  | relative hs hd =>
    apply RootSplit.relative
    · exact fun h => hs (hget 0 slash h)
    · intro hc hcolon
      obtain ⟨b, hb, hletter⟩ := (Option.any_eq_true _ _).mp hc
      exact hd ((Option.any_eq_true _ _).mpr ⟨b, hget 0 b hb, hletter⟩) (hget 1 colon hcolon)
  | rooted hs =>
    apply RootSplit.rooted
    by_cases hfront : front[0]? = some slash
    · obtain hs | hs := hs
      · exact absurd (hget 0 slash hfront) hs
      · obtain ⟨front, rfl⟩ := eq_cons_of_front hfront
        rw [List.cons_append, List.cons_eq_cons, List.append_eq_nil_iff] at hs
        exact .inr (by rw [hs.2.1])
    · exact .inl hfront
  | drive hc hs => exact .drive hc fun h => hs (hget 0 slash h)
  | driveRoot hc => exact .driveRoot hc
  | server hne hk hs => exact .server hne hk (List.append_eq_nil_iff.mp hs).1
  | share hk hh hs =>
    apply RootSplit.share hk hh
    cases front with
    | nil => exact .inl rfl
    | cons c front => exact .inr (by simpa using hs)

theorem takeWhile_word {k rest : CStr} (hk : slash ∉ k)
    (hrest : rest = [] ∨ rest[0]? = some slash) :
    (k ++ rest).takeWhile (· ≠ slash) = k := by
  have hall : ∀ b ∈ k, decide (b ≠ slash) = true := by
    intro b hb
    exact decide_eq_true fun h => hk (h ▸ hb)
  rw [List.takeWhile_append_of_pos hall]
  cases rest with
  | nil => simp
  | cons c rest =>
    have hc : c = slash := by simpa using hrest
    simp [hc]

theorem rootLength_server {k : CStr} (hne : k ≠ []) (hk : slash ∉ k) :
    direntRootLength (slash :: slash :: k) = (slash :: slash :: k).length := by
  have hcolon : slash ≠ colon := by decide
  have htake : ((slash :: slash :: k).drop 2).takeWhile (· ≠ slash) = k := by
    simpa using @takeWhile_word k [] hk (.inl rfl)
  have hpos : 0 < k.length := List.length_pos_iff.mpr hne
  unfold direntRootLength
  dsimp only
  rw [if_neg (by simp [hcolon]), if_pos ⟨by simpa using hpos, rfl, rfl⟩, htake, if_pos]
  simp only [List.length_cons]
  omega

theorem rootLength_share {k h rest : CStr} (hk : slash ∉ k) (hh : slash ∉ h)
    (hrest : rest = [] ∨ rest[0]? = some slash) :
    direntRootLength (slash :: slash :: (k ++ slash :: h) ++ rest) =
      (slash :: slash :: (k ++ slash :: h)).length := by
  have hcolon : slash ≠ colon := by decide
  have hsplit : slash :: slash :: (k ++ slash :: h) ++ rest =
      (slash :: slash :: (k ++ [slash])) ++ (h ++ rest) := by simp
  have htake :
      ((slash :: slash :: (k ++ slash :: h) ++ rest).drop 2).takeWhile (· ≠ slash) = k := by
    simpa using @takeWhile_word k (slash :: (h ++ rest)) hk (.inr rfl)
  have hdrop :
      (slash :: slash :: (k ++ slash :: h) ++ rest).drop (2 + k.length + 1) = h ++ rest := by
    rw [hsplit]
    apply List.drop_left'
    simp only [List.length_cons, List.length_append, List.length_nil]
    omega
  have hlen : (slash :: slash :: (k ++ slash :: h) ++ rest).length =
      2 + k.length + 1 + h.length + rest.length := by
    simp only [List.length_cons, List.length_append]
    omega
  unfold direntRootLength
  dsimp only
  rw [if_neg (by simp [hcolon]), if_pos ⟨by omega, rfl, rfl⟩, htake, if_neg (by omega), hdrop,
    takeWhile_word hh hrest]
  simp only [List.length_cons, List.length_append]
  omega

theorem RootSplit.length_eq {root rest : CStr} (h : RootSplit root rest) :
    direntRootLength (root ++ rest) = root.length := by
  have hletter : isLetter slash = false := by decide
  cases h with
  | relative hs hd =>
    have hdrive : ¬(2 ≤ rest.length ∧ rest[1]? = some colon ∧ rest[0]?.any isLetter = true) :=
      fun h => hd h.2.2 h.2.1
    simp [direntRootLength, hdrive, hs]
  | rooted hs =>
    have hserver : ¬(2 < (slash :: rest).length ∧ (slash :: rest)[0]? = some slash ∧
        (slash :: rest)[1]? = some slash) := by
      intro ⟨hlen, _, hfirst⟩
      obtain hs | hs := hs
      · exact hs hfirst
      · subst hs
        exact absurd hlen (by simp)
    show direntRootLength (slash :: rest) = 1
    unfold direntRootLength
    dsimp only
    rw [if_neg (by simp [hletter]), if_neg hserver, if_pos ⟨by simp, rfl⟩]
  | drive hc hs => simp [direntRootLength, hc, hs]
  | driveRoot hc => simp [direntRootLength, hc]
  | server hne hk hs =>
    subst hs
    rw [List.append_nil]
    exact rootLength_server hne hk
  | share hk hh hs => exact rootLength_share hk hh hs

theorem RootSplit.length_le {root rest : CStr} (h : RootSplit root rest) :
    direntRootLength (root ++ rest) ≤ (root ++ rest).length := by
  rw [h.length_eq]
  simp

/-- The stop of the scan in `dirent_previous_segment`. -/
def segmentStop (dirent : CStr) (i : Nat) : Bool :=
  dirent[i]? = some slash || (dirent[i]? = some colon && i = 1)

theorem svnDirentDirname_scan {dirent : CStr} {m : Nat}
    (hlen : dirent.length ≠ direntRootLength dirent)
    (hscan : scanBack (segmentStop dirent) (dirent.length - 1) = m) :
    svnDirentDirname dirent =
      dirent.take (if direntRootLength (dirent.take (m + 1)) = m + 1 then m + 1 else m) := by
  have hzero : dirent.length ≠ 0 := by
    intro h
    rw [List.length_eq_zero_iff] at h
    subst h
    exact hlen rfl
  subst hscan
  unfold svnDirentDirname direntPreviousSegment
  dsimp only
  rw [if_neg hlen, if_neg hzero]
  rfl

theorem RootSplit.length_ne {root rest : CStr} (h : RootSplit root rest) (hne : rest ≠ []) :
    (root ++ rest).length ≠ direntRootLength (root ++ rest) := by
  have hpos : 0 < rest.length := List.length_pos_iff.mpr hne
  rw [h.length_eq, List.length_append]
  omega

/-- Where the scan stops behind the root, the parent ends. -/
theorem svnDirentDirname_behind {root front tail : CStr} (h : RootSplit root (front ++ tail))
    (hne : tail ≠ [])
    (hscan : scanBack (segmentStop (root ++ (front ++ tail)))
      ((root ++ (front ++ tail)).length - 1) = (root ++ front).length) :
    svnDirentDirname (root ++ (front ++ tail)) = root ++ front := by
  obtain ⟨c, tail, rfl⟩ := List.exists_cons_of_ne_nil hne
  have hsplit : front ++ c :: tail = (front ++ [c]) ++ tail := by simp
  have hnext : (root ++ (front ++ c :: tail)).take ((root ++ front).length + 1) =
      root ++ (front ++ [c]) := by
    rw [hsplit, ← List.append_assoc]
    apply List.take_left'
    simp only [List.length_append, List.length_singleton]
    omega
  have hroot : direntRootLength (root ++ (front ++ [c])) ≠ (root ++ front).length + 1 := by
    rw [hsplit] at h
    rw [h.cut.length_eq, List.length_append]
    omega
  rw [svnDirentDirname_scan (h.length_ne (by simp)) hscan, hnext, if_neg hroot,
    ← List.append_assoc, List.take_left]

/-- Where the scan stops at the last byte of the root, the parent is the root. -/
theorem svnDirentDirname_root {root rest : CStr} (h : RootSplit root rest) (hne : rest ≠ [])
    (hroot : root ≠ [])
    (hscan : scanBack (segmentStop (root ++ rest)) ((root ++ rest).length - 1) =
      root.length - 1) :
    svnDirentDirname (root ++ rest) = root := by
  have hpos : 0 < root.length := List.length_pos_iff.mpr hroot
  have hself : direntRootLength root = root.length := by
    have hcut : RootSplit root [] := @RootSplit.cut root [] rest h
    simpa using hcut.length_eq
  have hback : root.length - 1 + 1 = root.length := by omega
  rw [svnDirentDirname_scan (h.length_ne hne) hscan, hback, List.take_left, if_pos hself,
    List.take_left]

theorem segmentStop_eq_false {dirent : CStr} {i : Nat} (hs : dirent[i]? ≠ some slash)
    (hc : i ≠ 1 ∨ dirent[i]? ≠ some colon) : segmentStop dirent i = false := by
  simp only [segmentStop, Bool.or_eq_false_iff, Bool.and_eq_false_iff, decide_eq_false_iff_not]
  exact ⟨hs, hc.symm⟩

theorem no_slash_behind {root k : CStr} (hk : slash ∉ k) {i : Nat} (hi : root.length ≤ i) :
    (root ++ k)[i]? ≠ some slash := by
  rw [List.getElem?_append_right hi]
  exact fun h => hk (List.mem_of_getElem? h)

/-- Behind the last separator of the rest nothing stops the scan. -/
theorem scan_separator {root front k : CStr} (h : RootSplit root (front ++ slash :: k))
    (hk : slash ∉ k) :
    scanBack (segmentStop (root ++ (front ++ slash :: k)))
      ((root ++ (front ++ slash :: k)).length - 1) = (root ++ front).length := by
  have hsplit : root ++ (front ++ slash :: k) = (root ++ front ++ [slash]) ++ k := by simp
  have hpos : 0 < (root ++ front).length := by
    rw [List.length_pos_iff]
    intro hnil
    obtain ⟨rfl, rfl⟩ := List.append_eq_nil_iff.mp hnil
    cases h with
    | relative hs _ => exact hs rfl
  apply scanBack_eq
  · simp
    omega
  · right
    have hget : (root ++ (front ++ slash :: k))[(root ++ front).length]? = some slash := by
      rw [← List.append_assoc, List.getElem?_append_right (Nat.le_refl _), Nat.sub_self,
        List.getElem?_cons_zero]
    rw [segmentStop, hget]
    rfl
  · intro i hi _
    apply segmentStop_eq_false
    · rw [hsplit]
      apply no_slash_behind hk
      rw [List.length_append, List.length_singleton]
      exact hi
    · exact .inl (by omega)

/-- Behind the root the scan stops at a byte of the root that stops it. -/
theorem scan_word {root k : CStr} {m : Nat} (hk : slash ∉ k) (hm : m + 1 = root.length)
    (hpos : 0 < k.length) (hstop : m = 0 ∨ segmentStop (root ++ k) m = true)
    (hcolon : m = 0 → k[0]? ≠ some colon) :
    scanBack (segmentStop (root ++ k)) ((root ++ k).length - 1) = root.length - 1 := by
  have hback : root.length - 1 = m := by omega
  rw [hback]
  apply scanBack_eq
  · rw [List.length_append]
    omega
  · exact hstop
  · intro i hi _
    apply segmentStop_eq_false
    · exact no_slash_behind hk (by omega)
    · by_cases hone : i = 1
      · right
        subst hone
        rw [List.getElem?_append_right (by omega)]
        have hzero : 1 - root.length = 0 := by omega
        rw [hzero]
        exact hcolon (by omega)
      · exact .inl hone

/-- The parent of a dirent is its root with what stands before the last '/' behind the root. A
second byte ':' counts as the end of a root also where the first one is no letter. -/
theorem RootSplit.dirname {root rest : CStr} (h : RootSplit root rest) (hne : rest ≠ [])
    (hcolon : root = [] → slash ∉ rest → rest[1]? ≠ some colon) :
    svnDirentDirname (root ++ rest) = root ++ dirPart rest := by
  have hpos : 0 < rest.length := List.length_pos_iff.mpr hne
  by_cases hmem : slash ∈ rest
  · obtain ⟨front, k, rfl, hk⟩ := split_last_slash hmem
    rw [dirPart_split hk]
    exact svnDirentDirname_behind h (by simp) (scan_separator h hk)
  rw [dirPart_word hmem, List.append_nil]
  cases h with
  | relative hs hd =>
    have hscan : scanBack (segmentStop rest) (rest.length - 1) = 0 := by
      apply scanBack_eq
      · exact Nat.zero_le _
      · exact .inl rfl
      · intro i hi _
        apply segmentStop_eq_false
        · exact @no_slash_behind [] rest hmem i (Nat.zero_le i)
        · by_cases hone : i = 1
          · exact .inr (hone ▸ hcolon rfl hmem)
          · exact .inl hone
    exact @svnDirentDirname_behind [] [] rest (.relative hs hd) hne hscan
  | rooted hs =>
    by_cases hfirst : rest[0]? = some colon
    · have hscan : scanBack (segmentStop (slash :: rest)) ((slash :: rest).length - 1) = 1 := by
        apply scanBack_eq
        · simpa [Nat.succ_le_iff] using hpos
        · exact .inr (by simp [segmentStop, hfirst])
        · intro i hi _
          apply segmentStop_eq_false
          · exact @no_slash_behind [slash] rest hmem i (by simpa using Nat.le_of_lt hi)
          · exact .inl (by omega)
      exact @svnDirentDirname_behind [slash] [] rest (.rooted hs) hne hscan
    · exact svnDirentDirname_root (.rooted hs) hne (by simp)
        (@scan_word [slash] rest 0 hmem rfl hpos (.inl rfl) fun _ => hfirst)
  | drive hc hs =>
    exact svnDirentDirname_root (.drive hc hs) hne (by simp)
      (scan_word hmem rfl hpos (.inr (by simp [segmentStop])) (by simp))
  | driveRoot hc =>
    exact svnDirentDirname_root (.driveRoot hc) hne (by simp)
      (scan_word hmem rfl hpos (.inr (by simp [segmentStop])) (by simp))
  | server _ _ hs => exact absurd hs hne
  | share _ _ hs =>
    obtain hs | hs := hs
    · exact absurd hs hne
    · exact absurd (List.mem_of_getElem? hs) hmem

theorem scanBack_le (stop : Nat → Bool) (n : Nat) : scanBack stop n ≤ n := by
  induction n with
  | zero => exact Nat.le_refl _
  | succ n ih =>
    rw [scanBack]
    split_ifs
    · exact Nat.le_refl _
    · exact Nat.le_succ_of_le ih

theorem svnDirentDirname_shorter (dirent : CStr) :
    svnDirentDirname dirent = dirent ∨ (svnDirentDirname dirent).length < dirent.length := by
  by_cases hlen : dirent.length = direntRootLength dirent
  · exact .inl (by rw [svnDirentDirname, if_pos hlen])
  right
  have hle := scanBack_le (segmentStop dirent) (dirent.length - 1)
  have hpos : 0 < dirent.length := by
    rw [List.length_pos_iff]
    intro hnil
    subst hnil
    exact hlen rfl
  rw [svnDirentDirname_scan hlen rfl]
  split_ifs with hroot
  · by_cases hall : scanBack (segmentStop dirent) (dirent.length - 1) + 1 = dirent.length
    · rw [hall, List.take_length] at hroot
      exact absurd hroot.symm hlen
    · rw [List.length_take]
      omega
  · rw [List.length_take]
    omega

/-- An ancestor, or the dirent itself. -/
def Above (a dirent : CStr) : Prop := (svnDirentSkipAncestor a dirent).isSome = true

/-- A front of a path that ends where a name ends, or is empty. -/
def UpTo (front rest : CStr) : Prop :=
  ∃ tail, rest = front ++ tail ∧ (tail = [] ∨ front = [] ∨ tail[0]? = some slash)

theorem upTo_self (rest : CStr) : UpTo rest rest := ⟨[], by simp, .inl rfl⟩

/-- Short of the whole, the fronts of a path are those of its directory. -/
theorem upTo_dirPart {front rest : CStr} (hne : rest ≠ []) :
    UpTo front rest ↔ front = rest ∨ UpTo front (dirPart rest) := by
  constructor
  · intro ⟨tail, hrest, htail⟩
    obtain rfl | htail := htail
    · exact .inl (by simp [hrest])
    by_cases hnil : tail = []
    · exact .inl (by simp [hrest, hnil])
    right
    obtain rfl | htail := htail
    · exact ⟨dirPart rest, rfl, .inr (.inl rfl)⟩
    · obtain ⟨tail, rfl⟩ := eq_cons_of_front htail
      obtain ⟨dir, k, hsplit, hk⟩ := split_last_slash (show slash ∈ rest by simp [hrest])
      rw [hsplit, dirPart_split hk]
      rw [hsplit] at hrest
      obtain ⟨t, hfront, hlast⟩ | ⟨t, hdir, hlast⟩ := List.append_eq_append_iff.mp hrest
      · cases t with
        | nil => exact ⟨[], by simp [hfront], .inl rfl⟩
        | cons c t =>
          have hmem : slash ∈ k := by
            rw [(List.cons.inj hlast).2]
            simp
          exact absurd hmem hk
      · refine ⟨t, hdir, ?_⟩
        cases t with
        | nil => exact .inl rfl
        | cons c t => exact .inr (.inr (by simp [(List.cons.inj hlast).1]))
  · intro h
    obtain rfl | ⟨tail, hdir, htail⟩ := h
    · exact upTo_self front
    by_cases hmem : slash ∈ rest
    · obtain ⟨dir, k, rfl, hk⟩ := split_last_slash hmem
      rw [dirPart_split hk] at hdir
      subst hdir
      refine ⟨tail ++ slash :: k, by simp, .inr ?_⟩
      cases tail with
      | nil => exact .inr rfl
      | cons c tail => exact htail.resolve_left (by simp)
    · rw [dirPart_word hmem] at hdir
      have hfront : front = [] := (List.append_eq_nil_iff.mp hdir.symm).1
      exact ⟨rest, by simp [hfront], .inr (.inl hfront)⟩

/-- What `svn_dirent_skip_ancestor` accepts: a front behind which nothing follows, or that holds the
root and ends before a separator or with the root. -/
theorem above_iff_append {a dirent : CStr} :
    Above a dirent ↔ ∃ tail, dirent = a ++ tail ∧ (tail = [] ∨ direntRootLength dirent ≤ a.length ∧
      (tail[0]? = some slash ∨ direntRootLength dirent = a.length)) := by
  unfold Above svnDirentSkipAncestor
  dsimp only
  by_cases hpre : a <+: dirent
  · obtain ⟨tail, rfl⟩ := hpre
    have hexists : ∀ P : CStr → Prop, (∃ t, a ++ tail = a ++ t ∧ P t) ↔ P tail := by
      intro P
      constructor
      · intro ⟨t, ht, hp⟩
        rw [List.append_cancel_left ht]
        exact hp
      · exact fun hp => ⟨tail, rfl, hp⟩
    rw [hexists, List.take_left, if_neg (not_not.mpr rfl)]
    cases tail with
    | nil => simp
    | cons c tail =>
      rw [List.getElem?_append_right (Nat.le_refl _), Nat.sub_self, List.getElem?_cons_zero]
      dsimp only
      by_cases hlen : a.length < direntRootLength (a ++ c :: tail)
      · rw [if_pos hlen]
        simp [Nat.not_le.mpr hlen]
      · by_cases hc : c = slash
        · simp [hc]
        · by_cases hroot : direntRootLength (a ++ c :: tail) = a.length
          · simp [hc, hroot]
          · simp [hlen, hc, hroot]
  · have htake : dirent.take a.length ≠ a := fun h => hpre (h ▸ List.take_prefix _ _)
    rw [if_pos htake]
    apply iff_of_false (by simp)
    intro ⟨tail, htail, _⟩
    exact hpre ⟨tail, htail.symm⟩

theorem above_self (dirent : CStr) : Above dirent dirent :=
  above_iff_append.mpr ⟨[], by simp, .inl rfl⟩

theorem Above.length_le {a dirent : CStr} (h : Above a dirent) : a.length ≤ dirent.length := by
  obtain ⟨tail, htail, _⟩ := above_iff_append.mp h
  rw [htail, List.length_append]
  exact Nat.le_add_right _ _

/-- The ancestors keep the root. -/
theorem RootSplit.above_iff {root rest a : CStr} (h : RootSplit root rest) :
    Above a (root ++ rest) ↔ ∃ front, UpTo front rest ∧ a = root ++ front := by
  rw [above_iff_append, h.length_eq]
  constructor
  · intro ⟨tail, hsplit, htail⟩
    obtain rfl | ⟨hlong, htail⟩ := htail
    · exact ⟨rest, upTo_self rest, by simpa using hsplit.symm⟩
    obtain ⟨front, hfront, hrest⟩ : ∃ front, a = root ++ front ∧ rest = front ++ tail := by
      obtain ⟨front, ha, hrest⟩ | ⟨front, hroot, htail⟩ := List.append_eq_append_iff.mp hsplit
      · exact ⟨front, ha, hrest⟩
      · have hnil : front = [] := by
          rw [hroot, List.length_append] at hlong
          exact List.length_eq_zero_iff.mp (by omega)
        subst hnil
        exact ⟨[], by simpa using hroot.symm, htail.symm⟩
    refine ⟨front, ⟨tail, hrest, .inr ?_⟩, hfront⟩
    obtain hslash | hlen := htail
    · exact .inr hslash
    · left
      rw [hfront, List.length_append] at hlen
      exact List.length_eq_zero_iff.mp (by omega)
  · intro ⟨front, ⟨tail, hrest, htail⟩, ha⟩
    subst hrest ha
    refine ⟨tail, by rw [List.append_assoc], htail.imp_right fun htail => ⟨by simp, ?_⟩⟩
    obtain rfl | hslash := htail
    · exact .inr (by simp)
    · exact .inl hslash

theorem RootSplit.parent {root rest : CStr} (h : RootSplit root rest) (hne : rest ≠ []) :
    RootSplit root (dirPart rest) := by
  obtain ⟨tail, -, hrest⟩ := dirPart_append hne
  rw [hrest] at h
  exact h.cut

theorem RootSplit.above_parent {root rest a : CStr} (h : RootSplit root rest) (hne : rest ≠ []) :
    Above a (root ++ rest) ↔ a = root ++ rest ∨ Above a (root ++ dirPart rest) := by
  rw [h.above_iff, (h.parent hne).above_iff]
  constructor
  · intro ⟨front, hfront, ha⟩
    obtain rfl | hfront := (upTo_dirPart hne).mp hfront
    · exact .inl ha
    · exact .inr ⟨front, hfront, ha⟩
  · intro ha
    obtain ha | ⟨front, hfront, ha⟩ := ha
    · exact ⟨rest, upTo_self rest, ha⟩
    · exact ⟨front, (upTo_dirPart hne).mpr (.inr hfront), ha⟩

theorem RootSplit.above_root {root a : CStr} (h : RootSplit root []) :
    Above a root ↔ a = root := by
  have hiff := @RootSplit.above_iff root [] a h
  rw [List.append_nil] at hiff
  rw [hiff]
  constructor
  · intro ⟨front, ⟨tail, hnil, _⟩, ha⟩
    have hfront : front = [] := (List.append_eq_nil_iff.mp hnil.symm).1
    rw [ha, hfront, List.append_nil]
  · intro ha
    exact ⟨[], upTo_self [], by simpa using ha⟩

theorem svnDirentIsRoot_share {k t : CStr} (hk : slash ∉ k) (ht : slash ∉ t) (hne : t ≠ []) :
    svnDirentIsRoot (slash :: slash :: (k ++ slash :: t)) = true := by
  have hcolon : slash ≠ colon := by decide
  have hsplit : slash :: slash :: (k ++ slash :: t) = (slash :: slash :: (k ++ [slash])) ++ t := by
    simp
  have hlast : (slash :: slash :: (k ++ slash :: t))[
      (slash :: slash :: (k ++ slash :: t)).length - 1]? ≠ some slash := by
    rw [← List.getLast?_eq_getElem?, hsplit, List.getLast?_append_of_ne_nil _ hne]
    exact fun h => ht (List.mem_of_getLast? h)
  have hcount : (k ++ slash :: t).count slash = 1 := by
    rw [List.count_append, List.count_cons_self, List.count_eq_zero_of_not_mem hk,
      List.count_eq_zero_of_not_mem ht]
  unfold svnDirentIsRoot
  dsimp only
  rw [if_neg (by simp [hcolon]), if_pos ⟨by simp, rfl, rfl, hlast⟩]
  exact decide_eq_true hcount

/-- A dirent that `svn_dirent_is_root` accepts is all root. -/
theorem rootLength_of_isRoot {dirent : CStr} (h : svnDirentIsRoot dirent = true) :
    direntRootLength dirent = dirent.length := by
  unfold svnDirentIsRoot at h
  dsimp only at h
  split_ifs at h with hdrive hunc
  · obtain ⟨hlen, hcolon, hletter⟩ := hdrive
    unfold direntRootLength
    dsimp only
    rw [if_pos ⟨by omega, hcolon, hletter⟩]
    split_ifs with hthree
    · omega
    · obtain hlen | ⟨hlen, hs⟩ := hlen
      · exact hlen.symm
      · exact absurd ⟨by omega, hs⟩ hthree
  · obtain ⟨hlen, h0, h1, -⟩ := hunc
    obtain ⟨r, rfl⟩ := eq_cons_of_front h0
    obtain ⟨r, rfl⟩ := eq_cons_of_front (show r[0]? = some slash by simpa using h1)
    have hcount : r.count slash = 1 := by simpa using h
    obtain ⟨k, t, rfl, hk⟩ := List.eq_append_cons_of_mem
      (List.count_pos_iff.mp (show 0 < r.count slash by omega))
    have ht : slash ∉ t := by
      rw [List.count_append, List.count_cons_self, List.count_eq_zero_of_not_mem hk] at hcount
      exact List.count_eq_zero.mp (by omega)
    simpa using rootLength_share hk ht (.inl rfl)
  · have hslash : dirent.length = 1 ∧ dirent[0]? = some slash := by simpa using h
    obtain ⟨c, rfl⟩ := List.length_eq_one_iff.mp hslash.1
    have hc : c = slash := by simpa using hslash.2
    subst hc
    rfl

theorem RootSplit.of_isRoot {root rest : CStr} (h : RootSplit root rest)
    (hroot : svnDirentIsRoot (root ++ rest) = true) : rest = [] := by
  have hlen := rootLength_of_isRoot hroot
  rw [h.length_eq, List.length_append] at hlen
  exact List.length_eq_zero_iff.mp (by omega)

/-- What can stand in front of a dirent: nothing, a root, a server alone, or a server with the
separator that ends it. -/
theorem RootSplit.cases_root {root rest : CStr} (h : RootSplit root rest) :
    root = [] ∨ svnDirentIsRoot root = true ∨
      (∃ k, root = slash :: slash :: k ∧ k ≠ [] ∧ slash ∉ k ∧ rest = []) ∨
      ∃ k, root = slash :: slash :: (k ++ [slash]) ∧ slash ∉ k ∧
        (rest = [] ∨ rest[0]? = some slash) := by
  cases h with
  | relative _ _ => exact .inl rfl
  | rooted _ => exact .inr (.inl (by decide))
  | drive hc _ => exact .inr (.inl (by simp [svnDirentIsRoot, hc]))
  | driveRoot hc => exact .inr (.inl (by simp [svnDirentIsRoot, hc]))
  | server hne hk hs => exact .inr (.inr (.inl ⟨_, rfl, hne, hk, hs⟩))
  | @share k t _ hk hh hs =>
    by_cases hnil : t = []
    · subst hnil
      exact .inr (.inr (.inr ⟨k, rfl, hk, hs⟩))
    · exact .inr (.inl (svnDirentIsRoot_share hk hh hnil))

end SharpGit.Svn
