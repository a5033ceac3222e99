import SharpGit.Library.Ascent
import SharpGit.Svn.DirentSplit
import SharpGit.Plumbing.GitRepository

namespace SharpGit.Plumbing

open Library Native Svn Implementation

/-- A disk that answers for every path. -/
def diskOf (kindOf : CStr → NodeKind) (openExt : CStr → Except Int NativeRepository) : FileSystem :=
  ⟨fun dirent => .ok (kindOf dirent), openExt⟩

namespace GitRepository

/-- Where the walk should end: at the deepest ancestor that exists, or at a root if none does. -/
def DeepestExisting (kindOf : CStr → NodeKind) (dirent d : CStr) : Prop :=
  Above d dirent ∧
    ((kindOf d ≠ .none ∧ ∀ a, Above a dirent → kindOf a ≠ .none → a.length ≤ d.length) ∨
      (svnDirentIsRoot d = true ∧ ∀ a, Above a dirent → kindOf a = .none))

/-- A server without a share, maybe with the '/' that a NUL keeps from being trimmed, and nothing
there. -/
def LoneServer (kindOf : CStr → NodeKind) (dirent : CStr) : Prop :=
  ∃ k, (dirent = slash :: slash :: k ∨ dirent = slash :: slash :: (k ++ [slash])) ∧ k ≠ [] ∧
    slash ∉ k ∧ kindOf dirent = .none

/-- No drive, but a second byte ':' with something existing before it, and no ancestor but the
current directory. -/
def StopsInName (kindOf : CStr → NodeKind) (dirent : CStr) : Prop :=
  direntRootLength dirent = 0 ∧ dirent[1]? = some colon ∧ kindOf (dirent.take 1) ≠ .none ∧
    ∀ a, Above a dirent → a ≠ [] → kindOf a = .none

variable {kindOf : CStr → NodeKind} {openExt : CStr → Except Int NativeRepository}

def stopsWalk (kindOf : CStr → NodeKind) (dirent : CStr) : Bool :=
  kindOf dirent ≠ .none || svnDirentIsRoot dirent

/-- On a disk that answers, the loop is an ascent. -/
theorem existingAncestor_eq_ok {fuel : Nat} {dirent d : CStr} :
    existingAncestor (diskOf kindOf openExt) fuel dirent = .ok d ↔
      ascend (stopsWalk kindOf) svnDirentDirname fuel dirent = some d := by
  induction fuel generalizing dirent with
  | zero => simp [existingAncestor, ascend]
  | succ fuel ih =>
    rw [ascend]
    unfold existingAncestor
    dsimp only [diskOf]
    by_cases hstop : stopsWalk kindOf dirent = true
    · have hkind : ¬(kindOf dirent = .none ∧ svnDirentIsRoot dirent = false) := by
        intro hon
        simp [stopsWalk, hon.1, hon.2] at hstop
      rw [if_neg hkind, if_pos hstop]
      simp
    · have hkind : kindOf dirent = .none ∧ svnDirentIsRoot dirent = false := by
        simpa [stopsWalk] using hstop
      rw [if_pos hkind, if_neg hstop]
      exact ih

theorem exists_walk_iff {P : CStr → Prop} {dirent : CStr} :
    (∃ fuel d, existingAncestor (diskOf kindOf openExt) fuel dirent = .ok d ∧ P d) ↔
      ∃ d, Ends (stopsWalk kindOf) svnDirentDirname dirent d ∧ P d := by
  constructor
  · intro ⟨fuel, d, hd, hp⟩
    exact ⟨d, ⟨fuel, existingAncestor_eq_ok.mp hd⟩, hp⟩
  · intro ⟨d, ⟨fuel, hd⟩, hp⟩
    exact ⟨fuel, d, existingAncestor_eq_ok.mpr hd, hp⟩

theorem deepestExisting_self {dirent : CStr} (h : kindOf dirent ≠ .none) :
    DeepestExisting kindOf dirent dirent :=
  ⟨above_self dirent, .inl ⟨h, fun _ ha _ => ha.length_le⟩⟩

theorem ends_existing {dirent : CStr} (h : kindOf dirent ≠ .none) :
    Ends (stopsWalk kindOf) svnDirentDirname dirent dirent :=
  (ends_of_stop (by simp [stopsWalk, h])).mpr rfl

/-- A dirent that does not exist has its parent's deepest ancestor. -/
theorem deepestExisting_parent {root rest d : CStr} (h : RootSplit root rest) (hne : rest ≠ [])
    (hkind : kindOf (root ++ rest) = .none) :
    DeepestExisting kindOf (root ++ rest) d ↔
      DeepestExisting kindOf (root ++ dirPart rest) d := by
  have hparent : ∀ a, Above a (root ++ rest) ↔ a = root ++ rest ∨ Above a (root ++ dirPart rest) :=
    fun a => h.above_parent hne
  constructor
  · intro ⟨habove, hd⟩
    have hself : d ≠ root ++ rest := by
      intro heq
      subst heq
      obtain ⟨hk, -⟩ | ⟨hroot, -⟩ := hd
      · exact hk hkind
      · exact hne (h.of_isRoot hroot)
    refine ⟨((hparent d).mp habove).resolve_left hself, ?_⟩
    exact hd.imp (And.imp_right fun hall a ha => hall a ((hparent a).mpr (.inr ha)))
      (And.imp_right fun hall a ha => hall a ((hparent a).mpr (.inr ha)))
  · intro ⟨habove, hd⟩
    refine ⟨(hparent d).mpr (.inr habove), hd.imp (And.imp_right ?_) (And.imp_right ?_)⟩
    · intro hall a ha hk
      obtain rfl | ha := (hparent a).mp ha
      · exact absurd hkind hk
      · exact hall a ha hk
    · intro hall a ha
      obtain rfl | ha := (hparent a).mp ha
      · exact hkind
      · exact hall a ha

theorem ends_parent {root rest d : CStr} (h : RootSplit root rest) (hne : rest ≠ [])
    (hcolon : root = [] → slash ∉ rest → rest[1]? ≠ some colon)
    (hkind : kindOf (root ++ rest) = .none) :
    Ends (stopsWalk kindOf) svnDirentDirname (root ++ rest) d ↔
      Ends (stopsWalk kindOf) svnDirentDirname (root ++ dirPart rest) d := by
  have hstop : stopsWalk kindOf (root ++ rest) = false := by
    cases hroot : svnDirentIsRoot (root ++ rest) with
    | false => simp [stopsWalk, hkind, hroot]
    | true => exact absurd (h.of_isRoot hroot) hne
  rw [ends_of_not_stop hstop, h.dirname hne hcolon]

/-- Behind a root the walk ends at the deepest ancestor that exists, or at the root. -/
theorem walk_behind_root (hcwd : kindOf [] ≠ .none) {root rest : CStr} (h : RootSplit root rest)
    (hroot : root = [] ∨ svnDirentIsRoot root = true) (hcolon : root = [] → rest[1]? ≠ some colon) :
    ∃ d, Ends (stopsWalk kindOf) svnDirentDirname (root ++ rest) d ∧
      DeepestExisting kindOf (root ++ rest) d := by
  induction hn : rest.length using Nat.strongRecOn generalizing rest with
  | ind n ih =>
    by_cases hkind : kindOf (root ++ rest) = .none
    · by_cases hne : rest = []
      · subst hne
        rw [List.append_nil] at hkind ⊢
        have hisroot : svnDirentIsRoot root = true := by
          obtain rfl | hroot := hroot
          · exact absurd hkind hcwd
          · exact hroot
        refine ⟨root, (ends_of_stop (by simp [stopsWalk, hisroot])).mpr rfl, above_self root, ?_⟩
        right
        refine ⟨hisroot, fun a ha => ?_⟩
        rw [h.above_root.mp ha, hkind]
      · obtain ⟨tail, htail, hrest⟩ := dirPart_append hne
        have hless : (dirPart rest).length < n := by
          have hpos : 0 < tail.length := List.length_pos_iff.mpr htail
          rw [← hn, hrest, List.length_append, ← hrest]
          omega
        have hfirst : root = [] → (dirPart rest)[1]? ≠ some colon := by
          intro hnil h1
          rw [hrest] at hcolon
          exact hcolon hnil (getElem?_front h1)
        obtain ⟨d, hends, hd⟩ := ih (dirPart rest).length hless (h.parent hne) hfirst rfl
        exact ⟨d, (ends_parent h hne (fun hnil _ => hcolon hnil) hkind).mpr hends,
          (deepestExisting_parent h hne hkind).mpr hd⟩
    · exact ⟨root ++ rest, ends_existing hkind, deepestExisting_self hkind⟩

theorem ne_nil_of_colon {rest : CStr} (hcolon : rest[1]? = some colon) : rest ≠ [] := by
  intro hnil
  subst hnil
  exact absurd hcolon (by simp)

theorem length_take_one {rest : CStr} (hcolon : rest[1]? = some colon) :
    (rest.take 1).length = 1 := by
  have hlen : 1 < rest.length := (List.getElem?_eq_some_iff.mp hcolon).1
  rw [List.length_take]
  omega

/-- The scan for the last segment takes it for the end of a drive. -/
theorem svnDirentDirname_colon {rest : CStr} (h : RootSplit [] rest)
    (hcolon : rest[1]? = some colon) (hmem : slash ∉ rest) :
    svnDirentDirname rest = rest.take 1 := by
  have hlen : 1 < rest.length := (List.getElem?_eq_some_iff.mp hcolon).1
  have hscan : scanBack (segmentStop rest) (rest.length - 1) = 1 := by
    apply scanBack_eq
    · omega
    · exact .inr (by simp [segmentStop, hcolon])
    · intro i hi _
      apply segmentStop_eq_false
      · exact @no_slash_behind [] rest hmem i (Nat.zero_le i)
      · exact .inl (by omega)
  have hroot : direntRootLength (rest.take 2) ≠ 2 := by
    rw [← List.take_append_drop 2 rest] at h
    have hzero : direntRootLength (rest.take 2) = 0 := h.cut.length_eq
    omega
  have hall : rest.length ≠ direntRootLength rest := h.length_ne (ne_nil_of_colon hcolon)
  rw [svnDirentDirname_scan hall hscan, if_neg hroot]

/-- A single name has only itself and the current directory above it. -/
theorem above_word {rest a : CStr} (h : RootSplit [] rest) (hne : rest ≠ []) (hmem : slash ∉ rest) :
    Above a rest ↔ a = rest ∨ a = [] := by
  have hparent := @RootSplit.above_parent [] rest a h hne
  rw [dirPart_word hmem] at hparent
  have hroot : RootSplit [] [] := .relative (by simp) (by simp)
  exact hparent.trans (or_congr_right hroot.above_root)

theorem stopsInName_parent {dir k : CStr} (h : RootSplit [] (dir ++ slash :: k)) (hk : slash ∉ k)
    (hcolon : dir[1]? = some colon) (hkind : kindOf (dir ++ slash :: k) = .none) :
    StopsInName kindOf (dir ++ slash :: k) ↔ StopsInName kindOf dir := by
  have hlen : 1 < dir.length := (List.getElem?_eq_some_iff.mp hcolon).1
  have hroot : direntRootLength (dir ++ slash :: k) = 0 := h.length_eq
  have hdir : direntRootLength dir = 0 := h.cut.length_eq
  have htake : (dir ++ slash :: k).take 1 = dir.take 1 := by
    rw [List.take_append_of_le_length (Nat.le_of_lt hlen)]
  have habove : ∀ a, Above a (dir ++ slash :: k) ↔ a = dir ++ slash :: k ∨ Above a dir := by
    intro a
    have hparent := @RootSplit.above_parent [] _ a h (by simp)
    rwa [dirPart_split hk] at hparent
  unfold StopsInName
  rw [hroot, hdir, htake, getElem?_front hcolon, hcolon]
  simp only [true_and]
  apply and_congr_right
  intro _
  constructor
  · exact fun hall a ha => hall a ((habove a).mpr (.inr ha))
  · intro hall a ha hne
    obtain rfl | ha := (habove a).mp ha
    · exact hkind
    · exact hall a ha hne

section Single

variable {rest : CStr} (h : RootSplit [] rest) (hcolon : rest[1]? = some colon)
  (hmem : slash ∉ rest) (hkind : kindOf rest = .none)

include h hcolon hmem hkind

theorem ends_single {d : CStr} :
    Ends (stopsWalk kindOf) svnDirentDirname rest d ↔
      Ends (stopsWalk kindOf) svnDirentDirname (rest.take 1) d := by
  have hstop : stopsWalk kindOf rest = false := by
    cases hroot : svnDirentIsRoot rest with
    | false => simp [stopsWalk, hkind, hroot]
    | true => exact absurd (@RootSplit.of_isRoot [] rest h hroot) (ne_nil_of_colon hcolon)
  rw [ends_of_not_stop hstop, svnDirentDirname_colon h hcolon hmem]

/-- Where nothing stands before the ':' the walk goes on to the current directory. -/
theorem walk_single_past (hcwd : kindOf [] ≠ .none) (hname : kindOf (rest.take 1) = .none) :
    Ends (stopsWalk kindOf) svnDirentDirname rest [] ∧ DeepestExisting kindOf rest [] := by
  have hne := ne_nil_of_colon hcolon
  have hshort := length_take_one hcolon
  constructor
  · have hword : RootSplit [] (rest.take 1) := by
      rw [← List.take_append_drop 1 rest] at h
      exact h.cut
    have hnil : rest.take 1 ≠ [] := by
      intro heq
      rw [heq] at hshort
      exact absurd hshort (by simp)
    have hslash : slash ∉ rest.take 1 := fun h => hmem (List.mem_of_mem_take h)
    have hsecond : (rest.take 1)[1]? ≠ some colon := by
      rw [List.getElem?_eq_none (by omega)]
      simp
    rw [ends_single h hcolon hmem hkind]
    apply (ends_parent hword hnil (fun _ _ => hsecond) hname).mpr
    rw [dirPart_word hslash]
    exact ends_existing hcwd
  · refine ⟨(above_word h hne hmem).mpr (.inr rfl), .inl ⟨hcwd, fun a ha hexists => ?_⟩⟩
    obtain rfl | rfl := (above_word h hne hmem).mp ha
    · exact absurd hkind hexists
    · exact Nat.le_refl _

/-- Where something stands before the ':' the walk ends there, and that is no ancestor. -/
theorem walk_single_stops (hname : kindOf (rest.take 1) ≠ .none) :
    Ends (stopsWalk kindOf) svnDirentDirname rest (rest.take 1) ∧
      ¬DeepestExisting kindOf rest (rest.take 1) ∧ StopsInName kindOf rest := by
  have hne := ne_nil_of_colon hcolon
  have hshort := length_take_one hcolon
  refine ⟨?_, ?_, h.length_eq, hcolon, hname, fun a ha hnil => ?_⟩
  · rw [ends_single h hcolon hmem hkind]
    exact ends_existing hname
  · intro hdeep
    have hlen : 1 < rest.length := (List.getElem?_eq_some_iff.mp hcolon).1
    obtain heq | heq := (above_word h hne hmem).mp hdeep.1
    · rw [heq] at hshort
      omega
    · rw [heq] at hshort
      exact absurd hshort (by simp)
  · obtain rfl | ha := (above_word h hne hmem).mp ha
    · exact hkind
    · exact absurd ha hnil

end Single

/-- Behind such a name the walk ends where it should unless it stops in the name. -/
theorem walk_behind_colon (hcwd : kindOf [] ≠ .none) {rest : CStr} (h : RootSplit [] rest)
    (hcolon : rest[1]? = some colon) :
    ∃ d, Ends (stopsWalk kindOf) svnDirentDirname rest d ∧
      (DeepestExisting kindOf rest d ↔ ¬StopsInName kindOf rest) := by
  have hne := ne_nil_of_colon hcolon
  induction hn : rest.length using Nat.strongRecOn generalizing rest with
  | ind n ih =>
    by_cases hkind : kindOf rest = .none
    · by_cases hmem : slash ∈ rest
      · obtain ⟨dir, k, rfl, hk⟩ := split_last_slash hmem
        have hdir : dir[1]? = some colon := by
          cases h with
          | relative hs _ =>
            match dir with
            | [] => exact absurd rfl hs
            | [c] => exact absurd (Option.some_inj.mp hcolon) (by decide)
            | c :: d :: dir => simpa using hcolon
        have hdirne := ne_nil_of_colon hdir
        have hless : dir.length < n := by
          rw [← hn, List.length_append, List.length_cons]
          omega
        obtain ⟨d, hends, hd⟩ := ih dir.length hless h.cut hdir hdirne rfl
        have hstep := @ends_parent kindOf [] _ d h hne (fun _ hno => absurd hmem hno) hkind
        have hdeep := @deepestExisting_parent kindOf [] _ d h hne hkind
        rw [dirPart_split hk] at hstep hdeep
        refine ⟨d, hstep.mpr hends, ?_⟩
        rw [stopsInName_parent h hk hdir hkind]
        exact hdeep.trans hd
      · by_cases hname : kindOf (rest.take 1) = .none
        · obtain ⟨hends, hd⟩ := walk_single_past h hcolon hmem hkind hcwd hname
          exact ⟨[], hends, iff_of_true hd fun hstops => hstops.2.2.1 hname⟩
        · obtain ⟨hends, hd, hstops⟩ := walk_single_stops h hcolon hmem hkind hname
          exact ⟨rest.take 1, hends, iff_of_false hd (not_not.mpr hstops)⟩
    · refine ⟨rest, ends_existing hkind, iff_of_true (deepestExisting_self hkind) ?_⟩
      intro hstops
      exact hkind (hstops.2.2.2 rest (above_self rest) hne)

theorem isLetter_toUpper_ne_slash {c : UInt8} (hc : isLetter c = true) :
    canonicalizeToUpper c ≠ slash :=
  isLetter_ne_slash (isLetter_toUpper hc)

/-- A canonical form with a server has at least a share behind it. -/
theorem canonicalize_server {s r : CStr} (h : svnDirentCanonicalize s = slash :: slash :: r) :
    ∃ k l ks, r = joinNames (k :: l :: ks) ∧ AreNames (k :: l :: ks) := by
  have hrelative : ∀ {t : CStr}, slash :: joinNames (pathNames t) ≠ slash :: slash :: r := by
    intro t heq
    have hhead := @joinNames_head t
    rw [(List.cons.inj heq).2] at hhead
    exact hhead rfl
  cases shape s with
  | empty =>
    have hnil : svnDirentCanonicalize [] = [] := by decide
    rw [hnil] at h
    exact absurd h (by simp)
  | unc t =>
    rw [svnDirentCanonicalize_unc] at h
    split_ifs at h with hshort
    · exact absurd h hrelative
    · have hnames := areNames_pathNames t
      match hp : pathNames t with
      | [] => exact absurd (by simp [hp]) hshort
      | [k] => exact absurd (by simp [hp]) hshort
      | k :: l :: ks =>
        rw [hp] at h hnames
        have hk := hnames k (by simp)
        rw [lowerServer_joinNames hk.2] at h
        refine ⟨k.map canonicalizeToLower, l, ks, ?_, ?_⟩
        · exact (List.cons.inj (List.cons.inj h).2).2.symm
        · intro n hn
          obtain rfl | hn := List.mem_cons.mp hn
          · exact lower_keep hk
          · exact hnames n (List.mem_cons_of_mem k hn)
  | rooted t ht =>
    rw [svnDirentCanonicalize_rooted ht] at h
    exact absurd h hrelative
  | drive c t hc =>
    by_cases ht : t[0]? = some slash
    · obtain ⟨t, rfl⟩ := eq_cons_of_front ht
      rw [svnDirentCanonicalize_driveRoot hc] at h
      exact absurd (List.cons.inj h).1 (isLetter_toUpper_ne_slash hc)
    · rw [svnDirentCanonicalize_drive hc ht] at h
      exact absurd (List.cons.inj h).1 (isLetter_toUpper_ne_slash hc)
  | relative c t hs hd =>
    rw [svnDirentCanonicalize_relative hs hd] at h
    have hhead := @joinNames_head (c :: t)
    rw [h] at hhead
    exact absurd rfl hhead

theorem upperDrive_server {s r : CStr} (h : upperDrive s = slash :: slash :: r) :
    s = slash :: slash :: r := by
  have hslash : isLetter slash = false := by decide
  have hkept : ∀ t, upperDrive (slash :: t) = slash :: t := fun t =>
    upperDrive_of_not_drive fun hc => absurd hc (by simp [hslash])
  cases shape s with
  | empty => exact h
  | unc t => exact (hkept _).symm.trans h
  | rooted t ht => exact (hkept _).symm.trans h
  | drive c t hc =>
    rw [upperDrive_drive] at h
    exact absurd (List.cons.inj h).1 (isLetter_toUpper_ne_slash hc)
  | relative c t hs hd => exact (upperDrive_of_not_drive hd).symm.trans h

/-- A server is followed by a share that is not empty, by nothing, or by one '/'. -/
theorem allocDirentUpToNul_share {path : NetString} {k rest : CStr} (hk : slash ∉ k)
    (hrest : rest = [] ∨ rest[0]? = some slash)
    (h : allocDirentUpToNul path = slash :: slash :: (k ++ slash :: rest)) :
    k ≠ [] ∧ rest = [] := by
  obtain ⟨data, hdata⟩ := allocDirentUpToNul_buffer path
  rw [hdata, shortcutUpToNul_eq] at h
  split_ifs at h with hcanon
  · exfalso
    obtain ⟨k', l, ks, hr, hnames⟩ := canonicalize_server h
    obtain ⟨hkeep, hl⟩ := hnames l (by simp)
    have hlne : l ≠ [] := (keepName_iff.mp hkeep).1
    rw [joinNames_cons (by simp)] at hr
    have hk' : slash ∉ k' := (hnames k' (by simp)).2
    have hsame : k = k' := by
      rw [← @takeWhile_word k (slash :: rest) hk (.inr rfl), hr]
      exact takeWhile_word hk' (.inr rfl)
    subst hsame
    have hjoin : rest = joinNames (l :: ks) := (List.cons.inj (List.append_cancel_left hr)).2
    obtain hrest | hrest := hrest
    · exact joinNames_cons_ne_nil ks hlne (hjoin.symm.trans hrest)
    · rw [hjoin, joinNames_head? hlne] at hrest
      exact hl (List.mem_of_getElem? hrest)
  · have hbuf := upperDrive_server h
    rw [hbuf, not_or] at hcanon
    obtain ⟨-, hdel⟩ := hcanon
    constructor
    · intro hnil
      subst hnil
      exact hdel (.inl ⟨[], rest, rfl⟩)
    · obtain hrest | hrest := hrest
      · exact hrest
      · obtain ⟨rest, rfl⟩ := eq_cons_of_front hrest
        exact absurd (.inl ⟨slash :: k, rest, by simp⟩) hdel

/-- A server alone is all root, and no root. -/
theorem server_root {k : CStr} (hne : k ≠ []) (hk : slash ∉ k) :
    direntRootLength (slash :: slash :: k) = (slash :: slash :: k).length ∧
      svnDirentIsRoot (slash :: slash :: k) = false := by
  have hcolon : slash ≠ colon := by decide
  have hcount : k.count slash = 0 := List.count_eq_zero.mpr hk
  refine ⟨rootLength_server hne hk, ?_⟩
  simp [svnDirentIsRoot, hcolon, hcount, hne]

/-- So is one with a '/'. -/
theorem server_slash_root {k : CStr} (hk : slash ∉ k) :
    direntRootLength (slash :: slash :: (k ++ [slash])) =
        (slash :: slash :: (k ++ [slash])).length ∧
      svnDirentIsRoot (slash :: slash :: (k ++ [slash])) = false := by
  have hcolon : slash ≠ colon := by decide
  have hsplit : RootSplit (slash :: slash :: (k ++ [slash])) [] :=
    .share hk List.not_mem_nil (.inl rfl)
  have hlen := hsplit.length_eq
  rw [List.append_nil] at hlen
  refine ⟨hlen, ?_⟩
  simp [svnDirentIsRoot, hcolon]

theorem LoneServer.root {dirent : CStr} (h : LoneServer kindOf dirent) :
    direntRootLength dirent = dirent.length ∧ svnDirentIsRoot dirent = false := by
  obtain ⟨k, rfl | rfl, hne, hk, -⟩ := h
  · exact server_root hne hk
  · exact server_slash_root hk

theorem existingAncestor_server {dirent : CStr} (h : LoneServer kindOf dirent) (fuel : Nat) :
    existingAncestor (diskOf kindOf openExt) fuel dirent = .error .diverges := by
  obtain ⟨hlen, hroot⟩ := h.root
  obtain ⟨k, -, -, -, hkind⟩ := h
  induction fuel with
  | zero => rfl
  | succ fuel ih =>
    unfold existingAncestor
    dsimp only [diskOf]
    rw [if_pos ⟨hkind, hroot⟩, svnDirentDirname, if_pos hlen.symm]
    exact ih

/-- What is all root and no root is its own parent: the walk ends there exactly if it exists. -/
theorem walk_server {dirent : CStr}
    (h : direntRootLength dirent = dirent.length ∧ svnDirentIsRoot dirent = false)
    (hlone : kindOf dirent = .none → LoneServer kindOf dirent) :
    (∃ d, Ends (stopsWalk kindOf) svnDirentDirname dirent d ∧ DeepestExisting kindOf dirent d) ↔
      ¬LoneServer kindOf dirent := by
  by_cases hkind : kindOf dirent = .none
  · have hdir : svnDirentDirname dirent = dirent := by
      rw [svnDirentDirname, if_pos h.1.symm]
    apply iff_of_false
    · intro hwalk
      obtain ⟨d, hends, -⟩ := hwalk
      exact not_ends_of_fixed hdir (by simp [stopsWalk, hkind, h.2]) hends
    · exact not_not_intro (hlone hkind)
  · apply iff_of_true
    · exact ⟨dirent, ends_existing hkind, deepestExisting_self hkind⟩
    · intro hlone
      obtain ⟨k, -, -, -, hnone⟩ := hlone
      exact hkind hnone

theorem not_loneServer {root rest : CStr} (h : RootSplit root rest)
    (hroot : root = [] ∨ svnDirentIsRoot root = true) : ¬LoneServer kindOf (root ++ rest) := by
  intro hlone
  have hlen := hlone.root.1
  rw [h.length_eq, List.length_append] at hlen
  have hrest : rest = [] := List.length_eq_zero_iff.mp (by omega)
  subst hrest
  rw [List.append_nil] at hlone
  obtain rfl | hroot := hroot
  · obtain ⟨k, hserver | hserver, -⟩ := hlone
    · cases hserver
    · cases hserver
  · rw [hlone.root.2] at hroot
    cases hroot

theorem not_stopsInName {root rest : CStr} (h : RootSplit root rest) (hroot : root ≠ []) :
    ¬StopsInName kindOf (root ++ rest) := by
  intro ⟨hlen, _⟩
  rw [h.length_eq] at hlen
  exact hroot (List.length_eq_zero_iff.mp hlen)

/-- The walk ends, at the deepest ancestor that exists or at a root, exactly where the path is not
a server with nothing there and the walk does not stop inside a name. -/
theorem locate_walk_iff (hcwd : kindOf [] ≠ .none) (path : NetString) :
    (∃ fuel d, existingAncestor (diskOf kindOf openExt) fuel (allocDirentUpToNul path) = .ok d ∧
        DeepestExisting kindOf (allocDirentUpToNul path) d) ↔
      ¬LoneServer kindOf (allocDirentUpToNul path) ∧
        ¬StopsInName kindOf (allocDirentUpToNul path) := by
  obtain ⟨root, rest, hpath, hsplit⟩ := rootSplit_exists (allocDirentUpToNul path)
  rw [exists_walk_iff, hpath]
  obtain hnil | hroot | ⟨k, rfl, hne, hk, rfl⟩ | ⟨k, rfl, hk, hrest⟩ := hsplit.cases_root
  · subst hnil
    rw [and_iff_right (not_loneServer hsplit (.inl rfl))]
    by_cases hcolon : rest[1]? = some colon
    · obtain ⟨d, hends, hd⟩ := walk_behind_colon hcwd hsplit hcolon
      constructor
      · intro ⟨d', hends', hdeep⟩
        exact hd.mp (hends'.unique hends ▸ hdeep)
      · intro hstops
        exact ⟨d, hends, hd.mpr hstops⟩
    · exact iff_of_true (walk_behind_root hcwd hsplit (.inl rfl) fun _ => hcolon)
        fun hstops => hcolon hstops.2.1
  · have hne : root ≠ [] := by
      intro hnil
      subst hnil
      exact absurd hroot (by decide)
    exact iff_of_true
      (walk_behind_root hcwd hsplit (.inr hroot) fun hnil => absurd hnil hne)
      ⟨not_loneServer hsplit (.inr hroot), not_stopsInName hsplit hne⟩
  · rw [and_iff_left (not_stopsInName hsplit (by simp)), List.append_nil]
    exact walk_server (server_root hne hk) fun hkind => ⟨k, .inl rfl, hne, hk, hkind⟩
  · obtain ⟨hne, rfl⟩ := allocDirentUpToNul_share hk hrest (by simpa using hpath)
    rw [and_iff_left (not_stopsInName hsplit (by simp)), List.append_nil]
    exact walk_server (server_slash_root hk) fun hkind => ⟨k, .inr rfl, hne, hk, hkind⟩

/-- A path "a" of which nothing exists is looked for as far as the current directory. -/
theorem locate_walk_iff_single :
    ∃ fuel d, existingAncestor (diskOf (fun d => if d = [] then .dir else .none)
        fun _ => .error 0) fuel (allocDirentUpToNul [0x61]) = .ok d ∧
      DeepestExisting (fun d => if d = [] then .dir else .none)
        (allocDirentUpToNul [0x61]) d := by
  apply (locate_walk_iff (by decide) [0x61]).mpr
  have hpath : allocDirentUpToNul [0x61] = [0x61] := by decide
  rw [hpath]
  constructor
  · intro hlone
    obtain ⟨k, hserver | hserver, -⟩ := hlone
    · cases hserver
    · cases hserver
  · intro hstops
    exact absurd hstops.2.1 (by decide)

/-- `Locate` gives its loop enough fuel wherever the loop ends. -/
theorem existingAncestor_within {dirent d : CStr} {fuel : Nat}
    (h : existingAncestor (diskOf kindOf openExt) fuel dirent = .ok d) :
    existingAncestor (diskOf kindOf openExt) (dirent.length + 1) dirent = .ok d := by
  rw [existingAncestor_eq_ok] at h ⊢
  exact Ends.within svnDirentDirname_shorter ⟨fuel, h⟩

/-- "\\s" is looked for without end while the server is away, also where a NUL and more stand
behind it; and the walk from "1:a" ends at "1", which is no ancestor of it. -/
theorem locate_walk_lost :
    (∀ fuel, existingAncestor (diskOf (fun d => if d = [] then .dir else .none) fun _ => .error 0)
        fuel (allocDirentUpToNul [0x5c, 0x5c, 0x73]) = .error .diverges) ∧
      (∀ fuel, existingAncestor (diskOf (fun d => if d = [] then .dir else .none)
        fun _ => .error 0) fuel (allocDirentUpToNul [0x5c, 0x5c, 0x73, 0, 0x5c, 0x74]) =
          .error .diverges) ∧
      existingAncestor (diskOf (fun d => if d = [] ∨ d = [0x31] then .dir else .none)
        fun _ => .error 0) 4 (allocDirentUpToNul [0x31, 0x3a, 0x61]) = .ok [0x31] ∧
      ¬Above [0x31] (allocDirentUpToNul [0x31, 0x3a, 0x61]) := by
  have hserver : allocDirentUpToNul [0x5c, 0x5c, 0x73] = slash :: slash :: [0x73] := by decide
  have hnul : allocDirentUpToNul [0x5c, 0x5c, 0x73, 0, 0x5c, 0x74] = slash :: slash :: [0x73] := by
    decide
  have hname : allocDirentUpToNul [0x31, 0x3a, 0x61] = [0x31, 0x3a, 0x61] := by decide
  have hlone : LoneServer (fun d => if d = [] then .dir else .none) (slash :: slash :: [0x73]) :=
    ⟨[0x73], .inl rfl, by simp, by decide, by decide⟩
  refine ⟨fun fuel => ?_, fun fuel => ?_, ?_, ?_⟩
  · rw [hserver]
    exact existingAncestor_server hlone fuel
  · rw [hnul]
    exact existingAncestor_server hlone fuel
  · rw [hname]
    decide
  · rw [hname, Above]
    decide

end GitRepository

end SharpGit.Plumbing
