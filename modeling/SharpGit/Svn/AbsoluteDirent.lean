import SharpGit.Svn.DirentSplit
import SharpGit.Native.Utf8

namespace SharpGit.Svn

open Library Native

/-- A name Windows accepts: one segment, no separator of either style, no ':'. -/
structure IsFileName (k : CStr) : Prop where
  keep : keepName k = true
  no_slash : slash ∉ k
  no_backslash : backslash ∉ k
  no_colon : colon ∉ k

inductive DirentRoot
  | drive (letter : UInt8)
  | server (host share : CStr)

/-- A drive letter is upper case, a server name lower case. -/
def DirentRoot.Canonical : DirentRoot → Prop
  | .drive letter => isUpper letter = true
  | .server host share =>
    IsFileName host ∧ IsFileName share ∧ host.map canonicalizeToLower = host

structure AbsoluteDirent where
  root : DirentRoot
  names : List CStr
  root_canonical : root.Canonical
  names_valid : ∀ k ∈ names, IsFileName k

namespace AbsoluteDirent

def spell (d : AbsoluteDirent) : CStr :=
  match d.root with
  | .drive letter => letter :: colon :: slash :: joinNames d.names
  | .server host share => slash :: slash :: joinNames (host :: share :: d.names)

def descend (d : AbsoluteDirent) (ps : List CStr) (hp : ∀ k ∈ ps, IsFileName k) :
    AbsoluteDirent where
  root := d.root
  names := d.names ++ ps
  root_canonical := d.root_canonical
  names_valid := by
    intro k hk
    obtain hk | hk := List.mem_append.mp hk
    · exact d.names_valid k hk
    · exact hp k hk

end AbsoluteDirent

theorem IsFileName.segment {k : CStr} (h : IsFileName k) : keepName k = true ∧ slash ∉ k :=
  ⟨h.keep, h.no_slash⟩

theorem isLetter_of_isUpper {c : UInt8} (h : isUpper c = true) : isLetter c = true := by
  rw [isLetter, h, Bool.or_true]

theorem canonicalizeToUpper_of_isUpper {c : UInt8} (h : isUpper c = true) :
    canonicalizeToUpper c = c := by
  simp [canonicalizeToUpper, not_isLower_of_isUpper h]

/-- Absolute dirents are what the canonicalizer leaves alone. -/
theorem AbsoluteDirent.canonicalize_spell (d : AbsoluteDirent) :
    svnDirentCanonicalize d.spell = d.spell := by
  obtain ⟨root, names, hroot, hnames⟩ := d
  have hseg : ∀ k ∈ names, keepName k = true ∧ slash ∉ k := fun k hk => (hnames k hk).segment
  cases root with
  | drive c =>
    show svnDirentCanonicalize (c :: colon :: slash :: joinNames names) =
      c :: colon :: slash :: joinNames names
    rw [svnDirentCanonicalize_driveRoot (isLetter_of_isUpper hroot), pathNames_joinNames hseg,
      canonicalizeToUpper_of_isUpper hroot]
  | server host share =>
    obtain ⟨hhost, hshare, hlow⟩ := hroot
    have hall : ∀ k ∈ host :: share :: names, keepName k = true ∧ slash ∉ k := by
      intro k hk
      simp only [List.mem_cons] at hk
      obtain rfl | rfl | hk := hk
      · exact hhost.segment
      · exact hshare.segment
      · exact hseg k hk
    show svnDirentCanonicalize (slash :: slash :: joinNames (host :: share :: names)) =
      slash :: slash :: joinNames (host :: share :: names)
    rw [svnDirentCanonicalize_unc, pathNames_joinNames hall, if_neg (by simp),
      lowerServer_joinNames hhost.no_slash, hlow]

theorem mem_joinNames {c : UInt8} {ks : List CStr} (h : c ∈ joinNames ks) :
    c = slash ∨ ∃ k ∈ ks, c ∈ k := by
  induction ks with
  | nil => simp at h
  | cons k ks ih =>
    cases ks with
    | nil => exact .inr ⟨k, by simp, by simpa using h⟩
    | cons l ls =>
      rw [joinNames_cons (by simp), List.mem_append, List.mem_cons] at h
      obtain h | h | h := h
      · exact .inr ⟨k, by simp, h⟩
      · exact .inl h
      · obtain h | ⟨n, hn, hc⟩ := ih h
        · exact .inl h
        · exact .inr ⟨n, List.mem_cons_of_mem _ hn, hc⟩

theorem colon_not_mem_joinNames {ks : List CStr} (h : ∀ k ∈ ks, IsFileName k) :
    colon ∉ joinNames ks := by
  intro hc
  obtain hc | ⟨k, hk, hc⟩ := mem_joinNames hc
  · exact absurd hc (by decide)
  · exact (h k hk).no_colon hc

theorem joinNames_getLast? {ks : List CStr} (hne : ks ≠ []) (h : ∀ k ∈ ks, IsFileName k) :
    ∃ c, (joinNames ks).getLast? = some c ∧ c ≠ slash ∧ c ≠ colon := by
  induction ks with
  | nil => exact absurd rfl hne
  | cons k ks ih =>
    cases ks with
    | nil =>
      have hk := h k (by simp)
      have hkne : k ≠ [] := (keepName_iff.mp hk.keep).1
      refine ⟨k.getLast hkne, ?_, ?_, ?_⟩
      · rw [joinNames_singleton, List.getLast?_eq_getLast_of_ne_nil hkne]
      · exact fun hc => hk.no_slash (hc ▸ List.getLast_mem hkne)
      · exact fun hc => hk.no_colon (hc ▸ List.getLast_mem hkne)
    | cons l ls =>
      obtain ⟨c, hlast, hc⟩ := ih (by simp) fun n hn => h n (List.mem_cons_of_mem _ hn)
      refine ⟨c, ?_, hc⟩
      have hl : l :: ls ≠ [] := by simp
      have htail : joinNames (l :: ls) ≠ [] := by
        intro hnil
        simp [hnil] at hlast
      rw [joinNames_cons hl, ← hlast, List.getLast?_append_of_ne_nil _ (by simp)]
      exact List.getLast?_append_of_ne_nil [slash] htail

theorem not_rooted_joinNames {ps : List CStr} (hp : ∀ k ∈ ps, IsFileName k) :
    (joinNames ps)[0]? ≠ some slash ∧ direntIsRooted (joinNames ps) = false ∧
      svnDirentIsAbsolute (joinNames ps) = false := by
  have hhead := joinNames_relative fun k hk => (hp k hk).segment
  have hcolon : (joinNames ps)[1]? ≠ some colon := fun hc =>
    colon_not_mem_joinNames hp (List.mem_of_getElem? hc)
  simp [direntIsRooted, svnDirentIsAbsolute, hhead, hcolon]

theorem joinWithSeparator_names {base : CStr} {ps : List CStr}
    (hbase : ∃ c, base.getLast? = some c ∧ c ≠ slash ∧ c ≠ colon) :
    joinWithSeparator base (joinNames ps) = base ++ slash :: joinNames ps := by
  obtain ⟨c, hlast, hslash, hcolon⟩ := hbase
  simp [joinWithSeparator, hlast, hslash, hcolon]

theorem svnDirentJoin_relative {base : CStr} {ps : List CStr} (hbase : base ≠ [])
    (hne : ps ≠ []) (hp : ∀ k ∈ ps, IsFileName k) :
    svnDirentJoin base (joinNames ps) = joinWithSeparator base (joinNames ps) := by
  obtain ⟨hhead, hrooted, habs⟩ := not_rooted_joinNames hp
  have hjoin : joinNames ps ≠ [] := by
    cases ps with
    | nil => exact absurd rfl hne
    | cons k ks => exact joinNames_cons_ne_nil ks (keepName_iff.mp (hp k (by simp)).keep).1
  simp [svnDirentJoin, habs, hbase, hjoin, hhead, hrooted]

theorem server_names_valid {host share : CStr} {names : List CStr}
    (hroot : (DirentRoot.server host share).Canonical) (hnames : ∀ k ∈ names, IsFileName k) :
    ∀ k ∈ host :: share :: names, IsFileName k := by
  intro k hk
  simp only [List.mem_cons] at hk
  obtain rfl | rfl | hk := hk
  · exact hroot.1
  · exact hroot.2.1
  · exact hnames k hk

theorem joinWithSeparator_append (front : CStr) {ks ps : List CStr} (hk : ks ≠ []) (hp : ps ≠ [])
    (h : ∀ k ∈ ks, IsFileName k) :
    joinWithSeparator (front ++ joinNames ks) (joinNames ps) = front ++ joinNames (ks ++ ps) := by
  obtain ⟨c, hlast, hc⟩ := joinNames_getLast? hk h
  have hne : joinNames ks ≠ [] := by
    intro hnil
    simp [hnil] at hlast
  have hfront : (front ++ joinNames ks).getLast? = some c := by
    rw [List.getLast?_append_of_ne_nil front hne, hlast]
  rw [joinWithSeparator_names ⟨c, hfront, hc⟩, joinNames_append hk hp, List.append_assoc]

/-- Joining names to an absolute dirent goes down by these names. -/
theorem AbsoluteDirent.join_spell (d : AbsoluteDirent) {ps : List CStr}
    (hp : ∀ k ∈ ps, IsFileName k) :
    svnDirentJoin d.spell (joinNames ps) = (d.descend ps hp).spell := by
  obtain ⟨root, names, hroot, hnames⟩ := d
  by_cases hne : ps = []
  · subst hne
    cases root <;> simp [svnDirentJoin, spell, descend, svnDirentIsAbsolute]
  cases root with
  | drive c =>
    show svnDirentJoin (c :: colon :: slash :: joinNames names) (joinNames ps) =
      c :: colon :: slash :: joinNames (names ++ ps)
    rw [svnDirentJoin_relative (by simp) hne hp]
    by_cases hnil : names = []
    · simp [hnil, joinWithSeparator]
    · exact joinWithSeparator_append [c, colon, slash] hnil hne hnames
  | server host share =>
    show svnDirentJoin (slash :: slash :: joinNames (host :: share :: names)) (joinNames ps) =
      slash :: slash :: joinNames (host :: share :: names ++ ps)
    rw [svnDirentJoin_relative (by simp) hne hp]
    exact joinWithSeparator_append [slash, slash] (by simp) hne
      (server_names_valid hroot hnames)

theorem direntRootLength_drive {c : UInt8} (hc : isLetter c = true) (r : CStr) :
    direntRootLength (c :: colon :: slash :: r) = 3 := by
  simp [direntRootLength, hc]

theorem direntRootLength_server {host share : CStr} (hh : slash ∉ host) (hs : slash ∉ share)
    (r : CStr) :
    direntRootLength (slash :: slash :: (host ++ slash :: (share ++ slash :: r))) =
      2 + host.length + 1 + share.length := by
  have hsplit : slash :: slash :: (host ++ slash :: (share ++ slash :: r)) =
      slash :: slash :: (host ++ slash :: share) ++ slash :: r := by simp
  rw [hsplit, rootLength_share hh hs (.inr rfl)]
  simp only [List.length_cons, List.length_append]
  omega

theorem skipAncestor_self (a : CStr) : svnDirentSkipAncestor a a = some [] := by
  simp [svnDirentSkipAncestor]

theorem skipAncestor_below {a r : CStr} (hroot : direntRootLength (a ++ slash :: r) ≤ a.length) :
    svnDirentSkipAncestor a (a ++ slash :: r) = some r := by
  have hdrop : (a ++ slash :: r).drop (a.length + 1) = r := by
    rw [List.drop_length_add_append]
    rfl
  simp [svnDirentSkipAncestor, Nat.not_lt.mpr hroot, hdrop]

theorem skipAncestor_root {a r : CStr} (hne : r ≠ []) (hr : r[0]? ≠ some slash)
    (hroot : direntRootLength (a ++ r) = a.length) : svnDirentSkipAncestor a (a ++ r) = some r := by
  cases r with
  | nil => exact absurd rfl hne
  | cons c r =>
    have hc : c ≠ slash := by simpa using hr
    simp [svnDirentSkipAncestor, hroot, hc]

/-- A dirent is an ancestor of what lies below it, and the rest of the path is the names. -/
theorem AbsoluteDirent.skipAncestor_spell (d : AbsoluteDirent) {ps : List CStr}
    (hp : ∀ k ∈ ps, IsFileName k) :
    svnDirentSkipAncestor d.spell (d.descend ps hp).spell = some (joinNames ps) := by
  obtain ⟨root, names, hroot, hnames⟩ := d
  by_cases hne : ps = []
  · subst hne
    simp only [descend, spell, List.append_nil]
    exact skipAncestor_self _
  cases root with
  | drive c =>
    have hlen : ∀ r, direntRootLength (c :: colon :: slash :: r) = 3 :=
      direntRootLength_drive (isLetter_of_isUpper hroot)
    show svnDirentSkipAncestor (c :: colon :: slash :: joinNames names)
      (c :: colon :: slash :: joinNames (names ++ ps)) = _
    by_cases hnil : names = []
    · have hjoin : joinNames ps ≠ [] := by
        cases ps with
        | nil => exact absurd rfl hne
        | cons k ks => exact joinNames_cons_ne_nil ks (keepName_iff.mp (hp k (by simp)).keep).1
      subst hnil
      exact skipAncestor_root (a := [c, colon, slash]) hjoin (not_rooted_joinNames hp).1
        (hlen (joinNames ps))
    · rw [joinNames_append hnil hne]
      apply skipAncestor_below (a := c :: colon :: slash :: joinNames names)
      rw [List.cons_append, List.cons_append, List.cons_append, hlen]
      simp
  | server host share =>
    show svnDirentSkipAncestor (slash :: slash :: joinNames (host :: share :: names))
      (slash :: slash :: joinNames (host :: share :: names ++ ps)) = _
    rw [joinNames_append (by simp) hne]
    apply skipAncestor_below (a := slash :: slash :: joinNames (host :: share :: names))
    have hshape : ∃ r, slash :: slash :: joinNames (host :: share :: names) ++
        slash :: joinNames ps = slash :: slash :: (host ++ slash :: (share ++ slash :: r)) := by
      cases names with
      | nil => exact ⟨joinNames ps, by simp [joinNames_cons]⟩
      | cons k ks =>
        exact ⟨joinNames (k :: ks) ++ slash :: joinNames ps, by simp [joinNames_cons]⟩
    obtain ⟨r, hr⟩ := hshape
    rw [hr, direntRootLength_server hroot.1.no_slash hroot.2.1.no_slash]
    cases names <;> simp [joinNames_cons] <;> omega

theorem pathNames_fileNames {s : CStr} (hb : backslash ∉ s) (hc : colon ∉ s) :
    ∀ k ∈ pathNames s, IsFileName k := by
  intro k hk
  obtain ⟨hkeep, hslash⟩ := mem_pathNames hk
  have hsub : k ⊆ s := (mem_splitOn_within (List.mem_filter.mp hk).1).subset
  exact ⟨hkeep, hslash, fun h => hb (hsub h), fun h => hc (hsub h)⟩

theorem absolute_of_drive {c : UInt8} {r : CStr} (hl : isLetter c = true) (hb : backslash ∉ r)
    (hc : colon ∉ r) :
    ∃ d : AbsoluteDirent, svnDirentCanonicalize (c :: colon :: slash :: r) = d.spell :=
  ⟨⟨.drive (canonicalizeToUpper c), pathNames r, isUpper_toUpper hl, pathNames_fileNames hb hc⟩,
    svnDirentCanonicalize_driveRoot hl r⟩

theorem lower_fileName {k : CStr} (h : IsFileName k) : IsFileName (k.map canonicalizeToLower) := by
  obtain ⟨hkeep, hslash⟩ := lower_keep h.segment
  have hout : ∀ d, isLetter d = false → d ∉ k → d ∉ k.map canonicalizeToLower := by
    intro d hd hk hmem
    obtain ⟨c, hc, hlow⟩ := List.mem_map.mp hmem
    rw [canonicalizeToLower_eq_iff hd] at hlow
    exact hk (hlow ▸ hc)
  exact ⟨hkeep, hslash, hout _ (by decide) h.no_backslash, hout _ (by decide) h.no_colon⟩

theorem absolute_of_server {host share : CStr} {r : CStr} (hh : IsFileName host)
    (hs : IsFileName share) (hb : backslash ∉ r) (hc : colon ∉ r) :
    ∃ d : AbsoluteDirent, svnDirentCanonicalize
      (slash :: slash :: (host ++ slash :: (share ++ slash :: r))) = d.spell := by
  refine ⟨⟨.server (host.map canonicalizeToLower) share, pathNames r,
    ⟨lower_fileName hh, hs, ?_⟩, pathNames_fileNames hb hc⟩, ?_⟩
  · rw [List.map_map]
    exact List.map_congr_left fun c _ => canonicalizeToLower_idem c
  · have hnames : pathNames (host ++ slash :: (share ++ slash :: r)) =
        host :: share :: pathNames r := by
      rw [pathNames_append, pathNames_append, pathNames_word hh.no_slash hh.keep,
        pathNames_word hs.no_slash hs.keep]
      rfl
    rw [svnDirentCanonicalize_unc, hnames, if_neg (by simp), lowerServer_joinNames hh.no_slash]
    rfl

theorem AbsoluteDirent.no_backslash (d : AbsoluteDirent) : backslash ∉ d.spell := by
  obtain ⟨root, names, hroot, hnames⟩ := d
  have hjoin : ∀ ks : List CStr, (∀ k ∈ ks, IsFileName k) → backslash ∉ joinNames ks := by
    intro ks h hmem
    obtain hs | ⟨k, hk, hc⟩ := mem_joinNames hmem
    · exact absurd hs (by decide)
    · exact (h k hk).no_backslash hc
  have hcolon : backslash ≠ colon := by decide
  have hslash : backslash ≠ slash := by decide
  cases root with
  | drive c =>
    have hc : backslash ≠ c := by
      intro heq
      subst heq
      exact absurd (show isUpper backslash = true from hroot) (by decide)
    simp [spell, hc, hcolon, hslash, hjoin names hnames]
  | server host share =>
    simp [spell, hslash, hjoin _ (server_names_valid hroot hnames)]

theorem validUtf8_pathNames {s : CStr} (h : ValidUtf8 s) : ∀ k ∈ pathNames s, ValidUtf8 k := by
  have hslash : slash.toNat < 0x80 := by decide
  intro k hk
  obtain ⟨-, hk⟩ := mem_splitOn_iff.mp (List.mem_filter.mp hk).1
  obtain rfl | ⟨b, rfl⟩ | ⟨a, rfl⟩ | ⟨a, b, rfl⟩ := hk
  · exact h
  · rw [List.append_assoc] at h
    exact (h.split hslash).1
  · exact (h.split hslash).2
  · rw [List.append_assoc, List.cons_append, List.append_assoc] at h
    exact ((h.split hslash).2.split hslash).1

theorem validUtf8_slash_cons {s : CStr} (h : ValidUtf8 s) : ValidUtf8 (slash :: s) :=
  (validUtf8_ascii (by decide)).append h

theorem validUtf8_joinNames {ks : List CStr} (h : ∀ k ∈ ks, ValidUtf8 k) :
    ValidUtf8 (joinNames ks) := by
  induction ks with
  | nil => exact validUtf8_nil
  | cons k ks ih =>
    have hk := h k (by simp)
    have hks := ih fun n hn => h n (List.mem_cons_of_mem _ hn)
    cases ks with
    | nil => simpa using hk
    | cons l ls =>
      rw [joinNames_cons (by simp)]
      exact hk.append (validUtf8_slash_cons hks)

theorem validUtf8_lower {s : CStr} (h : ValidUtf8 s) : ValidUtf8 (s.map canonicalizeToLower) := by
  refine h.map ?_ ?_
  · intro b hb
    cases hu : isUpper b with
    | false => rwa [canonicalizeToLower_of_not_upper hu]
    | true =>
      have := isLower_range (isLower_toLower hu)
      omega
  · intro b hb
    apply canonicalizeToLower_of_not_upper
    rw [Bool.eq_false_iff]
    intro hu
    have := isUpper_range hu
    omega

/-- Canonicalizing keeps a path valid UTF-8. -/
theorem validUtf8_canonicalize {s : CStr} (h : ValidUtf8 s) :
    ValidUtf8 (svnDirentCanonicalize s) := by
  have hcolon : colon.toNat < 0x80 := by decide
  have hslash : slash.toNat < 0x80 := by decide
  have hjoin : ∀ {r : CStr}, ValidUtf8 r → ValidUtf8 (joinNames (pathNames r)) := fun hr =>
    validUtf8_joinNames (validUtf8_pathNames hr)
  cases shape s with
  | empty => exact validUtf8_nil
  | unc r =>
    have hr : ValidUtf8 r := (ValidUtf8.split (a := [slash]) hslash h).2
    rw [svnDirentCanonicalize_unc]
    split_ifs with hlen
    · exact validUtf8_slash_cons (hjoin hr)
    · cases hn : pathNames r with
      | nil => simp [hn] at hlen
      | cons k ks =>
        have hnames := validUtf8_pathNames hr
        rw [hn] at hnames
        have hk : slash ∉ k := (mem_pathNames (s := r) (by simp [hn])).2
        rw [lowerServer_joinNames hk]
        refine validUtf8_slash_cons (validUtf8_slash_cons (validUtf8_joinNames ?_))
        intro n hmem
        obtain rfl | hmem := List.mem_cons.mp hmem
        · exact validUtf8_lower (hnames k (by simp))
        · exact hnames n (List.mem_cons_of_mem _ hmem)
  | rooted r hr =>
    rw [svnDirentCanonicalize_rooted hr]
    exact validUtf8_slash_cons (hjoin (ValidUtf8.split (a := []) hslash h).2)
  | drive c r hc =>
    have hupper : ValidUtf8 [canonicalizeToUpper c] :=
      validUtf8_ascii (isLetter_ascii (isLetter_toUpper hc)).2
    have hr : ValidUtf8 r := (ValidUtf8.split (a := [c]) hcolon h).2
    by_cases hroot : r[0]? = some slash
    · obtain ⟨r, rfl⟩ := eq_cons_of_front hroot
      have hrest : ValidUtf8 r := (ValidUtf8.split (a := []) hslash hr).2
      rw [svnDirentCanonicalize_driveRoot hc]
      exact hupper.append ((validUtf8_ascii hcolon).append (validUtf8_slash_cons (hjoin hrest)))
    · rw [svnDirentCanonicalize_drive hc hroot]
      exact hupper.append (hjoin ((validUtf8_ascii hcolon).append hr))
  | relative c r hs hd =>
    rw [svnDirentCanonicalize_relative hs hd]
    exact hjoin h

theorem AbsoluteDirent.spell_ne_nil (d : AbsoluteDirent) : d.spell ≠ [] := by
  unfold spell
  split <;> simp

theorem AbsoluteDirent.validUtf8_descend (d : AbsoluteDirent) {ps : List CStr}
    (hp : ∀ k ∈ ps, IsFileName k) (hd : ValidUtf8 d.spell) (hps : ∀ k ∈ ps, ValidUtf8 k) :
    ValidUtf8 (d.descend ps hp).spell := by
  by_cases hne : ps = []
  · subst hne
    simpa [descend, spell] using hd
  · have hjoin := validUtf8_joinNames hps
    rw [← d.join_spell hp, svnDirentJoin_relative d.spell_ne_nil hne hp, joinWithSeparator]
    split_ifs
    · exact hd.append hjoin
    · exact hd.append (validUtf8_slash_cons hjoin)

end SharpGit.Svn
