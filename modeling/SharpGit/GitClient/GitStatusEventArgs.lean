import SharpGit.Plumbing.GitRepository

namespace SharpGit.GitClient

open Library Native Svn Implementation Plumbing

structure GitStatusEventArgs where
  path : CStr
  wcPath : CStr
  directory : Bool
  deriving DecidableEq, Repr

namespace GitStatusEventArgs

def relativePath (e : GitStatusEventArgs) : NetString := utf8PtrToString e.path

def fullPath (e : GitStatusEventArgs) : NetString :=
  stringFromDirent (svnDirentJoin e.wcPath e.path)

end GitStatusEventArgs

/-- The working directories `git_repository_workdir` returns: a drive or a UNC path with a
trailing '/', in names Windows accepts. -/
structure IsWorkdir (w : CStr) : Prop where
  absolute : (∃ c r, isLetter c = true ∧ colon ∉ r ∧ w = c :: colon :: slash :: r) ∨
    ∃ host share r, IsFileName host ∧ IsFileName share ∧ colon ∉ r ∧
      w = slash :: slash :: (host ++ slash :: (share ++ slash :: r))
  trailing : w.getLast? = some slash
  no_backslash : backslash ∉ w
  utf8 : ValidUtf8 w

/-- The repository paths Windows can hold: canonical relpaths without '\\' and ':'. -/
structure IsRepositoryPath (p : CStr) : Prop where
  canonical : relpathIsCanonical p = true
  no_backslash : backslash ∉ p
  no_colon : colon ∉ p
  utf8 : ValidUtf8 p

theorem IsWorkdir.canonicalize {w : CStr} (hw : IsWorkdir w) :
    ∃ d : AbsoluteDirent, svnDirentCanonicalize w = d.spell := by
  have hb := hw.no_backslash
  obtain ⟨c, r, hl, hc, rfl⟩ | ⟨host, share, r, hh, hs, hc, rfl⟩ := hw.absolute
  · exact absolute_of_drive hl (fun h => hb (by simp [h])) hc
  · exact absolute_of_server hh hs (fun h => hb (by simp [h])) hc

theorem internalStyle_localStyle {d : CStr} (hne : d ≠ []) (hb : backslash ∉ d) :
    internalStyle (svnDirentLocalStyle d) = d := by
  rw [svnDirentLocalStyle, if_neg hne, internalStyle, List.map_map]
  conv_rhs => rw [← List.map_id d]
  apply List.map_congr_left
  intro c hc
  by_cases hs : c = slash
  · simp [hs]
  · have hback : c ≠ backslash := fun h => hb (h ▸ hc)
    simp [hs, hback]

theorem validUtf8_localStyle {d : CStr} (h : ValidUtf8 d) : ValidUtf8 (svnDirentLocalStyle d) := by
  unfold svnDirentLocalStyle
  split_ifs
  · exact validUtf8_ascii (by decide)
  · refine h.map ?_ ?_
    · intro b hb
      split_ifs
      · decide
      · exact hb
    · intro b hb
      rw [if_neg]
      intro heq
      subst heq
      exact absurd hb (by decide)

/-- The managed form of an absolute dirent reads back as that dirent. -/
theorem allocDirent_stringFromDirent (d : AbsoluteDirent) (h : ValidUtf8 d.spell) :
    allocDirent (stringFromDirent d.spell) = d.spell := by
  have hbytes : utf8GetBytes (stringFromDirent d.spell) = svnDirentLocalStyle d.spell := by
    rw [stringFromDirent, if_neg d.spell_ne_nil, d.canonicalize_spell]
    exact utf8GetBytes_getString (validUtf8_localStyle h)
  rw [allocDirent_eq, hbytes, internalStyle_localStyle d.spell_ne_nil d.no_backslash,
    (shortcutDirent_agrees_iff _).mpr (shortcutAgrees_spell d), d.canonicalize_spell]

/-- `MakeRelpath` undoes `FullPath`: the reported path comes back. -/
theorem makeRelpath_fullPath (native : NativeRepository) (hw : IsWorkdir native.workdir)
    (e : GitStatusEventArgs) (he : e.wcPath = svnDirentInternalStyle native.workdir)
    (hp : IsRepositoryPath e.path) :
    GitRepository.makeRelpath ⟨some native⟩ e.fullPath = .ok (some e.path) := by
  obtain ⟨d, hd⟩ := hw.canonicalize
  have hnames := pathNames_fileNames hp.no_backslash hp.no_colon
  have hpath : joinNames (pathNames e.path) = e.path := (relpathIsCanonical_iff _).mp hp.canonical
  have hwc : e.wcPath = d.spell := by
    rw [he, svnDirentInternalStyle, internalStyle_of_no_backslash hw.no_backslash, hd]
  have hjoin : svnDirentJoin e.wcPath e.path = (d.descend _ hnames).spell := by
    rw [hwc, ← d.join_spell hnames, hpath]
  have hutf8 : ValidUtf8 (d.descend _ hnames).spell :=
    d.validUtf8_descend hnames (hd ▸ validUtf8_canonicalize hw.utf8) (validUtf8_pathNames hp.utf8)
  have hitem : allocDirent e.fullPath = (d.descend _ hnames).spell := by
    rw [GitStatusEventArgs.fullPath, hjoin, allocDirent_stringFromDirent _ hutf8]
  have hfull : e.fullPath ≠ [] := by
    intro hnil
    rw [hnil] at hitem
    exact (d.descend _ hnames).spell_ne_nil hitem.symm
  rw [GitRepository.makeRelpath, if_neg hfull]
  dsimp only
  rw [hitem, hd, d.skipAncestor_spell hnames, hpath]

/-- Lower-case drive, a name of two characters above ASCII, two levels. -/
theorem makeRelpath_fullPath_drive :
    GitRepository.makeRelpath
      ⟨some ⟨[], [0x63, 0x3a, 0x2f, 0x77, 0xc3, 0xa9, 0x2f], false⟩⟩
      (GitStatusEventArgs.fullPath ⟨[0x61, 0x2f, 0xe2, 0x82, 0xac],
        svnDirentInternalStyle [0x63, 0x3a, 0x2f, 0x77, 0xc3, 0xa9, 0x2f], false⟩) =
      .ok (some [0x61, 0x2f, 0xe2, 0x82, 0xac]) :=
  makeRelpath_fullPath ⟨[], [0x63, 0x3a, 0x2f, 0x77, 0xc3, 0xa9, 0x2f], false⟩
    ⟨.inl ⟨0x63, [0x77, 0xc3, 0xa9, 0x2f], by decide, by decide, rfl⟩, by decide, by decide,
      ⟨['c', ':', '/', 'w', 'é', '/'], by decide⟩⟩
    ⟨[0x61, 0x2f, 0xe2, 0x82, 0xac], _, false⟩ rfl
    ⟨by decide, by decide, by decide, ⟨['a', '/', '€'], by decide⟩⟩

end SharpGit.GitClient
