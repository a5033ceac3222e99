import SharpGit.Svn.Dirent

namespace SharpGit.Svn

open Library Native

def pathPreviousSegment (path : CStr) (len : Nat) : Nat :=
  if len = 0 then 0
  else
    let len := scanBack (fun i => path[i]? = some slash) (len - 1)
    if len = 0 ∧ path[0]? = some slash then 1 else len

/-- `svn_path_remove_component`. -/
def pathRemoveComponent (path : CStr) : CStr := path.take (pathPreviousSegment path path.length)

/-- Names of files and directories as a relpath joins them. -/
def AreNames (ks : List CStr) : Prop := ∀ k ∈ ks, keepName k = true ∧ slash ∉ k

theorem AreNames.dropLast {ks : List CStr} (h : AreNames ks) : AreNames ks.dropLast :=
  fun k hk => h k (List.dropLast_subset ks hk)

theorem AreNames.take {ks : List CStr} (h : AreNames ks) (n : Nat) : AreNames (ks.take n) :=
  fun k hk => h k (List.take_subset n ks hk)

theorem areNames_pathNames (s : CStr) : AreNames (pathNames s) := fun _ hk => mem_pathNames hk

theorem joinNames_injective {ks ls : List CStr} (hk : AreNames ks) (hl : AreNames ls)
    (h : joinNames ks = joinNames ls) : ks = ls := by
  rw [← pathNames_joinNames hk, h, pathNames_joinNames hl]

theorem joinNames_eq_nil {ks : List CStr} (hk : AreNames ks) : joinNames ks = [] ↔ ks = [] := by
  constructor
  · intro h
    exact joinNames_injective hk (by simp [AreNames]) h
  · intro heq
    subst heq
    rfl

/-- The scan stops at `m` when nothing stops it before. -/
theorem scanBack_eq {stop : Nat → Bool} {n m : Nat} (hmn : m ≤ n) (hm : m = 0 ∨ stop m = true)
    (hbetween : ∀ i, m < i → i ≤ n → stop i = false) : scanBack stop n = m := by
  induction n with
  | zero =>
    obtain rfl : m = 0 := by omega
    rfl
  | succ n ih =>
    by_cases h : m = n + 1
    · subst h
      rw [scanBack, if_pos (by simpa using hm)]
    · rw [scanBack, hbetween (n + 1) (by omega) (Nat.le_refl _)]
      exact ih (by omega) fun i hi hin => hbetween i hi (by omega)

theorem scanBack_joined {w k : CStr} (hk : slash ∉ k) :
    scanBack (fun i => (w ++ slash :: k)[i]? = some slash) ((w ++ slash :: k).length - 1) =
      w.length := by
  apply scanBack_eq
  · simp
  · exact .inr (by simp)
  · intro i hi _
    rw [decide_eq_false_iff_not, List.getElem?_append_right (by omega)]
    obtain ⟨j, rfl⟩ : ∃ j, i = w.length + 1 + j := ⟨i - w.length - 1, by omega⟩
    have hj : w.length + 1 + j - w.length = j + 1 := by omega
    rw [hj, List.getElem?_cons_succ]
    exact fun h => hk (List.mem_of_getElem? h)

theorem scanBack_word {k : CStr} (hk : slash ∉ k) :
    scanBack (fun i => k[i]? = some slash) (k.length - 1) = 0 := by
  apply scanBack_eq
  · exact Nat.zero_le _
  · exact .inl rfl
  · intro i _ _
    rw [decide_eq_false_iff_not]
    exact fun h => hk (List.mem_of_getElem? h)

theorem joinNames_append_singleton {ks : List CStr} (hne : ks ≠ []) (k : CStr) :
    joinNames (ks ++ [k]) = joinNames ks ++ slash :: k := by
  rw [joinNames_append hne (by simp)]
  simp [joinNames]

/-- Where the last name of a relpath starts, less its separator. -/
theorem scanBack_joinNames {ks : List CStr} {k : CStr} (hk : keepName k = true ∧ slash ∉ k) :
    scanBack (fun i => (joinNames (ks ++ [k]))[i]? = some slash)
        ((joinNames (ks ++ [k])).length - 1) = (joinNames ks).length := by
  by_cases hne : ks = []
  · subst hne
    simpa [joinNames] using scanBack_word hk.2
  · rw [joinNames_append_singleton hne]
    exact scanBack_joined hk.2

theorem take_joinNames (ks : List CStr) (k : CStr) :
    (joinNames (ks ++ [k])).take (joinNames ks).length = joinNames ks := by
  by_cases hne : ks = []
  · simp [hne, joinNames]
  · rw [joinNames_append_singleton hne, List.take_left]

theorem svnRelpathDirname_joinNames {ks : List CStr} (hk : AreNames ks) :
    svnRelpathDirname (joinNames ks) = joinNames ks.dropLast := by
  cases ks using List.reverseRecOn with
  | nil => rfl
  | append_singleton ks k =>
    have hlast := hk k (by simp)
    have hne : joinNames (ks ++ [k]) ≠ [] := by
      rw [Ne, joinNames_eq_nil hk]
      simp
    rw [svnRelpathDirname, relpathPreviousSegment, if_neg (by simpa using hne),
      scanBack_joinNames hlast, take_joinNames, List.dropLast_concat]

theorem pathRemoveComponent_joinNames {ks : List CStr} (hk : AreNames ks) :
    pathRemoveComponent (joinNames ks) = joinNames ks.dropLast := by
  cases ks using List.reverseRecOn with
  | nil => rfl
  | append_singleton ks k =>
    have hlast := hk k (by simp)
    have hne : joinNames (ks ++ [k]) ≠ [] := by
      rw [Ne, joinNames_eq_nil hk]
      simp
    have hhead := joinNames_relative hk
    dsimp only [pathRemoveComponent, pathPreviousSegment]
    rw [if_neg (by simpa using hne), scanBack_joinNames hlast, if_neg fun h => hhead h.2,
      take_joinNames, List.dropLast_concat]

/-- What lies below a joined path has its names in front. -/
theorem joinNames_eq_append_slash {ps ks : List CStr} (hp : AreNames ps) (hk : AreNames ks)
    (hne : ps ≠ []) {rest : CStr} :
    joinNames ks = joinNames ps ++ slash :: rest ↔
      ∃ ls, ls ≠ [] ∧ ks = ps ++ ls ∧ rest = joinNames ls := by
  constructor
  · intro h
    have hnames : ks = ps ++ pathNames rest := by
      rw [← pathNames_joinNames hk, h, pathNames_append, pathNames_joinNames hp]
    have hls : pathNames rest ≠ [] := by
      intro hnil
      rw [hnames, hnil, List.append_nil] at h
      have := congrArg List.length h
      simp at this
    refine ⟨pathNames rest, hls, hnames, ?_⟩
    rw [hnames, joinNames_append hne hls] at h
    exact (List.cons.inj (List.append_cancel_left h)).2.symm
  · intro ⟨ls, hls, hks, hrest⟩
    rw [hks, hrest, joinNames_append hne hls]

/-- Skipping an ancestor leaves the names behind it. -/
theorem svnRelpathSkipAncestor_joinNames {ps ks : List CStr} (hp : AreNames ps)
    (hk : AreNames ks) :
    svnRelpathSkipAncestor (joinNames ps) (joinNames ks) =
      if ps <+: ks then some (joinNames (ks.drop ps.length)) else none := by
  by_cases hne : ps = []
  · simp [hne, svnRelpathSkipAncestor]
  have hjoin : joinNames ps ≠ [] := fun h => hne ((joinNames_eq_nil hp).mp h)
  by_cases hpre : ps <+: ks
  · rw [if_pos hpre, svnRelpathSkipAncestor_eq_some hjoin]
    obtain ⟨ls, rfl⟩ := hpre
    rw [List.drop_left]
    by_cases hls : ls = []
    · exact .inl (by simp [hls])
    · exact .inr (joinNames_append hne hls)
  · rw [if_neg hpre, Option.eq_none_iff_forall_ne_some]
    intro rest h
    obtain ⟨h, -⟩ | h := (svnRelpathSkipAncestor_eq_some hjoin).mp h
    · exact hpre (joinNames_injective hp hk h.symm ▸ List.prefix_rfl)
    · obtain ⟨ls, -, rfl, -⟩ := (joinNames_eq_append_slash hp hk hne).mp h
      exact hpre (List.prefix_append _ _)

/-- Below a joined path, in bytes and in names. -/
theorem joinNames_below_iff {ps ks : List CStr} (hp : AreNames ps) (hk : AreNames ks)
    (hne : ps ≠ []) :
    joinNames ps ++ [slash] <+: joinNames ks ↔ ps <+: ks ∧ ps ≠ ks := by
  constructor
  · intro ⟨rest, hrest⟩
    rw [List.append_assoc, List.singleton_append] at hrest
    obtain ⟨ls, hls, rfl, -⟩ := (joinNames_eq_append_slash hp hk hne).mp hrest.symm
    refine ⟨List.prefix_append _ _, ?_⟩
    intro h
    exact hls (List.append_right_eq_self.mp h.symm)
  · intro ⟨⟨ls, hls⟩, hproper⟩
    subst hls
    have hls : ls ≠ [] := by
      intro heq
      subst heq
      exact hproper (List.append_nil ps).symm
    rw [joinNames_append hne hls]
    exact ⟨joinNames ls, by simp⟩

end SharpGit.Svn
