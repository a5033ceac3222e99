import SharpGit.Svn.LongestAncestor

namespace SharpGit.Svn

open Library Native

inductive DirentFront
  | drive (letter : UInt8)
  | server (host : CStr)
  deriving DecidableEq, Repr

abbrev DirentPlace : Type := Place DirentFront CStr

/-- The share of a server is a name like the others. -/
def AbsoluteDirent.place (d : AbsoluteDirent) : DirentPlace :=
  match d.root with
  | .drive letter => ⟨.drive letter, d.names⟩
  | .server host share => ⟨.server host, share :: d.names⟩

/-- A drive or a server that is spelled canonically, and names. -/
structure IsDirentPlace (p : DirentPlace) : Prop where
  front : match p.front with
    | .drive letter => isUpper letter = true
    | .server host => IsFileName host ∧ host.map canonicalizeToLower = host
  names : ∀ k ∈ p.names, IsFileName k

def spellPlace (p : DirentPlace) : CStr :=
  match p.front with
  | .drive letter => letter :: colon :: slash :: joinNames p.names
  | .server host => slash :: slash :: joinNames (host :: p.names)

/-- No place is spelled by the empty string. -/
def spellPlace? : WithBot DirentPlace → CStr
  | WithBot.some p => spellPlace p
  | none => []

theorem AbsoluteDirent.spellPlace_place (d : AbsoluteDirent) : spellPlace d.place = d.spell := by
  obtain ⟨root, names, hroot, hnames⟩ := d
  cases root <;> rfl

theorem AbsoluteDirent.isPlace (d : AbsoluteDirent) : IsDirentPlace d.place := by
  obtain ⟨root, names, hroot, hnames⟩ := d
  cases root with
  | drive letter => exact ⟨hroot, hnames⟩
  | server host share =>
    refine ⟨⟨hroot.1, hroot.2.2⟩, ?_⟩
    intro k hk
    obtain rfl | hk := List.mem_cons.mp hk
    · exact hroot.2.1
    · exact hnames k hk

/-- Every place but a lone server is a dirent. -/
theorem IsDirentPlace.dirent {p : DirentPlace} (h : IsDirentPlace p)
    (hlone : ∀ host, p ≠ ⟨.server host, []⟩) : ∃ d : AbsoluteDirent, d.place = p := by
  obtain ⟨front, names⟩ := p
  obtain ⟨hfront, hnames⟩ := h
  cases front with
  | drive letter => exact ⟨⟨.drive letter, names, hfront, hnames⟩, rfl⟩
  | server host =>
    cases names with
    | nil => exact absurd rfl (hlone host)
    | cons share names =>
      exact ⟨⟨.server host share, names, ⟨hfront.1, hnames share List.mem_cons_self, hfront.2⟩,
        fun k hk => hnames k (List.mem_cons_of_mem _ hk)⟩, rfl⟩

theorem fileNames_areNames {ks : List CStr} (h : ∀ k ∈ ks, IsFileName k) : AreNames ks :=
  fun k hk => (h k hk).segment

theorem IsDirentPlace.of_le {p q : DirentPlace} (h : IsDirentPlace q) (hle : p ≤ q) :
    IsDirentPlace p := by
  obtain ⟨hfront, hnames⟩ := h
  exact ⟨hle.1 ▸ hfront, fun k hk => hnames k (hle.2.subset hk)⟩

theorem spellPlace_injective {p q : DirentPlace} (hp : IsDirentPlace p) (hq : IsDirentPlace q)
    (h : spellPlace p = spellPlace q) : p = q := by
  obtain ⟨front, names⟩ := p
  obtain ⟨front', names'⟩ := q
  obtain ⟨hfront, hnames⟩ := hp
  obtain ⟨hfront', hnames'⟩ := hq
  have hletter : ∀ letter : UInt8, isUpper letter = true → letter ≠ slash := fun letter hl =>
    isLetter_ne_slash (isLetter_of_isUpper hl)
  cases front with
  | drive letter =>
    cases front' with
    | drive letter' =>
      injection h with hletter hrest
      injection hrest with _ hrest
      injection hrest with _ hrest
      have heq := joinNames_injective (fileNames_areNames hnames) (fileNames_areNames hnames') hrest
      dsimp only at heq
      rw [hletter, heq]
    | server host =>
      injection h with hslash
      exact absurd hslash (hletter letter hfront)
  | server host =>
    cases front' with
    | drive letter =>
      injection h with hslash
      exact absurd hslash.symm (hletter letter hfront')
    | server host' =>
      injection h with _ hrest
      injection hrest with _ hrest
      have hall : ∀ {host : CStr} {names : List CStr}, IsFileName host →
          (∀ k ∈ names, IsFileName k) → AreNames (host :: names) := by
        intro host names hhost hnames
        refine fileNames_areNames fun k hk => ?_
        obtain rfl | hk := List.mem_cons.mp hk
        · exact hhost
        · exact hnames k hk
      have heq := joinNames_injective (hall hfront.1 hnames) (hall hfront'.1 hnames') hrest
      injection heq with hhost heq
      dsimp only at heq
      rw [hhost, heq]

/-- The fronts of a path that end where a name ends are the paths of the first names. -/
theorem endsName_joinNames {ks : List CStr} (hk : AreNames ks) (hne : ks ≠ []) {front : CStr} :
    EndsName front (joinNames ks) ↔ ∃ ls, ls ≠ [] ∧ ls <+: ks ∧ front = joinNames ls := by
  constructor
  · rintro ⟨tail, htail, rfl | hslash⟩
    · exact ⟨ks, hne, List.prefix_rfl, by rw [htail, List.append_nil]⟩
    · obtain ⟨rest, rfl⟩ := eq_cons_of_front hslash
      have hsplit : ks = front.splitOn slash ++ rest.splitOn slash := by
        rw [← List.splitOn_append_cons_self, ← htail,
          joinNames, List.splitOn_intercalate slash (fun k h => (hk k h).2) hne]
      refine ⟨front.splitOn slash, List.splitOn_ne_nil slash front, ⟨_, hsplit.symm⟩, ?_⟩
      rw [joinNames, List.intercalate_splitOn]
  · rintro ⟨ls, hls, ⟨rest, rfl⟩, rfl⟩
    by_cases hrest : rest = []
    · exact ⟨[], by rw [hrest, List.append_nil, List.append_nil], .inl rfl⟩
    · exact ⟨slash :: joinNames rest, joinNames_append hls hrest, .inr rfl⟩

theorem upTo_iff {front rest : CStr} : UpTo front rest ↔ front = [] ∨ EndsName front rest := by
  constructor
  · rintro ⟨tail, htail, hnil | hfront | hslash⟩
    · exact .inr ⟨tail, htail, .inl hnil⟩
    · exact .inl hfront
    · exact .inr ⟨tail, htail, .inr hslash⟩
  · rintro (hfront | ⟨tail, htail, hend⟩)
    · exact ⟨rest, by rw [hfront, List.nil_append], .inr (.inl hfront)⟩
    · exact ⟨tail, htail, hend.imp_right .inr⟩

/-- What stands behind a root that has no separator of its own. -/
def behindShare (names : List CStr) : CStr :=
  if names = [] then [] else slash :: joinNames names

theorem spell_server (host share : CStr) (names : List CStr) :
    slash :: slash :: joinNames (host :: share :: names) =
      slash :: slash :: (host ++ slash :: share) ++ behindShare names := by
  rw [behindShare]
  by_cases hne : names = []
  · rw [if_pos hne, hne, joinNames_cons (by simp), joinNames_singleton, List.append_nil]
  · rw [if_neg hne, joinNames_cons (by simp), joinNames_cons hne]
    simp

theorem upTo_joinNames {names : List CStr} (h : AreNames names) {front : CStr} :
    UpTo front (joinNames names) ↔ ∃ ls, ls <+: names ∧ front = joinNames ls := by
  rw [upTo_iff]
  by_cases hne : names = []
  · constructor
    · rintro (rfl | ⟨tail, htail, -⟩)
      · exact ⟨[], List.nil_prefix, joinNames_nil.symm⟩
      · rw [hne, joinNames_nil] at htail
        refine ⟨[], List.nil_prefix, ?_⟩
        rw [(List.append_eq_nil_iff.mp htail.symm).1, joinNames_nil]
    · rintro ⟨ls, hls, rfl⟩
      rw [hne, List.prefix_nil] at hls
      exact .inl (by rw [hls, joinNames_nil])
  · rw [endsName_joinNames h hne]
    constructor
    · rintro (rfl | ⟨ls, -, hls, hfront⟩)
      · exact ⟨[], List.nil_prefix, joinNames_nil.symm⟩
      · exact ⟨ls, hls, hfront⟩
    · rintro ⟨ls, hls, rfl⟩
      by_cases hnil : ls = []
      · exact .inl (by rw [hnil, joinNames_nil])
      · exact .inr ⟨ls, hnil, hls, rfl⟩

theorem upTo_behindShare {names : List CStr} (h : AreNames names) {front : CStr} :
    UpTo front (behindShare names) ↔ ∃ ls, ls <+: names ∧ front = behindShare ls := by
  by_cases hne : names = []
  · rw [hne, behindShare, if_pos rfl]
    constructor
    · rintro ⟨tail, htail, -⟩
      exact ⟨[], List.prefix_rfl, (List.append_eq_nil_iff.mp htail.symm).1⟩
    · rintro ⟨ls, hls, rfl⟩
      rw [List.prefix_nil.mp hls, behindShare, if_pos rfl]
      exact upTo_self []
  · rw [behindShare, if_neg hne, upTo_iff]
    constructor
    · rintro (rfl | ⟨tail, htail, hend⟩)
      · exact ⟨[], List.nil_prefix, rfl⟩
      · cases front with
        | nil => exact ⟨[], List.nil_prefix, rfl⟩
        | cons c front =>
          injection htail with hc htail
          obtain ⟨ls, hnil, hls, rfl⟩ :=
            (endsName_joinNames h hne).mp ⟨tail, htail, hend⟩
          exact ⟨ls, hls, by rw [behindShare, if_neg hnil, hc]⟩
    · rintro ⟨ls, hls, rfl⟩
      by_cases hnil : ls = []
      · exact .inl (by rw [behindShare, if_pos hnil])
      · right
        rw [behindShare, if_neg hnil]
        exact (@endsName_prepend [slash] _ _).mpr
          ((endsName_joinNames h hne).mpr ⟨ls, hnil, hls, rfl⟩)

/-- A dirent without its last names. -/
def AbsoluteDirent.ascend (d : AbsoluteDirent) {ls : List CStr} (hls : ls <+: d.names) :
    AbsoluteDirent where
  root := d.root
  names := ls
  root_canonical := d.root_canonical
  names_valid k hk := d.names_valid k (hls.subset hk)

theorem AbsoluteDirent.above_iff_ascend (d : AbsoluteDirent) (x : CStr) :
    Above x d.spell ↔ ∃ ls, ∃ hls : ls <+: d.names, x = (d.ascend hls).spell := by
  obtain ⟨root, names, hroot, hnames⟩ := d
  have hare := fileNames_areNames hnames
  cases root with
  | drive letter =>
    have hsplit : RootSplit [letter, colon, slash] (joinNames names) :=
      .driveRoot (isLetter_of_isUpper hroot)
    change Above x ([letter, colon, slash] ++ joinNames names) ↔ _
    rw [hsplit.above_iff]
    constructor
    · rintro ⟨front, hfront, rfl⟩
      obtain ⟨ls, hls, rfl⟩ := (upTo_joinNames hare).mp hfront
      exact ⟨ls, hls, rfl⟩
    · rintro ⟨ls, hls, rfl⟩
      exact ⟨joinNames ls, (upTo_joinNames hare).mpr ⟨ls, hls, rfl⟩, rfl⟩
  | server host share =>
    have hsplit : RootSplit (slash :: slash :: (host ++ slash :: share)) (behindShare names) := by
      refine .share hroot.1.no_slash hroot.2.1.no_slash ?_
      rw [behindShare]
      split
      · exact .inl rfl
      · exact .inr rfl
    change Above x (slash :: slash :: joinNames (host :: share :: names)) ↔ _
    rw [spell_server, hsplit.above_iff]
    constructor
    · rintro ⟨front, hfront, rfl⟩
      obtain ⟨ls, hls, rfl⟩ := (upTo_behindShare hare).mp hfront
      exact ⟨ls, hls, (spell_server host share ls).symm⟩
    · rintro ⟨ls, hls, rfl⟩
      exact ⟨behindShare ls, (upTo_behindShare hare).mpr ⟨ls, hls, rfl⟩,
        spell_server host share ls⟩

/-- What is above a dirent are the dirents on the way to it. -/
theorem AbsoluteDirent.above_iff (d : AbsoluteDirent) (x : CStr) :
    Above x d.spell ↔ ∃ a : AbsoluteDirent, x = a.spell ∧ a.place ≤ d.place := by
  rw [d.above_iff_ascend]
  constructor
  · rintro ⟨ls, hls, rfl⟩
    refine ⟨d.ascend hls, rfl, ?_⟩
    obtain ⟨root, names, hroot, hnames⟩ := d
    cases root with
    | drive letter => exact ⟨rfl, hls⟩
    | server host share => exact ⟨rfl, (List.prefix_cons_inj share).mpr hls⟩
  · rintro ⟨⟨root', ls, hroot', hls'⟩, rfl, hle⟩
    obtain ⟨root, names, hroot, hnames⟩ := d
    obtain ⟨hfront, hls⟩ := hle
    cases root with
    | drive letter =>
      cases root' with
      | drive letter' =>
        injection hfront with hletter
        subst hletter
        exact ⟨ls, hls, rfl⟩
      | server host' share' => exact absurd hfront (by simp [place])
    | server host share =>
      cases root' with
      | drive letter' => exact absurd hfront (by simp [place])
      | server host' share' =>
        injection hfront with hhost
        obtain ⟨hshare, hls⟩ := List.cons_prefix_cons.mp hls
        subst hhost hshare
        exact ⟨ls, hls, rfl⟩

theorem IsFileName.ne_nil {k : CStr} (h : IsFileName k) : k ≠ [] := (keepName_iff.mp h.keep).1

theorem behindRoot_joinNames {ks : List CStr} (h : ∀ k ∈ ks, IsFileName k) :
    BehindRoot (joinNames ks) :=
  ⟨joinNames_relative (fileNames_areNames h), colon_not_mem_joinNames h⟩

/-- On places the code finds the meet. -/
theorem svnDirentGetLongestAncestor_spellPlace {p q : DirentPlace} (hp : IsDirentPlace p)
    (hq : IsDirentPlace q) :
    svnDirentGetLongestAncestor (spellPlace p) (spellPlace q) = spellPlace? (p.meet q) := by
  obtain ⟨front, names⟩ := p
  obtain ⟨front', names'⟩ := q
  obtain ⟨hfront, hnames⟩ := hp
  obtain ⟨hfront', hnames'⟩ := hq
  have hletter : ∀ letter : UInt8, isUpper letter = true → letter ≠ slash := fun letter hl =>
    isLetter_ne_slash (isLetter_of_isUpper hl)
  rw [Place.meet]
  cases front with
  | drive letter =>
    cases front' with
    | drive letter' =>
      by_cases heq : letter = letter'
      · subst heq
        rw [if_pos rfl]
        exact (cutsTo_joinNames (fileNames_areNames hnames) (fileNames_areNames hnames')).take_drive
          (behindRoot_joinNames hnames) (behindRoot_joinNames hnames') letter
      · rw [if_neg (by simpa using heq)]
        exact svnDirentGetLongestAncestor_differ heq _ _
    | server host =>
      rw [if_neg (by simp)]
      exact svnDirentGetLongestAncestor_differ (hletter letter hfront) _ _
  | server host =>
    cases front' with
    | drive letter =>
      rw [if_neg (by simp)]
      exact svnDirentGetLongestAncestor_differ (hletter letter hfront').symm _ _
    | server host' =>
      have hall : ∀ {host : CStr} {names : List CStr}, IsFileName host →
          (∀ k ∈ names, IsFileName k) → ∀ k ∈ host :: names, IsFileName k := by
        intro host names hhost hnames k hk
        obtain rfl | hk := List.mem_cons.mp hk
        · exact hhost
        · exact hnames k hk
      have hs := hall hfront.1 hnames
      have ht := hall hfront'.1 hnames'
      have hcuts := (cutsTo_joinNames (fileNames_areNames hs) (fileNames_areNames ht)).take_unc
        (behindRoot_joinNames hs) (behindRoot_joinNames ht)
        (joinNames_cons_ne_nil names hfront.1.ne_nil)
      refine hcuts.trans ?_
      by_cases heq : host = host'
      · subst heq
        rw [commonPrefix_cons_self, if_neg (joinNames_cons_ne_nil _ hfront.1.ne_nil), if_pos rfl]
        rfl
      · rw [commonPrefix_cons_ne heq, joinNames_nil, if_pos rfl, if_neg (by simpa using heq)]
        rfl

/-- A dirent on the way to another has its root. -/
theorem AbsoluteDirent.root_of_le {e d : AbsoluteDirent} (h : e.place ≤ d.place) :
    e.root = d.root := by
  obtain ⟨root, names, hroot, hnames⟩ := e
  obtain ⟨root', names', hroot', hnames'⟩ := d
  obtain ⟨hfront, hls⟩ := h
  cases root with
  | drive letter =>
    cases root' with
    | drive letter' =>
      injection hfront with hletter
      dsimp only
      rw [hletter]
    | server host' share' => exact absurd hfront (by simp [place])
  | server host share =>
    cases root' with
    | drive letter' => exact absurd hfront (by simp [place])
    | server host' share' =>
      injection hfront with hhost
      obtain ⟨hshare, -⟩ := List.cons_prefix_cons.mp hls
      dsimp only
      rw [hhost, hshare]

/-- What is above both dirents is a dirent on the way to both. -/
theorem AbsoluteDirent.above_both {a b : AbsoluteDirent} {x : CStr} (ha : Above x a.spell)
    (hb : Above x b.spell) :
    ∃ e : AbsoluteDirent, x = e.spell ∧ e.place ≤ a.place ∧ e.place ≤ b.place := by
  obtain ⟨e, rfl, hea⟩ := (a.above_iff x).mp ha
  obtain ⟨e', he, heb⟩ := (b.above_iff _).mp hb
  rw [← e.spellPlace_place, ← e'.spellPlace_place] at he
  rw [← spellPlace_injective e.isPlace e'.isPlace he] at heb
  exact ⟨e, rfl, hea, heb⟩

/-- Under one root the meet of two dirents is a dirent. -/
theorem AbsoluteDirent.meet_same {a b : AbsoluteDirent} (h : a.root = b.root) :
    a.place.meet b.place =
      WithBot.some (a.ascend (commonPrefix_prefix_left a.names b.names)).place := by
  obtain ⟨root, names, hroot, hnames⟩ := a
  obtain ⟨root', names', hroot', hnames'⟩ := b
  dsimp only at h
  subst h
  cases root with
  | drive letter => exact if_pos rfl
  | server host share =>
    refine (if_pos rfl).trans ?_
    change WithBot.some (Place.mk (DirentFront.server host)
      (commonPrefix (share :: names) (share :: names'))) = _
    rw [commonPrefix_cons_self]
    rfl

/-- Two shares of a server meet in the server. -/
theorem AbsoluteDirent.meet_server {a b : AbsoluteDirent} {host share share' : CStr}
    (ha : a.root = .server host share) (hb : b.root = .server host share')
    (hne : share ≠ share') : a.place.meet b.place = WithBot.some ⟨.server host, []⟩ := by
  obtain ⟨root, names, hroot, hnames⟩ := a
  obtain ⟨root', names', hroot', hnames'⟩ := b
  dsimp only at ha hb
  subst ha hb
  refine (if_pos rfl).trans ?_
  change WithBot.some (Place.mk (DirentFront.server host)
    (commonPrefix (share :: names) (share' :: names'))) = _
  rw [commonPrefix_cons_ne hne]

theorem AbsoluteDirent.meet_apart {a b : AbsoluteDirent} (hne : a.root ≠ b.root)
    (hserver : ∀ host share share', a.root = .server host share →
      b.root ≠ .server host share') : a.place.meet b.place = ⊥ := by
  apply if_neg
  intro hfront
  obtain ⟨root, names, hroot, hnames⟩ := a
  obtain ⟨root', names', hroot', hnames'⟩ := b
  cases root with
  | drive letter =>
    cases root' with
    | drive letter' =>
      injection hfront with hletter
      exact hne (congrArg DirentRoot.drive hletter)
    | server host' share' => exact absurd hfront (by simp [place])
  | server host share =>
    cases root' with
    | drive letter' => exact absurd hfront (by simp [place])
    | server host' share' =>
      have hhost : host = host' := by injection hfront
      exact hserver host share share' rfl (by rw [hhost])

/-- The longest common ancestor of two dirents, and what is given instead where they have none. -/
structure LongestAncestor (a b : AbsoluteDirent) (result : CStr) : Prop where
  shared : a.root = b.root → ∃ c : AbsoluteDirent, result = c.spell ∧
    ∀ x, Above x c.spell ↔ Above x a.spell ∧ Above x b.spell
  apart : a.root ≠ b.root → ∀ x, ¬ (Above x a.spell ∧ Above x b.spell)
  server : ∀ host share share', a.root = .server host share → b.root = .server host share' →
    share ≠ share' → result = slash :: slash :: host
  nothing : a.root ≠ b.root → (∀ host share share', a.root = .server host share →
    b.root ≠ .server host share') → result = []

theorem svnRelpathGetLongestAncestor_joinNames {ks ls : List CStr} (hk : AreNames ks)
    (hl : AreNames ls) :
    svnRelpathGetLongestAncestor (joinNames ks) (joinNames ls) = joinNames (commonPrefix ks ls) :=
  (cutsTo_joinNames hk hl).take_plain (joinNames_relative hk)

/-- What is above a relpath are the paths of its first names. -/
theorem svnRelpathSkipAncestor_iff {ks : List CStr} (hk : AreNames ks) (x : CStr) :
    (svnRelpathSkipAncestor x (joinNames ks)).isSome = true ↔
      ∃ ls, ls <+: ks ∧ x = joinNames ls := by
  by_cases hx : x = []
  · subst hx
    exact ⟨fun _ => ⟨[], List.nil_prefix, joinNames_nil.symm⟩, fun _ => rfl⟩
  · rw [svnRelpathSkipAncestor_isSome hx, ← upTo_joinNames hk, upTo_iff, or_iff_right hx]
    constructor
    · rintro (heq | ⟨tail, htail⟩)
      · exact ⟨[], by rw [heq, List.append_nil], .inl rfl⟩
      · rw [List.append_assoc, List.singleton_append] at htail
        exact ⟨slash :: tail, htail.symm, .inr rfl⟩
    · rintro ⟨tail, htail, rfl | hslash⟩
      · exact .inl (by rw [htail, List.append_nil])
      · obtain ⟨rest, rfl⟩ := eq_cons_of_front hslash
        refine .inr ⟨rest, ?_⟩
        rw [htail, List.append_assoc, List.singleton_append]

theorem svnRelpathGetLongestAncestor_greatest {a b : CStr} (ha : relpathIsCanonical a = true)
    (hb : relpathIsCanonical b = true) (x : CStr) :
    (svnRelpathSkipAncestor x (svnRelpathGetLongestAncestor a b)).isSome = true ↔
      (svnRelpathSkipAncestor x a).isSome = true ∧ (svnRelpathSkipAncestor x b).isSome = true := by
  have hk := areNames_pathNames a
  have hl := areNames_pathNames b
  rw [← (relpathIsCanonical_iff a).mp ha, ← (relpathIsCanonical_iff b).mp hb,
    svnRelpathGetLongestAncestor_joinNames hk hl]
  have hcommon : AreNames (commonPrefix (pathNames a) (pathNames b)) := fun n hn =>
    hk n ((commonPrefix_prefix_left _ _).subset hn)
  rw [svnRelpathSkipAncestor_iff hcommon, svnRelpathSkipAncestor_iff hk,
    svnRelpathSkipAncestor_iff hl]
  constructor
  · rintro ⟨ls, hls, rfl⟩
    exact ⟨⟨ls, hls.trans (commonPrefix_prefix_left _ _), rfl⟩,
      ⟨ls, hls.trans (commonPrefix_prefix_right _ _), rfl⟩⟩
  · rintro ⟨⟨ls, hls, rfl⟩, ⟨ls', hls', heq⟩⟩
    have hsame : ls = ls' := joinNames_injective (fun n hn => hk n (hls.subset hn))
      (fun n hn => hl n (hls'.subset hn)) heq
    exact ⟨ls, prefix_commonPrefix hls (hsame ▸ hls'), rfl⟩

/-- `a` is above both `a/b` and `a/c`, and so above what is found for them. -/
theorem svnRelpathGetLongestAncestor_greatest_a :
    (svnRelpathSkipAncestor [0x61] (svnRelpathGetLongestAncestor [0x61, slash, 0x62]
      [0x61, slash, 0x63])).isSome = true :=
  (svnRelpathGetLongestAncestor_greatest (by decide) (by decide) [0x61]).mpr
    ⟨by decide, by decide⟩

end SharpGit.Svn
