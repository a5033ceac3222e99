import SharpGit.Library.Action
import SharpGit.Library.Redundant
import SharpGit.Svn.AncestorOrder
import SharpGit.Svn.Uri

namespace SharpGit.Svn

open Library Native

inductive AbsoluteError
  | assertion
  | badFilename (aprError : Int) (relative : CStr)
  deriving DecidableEq, Repr

/-- `svn_path_is_backpath_present`. -/
def pathIsBackpathPresent (path : CStr) : Bool :=
  if path.length ≤ 1 then false
  else if path = [dot, dot] ∨ [dot, dot, slash].isPrefixOf path then true
  else if path.length = 2 then false
  else
    path.tails.any ([slash, dot, dot, slash].isPrefixOf ·) || [slash, dot, dot].isSuffixOf path

/-- `merge` is `apr_filepath_merge`, with the conversions to and from its encoding. -/
def svnDirentGetAbsolute (merge : CStr → Except Int CStr) (relative : CStr) :
    Except AbsoluteError CStr :=
  if pathIsUrl relative then .error .assertion
  else
    match merge relative with
    | .ok buffer => .ok (svnDirentCanonicalize buffer)
    | .error aprError =>
      if svnDirentIsAbsolute relative && svnDirentIsCanonical relative &&
          !pathIsBackpathPresent relative then .ok relative
      else .error (.badFilename aprError (svnDirentLocalStyle relative))

/-- One turn of the loop that makes the targets absolute: what is common so far, and they. -/
def addTarget (merge : CStr → Except Int CStr) (acc : CStr × List CStr) (rel : CStr) :
    Except AbsoluteError (CStr × List CStr) := do
  let absolute ← svnDirentGetAbsolute merge rel
  return (svnDirentGetLongestAncestor acc.1 absolute, acc.2 ++ [absolute])

/-- Two targets of the first pass: which of them goes. -/
def compareTargets (absTargets : List CStr) (i j : Nat) : Option Bool :=
  let ancestor := svnDirentGetLongestAncestor (absTargets.getD i []) (absTargets.getD j [])
  if ancestor = [] then none
  else if ancestor = absTargets.getD i [] then some true
  else if ancestor = absTargets.getD j [] then some false
  else none

/-- What both passes remove: the targets below others, and those that are `common`. -/
def removedTarget (absTargets : List CStr) (common : CStr) (i : Nat) : Bool :=
  Redundant.removeRedundant (compareTargets absTargets) absTargets.length i ||
    absTargets[i]? = some common

/-- A target relative to what is common, which brings its '/' along if it is a root. -/
def relItem (common item : CStr) : CStr :=
  if common = [] then item
  else
    let rest := item.drop common.length
    if rest ≠ [] ∧ svnDirentIsRoot common = false then rest.tail else rest

/-- `num_condensed` is only a capacity. -/
def svnDirentCondenseTargets (merge : CStr → Except Int CStr) (targets : List CStr)
    (wanted removeRedundancies : Bool) :
    Except AbsoluteError (Option CStr × Option (List CStr)) :=
  match targets with
  | [] => .ok (none, none)
  | first :: rest => do
    let absolute ← svnDirentGetAbsolute merge first
    if rest = [] then return (some absolute, if wanted then some [] else none)
    else do
      let found ← rest.foldlM (addTarget merge) (absolute, [absolute])
      let kept := found.2.zipIdx.filter fun target =>
        !(removeRedundancies && removedTarget found.2 found.1 target.2)
      return (some found.1,
        if wanted then some (kept.map fun target => relItem found.1 target.1) else none)

section Loop

variable {merge : CStr → Except Int CStr}

theorem foldlM_addTarget {rest paths : List CStr}
    (h : rest.mapM (svnDirentGetAbsolute merge) = .ok paths) (common : CStr)
    (absTargets : List CStr) :
    rest.foldlM (addTarget merge) (common, absTargets) =
      .ok (paths.foldl svnDirentGetLongestAncestor common, absTargets ++ paths) := by
  induction rest generalizing paths common absTargets with
  | nil =>
    rw [List.mapM_nil] at h
    obtain rfl := Except.ok.inj h
    rw [List.append_nil]
    rfl
  | cons rel rest ih =>
    rw [List.mapM_cons] at h
    cases hrel : svnDirentGetAbsolute merge rel with
    | error e =>
      rw [hrel] at h
      cases h
    | ok absolute =>
      cases hrest : rest.mapM (svnDirentGetAbsolute merge) with
      | error e =>
        rw [hrel, hrest] at h
        cases h
      | ok others =>
        rw [hrel, hrest] at h
        obtain rfl := Except.ok.inj h
        have hstep : addTarget merge (common, absTargets) rel =
            .ok (svnDirentGetLongestAncestor common absolute, absTargets ++ [absolute]) := by
          rw [addTarget, hrel]
          rfl
        have hnext := ih hrest (svnDirentGetLongestAncestor common absolute)
          (absTargets ++ [absolute])
        rw [List.foldlM_cons, hstep]
        refine hnext.trans ?_
        rw [List.append_assoc]
        rfl

theorem foldlM_addTarget_error {rest : List CStr} {e : AbsoluteError}
    (h : rest.mapM (svnDirentGetAbsolute merge) = .error e) (acc : CStr × List CStr) :
    rest.foldlM (addTarget merge) acc = .error e := by
  induction rest generalizing acc with
  | nil => cases h
  | cons rel rest ih =>
    rw [List.foldlM_cons, addTarget]
    obtain hrel | ⟨⟨absolute, hrel⟩, hrest⟩ := mapM_cons_eq_error.mp h
    · rw [hrel]
      rfl
    · rw [hrel]
      exact ih hrest _

end Loop

/-- The deepest place above all of these. -/
def commonPlace (first : AbsoluteDirent) (rest : List AbsoluteDirent) : WithBot DirentPlace :=
  (rest.map fun d => (d.place : WithBot DirentPlace)).foldl (· ⊓ ·) first.place

section Common

variable {first : AbsoluteDirent} {rest : List AbsoluteDirent}

theorem le_commonPlace {x : WithBot DirentPlace} :
    x ≤ commonPlace first rest ↔ ∀ d ∈ first :: rest, x ≤ d.place := by
  rw [commonPlace, le_foldl_inf, List.forall_mem_cons, List.forall_mem_map]

theorem commonPlace_le {d : AbsoluteDirent} (h : d ∈ first :: rest) :
    commonPlace first rest ≤ d.place :=
  le_commonPlace.mp le_rfl d h

theorem isPlace_of_le {p : DirentPlace} {d : AbsoluteDirent}
    (h : WithBot.some p ≤ (d.place : WithBot DirentPlace)) : IsDirentPlace p :=
  d.isPlace.of_le (WithBot.coe_le_coe.mp h)

/-- One more target. -/
theorem svnDirentGetLongestAncestor_place {w : WithBot DirentPlace} {a : AbsoluteDirent}
    (hw : w ≤ a.place) (d : AbsoluteDirent) :
    svnDirentGetLongestAncestor (spellPlace? w) d.spell = spellPlace? (w ⊓ d.place) := by
  cases w with
  | bot =>
    have hbot : (⊥ : WithBot DirentPlace) ⊓ d.place = ⊥ := bot_inf_eq _
    rw [hbot]
    rfl
  | coe p =>
    rw [← d.spellPlace_place]
    exact svnDirentGetLongestAncestor_spellPlace (isPlace_of_le hw) d.isPlace

theorem foldl_longestAncestor {w : WithBot DirentPlace} {a : AbsoluteDirent} (hw : w ≤ a.place)
    (ds : List AbsoluteDirent) :
    (ds.map AbsoluteDirent.spell).foldl svnDirentGetLongestAncestor (spellPlace? w) =
      spellPlace? ((ds.map fun d => (d.place : WithBot DirentPlace)).foldl (· ⊓ ·) w) := by
  induction ds generalizing w with
  | nil => rfl
  | cons d ds ih =>
    rw [List.map_cons, List.foldl_cons, svnDirentGetLongestAncestor_place hw,
      ih (inf_le_left.trans hw)]
    rfl

end Common

/-- The root of a dirent. -/
def AbsoluteDirent.top (d : AbsoluteDirent) : AbsoluteDirent := d.ascend List.nil_prefix

theorem AbsoluteDirent.top_le {a d : AbsoluteDirent} (h : a.root = d.root) :
    a.top.place ≤ d.place := by
  obtain ⟨root, names, hroot, hnames⟩ := a
  obtain ⟨root', names', hroot', hnames'⟩ := d
  dsimp only at h
  subst h
  cases root with
  | drive letter => exact ⟨rfl, List.nil_prefix⟩
  | server host share => exact ⟨rfl, (List.prefix_cons_inj share).mpr List.nil_prefix⟩

/-- Below a place that names no share alone is no dirent's root. -/
theorem not_lone_of_le {a : AbsoluteDirent} {p : DirentPlace} (h : a.place ≤ p) (host : CStr) :
    p ≠ ⟨.server host, []⟩ := by
  rintro rfl
  obtain ⟨root, names, hroot, hnames⟩ := a
  cases root with
  | drive letter => exact absurd h.1 (by simp [AbsoluteDirent.place])
  | server host' share => exact absurd (List.prefix_nil.mp h.2) (List.cons_ne_nil share names)

theorem AbsoluteDirent.place_eq {a b : AbsoluteDirent} (h : a.spell = b.spell) :
    a.place = b.place := by
  rw [← a.spellPlace_place, ← b.spellPlace_place] at h
  exact spellPlace_injective a.isPlace b.isPlace h

theorem AbsoluteDirent.above_spell_iff {a d : AbsoluteDirent} :
    Above a.spell d.spell ↔ a.place ≤ d.place := by
  rw [d.above_iff]
  constructor
  · rintro ⟨b, hb, hle⟩
    rwa [place_eq hb]
  · exact fun hle => ⟨a, rfl, hle⟩

/-- The longest common ancestor of all these dirents, and what is given instead where they have
none: a server, or nothing. -/
structure CommonAncestor (ds : List AbsoluteDirent) (common : CStr) : Prop where
  shared : (∀ a ∈ ds, ∀ b ∈ ds, a.root = b.root) → ∃ c : AbsoluteDirent, common = c.spell ∧
    ∀ x, Above x c.spell ↔ ∀ d ∈ ds, Above x d.spell
  server : ∀ host, (∀ d ∈ ds, ∃ share, d.root = .server host share) →
    (∃ a ∈ ds, ∃ b ∈ ds, a.root ≠ b.root) → common = slash :: slash :: host
  nothing : (∃ a ∈ ds, ∃ b ∈ ds, a.root ≠ b.root) →
    (¬ ∃ host, ∀ d ∈ ds, ∃ share, d.root = .server host share) → common = []

section Common

variable {first : AbsoluteDirent} {rest : List AbsoluteDirent}

theorem commonPlace_shared (h : ∀ a ∈ first :: rest, ∀ b ∈ first :: rest, a.root = b.root) :
    ∃ c : AbsoluteDirent, commonPlace first rest = c.place := by
  have htop : (first.top.place : WithBot DirentPlace) ≤ commonPlace first rest := by
    rw [le_commonPlace]
    intro d hd
    exact WithBot.coe_le_coe.mpr (AbsoluteDirent.top_le (h first List.mem_cons_self d hd))
  have hfirst := @commonPlace_le first rest first List.mem_cons_self
  cases hcommon : commonPlace first rest with
  | bot =>
    rw [hcommon] at htop
    exact absurd htop (WithBot.not_coe_le_bot _)
  | coe p =>
    rw [hcommon] at htop hfirst
    obtain ⟨c, hc⟩ := (isPlace_of_le hfirst).dirent (not_lone_of_le (WithBot.coe_le_coe.mp htop))
    exact ⟨c, by rw [hc]⟩

/-- Dirents below one place and not below one root are on the server that the place is. -/
theorem place_of_apart {ds : List AbsoluteDirent} {p : DirentPlace} (hle : ∀ d ∈ ds, p ≤ d.place)
    (hapart : ∃ a ∈ ds, ∃ b ∈ ds, a.root ≠ b.root) : ∃ host, p = ⟨.server host, []⟩ := by
  obtain ⟨a, ha, b, hb, hne⟩ := hapart
  by_contra hlone
  simp only [not_exists] at hlone
  obtain ⟨c, rfl⟩ := (a.isPlace.of_le (hle a ha)).dirent hlone
  exact hne ((AbsoluteDirent.root_of_le (hle a ha)).symm.trans
    (AbsoluteDirent.root_of_le (hle b hb)))

theorem root_of_server_le {d : AbsoluteDirent} {host : CStr} {names : List CStr}
    (h : (⟨.server host, names⟩ : DirentPlace) ≤ d.place) :
    ∃ share, d.root = .server host share := by
  obtain ⟨root, names', hroot, hnames⟩ := d
  cases root with
  | drive letter => exact absurd h.1 (by simp [AbsoluteDirent.place])
  | server host' share =>
    have hfront : DirentFront.server host = DirentFront.server host' := h.1
    injection hfront with hhost
    exact ⟨share, by rw [hhost]⟩

theorem server_le {d : AbsoluteDirent} {host share : CStr} (h : d.root = .server host share) :
    (⟨.server host, []⟩ : DirentPlace) ≤ d.place := by
  obtain ⟨root, names, hroot, hnames⟩ := d
  dsimp only at h
  subst h
  exact ⟨rfl, List.nil_prefix⟩

theorem le_of_commonPlace {p : DirentPlace} (h : commonPlace first rest = WithBot.some p) :
    ∀ d ∈ first :: rest, p ≤ d.place := by
  intro d hd
  have hbelow := @commonPlace_le first rest d hd
  rw [h] at hbelow
  exact WithBot.coe_le_coe.mp hbelow

/-- Where the place is that of a dirent, its ancestors are those that all have. -/
theorem above_commonPlace {c : AbsoluteDirent} (h : commonPlace first rest = c.place) (x : CStr) :
    Above x c.spell ↔ ∀ d ∈ first :: rest, Above x d.spell := by
  constructor
  · intro hx d hd
    obtain ⟨a, rfl, ha⟩ := (c.above_iff x).mp hx
    exact AbsoluteDirent.above_spell_iff.mpr (ha.trans (le_of_commonPlace h d hd))
  · intro hall
    obtain ⟨a, rfl, -⟩ := (first.above_iff x).mp (hall first List.mem_cons_self)
    rw [AbsoluteDirent.above_spell_iff, ← WithBot.coe_le_coe, ← h, le_commonPlace]
    intro d hd
    exact WithBot.coe_le_coe.mpr (AbsoluteDirent.above_spell_iff.mp (hall d hd))

/-- Several shares of one server have that server in common. -/
theorem commonPlace_server {host : CStr}
    (hserver : ∀ d ∈ first :: rest, ∃ share, d.root = .server host share)
    (hapart : ∃ a ∈ first :: rest, ∃ b ∈ first :: rest, a.root ≠ b.root) :
    commonPlace first rest = WithBot.some ⟨.server host, []⟩ := by
  have hbelow : ((⟨.server host, []⟩ : DirentPlace) : WithBot DirentPlace) ≤
      commonPlace first rest := by
    rw [le_commonPlace]
    intro d hd
    obtain ⟨share, hroot⟩ := hserver d hd
    exact WithBot.coe_le_coe.mpr (server_le hroot)
  cases hcommon : commonPlace first rest with
  | bot =>
    rw [hcommon] at hbelow
    exact absurd hbelow (WithBot.not_coe_le_bot _)
  | coe p =>
    rw [hcommon] at hbelow
    obtain ⟨host', rfl⟩ := place_of_apart (le_of_commonPlace hcommon) hapart
    have hfront : DirentFront.server host = DirentFront.server host' :=
      (WithBot.coe_le_coe.mp hbelow).1
    rw [hfront]

theorem commonAncestor_commonPlace :
    CommonAncestor (first :: rest) (spellPlace? (commonPlace first rest)) := by
  refine ⟨?_, ?_, ?_⟩
  · intro hshared
    obtain ⟨c, hc⟩ := commonPlace_shared hshared
    refine ⟨c, ?_, above_commonPlace hc⟩
    rw [hc, ← c.spellPlace_place]
    rfl
  · intro host hserver hapart
    rw [commonPlace_server hserver hapart]
    exact congrArg (fun s => slash :: slash :: s) (joinNames_singleton host)
  · intro hapart hnone
    cases hcommon : commonPlace first rest with
    | bot => rfl
    | coe p =>
      obtain ⟨host, rfl⟩ := place_of_apart (le_of_commonPlace hcommon) hapart
      exact absurd ⟨host, fun d hd => root_of_server_le (le_of_commonPlace hcommon d hd)⟩ hnone

end Common

theorem joinNames_ne_nil {ks : List CStr} (h : ∀ k ∈ ks, IsFileName k) (hne : ks ≠ []) :
    joinNames ks ≠ [] := fun hnil => hne ((joinNames_eq_nil (fileNames_areNames h)).mp hnil)

/-- A dirent is a root if it has no names. -/
theorem AbsoluteDirent.isRoot_spell (e : AbsoluteDirent) :
    svnDirentIsRoot e.spell = true ↔ e.names = [] := by
  obtain ⟨root, names, hroot, hnames⟩ := e
  cases root with
  | drive letter =>
    have hletter := isLetter_of_isUpper hroot
    constructor
    · intro h
      have hsplit : RootSplit [letter, colon, slash] (joinNames names) := .driveRoot hletter
      exact (joinNames_eq_nil (fileNames_areNames hnames)).mp (hsplit.of_isRoot h)
    · intro h
      dsimp only at h
      subst h
      change svnDirentIsRoot [letter, colon, slash] = true
      simp [svnDirentIsRoot, hletter]
  | server host share =>
    have hsplit : RootSplit (slash :: slash :: (host ++ slash :: share)) (behindShare names) := by
      refine .share hroot.1.no_slash hroot.2.1.no_slash ?_
      rw [behindShare]
      split
      · exact .inl rfl
      · exact .inr rfl
    have hspell : AbsoluteDirent.spell ⟨.server host share, names, hroot, hnames⟩ =
        slash :: slash :: (host ++ slash :: share) ++ behindShare names :=
      spell_server host share names
    rw [hspell]
    constructor
    · intro h
      have hbehind := hsplit.of_isRoot h
      by_contra hne
      rw [behindShare, if_neg hne] at hbehind
      cases hbehind
    · intro h
      dsimp only at h
      rw [h, behindShare, if_pos rfl, List.append_nil]
      exact svnDirentIsRoot_share hroot.1.no_slash hroot.2.1.no_slash hroot.2.1.ne_nil

/-- A dirent below another one is spelled behind it. -/
theorem AbsoluteDirent.descend_spell (e : AbsoluteDirent) {ps : List CStr}
    (hp : ∀ k ∈ ps, IsFileName k) (hne : ps ≠ []) :
    (∃ letter, e.root = .drive letter ∧ e.names = [] ∧
        (e.descend ps hp).spell = e.spell ++ joinNames ps) ∨
      ((∀ letter, e.root = .drive letter → e.names ≠ []) ∧
        (e.descend ps hp).spell = e.spell ++ slash :: joinNames ps) := by
  obtain ⟨root, names, hroot, hnames⟩ := e
  cases root with
  | drive letter =>
    by_cases hnil : names = []
    · subst hnil
      exact .inl ⟨letter, rfl, rfl, rfl⟩
    · right
      refine ⟨fun _ _ => hnil, ?_⟩
      change letter :: colon :: slash :: joinNames (names ++ ps) =
        letter :: colon :: slash :: joinNames names ++ slash :: joinNames ps
      rw [joinNames_append hnil hne]
      rfl
  | server host share =>
    right
    refine ⟨fun letter hdrive => absurd hdrive (by simp), ?_⟩
    change slash :: slash :: joinNames (host :: share :: names ++ ps) =
      slash :: slash :: joinNames (host :: share :: names) ++ slash :: joinNames ps
    rw [joinNames_append (List.cons_ne_nil host _) hne]
    rfl

/-- A component with a '/' goes below the share. -/
theorem join_share {host share : CStr} {ps : List CStr}
    (hroot : (DirentRoot.server host share).Canonical) (hp : ∀ k ∈ ps, IsFileName k)
    (hne : ps ≠ []) :
    svnDirentJoin (slash :: slash :: joinNames [host, share]) (slash :: joinNames ps) =
        slash :: slash :: joinNames (host :: share :: ps) ∧
      svnDirentIsAbsolute (slash :: joinNames ps) = false := by
  have hhead := joinNames_relative (fileNames_areNames hp)
  have habs : svnDirentIsAbsolute (slash :: joinNames ps) = false := by
    have hupper : isUpper slash = false := by decide
    simp [svnDirentIsAbsolute, hhead, hupper]
  have hnone : ∀ k ∈ ([] : List CStr), IsFileName k := fun k hk => absurd hk List.not_mem_nil
  have hisRoot : svnDirentIsRoot (slash :: slash :: joinNames [host, share]) = true :=
    (AbsoluteDirent.isRoot_spell ⟨.server host share, [], hroot, hnone⟩).mpr rfl
  have hjoin : joinWithSeparator (slash :: slash :: joinNames [host, share]) (joinNames ps) =
      slash :: slash :: joinNames ([host, share] ++ ps) :=
    joinWithSeparator_append [slash, slash] (by simp) hne (server_names_valid hroot hnone)
  have hrooted : direntIsRooted (slash :: slash :: joinNames [host, share]) = true := rfl
  have hcolon : ¬(direntRootLength (slash :: slash :: joinNames [host, share]) = 2 ∧
      (slash :: slash :: joinNames [host, share])[1]? = some colon) :=
    fun h => absurd (Option.some.inj h.2) (by decide)
  have htail : ¬(slash :: joinNames ps).tail = [] := joinNames_ne_nil hp hne
  refine ⟨?_, habs⟩
  rw [svnDirentJoin, habs, if_neg Bool.false_ne_true, if_neg (List.cons_ne_nil slash _),
    if_neg (List.cons_ne_nil slash _), if_pos List.getElem?_cons_zero, if_pos hrooted]
  dsimp only
  rw [if_neg hcolon, if_neg htail, rootLength_of_isRoot hisRoot, List.take_length, List.tail_cons,
    hjoin]
  rfl

/-- A dirent below another one is what goes down from it. -/
theorem AbsoluteDirent.descend_of_le {e d : AbsoluteDirent} (h : e.place ≤ d.place) :
    ∃ ps, ∃ hp : ∀ k ∈ ps, IsFileName k, d = e.descend ps hp := by
  have hroot := root_of_le h
  have hnames : e.names <+: d.names := by
    obtain ⟨root, names, hroot', hnames⟩ := e
    obtain ⟨root', names', hroot'', hnames'⟩ := d
    dsimp only at hroot
    subst hroot
    cases root with
    | drive letter => exact h.2
    | server host share => exact (List.prefix_cons_inj share).mp h.2
  obtain ⟨ps, hps⟩ := hnames
  refine ⟨ps, fun k hk => d.names_valid k (hps ▸ List.mem_append_right _ hk), ?_⟩
  obtain ⟨root, names, hroot', hnames⟩ := e
  obtain ⟨root', names', hroot'', hnames'⟩ := d
  dsimp only at hroot hps
  subst hroot hps
  rfl

/-- A target behind a dirent that is common. -/
theorem join_relItem_dirent {e d : AbsoluteDirent} (h : e.place ≤ d.place) :
    svnDirentJoin e.spell (relItem e.spell d.spell) = d.spell ∧
      svnDirentIsAbsolute (relItem e.spell d.spell) = false := by
  obtain ⟨ps, hp, rfl⟩ := AbsoluteDirent.descend_of_le h
  have hrelative := (not_rooted_joinNames hp).2.2
  have hroot := e.isRoot_spell
  rw [relItem, if_neg e.spell_ne_nil]
  dsimp only
  by_cases hne : ps = []
  · subst hne
    have hsame : e.descend [] hp = e := by
      obtain ⟨root, names, hroot', hnames⟩ := e
      simp [AbsoluteDirent.descend]
    have hjoin := e.join_spell hp
    rw [joinNames_nil, hsame] at hjoin
    rw [hsame, List.drop_length, if_neg fun hrest => hrest.1 rfl]
    exact ⟨hjoin, rfl⟩
  · have hjoin := joinNames_ne_nil hp hne
    obtain ⟨letter, -, hnil, hspell⟩ | ⟨hdrive, hspell⟩ := e.descend_spell hp hne
    · rw [hspell, List.drop_left, if_neg fun hrest => by simp [hroot.mpr hnil] at hrest,
        e.join_spell hp, hspell]
      exact ⟨rfl, hrelative⟩
    · rw [hspell, List.drop_left]
      by_cases hnil : e.names = []
      · rw [if_neg fun hrest => by simp [hroot.mpr hnil] at hrest, ← hspell]
        obtain ⟨root, names, hroot', hnames⟩ := e
        dsimp only at hnil
        subst hnil
        cases root with
        | drive letter => exact absurd rfl (hdrive letter rfl)
        | server host share => exact join_share hroot' hp hne
      · have hnot : svnDirentIsRoot e.spell = false := by
          rw [← Bool.not_eq_true, hroot]
          exact hnil
        rw [if_pos ⟨List.cons_ne_nil slash _, hnot⟩, List.tail_cons, e.join_spell hp, hspell]
        exact ⟨rfl, hrelative⟩

/-- A target behind a server that is common. -/
theorem join_relItem_server {host : CStr} {d : AbsoluteDirent}
    (h : (⟨.server host, []⟩ : DirentPlace) ≤ d.place) :
    svnDirentJoin (slash :: slash :: host) (relItem (slash :: slash :: host) d.spell) = d.spell ∧
      svnDirentIsAbsolute (relItem (slash :: slash :: host) d.spell) = false := by
  obtain ⟨share, hroot⟩ := root_of_server_le h
  obtain ⟨root, names, hroot', hnames⟩ := d
  dsimp only at hroot
  subst hroot
  have hall := server_names_valid hroot' hnames
  have hp : ∀ k ∈ share :: names, IsFileName k := fun k hk => hall k (List.mem_cons_of_mem _ hk)
  have hspell : AbsoluteDirent.spell ⟨.server host share, names, hroot', hnames⟩ =
      slash :: slash :: host ++ slash :: joinNames (share :: names) :=
    congrArg (fun s => slash :: slash :: s) (joinNames_cons (List.cons_ne_nil share names))
  have hnot : svnDirentIsRoot (slash :: slash :: host) = false := by
    have hlast : (slash :: slash :: host)[(slash :: slash :: host).length - 1]? ≠ some slash := by
      rw [← List.getLast?_eq_getElem?]
      have hfront : slash :: slash :: host = [slash, slash] ++ host := rfl
      rw [hfront, List.getLast?_append_of_ne_nil _ hroot'.1.ne_nil]
      exact fun hlast => hroot'.1.no_slash (List.mem_of_getLast? hlast)
    have hcolon : slash ≠ colon := by decide
    unfold svnDirentIsRoot
    dsimp only
    rw [if_neg (by simp [hcolon]), if_pos ⟨by simp, rfl, rfl, hlast⟩]
    have hcount : ((slash :: slash :: host).drop 2).count slash = 0 :=
      List.count_eq_zero_of_not_mem hroot'.1.no_slash
    rw [hcount]
    rfl
  have hjoin := @joinWithSeparator_append [slash, slash] [host] (share :: names)
    (List.cons_ne_nil host []) (List.cons_ne_nil share names)
    (fun k hk => List.mem_singleton.mp hk ▸ hroot'.1)
  rw [joinNames_singleton] at hjoin
  rw [relItem, if_neg (List.cons_ne_nil slash _), hspell]
  dsimp only
  rw [List.drop_left, if_pos ⟨List.cons_ne_nil slash _, hnot⟩, List.tail_cons,
    svnDirentJoin_relative (List.cons_ne_nil slash _) (List.cons_ne_nil share names) hp,
    ← hspell]
  exact ⟨hjoin, (not_rooted_joinNames hp).2.2⟩

/-- Joined to what is common, the relative target is the target again. -/
theorem join_relItem {w : WithBot DirentPlace} {d : AbsoluteDirent} (h : w ≤ d.place) :
    svnDirentJoin (spellPlace? w) (relItem (spellPlace? w) d.spell) = d.spell ∧
      (spellPlace? w ≠ [] → svnDirentIsAbsolute (relItem (spellPlace? w) d.spell) = false) := by
  cases w with
  | bot =>
    refine ⟨?_, fun hne => absurd rfl hne⟩
    change svnDirentJoin [] d.spell = d.spell
    rw [svnDirentJoin, if_pos rfl]
    exact ite_self _
  | coe p =>
    have hle := WithBot.coe_le_coe.mp h
    by_cases hlone : ∃ host, p = ⟨.server host, []⟩
    · obtain ⟨host, rfl⟩ := hlone
      have hspell : spellPlace? ((⟨.server host, []⟩ : DirentPlace) : WithBot DirentPlace) =
          slash :: slash :: host :=
        congrArg (fun s => slash :: slash :: s) (joinNames_singleton host)
      rw [hspell]
      obtain ⟨hjoin, habs⟩ := join_relItem_server hle
      exact ⟨hjoin, fun _ => habs⟩
    · simp only [not_exists] at hlone
      obtain ⟨e, rfl⟩ := (d.isPlace.of_le hle).dirent hlone
      have hspell : spellPlace? (e.place : WithBot DirentPlace) = e.spell := e.spellPlace_place
      rw [hspell]
      obtain ⟨hjoin, habs⟩ := join_relItem_dirent hle
      exact ⟨hjoin, fun _ => habs⟩

theorem longestAncestor_eq_iff (a b : AbsoluteDirent) :
    (svnDirentGetLongestAncestor a.spell b.spell = a.spell ↔ a.place ≤ b.place) ∧
      (svnDirentGetLongestAncestor a.spell b.spell = b.spell ↔ b.place ≤ a.place) := by
  have hmeet := svnDirentGetLongestAncestor_spellPlace a.isPlace b.isPlace
  rw [a.spellPlace_place, b.spellPlace_place] at hmeet
  have hspell : ∀ c : AbsoluteDirent, spellPlace? (a.place.meet b.place) = c.spell →
      a.place.meet b.place = (c.place : WithBot DirentPlace) := by
    intro c hc
    have hleft := Place.meet_le_left a.place b.place
    cases hp : a.place.meet b.place with
    | bot =>
      rw [hp] at hc
      exact absurd hc.symm c.spell_ne_nil
    | coe p =>
      rw [hp] at hc hleft
      have hsame : spellPlace p = spellPlace c.place := hc.trans c.spellPlace_place.symm
      rw [spellPlace_injective (isPlace_of_le hleft) c.isPlace hsame]
  have hback : ∀ c : AbsoluteDirent, a.place.meet b.place = (c.place : WithBot DirentPlace) →
      svnDirentGetLongestAncestor a.spell b.spell = c.spell := by
    intro c hc
    rw [hmeet, hc]
    exact c.spellPlace_place
  constructor
  · constructor
    · intro h
      have heq := hspell a (hmeet.symm.trans h)
      exact WithBot.coe_le_coe.mp (heq ▸ Place.meet_le_right a.place b.place)
    · intro h
      exact hback a (le_antisymm (Place.meet_le_left _ _) (Place.le_meet le_rfl h))
  · constructor
    · intro h
      have heq := hspell b (hmeet.symm.trans h)
      exact WithBot.coe_le_coe.mp (heq ▸ Place.meet_le_left a.place b.place)
    · intro h
      exact hback b (le_antisymm (Place.meet_le_right _ _) (Place.le_meet h le_rfl))

/-- The target at the first index is above the one at the second. -/
def Covers (ds : List AbsoluteDirent) (i j : Nat) : Prop :=
  ∃ a b, ds[i]? = some a ∧ ds[j]? = some b ∧ a.place ≤ b.place

theorem covers_iff {ds : List AbsoluteDirent} {i j : Nat} {a b : AbsoluteDirent}
    (hi : ds[i]? = some a) (hj : ds[j]? = some b) : Covers ds i j ↔ a.place ≤ b.place := by
  constructor
  · rintro ⟨a', b', ha, hb, hle⟩
    rw [hi] at ha
    rw [hj] at hb
    rwa [Option.some.inj ha, Option.some.inj hb]
  · exact fun hle => ⟨a, b, hi, hj, hle⟩

theorem longestAncestor_nil (s : CStr) :
    svnDirentGetLongestAncestor [] s = [] ∧ svnDirentGetLongestAncestor s [] = [] := by
  refine ⟨List.take_nil, ?_⟩
  rw [svnDirentGetLongestAncestor, getLongestAncestorLength, if_pos (.inr rfl), List.take_zero]

theorem compare_spells (ancestor : CStr) {a b : CStr} (ha : a ≠ []) (hb : b ≠ []) :
    ((if ancestor = [] then none
      else if ancestor = a then some true
      else if ancestor = b then some false
      else none) = some true ↔ ancestor = a) ∧
    ((if ancestor = [] then none
      else if ancestor = a then some true
      else if ancestor = b then some false
      else none) = some false ↔ ancestor ≠ a ∧ ancestor = b) := by
  by_cases hnil : ancestor = []
  · rw [if_pos hnil, hnil]
    simp [ha.symm, hb.symm]
  · rw [if_neg hnil]
    by_cases heq : ancestor = a
    · simp [heq]
    · rw [if_neg heq]
      by_cases heq' : ancestor = b
      · rw [if_pos heq']
        exact ⟨iff_of_false (by simp) heq, iff_of_true rfl ⟨heq, heq'⟩⟩
      · rw [if_neg heq']
        exact ⟨iff_of_false (by simp) heq, iff_of_false (by simp) fun h => heq' h.2⟩

/-- What the comparison of the first pass tells. -/
theorem compareTargets_cases (ds : List AbsoluteDirent) (i j : Nat) :
    (compareTargets (ds.map AbsoluteDirent.spell) i j = some true ↔ Covers ds i j) ∧
      (compareTargets (ds.map AbsoluteDirent.spell) i j = some false ↔
        ¬Covers ds i j ∧ Covers ds j i) := by
  have hget : ∀ k, (ds.map AbsoluteDirent.spell).getD k [] =
      (ds[k]?.map AbsoluteDirent.spell).getD [] := by
    intro k
    rw [List.getD_eq_getElem?_getD, List.getElem?_map]
  have hnot : ds[i]? = none ∨ ds[j]? = none → ¬Covers ds i j ∧ ¬Covers ds j i := by
    intro h
    constructor
    · rintro ⟨a, b, ha, hb, -⟩
      simp [ha, hb] at h
    · rintro ⟨a, b, ha, hb, -⟩
      simp [ha, hb] at h
  rw [compareTargets, hget, hget]
  cases hi : ds[i]? with
  | none =>
    have hcovers := hnot (.inl hi)
    have hnil : svnDirentGetLongestAncestor [] ((ds[j]?.map AbsoluteDirent.spell).getD []) = [] :=
      (longestAncestor_nil _).1
    simp [hnil, hcovers]
  | some a =>
    cases hj : ds[j]? with
    | none =>
      have hcovers := hnot (.inr hj)
      have hnil : svnDirentGetLongestAncestor a.spell [] = [] := (longestAncestor_nil _).2
      simp [hnil, hcovers]
    | some b =>
      obtain ⟨hfirst, hsecond⟩ := longestAncestor_eq_iff a b
      rw [covers_iff hi hj, covers_iff hj hi, ← hfirst, ← hsecond]
      exact compare_spells _ a.spell_ne_nil b.spell_ne_nil

theorem decides_compareTargets (ds : List AbsoluteDirent) :
    Redundant.Decides (compareTargets (ds.map AbsoluteDirent.spell)) (Covers ds) where
  first i j := (compareTargets_cases ds i j).1
  second i j := (compareTargets_cases ds i j).2
  trans := by
    rintro i j k ⟨a, b, ha, hb, hab⟩ ⟨b', c, hb', hc, hbc⟩
    rw [hb] at hb'
    obtain rfl := Option.some.inj hb'
    exact ⟨a, c, ha, hc, hab.trans hbc⟩

/-- The targets that no pass removes. -/
def keptTargets (removeRedundancies : Bool) (common : CStr) (ds : List AbsoluteDirent) :
    List AbsoluteDirent :=
  (ds.zipIdx.filter fun target => !(removeRedundancies &&
    removedTarget (ds.map AbsoluteDirent.spell) common target.2)).map Prod.fst

/-- The targets that are left, and what they have in common: all of them, or no two of which one
is above the other and none that is all that is common. -/
structure Condensed (removeRedundancies : Bool) (ds kept : List AbsoluteDirent) (common : CStr) :
    Prop where
  ancestor : CommonAncestor ds common
  sublist : kept.Sublist ds
  all : removeRedundancies = false → kept = ds
  apart : removeRedundancies = true →
    kept.Pairwise fun a b => ¬Above a.spell b.spell ∧ ¬Above b.spell a.spell
  below : removeRedundancies = true → ∀ d ∈ kept, d.spell ≠ common
  covered : removeRedundancies = true → (∀ d ∈ ds, ∃ k ∈ kept, Above k.spell d.spell) ∨
    kept = [] ∧ ∃ d ∈ ds, d.spell = common

section Kept

variable {ds : List AbsoluteDirent} {common : CStr}

theorem removedTarget_eq_false {i : Nat} {d : AbsoluteDirent} (hd : ds[i]? = some d) :
    removedTarget (ds.map AbsoluteDirent.spell) common i = false ↔
      Redundant.Topmost (Covers ds) ds.length i ∧ d.spell ≠ common := by
  have hlt := (List.getElem?_eq_some_iff.mp hd).1
  rw [removedTarget, Bool.or_eq_false_iff, List.length_map,
    Redundant.removeRedundant_eq_false (decides_compareTargets ds) hlt, List.getElem?_map, hd]
  simp

theorem mem_keptTargets {d : AbsoluteDirent} :
    d ∈ keptTargets true common ds ↔ ∃ i, ds[i]? = some d ∧
      Redundant.Topmost (Covers ds) ds.length i ∧ d.spell ≠ common := by
  rw [keptTargets, List.mem_map]
  constructor
  · rintro ⟨⟨a, i⟩, ha, rfl⟩
    obtain ⟨hmem, hkept⟩ := List.mem_filter.mp ha
    have hget := List.mk_mem_zipIdx_iff_getElem?.mp hmem
    rw [Bool.true_and, Bool.not_eq_true'] at hkept
    exact ⟨i, hget, (removedTarget_eq_false hget).mp hkept⟩
  · rintro ⟨i, hget, htop⟩
    refine ⟨(d, i), List.mem_filter.mpr ⟨List.mk_mem_zipIdx_iff_getElem?.mpr hget, ?_⟩, rfl⟩
    rw [Bool.true_and, Bool.not_eq_true']
    exact (removedTarget_eq_false hget).mpr htop

theorem keptTargets_sublist (removeRedundancies : Bool) :
    (keptTargets removeRedundancies common ds).Sublist ds := by
  have hfilter := @List.filter_sublist (AbsoluteDirent × Nat) (fun target =>
    !(removeRedundancies && removedTarget (ds.map AbsoluteDirent.spell) common target.2)) ds.zipIdx
  have hsub := hfilter.map Prod.fst
  rwa [List.zipIdx_map_fst] at hsub

theorem keptTargets_all : keptTargets false common ds = ds := by
  have hall : (fun target : AbsoluteDirent × Nat => !(false &&
      removedTarget (ds.map AbsoluteDirent.spell) common target.2)) = fun _ => true := by
    funext target
    rfl
  rw [keptTargets, hall, List.filter_true, List.zipIdx_map_fst]

/-- Of two targets that are topmost neither is above the other. -/
theorem not_covers_of_topmost {i j : Nat} (hij : i < j) (hj : j < ds.length)
    (hi : Redundant.Topmost (Covers ds) ds.length i)
    (hj' : Redundant.Topmost (Covers ds) ds.length j) : ¬Covers ds i j ∧ ¬Covers ds j i := by
  have hnot : ¬Covers ds i j := fun h => hj' i (hij.trans hj) ⟨h, fun _ => hij⟩
  exact ⟨hnot, fun h => hi j hj ⟨h, fun hback => absurd hback hnot⟩⟩

theorem keptTargets_apart :
    (keptTargets true common ds).Pairwise fun a b =>
      ¬Above a.spell b.spell ∧ ¬Above b.spell a.spell := by
  have hordered : ds.zipIdx.Pairwise fun s t => s.2 < t.2 := by
    have hsecond : (ds.zipIdx.map Prod.snd).Pairwise (· < ·) := by
      rw [List.zipIdx_map_snd]
      exact List.pairwise_lt_range' _
    exact List.pairwise_map.mp hsecond
  rw [keptTargets, List.pairwise_map]
  refine (hordered.filter _).imp_of_mem ?_
  rintro ⟨a, i⟩ ⟨b, j⟩ ha hb hij
  obtain ⟨hamem, hakept⟩ := List.mem_filter.mp ha
  obtain ⟨hbmem, hbkept⟩ := List.mem_filter.mp hb
  have hia := List.mk_mem_zipIdx_iff_getElem?.mp hamem
  have hjb := List.mk_mem_zipIdx_iff_getElem?.mp hbmem
  rw [Bool.true_and, Bool.not_eq_true'] at hakept hbkept
  obtain ⟨hnot, hnot'⟩ := not_covers_of_topmost hij (List.getElem?_eq_some_iff.mp hjb).1
    ((removedTarget_eq_false hia).mp hakept).1 ((removedTarget_eq_false hjb).mp hbkept).1
  rw [AbsoluteDirent.above_spell_iff, AbsoluteDirent.above_spell_iff]
  exact ⟨fun h => hnot ⟨a, b, hia, hjb, h⟩, fun h => hnot' ⟨b, a, hjb, hia, h⟩⟩

/-- A topmost target is above each target. -/
theorem exists_topmost_above {d : AbsoluteDirent} (hd : d ∈ ds) :
    ∃ i a, ds[i]? = some a ∧ Redundant.Topmost (Covers ds) ds.length i ∧ a.place ≤ d.place := by
  obtain ⟨k, hk⟩ := List.mem_iff_getElem?.mp hd
  by_cases htop : Redundant.Topmost (Covers ds) ds.length k
  · exact ⟨k, d, hk, htop, le_rfl⟩
  · simp only [Redundant.Topmost, not_forall, not_not] at htop
    obtain ⟨j, hj, hbeats⟩ := htop
    obtain ⟨m, -, hm, ⟨a, b, ha, hb, hle⟩, -⟩ :=
      (decides_compareTargets ds).exists_topmost hj hbeats
    rw [hk] at hb
    obtain rfl := Option.some.inj hb
    exact ⟨m, a, ha, hm, hle⟩

/-- Where a target is all that is common, none is left. -/
theorem keptTargets_eq_nil {a : AbsoluteDirent} (ha : a ∈ ds) (hcommon : a.spell = common)
    (hbelow : ∀ d ∈ ds, a.place ≤ d.place) : keptTargets true common ds = [] := by
  rw [List.eq_nil_iff_forall_not_mem]
  intro d hd
  obtain ⟨i, hi, htop, hne⟩ := mem_keptTargets.mp hd
  obtain ⟨k, hk⟩ := List.mem_iff_getElem?.mp ha
  have hle := hbelow d (List.mem_of_getElem? hi)
  apply htop k (List.getElem?_eq_some_iff.mp hk).1
  refine ⟨(covers_iff hk hi).mpr hle, ?_⟩
  intro hback
  have hsame : d.place = a.place := le_antisymm ((covers_iff hi hk).mp hback) hle
  refine absurd ?_ hne
  rw [← hcommon, ← d.spellPlace_place, hsame, a.spellPlace_place]

end Kept

theorem condensed_keptTargets (removeRedundancies : Bool) (first : AbsoluteDirent)
    (rest : List AbsoluteDirent) :
    Condensed removeRedundancies (first :: rest)
      (keptTargets removeRedundancies (spellPlace? (commonPlace first rest)) (first :: rest))
      (spellPlace? (commonPlace first rest)) := by
  refine ⟨commonAncestor_commonPlace, keptTargets_sublist removeRedundancies, ?_, ?_, ?_, ?_⟩
  · rintro rfl
    exact keptTargets_all
  · rintro rfl
    exact keptTargets_apart
  · rintro rfl d hd
    obtain ⟨i, -, -, hne⟩ := mem_keptTargets.mp hd
    exact hne
  · rintro rfl
    by_cases hwhole : ∃ a ∈ first :: rest, a.spell = spellPlace? (commonPlace first rest)
    · obtain ⟨a, ha, hcommon⟩ := hwhole
      refine .inr ⟨keptTargets_eq_nil ha hcommon ?_, a, ha, hcommon⟩
      intro d hd
      have hle := commonPlace_le hd
      cases hp : commonPlace first rest with
      | bot =>
        rw [hp] at hcommon
        exact absurd hcommon a.spell_ne_nil
      | coe p =>
        rw [hp] at hcommon hle
        have hsame : spellPlace a.place = spellPlace p := a.spellPlace_place.trans hcommon
        rw [spellPlace_injective a.isPlace (isPlace_of_le hle) hsame]
        exact WithBot.coe_le_coe.mp hle
    · left
      intro d hd
      obtain ⟨i, a, hi, htop, hle⟩ := exists_topmost_above hd
      have hmem := List.mem_of_getElem? hi
      refine ⟨a, mem_keptTargets.mpr ⟨i, hi, htop, ?_⟩, AbsoluteDirent.above_spell_iff.mpr hle⟩
      exact fun hcommon => hwhole ⟨a, hmem, hcommon⟩

/-- The last loop copies the targets that are left. -/
theorem relItems_eq (removeRedundancies : Bool) (common : CStr) (ds : List AbsoluteDirent) :
    (((ds.map AbsoluteDirent.spell).zipIdx.filter fun target =>
        !(removeRedundancies && removedTarget (ds.map AbsoluteDirent.spell) common target.2)).map
          fun target => relItem common target.1) =
      (keptTargets removeRedundancies common ds).map fun d => relItem common d.spell := by
  rw [List.zipIdx_map, List.filter_map, List.map_map, keptTargets, List.map_map]
  rfl

section Targets

variable {merge : CStr → Except Int CStr} {targets : List CStr}

/-- A target that cannot be made absolute ends the call. -/
theorem svnDirentCondenseTargets_error {e : AbsoluteError}
    (h : targets.mapM (svnDirentGetAbsolute merge) = .error e) (wanted removeRedundancies : Bool) :
    svnDirentCondenseTargets merge targets wanted removeRedundancies = .error e := by
  cases targets with
  | nil => cases h
  | cons first rest =>
    rw [svnDirentCondenseTargets]
    obtain hfirst | ⟨⟨absolute, hfirst⟩, hrest⟩ := mapM_cons_eq_error.mp h
    · rw [hfirst]
      rfl
    · have hne : rest ≠ [] := by
        rintro rfl
        cases hrest
      rw [hfirst]
      change (if rest = [] then _ else _) = _
      rw [if_neg hne, foldlM_addTarget_error hrest]
      rfl

/-- The dirents that the targets become. -/
theorem exists_dirents {paths : List CStr} (h : ∀ s ∈ paths, ∃ d : AbsoluteDirent, s = d.spell) :
    ∃ ds : List AbsoluteDirent, paths = ds.map AbsoluteDirent.spell := by
  induction paths with
  | nil => exact ⟨[], rfl⟩
  | cons s paths ih =>
    obtain ⟨d, rfl⟩ := h s List.mem_cons_self
    obtain ⟨ds, rfl⟩ := ih fun s hs => h s (List.mem_cons_of_mem _ hs)
    exact ⟨d :: ds, rfl⟩

theorem svnDirentCondenseTargets_ok {ds : List AbsoluteDirent}
    (h : targets.mapM (svnDirentGetAbsolute merge) = .ok (ds.map AbsoluteDirent.spell))
    (hmany : 2 ≤ targets.length) (wanted removeRedundancies : Bool) :
    ∃ common kept condensed,
      svnDirentCondenseTargets merge targets wanted removeRedundancies =
        .ok (some common, if wanted then some condensed else none) ∧
      Condensed removeRedundancies ds kept common ∧
      condensed.map (svnDirentJoin common) = kept.map AbsoluteDirent.spell ∧
      (common ≠ [] → ∀ item ∈ condensed, svnDirentIsAbsolute item = false) := by
  obtain _ | ⟨target, targets⟩ := targets
  · exact absurd hmany (by simp)
  have hne : targets ≠ [] := by
    rintro rfl
    exact absurd hmany (by simp)
  rw [List.mapM_cons] at h
  cases habsolute : svnDirentGetAbsolute merge target with
  | error e =>
    rw [habsolute] at h
    cases h
  | ok absolute =>
    cases hothers : targets.mapM (svnDirentGetAbsolute merge) with
    | error e =>
      rw [habsolute, hothers] at h
      cases h
    | ok others =>
      rw [habsolute, hothers] at h
      have hmap : absolute :: others = ds.map AbsoluteDirent.spell := Except.ok.inj h
      obtain _ | ⟨first, rest⟩ := ds
      · cases hmap
      rw [List.map_cons, List.cons.injEq] at hmap
      obtain ⟨rfl, rfl⟩ := hmap
      let common := spellPlace? (commonPlace first rest)
      let kept := keptTargets removeRedundancies common (first :: rest)
      have hfold := foldlM_addTarget hothers first.spell [first.spell]
      have hcommon : (rest.map AbsoluteDirent.spell).foldl svnDirentGetLongestAncestor
          first.spell = common := by
        rw [← first.spellPlace_place]
        exact foldl_longestAncestor (a := first) le_rfl rest
      rw [hcommon] at hfold
      have hbelow : ∀ d ∈ kept, commonPlace first rest ≤ d.place :=
        fun d hd => commonPlace_le ((keptTargets_sublist removeRedundancies).mem hd)
      refine ⟨common, kept, kept.map fun d => relItem common d.spell, ?_,
        condensed_keptTargets removeRedundancies first rest, ?_, ?_⟩
      · rw [svnDirentCondenseTargets, habsolute]
        change (if targets = [] then _ else _) = _
        rw [if_neg hne]
        rw [hfold]
        have hitems := relItems_eq removeRedundancies common (first :: rest)
        change Except.ok _ = _
        rw [← hitems]
        rfl
      · rw [List.map_map]
        refine List.map_congr_left ?_
        intro d hd
        exact (join_relItem (hbelow d hd)).1
      · intro hne item hitem
        obtain ⟨d, hd, rfl⟩ := List.mem_map.mp hitem
        exact (join_relItem (hbelow d hd)).2 hne

end Targets

end SharpGit.Svn
