import SharpGit.Library.Place
import SharpGit.Svn.AbsoluteDirent

namespace SharpGit.Svn

open Library Native

/-- The loop that compares two paths: `i` behind the part they share, and the last separator in
it. -/
def compareFronts (i lastDirsep : Nat) : CStr → CStr → Nat × Nat
  | a :: path1, b :: path2 =>
    if a = b then compareFronts (i + 1) (if a = slash then i else lastDirsep) path1 path2
    else (i, lastDirsep)
  | _, _ => (i, lastDirsep)

/-- `types` only matters in that it is `type_dirent` or not. -/
def getLongestAncestorLength (typeDirent : Bool) (path1 path2 : CStr) : Nat :=
  if path1 = [] ∨ path2 = [] then 0
  else
    let (i, lastDirsep) := compareFronts 0 0 path1 path2
    -- '/' is the longest common ancestor of '/' and '/foo'
    if i = 1 ∧ path1[0]? = some slash ∧ path2[0]? = some slash then 1
    else if typeDirent ∧ i = 0 then 0
    else
      -- the "//" of a UNC path does not count
      let unc := typeDirent && lastDirsep = 1 && path1[0]? = some slash && path1[1]? = some slash
      let lastDirsep := if unc then 0 else lastDirsep
      -- X:/ and X:/foo
      if typeDirent ∧ i = 3 ∧ path1[2]? = some slash ∧ path1[1]? = some colon then i
      -- X: and X:/
      else if typeDirent ∧ (path1[i - 1]? = some colon ∧ path2[i]? = some slash ∨
          path2[i - 1]? = some colon ∧ path1[i]? = some slash) then 0
      -- X: and X:foo
      else if typeDirent ∧ (path1[i - 1]? = some colon ∨ path2[i - 1]? = some colon) then i
      else if i = path1.length ∧ path2[i]? = some slash ∨
          i = path2.length ∧ path1[i]? = some slash ∨ i = path1.length ∧ i = path2.length then i
      else if unc then lastDirsep
      -- X:/foo and X:/bar
      else if typeDirent ∧ lastDirsep = 2 ∧ path1[1]? = some colon ∧ path1[2]? = some slash ∧
          path2[1]? = some colon ∧ path2[2]? = some slash then 3
      else if lastDirsep = 0 ∧ path1[0]? = some slash ∧ path2[0]? = some slash then 1
      else lastDirsep

def svnDirentGetLongestAncestor (dirent1 dirent2 : CStr) : CStr :=
  dirent1.take (getLongestAncestorLength true dirent1 dirent2)

def svnRelpathGetLongestAncestor (relpath1 relpath2 : CStr) : CStr :=
  relpath1.take (getLongestAncestorLength false relpath1 relpath2)

/-- A front that ends where a name of the path ends. -/
def EndsName (front path : CStr) : Prop :=
  ∃ tail, path = front ++ tail ∧ (tail = [] ∨ tail[0]? = some slash)

theorem endsName_append_iff {front tail : CStr} :
    EndsName front (front ++ tail) ↔ tail = [] ∨ tail[0]? = some slash := by
  constructor
  · rintro ⟨tail', htail, hend⟩
    rw [List.append_cancel_left htail]
    exact hend
  · exact fun hend => ⟨tail, rfl, hend⟩

theorem endsName_prepend {a front path : CStr} :
    EndsName (a ++ front) (a ++ path) ↔ EndsName front path := by
  constructor
  · rintro ⟨tail, htail, hend⟩
    rw [List.append_assoc] at htail
    exact ⟨tail, List.append_cancel_left htail, hend⟩
  · rintro ⟨tail, htail, hend⟩
    exact ⟨tail, by rw [htail, List.append_assoc], hend⟩

theorem endsName_both (front s t : CStr) :
    EndsName (commonPrefix (front ++ s) (front ++ t)) (front ++ s) ∧
        EndsName (commonPrefix (front ++ s) (front ++ t)) (front ++ t) ↔
      EndsName (commonPrefix s t) s ∧ EndsName (commonPrefix s t) t := by
  rw [commonPrefix_append]
  exact and_congr endsName_prepend endsName_prepend

theorem dirPart_prepend {front tail : CStr} (h : slash ∈ tail) :
    dirPart (front ++ tail) = front ++ dirPart tail := by
  obtain ⟨dir, k, rfl, hk⟩ := split_last_slash h
  rw [← List.append_assoc, dirPart_split hk, dirPart_split hk]

/-- The first name of a front that holds all of it. -/
theorem firstName_front {front tail : CStr}
    (h : slash ∈ front ∨ tail = [] ∨ tail[0]? = some slash) :
    (front ++ tail).takeWhile (· ≠ slash) = front.takeWhile (· ≠ slash) := by
  by_cases hmem : slash ∈ front
  · obtain ⟨k, rest, rfl, hk⟩ := List.eq_append_cons_of_mem hmem
    rw [List.append_assoc, List.cons_append, takeWhile_word hk (.inr rfl),
      takeWhile_word hk (.inr rfl)]
  · have hself := takeWhile_word hmem (h.resolve_left hmem)
    have hnil := @takeWhile_word front [] hmem (.inl rfl)
    rw [List.append_nil] at hnil
    rw [hself, hnil]

/-- Where the first names differ the paths share no name. -/
theorem commonPrefix_differ {k l x y : CStr} (hk : slash ∉ k) (hl : slash ∉ l) (hne : k ≠ l)
    (hx : x = [] ∨ x[0]? = some slash) (hy : y = [] ∨ y[0]? = some slash) :
    slash ∉ commonPrefix (k ++ x) (l ++ y) ∧
      ¬ (EndsName (commonPrefix (k ++ x) (l ++ y)) (k ++ x) ∧
        EndsName (commonPrefix (k ++ x) (l ++ y)) (l ++ y)) := by
  have hfirst : (k ++ x).takeWhile (· ≠ slash) ≠ (l ++ y).takeWhile (· ≠ slash) := by
    rw [takeWhile_word hk hx, takeWhile_word hl hy]
    exact hne
  constructor
  · intro hmem
    obtain ⟨tail, htail⟩ := commonPrefix_prefix_left (k ++ x) (l ++ y)
    obtain ⟨tail', htail'⟩ := commonPrefix_prefix_right (k ++ x) (l ++ y)
    apply hfirst
    have hleft := @firstName_front _ tail (.inl hmem)
    have hright := @firstName_front _ tail' (.inl hmem)
    rw [htail] at hleft
    rw [htail'] at hright
    rw [hleft, hright]
  · rintro ⟨⟨tail, htail, hend⟩, ⟨tail', htail', hend'⟩⟩
    apply hfirst
    have hleft := @firstName_front (commonPrefix (k ++ x) (l ++ y)) tail (.inr hend)
    have hright := @firstName_front (commonPrefix (k ++ x) (l ++ y)) tail' (.inr hend')
    rw [← htail] at hleft
    rw [← htail'] at hright
    rw [hleft, hright]

theorem AreNames.cons {k : CStr} {ks : List CStr} (h : AreNames (k :: ks)) :
    (k ≠ [] ∧ slash ∉ k) ∧ AreNames ks :=
  ⟨⟨(keepName_iff.mp (h k List.mem_cons_self).1).1, (h k List.mem_cons_self).2⟩,
    fun l hl => h l (List.mem_cons_of_mem _ hl)⟩

/-- A joined list behind its first name. -/
theorem joinNames_split (k : CStr) (ks : List CStr) :
    ∃ x, joinNames (k :: ks) = k ++ x ∧ (x = [] ∨ x[0]? = some slash) := by
  cases ks with
  | nil => exact ⟨[], by rw [joinNames_singleton, List.append_nil], .inl rfl⟩
  | cons l ls => exact ⟨_, joinNames_cons (by simp), .inr rfl⟩

/-- Cut back to where a name ends, the common part of two paths is this path. -/
structure CutsTo (s t path : CStr) : Prop where
  whole : EndsName (commonPrefix s t) s ∧ EndsName (commonPrefix s t) t → commonPrefix s t = path
  inside : ¬ (EndsName (commonPrefix s t) s ∧ EndsName (commonPrefix s t) t) →
    dirPart (commonPrefix s t) = path

theorem CutsTo.symm {s t path : CStr} (h : CutsTo s t path) : CutsTo t s path := by
  obtain ⟨hwhole, hinside⟩ := h
  rw [commonPrefix_comm] at hwhole hinside
  exact ⟨fun hends => hwhole hends.symm, fun hnot => hinside fun hends => hnot hends.symm⟩

theorem cutsTo_nil (t : CStr) : CutsTo [] t [] := by
  refine ⟨fun _ => commonPrefix_nil_left t, fun _ => ?_⟩
  rw [commonPrefix_nil_left]
  rfl

/-- One of two paths with the same first name ends behind it. -/
theorem cutsTo_name (k : CStr) (ls : List CStr) : CutsTo k (joinNames (k :: ls)) k := by
  obtain ⟨y, hy, hend⟩ := joinNames_split k ls
  have hcommon : commonPrefix k (joinNames (k :: ls)) = k := by
    rw [hy]
    conv_lhs => rw [← List.append_nil k, List.append_assoc, commonPrefix_append,
      commonPrefix_nil_left, List.append_nil]
  constructor
  · exact fun _ => hcommon
  · intro hnot
    rw [hcommon] at hnot
    exact absurd ⟨⟨[], (List.append_nil k).symm, .inl rfl⟩, ⟨y, hy, hend⟩⟩ hnot

/-- Both paths go on behind the same first name. -/
theorem CutsTo.below {ks ls : List CStr} (hks : AreNames ks) (hnil : ks ≠ []) (hnil' : ls ≠ [])
    (k : CStr) (h : CutsTo (joinNames ks) (joinNames ls) (joinNames (commonPrefix ks ls))) :
    CutsTo (joinNames (k :: ks)) (joinNames (k :: ls)) (joinNames (k :: commonPrefix ks ls)) := by
  have hfront : ∀ s : CStr, k ++ slash :: s = k ++ [slash] ++ s := by
    intro s
    rw [List.append_assoc, List.singleton_append]
  obtain ⟨tail, htail⟩ := commonPrefix_prefix_left (joinNames ks) (joinNames ls)
  rw [joinNames_cons hnil, joinNames_cons hnil', hfront (joinNames ks), hfront (joinNames ls)]
  constructor
  · rw [commonPrefix_append, endsName_prepend, endsName_prepend]
    intro hends
    have hnext := h.whole hends
    have hne : commonPrefix ks ls ≠ [] := by
      intro hcommon
      rw [hcommon, joinNames_nil] at hnext
      obtain ⟨tail, htail, hend⟩ := hends.1
      rw [hnext, List.nil_append] at htail
      rw [← htail] at hend
      obtain hend | hend := hend
      · exact hnil ((joinNames_eq_nil hks).mp hend)
      · exact joinNames_relative hks hend
    rw [hnext, joinNames_cons hne, hfront (joinNames (commonPrefix ks ls))]
  · rw [commonPrefix_append, endsName_prepend, endsName_prepend]
    intro hnot
    have hnext := h.inside hnot
    by_cases hmem : slash ∈ commonPrefix (joinNames ks) (joinNames ls)
    · have hne : commonPrefix ks ls ≠ [] := by
        intro hcommon
        rw [hcommon, joinNames_nil] at hnext
        obtain ⟨dir, w, hsplit, hw⟩ := split_last_slash hmem
        rw [hsplit, dirPart_split hw] at hnext
        apply joinNames_relative hks
        rw [← htail, hsplit, hnext]
        rfl
      rw [dirPart_prepend hmem, hnext, joinNames_cons hne, hfront (joinNames (commonPrefix ks ls))]
    · have hcommon : commonPrefix ks ls = [] := by
        rw [dirPart_word hmem] at hnext
        have hnames : AreNames (commonPrefix ks ls) := fun n hn =>
          hks n ((commonPrefix_prefix_left ks ls).subset hn)
        exact (joinNames_eq_nil hnames).mp hnext.symm
      rw [hcommon, joinNames_singleton, List.append_assoc, List.singleton_append,
        dirPart_split hmem]

/-- The common part of two joined lists of names cuts to the common names. -/
theorem cutsTo_joinNames {ks ls : List CStr} (hk : AreNames ks) (hl : AreNames ls) :
    CutsTo (joinNames ks) (joinNames ls) (joinNames (commonPrefix ks ls)) := by
  induction ks generalizing ls with
  | nil =>
    rw [joinNames_nil, commonPrefix_nil_left]
    exact cutsTo_nil _
  | cons k ks ih =>
    cases ls with
    | nil =>
      rw [joinNames_nil, commonPrefix_nil_right]
      exact (cutsTo_nil _).symm
    | cons l ls =>
      obtain ⟨⟨-, hkslash⟩, hks⟩ := hk.cons
      obtain ⟨⟨-, hlslash⟩, hls⟩ := hl.cons
      by_cases hkl : k = l
      · subst hkl
        rw [commonPrefix_cons_self]
        by_cases hnil : ks = []
        · rw [hnil, commonPrefix_nil_left, joinNames_singleton]
          exact cutsTo_name k ls
        · by_cases hnil' : ls = []
          · rw [hnil', commonPrefix_nil_right, joinNames_singleton]
            exact (cutsTo_name k ks).symm
          · exact (ih hks hls).below hks hnil hnil' k
      · obtain ⟨x, hx, hxend⟩ := joinNames_split k ks
        obtain ⟨y, hy, hyend⟩ := joinNames_split l ls
        obtain ⟨hmem, hnot⟩ := commonPrefix_differ hkslash hlslash hkl hxend hyend
        rw [hx, hy, commonPrefix_cons_ne hkl, joinNames_nil]
        exact ⟨fun hends => absurd hends hnot, fun _ => dirPart_word hmem⟩

theorem dirPart_cons {c : UInt8} {s : CStr} (h : slash ∈ s) : dirPart (c :: s) = c :: dirPart s :=
  @dirPart_prepend [c] s h

/-- The loop stops behind the common part, with the last separator in it. -/
theorem compareFronts_eq (i lastDirsep : Nat) (s t : CStr) :
    compareFronts i lastDirsep s t = (i + (commonPrefix s t).length,
      if slash ∈ commonPrefix s t then i + (dirPart (commonPrefix s t)).length
      else lastDirsep) := by
  induction s generalizing i lastDirsep t with
  | nil =>
    rw [compareFronts, commonPrefix_nil_left, if_neg List.not_mem_nil]
    · rfl
    · exact fun _ _ _ _ h => absurd h (by simp)
  | cons a s ih =>
    cases t with
    | nil =>
      rw [compareFronts, commonPrefix_nil_right, if_neg List.not_mem_nil]
      · rfl
      · exact fun _ _ _ _ _ h => absurd h (by simp)
    | cons b t =>
      by_cases hab : a = b
      · subst hab
        rw [compareFronts, if_pos rfl, ih, commonPrefix_cons_self, List.length_cons]
        congr 1
        · omega
        · by_cases hmem : slash ∈ commonPrefix s t
          · rw [if_pos hmem, if_pos (List.mem_cons_of_mem _ hmem), dirPart_cons hmem,
              List.length_cons]
            omega
          · rw [if_neg hmem]
            by_cases ha : a = slash
            · have hdir : dirPart (slash :: commonPrefix s t) = [] := @dirPart_split [] _ hmem
              rw [ha, if_pos rfl, if_pos List.mem_cons_self, hdir]
              rfl
            · have hnot : slash ∉ a :: commonPrefix s t := by
                intro hin
                obtain heq | hin := List.mem_cons.mp hin
                · exact ha heq.symm
                · exact hmem hin
              rw [if_neg ha, if_neg hnot]
      · rw [compareFronts, if_neg hab, commonPrefix_cons_ne hab, if_neg List.not_mem_nil]
        rfl

theorem compareFronts_start (s t : CStr) :
    compareFronts 0 0 s t = ((commonPrefix s t).length, (dirPart (commonPrefix s t)).length) := by
  rw [compareFronts_eq, Nat.zero_add]
  split
  case isTrue => rw [Nat.zero_add]
  case isFalse hmem => rw [dirPart_word hmem, List.length_nil]

/-- The test of the code for a common part that is one of the paths. -/
theorem endsName_iff (s t : CStr) :
    (commonPrefix s t).length = s.length ∧ t[(commonPrefix s t).length]? = some slash ∨
        (commonPrefix s t).length = t.length ∧ s[(commonPrefix s t).length]? = some slash ∨
        (commonPrefix s t).length = s.length ∧ (commonPrefix s t).length = t.length ↔
      EndsName (commonPrefix s t) s ∧ EndsName (commonPrefix s t) t := by
  obtain ⟨s', t', hs, ht, hdiffer⟩ := commonPrefix_split s t
  generalize commonPrefix s t = front at *
  subst hs ht
  have hlength : ∀ x : CStr, front.length = (front ++ x).length ↔ x = [] := by
    intro x
    rw [List.length_append, ← List.length_eq_zero_iff]
    omega
  have hnext : ∀ x : CStr, (front ++ x)[front.length]? = x[0]? := by
    intro x
    rw [List.getElem?_append_right (Nat.le_refl _), Nat.sub_self]
  rw [hlength, hlength, hnext, hnext, endsName_append_iff, endsName_append_iff]
  constructor
  · rintro (⟨hs, ht⟩ | ⟨ht, hs⟩ | ⟨hs, ht⟩)
    · exact ⟨.inl hs, .inr ht⟩
    · exact ⟨.inr hs, .inl ht⟩
    · exact ⟨.inl hs, .inl ht⟩
  · rintro ⟨hs | hs, ht | ht⟩
    · exact .inr (.inr ⟨hs, ht⟩)
    · exact .inl ⟨hs, ht⟩
    · exact .inr (.inl ⟨ht, hs⟩)
    · obtain hnil | hnil | hne := commonPrefix_eq_nil hdiffer
      · exact .inr (.inl (by simp [hnil] at hs))
      · exact .inl (by simp [hnil] at ht)
      · exact absurd (hs.trans ht.symm) hne

theorem take_common (s t : CStr) : s.take (commonPrefix s t).length = commonPrefix s t :=
  (List.prefix_iff_eq_take.mp (commonPrefix_prefix_left s t)).symm

theorem dirPart_front (s : CStr) : dirPart s <+: s := by
  by_cases hne : s = []
  · subst hne
    exact List.nil_prefix
  · obtain ⟨tail, -, htail⟩ := dirPart_append hne
    exact ⟨tail, htail.symm⟩

theorem take_dirPart (s t : CStr) :
    s.take (dirPart (commonPrefix s t)).length = dirPart (commonPrefix s t) :=
  (List.prefix_iff_eq_take.mp
    ((dirPart_front _).trans (commonPrefix_prefix_left s t))).symm

/-- Two paths that are not dirents. -/
theorem CutsTo.take_plain {s t path : CStr} (h : CutsTo s t path) (hhead : s[0]? ≠ some slash) :
    s.take (getLongestAncestorLength false s t) = path := by
  rw [getLongestAncestorLength]
  split
  case isTrue hempty =>
    have hcommon : commonPrefix s t = [] := by
      obtain rfl | rfl := hempty
      · exact commonPrefix_nil_left t
      · exact commonPrefix_nil_right s
    by_cases hends : EndsName (commonPrefix s t) s ∧ EndsName (commonPrefix s t) t
    · rw [← h.whole hends, hcommon, List.take_zero]
    · rw [← h.inside hends, hcommon, List.take_zero]
      rfl
  case isFalse =>
    rw [compareFronts_start]
    simp only [hhead, false_and, and_false, if_false, Bool.false_and, Bool.false_eq_true]
    split
    case isTrue hends => rw [take_common, h.whole ((endsName_iff s t).mp hends)]
    case isFalse hends =>
      rw [take_dirPart, h.inside fun hboth => hends ((endsName_iff s t).mpr hboth)]

/-- Dirents whose first bytes differ share nothing. -/
theorem svnDirentGetLongestAncestor_differ {a b : UInt8} (hne : a ≠ b) (s t : CStr) :
    svnDirentGetLongestAncestor (a :: s) (b :: t) = [] := by
  have hlength : getLongestAncestorLength true (a :: s) (b :: t) = 0 := by
    rw [getLongestAncestorLength, if_neg (by simp), compareFronts_start, commonPrefix_cons_ne hne]
    simp
  rw [svnDirentGetLongestAncestor, hlength, List.take_zero]

/-- Where two dirents part inside a name. -/
def partedLength (s t : CStr) (lastDirsep : Nat) : Nat :=
  if lastDirsep = 1 ∧ s[0]? = some slash ∧ s[1]? = some slash then 0
  else if lastDirsep = 2 ∧ s[1]? = some colon ∧ s[2]? = some slash ∧ t[1]? = some colon ∧
      t[2]? = some slash then 3
  else if lastDirsep = 0 ∧ s[0]? = some slash ∧ t[0]? = some slash then 1
  else lastDirsep

/-- The length where none of the special cases applies. -/
theorem getLongestAncestorLength_dirent {s t : CStr} (hs : s ≠ []) (ht : t ≠ [])
    (hlong : 2 ≤ (commonPrefix s t).length)
    (hdrive : (commonPrefix s t).length = 3 → s[2]? ≠ some slash)
    (hscolon : s[(commonPrefix s t).length - 1]? ≠ some colon)
    (htcolon : t[(commonPrefix s t).length - 1]? ≠ some colon) :
    (EndsName (commonPrefix s t) s ∧ EndsName (commonPrefix s t) t →
        getLongestAncestorLength true s t = (commonPrefix s t).length) ∧
      (¬ (EndsName (commonPrefix s t) s ∧ EndsName (commonPrefix s t) t) →
        getLongestAncestorLength true s t =
          partedLength s t (dirPart (commonPrefix s t)).length) := by
  have hends := endsName_iff s t
  have hone : ¬ ((commonPrefix s t).length = 1 ∧ s[0]? = some slash ∧ t[0]? = some slash) := by
    omega
  have hzero : ¬ (commonPrefix s t).length = 0 := by omega
  have hdrive' : ¬ ((commonPrefix s t).length = 3 ∧ s[2]? = some slash ∧ s[1]? = some colon) :=
    fun h => hdrive h.1 h.2.1
  have heval : getLongestAncestorLength true s t =
      if (commonPrefix s t).length = s.length ∧ t[(commonPrefix s t).length]? = some slash ∨
        (commonPrefix s t).length = t.length ∧ s[(commonPrefix s t).length]? = some slash ∨
        (commonPrefix s t).length = s.length ∧ (commonPrefix s t).length = t.length then
        (commonPrefix s t).length
      else partedLength s t (dirPart (commonPrefix s t)).length := by
    rw [getLongestAncestorLength, if_neg (by simp [hs, ht]), compareFronts_start]
    simp only [hone, hzero, hdrive', hscolon, htcolon, if_false, and_false, false_and, false_or,
      true_and, Bool.true_and, Bool.and_eq_true, decide_eq_true_eq, and_assoc, partedLength]
    by_cases hunc :
        (dirPart (commonPrefix s t)).length = 1 ∧ s[0]? = some slash ∧ s[1]? = some slash
    · simp only [hunc, true_and, and_self, if_true]
    · simp only [hunc, if_false]
  constructor
  · intro h
    rw [heval, if_pos (hends.mpr h)]
  · intro h
    rw [heval, if_neg fun h' => h (hends.mp h')]

/-- What follows a root: no separator in front, and no ':'. -/
structure BehindRoot (s : CStr) : Prop where
  head : s[0]? ≠ some slash
  no_colon : colon ∉ s

/-- The last byte of what two such paths share is no ':'. -/
theorem no_colon_shared {front s t : CStr} (hs : colon ∉ s) (hne : commonPrefix s t ≠ []) :
    (front ++ s)[(front ++ commonPrefix s t).length - 1]? ≠ some colon := by
  obtain ⟨tail, htail⟩ := commonPrefix_prefix_left s t
  have hpos := List.length_pos_of_ne_nil hne
  intro h
  rw [List.length_append, List.getElem?_append_right (by omega)] at h
  exact hs (List.mem_of_getElem? h)

theorem CutsTo.eq_nil {s t path : CStr} (h : CutsTo s t path) (hnil : commonPrefix s t = []) :
    path = [] := by
  by_cases hends : EndsName (commonPrefix s t) s ∧ EndsName (commonPrefix s t) t
  · rw [← h.whole hends, hnil]
  · rw [← h.inside hends, hnil]
    rfl

/-- Dirents on one drive. -/
theorem CutsTo.take_drive {s t path : CStr} (h : CutsTo s t path) (hs : BehindRoot s)
    (ht : BehindRoot t) (c : UInt8) :
    svnDirentGetLongestAncestor (c :: colon :: slash :: s) (c :: colon :: slash :: t) =
      c :: colon :: slash :: path := by
  have hcommon : commonPrefix (c :: colon :: slash :: s) (c :: colon :: slash :: t) =
      [c, colon, slash] ++ commonPrefix s t := commonPrefix_append [c, colon, slash] s t
  by_cases hnil : commonPrefix s t = []
  · have hlength : getLongestAncestorLength true (c :: colon :: slash :: s)
        (c :: colon :: slash :: t) = 3 := by
      rw [getLongestAncestorLength, if_neg (by simp), compareFronts_start, hcommon, hnil]
      simp
    rw [svnDirentGetLongestAncestor, hlength, h.eq_nil hnil]
    rfl
  · have hpos := List.length_pos_of_ne_nil hnil
    have hlength : (commonPrefix (c :: colon :: slash :: s) (c :: colon :: slash :: t)).length =
        3 + (commonPrefix s t).length := by
      rw [hcommon, List.length_append]
      rfl
    obtain ⟨hwhole, hinside⟩ := @getLongestAncestorLength_dirent (c :: colon :: slash :: s)
      (c :: colon :: slash :: t) (by simp) (by simp) (by omega) (by omega)
      (hcommon ▸ @no_colon_shared [c, colon, slash] s t hs.no_colon hnil)
      (by
        rw [hcommon, commonPrefix_comm]
        rw [commonPrefix_comm] at hnil
        exact @no_colon_shared [c, colon, slash] t s ht.no_colon hnil)
    have hends := endsName_both [c, colon, slash] s t
    simp only [List.cons_append, List.nil_append] at hends
    rw [svnDirentGetLongestAncestor]
    by_cases hboth : EndsName (commonPrefix s t) s ∧ EndsName (commonPrefix s t) t
    · rw [hwhole (hends.mpr hboth), take_common, hcommon, h.whole hboth]
      rfl
    · rw [hinside fun h' => hboth (hends.mp h'), ← h.inside hboth]
      by_cases hmem : slash ∈ commonPrefix s t
      · have hdir := @dirPart_prepend [c, colon, slash] _ hmem
        rw [← hcommon] at hdir
        have hlast : (dirPart (commonPrefix (c :: colon :: slash :: s)
            (c :: colon :: slash :: t))).length = 3 + (dirPart (commonPrefix s t)).length := by
          rw [hdir, List.length_append]
          rfl
        rw [partedLength, if_neg (by omega), if_neg (by omega), if_neg (by omega), take_dirPart,
          hdir]
        rfl
      · have hdir : dirPart (commonPrefix (c :: colon :: slash :: s)
            (c :: colon :: slash :: t)) = [c, colon] := by
          rw [hcommon]
          exact @dirPart_split [c, colon] _ hmem
        rw [hdir, dirPart_word hmem]
        rfl

/-- UNC dirents: the "//" is only an ancestor with a name behind it. -/
theorem CutsTo.take_unc {s t path : CStr} (h : CutsTo s t path) (hs : BehindRoot s)
    (ht : BehindRoot t) (hsne : s ≠ []) :
    svnDirentGetLongestAncestor (slash :: slash :: s) (slash :: slash :: t) =
      if path = [] then [] else slash :: slash :: path := by
  have hcommon : commonPrefix (slash :: slash :: s) (slash :: slash :: t) =
      [slash, slash] ++ commonPrefix s t := commonPrefix_append [slash, slash] s t
  have hlength : (commonPrefix (slash :: slash :: s) (slash :: slash :: t)).length =
      2 + (commonPrefix s t).length := by
    rw [hcommon, List.length_append]
    rfl
  have hnocolon : ∀ x y : CStr, colon ∉ x →
      (slash :: slash :: x)[([slash, slash] ++ commonPrefix x y).length - 1]? ≠ some colon := by
    intro x y hx
    by_cases hnil : commonPrefix x y = []
    · rw [hnil]
      exact fun h => absurd (Option.some.inj h) (by decide)
    · exact @no_colon_shared [slash, slash] x y hx hnil
  obtain ⟨hwhole, hinside⟩ := @getLongestAncestorLength_dirent (slash :: slash :: s)
    (slash :: slash :: t) (by simp) (by simp) (by omega) (fun _ => hs.head)
    (hcommon ▸ hnocolon s t hs.no_colon)
    (by
      rw [hcommon, commonPrefix_comm]
      exact hnocolon t s ht.no_colon)
  have hends := endsName_both [slash, slash] s t
  simp only [List.cons_append, List.nil_append] at hends
  rw [svnDirentGetLongestAncestor]
  by_cases hboth : EndsName (commonPrefix s t) s ∧ EndsName (commonPrefix s t) t
  · have hne : path ≠ [] := by
      intro hpath
      obtain ⟨tail, htail, hend⟩ := hboth.1
      rw [h.whole hboth, hpath, List.nil_append] at htail
      rw [← htail] at hend
      obtain hend | hend := hend
      · exact hsne hend
      · exact hs.head hend
    rw [hwhole (hends.mpr hboth), take_common, hcommon, h.whole hboth, if_neg hne]
    rfl
  · rw [hinside fun h' => hboth (hends.mp h'), ← h.inside hboth]
    by_cases hmem : slash ∈ commonPrefix s t
    · have hdir := @dirPart_prepend [slash, slash] _ hmem
      rw [← hcommon] at hdir
      have hne : dirPart (commonPrefix s t) ≠ [] := by
        intro hnil
        obtain ⟨tail, htail⟩ := commonPrefix_prefix_left s t
        obtain ⟨dir, k, hsplit, hk⟩ := split_last_slash hmem
        rw [hsplit, dirPart_split hk] at hnil
        apply hs.head
        rw [← htail, hsplit, hnil]
        rfl
      have hpos := List.length_pos_of_ne_nil hne
      have hlast : (dirPart (commonPrefix (slash :: slash :: s) (slash :: slash :: t))).length =
          2 + (dirPart (commonPrefix s t)).length := by
        rw [hdir, List.length_append]
        rfl
      rw [partedLength, if_neg (by omega), if_neg (by omega), if_neg (by omega), take_dirPart, hdir,
        if_neg hne]
      rfl
    · have hdir : dirPart (commonPrefix (slash :: slash :: s) (slash :: slash :: t)) = [slash] := by
        rw [hcommon]
        exact @dirPart_split [slash] _ hmem
      rw [hdir, dirPart_word hmem]
      rfl

end SharpGit.Svn
