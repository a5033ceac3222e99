import Mathlib.Data.List.Infix
import Mathlib.Data.List.Nodup

namespace SharpGit.Library

variable {α : Type*} [DecidableEq α]

/-- Where the cursor rests after a path: on the path if it rested on its directory, otherwise on
the directory. -/
def cursorNext (cursor path : List α) : List α :=
  if path.dropLast = cursor then path else path.dropLast

/-- The directories of `path` that the cursor is neither at nor below. -/
def introduced (cursor path : List α) : List (List α) :=
  path.dropLast.inits.filter fun dir => ¬dir <+: cursor

def directoryWalk : List α → List (List α) → List (List α)
  | _, [] => []
  | cursor, path :: paths =>
    introduced cursor path ++ path :: directoryWalk (cursorNext cursor path) paths

omit [DecidableEq α] in
theorem prefix_dropLast_iff {dir path : List α} (hp : path ≠ []) :
    dir <+: path.dropLast ↔ dir <+: path ∧ dir ≠ path := by
  constructor
  · intro h
    refine ⟨h.trans (List.dropLast_prefix path), ?_⟩
    intro heq
    subst heq
    have hlen := h.length_le
    have hpos := List.length_pos_iff.mpr hp
    rw [List.length_dropLast] at hlen
    omega
  · intro ⟨⟨rest, hrest⟩, hne⟩
    have hr : rest ≠ [] := by
      intro heq
      subst heq
      exact hne (by rw [← hrest, List.append_nil])
    rw [← hrest, List.dropLast_append_of_ne_nil hr]
    exact List.prefix_append _ _

theorem mem_introduced {cursor path dir : List α} :
    dir ∈ introduced cursor path ↔ dir <+: path.dropLast ∧ ¬dir <+: cursor := by
  simp [introduced]

omit [DecidableEq α] in
theorem inits_nodup (path : List α) : path.inits.Nodup := by
  induction path with
  | nil => simp
  | cons a path ih =>
    rw [List.inits_cons, List.nodup_cons]
    refine ⟨by simp, ?_⟩
    apply ih.map
    exact List.cons_injective

theorem introduced_nodup (cursor path : List α) : (introduced cursor path).Nodup := by
  apply List.Nodup.filter
  exact inits_nodup _

/-- The directories introduced are those below the last common one, in order. -/
theorem introduced_eq {cursor path above below : List α} (hpath : path.dropLast = above ++ below)
    (hcursor : above <+: cursor) (hall : ∀ q, q <+: cursor → q <+: path.dropLast → q <+: above) :
    introduced cursor path = below.inits.tail.map (above ++ ·) := by
  rw [introduced, hpath, List.inits_append, List.filter_append]
  have habove : above.inits.filter (fun dir => ¬dir <+: cursor) = [] := by
    rw [List.filter_eq_nil_iff]
    intro q hq
    simpa using ((List.mem_inits _ _).mp hq).trans hcursor
  have hbelow : (below.inits.tail.map (above ++ ·)).filter (fun dir => ¬dir <+: cursor) =
      below.inits.tail.map (above ++ ·) := by
    rw [List.filter_eq_self]
    intro q hq
    obtain ⟨l, hl, rfl⟩ := List.mem_map.mp hq
    have hinits : below.inits = [] :: below.inits.tail := by cases below <;> rfl
    have hnil : l ≠ [] := by
      intro heq
      subst heq
      exact (List.nodup_cons.mp (hinits ▸ inits_nodup below)).1 hl
    have hpre : l <+: below := (List.mem_inits _ _).mp (List.mem_of_mem_tail hl)
    rw [decide_eq_true_eq]
    intro h
    have hle := (hall _ h (hpath ▸ (List.prefix_append_right_inj above).mpr hpre)).length_le
    have hpos := List.length_pos_iff.mpr hnil
    rw [List.length_append] at hle
    omega
  rw [habove, hbelow, List.nil_append]

theorem dropLast_prefix_cursorNext (cursor path : List α) :
    path.dropLast <+: cursorNext cursor path := by
  by_cases h : path.dropLast = cursor
  · rw [cursorNext, if_pos h]
    exact List.dropLast_prefix path
  · rw [cursorNext, if_neg h]

theorem cursorNext_above_path (cursor path : List α) : cursorNext cursor path <+: path := by
  by_cases h : path.dropLast = cursor
  · rw [cursorNext, if_pos h]
  · rw [cursorNext, if_neg h]
    exact List.dropLast_prefix path

/-- What the walk reports is one of the paths or a directory of one. -/
theorem mem_directoryWalk {cursor : List α} {paths : List (List α)} {q : List α}
    (h : q ∈ directoryWalk cursor paths) : q ∈ paths ∨ ∃ path ∈ paths, q <+: path.dropLast := by
  induction paths generalizing cursor with
  | nil => simp [directoryWalk] at h
  | cons path paths ih =>
    rw [directoryWalk, List.mem_append, List.mem_cons] at h
    obtain h | rfl | h := h
    · exact .inr ⟨path, List.mem_cons_self, (mem_introduced.mp h).1⟩
    · exact .inl List.mem_cons_self
    · obtain h | ⟨other, hother, hq⟩ := ih h
      · exact .inl (List.mem_cons_of_mem _ h)
      · exact .inr ⟨other, List.mem_cons_of_mem _ hother, hq⟩

/-- The paths inside `dir` come first. -/
def InFront (dir : List α) (paths : List (List α)) : Prop :=
  paths.Pairwise fun f g => dir <+: g.dropLast → dir <+: f.dropLast

/-- A directory at or above the cursor whose paths come first is not reported. -/
theorem not_mem_directoryWalk {cursor : List α} {paths : List (List α)} {dir : List α}
    (hdir : dir <+: cursor) (hfront : InFront dir paths) (hnot : dir ∉ paths) :
    dir ∉ directoryWalk cursor paths := by
  induction paths generalizing cursor with
  | nil => simp [directoryWalk]
  | cons path paths ih =>
    obtain ⟨hhead, htail⟩ := List.pairwise_cons.mp hfront
    rw [List.mem_cons, not_or] at hnot
    rw [directoryWalk, List.mem_append, List.mem_cons, not_or, not_or]
    refine ⟨fun h => (mem_introduced.mp h).2 hdir, hnot.1, ?_⟩
    by_cases hin : dir <+: path.dropLast
    · exact ih (hin.trans (dropLast_prefix_cursorNext cursor path)) htail hnot.2
    · intro h
      obtain h | ⟨other, hother, hq⟩ := mem_directoryWalk h
      · exact hnot.2 h
      · exact hin (hhead other hother hq)

/-- A directory that the cursor is not at or below is reported before the first path in it. -/
theorem mem_directoryWalk_of_inside {cursor : List α} {paths : List (List α)} {dir : List α}
    (hdir : ¬dir <+: cursor) (hnot : dir ∉ paths) {path : List α} (hpath : path ∈ paths)
    (hin : dir <+: path.dropLast) (hne : ∀ p ∈ paths, p ≠ []) :
    dir ∈ directoryWalk cursor paths := by
  induction paths generalizing cursor with
  | nil => simp at hpath
  | cons first paths ih =>
    rw [List.mem_cons, not_or] at hnot
    rw [directoryWalk, List.mem_append, List.mem_cons]
    by_cases hfirst : dir <+: first.dropLast
    · exact .inl (mem_introduced.mpr ⟨hfirst, hdir⟩)
    · refine .inr (.inr (ih ?_ hnot.2 ?_ fun p hp => hne p (List.mem_cons_of_mem _ hp)))
      · intro h
        have hpre := h.trans (cursorNext_above_path cursor first)
        exact hfirst ((prefix_dropLast_iff (hne first List.mem_cons_self)).mpr ⟨hpre, hnot.1⟩)
      · obtain rfl | hpath := List.mem_cons.mp hpath
        · exact absurd hin hfirst
        · exact hpath

/-- No path is at or above an earlier one, and the paths inside a directory stand together. -/
def Grouped : List (List α) → Prop
  | [] => True
  | path :: paths =>
    path ≠ [] ∧ (∀ later ∈ paths, ¬later <+: path) ∧
      (∀ dir, dir <+: path.dropLast → InFront dir paths) ∧ Grouped paths

omit [DecidableEq α] in
theorem Grouped.ne_nil {paths : List (List α)} (h : Grouped paths) : ∀ p ∈ paths, p ≠ [] := by
  induction paths with
  | nil => simp
  | cons path paths ih =>
    intro p hp
    obtain rfl | hp := List.mem_cons.mp hp
    · exact h.1
    · exact ih h.2.2.2 p hp

/-- Every path that has others inside it is reached with the cursor on its directory and has one
of them right behind it. -/
def Announced : List α → List (List α) → Prop
  | _, [] => True
  | cursor, path :: paths =>
    ((∃ other ∈ paths, path <+: other.dropLast) →
      path.dropLast = cursor ∧ ∃ next ∈ paths.head?, path <+: next.dropLast) ∧
    Announced (cursorNext cursor path) paths

/-- The first path of a grouped list is not reported again iff it is announced. -/
theorem first_not_reported_iff (cursor : List α) {path : List α} {paths : List (List α)}
    (hg : Grouped (path :: paths)) :
    path ∉ directoryWalk (cursorNext cursor path) paths ↔
      ((∃ other ∈ paths, path <+: other.dropLast) →
        path.dropLast = cursor ∧ ∃ next ∈ paths.head?, path <+: next.dropLast) := by
  obtain ⟨hne, hlater, -, hrest⟩ := hg
  have hnot : path ∉ paths := fun h => hlater path h List.prefix_rfl
  constructor
  · intro hrep ⟨other, hother, hin⟩
    have hcursor : path.dropLast = cursor := by
      by_contra hc
      apply hrep
      refine mem_directoryWalk_of_inside ?_ hnot hother hin hrest.ne_nil
      rw [cursorNext, if_neg hc, prefix_dropLast_iff hne]
      exact fun h => h.2 rfl
    refine ⟨hcursor, ?_⟩
    cases paths with
    | nil => simp at hother
    | cons next paths =>
      refine ⟨next, rfl, ?_⟩
      by_contra hnext
      apply hrep
      rw [directoryWalk, List.mem_append, List.mem_cons]
      refine .inr (.inr ?_)
      rw [List.mem_cons, not_or] at hnot
      refine mem_directoryWalk_of_inside ?_ hnot.2 ?_ hin hrest.2.2.2.ne_nil
      · intro h
        have hpre := h.trans (cursorNext_above_path _ next)
        exact hnext ((prefix_dropLast_iff hrest.1).mpr ⟨hpre, hnot.1⟩)
      · obtain rfl | hother := List.mem_cons.mp hother
        · exact absurd hin hnext
        · exact hother
  · intro h
    by_cases hinside : ∃ other ∈ paths, path <+: other.dropLast
    · obtain ⟨hcursor, next, hhead, hin⟩ := h hinside
      cases paths with
      | nil => simp at hhead
      | cons first paths =>
        obtain rfl : first = next := by simpa using hhead
        refine not_mem_directoryWalk ?_ ?_ hnot
        · rw [cursorNext, if_pos hcursor]
        · exact List.pairwise_cons.mpr ⟨fun _ _ _ => hin, hrest.2.2.1 path hin⟩
    · intro hrep
      obtain hmem | ⟨other, hother, hin⟩ := mem_directoryWalk hrep
      · exact hnot hmem
      · exact hinside ⟨other, hother, hin⟩

/-- A walk over grouped paths reports nothing twice iff every path is announced. -/
theorem directoryWalk_nodup_iff {cursor : List α} {paths : List (List α)} (hg : Grouped paths) :
    (directoryWalk cursor paths).Nodup ↔ Announced cursor paths := by
  induction paths generalizing cursor with
  | nil => simp [directoryWalk, Announced]
  | cons path paths ih =>
    have hfirst := first_not_reported_iff cursor hg
    obtain ⟨hne, hlater, hfront, hrest⟩ := hg
    rw [directoryWalk, List.nodup_append, List.nodup_cons, Announced, hfirst, ih hrest]
    refine ⟨fun h => h.2.1, fun h => ⟨introduced_nodup _ _, h, ?_⟩⟩
    intro dir hdir q hq heq
    subst heq
    have hin := (mem_introduced.mp hdir).1
    obtain ⟨hpre, hproper⟩ := (prefix_dropLast_iff hne).mp hin
    obtain hq | hq := List.mem_cons.mp hq
    · exact hproper hq
    · refine not_mem_directoryWalk (hin.trans (dropLast_prefix_cursorNext cursor path))
        (hfront dir hin) ?_ hq
      exact fun h => hlater dir h hpre

/-- The cursor of a walk from `start` over some paths, given the last of them first. -/
def cursorAfter (start : List α) : List (List α) → List α
  | [] => start
  | path :: earlier => cursorNext (cursorAfter start earlier) path

/-- Whether a path stands where the walk rests on its directory, told from the paths before it,
the last of them first: of siblings in a row every other one does. -/
def Aligned (start : List α) : List (List α) → List α → Prop
  | [], path => path.dropLast = start
  | before :: earlier, path =>
    if path.dropLast = before.dropLast then ¬Aligned start earlier before
    else path.dropLast = before ∧ Aligned start earlier before

theorem aligned_iff {start : List α} {earlier : List (List α)} {path : List α}
    (hne : ∀ p ∈ earlier, p ≠ []) :
    Aligned start earlier path ↔ path.dropLast = cursorAfter start earlier := by
  induction earlier generalizing path with
  | nil => rfl
  | cons before earlier ih =>
    have hbefore := hne before List.mem_cons_self
    have hearlier : Aligned start earlier before ↔ before.dropLast = cursorAfter start earlier := by
      apply ih
      intro p hp
      exact hne p (List.mem_cons_of_mem _ hp)
    have hself : before.dropLast ≠ before := by
      intro h
      have hlen := congrArg List.length h
      have hpos := List.length_pos_iff.mpr hbefore
      rw [List.length_dropLast] at hlen
      omega
    rw [Aligned, cursorAfter, cursorNext, hearlier]
    split_ifs with hsame hrest hrest
    · exact iff_of_false (fun h => h hrest) fun h => hself (hsame.symm.trans h)
    · exact iff_of_true hrest hsame
    · exact and_iff_left hrest
    · exact iff_of_false (fun h => hrest h.2) hsame

/-- Every path with others inside it is aligned and has one of them right behind it. -/
def Announces (start : List α) (paths : List (List α)) : Prop :=
  ∀ earlier path later, paths = earlier ++ path :: later →
    (∃ other ∈ later, path <+: other.dropLast) →
    Aligned start earlier.reverse path ∧ ∃ next ∈ later.head?, path <+: next.dropLast

theorem announced_iff {start : List α} {done paths : List (List α)}
    (hne : ∀ p ∈ done ++ paths, p ≠ []) :
    Announced (cursorAfter start done.reverse) paths ↔
      ∀ earlier path later, paths = earlier ++ path :: later →
        (∃ other ∈ later, path <+: other.dropLast) →
        Aligned start (done ++ earlier).reverse path ∧
          ∃ next ∈ later.head?, path <+: next.dropLast := by
  induction paths generalizing done with
  | nil => simp [Announced]
  | cons first paths ih =>
    have hdone (p : List α) (hp : p ∈ done.reverse) : p ≠ [] :=
      hne p (List.mem_append_left _ (List.mem_reverse.mp hp))
    have hnext : cursorNext (cursorAfter start done.reverse) first =
        cursorAfter start (done ++ [first]).reverse := by
      rw [List.reverse_append]
      rfl
    rw [Announced, hnext, ih (by simpa using hne)]
    constructor
    · intro ⟨hfirst, hrest⟩ earlier path later hsplit hinside
      cases earlier with
      | nil =>
        obtain ⟨rfl, rfl⟩ := List.cons.inj hsplit
        rw [List.append_nil, aligned_iff hdone]
        exact hfirst hinside
      | cons e earlier =>
        obtain ⟨rfl, rfl⟩ := List.cons.inj hsplit
        have h := hrest earlier path later rfl hinside
        rwa [List.append_assoc] at h
    · intro h
      constructor
      · intro hinside
        have hfirst := h [] first paths rfl hinside
        rwa [List.append_nil, aligned_iff hdone] at hfirst
      · intro earlier path later hsplit hinside
        have hrest := h (first :: earlier) path later (by rw [hsplit]; rfl) hinside
        rwa [List.append_assoc]

/-- A walk over grouped paths reports nothing twice iff the paths announce their insides. -/
theorem directoryWalk_nodup {start : List α} {paths : List (List α)} (hg : Grouped paths) :
    (directoryWalk start paths).Nodup ↔ Announces start paths := by
  rw [directoryWalk_nodup_iff hg]
  exact @announced_iff _ _ start [] paths hg.ne_nil

end SharpGit.Library
