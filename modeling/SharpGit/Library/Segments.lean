import Mathlib.Data.List.Basic
import Mathlib.Data.List.Infix

namespace SharpGit.Library

variable {α : Type*} [DecidableEq α]

/-- What a left-to-right scan reads: each piece and whether a separator closed it. A string
that ends in a separator has no empty last piece here. -/
def segments (sep : α) : List α → List (List α × Bool)
  | [] => []
  | c :: cs =>
    if c = sep then ([], true) :: segments sep cs
    else match segments sep cs with
      | [] => [([c], false)]
      | (w, closed) :: rest => (c :: w, closed) :: rest

def spell (sep : α) (segs : List (List α × Bool)) : List α :=
  segs.flatMap fun seg => seg.1 ++ if seg.2 then [sep] else []

/-- Drop one separator from the end, if there is one. -/
def chop (sep : α) (xs : List α) : List α :=
  if xs.getLast? = some sep then xs.dropLast else xs

/-- The pieces that pass `keep`, in order. -/
def names (sep : α) (keep : List α → Bool) (xs : List α) : List (List α) :=
  (xs.splitOn sep).filter keep

theorem splitOn_cons_self (sep : α) (cs : List α) :
    (sep :: cs).splitOn sep = [] :: cs.splitOn sep := by
  simp [List.splitOn_cons_eq_if_modifyHead]

theorem splitOn_cons_ne {sep c : α} (h : c ≠ sep) (cs : List α) :
    (c :: cs).splitOn sep = (cs.splitOn sep).modifyHead (c :: ·) := by
  simp [List.splitOn_cons_eq_if_modifyHead, h]

theorem segments_eq_nil {sep : α} {xs : List α} : segments sep xs = [] ↔ xs = [] := by
  cases xs with
  | nil => simp [segments]
  | cons c cs =>
    simp only [segments]
    split
    · simp
    · split <;> simp

/-- The scan sees the pieces of the string, up to an empty last one. -/
theorem segments_fst (sep : α) (xs : List α) :
    (segments sep xs).map Prod.fst = xs.splitOn sep ∨
      (segments sep xs).map Prod.fst ++ [[]] = xs.splitOn sep := by
  induction xs with
  | nil => exact .inr (by simp [segments])
  | cons c cs ih =>
    by_cases hc : c = sep
    · subst hc
      rw [splitOn_cons_self]
      simpa [segments] using ih
    · rw [splitOn_cons_ne hc]
      cases hs : segments sep cs with
      | nil =>
        have hcs : cs = [] := segments_eq_nil.mp hs
        exact .inl (by simp [segments, hc, hcs])
      | cons seg rest =>
        have hseg : segments sep (c :: cs) = (c :: seg.1, seg.2) :: rest := by
          simp [segments, hc, hs]
        rw [hs] at ih
        obtain ih | ih := ih
        · exact .inl (by rw [hseg, ← ih]; simp)
        · exact .inr (by rw [hseg, ← ih]; simp)

theorem segments_names (sep : α) (keep : List α → Bool) (hk : keep [] = false) (xs : List α) :
    ((segments sep xs).map Prod.fst).filter keep = names sep keep xs := by
  obtain h | h := segments_fst sep xs
  · rw [h, names]
  · rw [names, ← h]
    simp [hk]

theorem not_mem_splitOn {sep : α} {xs w : List α} (h : w ∈ xs.splitOn sep) : sep ∉ w := by
  induction xs generalizing w with
  | nil => simp_all
  | cons c cs ih =>
    by_cases hc : c = sep
    · subst hc
      rw [splitOn_cons_self, List.mem_cons] at h
      obtain rfl | h := h
      · simp
      · exact ih h
    · rw [splitOn_cons_ne hc] at h
      cases hs : cs.splitOn sep with
      | nil => exact absurd hs (List.splitOn_ne_nil sep cs)
      | cons v vs =>
        rw [hs, List.modifyHead_cons, List.mem_cons] at h
        obtain rfl | h := h
        · have hv := ih (w := v) (by simp [hs])
          simp [Ne.symm hc, hv]
        · exact ih (by simp [hs, h])

omit [DecidableEq α] in
theorem intercalate_append {sep : α} {us vs : List (List α)} (hu : us ≠ []) (hv : vs ≠ []) :
    [sep].intercalate (us ++ vs) = [sep].intercalate us ++ sep :: [sep].intercalate vs := by
  induction us with
  | nil => exact absurd rfl hu
  | cons u us ih =>
    cases us with
    | nil => simp [List.intercalate_cons_of_ne_nil hv]
    | cons u' us =>
      have hu' : u' :: us ≠ [] := by simp
      rw [List.cons_append, List.intercalate_cons_of_ne_nil (by simp), ih hu',
        List.intercalate_cons_of_ne_nil hu']
      simp

/-- Where the pieces of a string stand: between its ends and its separators. -/
theorem mem_splitOn_iff {sep : α} {xs w : List α} :
    w ∈ xs.splitOn sep ↔ sep ∉ w ∧
      (xs = w ∨ w ++ [sep] <+: xs ∨ sep :: w <:+ xs ∨ sep :: (w ++ [sep]) <:+: xs) := by
  constructor
  · intro h
    refine ⟨not_mem_splitOn h, ?_⟩
    obtain ⟨as, bs, hs⟩ := List.append_of_mem h
    have hx : [sep].intercalate (xs.splitOn sep) = xs := List.intercalate_splitOn sep
    rw [hs] at hx
    have htail : bs ≠ [] → [sep].intercalate (w :: bs) = w ++ sep :: [sep].intercalate bs :=
      fun hb => by simp [List.intercalate_cons_of_ne_nil hb]
    cases as with
    | nil =>
      cases bs with
      | nil => exact .inl (by simpa using hx.symm)
      | cons b bs =>
        refine .inr (.inl ⟨[sep].intercalate (b :: bs), ?_⟩)
        rw [← hx, List.nil_append, htail (by simp)]
        simp
    | cons a as =>
      rw [intercalate_append (by simp) (by simp)] at hx
      cases bs with
      | nil =>
        exact .inr (.inr (.inl ⟨[sep].intercalate (a :: as), by simpa using hx⟩))
      | cons b bs =>
        rw [htail (by simp)] at hx
        exact .inr (.inr (.inr ⟨[sep].intercalate (a :: as), [sep].intercalate (b :: bs),
          by simpa using hx⟩))
  · rintro ⟨hw, rfl | ⟨b, rfl⟩ | ⟨a, rfl⟩ | ⟨a, b, rfl⟩⟩
    · rw [List.splitOn_eq_singleton hw]
      simp
    · rw [List.append_assoc, List.singleton_append, List.splitOn_append_cons_self,
        List.splitOn_eq_singleton hw]
      simp
    · rw [List.splitOn_append_cons_self, List.splitOn_eq_singleton hw]
      simp
    · rw [List.append_assoc, List.cons_append, List.splitOn_append_cons_self, List.append_assoc,
        List.singleton_append, List.splitOn_append_cons_self, List.splitOn_eq_singleton hw]
      simp

theorem mem_splitOn_within {sep : α} {xs w : List α} (h : w ∈ xs.splitOn sep) : w <:+: xs := by
  obtain ⟨-, rfl | hp | hs | hi⟩ := mem_splitOn_iff.mp h
  · exact List.infix_rfl
  · exact ((List.prefix_append w [sep]).trans hp).isInfix
  · exact ((List.suffix_cons sep w).trans hs).isInfix
  · exact ((List.prefix_append w [sep]).isInfix.trans (List.suffix_cons sep _).isInfix).trans hi

/-- Only the last piece of a scan can be open. -/
theorem segments_closed (sep : α) (xs : List α) :
    (segments sep xs).Pairwise fun seg _ => seg.2 = true := by
  induction xs with
  | nil => exact List.Pairwise.nil
  | cons c cs ih =>
    simp only [segments]
    split
    · exact List.pairwise_cons.mpr ⟨fun _ _ => rfl, ih⟩
    · split
      · simp
      · rename_i w closed rest hs
        rw [hs, List.pairwise_cons] at ih
        exact List.pairwise_cons.mpr ih

theorem chop_append {sep : α} (xs : List α) {ys : List α} (hy : ys ≠ []) :
    chop sep (xs ++ ys) = xs ++ chop sep ys := by
  unfold chop
  rw [List.getLast?_append_of_ne_nil xs hy]
  split
  · rw [List.dropLast_append_of_ne_nil hy]
  · rfl

theorem chop_append_self (sep : α) (xs : List α) : chop sep (xs ++ [sep]) = xs := by
  simp [chop]

theorem chop_of_not_mem {sep : α} {xs : List α} (h : sep ∉ xs) : chop sep xs = xs := by
  rw [chop, if_neg]
  intro hl
  exact h (List.mem_of_getLast? hl)

/-- Spelling out words that are closed up to the last and dropping the last separator joins
them. -/
theorem chop_spell {sep : α} {segs : List (List α × Bool)}
    (hc : segs.Pairwise fun seg _ => seg.2 = true)
    (hw : ∀ seg ∈ segs, seg.1 ≠ [] ∧ sep ∉ seg.1) :
    chop sep (spell sep segs) = [sep].intercalate (segs.map Prod.fst) := by
  induction segs with
  | nil => simp [spell, chop]
  | cons seg rest ih =>
    obtain ⟨w, closed⟩ := seg
    obtain ⟨hne, hsep⟩ := hw (w, closed) (by simp)
    rw [List.pairwise_cons] at hc
    cases rest with
    | nil =>
      cases closed with
      | true => simpa [spell] using chop_append_self sep w
      | false => simpa [spell] using chop_of_not_mem hsep
    | cons seg' rest =>
      have hclosed : closed = true := hc.1 seg' (by simp)
      have hrest := ih hc.2 fun s hs => hw s (List.mem_cons_of_mem _ hs)
      have hspell : spell sep (seg' :: rest) ≠ [] := by
        have := (hw seg' (by simp)).1
        simp [spell, this]
      rw [List.map_cons, List.intercalate_cons_of_ne_nil (by simp), ← hrest, hclosed]
      show chop sep (w ++ [sep] ++ spell sep (seg' :: rest)) = _
      rw [chop_append _ hspell]

section Names

variable {sep : α} {keep : List α → Bool}

theorem names_append (a b : List α) :
    names sep keep (a ++ sep :: b) = names sep keep a ++ names sep keep b := by
  simp [names, List.splitOn_append_cons_self]

theorem names_nil (hk : keep [] = false) : names sep keep [] = [] := by simp [names, hk]

theorem names_append_sep (hk : keep [] = false) (a : List α) :
    names sep keep (a ++ [sep]) = names sep keep a := by
  rw [names_append, names_nil hk, List.append_nil]

theorem names_word {w : List α} (hw : sep ∉ w) :
    names sep keep w = if keep w then [w] else [] := by
  rw [names, List.splitOn_eq_singleton hw, List.filter_singleton]
  cases keep w <;> rfl

theorem mem_names {xs w : List α} (h : w ∈ names sep keep xs) : keep w = true ∧ sep ∉ w := by
  rw [names, List.mem_filter] at h
  exact ⟨h.2, not_mem_splitOn h.1⟩

/-- Names joined by separators read back as themselves. -/
theorem names_intercalate (hk : keep [] = false) {ks : List (List α)}
    (h : ∀ k ∈ ks, keep k = true ∧ sep ∉ k) : names sep keep ([sep].intercalate ks) = ks := by
  cases ks with
  | nil => rw [List.intercalate_nil, names_nil hk]
  | cons k ks =>
    rw [names, List.splitOn_intercalate sep (fun l hl => (h l hl).2) (by simp),
      List.filter_eq_self.mpr fun l hl => (h l hl).1]

/-- The scan that keeps only names, spelled out and chopped, joins the names. -/
theorem chop_spell_names (hk : keep [] = false) (xs : List α) :
    chop sep (spell sep ((segments sep xs).filter fun seg => keep seg.1)) =
      [sep].intercalate (names sep keep xs) := by
  have hmap : ((segments sep xs).filter fun seg => keep seg.1).map Prod.fst =
      names sep keep xs := by
    rw [← segments_names sep keep hk, List.filter_map]
    rfl
  rw [chop_spell ((segments_closed sep xs).filter _), hmap]
  intro seg hseg
  have hmem : seg.1 ∈ names sep keep xs := hmap ▸ List.mem_map_of_mem hseg
  obtain ⟨hkeep, hsep⟩ := mem_names hmem
  refine ⟨?_, hsep⟩
  intro h
  rw [h, hk] at hkeep
  exact Bool.noConfusion hkeep

/-- A string is its own names joined exactly when it is empty or all its pieces are names. -/
theorem intercalate_names_eq_self (hk : keep [] = false) {xs : List α} :
    [sep].intercalate (names sep keep xs) = xs ↔
      xs = [] ∨ ∀ w ∈ xs.splitOn sep, keep w = true := by
  constructor
  · intro h
    cases hn : names sep keep xs with
    | nil => exact .inl (by rw [← h, hn, List.intercalate_nil])
    | cons k ks =>
      apply Or.inr
      intro w hw
      rw [← h, List.splitOn_intercalate sep (fun l hl => (mem_names hl).2) (by simp [hn])] at hw
      exact (mem_names hw).1
  · rintro (rfl | h)
    · rw [names_nil hk, List.intercalate_nil]
    · rw [names, List.filter_eq_self.mpr h, List.intercalate_splitOn]

end Names

omit [DecidableEq α] in
/-- Two pairs joined by a separator are the same text: the pairs are the same, or the part of one
pair goes on behind a separator that is the other pair's own. -/
theorem joined_eq_iff {sep : α} {xs ys xs' ys' : List α} :
    xs ++ sep :: ys = xs' ++ sep :: ys' ↔
      (xs = xs' ∧ ys = ys') ∨ (∃ m, xs' = xs ++ sep :: m ∧ ys = m ++ sep :: ys') ∨
        ∃ m, xs = xs' ++ sep :: m ∧ ys' = m ++ sep :: ys := by
  constructor
  · intro h
    obtain ⟨between, hxs, hys⟩ | ⟨between, hxs, hys⟩ := List.append_eq_append_iff.mp h
    · cases between with
      | nil =>
        rw [List.append_nil] at hxs
        exact .inl ⟨hxs.symm, (List.cons.inj hys).2⟩
      | cons c m =>
        obtain ⟨rfl, hrest⟩ := List.cons.inj hys
        exact .inr (.inl ⟨m, hxs, hrest⟩)
    · cases between with
      | nil =>
        rw [List.append_nil] at hxs
        exact .inl ⟨hxs, (List.cons.inj hys).2.symm⟩
      | cons c m =>
        obtain ⟨rfl, hrest⟩ := List.cons.inj hys
        exact .inr (.inr ⟨m, hxs, hrest⟩)
  · intro h
    obtain ⟨rfl, rfl⟩ | ⟨m, rfl, rfl⟩ | ⟨m, rfl, rfl⟩ := h
    · rfl
    · rw [List.append_assoc, List.cons_append]
    · rw [List.append_assoc, List.cons_append]

end SharpGit.Library
