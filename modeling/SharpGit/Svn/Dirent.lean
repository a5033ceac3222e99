import SharpGit.Svn.Canonicalize

namespace SharpGit.Svn

open Library Native

/-- Length of the absolute or non-absolute root of `dirent`. -/
def direntRootLength (dirent : CStr) : Nat :=
  let len := dirent.length
  if 2 ≤ len ∧ dirent[1]? = some colon ∧ dirent[0]?.any isLetter then
    if 2 < len ∧ dirent[2]? = some slash then 3 else 2
  else if 2 < len ∧ dirent[0]? = some slash ∧ dirent[1]? = some slash then
    let i := 2 + ((dirent.drop 2).takeWhile (· ≠ slash)).length
    if i = len then len
    else i + 1 + ((dirent.drop (i + 1)).takeWhile (· ≠ slash)).length
  else if 1 ≤ len ∧ dirent[0]? = some slash then 1
  else 0

/-- Absolute, or with a non-absolute root: "/" or "F:". -/
def direntIsRooted (dirent : CStr) : Bool :=
  dirent[0]? = some slash || (dirent[0]?.any isLetter && dirent[1]? = some colon)

def svnDirentIsAbsolute (dirent : CStr) : Bool :=
  (dirent[0]? = some slash && dirent[1]? = some slash) ||
    (dirent[0]?.any isUpper && dirent[1]? = some colon && dirent[2]? = some slash)

def joinWithSeparator (base component : CStr) : CStr :=
  if base.getLast? = some slash ∨ base.getLast? = some colon then base ++ component
  else base ++ slash :: component

/-- The assertions that both are canonical are not part of a release build. -/
def svnDirentJoin (base component : CStr) : CStr :=
  if svnDirentIsAbsolute component then component
  else if base = [] then component
  else if component = [] then base
  else if component[0]? = some slash then
    if direntIsRooted base then
      -- drive relative: the component goes under the root of the base
      let blen := direntRootLength base
      let root :=
        if blen = 2 ∧ base[1]? = some colon then base.take 2 ++ [slash] else base.take blen
      if component.tail = [] then root else joinWithSeparator root component.tail
    else component
  else if direntIsRooted component then component
  else joinWithSeparator base component

def svnDirentInternalStyle (dirent : CStr) : CStr := svnDirentCanonicalize (internalStyle dirent)

def svnDirentLocalStyle (dirent : CStr) : CStr :=
  if dirent = [] then [dot] else dirent.map fun c => if c = slash then backslash else c

/-- The rest of `child` below `parent`, `none` where the C code returns NULL. -/
def svnDirentSkipAncestor (parent child : CStr) : Option CStr :=
  let len := parent.length
  if child.take len ≠ parent then none
  else
    match child[len]? with
    | none => some []
    | some c =>
      let rootLen := direntRootLength child
      if len < rootLen then none
      else if c = slash then some (child.drop (len + 1))
      else if rootLen = len then some (child.drop len)
      else none

def svnRelpathSkipAncestor (parent child : CStr) : Option CStr :=
  let len := parent.length
  if len = 0 then some child
  else if child.take len ≠ parent then none
  else
    match child[len]? with
    | none => some []
    | some c => if c = slash then some (child.drop (len + 1)) else none

/-- Below a non-empty parent, the rest of a child is what follows the separator. -/
theorem svnRelpathSkipAncestor_eq_some {parent child rest : CStr} (hp : parent ≠ []) :
    svnRelpathSkipAncestor parent child = some rest ↔
      (child = parent ∧ rest = []) ∨ child = parent ++ slash :: rest := by
  have hlen : parent.length ≠ 0 := fun h => hp (List.length_eq_zero_iff.mp h)
  unfold svnRelpathSkipAncestor
  dsimp only
  rw [if_neg hlen]
  by_cases hpre : parent <+: child
  · obtain ⟨tail, rfl⟩ := hpre
    rw [if_neg (by simp)]
    cases tail with
    | nil =>
      simp only [List.append_nil, List.getElem?_length, Option.some_inj]
      simp
    | cons c tail => by_cases hc : c = slash <;> simp [hc]
  · have htake : child.take parent.length ≠ parent := fun h => hpre (h ▸ List.take_prefix _ _)
    rw [if_pos htake]
    apply iff_of_false (by simp)
    intro h
    obtain ⟨rfl, -⟩ | rfl := h
    · exact hpre List.prefix_rfl
    · exact hpre (List.prefix_append _ _)

theorem svnRelpathSkipAncestor_isSome {parent child : CStr} (hp : parent ≠ []) :
    (svnRelpathSkipAncestor parent child).isSome = true ↔
      child = parent ∨ parent ++ [slash] <+: child := by
  simp only [Option.isSome_iff_exists, svnRelpathSkipAncestor_eq_some hp]
  constructor
  · intro ⟨rest, h⟩
    obtain ⟨h, -⟩ | h := h
    · exact .inl h
    · exact .inr ⟨rest, by simp [h]⟩
  · intro h
    obtain h | ⟨rest, h⟩ := h
    · exact ⟨[], .inl ⟨h, rfl⟩⟩
    · exact ⟨rest, .inr (by simp [← h])⟩

/-- Count down from `len` to the first position where `stop` holds, or to 0. -/
def scanBack (stop : Nat → Bool) : Nat → Nat
  | 0 => 0
  | len + 1 => if stop (len + 1) then len + 1 else scanBack stop len

def direntPreviousSegment (dirent : CStr) (len : Nat) : Nat :=
  if len = 0 then 0
  else
    let len := scanBack
      (fun i => dirent[i]? = some slash || (dirent[i]? = some colon && i = 1)) (len - 1)
    -- the rest may be a root with its separator
    if direntRootLength (dirent.take (len + 1)) = len + 1 then len + 1 else len

def svnDirentDirname (dirent : CStr) : CStr :=
  let len := dirent.length
  if len = direntRootLength dirent then dirent
  else dirent.take (direntPreviousSegment dirent len)

def relpathPreviousSegment (relpath : CStr) (len : Nat) : Nat :=
  if len = 0 then 0 else scanBack (fun i => relpath[i]? = some slash) (len - 1)

def svnRelpathDirname (relpath : CStr) : CStr :=
  relpath.take (relpathPreviousSegment relpath relpath.length)

def svnDirentIsRoot (dirent : CStr) : Bool :=
  let len := dirent.length
  if (len = 2 ∨ (len = 3 ∧ dirent[2]? = some slash)) ∧ dirent[1]? = some colon ∧
      dirent[0]?.any isLetter then true
  else if 2 ≤ len ∧ dirent[0]? = some slash ∧ dirent[1]? = some slash ∧
      dirent[len - 1]? ≠ some slash then
    decide ((dirent.drop 2).count slash = 1)
  else len = 1 && dirent[0]? = some slash

end SharpGit.Svn
