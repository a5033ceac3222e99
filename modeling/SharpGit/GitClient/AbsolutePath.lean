import SharpGit.GitClient.NormalizedPath

namespace SharpGit.GitClient.GitTools

open Library Native

/-- Whether a "." or ".." begins at `i` that a separator or the end follows. -/
def isDotName (path : NetString) (i : Nat) : Except GitToolsException Bool := do
  if (← charAt path i) = dot then
    let j := if path[i + 1]? = some dot then i + 2 else i + 1
    if j ≥ path.length then return true else isSeparator path j
  else return false

/-- A turn of the loop over the names: what it returns, or where the next name begins. -/
def absoluteTurn (invalidMap : List Bool) (path : NetString) (i : Nat) :
    Except GitToolsException (Bool ⊕ Nat) := do
  if ← isSeparator path i then return .inl false
  else if ← isDotName path i then return .inl false
  else
    let n := i
    let i := scan (fun i => path[i]?.any fun c =>
      !isInvalid invalidMap c && !(c = backslash || c = slash)) (path.length - n) n
    if n = i then return .inl false
    else if i = path.length then return .inl true
    else if !(← isSeparator path i) then return .inl false
    else if i + 1 = path.length then return .inl false
    else return .inr (i + 1)

/-- The loop; each turn moves `i`. -/
def absoluteLoop (invalidMap : List Bool) (path : NetString) :
    Nat → Nat → Except GitToolsException Bool
  | 0, _ => return true
  | turns + 1, i =>
    if i < path.length then do
      match ← absoluteTurn invalidMap path i with
      | .inl result => return result
      | .inr next => absoluteLoop invalidMap path turns next
    else return true

/-- What follows the share name of a UNC path, which begins at `n` and ends at `i`. -/
def absoluteAfterShare (invalidMap : List Bool) (path : NetString) (n i : Nat) :
    Except GitToolsException Bool := do
  if i = path.length then return i ≠ n
  else if i = n then return false
  else if !(← isSeparator path i) then return false
  else if i + 1 = path.length then return false
  else absoluteLoop invalidMap path (path.length - (i + 1)) (i + 1)

/-- What follows the host name of a UNC path, which ends at `i`. -/
def absoluteShare (unicode : UnicodeData) (invalidMap : List Bool) (path : NetString) (i : Nat) :
    Except GitToolsException Bool := do
  if i = 2 then return false
  else if i = path.length then return false
  else if !(← isSeparator path i) then return false
  else
    let n := i + 1
    let i := scan (fun i => isLetterOrDigit unicode path i || path[i]?.any shareChars.contains)
      (path.length - n) n
    absoluteAfterShare invalidMap path n i

def isAbsolutePath (unicode : UnicodeData) (invalidPathChars : List UInt16) (path : NetString) :
    Except GitToolsException Bool := do
  let invalidMap := invalidCharMap invalidPathChars
  if path = [] then .error (.argumentNull "path")
  else if path.length < 3 then return false
  else if ← isSeparator path 0 then
    if !(← isSeparator path 1) then return false
    else
      let i := scan (fun i => isLetterOrDigit unicode path i || path[i]?.any hostChars.contains)
        (path.length - 2) 2
      absoluteShare unicode invalidMap path i
  else if (← charAt path 1) ≠ colon then return false
  else if !(← isSeparator path 2) then return false
  else
    let letter ← charAt path 0
    if !(isUpper letter || isLower letter) then return false
    else absoluteLoop invalidMap path (path.length - 3) 3

abbrev Separator (c : UInt16) : Prop := c = backslash ∨ c = slash

/-- A component of an absolute path. -/
structure PathName (invalid : List UInt16) (name : NetString) : Prop where
  nonempty : name ≠ []
  valid : ∀ c ∈ name, c ∉ invalid ∧ ¬Separator c
  notDot : name ≠ [dot]
  notDotDot : name ≠ [dot, dot]

/-- One or more components, joined by single separators. -/
inductive PathNames (invalid : List UInt16) : NetString → Prop
  | last {name : NetString} (h : PathName invalid name) : PathNames invalid name
  | more {name rest : NetString} {sep : UInt16} (h : PathName invalid name)
      (hsep : Separator sep) (hrest : PathNames invalid rest) :
      PathNames invalid (name ++ sep :: rest)

/-- A drive with its components, or a share with its components. -/
inductive AbsolutePath (unicode : UnicodeData) (invalid : List UInt16) : NetString → Prop
  | drive {letter sep : UInt16} {rest : NetString}
      (hletter : isUpper letter = true ∨ isLower letter = true) (hsep : Separator sep)
      (hrest : rest = [] ∨ PathNames invalid rest) :
      AbsolutePath unicode invalid (letter :: colon :: sep :: rest)
  | share {first second sep : UInt16} {host share rest : NetString} (hfirst : Separator first)
      (hsecond : Separator second) (hhost : host ≠ [])
      (hhostChars : ∀ c ∈ host, WordChar unicode hostChars c) (hsep : Separator sep)
      (hshare : share ≠ []) (hshareChars : ∀ c ∈ share, WordChar unicode shareChars c)
      (hrest : rest = [] ∨
        ∃ sep names, rest = sep :: names ∧ Separator sep ∧ PathNames invalid names) :
      AbsolutePath unicode invalid (first :: second :: host ++ sep :: share ++ rest)

variable {invalidMap : List Bool} {invalid : List UInt16} {unicode : UnicodeData}

def separator (c : UInt16) : Bool := c = backslash || c = slash

@[simp] theorem separator_iff (c : UInt16) : separator c = true ↔ Separator c := by
  simp [separator]

def inPathName (invalidMap : List Bool) (c : UInt16) : Bool :=
  !isInvalid invalidMap c && !separator c

theorem inPathName_iff (c : UInt16) :
    inPathName (invalidCharMap invalid) c = true ↔ c ∉ invalid ∧ ¬Separator c := by
  rw [inPathName, Bool.and_eq_true, Bool.not_eq_true', Bool.not_eq_true', ← Bool.not_eq_true,
    ← Bool.not_eq_true, isInvalid_iff, separator_iff]

theorem inPathName_separator {c : UInt16} (h : Separator c) :
    inPathName invalidMap c = false := by
  rw [inPathName, (separator_iff c).mpr h, Bool.not_true, Bool.and_false]

def pathNameOf (invalidMap : List Bool) (rest : NetString) : NetString :=
  rest.takeWhile (inPathName invalidMap)

def afterPathName (invalidMap : List Bool) (rest : NetString) : NetString :=
  rest.dropWhile (inPathName invalidMap)

theorem pathNameOf_append_after (rest : NetString) :
    pathNameOf invalidMap rest ++ afterPathName invalidMap rest = rest :=
  List.takeWhile_append_dropWhile

/-- The end, or a separator with what follows it. -/
abbrev AtBoundary (tail : NetString) : Prop := ∀ c ∈ tail.head?, Separator c

theorem atBoundary_nil : AtBoundary [] := fun _ h => by cases h

theorem atBoundary_cons {sep : UInt16} (h : Separator sep) (tail : NetString) :
    AtBoundary (sep :: tail) := by
  intro c hc
  rw [List.head?_cons, Option.mem_some_iff] at hc
  rw [← hc]
  exact h

theorem pathNameOf_append {name tail : NetString}
    (hname : ∀ c ∈ name, inPathName invalidMap c = true) (htail : AtBoundary tail) :
    pathNameOf invalidMap (name ++ tail) = name ∧
      afterPathName invalidMap (name ++ tail) = tail := by
  rw [pathNameOf, afterPathName, List.takeWhile_append_of_pos hname,
    List.dropWhile_append_of_pos hname]
  cases tail with
  | nil => exact ⟨List.append_nil _, rfl⟩
  | cons c tail =>
    have hstop : ¬inPathName invalidMap c = true := by
      rw [inPathName_separator (htail c rfl)]
      exact Bool.false_ne_true
    rw [List.takeWhile_cons_of_neg hstop, List.dropWhile_cons_of_neg hstop]
    exact ⟨List.append_nil _, rfl⟩

/-- Behind the dots that the look-ahead passes. -/
def afterDots (rest : NetString) : NetString :=
  if rest[1]? = some dot then rest.drop 2 else rest.drop 1

def dotName (rest : NetString) : Bool :=
  rest.head? == some dot && (afterDots rest).head?.all separator

theorem isSeparator_at (front : NetString) (c : UInt16) (rest : NetString) :
    isSeparator (front ++ c :: rest) front.length = .ok (separator c) :=
  isSeparator_front front c rest

theorem isDotName_front (front : NetString) (c : UInt16) (rest : NetString) :
    isDotName (front ++ c :: rest) front.length = .ok (dotName (c :: rest)) := by
  have hread : charAt (front ++ c :: rest) front.length = .ok c := by
    rw [charAt, getElem?_front]
    rfl
  have hnext : (front ++ c :: rest)[front.length + 1]? = rest.head? := by
    have hfront := getElem?_front (front ++ [c]) rest
    rw [List.append_assoc, List.singleton_append, List.length_append] at hfront
    exact hfront
  have hcond : (c :: rest)[1]? = rest.head? := by cases rest <;> rfl
  rw [isDotName, hread, dotName, afterDots, hnext, hcond, List.head?_cons]
  simp only [bind, Except.bind]
  by_cases hdot : c = dot
  · rw [if_pos hdot, beq_iff_eq.mpr (congrArg some hdot), Bool.true_and]
    -- one dot or two, then what is behind them
    by_cases hdots : rest.head? = some dot
    · obtain ⟨rest, rfl⟩ := List.head?_eq_some_iff.mp hdots
      rw [if_pos hdots, if_pos hdots]
      cases rest with
      | nil => simp [pure, Except.pure]
      | cons e rest =>
        have hsep := isSeparator_at (front ++ [c, dot]) e rest
        rw [List.append_assoc, List.length_append] at hsep
        have hlt : ¬front.length + 2 ≥ (front ++ c :: dot :: e :: rest).length := by simp
        rw [if_neg hlt]
        exact hsep
    · rw [if_neg hdots, if_neg hdots]
      cases rest with
      | nil => simp [pure, Except.pure]
      | cons d rest =>
        have hsep := isSeparator_at (front ++ [c]) d rest
        rw [List.append_assoc, List.length_append] at hsep
        have hlt : ¬front.length + 1 ≥ (front ++ c :: d :: rest).length := by simp
        rw [if_neg hlt]
        exact hsep
  · have hne : (some c == some dot) = false := by simpa using hdot
    rw [if_neg hdot, hne]
    rfl

/-- Where a turn gets behind a name, with what is left there. -/
def behindName (next : Nat) : NetString → Bool ⊕ Nat
  | [] => .inl true
  | c :: rest => if separator c ∧ rest ≠ [] then .inr next else .inl false

theorem absoluteTurn_front (front : NetString) (c : UInt16) (rest : NetString) :
    absoluteTurn invalidMap (front ++ c :: rest) front.length =
      .ok (if dotName (c :: rest) || (pathNameOf invalidMap (c :: rest)).isEmpty then .inl false
        else behindName (front.length + (pathNameOf invalidMap (c :: rest)).length + 1)
          (afterPathName invalidMap (c :: rest))) := by
  have hsteps : (front ++ c :: rest).length - front.length = (c :: rest).length := by
    rw [List.length_append, Nat.add_sub_cancel_left]
  have hplace : ∀ i, ((front ++ c :: rest)[i]?.any fun c =>
      !isInvalid invalidMap c && !(c = backslash || c = slash)) =
        ((front ++ c :: rest).drop i).head?.any (inPathName invalidMap) := by
    intro i
    rw [List.head?_drop]
    rfl
  have hscan := @scan_append _ _ (fun left => left.head?.any (inPathName invalidMap)) _ _ hplace
  rw [reach_head] at hscan
  rw [absoluteTurn, isSeparator_at, isDotName_front]
  simp only [bind, Except.bind, hsteps, hscan]
  cases hsep : separator c with
  | true =>
    have hempty : pathNameOf invalidMap (c :: rest) = [] := by
      apply List.takeWhile_cons_of_neg
      rw [inPathName_separator ((separator_iff c).mp hsep)]
      exact Bool.false_ne_true
    simp [hempty, pure, Except.pure]
  | false =>
    cases hdot : dotName (c :: rest) with
    | true => simp [pure, Except.pure]
    | false =>
      have hsplit : front ++ c :: rest = (front ++ pathNameOf invalidMap (c :: rest)) ++
          afterPathName invalidMap (c :: rest) := by
        rw [List.append_assoc, pathNameOf_append_after]
      have hreach : (c :: rest).takeWhile (inPathName invalidMap) =
        pathNameOf invalidMap (c :: rest) := rfl
      rw [hreach, ← List.length_append, hsplit]
      cases hname : pathNameOf invalidMap (c :: rest) with
      | nil => simp [pure, Except.pure]
      | cons d name =>
        cases afterPathName invalidMap (c :: rest) with
        | nil => simp [pure, Except.pure, behindName]
        | cons e after =>
          have hread := isSeparator_at (front ++ d :: name) e after
          rw [hread]
          cases hend : separator e with
          | false => simp [pure, Except.pure, behindName, hend]
          | true =>
            cases after with
            | nil => simp [pure, Except.pure, behindName, hend, Nat.add_assoc]
            | cons g after => simp [pure, Except.pure, behindName, hend, Nat.add_assoc]

/-- A name that is "." or ".." is taken for one, and no other. -/
theorem dotName_iff {name tail : NetString} (hname : ∀ c ∈ name, ¬Separator c)
    (hnonempty : name ≠ []) (htail : AtBoundary tail) :
    dotName (name ++ tail) = true ↔ name = [dot] ∨ name = [dot, dot] := by
  have hboundary : tail.head?.all separator = true := by
    cases tail with
    | nil => rfl
    | cons c tail => exact (separator_iff c).mpr (htail c rfl)
  have hstop : ∀ c ∈ name, separator c = false := by
    intro c hc
    rw [← Bool.not_eq_true, separator_iff]
    exact hname c hc
  have hdot : tail.head? ≠ some dot := by
    intro h
    have hsep := htail dot h
    revert hsep
    decide
  obtain ⟨c, name, rfl⟩ := List.exists_cons_of_ne_nil hnonempty
  cases name with
  | nil =>
    have hnext : (c :: tail)[1]? ≠ some dot := by
      rw [List.getElem?_cons_succ, ← List.head?_eq_getElem?]
      exact hdot
    have hdrop : afterDots (c :: tail) = tail := if_neg hnext
    rw [List.singleton_append, dotName, hdrop, hboundary]
    simp
  | cons d name =>
    by_cases hd : d = dot
    · have hdrop : afterDots (c :: d :: name ++ tail) = name ++ tail :=
        if_pos (congrArg some hd)
      rw [dotName, hdrop]
      cases name with
      | nil =>
        rw [List.nil_append, hboundary]
        simp [hd]
      | cons e name =>
        have he := hstop e (by simp)
        simp [he]
    · have hnext : (c :: d :: name ++ tail)[1]? ≠ some dot := fun h => hd (Option.some.inj h)
      have hdrop : afterDots (c :: d :: name ++ tail) = d :: name ++ tail := if_neg hnext
      have hsep := hstop d (by simp)
      rw [dotName, hdrop]
      simp [hsep, hd]

theorem PathName.inName {name : NetString} (h : PathName invalid name) :
    ∀ c ∈ name, inPathName (invalidCharMap invalid) c = true :=
  fun c hc => (inPathName_iff c).mpr (h.valid c hc)

theorem PathNames.ne_nil {rest : NetString} (h : PathNames invalid rest) : rest ≠ [] := by
  cases h with
  | last h => exact h.nonempty
  | more h => exact List.append_ne_nil_of_left_ne_nil h.nonempty _

/-- The name that the scan finds is a component where it is neither empty nor dots. -/
theorem pathName_scanned {rest : NetString}
    (hname : pathNameOf (invalidCharMap invalid) rest ≠ [])
    (hafter : AtBoundary (afterPathName (invalidCharMap invalid) rest)) :
    PathName invalid (pathNameOf (invalidCharMap invalid) rest) ↔ dotName rest = false := by
  have hvalid : ∀ c ∈ pathNameOf (invalidCharMap invalid) rest, c ∉ invalid ∧ ¬Separator c :=
    fun c hc => (inPathName_iff c).mp (List.mem_takeWhile_imp hc)
  have hdots := dotName_iff (fun c hc => (hvalid c hc).2) hname hafter
  rw [pathNameOf_append_after] at hdots
  rw [← Bool.not_eq_true, hdots, not_or]
  exact ⟨fun h => ⟨h.notDot, h.notDotDot⟩, fun h => ⟨hname, hvalid, h.1, h.2⟩⟩

theorem PathName.scanned {name tail : NetString} (h : PathName invalid name)
    (htail : AtBoundary tail) :
    dotName (name ++ tail) = false ∧
      pathNameOf (invalidCharMap invalid) (name ++ tail) = name ∧
      afterPathName (invalidCharMap invalid) (name ++ tail) = tail := by
  obtain ⟨hname, hafter⟩ := pathNameOf_append h.inName htail
  have hdots : dotName (name ++ tail) = false := by
    rw [← Bool.not_eq_true, dotName_iff (fun c hc => (h.valid c hc).2) h.nonempty htail, not_or]
    exact ⟨h.notDot, h.notDotDot⟩
  exact ⟨hdots, hname, hafter⟩

/-- The grammar as a turn sees it: one name, then the end or the other names. -/
theorem pathNames_iff (rest : NetString) :
    PathNames invalid rest ↔
      dotName rest = false ∧ pathNameOf (invalidCharMap invalid) rest ≠ [] ∧
        (afterPathName (invalidCharMap invalid) rest = [] ∨
          ∃ sep next, afterPathName (invalidCharMap invalid) rest = sep :: next ∧
            Separator sep ∧ PathNames invalid next) := by
  have hsplit := @pathNameOf_append_after (invalidCharMap invalid) rest
  constructor
  · intro h
    cases h with
    | last h =>
      have hscan := h.scanned atBoundary_nil
      rw [List.append_nil] at hscan
      obtain ⟨hdots, hname, hafter⟩ := hscan
      exact ⟨hdots, by rw [hname]; exact h.nonempty, .inl hafter⟩
    | @more name next sep h hsep hrest =>
      obtain ⟨hdots, hname, hafter⟩ := h.scanned (atBoundary_cons hsep next)
      exact ⟨hdots, by rw [hname]; exact h.nonempty, .inr ⟨sep, next, hafter, hsep, hrest⟩⟩
  · intro ⟨hdots, hname, hafter⟩
    rcases hafter with hnil | ⟨sep, next, hnext, hsep, hrest⟩
    · have hboundary : AtBoundary (afterPathName (invalidCharMap invalid) rest) := by
        rw [hnil]
        exact atBoundary_nil
      have hcomponent := (pathName_scanned hname hboundary).mpr hdots
      rw [hnil, List.append_nil] at hsplit
      rw [hsplit] at hcomponent
      exact .last hcomponent
    · have hboundary : AtBoundary (afterPathName (invalidCharMap invalid) rest) := by
        rw [hnext]
        exact atBoundary_cons hsep next
      have hcomponent := (pathName_scanned hname hboundary).mpr hdots
      rw [← hsplit, hnext]
      exact .more hcomponent hsep hrest

/-- What a turn makes of the rest of the path. -/
theorem absoluteTurn_cases (front : NetString) (c : UInt16) (rest : NetString) :
    (absoluteTurn (invalidCharMap invalid) (front ++ c :: rest) front.length = .ok (.inl false) ∧
      ¬PathNames invalid (c :: rest)) ∨
    (absoluteTurn (invalidCharMap invalid) (front ++ c :: rest) front.length = .ok (.inl true) ∧
      PathNames invalid (c :: rest)) ∨
    ∃ name sep next, c :: rest = name ++ sep :: next ∧
      absoluteTurn (invalidCharMap invalid) (front ++ c :: rest) front.length =
        .ok (.inr (front ++ name ++ [sep]).length) ∧
      (next = [] ∨ PathNames invalid next ↔ PathNames invalid (c :: rest)) := by
  have hsplit := @pathNameOf_append_after (invalidCharMap invalid) (c :: rest)
  rw [absoluteTurn_front, pathNames_iff (c :: rest)]
  split
  · rename_i hbad
    rw [Bool.or_eq_true, List.isEmpty_iff] at hbad
    refine .inl ⟨rfl, ?_⟩
    intro ⟨hdots, hname, _⟩
    rcases hbad with hbad | hbad
    · rw [hdots] at hbad
      cases hbad
    · exact hname hbad
  · rename_i hgood
    rw [Bool.or_eq_true, not_or, Bool.not_eq_true, List.isEmpty_iff] at hgood
    obtain ⟨hdots, hname⟩ := hgood
    cases hafter : afterPathName (invalidCharMap invalid) (c :: rest) with
    | nil => exact .inr (.inl ⟨rfl, hdots, hname, .inl rfl⟩)
    | cons sep next =>
      rw [hafter] at hsplit
      rw [behindName]
      split
      · rename_i hgoes
        obtain ⟨hsep, hnext⟩ := hgoes
        refine .inr (.inr ⟨_, sep, next, hsplit.symm, ?_, ?_⟩)
        · simp only [List.length_append, List.length_singleton]
        · constructor
          · intro h
            have hnames := h.resolve_left hnext
            exact ⟨hdots, hname, .inr ⟨sep, next, rfl, (separator_iff sep).mp hsep, hnames⟩⟩
          · intro ⟨_, _, h⟩
            rcases h with h | ⟨_, _, h, _, hnames⟩
            · cases h
            · obtain ⟨rfl, rfl⟩ := List.cons.inj h
              exact .inr hnames
      · rename_i hstops
        refine .inl ⟨rfl, ?_⟩
        intro ⟨_, _, h⟩
        rcases h with h | ⟨_, _, h, hsep, hnames⟩
        · cases h
        · obtain ⟨rfl, rfl⟩ := List.cons.inj h
          exact hstops ⟨(separator_iff _).mpr hsep, hnames.ne_nil⟩

/-- The code answers without an exception, and what it answers is whether `p`. -/
def Decides (x : Except GitToolsException Bool) (p : Prop) : Prop :=
  ∃ b, x = .ok b ∧ (b = true ↔ p)

theorem decides_true {p : Prop} (h : p) : Decides (.ok true) p := ⟨true, rfl, by simp [h]⟩

theorem decides_false {p : Prop} (h : ¬p) : Decides (.ok false) p := ⟨false, rfl, by simp [h]⟩

theorem Decides.congr {x : Except GitToolsException Bool} {p q : Prop} (h : Decides x p)
    (hpq : p ↔ q) : Decides x q := by
  obtain ⟨b, hb, hp⟩ := h
  exact ⟨b, hb, hp.trans hpq⟩

/-- The loop accepts components up to the end. -/
theorem absoluteLoop_decides (turns : Nat) (front rest : NetString)
    (hturns : rest.length ≤ turns) :
    Decides (absoluteLoop (invalidCharMap invalid) (front ++ rest) turns front.length)
      (rest = [] ∨ PathNames invalid rest) := by
  induction turns generalizing front rest with
  | zero =>
    have hnil : rest = [] := List.eq_nil_of_length_eq_zero (Nat.le_zero.mp hturns)
    exact decides_true (.inl hnil)
  | succ turns ih =>
    cases rest with
    | nil =>
      have hend : ¬front.length < (front ++ []).length := by simp
      rw [absoluteLoop, if_neg hend]
      exact decides_true (.inl rfl)
    | cons c rest =>
      have hlt : front.length < (front ++ c :: rest).length := by simp
      rw [absoluteLoop, if_pos hlt]
      rcases @absoluteTurn_cases invalid front c rest with ⟨hturn, hnot⟩ | ⟨hturn, hnames⟩ |
        ⟨name, sep, next, hsplit, hturn, hiff⟩
      · rw [hturn]
        exact decides_false (by simpa using hnot)
      · rw [hturn]
        exact decides_true (.inr hnames)
      · have hassoc : front ++ c :: rest = (front ++ name ++ [sep]) ++ next := by
          rw [hsplit]
          simp
        have hshort : next.length ≤ turns := by
          rw [hsplit, List.length_append, List.length_cons] at hturns
          omega
        have hrest := ih (front ++ name ++ [sep]) next hshort
        rw [← hassoc] at hrest
        rw [hturn]
        apply hrest.congr
        rw [hiff]
        simp

theorem hostChars_plain : Plain hostChars := by decide

section Words

variable {chars : NetString} (hplain : Plain chars)
  (hseparators : chars.all (fun c => !separator c) = true)

include hseparators

/-- A separator stops the scan over a name. -/
theorem wordAt_separator {c : UInt16} (h : Separator c) (rest : NetString) :
    wordAt unicode chars (c :: rest) = false := by
  have hchars : chars.contains c = false := by
    rw [← Bool.not_eq_true, List.contains_iff_mem]
    intro hmem
    have hnot := List.all_eq_true.mp hseparators c hmem
    rw [(separator_iff c).mpr h] at hnot
    cases hnot
  cases h with
  | inl h =>
    subst h
    exact wordAt_stop (by decide) (by decide) (by decide) hchars rest
  | inr h =>
    subst h
    exact wordAt_stop (by decide) (by decide) (by decide) hchars rest

theorem boundary_stops {tail : NetString} (h : AtBoundary tail) :
    tail = [] ∨ wordAt unicode chars tail = false := by
  cases tail with
  | nil => exact .inl rfl
  | cons c tail => exact .inr (wordAt_separator hseparators (h c rfl) tail)

include hplain

/-- The scan ends where the grammar ends the name. -/
theorem scanned_unique {word tail word' tail' : NetString} (hsplit : word ++ tail = word' ++ tail')
    (hreach : reach (wordAt unicode chars) (word ++ tail) = word.length)
    (hword : ∀ c ∈ word', WordChar unicode chars c) (htail : AtBoundary tail') :
    word = word' ∧ tail = tail' := by
  have hreach' := reach_word hplain hword (boundary_stops hseparators htail)
  rw [← hsplit, hreach] at hreach'
  exact List.append_inj hsplit hreach'

end Words

theorem word_scanned {chars word tail : NetString} (hplain : Plain chars)
    (h : ∀ early late, word = early ++ late → late ≠ [] →
      wordAt unicode chars (late ++ tail) = true) (htail : AtBoundary tail) :
    ∀ c ∈ word, WordChar unicode chars c := by
  apply word_of_scanned hplain h
  intro c rest hc
  have hsep := htail c (by rw [hc]; rfl)
  rcases hsep with rfl | rfl <;> decide

/-- What follows the share name. -/
abbrev AfterShareName (invalid : List UInt16) (tail : NetString) : Prop :=
  tail = [] ∨ ∃ sep names, tail = sep :: names ∧ Separator sep ∧ PathNames invalid names

theorem AfterShareName.boundary {tail : NetString} (h : AfterShareName invalid tail) :
    AtBoundary tail := by
  rcases h with rfl | ⟨sep, names, rfl, hsep, _⟩
  · exact atBoundary_nil
  · exact atBoundary_cons hsep names

/-- What follows the host name. -/
def AfterHost (unicode : UnicodeData) (invalid : List UInt16) (rest : NetString) : Prop :=
  ∃ sep share tail, rest = sep :: (share ++ tail) ∧ Separator sep ∧ share ≠ [] ∧
    (∀ c ∈ share, WordChar unicode shareChars c) ∧ AfterShareName invalid tail

theorem AfterHost.boundary {rest : NetString} (h : AfterHost unicode invalid rest) :
    AtBoundary rest := by
  obtain ⟨sep, share, tail, rfl, hsep, _⟩ := h
  exact atBoundary_cons hsep _

theorem shareChars_separators : shareChars.all (fun c => !separator c) = true := by decide

theorem hostChars_separators : hostChars.all (fun c => !separator c) = true := by decide

/-- Behind the host, with the share name already scanned. -/
theorem afterHost_iff {sep : UInt16} {share tail : NetString}
    (hreach : reach (wordAt unicode shareChars) (share ++ tail) = share.length)
    (hpassed : ∀ early late, share = early ++ late → late ≠ [] →
      wordAt unicode shareChars (late ++ tail) = true) :
    AfterHost unicode invalid (sep :: (share ++ tail)) ↔
      Separator sep ∧ share ≠ [] ∧ AfterShareName invalid tail := by
  constructor
  · intro ⟨sep', share', tail', hsplit, hsep, hshare, hchars, htail⟩
    obtain ⟨rfl, hsame⟩ := List.cons.inj hsplit
    obtain ⟨rfl, rfl⟩ := scanned_unique shareChars_plain shareChars_separators hsame hreach hchars
      htail.boundary
    exact ⟨hsep, hshare, htail⟩
  · intro ⟨hsep, hshare, htail⟩
    exact ⟨sep, share, tail, rfl, hsep, hshare,
      word_scanned shareChars_plain hpassed htail.boundary, htail⟩

theorem afterShareName_cons_iff {c : UInt16} {names : NetString} (hsep : Separator c) :
    AfterShareName invalid (c :: names) ↔ PathNames invalid names := by
  constructor
  · intro h
    rcases h with h | ⟨_, _, h, _, hnames⟩
    · cases h
    · obtain ⟨rfl, rfl⟩ := List.cons.inj h
      exact hnames
  · intro h
    exact .inr ⟨c, names, rfl, hsep, h⟩

/-- The tests behind the scan over the share name, which has ended behind `base`. -/
theorem absoluteAfterShare_decides (base tail : NetString) (n : Nat) :
    Decides (absoluteAfterShare (invalidCharMap invalid) (base ++ tail) n base.length)
      (base.length ≠ n ∧ AfterShareName invalid tail) := by
  cases tail with
  | nil =>
    rw [absoluteAfterShare, if_pos (by simp)]
    exact ⟨decide (base.length ≠ n), rfl, by simp [AfterShareName]⟩
  | cons c names =>
    have hmore : base.length ≠ (base ++ c :: names).length := by simp
    rw [absoluteAfterShare, if_neg hmore, isSeparator_at]
    by_cases hempty : base.length = n
    · rw [if_pos hempty]
      exact decides_false fun h => h.1 hempty
    · rw [if_neg hempty]
      simp only [bind, Except.bind]
      cases hsep : separator c with
      | false =>
        apply decides_false
        intro ⟨_, h⟩
        have hc := (separator_iff c).mpr (h.boundary c rfl)
        rw [hsep] at hc
        cases hc
      | true =>
        simp only [Bool.not_true, Bool.false_eq_true, if_false]
        rw [afterShareName_cons_iff ((separator_iff c).mp hsep)]
        by_cases hend : names = []
        · subst hend
          rw [if_pos (by simp)]
          exact decides_false fun h => h.2.ne_nil rfl
        · have hpos := List.length_pos_iff.mpr hend
          have hnot : base.length + 1 ≠ (base ++ c :: names).length := by
            rw [List.length_append, List.length_cons]
            omega
          have hturns : (base ++ c :: names).length - (base.length + 1) = names.length := by
            rw [List.length_append, List.length_cons]
            omega
          have hassoc : base ++ c :: names = (base ++ [c]) ++ names := by simp
          have hbegin : base.length + 1 = (base ++ [c]).length := by simp
          rw [if_neg hnot, hturns, hassoc, hbegin]
          apply (absoluteLoop_decides names.length (base ++ [c]) names (Nat.le_refl _)).congr
          constructor
          · intro h
            exact ⟨hempty, h.resolve_left hend⟩
          · intro h
            exact .inr h.2

/-- The tests behind the scan over the host name, which is not empty. -/
theorem absoluteShare_decides (front rest : NetString) (hfront : front.length ≠ 2) :
    Decides (absoluteShare unicode (invalidCharMap invalid) (front ++ rest) front.length)
      (AfterHost unicode invalid rest) := by
  cases rest with
  | nil =>
    rw [absoluteShare, if_neg hfront, if_pos (by simp)]
    apply decides_false
    intro ⟨sep, share, tail, h, _⟩
    cases h
  | cons c rest =>
    obtain ⟨share, tail, rfl, hreach, _, hpassed⟩ := reach_split (wordAt unicode shareChars) rest
    have hiff := @afterHost_iff invalid unicode c share tail hreach hpassed
    have hmore : front.length ≠ (front ++ c :: (share ++ tail)).length := by simp
    have hsteps : (front ++ c :: (share ++ tail)).length - (front.length + 1) =
        (share ++ tail).length := by
      rw [List.length_append, List.length_cons]
      omega
    have hplace : ∀ i, (isLetterOrDigit unicode (front ++ c :: (share ++ tail)) i ||
        (front ++ c :: (share ++ tail))[i]?.any shareChars.contains) =
          wordAt unicode shareChars ((front ++ [c] ++ (share ++ tail)).drop i) := by
      intro i
      rw [wordAt, List.head?_drop, List.append_assoc, List.singleton_append]
      rfl
    have hscan := scan_append hplace
    have hbegin : (front ++ [c]).length = front.length + 1 := by
      rw [List.length_append, List.length_singleton]
    rw [hreach, hbegin] at hscan
    have hlength : front.length + 1 + share.length = (front ++ c :: share).length := by
      rw [List.length_append, List.length_cons]
      omega
    have hbase : front ++ c :: (share ++ tail) = (front ++ c :: share) ++ tail := by simp
    rw [absoluteShare, if_neg hfront, if_neg hmore, isSeparator_at]
    simp only [bind, Except.bind, hsteps, hscan]
    cases hsep : separator c with
    | false =>
      apply decides_false
      rw [hiff, ← separator_iff, hsep]
      simp
    | true =>
      rw [hlength, hbase]
      apply (absoluteAfterShare_decides (front ++ c :: share) tail (front.length + 1)).congr
      rw [hiff, ← hlength, ← separator_iff, hsep]
      simp

/-- The two beginnings of the grammar. -/
theorem absolutePath_iff (first second : UInt16) (rest : NetString) :
    AbsolutePath unicode invalid (first :: second :: rest) ↔
      ((isUpper first = true ∨ isLower first = true) ∧ second = colon ∧
        ∃ sep names, rest = sep :: names ∧ Separator sep ∧
          (names = [] ∨ PathNames invalid names)) ∨
      (Separator first ∧ Separator second ∧
        ∃ host tail, rest = host ++ tail ∧ host ≠ [] ∧
          (∀ c ∈ host, WordChar unicode hostChars c) ∧ AfterHost unicode invalid tail) := by
  constructor
  · intro h
    generalize hpath : first :: second :: rest = path at h
    cases h with
    | @drive letter sep names hletter hsep hnames =>
      obtain ⟨rfl, rfl, rfl⟩ : first = letter ∧ second = colon ∧ rest = sep :: names := by
        simpa using hpath
      exact .inl ⟨hletter, rfl, sep, names, rfl, hsep, hnames⟩
    | @share first' second' sep host share tail hfirst hsecond hhost hhostChars hsep hshare
        hshareChars htail =>
      obtain ⟨rfl, rfl, rfl⟩ :
          first = first' ∧ second = second' ∧ rest = host ++ sep :: (share ++ tail) := by
        simpa using hpath
      exact .inr ⟨hfirst, hsecond, host, _, rfl, hhost, hhostChars, sep, share, tail, rfl, hsep,
        hshare, hshareChars, htail⟩
  · intro h
    rcases h with ⟨hletter, rfl, sep, names, rfl, hsep, hnames⟩ |
      ⟨hfirst, hsecond, host, tail, rfl, hhost, hhostChars, sep, share, after, rfl, hsep, hshare,
        hshareChars, hafter⟩
    · exact .drive hletter hsep hnames
    · have hpath := AbsolutePath.share hfirst hsecond hhost hhostChars hsep hshare hshareChars
        hafter
      simpa using hpath

theorem letter_not_separator {c : UInt16} (h : isUpper c = true ∨ isLower c = true) :
    ¬Separator c := by
  intro hsep
  rcases hsep with rfl | rfl <;> revert h <;> decide

/-- Behind two separators, the grammar in terms of the scan over the host name. -/
theorem absolutePath_share_iff {first second : UInt16} {host tail : NetString}
    (hfirst : Separator first) (hsecond : Separator second)
    (hreach : reach (wordAt unicode hostChars) (host ++ tail) = host.length)
    (hpassed : ∀ early late, host = early ++ late → late ≠ [] →
      wordAt unicode hostChars (late ++ tail) = true) :
    AbsolutePath unicode invalid (first :: second :: (host ++ tail)) ↔
      host ≠ [] ∧ AfterHost unicode invalid tail := by
  rw [absolutePath_iff]
  constructor
  · intro h
    rcases h with ⟨h, _⟩ | ⟨_, _, host', tail', hsplit, hhost, hchars, htail⟩
    · exact absurd hfirst (letter_not_separator h)
    · obtain ⟨rfl, rfl⟩ := scanned_unique hostChars_plain hostChars_separators hsplit hreach
        hchars htail.boundary
      exact ⟨hhost, htail⟩
  · intro hshare
    obtain ⟨hhost, htail⟩ := hshare
    exact .inr ⟨hfirst, hsecond, host, tail, rfl, hhost,
      word_scanned hostChars_plain hpassed htail.boundary, htail⟩

/-- Without a separator in front, the grammar is that of a drive. -/
theorem absolutePath_drive_iff {letter second third : UInt16} (hletter : ¬Separator letter)
    (rest : NetString) :
    AbsolutePath unicode invalid (letter :: second :: third :: rest) ↔
      (isUpper letter || isLower letter) = true ∧ second = colon ∧ separator third = true ∧
        (rest = [] ∨ PathNames invalid rest) := by
  rw [absolutePath_iff, Bool.or_eq_true, separator_iff]
  constructor
  · intro h
    rcases h with ⟨hl, hs, sep, names, hsplit, hsep, hnames⟩ | ⟨h, _⟩
    · obtain ⟨rfl, rfl⟩ := List.cons.inj hsplit
      exact ⟨hl, hs, hsep, hnames⟩
    · exact absurd h hletter
  · intro hdrive
    obtain ⟨hl, hs, hsep, hnames⟩ := hdrive
    exact .inl ⟨hl, hs, third, rest, rfl, hsep, hnames⟩

/-- Behind the first separator the function goes by the second character. -/
theorem separatorAbsolute_run {first : UInt16} (hfirst : Separator first) (second : UInt16)
    {rest : NetString} (hrest : rest ≠ []) :
    isAbsolutePath unicode invalid (first :: second :: rest) =
      if !separator second then .ok false
      else absoluteShare unicode (invalidCharMap invalid) (first :: second :: rest)
        (scan (fun i => isLetterOrDigit unicode (first :: second :: rest) i ||
          (first :: second :: rest)[i]?.any hostChars.contains) rest.length 2) := by
  have hlong : ¬(first :: second :: rest).length < 3 := by
    have hpos := List.length_pos_iff.mpr hrest
    rw [List.length_cons, List.length_cons]
    omega
  have hzero : isSeparator (first :: second :: rest) 0 = .ok true := by
    have hread := isSeparator_at [] first (second :: rest)
    rw [(separator_iff first).mpr hfirst] at hread
    exact hread
  have hone : isSeparator (first :: second :: rest) 1 = .ok (separator second) :=
    isSeparator_at [first] second rest
  have hsteps : (first :: second :: rest).length - 2 = rest.length := by simp
  rw [isAbsolutePath, if_neg (List.cons_ne_nil _ _), if_neg hlong, hzero]
  simp only [bind, Except.bind, if_true, hone, hsteps]
  rfl

/-- The scan of the host ends where its characters do. -/
theorem scan_host (first second : UInt16) {host tail : NetString}
    (hreach : reach (wordAt unicode hostChars) (host ++ tail) = host.length) :
    scan (fun i => isLetterOrDigit unicode (first :: second :: (host ++ tail)) i ||
        (first :: second :: (host ++ tail))[i]?.any hostChars.contains) (host ++ tail).length 2 =
      (first :: second :: host).length := by
  have hplace : ∀ i, (isLetterOrDigit unicode (first :: second :: (host ++ tail)) i ||
      (first :: second :: (host ++ tail))[i]?.any hostChars.contains) =
        wordAt unicode hostChars (([first, second] ++ (host ++ tail)).drop i) := by
    intro i
    rw [wordAt, List.head?_drop]
    rfl
  have hscan := scan_append hplace
  have hstop : [first, second].length + host.length = (first :: second :: host).length := by
    simp only [List.length_cons, List.length_nil]
    omega
  have hbegin : [first, second].length = 2 := rfl
  rw [hreach, hstop, hbegin] at hscan
  exact hscan

theorem uncAbsolute_decides {first second : UInt16} {rest : NetString} (hfirst : Separator first)
    (hrest : rest ≠ []) :
    Decides (isAbsolutePath unicode invalid (first :: second :: rest))
      (AbsolutePath unicode invalid (first :: second :: rest)) := by
  have hletter : ¬(isUpper first = true ∨ isLower first = true) :=
    fun h => letter_not_separator h hfirst
  rw [separatorAbsolute_run hfirst second hrest]
  cases hsecond : separator second with
  | false =>
    apply decides_false
    rw [absolutePath_iff, ← separator_iff second, hsecond]
    simp [hletter]
  | true =>
    obtain ⟨host, tail, rfl, hreach, _, hpassed⟩ := reach_split (wordAt unicode hostChars) rest
    have hiff := @absolutePath_share_iff invalid unicode first second host tail hfirst
      ((separator_iff second).mp hsecond) hreach hpassed
    rw [scan_host first second hreach]
    by_cases hhost : host = []
    · subst hhost
      exact decides_false fun h => (hiff.mp h).1 rfl
    · have hfront : (first :: second :: host).length ≠ 2 := by simpa using hhost
      apply (absoluteShare_decides (first :: second :: host) tail hfront).congr
      rw [hiff]
      simp [hhost]

theorem driveAbsolute_decides {letter second third : UInt16} (hletter : ¬Separator letter)
    (rest : NetString) :
    Decides (isAbsolutePath unicode invalid (letter :: second :: third :: rest))
      (AbsolutePath unicode invalid (letter :: second :: third :: rest)) := by
  have hlong : ¬(letter :: second :: third :: rest).length < 3 := by simp
  have hzero : isSeparator (letter :: second :: third :: rest) 0 = .ok false := by
    have hread := isSeparator_at [] letter (second :: third :: rest)
    have hfalse : separator letter = false := by
      rw [← Bool.not_eq_true, separator_iff]
      exact hletter
    rw [hfalse] at hread
    exact hread
  have hone : charAt (letter :: second :: third :: rest) 1 = .ok second := rfl
  have htwo : isSeparator (letter :: second :: third :: rest) 2 = .ok (separator third) :=
    isSeparator_at [letter, second] third rest
  have hread : charAt (letter :: second :: third :: rest) 0 = .ok letter := rfl
  have hiff := @absolutePath_drive_iff invalid unicode letter second third hletter rest
  rw [isAbsolutePath, if_neg (List.cons_ne_nil _ _), if_neg hlong, hzero]
  simp only [bind, Except.bind, Bool.false_eq_true, if_false, hone, htwo, hread]
  by_cases hcolon : second = colon
  · cases hthird : separator third with
    | false =>
      rw [if_neg (by simpa using hcolon)]
      apply decides_false
      rw [hiff, hthird]
      simp
    | true =>
      cases hcase : (isUpper letter || isLower letter) with
      | false =>
        rw [if_neg (by simpa using hcolon)]
        apply decides_false
        rw [hiff, hcase]
        simp
      | true =>
        rw [if_neg (by simpa using hcolon)]
        have hloop := @absoluteLoop_decides invalid rest.length [letter, second, third] rest
          (Nat.le_refl _)
        apply hloop.congr
        rw [hiff, hcase, hthird]
        simp [hcolon]
  · rw [if_pos hcolon]
    apply decides_false
    rw [hiff]
    simp [hcolon]

theorem AbsolutePath.three_le {path : NetString} (h : AbsolutePath unicode invalid path) :
    3 ≤ path.length := by
  cases h with
  | drive => simp
  | share _ _ hhost =>
    have hpos := List.length_pos_iff.mpr hhost
    simp only [List.length_append, List.length_cons]
    omega

/-- `IsAbsolutePath` answers for every path, and recognizes the grammar. -/
theorem isAbsolutePath_decides (unicode : UnicodeData) (invalid : List UInt16) (path : NetString)
    (hpath : path ≠ []) :
    Decides (isAbsolutePath unicode invalid path) (AbsolutePath unicode invalid path) := by
  by_cases hshort : path.length < 3
  · rw [isAbsolutePath, if_neg hpath, if_pos hshort]
    apply decides_false
    intro h
    have hlong := h.three_le
    omega
  · obtain ⟨first, rest, rfl⟩ := List.exists_cons_of_length_pos (by omega : 0 < path.length)
    rw [List.length_cons] at hshort
    obtain ⟨second, rest, rfl⟩ := List.exists_cons_of_length_pos (by omega : 0 < rest.length)
    rw [List.length_cons] at hshort
    obtain ⟨third, rest, rfl⟩ := List.exists_cons_of_length_pos (by omega : 0 < rest.length)
    by_cases hfirst : Separator first
    · exact uncAbsolute_decides hfirst (List.cons_ne_nil _ _)
    · exact driveAbsolute_decides hfirst rest

/-- "c:/a" -/
theorem isAbsolutePath_drive :
    Decides (isAbsolutePath asciiUnicode [0x7c] [0x63, 0x3a, 0x2f, 0x61])
      (AbsolutePath asciiUnicode [0x7c] [0x63, 0x3a, 0x2f, 0x61]) :=
  isAbsolutePath_decides asciiUnicode [0x7c] [0x63, 0x3a, 0x2f, 0x61] (by decide)

end SharpGit.GitClient.GitTools
