import SharpGit.GitClient.WordScan
import Mathlib.Data.List.TakeWhile

namespace SharpGit.GitClient.GitTools

open Library Native

/-- A component of a path. -/
structure Component (invalid : List UInt16) (name : NetString) : Prop where
  nonempty : name ≠ []
  valid : ∀ c ∈ name, c ∉ invalid ∧ c ≠ backslash ∧ c ≠ slash ∧ c ≠ colon
  notDots : ∃ c ∈ name, c ≠ dot

/-- One or more components, separated by single separators. -/
inductive Components (invalid : List UInt16) : NetString → Prop
  | last {name : NetString} (h : Component invalid name) : Components invalid name
  | more {name rest : NetString} (h : Component invalid name) (hrest : Components invalid rest) :
      Components invalid (name ++ backslash :: rest)

def ShareChar (unicode : UnicodeData) (c : UInt16) : Prop :=
  unicode.letterOrDigit (unitChar c) = true ∨ c ∈ shareChars

/-- A drive with its components, or a share with its components. -/
inductive NormalizedPath (unicode : UnicodeData) (invalid : List UInt16) : NetString → Prop
  | drive {letter : UInt16} {rest : NetString} (hletter : isUpper letter = true)
      (hrest : rest = [] ∨ Components invalid rest) :
      NormalizedPath unicode invalid (letter :: colon :: backslash :: rest)
  | share {host share rest : NetString} (hhost : host ≠ [])
      (hhostChars : ∀ c ∈ host, hostChar c = true) (hshare : share ≠ [])
      (hshareChars : ∀ c ∈ share, ShareChar unicode c)
      (hrest : rest = [] ∨ ∃ names, rest = backslash :: names ∧ Components invalid names) :
      NormalizedPath unicode invalid (backslash :: backslash :: host ++ backslash :: share ++ rest)

/-- The letter of a drive is no other character. -/
theorem isUpper_ne {letter c : UInt16} (h : isUpper letter = true) (hc : isUpper c = false) :
    letter ≠ c := by
  intro heq
  rw [heq, hc] at h
  cases h

theorem isInvalid_markInvalid (invalid : List Bool) (c d : UInt16) :
    isInvalid (markInvalid invalid c) d = (decide (d = c) || isInvalid invalid d) := by
  rw [isInvalid, markInvalid, List.getElem?_set]
  by_cases h : d = c
  · subst h
    have hlength : d.toNat < (invalid ++
        List.replicate (d.toNat + 1 - invalid.length) false).length := by
      rw [List.length_append, List.length_replicate]
      omega
    rw [if_pos rfl, if_pos hlength, decide_eq_true rfl, Bool.true_or]
  · have hne : c.toNat ≠ d.toNat := fun heq => h (UInt16.toNat_inj.mp heq).symm
    rw [if_neg hne, decide_eq_false h, Bool.false_or, isInvalid]
    by_cases hlt : d.toNat < invalid.length
    · rw [List.getElem?_append_left hlt]
    · rw [List.getElem?_append_right (Nat.le_of_not_lt hlt), List.getElem?_replicate,
        List.getElem?_eq_none (Nat.le_of_not_lt hlt)]
      split
      · rename_i hsome
        split at hsome
        · exact (Option.some.inj hsome).symm
        · cases hsome
      · rfl

theorem isInvalid_foldl (chars : List UInt16) (invalid : List Bool) (c : UInt16) :
    isInvalid (chars.foldl markInvalid invalid) c = true ↔
      c ∈ chars ∨ isInvalid invalid c = true := by
  induction chars generalizing invalid with
  | nil => simp
  | cons d chars ih =>
    rw [List.foldl_cons, ih, isInvalid_markInvalid, Bool.or_eq_true, decide_eq_true_eq,
      List.mem_cons]
    tauto

theorem isInvalid_iff (invalidPathChars : List UInt16) (c : UInt16) :
    isInvalid (invalidCharMap invalidPathChars) c = true ↔ c ∈ invalidPathChars := by
  rw [invalidCharMap, isInvalid_foldl]
  constructor
  · intro h
    cases h with
    | inl h => exact h
    | inr h => cases h
  · intro h
    exact .inl h

variable {invalidMap : List Bool}

theorem getElem?_front (front rest : NetString) : (front ++ rest)[front.length]? = rest.head? := by
  rw [List.getElem?_append_right (Nat.le_refl _), Nat.sub_self, List.head?_eq_getElem?]

theorem isDirSeparator_front (front : NetString) (c : UInt16) (rest : NetString) :
    isDirSeparator (front ++ c :: rest) front.length = .ok (decide (c = backslash)) := by
  rw [isDirSeparator, charAt, getElem?_front]
  rfl

theorem isSeparator_front (front : NetString) (c : UInt16) (rest : NetString) :
    isSeparator (front ++ c :: rest) front.length =
      .ok (decide (c = backslash) || decide (c = slash)) := by
  rw [isSeparator, charAt, getElem?_front]
  rfl

/-- What a component may consist of. -/
def inName (invalidMap : List Bool) (c : UInt16) : Bool :=
  !isInvalid invalidMap c && !(c = backslash || c = slash || c = colon)

def nameOf (invalidMap : List Bool) (rest : NetString) : NetString :=
  rest.takeWhile (inName invalidMap)

def afterName (invalidMap : List Bool) (rest : NetString) : NetString :=
  rest.dropWhile (inName invalidMap)

theorem nameOf_append_afterName (rest : NetString) :
    nameOf invalidMap rest ++ afterName invalidMap rest = rest :=
  List.takeWhile_append_dropWhile

theorem nameOf_append {name : NetString} (hname : ∀ c ∈ name, inName invalidMap c = true)
    {rest : NetString} (hrest : rest = [] ∨ ∃ next, rest = backslash :: next) :
    nameOf invalidMap (name ++ rest) = name ∧ afterName invalidMap (name ++ rest) = rest := by
  rw [nameOf, afterName, List.takeWhile_append_of_pos hname, List.dropWhile_append_of_pos hname]
  cases hrest with
  | inl hnil =>
    subst hnil
    exact ⟨List.append_nil _, rfl⟩
  | inr hsep =>
    obtain ⟨next, hnext⟩ := hsep
    have hstop : inName invalidMap backslash = false := by simp [inName]
    subst hnext
    rw [List.takeWhile_cons_of_neg (by rw [hstop]; exact Bool.false_ne_true),
      List.dropWhile_cons_of_neg (by rw [hstop]; exact Bool.false_ne_true)]
    exact ⟨List.append_nil _, rfl⟩

theorem scanName_front (front rest : NetString) :
    scanName invalidMap (front ++ rest) rest.length front.length =
      if (afterName invalidMap rest).head?.any (isInvalid invalidMap) then none
      else some (front.length + (nameOf invalidMap rest).length) := by
  induction rest generalizing front with
  | nil => rfl
  | cons c rest ih =>
    have hnext := ih (front ++ [c])
    rw [List.append_assoc, List.singleton_append, List.length_append, List.length_singleton]
      at hnext
    rw [List.length_cons, scanName, getElem?_front, List.head?_cons]
    cases hinvalid : isInvalid invalidMap c with
    | true => simp [afterName, inName, hinvalid]
    | false =>
      cases hsep : (decide (c = backslash) || decide (c = slash) || decide (c = colon)) with
      | true => simp [afterName, nameOf, inName, hinvalid, hsep]
      | false =>
        have hname : inName invalidMap c = true := by rw [inName, hinvalid, hsep]; rfl
        have hlength : front.length + 1 + (nameOf invalidMap rest).length =
            front.length + ((nameOf invalidMap rest).length + 1) := by
          rw [Nat.add_assoc, Nat.add_comm 1]
        rw [hlength] at hnext
        simp only [hinvalid, hsep, Bool.false_eq_true, if_false, hnext, afterName, nameOf,
          List.dropWhile_cons_of_pos hname, List.takeWhile_cons_of_pos hname, List.length_cons]
        rfl

/-- A run of dots that a separator or the end follows. -/
def dotsOnly (rest : NetString) : Bool :=
  rest.head? == some dot &&
    (rest.dropWhile (· == dot)).head?.all fun c => c = backslash || c = slash

theorem isRelative_front (front rest : NetString) :
    isRelative (front ++ rest) front.length = .ok (dotsOnly rest) := by
  have hsteps : (front ++ rest).length - front.length = rest.length := by
    rw [List.length_append, Nat.add_sub_cancel_left]
  have hplace : ∀ j, decide ((front ++ rest)[j]? = some dot) =
      ((front ++ rest).drop j).head?.any (· == dot) := by
    intro j
    rw [List.head?_drop]
    cases (front ++ rest)[j]? with
    | none => rfl
    | some c => exact decide_eq_decide.mpr Option.some_inj
  have hscan : scan (fun j => (front ++ rest)[j]? = some dot) rest.length front.length =
      front.length + (rest.takeWhile (· == dot)).length := by
    rw [← reach_head]
    exact @scan_append _ _ (fun left => left.head?.any (· == dot)) front rest hplace
  rw [isRelative, getElem?_front, hsteps, hscan, dotsOnly]
  by_cases hhead : rest.head? = some dot
  · rw [if_pos hhead, beq_iff_eq.mpr hhead, Bool.true_and]
    have hsplit : front ++ rest =
        (front ++ rest.takeWhile (· == dot)) ++ rest.dropWhile (· == dot) := by
      rw [List.append_assoc, List.takeWhile_append_dropWhile]
    rw [← List.length_append, hsplit]
    cases rest.dropWhile (· == dot) with
    | nil =>
      simp only [List.append_nil, Nat.lt_irrefl, if_false]
      rfl
    | cons c after =>
      have hlt : (front ++ rest.takeWhile (· == dot)).length <
          (front ++ rest.takeWhile (· == dot) ++ c :: after).length := by
        simp
      simp only [hlt, if_true, isSeparator_front]
      rfl
  · rw [if_neg hhead, beq_eq_false_iff_ne.mpr hhead, Bool.false_and]
    rfl

/-- Where a turn gets behind a name, with what is left there. -/
def afterTurn (next : Nat) : NetString → Bool ⊕ Nat
  | [] => .inl true
  | c :: rest => if c = backslash ∧ rest ≠ [] then .inr next else .inl false

theorem nameTurn_front (front rest : NetString) :
    nameTurn invalidMap (front ++ rest) front.length =
      .ok (if dotsOnly rest || (afterName invalidMap rest).head?.any (isInvalid invalidMap) ||
          (nameOf invalidMap rest).isEmpty then .inl false
        else afterTurn (front.length + (nameOf invalidMap rest).length + 1)
          (afterName invalidMap rest)) := by
  have hsteps : (front ++ rest).length - front.length = rest.length := by
    rw [List.length_append, Nat.add_sub_cancel_left]
  rw [nameTurn, isRelative_front, hsteps, scanName_front]
  cases dotsOnly rest with
  | true => rfl
  | false =>
    cases (afterName invalidMap rest).head?.any (isInvalid invalidMap) with
    | true => rfl
    | false =>
      have hsplit : front ++ rest =
          (front ++ nameOf invalidMap rest) ++ afterName invalidMap rest := by
        rw [List.append_assoc, nameOf_append_afterName]
      rw [← List.length_append, hsplit]
      cases hname : nameOf invalidMap rest with
      | nil => simp [bind, Except.bind, pure, Except.pure]
      | cons c name =>
        cases afterName invalidMap rest with
        | nil => simp [bind, Except.bind, pure, Except.pure, afterTurn]
        | cons c' after =>
          have hread := isDirSeparator_front (front ++ c :: name) c' after
          rw [List.append_assoc, List.cons_append, List.length_append, List.length_cons] at hread
          by_cases hsep : c' = backslash
          · subst hsep
            cases after with
            | nil =>
              simp [bind, Except.bind, pure, Except.pure, afterTurn, hread]
              omega
            | cons d after =>
              simp [bind, Except.bind, pure, Except.pure, afterTurn, hread]
              omega
          · simp [bind, Except.bind, pure, Except.pure, afterTurn, hread, hsep]

variable {invalid : List UInt16}

theorem inName_iff (c : UInt16) : inName (invalidCharMap invalid) c = true ↔
    c ∉ invalid ∧ c ≠ backslash ∧ c ≠ slash ∧ c ≠ colon := by
  rw [inName, Bool.and_eq_true, Bool.not_eq_true', ← Bool.not_eq_true, isInvalid_iff]
  simp [and_assoc]

theorem Component.inName {name : NetString} (h : Component invalid name) :
    ∀ c ∈ name, inName (invalidCharMap invalid) c = true := by
  intro c hc
  exact (inName_iff c).mpr (h.valid c hc)

/-- A name that is not a run of dots is not taken for one. -/
theorem Component.not_dotsOnly {name : NetString} (h : Component invalid name)
    (after : NetString) : dotsOnly (name ++ after) = false := by
  cases hdrop : name.dropWhile (· == dot) with
  | nil =>
    obtain ⟨c, hc, hdot⟩ := h.notDots
    exact absurd (beq_iff_eq.mp (List.dropWhile_eq_nil_iff.mp hdrop c hc)) hdot
  | cons c rest =>
    have hc : c ∈ name := by
      apply (List.dropWhile_suffix _).subset
      rw [hdrop]
      exact List.mem_cons_self
    obtain ⟨_, hbackslash, hslash, _⟩ := h.valid c hc
    rw [dotsOnly, List.dropWhile_append, hdrop]
    simp [hbackslash, hslash]

theorem dotsOnly_of_dots {name : NetString} (hname : name ≠ []) (hdots : ∀ c ∈ name, c = dot)
    {after : NetString} (hafter : after = [] ∨ ∃ next, after = backslash :: next) :
    dotsOnly (name ++ after) = true := by
  have hall : ∀ c ∈ name, (c == dot) = true := fun c hc => beq_iff_eq.mpr (hdots c hc)
  obtain ⟨c, rest, rfl⟩ := List.exists_cons_of_ne_nil hname
  rw [dotsOnly, List.dropWhile_append_of_pos hall, List.cons_append, List.head?_cons,
    hdots c List.mem_cons_self]
  cases hafter with
  | inl hnil =>
    subst hnil
    rfl
  | inr hnext =>
    obtain ⟨next, rfl⟩ := hnext
    rfl

/-- What a turn takes for a component is one. -/
theorem component_of_turn {rest : NetString} (hdots : dotsOnly rest = false)
    (hname : nameOf (invalidCharMap invalid) rest ≠ [])
    (hafter : afterName (invalidCharMap invalid) rest = [] ∨
      ∃ next, afterName (invalidCharMap invalid) rest = backslash :: next) :
    Component invalid (nameOf (invalidCharMap invalid) rest) where
  nonempty := hname
  valid c hc := (inName_iff c).mp (List.mem_takeWhile_imp hc)
  notDots := by
    by_contra hnone
    have hall : ∀ c ∈ nameOf (invalidCharMap invalid) rest, c = dot := by
      intro c hc
      by_contra hne
      exact hnone ⟨c, hc, hne⟩
    have htrue := dotsOnly_of_dots hname hall hafter
    rw [nameOf_append_afterName, hdots] at htrue
    cases htrue

/-- What a turn makes of the rest of the path. -/
theorem nameTurn_sound (front rest : NetString) :
    nameTurn (invalidCharMap invalid) (front ++ rest) front.length = .ok (.inl false) ∨
    (nameTurn (invalidCharMap invalid) (front ++ rest) front.length = .ok (.inl true) ∧
      Component invalid rest) ∨
    ∃ name next, rest = name ++ backslash :: next ∧ next ≠ [] ∧ Component invalid name ∧
      nameTurn (invalidCharMap invalid) (front ++ rest) front.length =
        .ok (.inr (front ++ name ++ [backslash]).length) := by
  have hsplit := @nameOf_append_afterName (invalidCharMap invalid) rest
  rw [nameTurn_front]
  split
  · exact .inl rfl
  · rename_i hgoes
    rw [Bool.or_eq_true, Bool.or_eq_true, not_or, not_or, Bool.not_eq_true, List.isEmpty_iff]
      at hgoes
    obtain ⟨⟨hdots, _⟩, hname⟩ := hgoes
    have hcomponent := component_of_turn hdots hname
    cases hafter : afterName (invalidCharMap invalid) rest with
    | nil =>
      rw [hafter, List.append_nil] at hsplit
      rw [hsplit] at hcomponent
      exact .inr (.inl ⟨rfl, hcomponent (.inl hafter)⟩)
    | cons c next =>
      rw [afterTurn]
      split
      · rename_i hnext
        obtain ⟨rfl, hnext⟩ := hnext
        rw [hafter] at hsplit
        refine .inr (.inr ⟨_, next, hsplit.symm, hnext, hcomponent (.inr ⟨next, hafter⟩), ?_⟩)
        rw [List.length_append, List.length_append, List.length_singleton]
      · exact .inl rfl

theorem nameTurn_component {rest : NetString} (h : Component invalid rest) (front : NetString) :
    nameTurn (invalidCharMap invalid) (front ++ rest) front.length = .ok (.inl true) := by
  obtain ⟨hname, hafter⟩ := nameOf_append h.inName (.inl rfl)
  have hdots := h.not_dotsOnly []
  rw [List.append_nil] at hname hafter hdots
  rw [nameTurn_front, hname, hafter, hdots, List.isEmpty_eq_false_iff.mpr h.nonempty]
  rfl

theorem nameTurn_more (hinvalid : backslash ∉ invalid) {name next : NetString}
    (h : Component invalid name) (hnext : next ≠ []) (front : NetString) :
    nameTurn (invalidCharMap invalid) (front ++ (name ++ backslash :: next)) front.length =
      .ok (.inr (front ++ name ++ [backslash]).length) := by
  obtain ⟨hname, hafter⟩ := nameOf_append h.inName (.inr ⟨next, rfl⟩)
  have hvalid : isInvalid (invalidCharMap invalid) backslash = false := by
    rw [← Bool.not_eq_true, isInvalid_iff]
    exact hinvalid
  have hturn (start : Nat) : afterTurn start (backslash :: next) = .inr start :=
    if_pos ⟨rfl, hnext⟩
  rw [nameTurn_front, hname, hafter, h.not_dotsOnly, List.isEmpty_eq_false_iff.mpr h.nonempty,
    List.head?_cons, Option.any_some, hvalid, hturn, List.length_append, List.length_append,
    List.length_singleton]
  rfl

theorem Components.ne_nil {rest : NetString} (h : Components invalid rest) : rest ≠ [] := by
  cases h with
  | last h => exact h.nonempty
  | more h hrest => exact List.append_ne_nil_of_left_ne_nil h.nonempty _

/-- The loop accepts components up to the end. -/
theorem nameLoop_iff (hinvalid : backslash ∉ invalid) (turns : Nat) (front rest : NetString)
    (hturns : rest.length ≤ turns) :
    nameLoop (invalidCharMap invalid) (front ++ rest) turns front.length = .ok true ↔
      rest = [] ∨ Components invalid rest := by
  induction turns generalizing front rest with
  | zero =>
    have hnil : rest = [] := List.eq_nil_of_length_eq_zero (Nat.le_zero.mp hturns)
    rw [nameLoop, hnil]
    exact ⟨fun _ => .inl rfl, fun _ => rfl⟩
  | succ turns ih =>
    by_cases hrest : rest = []
    · have hend : ¬front.length < (front ++ rest).length := by simp [hrest]
      rw [nameLoop, if_neg hend]
      exact ⟨fun _ => .inl hrest, fun _ => rfl⟩
    · have hlt : front.length < (front ++ rest).length := by
        rw [List.length_append]
        exact Nat.lt_add_of_pos_right (List.length_pos_iff.mpr hrest)
      have hmore : ∀ name next, rest = name ++ backslash :: next →
          (nameLoop (invalidCharMap invalid) (front ++ rest) turns
            (front ++ name ++ [backslash]).length = .ok true ↔
              next = [] ∨ Components invalid next) := by
        intro name next hsplit
        have hassoc : front ++ rest = (front ++ name ++ [backslash]) ++ next := by
          rw [hsplit, List.append_assoc, List.append_assoc, List.singleton_append]
        rw [hassoc]
        apply ih
        rw [hsplit, List.length_append, List.length_cons] at hturns
        omega
      rw [nameLoop, if_pos hlt]
      constructor
      · intro h
        obtain hstop | ⟨_, hcomponent⟩ | ⟨name, next, hsplit, hnext, hcomponent, hturn⟩ :=
          @nameTurn_sound invalid front rest
        · rw [hstop] at h
          cases h
        · exact .inr (.last hcomponent)
        · rw [hturn] at h
          obtain hnil | hcomponents := (hmore name next hsplit).mp h
          · exact absurd hnil hnext
          · rw [hsplit]
            exact .inr (.more hcomponent hcomponents)
      · intro h
        obtain hnil | hcomponents := h
        · exact absurd hnil hrest
        · cases hcomponents with
          | last hcomponent =>
            rw [nameTurn_component hcomponent]
            rfl
          | @more name next hcomponent hnext =>
            rw [nameTurn_more hinvalid hcomponent hnext.ne_nil]
            exact (hmore name next rfl).mpr (.inr hnext)

variable {unicode : UnicodeData}

/-- What the scan over the share name looks for at the start of `rest`. -/
def shareAt (unicode : UnicodeData) (rest : NetString) : Bool :=
  isLetterOrDigit unicode rest 0 || rest.head?.any shareChars.contains

theorem shareChars_plain : Plain shareChars := by decide

theorem shareAt_backslash (rest : NetString) : shareAt unicode (backslash :: rest) = false :=
  wordAt_stop (by decide) (by decide) (by decide) (by decide) rest

/-- A share name that a separator or the end follows is scanned to its end. -/
theorem reach_share {share tail : NetString} (h : ∀ c ∈ share, ShareChar unicode c)
    (htail : tail = [] ∨ ∃ names, tail = backslash :: names) :
    reach (shareAt unicode) (share ++ tail) = share.length := by
  apply reach_word shareChars_plain h
  rcases htail with hnil | ⟨names, rfl⟩
  · exact .inl hnil
  · exact .inr (shareAt_backslash names)

/-- What is scanned before a separator or the end is a share name. -/
theorem share_of_scanned {share tail : NetString}
    (h : ∀ early late, share = early ++ late → late ≠ [] → shareAt unicode (late ++ tail) = true)
    (htail : tail = [] ∨ ∃ names, tail = backslash :: names) :
    ∀ c ∈ share, ShareChar unicode c := by
  apply word_of_scanned shareChars_plain h
  intro c rest htc
  rcases htail with hnil | ⟨names, hnames⟩
  · rw [hnil] at htc
    cases htc
  · rw [hnames] at htc
    obtain ⟨rfl, -⟩ := List.cons.inj htc
    decide

/-- What may follow a share name. -/
abbrev AfterShare (invalid : List UInt16) (tail : NetString) : Prop :=
  tail = [] ∨ ∃ names, tail = backslash :: names ∧ Components invalid names

/-- The tests behind the scan over the share name, which has ended behind `base`. -/
theorem afterShare_iff (hinvalid : backslash ∉ invalid) (base tail : NetString) :
    afterShare (invalidCharMap invalid) (base ++ tail) base.length = .ok true ↔
      AfterShare invalid tail := by
  cases tail with
  | nil =>
    rw [List.append_nil, afterShare, if_pos rfl]
    exact ⟨fun _ => .inl rfl, fun _ => rfl⟩
  | cons c names =>
    have hlength : (base ++ c :: names).length = base.length + names.length + 1 := by
      rw [List.length_append, List.length_cons]
      omega
    have hmore : base.length ≠ (base ++ c :: names).length := by omega
    rw [afterShare, if_neg hmore, isDirSeparator_front]
    by_cases hsep : c = backslash
    · subst hsep
      have hassoc : base ++ backslash :: names = (base ++ [backslash]) ++ names := by
        rw [List.append_assoc, List.singleton_append]
      have hturns : base.length + names.length + 1 - (base.length + 1) = names.length := by
        omega
      have hloop := nameLoop_iff hinvalid names.length (base ++ [backslash]) names (Nat.le_refl _)
      rw [List.length_append, List.length_singleton, ← hassoc] at hloop
      rw [hlength, hturns]
      constructor
      · intro h
        by_cases hnames : names = []
        · subst hnames
          simp [bind, Except.bind, pure, Except.pure] at h
        · have hend : base.length + names.length + 1 ≠ base.length + 1 := by
            have hpos := List.length_pos_iff.mpr hnames
            omega
          simp only [bind, Except.bind, decide_true, Bool.not_true, Bool.false_eq_true, if_false,
            if_neg hend] at h
          exact .inr ⟨names, rfl, (hloop.mp h).resolve_left hnames⟩
      · intro h
        obtain hnil | ⟨next, hnext, hnames⟩ := h
        · cases hnil
        · obtain ⟨-, rfl⟩ := List.cons.inj hnext
          have hend : base.length + names.length + 1 ≠ base.length + 1 := by
            have hpos := List.length_pos_iff.mpr hnames.ne_nil
            omega
          simp only [bind, Except.bind, decide_true, Bool.not_true, Bool.false_eq_true, if_false,
            if_neg hend]
          exact hloop.mpr (.inr hnames)
    · constructor
      · intro h
        simp [hsep, bind, Except.bind] at h
        cases h
      · intro h
        obtain hnil | ⟨next, hnext, _⟩ := h
        · cases hnil
        · exact absurd (List.cons.inj hnext).1 hsep

/-- Behind a separator the scan takes what it can, and the tests come behind that. -/
theorem shareNormalized_run {front share tail : NetString} (hfront : front.length ≠ 2)
    (hreach : reach (shareAt unicode) (share ++ tail) = share.length) :
    shareNormalized unicode (invalidCharMap invalid) (front ++ backslash :: (share ++ tail))
        front.length =
      if share = [] then .ok false
      else afterShare (invalidCharMap invalid) ((front ++ backslash :: share) ++ tail)
        (front ++ backslash :: share).length := by
  have hsteps : (front ++ backslash :: (share ++ tail)).length - (front.length + 1) =
      (share ++ tail).length := by
    rw [List.length_append, List.length_cons]
    omega
  have hplace : ∀ i, (isLetterOrDigit unicode (front ++ backslash :: (share ++ tail)) i ||
      (front ++ backslash :: (share ++ tail))[i]?.any shareChars.contains) =
        shareAt unicode ((front ++ [backslash] ++ (share ++ tail)).drop i) := by
    intro i
    rw [shareAt, List.head?_drop, List.append_assoc, List.singleton_append]
    rfl
  have hbegin : (front ++ [backslash]).length = front.length + 1 := by
    rw [List.length_append, List.length_singleton]
  have hscan := scan_append hplace
  rw [hreach, hbegin] at hscan
  have hbase : front ++ backslash :: (share ++ tail) = (front ++ backslash :: share) ++ tail := by
    rw [List.append_assoc, List.cons_append]
  have hlength : front.length + 1 + share.length = (front ++ backslash :: share).length := by
    rw [List.length_append, List.length_cons]
    omega
  rw [shareNormalized, if_neg hfront, isDirSeparator_front]
  simp only [bind, Except.bind, decide_true, Bool.not_true, Bool.false_eq_true, if_false,
    hsteps, hscan, Nat.add_eq_left, List.length_eq_zero_iff]
  rw [hlength, hbase]
  rfl

theorem AfterShare.ends {tail : NetString} (h : AfterShare invalid tail) :
    tail = [] ∨ ∃ names, tail = backslash :: names :=
  h.imp_right fun ⟨names, hnames, _⟩ => ⟨names, hnames⟩

theorem shareNormalized_iff (hinvalid : backslash ∉ invalid) (front rest : NetString)
    (hfront : front.length ≠ 2) :
    shareNormalized unicode (invalidCharMap invalid) (front ++ rest) front.length = .ok true ↔
      ∃ share tail, rest = backslash :: (share ++ tail) ∧ share ≠ [] ∧
        (∀ c ∈ share, ShareChar unicode c) ∧ AfterShare invalid tail := by
  cases rest with
  | nil =>
    rw [shareNormalized, if_neg hfront, isDirSeparator, charAt, getElem?_front]
    constructor
    · intro h
      cases h
    · intro ⟨share, tail, h, _⟩
      cases h
  | cons c rest =>
    by_cases hsep : c = backslash
    · subst hsep
      obtain ⟨share, tail, rfl, hreach, hstop, hpassed⟩ := reach_split (shareAt unicode) rest
      rw [shareNormalized_run hfront hreach]
      constructor
      · intro h
        by_cases hshare : share = []
        · rw [if_pos hshare] at h
          cases h
        · rw [if_neg hshare, afterShare_iff hinvalid] at h
          exact ⟨share, tail, rfl, hshare, share_of_scanned hpassed h.ends, h⟩
      · intro ⟨share', tail', hsplit, hnonempty, hshare, htail⟩
        have hsame := (List.cons.inj hsplit).2
        have hreach' := reach_share hshare htail.ends
        rw [← hsame, hreach] at hreach'
        obtain ⟨rfl, rfl⟩ := List.append_inj hsame hreach'
        rw [if_neg hnonempty]
        exact (afterShare_iff hinvalid _ _).mpr htail
    · constructor
      · intro h
        rw [shareNormalized, if_neg hfront, isDirSeparator_front] at h
        simp [hsep, bind, Except.bind, pure, Except.pure] at h
      · intro ⟨share, tail, h, _⟩
        exact absurd (List.cons.inj h).1 hsep

theorem hostChar_backslash : hostChar backslash = false := by decide

/-- The host name of a UNC path ends at the first character that it cannot have. -/
theorem uncNormalized_run {rest : NetString} (hrest : rest ≠ []) :
    isNormalizedFullPath unicode invalid (backslash :: backslash :: rest) =
      shareNormalized unicode (invalidCharMap invalid)
        ((backslash :: backslash :: rest.takeWhile hostChar) ++ rest.dropWhile hostChar)
        (backslash :: backslash :: rest.takeWhile hostChar).length := by
  have hplace : ∀ i, (backslash :: backslash :: rest)[i]?.any hostChar =
      (([backslash, backslash] ++ rest).drop i).head?.any hostChar := by
    intro i
    rw [List.head?_drop]
    rfl
  have hscan := @scan_append _ _ (fun left => left.head?.any hostChar) _ _ hplace
  rw [reach_head] at hscan
  have hnonempty : (backslash :: backslash :: rest) ≠ [] := List.cons_ne_nil _ _
  have hlong : ¬(backslash :: backslash :: rest).length < 3 := by
    have hpos := List.length_pos_iff.mpr hrest
    rw [List.length_cons, List.length_cons]
    omega
  have hfirst : isDirSeparator (backslash :: backslash :: rest) 0 = .ok true := rfl
  have hsecond : isDirSeparator (backslash :: backslash :: rest) 1 = .ok true := rfl
  have hsteps : (backslash :: backslash :: rest).length - 2 = rest.length := by simp
  have hstop : 2 + (rest.takeWhile hostChar).length =
      (backslash :: backslash :: rest.takeWhile hostChar).length := by
    rw [List.length_cons, List.length_cons]
    omega
  rw [isNormalizedFullPath, if_neg hnonempty, if_neg hlong, hfirst]
  simp only [bind, Except.bind, hsecond, Bool.not_true, Bool.false_eq_true, if_false, if_true]
  rw [hsteps, ← hstop, List.cons_append, List.cons_append, List.takeWhile_append_dropWhile]
  exact congrArg _ hscan

/-- A host name that a separator follows is scanned to its end. -/
theorem host_scanned {host rest : NetString} (hhost : ∀ c ∈ host, hostChar c = true) :
    (host ++ backslash :: rest).takeWhile hostChar = host ∧
      (host ++ backslash :: rest).dropWhile hostChar = backslash :: rest := by
  have hstop : ¬hostChar backslash = true := by
    rw [hostChar_backslash]
    exact Bool.false_ne_true
  constructor
  · rw [List.takeWhile_append_of_pos hhost, List.takeWhile_cons_of_neg hstop, List.append_nil]
  · rw [List.dropWhile_append_of_pos hhost, List.dropWhile_cons_of_neg hstop]

theorem uncNormalized_iff (hinvalid : backslash ∉ invalid) (rest : NetString)
    (hrest : rest ≠ []) :
    isNormalizedFullPath unicode invalid (backslash :: backslash :: rest) = .ok true ↔
      NormalizedPath unicode invalid (backslash :: backslash :: rest) := by
  rw [uncNormalized_run hrest]
  constructor
  · intro h
    by_cases hhost : rest.takeWhile hostChar = []
    · rw [hhost] at h
      cases h
    · have hfront : (backslash :: backslash :: rest.takeWhile hostChar).length ≠ 2 := by
        simpa using hhost
      obtain ⟨share, tail, hsplit, hshare, hchars, htail⟩ :=
        (shareNormalized_iff hinvalid _ _ hfront).mp h
      have hpath : backslash :: backslash :: rest =
          backslash :: backslash :: rest.takeWhile hostChar ++ backslash :: share ++ tail := by
        have hparts := @List.takeWhile_append_dropWhile _ hostChar rest
        rw [hsplit] at hparts
        simpa using hparts.symm
      rw [hpath]
      exact .share hhost (fun c hc => List.mem_takeWhile_imp hc) hshare hchars htail
  · intro h
    generalize hpath : backslash :: backslash :: rest = path at h
    cases h with
    | drive hupper _ =>
      obtain ⟨rfl, -⟩ := List.cons.inj hpath
      cases hupper
    | @share host share tail hhost hhostChars hshare hchars htail =>
      obtain rfl : rest = host ++ backslash :: (share ++ tail) := by
        simpa using hpath
      have hfront : (backslash :: backslash :: host).length ≠ 2 := by
        simpa using hhost
      rw [(host_scanned hhostChars).1, (host_scanned hhostChars).2]
      exact (shareNormalized_iff hinvalid _ _ hfront).mpr
        ⟨share, tail, rfl, hshare, hchars, htail⟩

theorem driveNormalized_run {letter second third : UInt16} (hletter : letter ≠ backslash)
    (rest : NetString) :
    isNormalizedFullPath unicode invalid (letter :: second :: third :: rest) =
      if second = colon ∧ third = backslash ∧ isUpper letter = true then
        nameLoop (invalidCharMap invalid) ([letter, second, third] ++ rest) rest.length
          [letter, second, third].length
      else .ok false := by
  have hlong : ¬(letter :: second :: third :: rest).length < 3 := by simp
  have hfirst : isDirSeparator (letter :: second :: third :: rest) 0 = .ok false := by
    have hread := isDirSeparator_front [] letter (second :: third :: rest)
    rw [decide_eq_false hletter] at hread
    exact hread
  have hsecond : charAt (letter :: second :: third :: rest) 1 = .ok second := rfl
  have hthird : isDirSeparator (letter :: second :: third :: rest) 2 =
      .ok (decide (third = backslash)) := rfl
  have hletter : charAt (letter :: second :: third :: rest) 0 = .ok letter := rfl
  have hsteps : (letter :: second :: third :: rest).length - 3 = rest.length := by simp
  rw [isNormalizedFullPath, if_neg (List.cons_ne_nil _ _), if_neg hlong, hfirst]
  simp only [bind, Except.bind, hsecond, hthird, hletter, hsteps, Bool.false_eq_true, if_false]
  by_cases hcolon : second = colon
  · by_cases hbackslash : third = backslash
    · cases hupper : isUpper letter with
      | true => simp [hcolon, hbackslash]
      | false => simp [hcolon, hbackslash, pure, Except.pure]
    · simp [hcolon, hbackslash, pure, Except.pure]
  · simp [hcolon, pure, Except.pure]

theorem driveNormalized_iff (hinvalid : backslash ∉ invalid) (letter : UInt16)
    (hletter : letter ≠ backslash) (rest : NetString) (hlength : 2 ≤ rest.length) :
    isNormalizedFullPath unicode invalid (letter :: rest) = .ok true ↔
      NormalizedPath unicode invalid (letter :: rest) := by
  obtain ⟨second, rest, rfl⟩ := List.exists_cons_of_length_pos (by omega : 0 < rest.length)
  obtain ⟨third, rest, rfl⟩ := List.exists_cons_of_length_pos
    (by rw [List.length_cons] at hlength; omega : 0 < rest.length)
  have hloop := nameLoop_iff hinvalid rest.length [letter, second, third] rest (Nat.le_refl _)
  rw [driveNormalized_run hletter]
  constructor
  · intro h
    split at h
    · rename_i hdrive
      obtain ⟨rfl, rfl, hupper⟩ := hdrive
      exact .drive hupper (hloop.mp h)
    · cases h
  · intro h
    generalize hpath : letter :: second :: third :: rest = path at h
    cases h with
    | drive hupper hrest =>
      obtain ⟨rfl, rfl, rfl, rfl⟩ : letter = _ ∧ second = colon ∧ third = backslash ∧ rest = _ := by
        simpa using hpath
      rw [if_pos ⟨rfl, rfl, hupper⟩]
      exact hloop.mpr hrest
    | share => exact absurd (List.cons.inj hpath).1 hletter

theorem NormalizedPath.three_le {path : NetString} (h : NormalizedPath unicode invalid path) :
    3 ≤ path.length := by
  cases h with
  | drive => simp
  | share hhost =>
    have hpos := List.length_pos_iff.mpr hhost
    simp only [List.length_append, List.length_cons]
    omega

theorem short_run {path : NetString} (hpath : path ≠ []) (hshort : path.length < 3) :
    isNormalizedFullPath unicode invalid path = .ok false := by
  rw [isNormalizedFullPath, if_neg hpath, if_pos hshort]
  rfl

theorem short_not_normalized {path : NetString} (hshort : path.length < 3) :
    isNormalizedFullPath unicode invalid path ≠ .ok true := by
  intro h
  by_cases hempty : path = []
  · rw [isNormalizedFullPath, if_pos hempty] at h
    cases h
  · rw [short_run hempty hshort] at h
    cases h

/-- A single separator at the start is none of the beginnings. -/
theorem separator_run {second : UInt16} {rest : NetString} (hsecond : second ≠ backslash)
    (hrest : rest ≠ []) :
    isNormalizedFullPath unicode invalid (backslash :: second :: rest) = .ok false := by
  have hlong : ¬(backslash :: second :: rest).length < 3 := by
    have hpos := List.length_pos_iff.mpr hrest
    rw [List.length_cons, List.length_cons]
    omega
  have hread : isDirSeparator (backslash :: second :: rest) 1 =
      .ok (decide (second = backslash)) := rfl
  have hzero : isDirSeparator (backslash :: second :: rest) 0 = .ok true := rfl
  rw [isNormalizedFullPath, if_neg (List.cons_ne_nil _ _), if_neg hlong, hzero]
  simp [bind, Except.bind, pure, Except.pure, hread, hsecond]

theorem NormalizedPath.second_separator {second : UInt16} {rest : NetString}
    (h : NormalizedPath unicode invalid (backslash :: second :: rest)) : second = backslash := by
  generalize hpath : backslash :: second :: rest = path at h
  cases h with
  | drive hupper =>
    obtain ⟨rfl, -⟩ := List.cons.inj hpath
    cases hupper
  | share => exact (List.cons.inj (List.cons.inj hpath).2).1

/-- How a path can begin, as the function tells it. -/
theorem beginnings (path : NetString) :
    path.length < 3 ∨
      (∃ rest, rest ≠ [] ∧ path = backslash :: backslash :: rest) ∨
      (∃ second rest, second ≠ backslash ∧ rest ≠ [] ∧ path = backslash :: second :: rest) ∨
      ∃ letter rest, letter ≠ backslash ∧ 2 ≤ rest.length ∧ path = letter :: rest := by
  by_cases hshort : path.length < 3
  · exact .inl hshort
  · obtain ⟨first, rest, rfl⟩ := List.exists_cons_of_length_pos (by omega : 0 < path.length)
    rw [List.length_cons] at hshort
    obtain ⟨second, rest, rfl⟩ := List.exists_cons_of_length_pos (by omega : 0 < rest.length)
    rw [List.length_cons] at hshort
    have hrest : rest ≠ [] := List.length_pos_iff.mp (by omega)
    right
    by_cases hfirst : first = backslash
    · subst hfirst
      by_cases hsecond : second = backslash
      · subst hsecond
        exact .inl ⟨rest, hrest, rfl⟩
      · exact .inr (.inl ⟨second, rest, hsecond, hrest, rfl⟩)
    · have hlength : 2 ≤ (second :: rest).length := by
        rw [List.length_cons]
        omega
      exact .inr (.inr ⟨first, second :: rest, hfirst, hlength, rfl⟩)

theorem NormalizedPath.of_isNormalized (hinvalid : backslash ∉ invalid) {path : NetString}
    (h : isNormalizedFullPath unicode invalid path = .ok true) :
    NormalizedPath unicode invalid path := by
  obtain hshort | ⟨rest, hrest, rfl⟩ | ⟨second, rest, hsecond, hrest, rfl⟩ |
    ⟨letter, rest, hletter, hlength, rfl⟩ := beginnings path
  · exact absurd h (short_not_normalized hshort)
  · exact (uncNormalized_iff hinvalid rest hrest).mp h
  · rw [separator_run hsecond hrest] at h
    cases h
  · exact (driveNormalized_iff hinvalid letter hletter rest hlength).mp h

theorem NormalizedPath.isNormalized (hinvalid : backslash ∉ invalid) {path : NetString}
    (h : NormalizedPath unicode invalid path) :
    isNormalizedFullPath unicode invalid path = .ok true := by
  obtain hshort | ⟨rest, hrest, rfl⟩ | ⟨second, rest, hsecond, hrest, rfl⟩ |
    ⟨letter, rest, hletter, hlength, rfl⟩ := beginnings path
  · exact absurd h.three_le (Nat.not_le_of_lt hshort)
  · exact (uncNormalized_iff hinvalid rest hrest).mpr h
  · exact absurd h.second_separator hsecond
  · exact (driveNormalized_iff hinvalid letter hletter rest hlength).mpr h

/-- `IsNormalizedFullPath` recognizes the grammar. -/
theorem isNormalizedFullPath_iff (unicode : UnicodeData) (invalid : List UInt16)
    (hinvalid : backslash ∉ invalid) (path : NetString) :
    isNormalizedFullPath unicode invalid path = .ok true ↔
      NormalizedPath unicode invalid path := by
  constructor
  · intro h
    exact .of_isNormalized hinvalid h
  · intro h
    exact h.isNormalized hinvalid

/-- What is known of ASCII characters. -/
def asciiUnicode : UnicodeData where
  letterOrDigit c := c.isAlphanum
  letterOrDigit_ascii _ _ := rfl
  letterOrDigit_replacement := by decide
  toLower c := if isUpper c then c + 0x20 else c
  toLower_ascii _ _ := rfl

/-- "C:\a" -/
theorem normalizedPath_drive : NormalizedPath asciiUnicode [0x7c] [0x43, 0x3a, 0x5c, 0x61] :=
  (isNormalizedFullPath_iff asciiUnicode [0x7c] (by decide) _).mp (by decide)

end SharpGit.GitClient.GitTools
