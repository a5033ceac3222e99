import SharpGit.Implementation.GitPool

namespace SharpGit.Plumbing

open Library Native Svn Implementation

inductive GitRefSpecException
  | argumentNull (param : String)
  deriving DecidableEq, Repr

structure GitRefSpec where
  source : NetString
  destination : NetString
  updateAlways : Bool
  deriving DecidableEq, Repr

namespace GitRefSpec

abbrev plus : UInt16 := 0x2b
abbrev colon : UInt16 := 0x3a

/-- The two parts as both constructors store them. -/
def canonicalPart (part : NetString) : NetString :=
  utf8PtrToString (svnRelpathCanonicalize (upToNul (allocString part)))

/-- `GitRefSpec(source, destination, updateAlways)`. -/
def ofParts (source destination : Option NetString) (updateAlways : Bool) :
    Except GitRefSpecException GitRefSpec :=
  match source, destination with
  | none, _ => .error (.argumentNull "source")
  | _, none => .error (.argumentNull "destination")
  | some source, some destination =>
    .ok ⟨canonicalPart source, canonicalPart destination, updateAlways⟩

/-- `GitRefSpec(source, destination)`. -/
def ofNames (source destination : Option NetString) : Except GitRefSpecException GitRefSpec :=
  ofParts source destination false

def toString (spec : GitRefSpec) : NetString :=
  if spec.updateAlways then [plus] ++ spec.source ++ [colon] ++ spec.destination
  else spec.source ++ [colon] ++ spec.destination

def equals (spec : GitRefSpec) (other : Option GitRefSpec) : Bool :=
  match other with
  | none => false
  | some other => spec.toString == other.toString

def compareTo (compare : NetString → NetString → Int) (spec other : GitRefSpec) : Int :=
  let n := compare spec.source other.source
  let n := if n = 0 then compare spec.destination other.destination else n
  if n ≠ 0 then n
  else if spec.updateAlways = other.updateAlways then 0
  else if spec.updateAlways then -1
  else 1

/-- The source with the sign that stands before it. -/
def signed (spec : GitRefSpec) : NetString :=
  if spec.updateAlways then plus :: spec.source else spec.source

/-- All fields coincide. -/
def Same (spec other : GitRefSpec) : Prop :=
  spec.source = other.source ∧ spec.destination = other.destination ∧
    spec.updateAlways = other.updateAlways

/-- A sign that is written as a part of the source, or a colon of one that is the delimiter of the
other. -/
def Ambiguous (spec other : GitRefSpec) : Prop :=
  (spec.updateAlways ≠ other.updateAlways ∧ spec.signed = other.signed ∧
    spec.destination = other.destination) ∨
  (∃ m, other.signed = spec.signed ++ colon :: m ∧
    spec.destination = m ++ colon :: other.destination) ∨
  ∃ m, spec.signed = other.signed ++ colon :: m ∧
    other.destination = m ++ colon :: spec.destination

/-- What is asked of equality and order. -/
structure Agrees (compare : NetString → NetString → Int) (spec other : GitRefSpec) : Prop where
  order : spec.equals (some other) = true ↔ spec.compareTo compare other = 0
  fields : spec.compareTo compare other = 0 ↔ spec.Same other

variable {spec other : GitRefSpec}

theorem toString_eq (spec : GitRefSpec) :
    spec.toString = spec.signed ++ colon :: spec.destination := by
  rw [toString, signed]
  split
  · simp
  · simp

theorem signed_inj (hsigned : spec.signed = other.signed)
    (hflag : spec.updateAlways = other.updateAlways) : spec.source = other.source := by
  rw [signed, signed, hflag] at hsigned
  split at hsigned
  · exact (List.cons.inj hsigned).2
  · exact hsigned

/-- The text is the same where the fields are, and where it is ambiguous. -/
theorem toString_eq_iff :
    spec.toString = other.toString ↔ spec.Same other ∨ Ambiguous spec other := by
  rw [toString_eq, toString_eq, joined_eq_iff]
  constructor
  · intro h
    obtain ⟨hsigned, hdestination⟩ | hshifted := h
    · by_cases hflag : spec.updateAlways = other.updateAlways
      · exact .inl ⟨signed_inj hsigned hflag, hdestination, hflag⟩
      · exact .inr (.inl ⟨hflag, hsigned, hdestination⟩)
    · exact .inr (.inr hshifted)
  · intro h
    obtain ⟨hsource, hdestination, hflag⟩ | ⟨-, hsigned, hdestination⟩ | hshifted := h
    · exact .inl ⟨by rw [signed, signed, hsource, hflag], hdestination⟩
    · exact .inl ⟨hsigned, hdestination⟩
    · exact .inr hshifted

/-- Fields that coincide are never ambiguous: what is appended would be of no length. -/
theorem Same.not_ambiguous (h : spec.Same other) : ¬Ambiguous spec other := by
  obtain ⟨hsource, hdestination, hflag⟩ := h
  have hsigned : spec.signed = other.signed := by rw [signed, signed, hsource, hflag]
  intro hambiguous
  obtain ⟨hne, -, -⟩ | ⟨m, hshift, -⟩ | ⟨m, hshift, -⟩ := hambiguous
  · exact hne hflag
  · have hlength := congrArg List.length hshift
    rw [hsigned, List.length_append, List.length_cons] at hlength
    omega
  · have hlength := congrArg List.length hshift
    rw [hsigned, List.length_append, List.length_cons] at hlength
    omega

/-- Without colons and leading signs in the sources the text tells everything. -/
theorem toString_injective_of_plain (hspec : colon ∉ spec.source) (hother : colon ∉ other.source)
    (hspecSign : spec.source.head? ≠ some plus) (hotherSign : other.source.head? ≠ some plus)
    (h : spec.toString = other.toString) : spec.Same other := by
  have hplain {spec : GitRefSpec} (hcolon : colon ∉ spec.source) : colon ∉ spec.signed := by
    rw [signed]
    split
    · exact List.not_mem_cons_of_ne_of_not_mem (by decide) hcolon
    · exact hcolon
  obtain hsame | hambiguous := toString_eq_iff.mp h
  · exact hsame
  · obtain ⟨hflag, hsigned, -⟩ | ⟨m, hshift, -⟩ | ⟨m, hshift, -⟩ := hambiguous
    · rw [signed, signed] at hsigned
      split at hsigned
      · split at hsigned
        · simp_all
        · exact (hotherSign (by rw [← hsigned, List.head?_cons])).elim
      · split at hsigned
        · exact (hspecSign (by rw [hsigned, List.head?_cons])).elim
        · simp_all
    · exact (hplain hother (by rw [hshift]; simp)).elim
    · exact (hplain hspec (by rw [hshift]; simp)).elim

section Compare

variable {compare : NetString → NetString → Int} (hcompare : ∀ s t, compare s t = 0 ↔ s = t)

include hcompare

theorem compareTo_eq_zero_iff : spec.compareTo compare other = 0 ↔ spec.Same other := by
  obtain ⟨source, destination, updateAlways⟩ := spec
  obtain ⟨source', destination', updateAlways'⟩ := other
  have hself (s : NetString) : compare s s = 0 := (hcompare s s).mpr rfl
  rw [compareTo, Same]
  by_cases hsource : source = source'
  · subst hsource
    by_cases hdestination : destination = destination'
    · subst hdestination
      by_cases hflag : updateAlways = updateAlways'
      · simp [hself, hflag]
      · cases updateAlways with
        | true => simp [hself, hflag]
        | false => simp [hself, hflag]
    · have hne : compare destination destination' ≠ 0 :=
        fun h => hdestination ((hcompare _ _).mp h)
      simp [hself, hne, hdestination]
  · have hne : compare source source' ≠ 0 := fun h => hsource ((hcompare _ _).mp h)
    simp [hne, hsource]

theorem agrees_iff : Agrees compare spec other ↔ ¬Ambiguous spec other := by
  have hfields := @compareTo_eq_zero_iff spec other compare hcompare
  have hequals : spec.equals (some other) = true ↔ spec.Same other ∨ Ambiguous spec other := by
    rw [equals, beq_iff_eq, toString_eq_iff]
  constructor
  · intro h hambiguous
    have hsame := hfields.mp (h.order.mp (hequals.mpr (.inr hambiguous)))
    exact hsame.not_ambiguous hambiguous
  · intro h
    refine ⟨?_, hfields⟩
    rw [hequals, hfields]
    exact ⟨fun hor => hor.resolve_right h, .inl⟩

/-- Two refspecs that are built from any parts. -/
theorem ofParts_agrees_iff (source destination source' destination' : NetString)
    (updateAlways updateAlways' : Bool) :
    ∃ spec other, ofParts (some source) (some destination) updateAlways = .ok spec ∧
      ofParts (some source') (some destination') updateAlways' = .ok other ∧
      (Agrees compare spec other ↔ ¬Ambiguous spec other) :=
  ⟨_, _, rfl, rfl, agrees_iff hcompare⟩

end Compare

/-- `String::CompareTo`, by the units of the strings. -/
def ordinalCompare (s t : NetString) : Int := if s = t then 0 else if s < t then -1 else 1

theorem ordinalCompare_eq_zero (s t : NetString) : ordinalCompare s t = 0 ↔ s = t := by
  rw [ordinalCompare]
  split
  · simp [*]
  · split
    · simp [*]
    · simp [*]

/-- "+a:b" beside "a:c" -/
theorem ofParts_agrees_apart :
    ∃ spec other, ofParts (some [0x61]) (some [0x62]) true = .ok spec ∧
      ofParts (some [0x61]) (some [0x63]) false = .ok other ∧ Agrees ordinalCompare spec other := by
  obtain ⟨spec, other, hspec, hother, hagrees⟩ :=
    ofParts_agrees_iff ordinalCompare_eq_zero [0x61] [0x62] [0x61] [0x63] true false
  refine ⟨spec, other, hspec, hother, hagrees.mpr ?_⟩
  obtain rfl := Except.ok.inj hspec
  obtain rfl := Except.ok.inj hother
  rintro (⟨-, hsigned, -⟩ | ⟨m, hsigned, -⟩ | ⟨m, hsigned, -⟩)
  · revert hsigned
    decide
  · cases hsigned
  · cases hsigned

/-- Both have the text "+a:b". -/
theorem equals_sign_in_source :
    ∃ spec other, ofParts (some [0x61]) (some [0x62]) true = .ok spec ∧
      ofParts (some [0x2b, 0x61]) (some [0x62]) false = .ok other ∧
      spec.equals (some other) = true ∧ ¬spec.Same other ∧ ¬Agrees ordinalCompare spec other := by
  refine ⟨⟨[0x61], [0x62], true⟩, ⟨[0x2b, 0x61], [0x62], false⟩, by decide, by decide, by decide,
    ?_, ?_⟩
  · intro h
    cases h.2.2
  · intro h
    have hequals := h.order.mp (by decide)
    revert hequals
    decide

end GitRefSpec

end SharpGit.Plumbing
