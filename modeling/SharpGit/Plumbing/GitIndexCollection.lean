import SharpGit.Library.Runs
import SharpGit.Plumbing.GitIndex

namespace SharpGit.Plumbing

open Library Native Implementation

/-- A managed reference. `GitIndexEntry` has the equality of `Object`, which compares these. -/
abbrev EntryRef := Nat

/-- A `GitIndex`, without a native index once it is disposed. Every object that has been made of
it stands for a native entry; its reference is its place in the list. -/
structure IndexObject where
  index : Option Index
  entries : List IndexEntry

abbrev IndexAction := Action IndexObject Failure

namespace IndexObject

def assertOpen : IndexAction Index := do
  match (← Action.get).index with
  | none => Action.raise (.objectDisposed "index")
  | some index => return index

/-- `Count`. -/
def count : IndexAction Nat := do
  match (← Action.get).index with
  | none => return 0
  | some index => return index.length

/-- `gcnew GitIndexEntry`. -/
def newEntry (entry : IndexEntry) : IndexAction EntryRef := do
  let object ← Action.get
  Action.modify fun object => { object with entries := object.entries ++ [entry] }
  return object.entries.length

/-- `default[int]`. -/
def item (i : Int) : IndexAction EntryRef := do
  let stored ← assertOpen
  if i < 0 then Action.raise (.argumentOutOfRange "index")
  else
    match stored[i.toNat]? with
    | none => Action.raise (.argumentOutOfRange "index")
    | some entry => newEntry entry

/-- The loop of `GetEnumerator`, with `n` turns left. -/
def items : Nat → Nat → IndexAction (List EntryRef)
  | 0, _ => return []
  | n + 1, i => do
    let e ← item i
    let rest ← items n (i + 1)
    return e :: rest

def getEnumerator : IndexAction (List EntryRef) := do
  let _ ← assertOpen
  let cnt ← count
  items cnt 0

def contains (entry : Option EntryRef) : IndexAction Bool := do
  let items ← getEnumerator
  return items.any fun i => some i == entry

/-- `Remove(int)`. -/
def removeAt (api : IndexApi) (i : Int) : IndexAction Bool := do
  let stored ← assertOpen
  if i < 0 then Action.raise (.argumentOutOfRange "index")
  else
    match stored[i.toNat]? with
    | none => return false
    | some entry =>
      let (r, stored) := api.remove stored entry.path entry.stage
      Action.modify fun object => { object with index := some stored }
      return r == 0

/-- The loop of `Remove(GitIndexEntry^)`. -/
def removeFrom (api : IndexApi) (entry : Option EntryRef) : List EntryRef → Nat → IndexAction Bool
  | [], _ => return false
  | i :: items, n => if some i = entry then removeAt api n else removeFrom api entry items (n + 1)

def remove (api : IndexApi) (entry : Option EntryRef) : IndexAction Bool := do
  let items ← getEnumerator
  removeFrom api entry items 0

theorem item_run {object : IndexObject} {stored : Index} (hopen : object.index = some stored)
    {i : Nat} {entry : IndexEntry} (hentry : stored[i]? = some entry) :
    (item i).run object =
      (.ok object.entries.length, { object with entries := object.entries ++ [entry] }) := by
  have hpos : ¬((i : Int) < 0) := by omega
  simp only [item, assertOpen, newEntry, Action.run_bind, Action.run_get, hopen, Action.run_pure,
    if_neg hpos, Int.toNat_natCast, hentry, Action.run_modify]

/-- The enumerator makes a new object for every native entry. -/
theorem items_run {object : IndexObject} {stored : Index} (hopen : object.index = some stored)
    {n i : Nat} (hn : i + n = stored.length) :
    (items n i).run object =
      (.ok (List.range' object.entries.length n),
        { object with entries := object.entries ++ stored.drop i }) := by
  induction n generalizing object i with
  | zero =>
    have hend : stored.drop i = [] := List.drop_eq_nil_of_le (by omega)
    rw [items, hend, List.append_nil]
    rfl
  | succ n ih =>
    have hlt : i < stored.length := by omega
    have hentry : stored[i]? = some stored[i] := List.getElem?_eq_getElem hlt
    have hrest := @ih { object with entries := object.entries ++ [stored[i]] } hopen (i + 1)
      (by omega)
    rw [items, Action.run_bind, item_run hopen hentry]
    dsimp only
    rw [Action.run_bind, hrest]
    rw [List.drop_eq_getElem_cons hlt]
    simp [List.range'_succ]

theorem getEnumerator_run {object : IndexObject} {stored : Index}
    (hopen : object.index = some stored) :
    getEnumerator.run object =
      (.ok (List.range' object.entries.length stored.length),
        { object with entries := object.entries ++ stored }) := by
  have hitems := items_run hopen (Nat.zero_add stored.length)
  rw [List.drop_zero] at hitems
  simp only [getEnumerator, assertOpen, count, Action.run_bind, Action.run_get, hopen,
    Action.run_pure, hitems]

/-- The object that has been made at a place in the enumeration stands for the entry there, which
is the one that `Remove(int)` takes out. -/
theorem removeAt_run {api : IndexApi} (hapi : api.Removes) {object : IndexObject}
    {before rest : Index} {entry : IndexEntry} (hsorted : SortedIndex (before ++ entry :: rest))
    (hopen : object.index = some (before ++ entry :: rest)) :
    (removeAt api before.length).run object =
      (.ok true, { object with index := some (before ++ rest) }) := by
  have hpos : ¬((before.length : Int) < 0) := by omega
  have hentry : (before ++ entry :: rest)[before.length]? = some entry := by simp
  simp only [removeAt, assertOpen, Action.run_bind, Action.run_get, hopen, Action.run_pure,
    if_neg hpos, Int.toNat_natCast, hentry, Action.run_modify, remove_entry hapi hsorted]
  rfl

section Known

variable {object : IndexObject} {stored : Index} (hopen : object.index = some stored)
  {e : EntryRef} (he : e < object.entries.length)

include he

/-- No object that is there already is among those of a new enumeration. -/
theorem known_not_mem : e ∉ List.range' object.entries.length stored.length := by
  intro hmem
  have hge := (List.mem_range'_1.mp hmem).1
  exact absurd he (Nat.not_lt.mpr hge)

include hopen

theorem contains_known : (contains (some e)).run object =
    (.ok false, { object with entries := object.entries ++ stored }) := by
  have hnone : (List.range' object.entries.length stored.length).any (fun i => some i == some e) =
      false := by
    rw [List.any_eq_false]
    intro i hi
    have hne : i ≠ e := fun h => known_not_mem he (h ▸ hi)
    simpa using hne
  rw [contains, Action.run_bind, getEnumerator_run hopen]
  dsimp only
  rw [hnone]
  rfl

theorem remove_known (api : IndexApi) : (remove api (some e)).run object =
    (.ok false, { object with entries := object.entries ++ stored }) := by
  have hfrom : ∀ (items : List EntryRef) (n : Nat) (object : IndexObject), e ∉ items →
      (removeFrom api (some e) items n).run object = (.ok false, object) := by
    intro items n object hnot
    induction items generalizing n with
    | nil => rfl
    | cons i items ih =>
      obtain ⟨hne, hrest⟩ := not_or.mp (mt List.mem_cons.mpr hnot)
      rw [removeFrom, if_neg (fun h => hne (Option.some.inj h).symm)]
      exact ih (n + 1) hrest
  rw [remove, Action.run_bind, getEnumerator_run hopen]
  exact hfrom _ _ _ (known_not_mem he)

end Known

inductive IndexRead
  | item (i : Int)
  | enumerate
  | contains (entry : Option EntryRef)

def read (object : IndexObject) : IndexRead → IndexObject
  | .item i => ((item i).run object).2
  | .enumerate => (getEnumerator.run object).2
  | .contains entry => ((contains entry).run object).2

/-- The object has been given out by an enumeration or by `default[int]`. -/
inductive Obtained (object : IndexObject) (e : EntryRef) (after : IndexObject) : Prop
  | enumerated (items : List EntryRef) (h : getEnumerator.run object = (.ok items, after))
      (hmem : e ∈ items)
  | indexed (i : Int) (h : (item i).run object = (.ok e, after))

/-- What is asked of an object: it is found, and it can be removed with the native entry that it
stands for. -/
structure Agrees (api : IndexApi) (object : IndexObject) (e : EntryRef) : Prop where
  contains : ((contains (some e)).run object).1 = .ok true
  remove : ∃ before entry rest, object.index = some (before ++ entry :: rest) ∧
    object.entries[e]? = some entry ∧ ((remove api (some e)).run object).1 = .ok true ∧
      ((remove api (some e)).run object).2.index = some (before ++ rest)

/-- The index is this one, and the object is there. -/
def Knows (stored : Index) (e : EntryRef) (object : IndexObject) : Prop :=
  object.index = some stored ∧ e < object.entries.length

/-- Every operation that reads leaves the index and only adds objects. -/
theorem item_cases (object : IndexObject) (i : Int) :
    (∃ error, (item i).run object = (.error error, object)) ∨
      ∃ stored entry, object.index = some stored ∧ stored[i.toNat]? = some entry ∧
        (item i).run object =
          (.ok object.entries.length, { object with entries := object.entries ++ [entry] }) := by
  cases hopen : object.index with
  | none =>
    refine .inl ⟨.objectDisposed "index", ?_⟩
    simp only [item, assertOpen, Action.run_bind, Action.run_get, hopen, Action.run_raise]
  | some stored =>
    by_cases hneg : i < 0
    · refine .inl ⟨.argumentOutOfRange "index", ?_⟩
      simp only [item, assertOpen, Action.run_bind, Action.run_get, hopen, Action.run_pure,
        if_pos hneg, Action.run_raise]
    · cases hentry : stored[i.toNat]? with
      | none =>
        refine .inl ⟨.argumentOutOfRange "index", ?_⟩
        simp only [item, assertOpen, Action.run_bind, Action.run_get, hopen, Action.run_pure,
          if_neg hneg, hentry, Action.run_raise]
      | some entry =>
        refine .inr ⟨stored, entry, rfl, hentry, ?_⟩
        have hrun := item_run hopen hentry
        rwa [hopen, Int.toNat_of_nonneg (by omega)] at hrun

theorem read_knows {stored : Index} {e : EntryRef} (object : IndexObject) (event : IndexRead)
    (h : Knows stored e object) : Knows stored e (object.read event) := by
  obtain ⟨hopen, he⟩ := h
  cases event with
  | item i =>
    obtain ⟨error, hrun⟩ | ⟨_, entry, _, _, hrun⟩ := item_cases object i
    · rw [read, hrun]
      exact ⟨hopen, he⟩
    · rw [read, hrun]
      exact ⟨hopen, by simpa using Nat.lt_succ_of_lt he⟩
  | enumerate =>
    rw [read, getEnumerator_run hopen]
    exact ⟨hopen, by simpa using Nat.lt_add_right _ he⟩
  | contains entry =>
    have hrun : ((contains entry).run object).2 =
        { object with entries := object.entries ++ stored } := by
      rw [contains, Action.run_bind, getEnumerator_run hopen]
      rfl
    rw [read, hrun]
    exact ⟨hopen, by simpa using Nat.lt_add_right _ he⟩

theorem Obtained.knows {object after : IndexObject} {e : EntryRef} (h : Obtained object e after) :
    ∃ stored, Knows stored e after := by
  cases h with
  | enumerated items h hmem =>
    cases hopen : object.index with
    | none =>
      simp only [getEnumerator, assertOpen, Action.run_bind, Action.run_get, hopen,
        Action.run_raise] at h
      cases h
    | some stored =>
      rw [getEnumerator_run hopen] at h
      obtain ⟨hitems, rfl⟩ := Prod.mk.inj h
      obtain rfl := Except.ok.inj hitems
      have hlt := (List.mem_range'_1.mp hmem).2
      exact ⟨stored, hopen, by simpa using hlt⟩
  | indexed i h =>
    obtain ⟨error, hrun⟩ | ⟨stored, entry, hopen, _, hrun⟩ := item_cases object i
    · rw [hrun] at h
      cases h
    · rw [hrun] at h
      obtain ⟨he, rfl⟩ := Prod.mk.inj h
      obtain rfl := Except.ok.inj he
      exact ⟨stored, hopen, by simp⟩

/-- Whatever is read in between, an object that the index has given out is neither found in it nor
removed with it. -/
theorem obtained_not_found (api : IndexApi) (object after : IndexObject) (e : EntryRef)
    (h : Obtained object e after) (reads : List IndexRead) :
    ((contains (some e)).run (Events.run read after reads)).1 = .ok false ∧
      ((remove api (some e)).run (Events.run read after reads)).1 = .ok false ∧
      ((remove api (some e)).run (Events.run read after reads)).2.index = after.index ∧
      ¬Agrees api (Events.run read after reads) e := by
  obtain ⟨stored, hafter⟩ := h.knows
  obtain ⟨hopen, he⟩ := Events.run_invariant (Knows stored e) read_knows hafter reads
  have hcontains := contains_known hopen he
  have hremove := remove_known hopen he api
  refine ⟨by rw [hcontains], by rw [hremove], ?_, ?_⟩
  · rw [hremove, hafter.1]
    exact hopen
  · intro hagrees
    have hfound := hagrees.contains
    rw [hcontains] at hfound
    cases hfound

/-- An index with the file "a". -/
def exampleIndexObject : IndexObject := ⟨some [exampleEntry [0x61]], []⟩

theorem obtained_first :
    Obtained exampleIndexObject 0 (getEnumerator.run exampleIndexObject).2 :=
  .enumerated [0] rfl (by decide)

theorem obtained_not_found_example :
    ((contains (some 0)).run
        (Events.run read (getEnumerator.run exampleIndexObject).2 [.item 0])).1 = .ok false ∧
      ((remove exampleApi (some 0)).run
        (Events.run read (getEnumerator.run exampleIndexObject).2 [.item 0])).1 = .ok false ∧
      ((remove exampleApi (some 0)).run
        (Events.run read (getEnumerator.run exampleIndexObject).2 [.item 0])).2.index =
          some [exampleEntry [0x61]] ∧
      ¬Agrees exampleApi
        (Events.run read (getEnumerator.run exampleIndexObject).2 [.item 0]) 0 :=
  obtained_not_found exampleApi exampleIndexObject _ 0 obtained_first [.item 0]

/-- The only object of an index with one entry is not found in it. -/
theorem first_not_found :
    ((contains (some 0)).run (getEnumerator.run exampleIndexObject).2).1 = .ok false ∧
      ((remove exampleApi (some 0)).run (getEnumerator.run exampleIndexObject).2).1 = .ok false ∧
      ¬∀ (api : IndexApi) (object after : IndexObject) (e : EntryRef) (reads : List IndexRead),
        api.Removes → Obtained object e after → Agrees api (Events.run read after reads) e := by
  refine ⟨rfl, rfl, ?_⟩
  intro h
  have hagrees := h exampleApi exampleIndexObject _ 0 [] (listIndexApi_lawful _).removes
    obtained_first
  have hfound := hagrees.contains
  cases hfound

end IndexObject

end SharpGit.Plumbing
