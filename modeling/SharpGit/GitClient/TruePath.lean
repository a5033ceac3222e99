import SharpGit.GitClient.PathRoot
import SharpGit.Library.TerminatedBuffer

namespace SharpGit.GitClient.GitTools

open Library Native

/-- `FindFirstFileW`: the name on disk of what the path leads to. -/
abbrev FindFile := NetString → Option NetString

/-- "\\\\?\\UNC" -/
def longUnc : NetString := longPathMark ++ [0x55, 0x4e, 0x43]

/-- The loop of `FindTruePath`; each turn moves `nStart`. Indices of `pTxt` are `pTxt` further on
in the buffer. -/
def findLoop (find : FindFile) (bestEffort : Bool) (pTxt nMax : Nat) :
    Nat → Nat → Bool → NetString → NetString → Option NetString
  | 0, _, _, _, result => some result
  | turns + 1, nStart, isFirst, pSec, result =>
    if nStart < nMax then
      -- the separator behind the name gives way to a NUL
      let pNext := firstIn 0 pSec (pTxt + nStart) backslash
      let pSec := pNext.elim pSec (pSec.set · 0)
      match find (stringAt 0 pSec 0) with
      | none =>
        if !bestEffort then none
        else
          let result := if !isFirst then result ++ [backslash] else result
          match lastIn 0 pSec backslash with
          | none => none
          | some pFileName =>
            let result := result ++ stringAt 0 pSec (pFileName + 1)
            match pNext with
            | some next => some (result ++ stringAt 0 (pSec.set next backslash) next)
            | none => some result
      | some cFileName =>
        let result := if !isFirst then result ++ [backslash] else result
        let result := result ++ cFileName
        match pNext with
        | none => some result
        | some next =>
          findLoop find bestEffort pTxt nMax turns (next - pTxt + 1) false
            (pSec.set next backslash) result
    else some result

/-- The buffer `pSec` holds the long form of the path. -/
def findTruePath (find : FindFile) (path root : NetString) (bestEffort : Bool) :
    Option NetString :=
  if !([backslash, backslash].isPrefixOf path) then
    let pSec := longPathMark ++ stringAt 0 path 0
    let nMax := path.length
    let nStart := root.length
    findLoop find bestEffort 4 nMax (nMax - nStart) nStart true pSec root
  else
    let pSec := longUnc ++ stringAt 0 path 1
    let pTxt := root.length + 6 + 1
    let nMax : Int := path.length - root.length - 1
    if nMax ≤ 0 then some root
    else
      findLoop find bestEffort pTxt nMax.toNat nMax.toNat 0 true pSec (root ++ [backslash])

def getTruePath (api : PathApi) (find : FindFile) (path : NetString) (bestEffort : Bool) :
    Except GitToolsException (Option NetString) := do
  if path = [] then .error (.argumentNull "path")
  else
    let path ← getNormalizedFullPath api path
    match ← getPathRootPart api.unicode path with
    | some root => return findTruePath find path root bestEffort
    | none => .error .other -- the length of a null root

/-- The form of a path that has no limit to its length. -/
def longForm (path : NetString) : NetString :=
  if [backslash, backslash].isPrefixOf path then longUnc ++ path.drop 1 else longPathMark ++ path

/-- What is found for the prefixes of a path, from its first name on. -/
def lookups (find : FindFile) (root : NetString) (names : List NetString) :
    List (Option NetString) :=
  names.inits.tail.map fun front => find (longForm (joinRoot root front))

/-- All names, where each has been found. -/
def allFound : List (Option NetString) → Option (List NetString)
  | [] => some []
  | none :: _ => none
  | some t :: found => (allFound found).map (t :: ·)

/-- The names found up to the first failure, then those of the path. -/
def bestNames : List (Option NetString) → List NetString → List NetString
  | some t :: found, _ :: names => t :: bestNames found names
  | _, names => names

/-- The lookups of a loop whose buffer has `front` before the next name. -/
def lookupsFrom (find : FindFile) (front : NetString) : List NetString → List (Option NetString)
  | [] => []
  | name :: names => find (front ++ name) :: lookupsFrom find (front ++ name ++ [backslash]) names

/-- What a turn puts before a name. -/
def separatorOf (isFirst : Bool) : NetString := if isFirst then [] else [backslash]

theorem append_separatorOf (isFirst : Bool) (result : NetString) :
    (if !isFirst then result ++ [backslash] else result) = result ++ separatorOf isFirst := by
  cases isFirst with
  | true => exact (List.append_nil _).symm
  | false => rfl

section Turn

variable {find : FindFile} {bestEffort isFirst : Bool} {pTxt nStart : Nat}
  {before name result : NetString} (turns : Nat)
  (hfront : (before ++ [backslash]).length = pTxt + nStart)
  (hnul : 0 ∉ before ++ backslash :: name) (hname : backslash ∉ name)

include hfront hnul hname

/-- The last name: no separator follows it, so the buffer stays as it is. -/
theorem findLoop_last (hnonempty : name ≠ []) :
    findLoop find bestEffort pTxt (nStart + name.length) (turns + 1) nStart isFirst
        (before ++ backslash :: name) result =
      match find (before ++ backslash :: name) with
      | none => if bestEffort then some (result ++ separatorOf isFirst ++ name) else none
      | some t => some (result ++ separatorOf isFirst ++ t) := by
  have hlt : nStart < nStart + name.length :=
    Nat.lt_add_of_pos_right (List.length_pos_iff.mpr hnonempty)
  have hbuffer : before ++ backslash :: name = (before ++ [backslash]) ++ name := by simp
  have hnulName : 0 ∉ name := fun h => hnul (by simp [h])
  have hnext : firstIn 0 (before ++ backslash :: name) (pTxt + nStart) backslash = none := by
    rw [← hfront, hbuffer]
    exact firstIn_none _ hnulName hname
  have hread : stringAt 0 (before ++ backslash :: name) 0 = before ++ backslash :: name :=
    stringAt_front [] hnul
  have hlast := lastIn_eq hread hname
  have hfile : stringAt 0 (before ++ backslash :: name) (before.length + 1) = name := by
    have h := stringAt_front (before ++ [backslash]) hnulName
    rw [List.length_append, ← hbuffer] at h
    exact h
  rw [findLoop, if_pos hlt, hnext]
  simp only [Option.elim_none, hread, hlast, hfile, append_separatorOf]
  cases find (before ++ backslash :: name) with
  | some t => rfl
  | none => cases bestEffort <;> rfl

omit hfront hnul hname in
/-- The separator behind a name gives way to a NUL and is put back. -/
theorem set_separator (before name rest : NetString) :
    (before ++ backslash :: (name ++ backslash :: rest)).set
        (before ++ backslash :: name).length 0 =
        before ++ backslash :: name ++ 0 :: rest ∧
      (before ++ backslash :: name ++ 0 :: rest).set
        (before ++ backslash :: name).length backslash =
        before ++ backslash :: (name ++ backslash :: rest) := by
  have hbuffer : before ++ backslash :: (name ++ backslash :: rest) =
      before ++ backslash :: name ++ backslash :: rest := by simp
  rw [hbuffer]
  exact ⟨set_front _ _ _ _, set_front _ _ _ _⟩

omit hfront hname in
/-- Up to the NUL are the path and, behind its last separator, the name. -/
theorem stringAt_name (rest : NetString) :
    stringAt 0 (before ++ backslash :: name ++ 0 :: rest) 0 = before ++ backslash :: name ∧
      stringAt 0 (before ++ backslash :: name ++ 0 :: rest) (before.length + 1) = name := by
  refine ⟨stringAt_cut [] hnul rest, ?_⟩
  have hnulName : 0 ∉ name := fun h => hnul (by simp [h])
  have h := stringAt_cut (before ++ [backslash]) hnulName rest
  rw [List.append_assoc, List.singleton_append, List.length_append] at h
  rw [List.append_assoc, List.cons_append]
  exact h

/-- The next separator is the one behind the name. -/
theorem firstIn_separator {rest : NetString} (hrest : 0 ∉ rest) :
    firstIn 0 (before ++ backslash :: (name ++ backslash :: rest)) (pTxt + nStart) backslash =
      some (before ++ backslash :: name).length := by
  have hbuffer : before ++ backslash :: (name ++ backslash :: rest) =
      (before ++ [backslash]) ++ (name ++ backslash :: rest) := by simp
  have hnulName : 0 ∉ name := fun h => hnul (by simp [h])
  have hnulRest : (0 : UInt16) ∉ name ++ backslash :: rest := by
    simp only [List.mem_append, List.mem_cons, not_or]
    exact ⟨hnulName, by decide, hrest⟩
  have h := firstIn_front (before ++ [backslash]) hnulRest hname
  rw [← hbuffer, hfront] at h
  rw [h, ← hfront, ← List.length_append, List.append_assoc, List.singleton_append]

/-- A name that a separator follows: the loop goes on behind the separator. -/
theorem findLoop_more {rest : NetString} (hrest : 0 ∉ rest) (nMax : Nat)
    (hlt : nStart < nMax) :
    findLoop find bestEffort pTxt nMax (turns + 1) nStart isFirst
        (before ++ backslash :: (name ++ backslash :: rest)) result =
      match find (before ++ backslash :: name) with
      | none =>
        if bestEffort then
          some (result ++ separatorOf isFirst ++ (name ++ backslash :: rest))
        else none
      | some t =>
        findLoop find bestEffort pTxt nMax turns (nStart + name.length + 1) false
          (before ++ backslash :: (name ++ backslash :: rest))
          (result ++ separatorOf isFirst ++ t) := by
  have hnext := firstIn_separator hfront hnul hname hrest
  obtain ⟨hcut, hback⟩ := set_separator before name rest
  obtain ⟨hread, hfile⟩ := stringAt_name hnul rest
  have hlast := lastIn_eq hread hname
  have hleft : stringAt 0 (before ++ backslash :: (name ++ backslash :: rest))
      (before ++ backslash :: name).length = backslash :: rest := by
    have hnulLeft : (0 : UInt16) ∉ backslash :: rest := by
      simp only [List.mem_cons, not_or]
      exact ⟨by decide, hrest⟩
    have h := stringAt_front (before ++ backslash :: name) hnulLeft
    rw [List.append_assoc, List.cons_append] at h
    exact h
  have hplace : (before ++ backslash :: name).length - pTxt + 1 = nStart + name.length + 1 := by
    rw [List.length_append, List.length_singleton] at hfront
    rw [List.length_append, List.length_cons]
    omega
  rw [findLoop, if_pos hlt, hnext]
  simp only [Option.elim_some, hcut, hread, hlast, hfile, hback, hleft, hplace,
    append_separatorOf]
  cases find (before ++ backslash :: name) with
  | some t => rfl
  | none =>
    cases bestEffort with
    | false => rfl
    | true => simp

end Turn

theorem allFound_length {found : List (Option NetString)} {ts : List NetString}
    (h : allFound found = some ts) : ts.length = found.length := by
  induction found generalizing ts with
  | nil =>
    obtain rfl := Option.some.inj h
    rfl
  | cons t found ih =>
    cases t with
    | none => cases h
    | some t =>
      rw [allFound, Option.map_eq_some_iff] at h
      obtain ⟨rest, hrest, rfl⟩ := h
      rw [List.length_cons, List.length_cons, ih hrest]

theorem bestNames_ne_nil {found : List (Option NetString)} {names : List NetString}
    (h : names ≠ []) : bestNames found names ≠ [] := by
  cases names with
  | nil => exact absurd rfl h
  | cons name names =>
    cases found with
    | nil => exact h
    | cons t found =>
      cases t with
      | none => exact h
      | some t => exact List.cons_ne_nil _ _

theorem lookupsFrom_length (find : FindFile) (front : NetString) (names : List NetString) :
    (lookupsFrom find front names).length = names.length := by
  induction names generalizing front with
  | nil => rfl
  | cons name names ih => rw [lookupsFrom, List.length_cons, List.length_cons, ih]

/-- A name of a path: neither a separator nor a NUL is in it. -/
structure FileName (name : NetString) : Prop where
  nonempty : name ≠ []
  separator : backslash ∉ name
  nul : 0 ∉ name

theorem joinComponents_nul {names : List NetString} (h : ∀ name ∈ names, FileName name) :
    0 ∉ joinComponents names := by
  induction names with
  | nil => simp [joinComponents]
  | cons name names ih =>
    have hname := (h name List.mem_cons_self).nul
    have hrest := ih fun n hn => h n (List.mem_cons_of_mem _ hn)
    by_cases hnames : names = []
    · rw [hnames, joinComponents, List.intercalate_singleton]
      exact hname
    · rw [joinComponents_cons name hnames]
      simp only [List.mem_append, List.mem_cons, not_or]
      exact ⟨hname, by decide, hrest⟩

/-- The names that the loop makes of the lookups. -/
def resultNames (bestEffort : Bool) (found : List (Option NetString)) (names : List NetString) :
    Option (List NetString) :=
  if bestEffort then some (bestNames found names) else allFound found

theorem resultNames_ne_nil {bestEffort : Bool} {find : FindFile} {front : NetString}
    {names ts : List NetString} (hnames : names ≠ [])
    (h : resultNames bestEffort (lookupsFrom find front names) names = some ts) : ts ≠ [] := by
  cases bestEffort with
  | true =>
    obtain rfl := Option.some.inj h
    exact bestNames_ne_nil hnames
  | false =>
    have hlength := allFound_length h
    rw [lookupsFrom_length] at hlength
    exact List.ne_nil_of_length_pos (by rw [hlength]; exact List.length_pos_iff.mpr hnames)

theorem resultNames_none (bestEffort : Bool) (found : List (Option NetString))
    (names : List NetString) :
    resultNames bestEffort (none :: found) names = if bestEffort then some names else none := by
  cases bestEffort with
  | true => simp [resultNames, bestNames]
  | false => rfl

theorem resultNames_some (bestEffort : Bool) (t : NetString) (found : List (Option NetString))
    (name : NetString) (names : List NetString) :
    resultNames bestEffort (some t :: found) (name :: names) =
      (resultNames bestEffort found names).map (t :: ·) := by
  cases bestEffort with
  | true => rfl
  | false => rfl

section Names

variable {find : FindFile} {bestEffort : Bool} {pTxt nMax : Nat} {name before : NetString}
  (hname : FileName name) (hnul : 0 ∉ before) {nStart : Nat}
  (hfront : (before ++ [backslash]).length = pTxt + nStart) (turns : Nat) (isFirst : Bool)
  (result : NetString)

include hname hnul hfront

/-- The loop at the last of the names. -/
theorem findLoop_lastName (hmax : nMax = nStart + name.length) :
    findLoop find bestEffort pTxt nMax (turns + 1) nStart isFirst
        (before ++ backslash :: name) result =
      (resultNames bestEffort [find (before ++ backslash :: name)] [name]).map fun ts =>
        result ++ separatorOf isFirst ++ joinComponents ts := by
  have hnulName : 0 ∉ before ++ backslash :: name := by
    simp only [List.mem_append, List.mem_cons, not_or]
    exact ⟨hnul, by decide, hname.nul⟩
  rw [hmax, findLoop_last turns hfront hnulName hname.separator hname.nonempty]
  cases find (before ++ backslash :: name) with
  | none =>
    rw [resultNames_none]
    cases bestEffort with
    | true => simp
    | false => rfl
  | some t =>
    rw [resultNames_some]
    cases bestEffort with
    | true => simp [resultNames, bestNames]
    | false => simp [resultNames, allFound]

/-- The loop at a name that others follow, where it goes on as it should. -/
theorem findLoop_nextName {names : List NetString} (hmore : names ≠ [])
    (hnames : ∀ n ∈ names, FileName n)
    (hmax : nMax = nStart + (name ++ backslash :: joinComponents names).length)
    {found : List (Option NetString)}
    (hlater : ∀ ts, resultNames bestEffort found names = some ts → ts ≠ [])
    (hnext : ∀ result,
      findLoop find bestEffort pTxt nMax turns (nStart + name.length + 1) false
          (before ++ backslash :: name ++ backslash :: joinComponents names) result =
        (resultNames bestEffort found names).map fun ts =>
          result ++ separatorOf false ++ joinComponents ts) :
    findLoop find bestEffort pTxt nMax (turns + 1) nStart isFirst
        (before ++ backslash :: (name ++ backslash :: joinComponents names)) result =
      (resultNames bestEffort (find (before ++ backslash :: name) :: found) (name :: names)).map
        fun ts => result ++ separatorOf isFirst ++ joinComponents ts := by
  have hnulName : 0 ∉ before ++ backslash :: name := by
    simp only [List.mem_append, List.mem_cons, not_or]
    exact ⟨hnul, by decide, hname.nul⟩
  have hbuffer : before ++ backslash :: name ++ backslash :: joinComponents names =
      before ++ backslash :: (name ++ backslash :: joinComponents names) := by simp
  rw [hbuffer] at hnext
  rw [List.length_append, List.length_cons] at hmax
  rw [findLoop_more turns hfront hnulName hname.separator (joinComponents_nul hnames) nMax
    (by omega)]
  cases find (before ++ backslash :: name) with
  | none =>
    rw [resultNames_none]
    cases bestEffort with
    | true => simp [joinComponents_cons name hmore]
    | false => rfl
  | some t =>
    dsimp only
    rw [hnext, resultNames_some]
    cases hfound : resultNames bestEffort found names with
    | none => rfl
    | some ts =>
      rw [Option.map_some, Option.map_some, Option.map_some,
        joinComponents_cons t (hlater ts hfound)]
      simp [separatorOf]

end Names

/-- The loop over the names that are left, behind a separator. -/
theorem findLoop_names {find : FindFile} {bestEffort : Bool} {pTxt nMax : Nat}
    {names : List NetString} (hnonempty : names ≠ []) (hnames : ∀ name ∈ names, FileName name)
    {before : NetString} (hnul : 0 ∉ before) {nStart turns : Nat}
    (hfront : (before ++ [backslash]).length = pTxt + nStart)
    (hmax : nMax = nStart + (joinComponents names).length)
    (hturns : names.length ≤ turns) (isFirst : Bool) (result : NetString) :
    findLoop find bestEffort pTxt nMax turns nStart isFirst
        (before ++ backslash :: joinComponents names) result =
      (resultNames bestEffort (lookupsFrom find (before ++ [backslash]) names) names).map fun ts =>
        result ++ separatorOf isFirst ++ joinComponents ts := by
  induction names generalizing before nStart turns isFirst result with
  | nil => exact absurd rfl hnonempty
  | cons name names ih =>
    obtain ⟨turns, rfl⟩ := Nat.exists_eq_add_of_le' (Nat.le_trans (Nat.succ_pos _) hturns)
    have hname := hnames name List.mem_cons_self
    have hlookup : before ++ [backslash] ++ name = before ++ backslash :: name := by simp
    rw [lookupsFrom, hlookup]
    by_cases hlast : names = []
    · subst hlast
      rw [joinComponents, List.intercalate_singleton] at hmax ⊢
      exact findLoop_lastName hname hnul hfront turns isFirst result hmax
    · have hrest := fun n hn => hnames n (List.mem_cons_of_mem name hn)
      rw [joinComponents_cons name hlast] at hmax ⊢
      apply findLoop_nextName hname hnul hfront turns isFirst result hlast hrest hmax
      · intro ts hfound
        exact resultNames_ne_nil hlast hfound
      · intro result
        have hnulName : 0 ∉ before ++ backslash :: name := by
          simp only [List.mem_append, List.mem_cons, not_or]
          exact ⟨hnul, by decide, hname.nul⟩
        rw [List.length_append, List.length_cons] at hmax
        rw [List.length_append, List.length_singleton] at hfront
        exact @ih hlast hrest (before ++ backslash :: name) hnulName
          (nStart + name.length + 1) turns (by
            rw [List.length_append, List.length_append, List.length_singleton, List.length_cons]
            omega) (by omega) (by simpa using hturns) false result

variable {unicode : UnicodeData} {invalid : List UInt16}

theorem joinComponents_concat (done : List NetString) (name : NetString) :
    joinComponents (done ++ [name]) = done.flatMap (· ++ [backslash]) ++ name := by
  induction done with
  | nil => exact List.intercalate_singleton
  | cons d done ih =>
    rw [List.cons_append, joinComponents_cons d (by simp), ih]
    simp

theorem longForm_closeRoot {root : NetString} (hroot : IsRoot unicode root) (tail : NetString) :
    longForm (closeRoot root ++ tail) = longForm (closeRoot root) ++ tail := by
  cases hroot with
  | @drive letter hletter =>
    have hne : letter ≠ backslash := isUpper_ne hletter rfl
    have hnot :
        [backslash, backslash].isPrefixOf (letter :: colon :: backslash :: tail) = false := by
      simp [List.isPrefixOf, hne.symm]
    have hnot' : [backslash, backslash].isPrefixOf [letter, colon, backslash] = false := by
      simp [List.isPrefixOf, hne.symm]
    rw [closeRoot_drive, longForm, longForm]
    simp [hnot, hnot']
  | share hhost hhostChars hshare hshareChars =>
    rw [closeRoot_share hshare hshareChars]
    rfl

/-- The loop looks up the prefixes of the path, in their long form. -/
theorem lookupsFrom_eq {root : NetString} (hroot : IsRoot unicode root) (find : FindFile)
    (done names : List NetString) :
    lookupsFrom find (longForm (closeRoot root) ++ done.flatMap (· ++ [backslash])) names =
      names.inits.tail.map fun front => find (longForm (joinRoot root (done ++ front))) := by
  induction names generalizing done with
  | nil => rfl
  | cons name names ih =>
    have hpath : longForm (closeRoot root) ++ done.flatMap (· ++ [backslash]) ++ name =
        longForm (joinRoot root (done ++ [name])) := by
      rw [joinRoot, if_neg (by simp), joinComponents_concat, longForm_closeRoot hroot]
      simp
    have hrest := ih (done ++ [name])
    have hfront : longForm (closeRoot root) ++ done.flatMap (· ++ [backslash]) ++ name ++
        [backslash] = longForm (closeRoot root) ++ (done ++ [name]).flatMap (· ++ [backslash]) := by
      simp
    obtain ⟨fronts, hinits⟩ : ∃ fronts, names.inits = [] :: fronts := by cases names <;> simp
    rw [lookupsFrom, hfront, hrest, hpath, List.inits_cons, List.tail_cons, hinits, List.tail_cons]
    simp

theorem zero_not_letterOrDigit : unicode.letterOrDigit (unitChar 0) = false := by
  rw [unicode.letterOrDigit_ascii _ (by decide)]
  decide

theorem IsRoot.nul {root : NetString} (hroot : IsRoot unicode root) : 0 ∉ root := by
  cases hroot with
  | @drive letter hletter =>
    have hne : letter ≠ 0 := isUpper_ne hletter rfl
    simp only [List.mem_cons, List.not_mem_nil, or_false, not_or]
    exact ⟨hne.symm, by decide, by decide⟩
  | @share host share _ hhostChars _ hshareChars =>
    have hhost : 0 ∉ host := fun h => by
      have hchar := hhostChars 0 h
      revert hchar
      decide
    have hshare : 0 ∉ share := fun h => by
      rcases hshareChars 0 h with hletter | hmem
      · rw [zero_not_letterOrDigit] at hletter
        cases hletter
      · revert hmem
        decide
    simp only [List.mem_cons, List.mem_append, not_or]
    exact ⟨by decide, by decide, hhost, by decide, hshare⟩

theorem Component.fileName (hnul : 0 ∈ invalid) {name : NetString} (h : Component invalid name) :
    FileName name where
  nonempty := h.nonempty
  separator hmem := (h.valid _ hmem).2.1 rfl
  nul hmem := (h.valid _ hmem).1 hnul

theorem length_le_joinComponents {names : List NetString} (h : ∀ name ∈ names, name ≠ []) :
    names.length ≤ (joinComponents names).length := by
  induction names with
  | nil => exact Nat.zero_le _
  | cons name names ih =>
    have hname := List.length_pos_iff.mpr (h name List.mem_cons_self)
    have hrest := ih fun n hn => h n (List.mem_cons_of_mem _ hn)
    by_cases hnames : names = []
    · rw [hnames, joinComponents, List.intercalate_singleton]
      exact hname
    · rw [joinComponents_cons name hnames, List.length_append, List.length_cons, List.length_cons]
      omega

section Run

variable {root : NetString} (hroot : IsRoot unicode root) {names : List NetString}
  (hnonempty : names ≠ []) (hnames : ∀ name ∈ names, FileName name) (find : FindFile)
  (bestEffort : Bool)

include hroot hnonempty hnames

/-- The loop over all names, in a buffer with the long form of the path. -/
theorem findLoop_path {before : NetString} (hbefore : before ++ [backslash] =
    longForm (closeRoot root)) (hnul : 0 ∉ before) {pTxt nStart nMax turns : Nat}
    (hfront : (before ++ [backslash]).length = pTxt + nStart)
    (hmax : nMax = nStart + (joinComponents names).length)
    (hturns : (joinComponents names).length ≤ turns) :
    findLoop find bestEffort pTxt nMax turns nStart true
        (before ++ backslash :: joinComponents names) (closeRoot root) =
      (resultNames bestEffort (lookups find root names) names).map (joinRoot root) := by
  have hlookups : lookupsFrom find (before ++ [backslash]) names = lookups find root names := by
    have h := lookupsFrom_eq hroot find [] names
    rw [List.flatMap_nil, List.append_nil, ← hbefore] at h
    exact h
  have hshort := Nat.le_trans (length_le_joinComponents fun n hn => (hnames n hn).nonempty) hturns
  rw [findLoop_names hnonempty hnames hnul hfront hmax hshort, ← hlookups]
  apply Option.map_congr
  intro ts hts
  have hne := resultNames_ne_nil hnonempty hts
  rw [joinRoot, if_neg hne]
  simp [separatorOf]

end Run

theorem findTruePath_root (find : FindFile) (root : NetString) (bestEffort : Bool) :
    findTruePath find root root bestEffort = some root := by
  have hmax : (root.length : Int) - root.length - 1 ≤ 0 := by omega
  rw [findTruePath]
  split
  · simp only [Nat.sub_self]
    rfl
  · simp only [if_pos hmax]

theorem stringAt_all {path : NetString} (h : 0 ∉ path) : stringAt 0 path 0 = path :=
  stringAt_front [] h

theorem findTruePath_drive {letter : UInt16} (hletter : isUpper letter = true)
    {tail : NetString} (hnul : 0 ∉ letter :: colon :: backslash :: tail) (find : FindFile)
    (bestEffort : Bool) :
    findTruePath find (letter :: colon :: backslash :: tail) [letter, colon, backslash]
        bestEffort =
      findLoop find bestEffort 4 (3 + tail.length) tail.length 3 true
        (longPathMark ++ [letter, colon] ++ backslash :: tail) [letter, colon, backslash] := by
  have hne : letter ≠ backslash := isUpper_ne hletter rfl
  have hnot : (!([backslash, backslash].isPrefixOf (letter :: colon :: backslash :: tail))) =
      true := by simp [List.isPrefixOf, hne.symm]
  have hlength : (letter :: colon :: backslash :: tail).length = 3 + tail.length := by
    simp only [List.length_cons]
    omega
  have hturns : 3 + tail.length - [letter, colon, backslash].length = tail.length := by
    simp only [List.length_cons, List.length_nil]
    omega
  rw [findTruePath, if_pos hnot, stringAt_all hnul]
  simp only [hlength, hturns]
  rfl

theorem findTruePath_share {rest tail : NetString}
    (hnul : 0 ∉ backslash :: backslash :: rest ++ backslash :: tail) (hnonempty : tail ≠ [])
    (find : FindFile) (bestEffort : Bool) :
    findTruePath find (backslash :: backslash :: rest ++ backslash :: tail)
        (backslash :: backslash :: rest) bestEffort =
      findLoop find bestEffort ((backslash :: backslash :: rest).length + 7) tail.length
        tail.length 0 true (longUnc ++ backslash :: rest ++ backslash :: tail)
        (backslash :: backslash :: rest ++ [backslash]) := by
  have hunc : (!([backslash, backslash].isPrefixOf
      (backslash :: backslash :: rest ++ backslash :: tail))) = false := rfl
  have hread : stringAt 0 (backslash :: backslash :: rest ++ backslash :: tail) 1 =
      backslash :: rest ++ backslash :: tail := by
    apply stringAt_front [backslash]
    exact fun h => hnul (List.mem_cons_of_mem _ h)
  have hmax : ((backslash :: backslash :: rest ++ backslash :: tail).length : Int) -
      (backslash :: backslash :: rest).length - 1 = (tail.length : Int) := by
    rw [List.length_append, @List.length_cons _ backslash tail]
    omega
  have hpos : ¬(tail.length : Int) ≤ 0 := by
    have h := List.length_pos_iff.mpr hnonempty
    omega
  rw [findTruePath, hunc, if_neg Bool.false_ne_true, hread]
  simp only [hmax, if_neg hpos, Int.toNat_natCast]
  rw [List.append_assoc]

section Names

variable {names : List NetString} (hnonempty : names ≠ [])
  (hnames : ∀ name ∈ names, FileName name) (find : FindFile) (bestEffort : Bool)

include hnonempty hnames

/-- A drive's path goes through the loop behind the mark of long paths. -/
theorem findTruePath_driveNames {letter : UInt16} (hletter : isUpper letter = true)
    (hroot : IsRoot unicode [letter, colon, backslash]) :
    findTruePath find (letter :: colon :: backslash :: joinComponents names)
        [letter, colon, backslash] bestEffort =
      (resultNames bestEffort (lookups find [letter, colon, backslash] names) names).map
        (joinRoot [letter, colon, backslash]) := by
  have hnulRoot := hroot.nul
  simp only [List.mem_cons, List.not_mem_nil, or_false, not_or] at hnulRoot
  have hnul : 0 ∉ letter :: colon :: backslash :: joinComponents names := by
    simp only [List.mem_cons, not_or]
    exact ⟨hnulRoot.1, hnulRoot.2.1, hnulRoot.2.2, joinComponents_nul hnames⟩
  have hne : backslash ≠ letter := (isUpper_ne hletter rfl).symm
  have hbefore : longPathMark ++ [letter, colon] ++ [backslash] =
      longForm (closeRoot [letter, colon, backslash]) := by
    rw [closeRoot_drive, longForm]
    simp [List.isPrefixOf, hne]
  have hnulBefore : 0 ∉ longPathMark ++ [letter, colon] := by
    simp only [longPathMark, List.mem_append, List.mem_cons, List.not_mem_nil, or_false, not_or]
    exact ⟨by decide, hnulRoot.1, hnulRoot.2.1⟩
  have hrun := @findLoop_path unicode _ hroot names hnonempty hnames find bestEffort
    _ hbefore hnulBefore 4 3 _ _ rfl rfl (Nat.le_refl _)
  rw [closeRoot_drive] at hrun
  rw [← hrun]
  exact findTruePath_drive hletter hnul find bestEffort

/-- A share's path goes through the loop behind the long form of its two backslashes. -/
theorem findTruePath_shareNames {host share : NetString}
    (hroot : IsRoot unicode (backslash :: backslash :: (host ++ backslash :: share)))
    (hclose : closeRoot (backslash :: backslash :: (host ++ backslash :: share)) =
      backslash :: backslash :: (host ++ backslash :: share) ++ [backslash]) :
    findTruePath find (backslash :: backslash :: (host ++ backslash :: share) ++
          backslash :: joinComponents names)
        (backslash :: backslash :: (host ++ backslash :: share)) bestEffort =
      (resultNames bestEffort
          (lookups find (backslash :: backslash :: (host ++ backslash :: share)) names) names).map
        (joinRoot (backslash :: backslash :: (host ++ backslash :: share))) := by
  have hnulRoot := hroot.nul
  have hlong : joinComponents names ≠ [] := by
    have hpos := Nat.lt_of_lt_of_le (List.length_pos_iff.mpr hnonempty)
      (length_le_joinComponents fun n hn => (hnames n hn).nonempty)
    exact List.ne_nil_of_length_pos hpos
  have hnul : 0 ∉ backslash :: backslash :: (host ++ backslash :: share) ++
      backslash :: joinComponents names := by
    intro h
    rcases List.mem_append.mp h with h | h
    · exact hnulRoot h
    · rcases List.mem_cons.mp h with h | h
      · exact absurd h (by decide)
      · exact joinComponents_nul hnames h
  have hbefore : longUnc ++ backslash :: (host ++ backslash :: share) ++ [backslash] =
      longForm (closeRoot (backslash :: backslash :: (host ++ backslash :: share))) := by
    rw [hclose, List.append_assoc]
    rfl
  have hnulBefore : 0 ∉ longUnc ++ backslash :: (host ++ backslash :: share) := by
    rw [List.mem_append, not_or]
    exact ⟨by decide, fun h => hnulRoot (List.mem_cons_of_mem _ h)⟩
  have hfront : (longUnc ++ backslash :: (host ++ backslash :: share) ++ [backslash]).length =
      (backslash :: backslash :: (host ++ backslash :: share)).length + 7 + 0 := by
    simp only [longUnc, longPathMark, List.length_append, List.length_cons, List.length_nil]
    omega
  have hrun := @findLoop_path unicode _ hroot names hnonempty hnames find bestEffort _ hbefore
    hnulBefore _ 0 _ _ hfront (Nat.zero_add _).symm (Nat.le_refl _)
  rw [hclose] at hrun
  rw [← hrun]
  exact findTruePath_share hnul hlong find bestEffort

end Names

/-- Of a path with its root, the loop makes the root with the names that it settles on. -/
theorem findTruePath_eq {root : NetString} (hroot : IsRoot unicode root) {names : List NetString}
    (hnames : ∀ name ∈ names, FileName name) (find : FindFile) (bestEffort : Bool) :
    findTruePath find (joinRoot root names) root bestEffort =
      (resultNames bestEffort (lookups find root names) names).map (joinRoot root) := by
  by_cases hnonempty : names = []
  · subst hnonempty
    have hresult : resultNames bestEffort (lookups find root []) [] = some [] := by
      cases bestEffort <;> rfl
    rw [hresult, Option.map_some, joinRoot, if_pos rfl]
    exact findTruePath_root find root bestEffort
  · rw [joinRoot, if_neg hnonempty]
    cases hroot with
    | drive hletter =>
      rw [closeRoot_drive]
      exact @findTruePath_driveNames unicode _ hnonempty hnames find bestEffort _ hletter
        (.drive hletter)
    | @share host share hhost hhostChars hshare hshareChars =>
      have hclose := @closeRoot_share unicode host share hshare hshareChars
      rw [hclose, List.append_assoc, List.singleton_append]
      exact findTruePath_shareNames hnonempty hnames find bestEffort
        (.share hhost hhostChars hshare hshareChars) hclose

/-- `FindTruePath`: with all names found, or with those of the path from the first failure on. -/
theorem findTruePath_spec {path : NetString} (h : NormalizedPath unicode invalid path)
    (hnul : 0 ∈ invalid) (find : FindFile) :
    ∃ root names, getPathRootPart unicode path = .ok (some root) ∧ path = joinRoot root names ∧
      (∀ name ∈ names, Component invalid name) ∧
      findTruePath find path root false =
        (allFound (lookups find root names)).map (joinRoot root) ∧
      findTruePath find path root true =
        some (joinRoot root (bestNames (lookups find root names) names)) := by
  obtain ⟨root, names, hroot, hnames, rfl⟩ := h.root_names
  have hfiles := fun name hname => (hnames name hname).fileName hnul
  exact ⟨root, names, getPathRootPart_joinRoot names hroot, rfl, hnames,
    findTruePath_eq hroot hfiles find false, findTruePath_eq hroot hfiles find true⟩

/-- A disk with the directory "A" on drive C. -/
def exampleFind : FindFile := fun path =>
  if path = longForm [0x43, 0x3a, 0x5c, 0x61] then some [0x41] else none

/-- "C:\a\b" -/
theorem findTruePath_example :
    ∃ root names, getPathRootPart asciiUnicode [0x43, 0x3a, 0x5c, 0x61, 0x5c, 0x62] =
        .ok (some root) ∧ [0x43, 0x3a, 0x5c, 0x61, 0x5c, 0x62] = joinRoot root names ∧
      (∀ name ∈ names, Component [0, 0x7c] name) ∧
      findTruePath exampleFind [0x43, 0x3a, 0x5c, 0x61, 0x5c, 0x62] root false =
        (allFound (lookups exampleFind root names)).map (joinRoot root) ∧
      findTruePath exampleFind [0x43, 0x3a, 0x5c, 0x61, 0x5c, 0x62] root true =
        some (joinRoot root (bestNames (lookups exampleFind root names) names)) :=
  findTruePath_spec (.of_isNormalized (by decide) (by decide)) (by decide) exampleFind

end SharpGit.GitClient.GitTools
