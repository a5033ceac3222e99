import Mathlib.Data.Int.DivMod
import SharpGit.Implementation.GitPool
import SharpGit.Library.Block

namespace SharpGit.Implementation

open Library Native

/-- The platforms of the solution. -/
inductive Platform
  | win32
  | x64
  deriving DecidableEq, Repr

/-- Whether `apr_pcalloc` has a block of so many bytes. A pool that has none ends the process. -/
abbrev Pool := Nat → Bool

def Platform.sizeofPointer : Platform → Nat
  | win32 => 4
  | x64 => 8

/-- One more than the largest `size_t`. -/
def Platform.sizes : Platform → Nat
  | win32 => 4294967296
  | x64 => 18446744073709551616

/-- The `int` that a product is. -/
def toInt32 (n : Int) : Int := n.bmod 4294967296

/-- What the pointer of `AllocString` leads to. -/
def stringBytes (value : Option NetString) : CStr := allocString (value.getD []) ++ [0]

/-- `git_strarray`. -/
structure GitStrArray where
  strings : Block CStr
  count : Nat

/-- `pArr` and `alloc` in the loop. -/
structure Filling where
  arr : GitStrArray
  alloc : Int

section Source

variable (platform : Platform) (pool : Pool)

def sizeofStrArray : Nat := 2 * platform.sizeofPointer

/-- An `int` as a `size_t`. -/
def toSize (n : Int) : Nat := (n % platform.sizes).toNat

/-- `sizeof(const char *) * alloc` -/
def pointersSize (alloc : Int) : Nat :=
  platform.sizeofPointer * toSize platform alloc % platform.sizes

/-- `apr_pcalloc` of a block for pointers to strings. -/
def pcalloc (size : Nat) : Option (Block CStr) :=
  if pool size then some (Block.zeroed (size / platform.sizeofPointer)) else none

/-- A block of twice the size, with the strings copied. -/
def grow (s : Filling) : Option Filling := do
  let newAlloc := toInt32 (s.alloc * 2)
  let strings ← pcalloc platform pool (pointersSize platform newAlloc)
  let strings ← strings.copy s.arr.strings (pointersSize platform s.alloc / platform.sizeofPointer)
  return ⟨⟨strings, s.arr.count⟩, newAlloc⟩

/-- A turn of the loop; none where it writes outside of a block. -/
def addString (s : Filling) (v : Option NetString) : Option Filling := do
  let s ← if s.arr.count ≥ toSize platform s.alloc then grow platform pool s else some s
  let strings ← s.arr.strings.write s.arr.count (stringBytes v)
  return ⟨⟨strings, s.arr.count + 1⟩, s.alloc⟩

/-- `AllocStringArray`; `coll` is the `Count` of an `ICollection`. -/
def allocStringArray (coll : Option Int) (paths : List (Option NetString)) :
    Option GitStrArray := do
  if pool (sizeofStrArray platform) then
    let alloc := coll.getD 16
    let strings ← pcalloc platform pool (pointersSize platform alloc)
    let s ← paths.foldlM (addString platform pool) ⟨⟨strings, 0⟩, alloc⟩
    return s.arr
  else none

/-- `AllocStringArray` of one string. -/
def allocStringArrayOf (path : Option NetString) : Option GitStrArray :=
  allocStringArray platform pool (some 1) [path]

end Source

/-- A sequence of strings: an `ICollection`, whose `Count` is an `int`, or one that can only be
enumerated. -/
inductive StringSequence
  | collection (elements : List (Option NetString)) (hcount : elements.length < 2147483648)
  | enumerated (elements : List (Option NetString))

namespace StringSequence

def elements : StringSequence → List (Option NetString)
  | collection elements _ => elements
  | enumerated elements => elements

/-- The `Count`, where there is one. -/
def count? : StringSequence → Option Int
  | collection elements _ => some elements.length
  | enumerated _ => none

end StringSequence

/-- The last capacity that the loop can double to: twice as much is no `int` any more, or the size
of its block no `size_t`. -/
def Platform.lastCapacity : Platform → Nat
  | win32 => 536870912
  | x64 => 1073741824

/-- The pointers of a collection have a size, or those of an enumeration fit in the last block. -/
def StringSequence.Fits (platform : Platform) : StringSequence → Prop
  | collection elements _ => platform.sizeofPointer * elements.length < platform.sizes
  | enumerated elements => elements.length ≤ platform.lastCapacity

/-- A bound on the cells of the blocks that are asked for. -/
def StringSequence.cells : StringSequence → Nat
  | collection elements _ => max 2 elements.length
  | enumerated elements => max 16 (2 * elements.length)

/-- The pool does not run out of memory for blocks of up to so many pointers. -/
def Serves (platform : Platform) (pool : Pool) (cells : Nat) : Prop :=
  ∀ n ≤ cells, pool (platform.sizeofPointer * n) = true

/-- No write goes outside of its block, and an array comes back with as many strings as elements;
each is the UTF-8 form of its element, the empty one for null, up to the NUL. -/
def Converts (result : Option GitStrArray) (elements : List (Option NetString)) : Prop :=
  ∃ arr, result = some arr ∧ arr.count = elements.length ∧
    ∀ (i : Nat) (v : Option NetString), elements[i]? = some v →
      arr.strings[i]? = some (some (utf8GetBytes (v.getD []) ++ [0]))

section Sizes

variable {platform : Platform} {pool : Pool} {n : Nat}

theorem toInt32_of_lt (h : n < 2147483648) : toInt32 n = n := by
  rw [toInt32]
  apply Int.bmod_eq_of_le
  · omega
  · omega

theorem sizeofPointer_pos (platform : Platform) : 0 < platform.sizeofPointer := by
  cases platform <;> decide

/-- Every `int` that is not negative is a `size_t`. -/
theorem toSize_of_lt (h : n < 2147483648) : toSize platform n = n := by
  rw [toSize]
  cases platform with
  | win32 =>
    rw [Platform.sizes]
    omega
  | x64 =>
    rw [Platform.sizes]
    omega

theorem pointersSize_of_lt (h : n < 2147483648)
    (hsize : platform.sizeofPointer * n < platform.sizes) :
    pointersSize platform n = platform.sizeofPointer * n := by
  rw [pointersSize, toSize_of_lt h, Nat.mod_eq_of_lt hsize]

theorem pcalloc_of_lt (h : n < 2147483648)
    (hsize : platform.sizeofPointer * n < platform.sizes)
    (hpool : pool (platform.sizeofPointer * n) = true) :
    pcalloc platform pool (pointersSize platform n) = some (Block.zeroed n) := by
  rw [pointersSize_of_lt h hsize, pcalloc, if_pos hpool,
    Nat.mul_div_cancel_left _ (sizeofPointer_pos platform)]

theorem size_lastCapacity (h : n ≤ platform.lastCapacity) :
    n < 2147483648 ∧ platform.sizeofPointer * n < platform.sizes := by
  cases platform with
  | win32 =>
    rw [Platform.lastCapacity] at h
    rw [Platform.sizeofPointer, Platform.sizes]
    omega
  | x64 =>
    rw [Platform.lastCapacity] at h
    rw [Platform.sizeofPointer, Platform.sizes]
    omega

end Sizes

/-- The strings of what is done, with room for more behind them. -/
def filling (done : List (Option NetString)) (room : Nat) : Filling :=
  ⟨⟨Block.holding (done.map stringBytes) room, done.length⟩, (done.length + room : Nat)⟩

section Turn

variable {platform : Platform} {pool : Pool} {done : List (Option NetString)} {room : Nat}

theorem addString_room (h : done.length + (room + 1) < 2147483648) (v : Option NetString) :
    addString platform pool (filling done (room + 1)) v = some (filling (done ++ [v]) room) := by
  have hroom : ¬done.length ≥ toSize platform (done.length + (room + 1) : Nat) := by
    rw [toSize_of_lt h]
    omega
  have hwrite := Block.write_holding (done.map stringBytes) room (stringBytes v)
  rw [List.length_map] at hwrite
  rw [addString, filling]
  simp only [if_neg hroom, hwrite, Option.bind_eq_bind, Option.bind_some, filling,
    List.map_append, List.map_singleton, List.length_append, List.length_singleton,
    Nat.add_assoc, Nat.add_comm 1]
  rfl

variable (hlast : done.length * 2 ≤ platform.lastCapacity)
  (hpool : pool (platform.sizeofPointer * (done.length * 2)) = true)

include hlast hpool

/-- A full block gives way to one of twice the size. -/
theorem grow_full : grow platform pool (filling done 0) = some (filling done done.length) := by
  obtain ⟨h, hsize⟩ := size_lastCapacity hlast
  obtain ⟨hshort, hblock⟩ := @size_lastCapacity platform done.length (by omega)
  have hdouble : toInt32 (((done.length + 0 : Nat) : Int) * 2) = (done.length * 2 : Nat) := by
    have hwrap := toInt32_of_lt h
    simpa using hwrap
  have hcells : pointersSize platform (done.length + 0 : Nat) / platform.sizeofPointer =
      done.length := by
    rw [Nat.add_zero, pointersSize_of_lt hshort hblock]
    exact Nat.mul_div_cancel_left _ (sizeofPointer_pos platform)
  have hcopy := @Block.copy_holding _ (done.map stringBytes) 0 (done.length * 2)
    (by rw [List.length_map]; omega)
  have hleft : done.length * 2 - done.length = done.length := by omega
  rw [List.length_map, Nat.add_zero, hleft] at hcopy
  rw [grow, filling]
  simp only [hdouble, pcalloc_of_lt h hsize hpool, hcells, hcopy, Option.bind_eq_bind,
    Option.bind_some]
  rw [filling, Nat.mul_two]
  rfl

/-- The strings are copied, and the next one is behind them. -/
theorem addString_full (hpos : 0 < done.length) (v : Option NetString) :
    addString platform pool (filling done 0) v =
      some (filling (done ++ [v]) (done.length - 1)) := by
  have h := (size_lastCapacity hlast).1
  have hshort : done.length + 0 < 2147483648 := by omega
  have hfull : done.length ≥ toSize platform (done.length + 0 : Nat) := by
    rw [toSize_of_lt hshort]
    exact Nat.le_refl _
  have hroom : done.length - 1 + 1 = done.length := Nat.sub_add_cancel hpos
  have hturn := @addString_room platform pool done (done.length - 1) (by omega) v
  rw [hroom, addString] at hturn
  have hgrown : ¬(filling done done.length).arr.count ≥
      toSize platform (filling done done.length).alloc := by
    rw [filling, toSize_of_lt (by omega)]
    dsimp only
    omega
  rw [if_neg hgrown] at hturn
  have hfilling : (filling done 0).arr.count ≥ toSize platform (filling done 0).alloc := hfull
  rw [addString, if_pos hfilling, grow_full hlast hpool]
  exact hturn

end Turn

/-- Twice the last capacity of `Platform.x64` is a negative `int`, and the size that it becomes is
none that a pool has; of `Platform.win32` the size wraps around to 0. -/
theorem addString_overflow {platform : Platform} {pool : Pool} {done : List (Option NetString)}
    (h : done.length = platform.lastCapacity)
    (hpool : platform = .x64 → pool 18446744056529682432 = false) (v : Option NetString) :
    addString platform pool (filling done 0) v = none := by
  have halloc : (filling done 0).alloc = (platform.lastCapacity : Int) := by
    rw [filling, h]
    rfl
  have hfull : (filling done 0).arr.count ≥ toSize platform (filling done 0).alloc := by
    rw [halloc, toSize_of_lt (size_lastCapacity (Nat.le_refl _)).1, ← h]
    exact Nat.le_refl _
  rw [addString, if_pos hfull, grow, halloc]
  cases platform with
  | x64 =>
    have hsize : pointersSize .x64 (toInt32 ((Platform.x64.lastCapacity : Int) * 2)) =
        18446744056529682432 := by decide
    rw [hsize, pcalloc, hpool rfl]
    rfl
  | win32 =>
    have hsize : pointersSize .win32 (toInt32 ((Platform.win32.lastCapacity : Int) * 2)) = 0 := by
      decide
    have hcells : pointersSize .win32 Platform.win32.lastCapacity /
        Platform.win32.sizeofPointer = 536870912 := by decide
    rw [hsize, pcalloc, hcells]
    split
    · have hcopy : (Block.zeroed (0 / Platform.win32.sizeofPointer) : Block CStr).copy
          (filling done 0).arr.strings 536870912 = none := by
        rw [Block.copy, if_neg]
        intro hfits
        exact absurd hfits.2 (by decide)
      simp only [hcopy, Option.bind_eq_bind, Option.bind_some, Option.bind_none]
    · rfl

/-- The cells of the block after so many growths. -/
def capacity : Nat → Nat
  | 0 => 16
  | k + 1 => capacity k * 2

theorem capacity_pos (k : Nat) : 0 < capacity k := by
  induction k with
  | zero => decide
  | succ k ih =>
    rw [capacity]
    omega

theorem capacity_mono {j k : Nat} (h : j ≤ k) : capacity j ≤ capacity k := by
  induction h with
  | refl => exact Nat.le_refl _
  | step _ ih =>
    rw [capacity]
    omega

def Platform.growths : Platform → Nat
  | win32 => 25
  | x64 => 26

theorem capacity_last (platform : Platform) :
    capacity platform.growths = platform.lastCapacity := by
  cases platform <;> decide

theorem capacity_le {platform : Platform} {k : Nat} (h : k ≤ platform.growths) :
    capacity k ≤ platform.lastCapacity := by
  rw [← capacity_last]
  exact capacity_mono h

section Loop

variable {platform : Platform} {pool : Pool}

/-- With room for all strings, no block is asked for. -/
theorem addStrings_room {done paths : List (Option NetString)} {room : Nat}
    (hroom : paths.length ≤ room) (h : done.length + room < 2147483648) :
    paths.foldlM (addString platform pool) (filling done room) =
      some (filling (done ++ paths) (room - paths.length)) := by
  induction paths generalizing done room with
  | nil => simp
  | cons v paths ih =>
    rw [List.length_cons] at hroom
    obtain ⟨room, rfl⟩ := Nat.exists_eq_add_of_le' (Nat.le_trans (Nat.succ_pos _) hroom)
    have hturn := @addString_room platform pool done room h v
    have hrest := @ih (done ++ [v]) room (by omega) (by
      rw [List.length_append, List.length_singleton]
      omega)
    rw [List.foldlM_cons, hturn]
    simpa using hrest

/-- The block grows as the strings come, up to the last size that it can double to. -/
theorem addStrings_enumerated {done paths : List (Option NetString)} {room k : Nat}
    (hk : k ≤ platform.growths) (hcapacity : done.length + room = capacity k)
    (h : done.length + paths.length ≤ platform.lastCapacity)
    (hpool : Serves platform pool (2 * (done.length + paths.length))) :
    ∃ left j, j ≤ platform.growths ∧ (done ++ paths).length + left = capacity j ∧
      paths.foldlM (addString platform pool) (filling done room) =
        some (filling (done ++ paths) left) := by
  induction paths generalizing done room k with
  | nil =>
    rw [List.append_nil]
    exact ⟨room, k, hk, hcapacity, rfl⟩
  | cons v paths ih =>
    rw [List.length_cons] at h hpool
    have hlast := capacity_le hk
    have hlength : (done ++ [v]).length = done.length + 1 := by simp
    have htotal : (done ++ [v]).length + paths.length = done.length + (paths.length + 1) := by
      omega
    rw [List.foldlM_cons, List.append_cons]
    rw [← htotal] at h hpool
    cases room with
    | zero =>
      have hmore : k + 1 ≤ platform.growths := by
        by_contra hend
        obtain rfl : k = platform.growths := by omega
        rw [capacity_last] at hcapacity
        omega
      have hpos := capacity_pos k
      have hdouble := capacity_le hmore
      rw [capacity] at hdouble
      have hroom : (done ++ [v]).length + (done.length - 1) = capacity (k + 1) := by
        rw [capacity]
        omega
      rw [addString_full (by omega) (hpool _ (by omega)) (by omega)]
      exact ih hmore hroom h hpool
    | succ room =>
      have hshort := (size_lastCapacity hlast).1
      have hroom : (done ++ [v]).length + room = capacity k := by omega
      rw [addString_room (by omega)]
      exact ih hk hroom h hpool

end Loop

section Array

variable {platform : Platform} {pool : Pool}

/-- The array of the strings that were added. -/
theorem filling_converts (done : List (Option NetString)) (room : Nat) :
    Converts (some (filling done room).arr) done := by
  refine ⟨_, rfl, rfl, ?_⟩
  intro i v hv
  have hbytes : (done.map stringBytes)[i]? = some (utf8GetBytes (v.getD []) ++ [0]) := by
    rw [List.getElem?_map, hv, Option.map_some, stringBytes, allocString_eq]
  exact Block.getElem?_holding hbytes room

theorem allocStringArray_filling {coll : Option Int} {cells : Nat}
    (hcells : coll.getD 16 = cells) (h : cells < 2147483648)
    (hsize : platform.sizeofPointer * cells < platform.sizes)
    (hpool : Serves platform pool (max 2 cells)) (paths : List (Option NetString)) :
    allocStringArray platform pool coll paths =
      (paths.foldlM (addString platform pool) (filling [] cells)).map Filling.arr := by
  have hblock := pcalloc_of_lt h hsize (hpool cells (Nat.le_max_right _ _))
  have harray : pool (sizeofStrArray platform) = true := by
    rw [sizeofStrArray, Nat.mul_comm]
    exact hpool 2 (Nat.le_max_left _ _)
  have hstart : filling [] cells = ⟨⟨Block.zeroed cells, 0⟩, cells⟩ := by
    rw [filling, List.length_nil, Nat.zero_add, List.map_nil, Block.holding_nil]
  rw [allocStringArray, if_pos harray, hcells]
  simp only [hblock, hstart, Option.bind_eq_bind, Option.bind_some]
  cases paths.foldlM (addString platform pool) ⟨⟨Block.zeroed cells, 0⟩, cells⟩ <;> rfl

/-- A collection's array has its size from the start. -/
theorem allocStringArray_collection {paths : List (Option NetString)}
    (h : paths.length < 2147483648)
    (hsize : platform.sizeofPointer * paths.length < platform.sizes)
    (hpool : Serves platform pool (max 2 paths.length)) :
    Converts (allocStringArray platform pool (some paths.length) paths) paths := by
  have hadd := @addStrings_room platform pool [] paths paths.length (Nat.le_refl _)
    (by simpa using h)
  rw [allocStringArray_filling rfl h hsize hpool, hadd, Option.map_some]
  exact filling_converts paths _

/-- The loop of an enumeration, which starts with 16 cells. -/
theorem allocStringArray_loop {paths : List (Option NetString)}
    (hpool : Serves platform pool (max 16 (2 * paths.length))) :
    allocStringArray platform pool none paths =
      (paths.foldlM (addString platform pool) (filling [] 16)).map Filling.arr := by
  have hsixteen : 16 ≤ platform.lastCapacity := by cases platform <;> decide
  obtain ⟨h, hsize⟩ := size_lastCapacity hsixteen
  refine allocStringArray_filling rfl h hsize ?_ paths
  intro n hn
  exact hpool n (by omega)

theorem allocStringArray_enumerated {paths : List (Option NetString)}
    (h : paths.length ≤ platform.lastCapacity)
    (hpool : Serves platform pool (max 16 (2 * paths.length))) :
    Converts (allocStringArray platform pool none paths) paths := by
  have hgrowth : Serves platform pool (2 * (([] : List (Option NetString)).length +
      paths.length)) := by
    intro n hn
    rw [List.length_nil, Nat.zero_add] at hn
    exact hpool n (by omega)
  obtain ⟨left, _, _, _, hadd⟩ := @addStrings_enumerated platform pool [] paths 16 0
    (Nat.zero_le _) rfl (by simpa using h) hgrowth
  rw [allocStringArray_loop hpool, hadd, Option.map_some]
  exact filling_converts paths left

/-- One string more than the last block has cells, and nothing comes back. -/
theorem allocStringArray_overflow {paths : List (Option NetString)}
    (h : platform.lastCapacity < paths.length)
    (hpool : Serves platform pool (2 * platform.lastCapacity))
    (hnone : platform = .x64 → pool 18446744056529682432 = false) :
    allocStringArray platform pool none paths = none := by
  obtain ⟨front, v, rest, rfl, hfront⟩ : ∃ front v rest, paths = front ++ v :: rest ∧
      front.length = platform.lastCapacity := by
    refine ⟨paths.take platform.lastCapacity, paths.get ⟨platform.lastCapacity, h⟩,
      paths.drop (platform.lastCapacity + 1), ?_, ?_⟩
    · rw [List.get_eq_getElem, List.getElem_cons_drop, List.take_append_drop]
    · exact List.length_take_of_le (Nat.le_of_lt h)
  have hsixteen : 16 ≤ platform.lastCapacity := by cases platform <;> decide
  obtain ⟨hcells, hsize⟩ := size_lastCapacity hsixteen
  have hgrowth : Serves platform pool (2 * (([] : List (Option NetString)).length +
      front.length)) := by
    rw [List.length_nil, Nat.zero_add, hfront]
    exact hpool
  obtain ⟨left, j, hj, hcapacity, hadd⟩ := @addStrings_enumerated platform pool [] front 16 0
    (Nat.zero_le _) rfl (by rw [List.length_nil, Nat.zero_add, hfront]) hgrowth
  have hlast := capacity_le hj
  rw [List.nil_append] at hcapacity hadd
  obtain rfl : left = 0 := by omega
  have hstart : Serves platform pool (max 2 16) := fun n hn => hpool n (by omega)
  rw [allocStringArray_filling rfl hcells hsize hstart, List.foldlM_append, hadd,
    Option.bind_eq_bind, Option.bind_some, List.foldlM_cons, addString_overflow hfront hnone]
  rfl

/-- The pointers of 2^30 strings have 2^32 bytes, of which a `size_t` of 32 bits keeps none. -/
theorem allocStringArray_collection_overflow (v : Option NetString)
    (rest : List (Option NetString)) :
    allocStringArray .win32 pool (some 1073741824) (v :: rest) = none := by
  have hsize : pointersSize .win32 1073741824 = 0 := by decide
  have hturn : addString .win32 pool ⟨⟨Block.zeroed (0 / Platform.win32.sizeofPointer), 0⟩,
      1073741824⟩ v = none := by
    have hroom : ¬0 ≥ toSize .win32 1073741824 := by decide
    rw [addString, if_neg hroom]
    rfl
  rw [allocStringArray]
  simp only [Option.getD_some, hsize, pcalloc]
  split
  · split
    · simp only [Option.bind_eq_bind, Option.bind_some, List.foldlM_cons, hturn, Option.bind_none]
    · rfl
  · rfl

theorem allocStringArrayOf_converts (hpool : Serves platform pool 2) (path : Option NetString) :
    Converts (allocStringArrayOf platform pool path) [path] := by
  have hone : 1 ≤ platform.lastCapacity := by cases platform <;> decide
  obtain ⟨h, hsize⟩ := size_lastCapacity hone
  exact @allocStringArray_collection platform pool [path] h hsize hpool

end Array

/-- A sequence that fits becomes an array of its strings. -/
theorem allocStringArray_converts (platform : Platform) (pool : Pool) (seq : StringSequence)
    (hpool : Serves platform pool seq.cells) (hfits : seq.Fits platform) :
    Converts (allocStringArray platform pool seq.count? seq.elements) seq.elements := by
  cases seq with
  | collection elements hcount => exact allocStringArray_collection hcount hfits hpool
  | enumerated elements => exact allocStringArray_enumerated hfits hpool

/-- The address space of a process of 128 TiB. -/
def examplePool : Pool := fun size => size < 140737488355328

/-- "a" and null, enumerated. -/
theorem allocStringArray_converts_pair :
    Converts (allocStringArray .win32 examplePool none [some [0x61], none])
        [some [0x61], none] ∧
      (allocStringArray .win32 examplePool none [some [0x61], none]).map
        (fun arr => (arr.strings.take 3, arr.count)) =
          some ([some [0x61, 0], some [0], none], 2) := by
  constructor
  · refine allocStringArray_converts .win32 examplePool (.enumerated [some [0x61], none]) ?_ ?_
    · intro n hn
      have hsixteen : n ≤ 16 := hn
      rw [examplePool, decide_eq_true_eq, Platform.sizeofPointer]
      omega
    · show 2 ≤ 536870912
      decide
  · decide

theorem not_converts_none (elements : List (Option NetString)) : ¬Converts none elements := by
  rintro ⟨arr, harr, -⟩
  cases harr

/-- So many nulls that the block would have to double once more; and a collection of 2^30. -/
theorem allocStringArray_overflows :
    ¬Converts (allocStringArray .x64 examplePool none (List.replicate 1073741825 none))
        (List.replicate 1073741825 none) ∧
      ¬Converts (allocStringArray .win32 examplePool none (List.replicate 536870913 none))
        (List.replicate 536870913 none) ∧
      ¬Converts (allocStringArray .win32 examplePool (some 1073741824)
        (List.replicate 1073741824 none)) (List.replicate 1073741824 none) := by
  have hserves (platform : Platform) :
      Serves platform examplePool (2 * platform.lastCapacity) := by
    intro n hn
    rw [examplePool, decide_eq_true_eq]
    cases platform with
    | win32 =>
      rw [Platform.lastCapacity] at hn
      rw [Platform.sizeofPointer]
      omega
    | x64 =>
      rw [Platform.lastCapacity] at hn
      rw [Platform.sizeofPointer]
      omega
  refine ⟨?_, ?_, ?_⟩
  · rw [allocStringArray_overflow (by rw [List.length_replicate]; decide) (hserves .x64)
      fun _ => by decide]
    exact not_converts_none _
  · rw [allocStringArray_overflow (by rw [List.length_replicate]; decide) (hserves .win32)
      fun h => by cases h]
    exact not_converts_none _
  · have hcons : List.replicate 1073741824 (none : Option NetString) =
        none :: List.replicate 1073741823 none := List.replicate_succ
    rw [hcons, allocStringArray_collection_overflow]
    exact not_converts_none _

end SharpGit.Implementation
