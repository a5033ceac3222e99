import SharpGit.Library.Action
import SharpGit.Library.Records
import SharpGit.Plumbing.IndexApi

namespace SharpGit.Plumbing

open Library Native Svn Implementation

/-- `GetIndexInstance`: the index as its file holds it. -/
def GitRepository.getIndexInstance (api : IndexApi) (disk : Disk) (repo : GitRepository) :
    Except Failure Index := do
  let native ← repo.handle
  let r := api.openIndex disk.fs native
  if r ≠ 0 then .error (.git r) else .ok (disk.index native)

namespace GitIndex

/-- The test of `Remove(String^, bool)`. -/
def removeMatches (path : CStr) (recursive : Bool) (e : IndexEntry) : Bool :=
  if recursive then (svnRelpathSkipAncestor path e.path).isSome else strcmp path e.path = 0

/-- The `for (int i = 0; i < c; i++)` loop: a match shrinks the bound and `i` still goes up. -/
def removeLoop (api : IndexApi) (hit : IndexEntry → Bool) :
    Nat → Nat → Nat → Index → Bool → Except Failure (Bool × Index)
  | 0, _, _, index, deletedOne => .ok (deletedOne, index)
  | fuel + 1, i, c, index, deletedOne =>
    if i < c then
      match index[i]? with
      | none => .error .accessViolation
      | some entry =>
        if hit entry then
          removeLoop api hit fuel (i + 1) (c - 1) (api.remove index entry.path entry.stage).2 true
        else removeLoop api hit fuel (i + 1) c index deletedOne
    else .ok (deletedOne, index)

def remove (api : IndexApi) (index : Index) (relativePath : NetString) (recursive : Bool) :
    Except Failure (Bool × Index) :=
  if relativePath = [] then .error (.argumentNull "relativePath")
  else
    let path := allocRelpath relativePath
    let c := index.length
    -- every turn moves `i` up and never moves `c` up, so `c` turns are enough
    removeLoop api (removeMatches path recursive) c 0 c index false

def write (api : IndexApi) (native : NativeRepository) (index : Index) :
    Action Disk Failure Bool := do
  let r := api.write native index
  if r ≠ 0 then Action.raise (.git r)
  else
    Action.modify fun disk => disk.setIndex native index
    return true

end GitIndex

theorem GitIndex.run_write (api : IndexApi) (native : NativeRepository) (index : Index)
    (disk : Disk) :
    (GitIndex.write api native index).run disk =
      if api.write native index = 0 then (.ok true, disk.setIndex native index)
      else (.error (.git (api.write native index)), disk) := by
  by_cases h : api.write native index = 0 <;> simp [GitIndex.write, h, Action.run_bind]

theorem GitIndex.write_eq_ok {api : IndexApi} {native : NativeRepository} {index : Index}
    {disk disk' : Disk} {written : Bool} :
    (GitIndex.write api native index).run disk = (.ok written, disk') ↔
      written = true ∧ api.write native index = 0 ∧ disk' = disk.setIndex native index := by
  rw [GitIndex.run_write]
  by_cases h : api.write native index = 0 <;> simp [h, eq_comm]

theorem GitRepository.getIndexInstance_eq_ok {api : IndexApi} {disk : Disk} {repo : GitRepository}
    {index : Index} :
    repo.getIndexInstance api disk = .ok index ↔
      ∃ native, repo = ⟨some native⟩ ∧ api.openIndex disk.fs native = 0 ∧
        disk.index native = index := by
  obtain ⟨repository⟩ := repo
  cases repository with
  | none => simp [getIndexInstance, handle, bind, Except.bind]
  | some native =>
    by_cases h : api.openIndex disk.fs native = 0 <;>
      simp [getIndexInstance, handle, bind, Except.bind, h]

/-- Removing an entry leaves what stands before and behind it. -/
theorem remove_entry {api : IndexApi} (hapi : api.Removes) {before rest : Index} {e : IndexEntry}
    (hs : SortedIndex (before ++ e :: rest)) :
    api.remove (before ++ e :: rest) e.path e.stage = (0, before ++ rest) := by
  have hself : sameKey e.path e.stage e = true := by simp [sameKey]
  rw [hapi _ _ _ hs ⟨e, by simp, hself⟩]
  obtain ⟨-, htail, hcross⟩ := List.pairwise_append.mp hs
  have hbefore : ∀ f ∈ before, sameKey e.path e.stage f = false := fun f hf =>
    (hcross f hf e (by simp)).key_ne.1
  have hrest : ∀ f ∈ rest, sameKey e.path e.stage f = false := fun f hf =>
    ((List.pairwise_cons.mp htail).1 f hf).key_ne.2
  rw [List.filter_append, List.filter_cons_of_neg (by simp [hself]),
    List.filter_eq_self.mpr fun f hf => by simp [hbefore f hf],
    List.filter_eq_self.mpr fun f hf => by simp [hrest f hf]]

/-- The entries a path stands for: itself at any stage, recursively also all below it. -/
def Addresses (path : CStr) (recursive : Bool) (e : IndexEntry) : Prop :=
  e.path = path ∨ (recursive = true ∧ Below path e.path)

instance (path : CStr) (recursive : Bool) (e : IndexEntry) :
    Decidable (Addresses path recursive e) :=
  inferInstanceAs (Decidable (_ ∨ _))

namespace GitIndex

theorem removeMatches_iff {path : CStr} {recursive : Bool} {e : IndexEntry} :
    removeMatches path recursive e = true ↔ Addresses path recursive e := by
  cases recursive with
  | false =>
    simp only [removeMatches, Addresses, Bool.false_eq_true, if_false, false_and, or_false,
      decide_eq_true_eq, strcmp_eq_zero]
    exact eq_comm
  | true =>
    by_cases hp : path = []
    · simp [removeMatches, Addresses, Below, hp, svnRelpathSkipAncestor]
    · simp [removeMatches, Addresses, Below, hp, svnRelpathSkipAncestor_isSome]

theorem removeLoop_end (api : IndexApi) (hit : IndexEntry → Bool) (fuel : Nat) {i c : Nat}
    (hic : c ≤ i) (index : Index) (deletedOne : Bool) :
    removeLoop api hit fuel i c index deletedOne = .ok (deletedOne, index) := by
  cases fuel with
  | zero => rfl
  | succ fuel => rw [removeLoop, if_neg (Nat.not_lt.mpr hic)]

theorem removeLoop_hit {api : IndexApi} (hapi : api.Removes) {hit : IndexEntry → Bool}
    {done rest : Index} {x : IndexEntry} (hs : SortedIndex (done ++ x :: rest)) (hx : hit x = true)
    (fuel : Nat) (deletedOne : Bool) :
    removeLoop api hit (fuel + 1) done.length (done ++ x :: rest).length (done ++ x :: rest)
        deletedOne =
      removeLoop api hit fuel (done.length + 1) (done ++ rest).length (done ++ rest) true := by
  have hentry : (done ++ x :: rest)[done.length]? = some x := by simp
  rw [removeLoop, if_pos (by simp), hentry]
  dsimp only
  rw [if_pos hx, remove_entry hapi hs]
  have hlen : (done ++ x :: rest).length - 1 = (done ++ rest).length := by simp
  rw [hlen]

theorem removeLoop_miss (api : IndexApi) {hit : IndexEntry → Bool} {done rest : Index}
    {x : IndexEntry} (hx : hit x = false) (fuel : Nat) (deletedOne : Bool) :
    removeLoop api hit (fuel + 1) done.length (done ++ x :: rest).length (done ++ x :: rest)
        deletedOne =
      removeLoop api hit fuel (done.length + 1) (done ++ x :: rest).length (done ++ x :: rest)
        deletedOne := by
  have hentry : (done ++ x :: rest)[done.length]? = some x := by simp
  rw [removeLoop, if_pos (by simp), hentry]
  simp [hx]

/-- From `i` on, the loop does to the rest of the index what the skipping scan does. -/
theorem removeLoop_eq {api : IndexApi} (hapi : api.Removes) (hit : IndexEntry → Bool)
    (rest done : Index) (fuel : Nat) (deletedOne : Bool) (hs : SortedIndex (done ++ rest))
    (hf : rest.length ≤ fuel) :
    removeLoop api hit fuel done.length (done ++ rest).length (done ++ rest) deletedOne =
      .ok (deletedOne || rest.any hit, done ++ skipRemove hit rest) := by
  fun_induction skipRemove hit rest generalizing done fuel deletedOne with
  | case1 =>
    rw [removeLoop_end api hit fuel (by simp)]
    simp
  | case2 x hx =>
    obtain ⟨fuel, rfl⟩ : ∃ n, fuel = n + 1 := ⟨fuel - 1, by simp at hf; omega⟩
    rw [removeLoop_hit hapi hs hx, removeLoop_end api hit fuel (by simp)]
    simp [hx]
  | case3 x hx =>
    obtain ⟨fuel, rfl⟩ : ∃ n, fuel = n + 1 := ⟨fuel - 1, by simp at hf; omega⟩
    rw [removeLoop_miss api (by simpa using hx), removeLoop_end api hit fuel (by simp)]
    simp [hx]
  | case4 x y rest hx ih =>
    obtain ⟨fuel, rfl⟩ : ∃ n, fuel = n + 1 := ⟨fuel - 1, by simp at hf; omega⟩
    have hs' : SortedIndex (done ++ [y] ++ rest) := by
      apply hs.sublist
      rw [List.append_assoc, List.singleton_append]
      exact (List.sublist_cons_self x _).append_left done
    have hrun := ih (done ++ [y]) fuel true hs' (by simp at hf; omega)
    rw [removeLoop_hit hapi hs hx]
    rw [List.append_assoc, List.singleton_append, List.length_append, List.length_singleton] at hrun
    rw [hrun]
    simp [hx]
  | case5 x y rest hx ih =>
    obtain ⟨fuel, rfl⟩ : ∃ n, fuel = n + 1 := ⟨fuel - 1, by simp at hf; omega⟩
    have hassoc : done ++ x :: y :: rest = done ++ [x] ++ y :: rest := by simp
    have hrun := ih (done ++ [x]) fuel deletedOne (hassoc ▸ hs) (by simp at hf ⊢; omega)
    rw [removeLoop_miss api (by simpa using hx)]
    rw [← hassoc, List.length_append, List.length_singleton] at hrun
    rw [hrun]
    simp [hx]

theorem remove_eq {api : IndexApi} (hapi : api.Removes) {index : Index} (hs : SortedIndex index)
    {relativePath : NetString} (hp : relativePath ≠ []) (recursive : Bool) :
    remove api index relativePath recursive =
      .ok (index.any (removeMatches (allocRelpath relativePath) recursive),
        skipRemove (removeMatches (allocRelpath relativePath) recursive) index) := by
  rw [remove, if_neg hp]
  exact removeLoop_eq hapi _ index [] index.length false hs (Nat.le_refl _)

end GitIndex

end SharpGit.Plumbing
