import Mathlib.Data.List.Induction
import SharpGit.Library.Runs

namespace SharpGit.Library

/-- What an object reads under each of its names while its memory is there, nothing where it has a
null pointer, and what it keeps. -/
structure KeptObject (K V : Type) where
  live : Bool
  attached : Bool
  memory : K → Option V
  kept : K → Option V

inductive KeptEvent (K V : Type)
  | enter (memory : K → Option V)
  | read (o : Nat) (k : K)
  | detach (o : Nat) (keepValues : Bool)
  /-- The memory of the object goes away. -/
  | leave (o : Nat)

structure KeptWorld (K V : Type) where
  objects : List (KeptObject K V)
  /-- A memory has been read that was no longer there. -/
  stale : Bool

variable {K V : Type} [DecidableEq K]

namespace KeptObject

/-- The getter: what is kept, or what the memory holds as long as the object points there. -/
def get (object : KeptObject K V) (k : K) : Option V :=
  match object.kept k with
  | some v => some v
  | none => if object.attached then object.memory k else none

/-- The getter has to read the memory. -/
def touches (object : KeptObject K V) (k : K) : Bool :=
  object.attached && (object.kept k).isNone && (object.memory k).isSome

def read (object : KeptObject K V) (k : K) : KeptObject K V :=
  { object with kept := Function.update object.kept k (object.get k) }

/-- `Detach`: where values are to be kept, each getter is called first. -/
def detach (keys : List K) (object : KeptObject K V) (keepValues : Bool) : KeptObject K V :=
  { (if keepValues then keys.foldl read object else object) with attached := false }

end KeptObject

namespace KeptWorld

variable (keys : List K)

def enter (s : KeptWorld K V) (memory : K → Option V) : KeptWorld K V :=
  { s with objects := s.objects ++ [⟨true, true, memory, fun _ => none⟩] }

def read (s : KeptWorld K V) (o : Nat) (k : K) : KeptWorld K V :=
  match s.objects[o]? with
  | none => s
  | some object =>
    ⟨s.objects.set o (object.read k), s.stale || (object.touches k && !object.live)⟩

def detach (s : KeptWorld K V) (o : Nat) (keepValues : Bool) : KeptWorld K V :=
  match s.objects[o]? with
  | none => s
  | some object =>
    ⟨s.objects.set o (object.detach keys keepValues),
      s.stale || (keepValues && keys.any object.touches && !object.live)⟩

/-- `Detach(false)` at the end, and the memory is gone. -/
def leave (s : KeptWorld K V) (o : Nat) : KeptWorld K V :=
  match s.objects[o]? with
  | none => s
  | some object =>
    { s with objects := s.objects.set o { object.detach keys false with live := false } }

def step (s : KeptWorld K V) : KeptEvent K V → KeptWorld K V
  | .enter memory => s.enter memory
  | .read o k => s.read o k
  | .detach o keepValues => s.detach keys o keepValues
  | .leave o => s.leave keys o

end KeptWorld

namespace KeptObject

/-- It points to its memory only while that is there, and keeps only what was in it. -/
structure Sound (object : KeptObject K V) : Prop where
  attached : object.attached = true → object.live = true
  kept : ∀ k v, object.kept k = some v → object.memory k = some v

omit [DecidableEq K] in
theorem get_eq {object : KeptObject K V} (h : object.Sound) {k : K} {v : V}
    (hget : object.get k = some v) : object.memory k = some v := by
  unfold get at hget
  cases hkept : object.kept k with
  | some w =>
    rw [hkept] at hget
    obtain rfl := Option.some.inj hget
    exact h.kept k w hkept
  | none =>
    rw [hkept] at hget
    dsimp only at hget
    split_ifs at hget
    exact hget

omit [DecidableEq K] in
theorem get_isSome (object : KeptObject K V) (k : K) :
    (object.get k).isSome =
      ((object.kept k).isSome || (object.attached && (object.memory k).isSome)) := by
  unfold get
  cases object.kept k with
  | some v => rfl
  | none => cases object.attached <;> rfl

theorem Sound.read {object : KeptObject K V} (h : object.Sound) (k : K) :
    (object.read k).Sound := by
  refine ⟨h.attached, ?_⟩
  intro other v hother
  change Function.update object.kept k (object.get k) other = some v at hother
  rw [Function.update_apply] at hother
  split_ifs at hother with heq
  · rw [heq]
    exact get_eq h hother
  · exact h.kept other v hother

/-- What reading the names one by one leaves. -/
theorem foldl_read (names : List K) (object : KeptObject K V) (h : object.Sound) :
    (names.foldl KeptObject.read object).Sound ∧
      (names.foldl KeptObject.read object).live = object.live ∧
      (names.foldl KeptObject.read object).attached = object.attached ∧
      (names.foldl KeptObject.read object).memory = object.memory ∧
      ∀ k, ((names.foldl KeptObject.read object).kept k).isSome = ((object.kept k).isSome ||
        (object.attached && (object.memory k).isSome && decide (k ∈ names))) := by
  induction names generalizing object with
  | nil =>
    refine ⟨h, rfl, rfl, rfl, ?_⟩
    intro k
    simp
  | cons name names ih =>
    obtain ⟨hsound, hlive, hattached, hmemory, hkept⟩ := ih (object.read name) (h.read name)
    refine ⟨hsound, hlive, hattached, hmemory, ?_⟩
    intro k
    rw [List.foldl_cons, hkept]
    change ((Function.update object.kept name (object.get name) k).isSome ||
      (object.attached && (object.memory k).isSome && decide (k ∈ names))) = _
    rw [Function.update_apply]
    by_cases hk : k = name
    · subst hk
      rw [if_pos rfl, get_isSome]
      cases object.attached <;> cases (object.memory k).isSome <;> simp
    · rw [if_neg hk]
      simp [hk]

theorem Sound.detach {object : KeptObject K V} (h : object.Sound) (keys : List K)
    (keepValues : Bool) : (object.detach keys keepValues).Sound := by
  cases keepValues with
  | false => exact ⟨fun hattached => Bool.noConfusion hattached, h.kept⟩
  | true =>
    exact ⟨fun hattached => Bool.noConfusion hattached, (foldl_read keys object h).1.kept⟩

end KeptObject

/-- The object reads this name and keeps it, if it still points to its memory. -/
def KeptEvent.Keeps (event : KeptEvent K V) (o : Nat) (k : K) : Prop :=
  event = .read o k ∨ event = .detach o true

/-- The event makes an object. -/
def KeptEvent.enters : KeptEvent K V → Bool
  | .enter _ => true
  | _ => false

namespace KeptWorld

variable {keys : List K} {s : KeptWorld K V}

structure Sound (s : KeptWorld K V) : Prop where
  objects : ∀ (o : Nat) (object : KeptObject K V), s.objects[o]? = some object → object.Sound
  fresh : s.stale = false

/-- What an event makes of an object. -/
structure Follows (event : KeptEvent K V) (o : Nat)
    (object after : KeptObject K V) : Prop where
  sound : after.Sound
  memory : after.memory = object.memory
  attached : after.attached = true → object.attached = true
  kept : ∀ k, (after.kept k).isSome = true ↔
    (object.kept k).isSome = true ∨
      (object.attached = true ∧ (object.memory k).isSome = true ∧ event.Keeps o k)

omit [DecidableEq K] in
theorem follows_self {event : KeptEvent K V} {o : Nat} {object : KeptObject K V}
    (h : object.Sound) (hother : ∀ k, ¬event.Keeps o k) : Follows event o object object := by
  refine ⟨h, rfl, id, fun k => ⟨.inl, ?_⟩⟩
  rintro (hkept | ⟨-, -, hkeeps⟩)
  · exact hkept
  · exact absurd hkeeps (hother k)

theorem follows_read {o : Nat} {object : KeptObject K V} (h : object.Sound) (k : K) :
    Follows (.read o k) o object (object.read k) := by
  refine ⟨h.read k, rfl, id, ?_⟩
  intro other
  change (Function.update object.kept k (object.get k) other).isSome = true ↔ _
  rw [Function.update_apply]
  by_cases hk : other = k
  · subst hk
    rw [if_pos rfl, KeptObject.get_isSome, Bool.or_eq_true, Bool.and_eq_true]
    refine or_congr_right (and_congr_right fun _ => ?_)
    exact ⟨fun hmemory => ⟨hmemory, .inl rfl⟩, And.left⟩
  · rw [if_neg hk]
    refine ⟨.inl, ?_⟩
    rintro (hkept | ⟨-, -, hread | hdetach⟩)
    · exact hkept
    · cases hread
      exact absurd rfl hk
    · cases hdetach

omit [DecidableEq K] in
/-- Forgetting the memory keeps nothing. -/
theorem follows_forget {event : KeptEvent K V} {o : Nat} {object after : KeptObject K V}
    (h : object.Sound) (hafter : after.kept = object.kept) (hmemory : after.memory = object.memory)
    (hattached : after.attached = false) (hother : ∀ k, ¬event.Keeps o k) :
    Follows event o object after := by
  refine ⟨⟨?_, ?_⟩, hmemory, ?_, fun k => ?_⟩
  · intro hpoints
    rw [hattached] at hpoints
    cases hpoints
  · intro k v hkept
    rw [hafter] at hkept
    rw [hmemory]
    exact h.kept k v hkept
  · intro hpoints
    rw [hattached] at hpoints
    cases hpoints
  · rw [hafter]
    refine ⟨.inl, ?_⟩
    rintro (hkept | ⟨-, -, hkeeps⟩)
    · exact hkept
    · exact absurd hkeeps (hother k)

theorem follows_detach {o : Nat} {object : KeptObject K V} (h : object.Sound)
    (hkeys : ∀ k, k ∈ keys) (keepValues : Bool) :
    Follows (.detach o keepValues) o object (object.detach keys keepValues) := by
  cases keepValues with
  | false =>
    refine follows_forget h rfl rfl rfl ?_
    rintro k (hread | hdetach)
    · cases hread
    · cases hdetach
  | true =>
    obtain ⟨-, -, -, hmemory, hkept⟩ := KeptObject.foldl_read keys object h
    refine ⟨h.detach keys true, hmemory, fun h => Bool.noConfusion h, ?_⟩
    intro k
    refine (Bool.eq_iff_iff.mp (hkept k)).trans ?_
    rw [Bool.or_eq_true, Bool.and_eq_true, Bool.and_eq_true, decide_eq_true_iff, and_assoc]
    refine or_congr_right (and_congr_right fun _ => and_congr_right fun _ => ?_)
    exact ⟨fun _ => .inr rfl, fun _ => hkeys k⟩

theorem follows_leave {o : Nat} {object : KeptObject K V} (h : object.Sound) :
    Follows (.leave o) o object { object.detach keys false with live := false } := by
  refine follows_forget h rfl rfl rfl ?_
  rintro k (hread | hdetach)
  · cases hread
  · cases hdetach

omit [DecidableEq K] in
theorem set_cases {objects : List (KeptObject K V)} {d o : Nat} {changed after : KeptObject K V}
    (h : (objects.set d changed)[o]? = some after) :
    (d = o ∧ after = changed) ∨ (d ≠ o ∧ objects[o]? = some after) := by
  rw [List.getElem?_set] at h
  split_ifs at h with heq hlt
  · exact .inl ⟨heq, (Option.some.inj h).symm⟩
  · exact .inr ⟨heq, h⟩

omit [DecidableEq K] in
/-- An event on an object changes that one, and no other. -/
theorem changed_object (hs : s.Sound) {event : KeptEvent K V} {d : Nat}
    {object changed : KeptObject K V} (hobject : s.objects[d]? = some object)
    (hfollows : Follows event d object changed)
    (hother : ∀ o k, event.Keeps o k → o = d) {o : Nat} {after : KeptObject K V}
    (h : (s.objects.set d changed)[o]? = some after) :
    ∃ object, s.objects[o]? = some object ∧ Follows event o object after := by
  obtain ⟨rfl, rfl⟩ | ⟨hne, hold⟩ := set_cases h
  · exact ⟨object, hobject, hfollows⟩
  · exact ⟨after, hold, follows_self (hs.objects o after hold)
      fun k hkeeps => hne (hother o k hkeeps).symm⟩

/-- Behind an event each object is new, or follows from what it was. -/
theorem step_object (hkeys : ∀ k, k ∈ keys) (hs : s.Sound) (event : KeptEvent K V) {o : Nat}
    {after : KeptObject K V} (h : (s.step keys event).objects[o]? = some after) :
    (s.objects[o]? = none ∧ after.Sound ∧ ∀ k, after.kept k = none) ∨
      ∃ object, s.objects[o]? = some object ∧ Follows event o object after := by
  cases event with
  | enter memory =>
    change (s.objects ++ [_])[o]? = some after at h
    rw [List.getElem?_append] at h
    split_ifs at h with hlt
    · refine .inr ⟨after, h, follows_self (hs.objects o after h) ?_⟩
      rintro k (hread | hdetach)
      · cases hread
      · cases hdetach
    · obtain rfl := List.mem_singleton.mp (List.mem_of_getElem? h)
      refine .inl ⟨List.getElem?_eq_none (by omega), ⟨fun _ => rfl, ?_⟩, fun _ => rfl⟩
      intro k v hkept
      cases hkept
  | read d k =>
    right
    change (s.read d k).objects[o]? = some after at h
    unfold read at h
    cases hobject : s.objects[d]? with
    | none =>
      rw [hobject] at h
      refine ⟨after, h, follows_self (hs.objects o after h) ?_⟩
      rintro other (hread | hdetach)
      · cases hread
        rw [hobject] at h
        cases h
      · cases hdetach
    | some object =>
      rw [hobject] at h
      refine changed_object hs hobject (follows_read (hs.objects d object hobject) k) ?_ h
      rintro other name (hread | hdetach)
      · cases hread
        rfl
      · cases hdetach
  | detach d keepValues =>
    right
    change (s.detach keys d keepValues).objects[o]? = some after at h
    unfold detach at h
    cases hobject : s.objects[d]? with
    | none =>
      rw [hobject] at h
      refine ⟨after, h, follows_self (hs.objects o after h) ?_⟩
      rintro other (hread | hdetach)
      · cases hread
      · cases hdetach
        rw [hobject] at h
        cases h
    | some object =>
      rw [hobject] at h
      refine changed_object hs hobject
        (follows_detach (hs.objects d object hobject) hkeys keepValues) ?_ h
      rintro other name (hread | hdetach)
      · cases hread
      · cases hdetach
        rfl
  | leave d =>
    right
    change (s.leave keys d).objects[o]? = some after at h
    unfold leave at h
    cases hobject : s.objects[d]? with
    | none =>
      rw [hobject] at h
      refine ⟨after, h, follows_self (hs.objects o after h) ?_⟩
      rintro other (hread | hdetach)
      · cases hread
      · cases hdetach
    | some object =>
      rw [hobject] at h
      refine changed_object hs hobject (follows_leave (hs.objects d object hobject)) ?_ h
      rintro other name (hread | hdetach)
      · cases hread
      · cases hdetach

omit [DecidableEq K] in
/-- A getter that has to read finds its memory. -/
theorem touches_live {object : KeptObject K V} (h : object.Sound) (k : K) :
    (object.touches k && !object.live) = false := by
  cases hattached : object.attached with
  | false => simp [KeptObject.touches, hattached]
  | true => simp [h.attached hattached]

theorem step_fresh (hs : s.Sound) (event : KeptEvent K V) : (s.step keys event).stale = false := by
  cases event with
  | enter memory => exact hs.fresh
  | read d k =>
    change (s.read d k).stale = false
    unfold read
    cases hobject : s.objects[d]? with
    | none => exact hs.fresh
    | some object =>
      dsimp only
      rw [hs.fresh, touches_live (hs.objects d object hobject)]
      rfl
  | detach d keepValues =>
    change (s.detach keys d keepValues).stale = false
    unfold detach
    cases hobject : s.objects[d]? with
    | none => exact hs.fresh
    | some object =>
      dsimp only
      rw [hs.fresh]
      cases hlive : object.live with
      | true => simp
      | false =>
        have hquiet (k : K) : object.touches k = false := by
          have hk := touches_live (hs.objects d object hobject) k
          rw [hlive, Bool.not_false, Bool.and_true] at hk
          exact hk
        have hnone : keys.any object.touches = false := by
          rw [List.any_eq_false]
          intro k _
          rw [hquiet k]
          exact Bool.false_ne_true
        rw [hnone, Bool.and_false]
        rfl
  | leave d =>
    change (s.leave keys d).stale = false
    unfold leave
    cases hobject : s.objects[d]? with
    | none => exact hs.fresh
    | some object => exact hs.fresh

theorem step_sound (hkeys : ∀ k, k ∈ keys) (hs : s.Sound) (event : KeptEvent K V) :
    (s.step keys event).Sound := by
  refine ⟨?_, step_fresh hs event⟩
  intro o after h
  obtain ⟨-, hsound, -⟩ | ⟨object, -, hfollows⟩ := step_object hkeys hs event h
  · exact hsound
  · exact hfollows.sound

/-- No object goes away. -/
theorem step_length (s : KeptWorld K V) (event : KeptEvent K V) :
    (s.step keys event).objects.length =
      s.objects.length + if event.enters then 1 else 0 := by
  cases event with
  | enter memory => exact List.length_append
  | read d k =>
    change (s.read d k).objects.length = _
    unfold read
    cases s.objects[d]? with
    | none => rfl
    | some object => exact List.length_set
  | detach d keepValues =>
    change (s.detach keys d keepValues).objects.length = _
    unfold detach
    cases s.objects[d]? with
    | none => rfl
    | some object => exact List.length_set
  | leave d =>
    change (s.leave keys d).objects.length = _
    unfold leave
    cases s.objects[d]? with
    | none => rfl
    | some object => exact List.length_set

theorem run_length (s : KeptWorld K V) (events : List (KeptEvent K V)) :
    (Events.run (step keys) s events).objects.length =
      s.objects.length + events.countP KeptEvent.enters := by
  induction events generalizing s with
  | nil => rfl
  | cons event events ih =>
    change (Events.run (step keys) (s.step keys event) events).objects.length = _
    rw [ih, step_length, List.countP_cons, Nat.add_assoc, Nat.add_comm (List.countP _ _)]

/-- The objects are still there, with the memory they had, and none points to it again. -/
structure Extends (s after : KeptWorld K V) : Prop where
  sound : after.Sound
  length : s.objects.length ≤ after.objects.length
  objects : ∀ (o : Nat) (object : KeptObject K V), s.objects[o]? = some object →
    ∃ now, after.objects[o]? = some now ∧ now.memory = object.memory ∧
      (now.attached = true → object.attached = true)

omit [DecidableEq K] in
theorem Extends.refl (hs : s.Sound) : Extends s s :=
  ⟨hs, Nat.le_refl _, fun _ object h => ⟨object, h, rfl, id⟩⟩

omit [DecidableEq K] in
theorem Extends.trans {first second third : KeptWorld K V} (h : Extends first second)
    (h' : Extends second third) : Extends first third := by
  refine ⟨h'.sound, Nat.le_trans h.length h'.length, ?_⟩
  intro o object hobject
  obtain ⟨middle, hmiddle, hmemory, hattached⟩ := h.objects o object hobject
  obtain ⟨last, hlast, hmemory', hattached'⟩ := h'.objects o middle hmiddle
  exact ⟨last, hlast, hmemory'.trans hmemory, fun hpoints => hattached (hattached' hpoints)⟩

theorem step_extends (hkeys : ∀ k, k ∈ keys) (hs : s.Sound) (event : KeptEvent K V) :
    Extends s (s.step keys event) := by
  have hlength : s.objects.length ≤ (s.step keys event).objects.length := by
    rw [step_length]
    exact Nat.le_add_right _ _
  refine ⟨step_sound hkeys hs event, hlength, ?_⟩
  intro o object hobject
  have hlt : o < (s.step keys event).objects.length :=
    Nat.lt_of_lt_of_le (List.getElem?_eq_some_iff.mp hobject).1 hlength
  have hnow := List.getElem?_eq_getElem hlt
  obtain ⟨hnone, -⟩ | ⟨before, hbefore, hfollows⟩ := step_object hkeys hs event hnow
  · rw [hobject] at hnone
    cases hnone
  · obtain rfl := Option.some.inj (hobject.symm.trans hbefore)
    exact ⟨_, hnow, hfollows.memory, hfollows.attached⟩

theorem run_extends (hkeys : ∀ k, k ∈ keys) (hs : s.Sound) (events : List (KeptEvent K V)) :
    Extends s (Events.run (step keys) s events) :=
  Events.run_invariant (Extends s) (fun _ event h => h.trans (step_extends hkeys h.sound event))
    (Extends.refl hs) events

def start : KeptWorld K V := ⟨[], false⟩

omit [DecidableEq K] in
theorem sound_start : (start : KeptWorld K V).Sound := by
  refine ⟨?_, rfl⟩
  intro o object h
  cases h

theorem run_sound (hkeys : ∀ k, k ∈ keys) (events : List (KeptEvent K V)) :
    (Events.run (step keys) start events).Sound :=
  (run_extends hkeys sound_start events).sound

/-- Some event so far has made the object keep the name, while it pointed to its memory. -/
def HasKept (keys : List K) (events : List (KeptEvent K V)) (o : Nat) (k : K) : Prop :=
  ∃ front event back object, events = front ++ event :: back ∧ event.Keeps o k ∧
    (Events.run (step keys) start front).objects[o]? = some object ∧ object.attached = true

theorem hasKept_concat (events : List (KeptEvent K V)) (event : KeptEvent K V) (o : Nat) (k : K) :
    HasKept keys (events ++ [event]) o k ↔ HasKept keys events o k ∨
      (event.Keeps o k ∧ ∃ object,
        (Events.run (step keys) start events).objects[o]? = some object ∧
          object.attached = true) := by
  constructor
  · rintro ⟨front, kept, back, object, hsplit, hkeeps, hobject, hattached⟩
    obtain rfl | ⟨middle, last, rfl⟩ := List.eq_nil_or_concat back
    · obtain ⟨rfl, hlast⟩ := List.append_inj' hsplit rfl
      cases hlast
      exact .inr ⟨hkeeps, object, hobject, hattached⟩
    · rw [List.concat_eq_append, ← List.cons_append, ← List.append_assoc] at hsplit
      obtain ⟨rfl, -⟩ := List.append_inj' hsplit rfl
      exact .inl ⟨front, kept, middle, object, rfl, hkeeps, hobject, hattached⟩
  · rintro (⟨front, kept, back, object, rfl, hkeeps, hobject, hattached⟩ | ⟨hkeeps, object, h⟩)
    · refine ⟨front, kept, back ++ [event], object, ?_, hkeeps, hobject, hattached⟩
      rw [List.append_assoc, List.cons_append]
    · exact ⟨events, event, [], object, rfl, hkeeps, h⟩

theorem kept_run (hkeys : ∀ k, k ∈ keys) (events : List (KeptEvent K V)) (o : Nat) (k : K) :
    match (Events.run (step keys) start events).objects[o]? with
    | none => ¬HasKept keys events o k
    | some object => (object.kept k).isSome = true ↔
      (object.memory k).isSome = true ∧ HasKept keys events o k := by
  induction events using List.reverseRecOn with
  | nil =>
    rintro ⟨front, event, back, object, hsplit, -⟩
    simp at hsplit
  | append_singleton events event ih =>
    have hrun : Events.run (step keys) start (events ++ [event]) =
        (Events.run (step keys) start events).step keys event := List.foldl_concat ..
    rw [hrun, hasKept_concat]
    cases hafter : ((Events.run (step keys) start events).step keys event).objects[o]? with
    | none =>
      have hbefore : (Events.run (step keys) start events).objects[o]? = none := by
        rw [List.getElem?_eq_none_iff] at hafter ⊢
        rw [step_length] at hafter
        exact Nat.le_trans (Nat.le_add_right _ _) hafter
      rw [hbefore] at ih ⊢
      rintro (hkept | ⟨-, object, hobject, -⟩)
      · exact ih hkept
      · cases hobject
    | some after =>
      obtain ⟨hbefore, -, hnone⟩ | ⟨object, hobject, hfollows⟩ :=
        step_object hkeys (run_sound hkeys events) event hafter
      · rw [hbefore] at ih ⊢
        dsimp only
        rw [hnone k]
        simp [ih]
      · rw [hobject] at ih ⊢
        dsimp only at ih ⊢
        rw [hfollows.kept k, ih, hfollows.memory,
          @and_left_comm (object.attached = true), ← and_or_left]
        refine and_congr_right fun _ => or_congr_right ⟨fun h => ⟨h.2, object, rfl, h.1⟩, ?_⟩
        rintro ⟨hkeeps, other, hother, hattached⟩
        obtain rfl := Option.some.inj hother
        exact ⟨hattached, hkeeps⟩

/-- A getter answers with what its memory held, and with nothing where the object no longer points
there and has not kept it in time. -/
theorem get_run (hkeys : ∀ k, k ∈ keys) (events : List (KeptEvent K V)) {o : Nat}
    {object : KeptObject K V} (h : (Events.run (step keys) start events).objects[o]? = some object)
    (k : K) :
    (object.attached = true ∨ HasKept keys events o k → object.get k = object.memory k) ∧
      (object.attached = false → ¬HasKept keys events o k → object.get k = none) := by
  have hkept := @kept_run K V _ keys hkeys events o k
  rw [h] at hkept
  dsimp only at hkept
  have hsound := (run_sound hkeys events).objects o object h
  have hisSome := object.get_isSome k
  constructor
  · intro hreads
    cases hmemory : object.memory k with
    | none =>
      cases hget : object.get k with
      | none => rfl
      | some v =>
        rw [KeptObject.get_eq hsound hget] at hmemory
        cases hmemory
    | some v =>
      have hthere : (object.get k).isSome = true := by
        rw [hisSome, Bool.or_eq_true, Bool.and_eq_true, hkept, hmemory]
        obtain hattached | hhas := hreads
        · exact .inr ⟨hattached, rfl⟩
        · exact .inl ⟨rfl, hhas⟩
      obtain ⟨w, hw⟩ := Option.isSome_iff_exists.mp hthere
      rw [hw, ← hmemory, KeptObject.get_eq hsound hw]
  · intro hattached hhas
    rw [← Option.not_isSome_iff_eq_none, hisSome, Bool.or_eq_true, Bool.and_eq_true, hkept,
      hattached]
    rintro (⟨-, hkeeps⟩ | ⟨hpoints, -⟩)
    · exact hhas hkeeps
    · cases hpoints

end KeptWorld

end SharpGit.Library
