import SharpGit.GitClient.GitClient
import SharpGit.Library.Runs
import SharpGit.Plumbing.GitBranchTracking

namespace SharpGit.GitClient

open Library Native Implementation Plumbing

/-- What managed code can do with a `GitCredentialEventArgs`. -/
inductive SlotCall
  | setUsernamePassword (username : NetString) (password : Option NetString)
  | setUsername (username : NetString)
  | setDefault
  | hasCredential
  | detach
  deriving DecidableEq, Repr

/-- The variable of libgit2 that a callback is to fill, while the callback runs, and whether the
`_cred` of its arguments still points there. -/
structure CredentialSlot where
  live : Bool
  attached : Bool
  content : Option Nat
  deriving DecidableEq, Repr

/-- One slot for each callback so far that has arguments, and every `git_cred` made so far, by
number. -/
structure CredentialSlots where
  slots : List CredentialSlot
  made : List GitCred
  freed : List Nat
  replies : List (Nat × CredentialReply)
  /-- The URLs of the callbacks that the constructor of their arguments has ended by raising. -/
  refused : List CStr
  /-- A slot has been used behind its callback. -/
  stale : Bool

inductive SlotEvent
  /-- libgit2 calls `remote_baton_t::credentials`. -/
  | enter (url : CStr)
  | call (e : Nat) (call : SlotCall)
  /-- `InvokeCredential` returns or raises, and the callback with it. -/
  | leave (e : Nat) (raised : Bool)

namespace CredentialSlots

-- `git_cred_*_new`, which may fail, and `gcnew System::Uri`, as far as it raises.
variable {Exn : Type} (newCred : GitCred → Except Int Unit)
  (checkUri : NetString → Except Exn Unit)

/-- The end of each setter, behind the checks of its arguments. -/
def setCred (s : CredentialSlots) (e : Nat) (cred : GitCred) :
    Except Failure Bool × CredentialSlots :=
  match s.slots[e]? with
  | none => (.error .invalidOperation, s)
  | some slot =>
    if !slot.attached then (.error .invalidOperation, s)
    else if !slot.live then (.error .accessViolation, { s with stale := true })
    else if slot.content.isSome then (.error .invalidOperation, s)
    else
      match newCred cred with
      | .error r => (.error (.git r), s)
      | .ok _ =>
        (.ok true, { s with
          slots := s.slots.set e { slot with content := some s.made.length }
          made := s.made ++ [cred] })

def setUsernamePassword (s : CredentialSlots) (e : Nat) (username : NetString)
    (password : Option NetString) : Except Failure Bool × CredentialSlots :=
  if username = [] then (.error (.argumentNull "username"), s)
  else if password = none then (.error (.argumentNull "password"), s)
  else s.setCred newCred e (.userPassPlaintext (passString (some username)) (passString password))

def setUsername (s : CredentialSlots) (e : Nat) (username : NetString) :
    Except Failure Bool × CredentialSlots :=
  if username = [] then (.error (.argumentNull "username"), s)
  else s.setCred newCred e (.username (passString (some username)))

def setDefault (s : CredentialSlots) (e : Nat) : Except Failure Bool × CredentialSlots :=
  s.setCred newCred e .default

def hasCredential (s : CredentialSlots) (e : Nat) : Except Failure Bool × CredentialSlots :=
  match s.slots[e]? with
  | none => (.ok false, s)
  | some slot =>
    if !slot.attached then (.ok false, s)
    else if !slot.live then (.error .accessViolation, { s with stale := true })
    else (.ok slot.content.isSome, s)

/-- `Detach`. -/
def detach (s : CredentialSlots) (e : Nat) : CredentialSlots :=
  match s.slots[e]? with
  | none => s
  | some slot => { s with slots := s.slots.set e { slot with attached := false } }

def perform (s : CredentialSlots) (e : Nat) : SlotCall → Except Failure Bool × CredentialSlots
  | .setUsernamePassword username password => s.setUsernamePassword newCred e username password
  | .setUsername username => s.setUsername newCred e username
  | .setDefault => s.setDefault newCred e
  | .hasCredential => s.hasCredential e
  | .detach => (.ok false, s.detach e)

/-- The arguments are made, or their constructor raises: then there is nothing to reply to. -/
def enter (s : CredentialSlots) (url : CStr) : CredentialSlots :=
  match checkUri (utf8PtrToString url) with
  | .error _ => { s with refused := s.refused ++ [url] }
  | .ok _ => { s with slots := s.slots ++ [⟨true, true, none⟩] }

/-- The slot behind its callback; the credential of one that raised is taken out. -/
def ended (slot : CredentialSlot) (raised : Bool) : CredentialSlot :=
  ⟨false, false, if raised then none else slot.content⟩

def replyOf (s : CredentialSlots) (slot : CredentialSlot) : CredentialReply :=
  match slot.content with
  | some n => ⟨0, s.made[n]?⟩
  | none => ⟨-1, none⟩

/-- What `remote_baton_t::credentials` does behind `InvokeCredential`. -/
def leave (s : CredentialSlots) (e : Nat) (raised : Bool) : CredentialSlots :=
  match s.slots[e]? with
  | none => s
  | some slot =>
    if !slot.live then s
    else
      { s with
        slots := s.slots.set e (ended slot raised)
        freed := s.freed ++ (if raised then slot.content.toList else [])
        replies := s.replies ++ [(e, s.replyOf (ended slot raised))] }

def step (s : CredentialSlots) : SlotEvent → CredentialSlots
  | .enter url => s.enter checkUri url
  | .call e call => (s.perform newCred e call).2
  | .leave e raised => s.leave e raised

def start : CredentialSlots := ⟨[], [], [], [], [], false⟩

section Run

variable {newCred checkUri}

/-- The credentials that are in a slot, running or not. -/
def held (s : CredentialSlots) : List Nat := s.slots.filterMap CredentialSlot.content

/-- Only running callbacks have arguments that point to their slot, each credential is in one slot
or has been freed once, and the callbacks that ended have replied with what is in their slots. -/
structure Sound (s : CredentialSlots) : Prop where
  attached : ∀ (e : Nat) (slot : CredentialSlot), s.slots[e]? = some slot →
    slot.attached = true → slot.live = true
  fresh : s.stale = false
  ledger : (s.held ++ s.freed).Perm (List.range s.made.length)
  replied : ∀ (e : Nat) (reply : CredentialReply), (e, reply) ∈ s.replies ↔
    ∃ slot, s.slots[e]? = some slot ∧ slot.live = false ∧ reply = s.replyOf slot
  once : (s.replies.map Prod.fst).Nodup

theorem sound_start : Sound start where
  attached e slot h := by simp [start] at h
  fresh := rfl
  ledger := List.Perm.refl _
  replied e reply := by simp [start]
  once := List.nodup_nil

/-- A slot that is replaced. -/
theorem slots_split {slots : List CredentialSlot} {e : Nat} {slot : CredentialSlot}
    (h : slots[e]? = some slot) :
    ∃ front back, slots = front ++ slot :: back ∧
      ∀ other, slots.set e other = front ++ other :: back := by
  obtain ⟨he, rfl⟩ := List.getElem?_eq_some_iff.mp h
  refine ⟨slots.take e, slots.drop (e + 1), ?_, ?_⟩
  · rw [List.getElem_cons_drop, List.take_append_drop]
  · intro other
    rw [List.set_eq_take_append_cons_drop, if_pos he]

theorem getElem?_set_found {slots : List CredentialSlot} {e : Nat} {slot : CredentialSlot}
    (h : slots[e]? = some slot) (other : CredentialSlot) :
    (slots.set e other)[e]? = some other :=
  List.getElem?_set_self (List.getElem?_eq_some_iff.mp h).1

theorem getElem?_set_cases {slots : List CredentialSlot} {e d : Nat} {slot other : CredentialSlot}
    (h : (slots.set e other)[d]? = some slot) :
    (d = e ∧ slot = other) ∨ (d ≠ e ∧ slots[d]? = some slot) := by
  rw [List.getElem?_set] at h
  split_ifs at h with heq hlt
  · exact .inl ⟨heq.symm, (Option.some.inj h).symm⟩
  · exact .inr ⟨fun hd => heq hd.symm, h⟩

/-- What a setter can do: nothing but an answer, or one credential in an empty slot that runs. -/
inductive SetStep (s : CredentialSlots) (e : Nat) : CredentialSlots → Prop
  | refused : SetStep s e s
  | put (slot : CredentialSlot) (cred : GitCred) (hslot : s.slots[e]? = some slot)
      (hlive : slot.live = true) (hempty : slot.content = none) :
      SetStep s e { s with
        slots := s.slots.set e { slot with content := some s.made.length }
        made := s.made ++ [cred] }

theorem setCred_step {s : CredentialSlots} (hs : s.Sound) (e : Nat) (cred : GitCred) :
    s.SetStep e (s.setCred newCred e cred).2 := by
  unfold setCred
  cases hslot : s.slots[e]? with
  | none => exact .refused
  | some slot =>
    dsimp only
    split_ifs with hattached hlive hcontent
    · exact .refused
    · rw [Bool.not_eq_true', Bool.not_eq_false] at hattached
      rw [Bool.not_eq_true', hs.attached e slot hslot hattached] at hlive
      cases hlive
    · exact .refused
    · rw [Bool.not_eq_true', Bool.not_eq_false] at hlive
      cases newCred cred with
      | error r => exact .refused
      | ok _ =>
        exact .put slot cred hslot hlive (Option.not_isSome_iff_eq_none.mp hcontent)

theorem Sound.held_lt {s : CredentialSlots} (hs : s.Sound) {e : Nat} {slot : CredentialSlot}
    (hslot : s.slots[e]? = some slot) {n : Nat} (hn : slot.content = some n) :
    n < s.made.length := by
  have hheld : n ∈ s.held :=
    List.mem_filterMap.mpr ⟨slot, List.mem_of_getElem? hslot, hn⟩
  exact List.mem_range.mp (hs.ledger.mem_iff.mp (List.mem_append_left _ hheld))

/-- A reply stands, whatever is made behind it. -/
theorem Sound.replyOf_made {s : CredentialSlots} (hs : s.Sound) {e : Nat} {slot : CredentialSlot}
    (hslot : s.slots[e]? = some slot) (slots : List CredentialSlot) (cred : GitCred) :
    replyOf { s with slots := slots, made := s.made ++ [cred] } slot = s.replyOf slot := by
  rw [replyOf, replyOf]
  cases hn : slot.content with
  | none => rfl
  | some n =>
    dsimp only
    rw [List.getElem?_append_left (hs.held_lt hslot hn)]

theorem Sound.put {s s' : CredentialSlots} (hs : s.Sound) {e : Nat} (h : s.SetStep e s') :
    s'.Sound := by
  cases h with
  | refused => exact hs
  | put slot cred hslot hlive hempty =>
    obtain ⟨front, back, hsplit, hset⟩ := slots_split hslot
    refine ⟨?_, hs.fresh, ?_, ?_, hs.once⟩
    · intro d other hd hattached
      obtain ⟨rfl, rfl⟩ | ⟨-, hd⟩ := getElem?_set_cases hd
      · exact hlive
      · exact hs.attached d other hd hattached
    · have hledger := hs.ledger
      rw [held, hsplit, List.filterMap_append, List.filterMap_cons_none hempty] at hledger
      have hnew : CredentialSlot.content { slot with content := some s.made.length } =
        some s.made.length := rfl
      rw [held, hset, List.filterMap_append, List.filterMap_cons_some hnew]
      dsimp only
      rw [List.length_append, List.length_singleton, List.range_succ, List.append_assoc,
        List.cons_append]
      refine List.perm_middle.trans ?_
      rw [← List.append_assoc]
      exact (hledger.cons _).trans (List.perm_append_singleton _ _).symm
    · intro d reply
      rw [hs.replied d reply]
      constructor
      · intro hreplied
        obtain ⟨other, hother, hdead, hreply⟩ := hreplied
        have hne : d ≠ e := by
          rintro rfl
          rw [hslot] at hother
          obtain rfl := Option.some.inj hother
          rw [hlive] at hdead
          cases hdead
        refine ⟨other, ?_, hdead, hreply.trans (hs.replyOf_made hother _ cred).symm⟩
        exact (List.getElem?_set_ne (Ne.symm hne)).trans hother
      · intro hreplied
        obtain ⟨other, hother, hdead, hreply⟩ := hreplied
        obtain ⟨rfl, rfl⟩ | ⟨-, hother⟩ := getElem?_set_cases hother
        · rw [hlive] at hdead
          cases hdead
        · exact ⟨other, hother, hdead, hreply.trans (hs.replyOf_made hother _ cred)⟩

theorem Sound.detach {s : CredentialSlots} (hs : s.Sound) (e : Nat) : (s.detach e).Sound := by
  unfold CredentialSlots.detach
  cases hslot : s.slots[e]? with
  | none => exact hs
  | some slot =>
    obtain ⟨front, back, hsplit, hset⟩ := slots_split hslot
    refine ⟨?_, hs.fresh, ?_, ?_, hs.once⟩
    · intro d other hd hattached
      obtain ⟨rfl, rfl⟩ | ⟨-, hd⟩ := getElem?_set_cases hd
      · cases hattached
      · exact hs.attached d other hd hattached
    · have hledger := hs.ledger
      rw [held, hsplit, List.filterMap_append] at hledger
      dsimp only
      rw [held, hset, List.filterMap_append]
      exact hledger
    · intro d reply
      rw [hs.replied d reply]
      constructor
      · intro hreplied
        obtain ⟨other, hother, hdead, hreply⟩ := hreplied
        by_cases hd : d = e
        · subst hd
          obtain rfl := Option.some.inj (hslot.symm.trans hother)
          exact ⟨_, getElem?_set_found hslot _, hdead, hreply⟩
        · exact ⟨other, (List.getElem?_set_ne (Ne.symm hd)).trans hother, hdead, hreply⟩
      · intro hreplied
        obtain ⟨other, hother, hdead, hreply⟩ := hreplied
        obtain ⟨rfl, rfl⟩ | ⟨-, hother⟩ := getElem?_set_cases hother
        · exact ⟨slot, hslot, hdead, hreply⟩
        · exact ⟨other, hother, hdead, hreply⟩

/-- A callback starts with an empty slot. -/
theorem Sound.addSlot {s : CredentialSlots} (hs : s.Sound) :
    Sound { s with slots := s.slots ++ [⟨true, true, none⟩] } := by
  have hcases {d : Nat} {other : CredentialSlot}
      (h : (s.slots ++ [⟨true, true, none⟩])[d]? = some other) :
      s.slots[d]? = some other ∨ other = ⟨true, true, none⟩ := by
    rw [List.getElem?_append] at h
    split_ifs at h with hlt
    · exact .inl h
    · exact .inr (List.mem_singleton.mp (List.mem_of_getElem? h))
  refine ⟨?_, hs.fresh, ?_, ?_, hs.once⟩
  · intro d other hd hattached
    obtain hd | rfl := hcases hd
    · exact hs.attached d other hd hattached
    · rfl
  · have hledger := hs.ledger
    rw [held] at hledger
    rw [held, List.filterMap_append, List.filterMap_cons_none rfl,
      List.filterMap_nil, List.append_nil]
    exact hledger
  · intro d reply
    rw [hs.replied d reply]
    constructor
    · intro hreplied
      obtain ⟨other, hother, hdead, hreply⟩ := hreplied
      have hlt : d < s.slots.length := (List.getElem?_eq_some_iff.mp hother).1
      exact ⟨other, (List.getElem?_append_left hlt).trans hother, hdead, hreply⟩
    · intro hreplied
      obtain ⟨other, hother, hdead, hreply⟩ := hreplied
      obtain hother | rfl := hcases hother
      · exact ⟨other, hother, hdead, hreply⟩
      · cases hdead

theorem Sound.enter {s : CredentialSlots} (hs : s.Sound) (url : CStr) :
    (s.enter checkUri url).Sound := by
  rw [CredentialSlots.enter]
  cases checkUri (utf8PtrToString url) with
  | error exn => exact ⟨hs.attached, hs.fresh, hs.ledger, hs.replied, hs.once⟩
  | ok _ => exact hs.addSlot

theorem filterMap_content_cons (slot : CredentialSlot) (slots : List CredentialSlot) :
    (slot :: slots).filterMap CredentialSlot.content =
      slot.content.toList ++ slots.filterMap CredentialSlot.content := by
  cases h : slot.content with
  | none => exact List.filterMap_cons_none h
  | some n => exact List.filterMap_cons_some h

theorem Sound.leave {s : CredentialSlots} (hs : s.Sound) (e : Nat) (raised : Bool) :
    (s.leave e raised).Sound := by
  unfold CredentialSlots.leave
  cases hslot : s.slots[e]? with
  | none => exact hs
  | some slot =>
    dsimp only
    by_cases hlive : (!slot.live) = true
    · rw [if_pos hlive]
      exact hs
    rw [if_neg hlive]
    rw [Bool.not_eq_true', Bool.not_eq_false] at hlive
    obtain ⟨front, back, hsplit, hset⟩ := slots_split hslot
    have hrunning {other : CredentialSlot} (hother : s.slots[e]? = some other)
        (hdead : other.live = false) : False := by
      obtain rfl := Option.some.inj (hslot.symm.trans hother)
      rw [hlive] at hdead
      cases hdead
    refine ⟨?_, hs.fresh, ?_, ?_, ?_⟩
    · intro d other hd hattached
      obtain ⟨rfl, rfl⟩ | ⟨-, hd⟩ := getElem?_set_cases hd
      · cases hattached
      · exact hs.attached d other hd hattached
    · have hledger := hs.ledger
      rw [held, hsplit, List.filterMap_append, filterMap_content_cons] at hledger
      dsimp only
      rw [held, hset, List.filterMap_append, filterMap_content_cons]
      refine List.Perm.trans ?_ hledger
      cases raised with
      | false =>
        rw [if_neg Bool.false_ne_true, List.append_nil]
        exact List.Perm.refl _
      | true =>
        rw [if_pos rfl]
        simp only [List.append_assoc]
        refine List.Perm.append_left _ ?_
        change (back.filterMap CredentialSlot.content ++
          (s.freed ++ slot.content.toList)).Perm _
        rw [← List.append_assoc]
        exact List.perm_append_comm
    · intro d reply
      rw [List.mem_append, List.mem_singleton, hs.replied d reply]
      constructor
      · intro hreplied
        obtain hbefore | hnow := hreplied
        · obtain ⟨other, hother, hdead, hreply⟩ := hbefore
          have hne : d ≠ e := by
            rintro rfl
            exact hrunning hother hdead
          exact ⟨other, (List.getElem?_set_ne (Ne.symm hne)).trans hother, hdead, hreply⟩
        · obtain ⟨rfl, rfl⟩ := Prod.mk.inj hnow
          exact ⟨_, getElem?_set_found hslot _, rfl, rfl⟩
      · intro hreplied
        obtain ⟨other, hother, hdead, hreply⟩ := hreplied
        obtain ⟨rfl, rfl⟩ | ⟨-, hother⟩ := getElem?_set_cases hother
        · right
          rw [hreply]
          rfl
        · exact .inl ⟨other, hother, hdead, hreply⟩
    · rw [List.map_append, List.map_singleton]
      refine List.nodup_append.mpr ⟨hs.once, by simp, ?_⟩
      intro d hd d' hd' heq
      rw [heq, List.mem_singleton.mp hd'] at hd
      obtain ⟨⟨_, reply⟩, hreply, rfl⟩ := List.mem_map.mp hd
      obtain ⟨other, hother, hdead, -⟩ := (hs.replied _ reply).mp hreply
      exact hrunning hother hdead

theorem hasCredential_step {s : CredentialSlots} (hs : s.Sound) (e : Nat) :
    (s.hasCredential e).2 = s := by
  unfold hasCredential
  cases hslot : s.slots[e]? with
  | none => rfl
  | some slot =>
    dsimp only
    split_ifs with hattached hlive
    · rfl
    · rw [Bool.not_eq_true', Bool.not_eq_false] at hattached
      rw [Bool.not_eq_true', hs.attached e slot hslot hattached] at hlive
      cases hlive
    · rfl

theorem perform_sound {s : CredentialSlots} (hs : s.Sound) (e : Nat) (call : SlotCall) :
    (s.perform newCred e call).2.Sound := by
  cases call with
  | setUsernamePassword username password =>
    change (s.setUsernamePassword newCred e username password).2.Sound
    unfold setUsernamePassword
    split_ifs
    · exact hs
    · exact hs
    · exact hs.put (setCred_step hs e _)
  | setUsername username =>
    change (s.setUsername newCred e username).2.Sound
    unfold setUsername
    split_ifs
    · exact hs
    · exact hs.put (setCred_step hs e _)
  | setDefault => exact hs.put (setCred_step hs e _)
  | hasCredential =>
    change (s.hasCredential e).2.Sound
    rw [hasCredential_step hs e]
    exact hs
  | detach => exact hs.detach e

/-- Behind its callback the arguments do nothing more. -/
theorem perform_ended {s : CredentialSlots} (hs : s.Sound) {e : Nat} {slot : CredentialSlot}
    (hslot : s.slots[e]? = some slot) (hdead : slot.live = false) (call : SlotCall) :
    (s.perform newCred e call).1 ≠ .ok true ∧ (s.perform newCred e call).2 = s := by
  have hdetached : slot.attached = false := by
    cases hattached : slot.attached with
    | false => rfl
    | true =>
      rw [hs.attached e slot hslot hattached] at hdead
      cases hdead
  have hset (cred : GitCred) :
      s.setCred newCred e cred = (.error .invalidOperation, s) := by
    rw [setCred, hslot]
    dsimp only
    rw [hdetached]
    rfl
  cases call with
  | setUsernamePassword username password =>
    change (s.setUsernamePassword newCred e username password).1 ≠ _ ∧
      (s.setUsernamePassword newCred e username password).2 = s
    unfold setUsernamePassword
    rw [hset]
    split_ifs <;> simp
  | setUsername username =>
    change (s.setUsername newCred e username).1 ≠ _ ∧ (s.setUsername newCred e username).2 = s
    unfold setUsername
    rw [hset]
    split_ifs <;> simp
  | setDefault =>
    change (s.setCred newCred e .default).1 ≠ _ ∧ (s.setCred newCred e .default).2 = s
    rw [hset]
    simp
  | hasCredential =>
    refine ⟨?_, hasCredential_step hs e⟩
    change (s.hasCredential e).1 ≠ _
    rw [hasCredential, hslot]
    dsimp only
    rw [hdetached]
    simp
  | detach =>
    refine ⟨by simp [perform], ?_⟩
    change s.detach e = s
    obtain ⟨front, back, hsplit, hreplaced⟩ := slots_split hslot
    rw [detach, hslot]
    dsimp only
    rw [hreplaced, ← hdetached, ← hsplit]

theorem run_sound (events : List SlotEvent) :
    (Events.run (step newCred checkUri) start events).Sound := by
  refine Events.run_invariant Sound ?_ sound_start events
  intro s event hs
  cases event with
  | enter url => exact hs.enter url
  | call e call => exact perform_sound hs e call
  | leave e raised => exact hs.leave e raised

/-- A call on the arguments makes no slot and ends no constructor. -/
theorem perform_frame (s : CredentialSlots) (e : Nat) (call : SlotCall) :
    (s.perform newCred e call).2.slots.length = s.slots.length ∧
      (s.perform newCred e call).2.refused = s.refused := by
  have hset (cred : GitCred) : (s.setCred newCred e cred).2.slots.length = s.slots.length ∧
      (s.setCred newCred e cred).2.refused = s.refused := by
    unfold setCred
    cases s.slots[e]? with
    | none => exact ⟨rfl, rfl⟩
    | some slot =>
      dsimp only
      split_ifs
      · exact ⟨rfl, rfl⟩
      · exact ⟨rfl, rfl⟩
      · exact ⟨rfl, rfl⟩
      · cases newCred cred with
        | error r => exact ⟨rfl, rfl⟩
        | ok _ => exact ⟨List.length_set, rfl⟩
  cases call with
  | setUsernamePassword username password =>
    rw [perform, setUsernamePassword]
    split_ifs
    · exact ⟨rfl, rfl⟩
    · exact ⟨rfl, rfl⟩
    · exact hset _
  | setUsername username =>
    rw [perform, setUsername]
    split_ifs
    · exact ⟨rfl, rfl⟩
    · exact hset _
  | setDefault => exact hset .default
  | hasCredential =>
    rw [perform, hasCredential]
    cases s.slots[e]? with
    | none => exact ⟨rfl, rfl⟩
    | some slot =>
      dsimp only
      split_ifs
      · exact ⟨rfl, rfl⟩
      · exact ⟨rfl, rfl⟩
      · exact ⟨rfl, rfl⟩
  | detach =>
    change (s.detach e).slots.length = _ ∧ (s.detach e).refused = _
    rw [detach]
    cases s.slots[e]? with
    | none => exact ⟨rfl, rfl⟩
    | some slot => exact ⟨List.length_set, rfl⟩

theorem leave_frame (s : CredentialSlots) (e : Nat) (raised : Bool) :
    (s.leave e raised).slots.length = s.slots.length ∧ (s.leave e raised).refused = s.refused := by
  rw [leave]
  cases s.slots[e]? with
  | none => exact ⟨rfl, rfl⟩
  | some slot =>
    dsimp only
    by_cases hlive : (!slot.live) = true
    · rw [if_pos hlive]
      exact ⟨rfl, rfl⟩
    · rw [if_neg hlive]
      exact ⟨List.length_set, rfl⟩

end Run

end CredentialSlots

/-- The URL of a callback that starts. -/
def SlotEvent.url : SlotEvent → Option CStr
  | .enter url => some url
  | .call _ _ => none
  | .leave _ _ => none

namespace CredentialSlots

section Run

variable {Exn : Type} {newCred : GitCred → Except Int Unit} {checkUri : NetString → Except Exn Unit}

/-- `System.Uri` takes the URL of the callback. -/
def takesUrl (checkUri : NetString → Except Exn Unit) (url : CStr) : Bool :=
  (checkUri (utf8PtrToString url)).isOk

/-- Each callback gets a slot or is refused, as its URL is. -/
theorem enter_cases (s : CredentialSlots) (url : CStr) :
    (takesUrl checkUri url = true ∧ (s.enter checkUri url).slots.length = s.slots.length + 1 ∧
      (s.enter checkUri url).refused = s.refused) ∨
    (takesUrl checkUri url = false ∧ (s.enter checkUri url).slots.length = s.slots.length ∧
      (s.enter checkUri url).refused = s.refused ++ [url]) := by
  rw [takesUrl, enter]
  cases checkUri (utf8PtrToString url) with
  | error exn => exact .inr ⟨rfl, rfl, rfl⟩
  | ok _ => exact .inl ⟨rfl, List.length_append, rfl⟩

/-- Behind a run the slots and the refused URLs are those of its callbacks. -/
theorem run_counts (s : CredentialSlots) (events : List SlotEvent) :
    (Events.run (step newCred checkUri) s events).slots.length = s.slots.length +
        ((events.filterMap SlotEvent.url).filter (takesUrl checkUri)).length ∧
      (Events.run (step newCred checkUri) s events).refused = s.refused ++
        (events.filterMap SlotEvent.url).filter fun url => !takesUrl checkUri url := by
  induction events generalizing s with
  | nil => exact ⟨rfl, (List.append_nil _).symm⟩
  | cons event events ih =>
    have hrest := ih (s.step newCred checkUri event)
    cases event with
    | enter url =>
      rw [List.filterMap_cons_some (rfl : (SlotEvent.enter url).url = some url)]
      obtain ⟨htakes, hslots, hrefused⟩ | ⟨htakes, hslots, hrefused⟩ :=
        @enter_cases _ checkUri s url
      · rw [List.filter_cons_of_pos htakes, List.filter_cons_of_neg (by simp [htakes]),
          List.length_cons]
        change _ = (s.enter checkUri url).slots.length + _ ∧
          _ = (s.enter checkUri url).refused ++ _ at hrest
        rw [hslots, hrefused] at hrest
        exact ⟨hrest.1.trans (by omega), hrest.2⟩
      · rw [List.filter_cons_of_neg (by simp [htakes]), List.filter_cons_of_pos (by simp [htakes])]
        change _ = (s.enter checkUri url).slots.length + _ ∧
          _ = (s.enter checkUri url).refused ++ _ at hrest
        rw [hslots, hrefused, List.append_assoc] at hrest
        exact hrest
    | call e call =>
      rw [List.filterMap_cons_none rfl]
      have hframe := @perform_frame newCred s e call
      change _ = (s.perform newCred e call).2.slots.length + _ ∧
        _ = (s.perform newCred e call).2.refused ++ _ at hrest
      rw [hframe.1, hframe.2] at hrest
      exact hrest
    | leave e raised =>
      rw [List.filterMap_cons_none rfl]
      have hframe := s.leave_frame e raised
      change _ = (s.leave e raised).slots.length + _ ∧ _ = (s.leave e raised).refused ++ _ at hrest
      rw [hframe.1, hframe.2] at hrest
      exact hrest

end Run

/-- In any run of callbacks, inside each other or side by side, and of uses of their arguments at
any time: a callback has a slot iff `System.Uri` takes its URL; no slot is used behind its callback,
each credential made is in one slot or has been freed once, and a callback with a slot that ended
has replied once, with 0 iff its slot holds a credential; its arguments then only refuse. -/
theorem slots_settled {Exn : Type} (newCred : GitCred → Except Int Unit)
    (checkUri : NetString → Except Exn Unit) (events : List SlotEvent) :
    let s := Events.run (step newCred checkUri) start events
    let urls := events.filterMap SlotEvent.url
    s.slots.length = (urls.filter (takesUrl checkUri)).length ∧
    s.refused = (urls.filter fun url => !takesUrl checkUri url) ∧
    s.stale = false ∧
    (s.held ++ s.freed).Perm (List.range s.made.length) ∧
    (s.replies.map Prod.fst).Nodup ∧
    (∀ e reply, (e, reply) ∈ s.replies → e < s.slots.length) ∧
    ∀ e slot, s.slots[e]? = some slot → slot.live = false →
      (∀ reply, (e, reply) ∈ s.replies ↔ reply = s.replyOf slot) ∧
      ∀ call, (s.perform newCred e call).1 ≠ .ok true ∧ (s.perform newCred e call).2 = s := by
  intro s urls
  have hs : s.Sound := run_sound events
  have hcounts := @run_counts Exn newCred checkUri start events
  refine ⟨hcounts.1.trans (Nat.zero_add _), hcounts.2, hs.fresh, hs.ledger, hs.once, ?_, ?_⟩
  · intro e reply hreply
    obtain ⟨slot, hslot, -, -⟩ := (hs.replied e reply).mp hreply
    exact (List.getElem?_eq_some_iff.mp hslot).1
  intro e slot hslot hdead
  refine ⟨?_, perform_ended hs hslot hdead⟩
  intro reply
  rw [hs.replied e reply]
  constructor
  · intro hreplied
    obtain ⟨other, hother, -, hreply⟩ := hreplied
    obtain rfl := Option.some.inj (hslot.symm.trans hother)
    exact hreply
  · intro hreply
    exact ⟨slot, hslot, hdead, hreply⟩

end CredentialSlots

end SharpGit.GitClient
