import Mathlib.Logic.Function.Iterate
import SharpGit.Library.Action

namespace SharpGit.Library

/-- A party that may ask any number of questions, each depending on the answers before. -/
inductive Strategy (Q A R : Type)
  | finish (result : R)
  | ask (question : Q) (next : A → Strategy Q A R)

namespace Strategy

variable {Q A R S E : Type}

/-- An answer that ends in an exception ends the run. -/
def run (answer : Q → Action S E A) : Strategy Q A R → Action S E R
  | finish result => pure result
  | ask question next => answer question >>= fun reply => (next reply).run answer

/-- The question that the party starts with, unless it finishes without one. -/
def first? : Strategy Q A R → Option Q
  | finish _ => none
  | ask question _ => some question

/-- What every answer preserves, a run preserves. -/
theorem run_invariant {answer : Q → Action S E A} (P : S → Prop)
    (hanswer : ∀ question s, P s → P ((answer question).run s).2) (party : Strategy Q A R) {s : S}
    (h : P s) : P ((party.run answer).run s).2 := by
  induction party generalizing s with
  | finish result => exact h
  | ask question next ih =>
    have hfirst := hanswer question s h
    rw [run, Action.run_bind]
    cases hreply : (answer question).run s with
    | mk reply s' =>
      rw [hreply] at hfirst
      cases reply with
      | error e => exact hfirst
      | ok reply => exact ih reply hfirst

theorem run_of_no_question (answer : Q → Action S E A) {party : Strategy Q A R}
    (h : party.first? = none) (s : S) : ∃ result, (party.run answer).run s = (.ok result, s) := by
  cases party with
  | finish result => exact ⟨result, rfl⟩
  | ask question next => cases h

/-- A first question without an answer is the end. -/
theorem run_of_no_answer {answer : Q → Action S E A} {party : Strategy Q A R} {question : Q}
    (h : party.first? = some question) {s s' : S} {e : E}
    (hanswer : (answer question).run s = (.error e, s')) :
    (party.run answer).run s = (.error e, s') := by
  cases party with
  | finish result => cases h
  | ask question' next =>
    obtain rfl := Option.some.inj h
    rw [run, Action.run_bind_error hanswer]

/-- What holds behind the answer to the first question holds behind the run, if every later answer
preserves it. -/
theorem run_of_first {answer : Q → Action S E A} (P : S → Prop)
    (hanswer : ∀ question s, P s → P ((answer question).run s).2) {party : Strategy Q A R}
    {question : Q} (h : party.first? = some question) {s : S}
    (hfirst : P ((answer question).run s).2) : P ((party.run answer).run s).2 := by
  cases party with
  | finish result => cases h
  | ask question' next =>
    obtain rfl := Option.some.inj h
    rw [run, Action.run_bind]
    cases hreply : (answer question').run s with
    | mk reply s' =>
      rw [hreply] at hfirst
      cases reply with
      | error e => exact hfirst
      | ok reply => exact run_invariant P hanswer (next reply) hfirst

/-- The answers to these questions one after another, up to one that ends in an exception. -/
def answers (answer : Q → Action S E A) : List Q → S → List A × Option E × S
  | [], s => ([], none, s)
  | question :: questions, s =>
    match (answer question).run s with
    | (.error e, s) => ([], some e, s)
    | (.ok reply, s) =>
      let (replies, rest) := answers answer questions s
      (reply :: replies, rest)

/-- What holds of all replies so far before each question, and what of them an exception leaves,
holds at the end. -/
theorem answers_end {answer : Q → Action S E A} (P R : List A → S → Prop)
    (hanswer : ∀ question replies s s' reply, P replies s →
      (answer question).run s = (.ok reply, s') → P (replies ++ [reply]) s')
    (hraise : ∀ question replies s s' e, P replies s →
      (answer question).run s = (.error e, s') → R replies s')
    (hend : ∀ replies s, P replies s → R replies s)
    (questions : List Q) {replies : List A} {s : S} (h : P replies s) :
    R (replies ++ (answers answer questions s).1) (answers answer questions s).2.2 := by
  induction questions generalizing replies s with
  | nil =>
    rw [answers, List.append_nil]
    exact hend replies s h
  | cons question questions ih =>
    cases hreply : (answer question).run s with
    | mk reply s' =>
      cases reply with
      | error e =>
        rw [answers, hreply, List.append_nil]
        exact hraise question replies s s' e h hreply
      | ok reply =>
        have hrest := ih (hanswer question replies s s' reply h hreply)
        rw [List.append_assoc, List.singleton_append] at hrest
        rw [answers, hreply]
        exact hrest

/-- Where the question decides whether its answer is an exception, the answers stop in front of the
first such question. -/
theorem answers_length {answer : Q → Action S E A} (accepts : Q → Bool)
    (h : ∀ question s, ((answer question).run s).1.isOk = accepts question) (questions : List Q)
    (s : S) : (answers answer questions s).1.length = (questions.takeWhile accepts).length ∧
      ((answers answer questions s).2.1 = none ↔ ∀ question ∈ questions, accepts question) := by
  induction questions generalizing s with
  | nil => simp [answers]
  | cons question questions ih =>
    have hfirst := h question s
    cases hreply : (answer question).run s with
    | mk reply s' =>
      rw [hreply] at hfirst
      cases reply with
      | error e =>
        have hrefused : accepts question = false := hfirst.symm
        rw [answers, hreply]
        simp [hrefused]
      | ok reply =>
        have haccepted : accepts question = true := hfirst.symm
        obtain ⟨hlength, hnone⟩ := ih s'
        rw [answers, hreply]
        simp [haccepted, hlength, hnone]

end Strategy

section Retry

variable {σ : Type} {body : σ → σ} {again : σ → Bool}

/-- `body` once, and up to `n` times more as long as `again` holds. -/
def retry (body : σ → σ) (again : σ → Bool) : Nat → σ → σ
  | 0, s => body s
  | n + 1, s => if again (body s) then retry body again n (body s) else body s

theorem retry_stop {s : σ} (h : again (body s) = false) (n : Nat) :
    retry body again n s = body s := by
  cases n with
  | zero => rfl
  | succ n => rw [retry, h, if_neg Bool.false_ne_true]

/-- What the first round establishes and every round preserves holds after the last one. -/
theorem retry_of_first (P : σ → Prop) (hbody : ∀ s, P s → P (body s)) (n : Nat) {s : σ}
    (h : P (body s)) : P (retry body again n s) := by
  induction n generalizing s with
  | zero => exact h
  | succ n ih =>
    rw [retry]
    split
    · apply ih
      exact hbody _ h
    · exact h

/-- The first index at which `again` does not hold, but at most `n`. -/
def stopIndex (again : Nat → Bool) : Nat → Nat
  | 0 => 0
  | n + 1 => if again 0 then stopIndex (fun j => again (j + 1)) n + 1 else 0

theorem stopIndex_le (again : Nat → Bool) (n : Nat) : stopIndex again n ≤ n := by
  induction n generalizing again with
  | zero => exact Nat.le_refl _
  | succ n ih =>
    rw [stopIndex]
    split
    · exact Nat.succ_le_succ (ih _)
    · exact Nat.zero_le _

/-- Up to the index, `again` holds exactly in front of it. -/
theorem lt_stopIndex_iff {again : Nat → Bool} {n j : Nat} (h : j ≤ stopIndex again n) :
    j < stopIndex again n ↔ again j = true ∧ j < n := by
  induction n generalizing again j with
  | zero =>
    have hnone : ¬j < stopIndex again 0 := Nat.not_lt_zero j
    exact iff_of_false hnone fun hboth => Nat.not_lt_zero j hboth.2
  | succ n ih =>
    rw [stopIndex] at h ⊢
    split at h
    · rename_i hagain
      rw [if_pos hagain]
      cases j with
      | zero => exact iff_of_true (Nat.succ_pos _) ⟨hagain, Nat.succ_pos _⟩
      | succ j =>
        have hnext := @ih (fun j => again (j + 1)) j (Nat.le_of_succ_le_succ h)
        rw [Nat.succ_lt_succ_iff, Nat.succ_lt_succ_iff]
        exact hnext
    · rename_i hstop
      obtain rfl := Nat.le_zero.mp h
      rw [if_neg hstop]
      exact iff_of_false (Nat.lt_irrefl 0) fun hboth => hstop hboth.1

/-- What the rounds establish one after another holds of the round at which the loop stops. -/
theorem retry_stops (P : Nat → σ → Prop) (retried : Nat → Bool)
    (hagain : ∀ k s, P k s → again s = retried k)
    (hround : ∀ k s, P k s → again s = true → P (k + 1) (body s)) (n : Nat) {s : σ}
    (h : P 0 (body s)) : P (stopIndex retried n) (retry body again n s) := by
  induction n generalizing P retried s with
  | zero => exact h
  | succ n ih =>
    rw [retry, stopIndex, ← hagain 0 (body s) h]
    split
    · rename_i hmore
      exact ih (fun k => P (k + 1)) (fun k => retried (k + 1)) (fun k => hagain (k + 1))
        (fun k => hround (k + 1)) (hround 0 (body s) h hmore)
    · exact h

/-- Two loops whose rounds are related, and go on alike, end related. -/
theorem retry_related {τ : Type} {body' : τ → τ} {again' : τ → Bool} (R : σ → τ → Prop)
    (hagain : ∀ s t, R s t → again' t = again s)
    (hround : ∀ s t, R s t → again s = true → R (body s) (body' t)) (n : Nat) {s : σ} {t : τ}
    (h : R (body s) (body' t)) : R (retry body again n s) (retry body' again' n t) := by
  induction n generalizing s t with
  | zero => exact h
  | succ n ih =>
    rw [retry, retry, hagain _ _ h]
    split
    · rename_i hmore
      exact ih (hround _ _ h hmore)
    · exact h

end Retry

end SharpGit.Library
