import EnigmaRelay.Limiter.Bucket

open Machine TokenBucket

namespace EnigmaRelay

/-- The call does not set the bucket's clock back: it comes no earlier than the last one that was let
    through, or a ban holds it up. -/
def Attempt.forward (place : Option Bucket) (attempt : Attempt) : Bool :=
  place.all (fun entry => entry.banned attempt.now || entry.last ≤ attempt.now)

/-- What a bucket has paid out, and what it still holds, came in by its burst and its rate. -/
structure Paid (rate burst : ℚ) (earliest latest : Instant) (admitted : Nat) (entry : Bucket) : Prop where
  inflow : entry.rate = rate
  cap : entry.burst = burst
  tokens : 0 ≤ entry.tokens
  balance : admitted + entry.tokens ≤ burst + rate * (seconds entry.last - seconds earliest)
  last : entry.last ≤ latest

section Accounts

variable {rate burst : ℚ} {earliest latest now : Instant} {admitted : Nat} {entry : Bucket}

theorem Paid.full (positive : 0 ≤ rate) (full : 0 ≤ burst) (first : earliest ≤ now) (last : now ≤ latest) :
    Paid rate burst earliest latest 0 (.full rate burst now) := by
  refine ⟨rfl, rfl, full, ?_, last⟩
  have inflow := mul_nonneg positive (sub_nonneg.mpr (seconds_le.mpr first))
  simpa [Bucket.full] using inflow

theorem Paid.refilled (paid : Paid rate burst earliest latest admitted entry) (positive : 0 ≤ rate) (full : 0 ≤ burst)
    (forward : entry.last ≤ now) :
    0 ≤ entry.refilled now ∧ admitted + entry.refilled now ≤ burst + rate * (seconds now - seconds earliest) := by
  obtain ⟨rfl, rfl, tokens, balance, _⟩ := paid
  have inflow : entry.refilled now ≤ entry.tokens + entry.rate * (seconds now - seconds entry.last) :=
    refill_le (seconds_le.mpr forward)
  refine ⟨refill_nonneg positive full tokens, ?_⟩
  linarith

/-- One call moves a token from what the bucket holds to what it has paid out, or nothing. -/
theorem Paid.allow (paid : Paid rate burst earliest latest admitted entry) (positive : 0 ≤ rate) (full : 0 ≤ burst)
    (banSeconds : Nat) (forward : (entry.banned now || entry.last ≤ now) = true) (last : now ≤ latest) :
    Paid rate burst earliest latest (admitted + if (entry.allow banSeconds now).1 = .allowed then 1 else 0)
      (entry.allow banSeconds now).2 := by
  rcases entry.allow_cases banSeconds now with ⟨_, allowed⟩ | ⟨free, enough, allowed⟩ | ⟨free, _, _, allowed⟩ |
    ⟨banEnd, free, _, _, allowed⟩
  · rw [allowed]
    exact paid
  · rw [free, Bool.false_or, decide_eq_true_eq] at forward
    obtain ⟨_, balance⟩ := paid.refilled positive full forward
    rw [allowed]
    refine ⟨paid.inflow, paid.cap, sub_nonneg.mpr enough, ?_, last⟩
    simp only [if_true, Bucket.counted]
    push_cast
    linarith
  · rw [free, Bool.false_or, decide_eq_true_eq] at forward
    obtain ⟨tokens, balance⟩ := paid.refilled positive full forward
    rw [allowed]
    exact ⟨paid.inflow, paid.cap, tokens, balance, last⟩
  · rw [free, Bool.false_or, decide_eq_true_eq] at forward
    obtain ⟨tokens, balance⟩ := paid.refilled positive full forward
    rw [allowed]
    exact ⟨paid.inflow, paid.cap, tokens, balance, last⟩

theorem Paid.run (paid : Paid rate burst earliest latest admitted entry) (positive : 0 ≤ rate) (full : 0 ≤ burst)
    (banSeconds : Nat) {attempts : List Attempt} (within : ∀ attempt ∈ attempts, attempt.now ≤ latest)
    (forward : ∀ event ∈ trace (Attempt.consult banSeconds) (some entry) attempts,
      event.input.forward event.before = true) :
    ((admitted + (trace (Attempt.consult banSeconds) (some entry) attempts).countP
      (fun event => event.output = .allowed) : Nat) : ℚ) ≤ burst + rate * (seconds latest - seconds earliest) := by
  induction attempts generalizing admitted entry with
  | nil =>
    have reach := mul_le_mul_of_nonneg_left (sub_le_sub_right (seconds_le.mpr paid.last) (seconds earliest)) positive
    have balance := paid.balance
    have tokens := paid.tokens
    simp only [trace, List.countP_nil, Nat.add_zero]
    linarith
  | cons attempt rest ih =>
    have here := forward (taken (Attempt.consult banSeconds) (some entry) attempt) List.mem_cons_self
    have next := paid.allow positive full banSeconds here (within attempt List.mem_cons_self)
    have counted := ih next (fun later member => within later (List.mem_cons_of_mem _ member))
      (fun event member => forward event (List.mem_cons_of_mem _ member))
    have step :
        (taken (Attempt.consult banSeconds) (some entry) attempt).output = (entry.allow banSeconds attempt.now).1 := rfl
    rw [trace, List.countP_cons, step]
    simp only [decide_eq_true_eq]
    rw [Nat.add_comm (List.countP _ _), ← Nat.add_assoc]
    exact counted

end Accounts

theorem consult_bounded {rate burst : ℚ} (positive : 0 ≤ rate) (full : 0 ≤ burst) (banSeconds : Nat)
    {earliest latest : Instant} (ordered : earliest ≤ latest) {attempts : List Attempt}
    (own : ∀ attempt ∈ attempts, attempt.rate = rate ∧ attempt.burst = burst)
    (span : ∀ attempt ∈ attempts, earliest ≤ attempt.now ∧ attempt.now ≤ latest)
    (forward : ∀ event ∈ trace (Attempt.consult banSeconds) none attempts, event.input.forward event.before = true) :
    ((trace (Attempt.consult banSeconds) none attempts).countP (fun event => event.output = .allowed) : ℚ) ≤
      burst + rate * (seconds latest - seconds earliest) := by
  cases attempts with
  | nil =>
    have inflow := mul_nonneg positive (sub_nonneg.mpr (seconds_le.mpr ordered))
    simp only [trace, List.countP_nil, Nat.cast_zero]
    linarith
  | cons attempt rest =>
    obtain ⟨rfl, rfl⟩ := own attempt List.mem_cons_self
    obtain ⟨first, last⟩ := span attempt List.mem_cons_self
    have next := (Paid.full positive full first last).allow positive full banSeconds (by simp [Bucket.full]) last
    have counted := next.run positive full banSeconds (fun later member => (span later (List.mem_cons_of_mem _ member)).2)
      (fun event member => forward event (List.mem_cons_of_mem _ member))
    have step : (taken (Attempt.consult banSeconds) none attempt).output =
        ((Bucket.full attempt.rate attempt.burst attempt.now).allow banSeconds attempt.now).1 := rfl
    rw [trace, List.countP_cons, step, Nat.add_comm]
    simp only [decide_eq_true_eq]
    rw [Nat.zero_add] at counted
    exact counted

/-- Token buckets admit no more than their burst and their inflow, in every run in which no call
    sets the clock of the bucket back. -/
theorem admissions_bounded (banSeconds : Nat) {key : RateKey} {rate burst : ℚ} (positive : 0 ≤ rate) (full : 0 ≤ burst)
    {earliest latest : Instant} (ordered : earliest ≤ latest) {attempts : List Attempt}
    (own : ∀ attempt ∈ attempts, attempt.key = key → attempt.rate = rate ∧ attempt.burst = burst)
    (span : ∀ attempt ∈ attempts, attempt.key = key → earliest ≤ attempt.now ∧ attempt.now ≤ latest)
    (forward : ∀ event ∈ trace RateLimiter.attempt (.new true banSeconds) attempts,
      event.input.key = key → event.input.forward (event.before.buckets key) = true) :
    ((trace RateLimiter.attempt (.new true banSeconds) attempts).countP
      (fun event => event.input.key = key ∧ event.output = .allowed) : ℚ) ≤
      burst + rate * (seconds latest - seconds earliest) := by
  have seen := (RateLimiter.attempt_separate banSeconds).trace_seenBy (RateLimiter.new_on banSeconds) attempts key
  have listed :
      ∀ attempt ∈ attempts.filter (fun attempt => attempt.key = key), attempt ∈ attempts ∧ attempt.key = key := by
    intro attempt member
    simpa using List.mem_filter.mp member
  have bounded := consult_bounded positive full banSeconds ordered
    (fun attempt member => own attempt (listed attempt member).1 (listed attempt member).2)
    (fun attempt member => span attempt (listed attempt member).1 (listed attempt member).2) ?_
  · rw [show (none : Option Bucket) = (RateLimiter.new true banSeconds).buckets key from rfl, ← seen, List.countP_map,
      List.countP_filter] at bounded
    refine le_of_eq_of_le (congrArg Nat.cast (List.countP_congr ?_)) bounded
    intro event _
    simp only [Bool.and_eq_true, decide_eq_true_eq, Function.comp_apply]
    exact and_comm
  · intro event member
    rw [show (none : Option Bucket) = (RateLimiter.new true banSeconds).buckets key from rfl, ← seen,
      List.mem_map] at member
    obtain ⟨whole, kept, rfl⟩ := member
    obtain ⟨happened, same⟩ := List.mem_filter.mp kept
    exact forward whole happened (of_decide_eq_true same)

def sampleAttempt (seconds : Nat) : Attempt := ⟨.localhost, "push", 1, 2, seconds * 10 ^ 9⟩

theorem admissions_bounded_sample :
    ((trace RateLimiter.attempt (.new true 300) [sampleAttempt 0, sampleAttempt 0, sampleAttempt 1]).countP
      (fun event => event.input.key = ⟨.localhost, "push"⟩ ∧ event.output = .allowed) : ℚ) ≤
      2 + 1 * (seconds (1 * 10 ^ 9) - seconds (0 * 10 ^ 9)) :=
  admissions_bounded 300 (by decide) (by decide) (by decide) (by decide) (by decide) (by decide +kernel)

/-- Calls that sampled the clock 10 seconds apart take turns at the lock: each later one is granted the
    inflow since the earlier one anew. -/
theorem admissions_exceed :
    let attempts := (List.replicate 7 [sampleAttempt 10, sampleAttempt 0]).flatten
    ((trace RateLimiter.attempt (.new true 300) attempts).countP
      (fun event => event.input.key = ⟨.localhost, "push"⟩ ∧ event.output = .allowed) : ℚ) >
      2 + 1 * (seconds (10 * 10 ^ 9) - seconds (0 * 10 ^ 9)) := by
  decide +kernel

end EnigmaRelay
