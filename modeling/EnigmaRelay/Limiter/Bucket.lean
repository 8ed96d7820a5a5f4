import EnigmaRelay.Model.RateLimiter

open Machine TokenBucket

namespace EnigmaRelay

def seconds (now : Instant) : ℚ := now / 10 ^ 9

theorem seconds_le {a b : Instant} : seconds a ≤ seconds b ↔ a ≤ b := by
  rw [seconds, seconds, div_le_div_iff_of_pos_right (by positivity)]
  exact Int.cast_le

theorem secsSince_eq (now earlier : Instant) : secsSince now earlier = max 0 (seconds now - seconds earlier) := by
  have whole : ((now - earlier).toNat : ℚ) = max 0 ((now : ℚ) - earlier) := by
    rw [← Int.cast_natCast, Int.toNat_eq_max, max_comm]
    push_cast
    rfl
  rw [secsSince, seconds, seconds, whole, ← sub_div, ← max_div_div_right (by positivity), zero_div]

namespace Bucket

def level (entry : Bucket) : Level ℚ := ⟨entry.tokens, seconds entry.last⟩

def refilled (entry : Bucket) (now : Instant) : ℚ := refill entry.rate entry.burst entry.level (seconds now)

def counted (entry : Bucket) (now : Instant) (tokens : ℚ) (banUntil : Option Instant) : Bucket :=
  { entry with tokens := tokens, last := now, banUntil := banUntil }

theorem allow_cases (banSeconds : Nat) (now : Instant) (entry : Bucket) :
    (entry.banned now = true ∧ entry.allow banSeconds now = (.refused, entry)) ∨
    (entry.banned now = false ∧ 1 ≤ entry.refilled now ∧
      entry.allow banSeconds now = (.allowed, entry.counted now (entry.refilled now - 1) none)) ∨
    (entry.banned now = false ∧ entry.refilled now < 1 ∧ checkedAddSecs now banSeconds = none ∧
      entry.allow banSeconds now = (.panicked, entry.counted now (entry.refilled now) none)) ∨
    ∃ banEnd, entry.banned now = false ∧ entry.refilled now < 1 ∧ checkedAddSecs now banSeconds = some banEnd ∧
      entry.allow banSeconds now = (.refused, entry.counted now (entry.refilled now) (some banEnd)) := by
  have tokens : min (entry.tokens + secsSince now entry.last * entry.rate) entry.burst = entry.refilled now := by
    rw [secsSince_eq]
    rfl
  unfold allow
  dsimp only
  rw [tokens]
  cases banned : entry.banned now with
  | true => exact .inl ⟨rfl, rfl⟩
  | false =>
    right
    rw [if_neg Bool.false_ne_true]
    by_cases enough : 1 ≤ entry.refilled now
    · left
      rw [if_pos enough]
      exact ⟨rfl, enough, rfl⟩
    · right
      rw [if_neg enough]
      cases added : checkedAddSecs now banSeconds with
      | none => exact .inl ⟨rfl, lt_of_not_ge enough, rfl, rfl⟩
      | some banEnd => exact .inr ⟨banEnd, rfl, lt_of_not_ge enough, rfl, rfl⟩

end Bucket

/-- One call of `RateLimiter::allow`. -/
structure Attempt where
  ip : IpAddr
  label : String
  rate : ℚ
  burst : ℚ
  now : Instant
  deriving DecidableEq, Repr

def Attempt.key (attempt : Attempt) : RateKey := ⟨attempt.ip, attempt.label⟩

/-- What a call does to the place of its bucket. -/
def Attempt.consult (banSeconds : Nat) (place : Option Bucket) (attempt : Attempt) : Verdict × Option Bucket :=
  let (verdict, entry) := (place.getD (.full attempt.rate attempt.burst attempt.now)).allow banSeconds attempt.now
  (verdict, some entry)

namespace RateLimiter

def attempt (limiter : RateLimiter) (attempt : Attempt) : Verdict × RateLimiter :=
  limiter.allow attempt.ip attempt.label attempt.rate attempt.burst attempt.now

structure On (banSeconds : Nat) (limiter : RateLimiter) : Prop where
  enabled : limiter.enabled = true
  bans : limiter.banSeconds = banSeconds

theorem new_on (banSeconds : Nat) : (new true banSeconds).On banSeconds := ⟨rfl, rfl⟩

theorem allow_eq {banSeconds : Nat} {limiter : RateLimiter} (on : limiter.On banSeconds) (attempt : Attempt)
    {place : Option Bucket} (held : limiter.buckets attempt.key = place) :
    limiter.allow attempt.ip attempt.label attempt.rate attempt.burst attempt.now =
      let (verdict, after) := attempt.consult banSeconds place
      (verdict, { limiter with buckets := Function.update limiter.buckets attempt.key after }) := by
  subst held
  rw [allow, on.enabled, on.bans]
  rfl

theorem attempt_eq {banSeconds : Nat} {limiter : RateLimiter} (on : limiter.On banSeconds) (attempt : Attempt) :
    limiter.attempt attempt =
      let (verdict, after) := attempt.consult banSeconds (limiter.buckets attempt.key)
      (verdict, { limiter with buckets := Function.update limiter.buckets attempt.key after }) := allow_eq on attempt rfl

/-- A bucket is the business of the calls under its key alone. -/
theorem attempt_separate (banSeconds : Nat) : Separate attempt (On banSeconds) Attempt.key buckets
    (Attempt.consult banSeconds) := by
  constructor
  · intro limiter attempt on
    rw [attempt_eq on]
    exact ⟨on.enabled, on.bans⟩
  · intro limiter attempt on
    simp [attempt_eq on]
  · intro limiter attempt observer on other
    simp [attempt_eq on, other]

end RateLimiter

end EnigmaRelay
