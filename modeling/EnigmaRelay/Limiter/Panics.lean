import EnigmaRelay.Limiter.Bans
import EnigmaRelay.Model.Standard

open Machine

namespace EnigmaRelay

/-- An `Instant` has a second count in the range of an `i64`. -/
def Representable (now : Instant) : Prop := -instantEnd ≤ now ∧ now < instantEnd

theorem secsSince_fits {now earlier : Instant} (here : Representable now) (there : Representable earlier) :
    0 ≤ secsSince now earlier ∧ secsSince now earlier < 2 ^ 64 := by
  constructor
  · rw [secsSince]
    positivity
  · have apart : ∀ first last : Int, -(2 ^ 63 * 10 ^ 9) ≤ first → last < 2 ^ 63 * 10 ^ 9 →
        (last - first).toNat < 2 ^ 64 * 10 ^ 9 := by
      intro first last
      omega
    have span := apart earlier now there.1 here.2
    rw [secsSince, div_lt_iff₀ (by positivity)]
    exact_mod_cast span

section Calls

def Attempt.found (attempt : Attempt) (limiter : RateLimiter) : Bucket :=
  (limiter.buckets attempt.key).getD (.full attempt.rate attempt.burst attempt.now)

/-- The call is over the limit: its bucket is banned or has no token for it. -/
def OverLimit (call : Step RateLimiter Attempt Verdict) : Prop :=
  call.before.enabled = true ∧ ((call.input.found call.before).banned call.input.now = true ∨
    (call.input.found call.before).refilled call.input.now < 1)

/-- The call is the one that meets the limit, and no ban yet. -/
def Exhausted (call : Step RateLimiter Attempt Verdict) : Prop :=
  call.before.enabled = true ∧ (call.input.found call.before).banned call.input.now = false ∧
    (call.input.found call.before).refilled call.input.now < 1

theorem Exhausted.overLimit {call : Step RateLimiter Attempt Verdict} (exhausted : Exhausted call) : OverLimit call :=
  ⟨exhausted.1, .inr exhausted.2.2⟩

variable {banSeconds : Nat} {limiter : RateLimiter}

def Recorded (banSeconds : Nat) (call : Step RateLimiter Attempt Verdict) (limiter : RateLimiter) : Prop :=
  (limiter.buckets call.input.key).bind Bucket.banUntil = some (banEnd banSeconds call.input.now)

theorem call_cases (on : limiter.On banSeconds) (attempt : Attempt) :
    let call := taken RateLimiter.attempt limiter attempt
    (¬ OverLimit call ∧ call.output = .allowed) ∨
    (OverLimit call ∧ ¬ Exhausted call ∧ call.output = .refused) ∨
    (Exhausted call ∧ instantEnd ≤ banEnd banSeconds attempt.now ∧ call.output = .panicked) ∨
    (Exhausted call ∧ banEnd banSeconds attempt.now < instantEnd ∧ call.output = .refused ∧
      Recorded banSeconds call call.after) := by
  intro call
  have enabled : call.before.enabled = true := on.enabled
  have outcome : (call.output, call.after) = (((call.input.found call.before).allow banSeconds attempt.now).1,
      { limiter with
        buckets := Function.update limiter.buckets attempt.key
          (some ((call.input.found call.before).allow banSeconds attempt.now).2) }) :=
    RateLimiter.attempt_eq on attempt
  rcases Bucket.allow_cases banSeconds attempt.now (call.input.found call.before) with
    ⟨banned, allowed⟩ | ⟨free, enough, allowed⟩ | ⟨free, short, added, allowed⟩ | ⟨ends, free, short, added, allowed⟩
  · right
    left
    rw [allowed] at outcome
    refine ⟨⟨enabled, .inl banned⟩, ?_, congrArg Prod.fst outcome⟩
    intro exhausted
    exact Bool.false_ne_true (exhausted.2.1.symm.trans banned)
  · left
    rw [allowed] at outcome
    refine ⟨?_, congrArg Prod.fst outcome⟩
    rintro ⟨_, banned | short⟩
    · exact Bool.false_ne_true (free.symm.trans banned)
    · exact not_le_of_gt short enough
  · right
    right
    left
    rw [allowed] at outcome
    exact ⟨⟨enabled, free, short⟩, checkedAddSecs_eq_none_iff.mp added, congrArg Prod.fst outcome⟩
  · right
    right
    right
    rw [allowed] at outcome
    have after : call.after = _ := congrArg Prod.snd outcome
    obtain ⟨within, rfl⟩ := checkedAddSecs_eq_some_iff.mp added
    refine ⟨⟨enabled, free, short⟩, within, congrArg Prod.fst outcome, ?_⟩
    rw [Recorded, after]
    simp only [show call.input.key = attempt.key from rfl, Function.update_self, Option.bind_some]
    rfl

end Calls

section Requests

variable {cfg : RateLimitConfig} {limiter : RateLimiter}

/-- No panic: a request over the limit is told so, and the ban that it begins is on record. -/
structure Answered (cfg : RateLimitConfig) (request : Handled) : Prop where
  finished : request.output ≠ none
  limited : ∀ call ∈ callsOf cfg request, OverLimit call → request.output = some (.error .rateLimited)
  recorded : ∀ call ∈ callsOf cfg request, Exhausted call → Recorded cfg.banSeconds call request.after

theorem recorded_after (on : limiter.On cfg.banSeconds) {arrival : Arrival}
    {call : Step RateLimiter Attempt Verdict}
    (member : call ∈ callsOf cfg (taken (RateLimiter.enforce cfg) limiter arrival))
    (recorded : Recorded cfg.banSeconds call call.after) :
    Recorded cfg.banSeconds call (taken (RateLimiter.enforce cfg) limiter arrival).after := by
  have after : (taken (RateLimiter.enforce cfg) limiter arrival).after =
      final RateLimiter.attempt limiter (arrival.attempts cfg limiter) := congrArg Prod.snd (enforce_calls on arrival)
  change call ∈ trace RateLimiter.attempt limiter (arrival.attempts cfg limiter) at member
  rw [after]
  rw [Arrival.attempts] at member ⊢
  split
  · rename_i panicked
    rw [if_pos panicked] at member
    rcases List.mem_singleton.mp member with rfl
    exact recorded
  · rename_i through
    rw [if_neg through] at member
    rcases List.mem_cons.mp member with rfl | second
    · have apart : (arrival.globalAttempt cfg).key ≠ (arrival.endpointAttempt cfg).key :=
        (arrival.endpoint.key_ne_global arrival.ip).symm
      have between := (RateLimiter.attempt_separate cfg.banSeconds).kept _ (arrival.globalAttempt cfg) on
      have kept := (RateLimiter.attempt_separate cfg.banSeconds).others _ (arrival.endpointAttempt cfg) _ between apart
      rw [Recorded]
      exact (congrArg (Option.bind · Bucket.banUntil) kept).trans recorded
    · rcases List.mem_singleton.mp second with rfl
      exact recorded

theorem answered_iff (on : limiter.On cfg.banSeconds) (arrival : Arrival) :
    let request := taken (RateLimiter.enforce cfg) limiter arrival
    Answered cfg request ↔
      ∀ call ∈ callsOf cfg request, Exhausted call → banEnd cfg.banSeconds call.input.now < instantEnd := by
  intro request
  have output : request.output = answerOf ((callsOf cfg request).map Step.output) :=
    congrArg Prod.fst (enforce_calls on arrival)
  constructor
  · intro answered call member exhausted
    by_contra beyond
    obtain ⟨before, switched, same⟩ := callsOf_member on member
    have panicked : call.output = .panicked := by
      rw [same] at exhausted beyond ⊢
      rcases call_cases switched call.input with ⟨fits, _⟩ | ⟨_, late, _⟩ | ⟨_, _, panicked⟩ | ⟨_, within, _⟩
      · exact absurd exhausted.overLimit fits
      · exact absurd exhausted late
      · exact panicked
      · exact absurd within beyond
    apply answered.finished
    rw [output, answerOf_eq_none]
    exact List.mem_map.mpr ⟨call, member, panicked⟩
  · intro within
    have each : ∀ call ∈ callsOf cfg request, call.output ≠ .panicked ∧ (OverLimit call → call.output = .refused) ∧
        (Exhausted call → Recorded cfg.banSeconds call call.after) := by
      intro call member
      obtain ⟨before, switched, same⟩ := callsOf_member on member
      have room := within call member
      rw [same] at room ⊢
      rcases call_cases switched call.input with ⟨fits, allowed⟩ | ⟨_, late, refused⟩ | ⟨exhausted, beyond, _⟩ |
        ⟨_, _, refused, recorded⟩
      · exact ⟨by rw [allowed]; decide, fun limited => absurd limited fits,
          fun exhausted => absurd exhausted.overLimit fits⟩
      · exact ⟨by rw [refused]; decide, fun _ => refused, fun exhausted => absurd exhausted late⟩
      · exact absurd (room exhausted) (not_lt.mpr beyond)
      · exact ⟨by rw [refused]; decide, fun _ => refused, fun _ => recorded⟩
    have calm : .panicked ∉ (callsOf cfg request).map Step.output := by
      intro panicked
      obtain ⟨call, member, same⟩ := List.mem_map.mp panicked
      exact (each call member).1 same
    refine ⟨?_, ?_, ?_⟩
    · rw [output, ne_eq, answerOf_eq_none]
      exact calm
    · intro call member limited
      have refused : .refused ∈ (callsOf cfg request).map Step.output :=
        List.mem_map.mpr ⟨call, member, (each call member).2.1 limited⟩
      rw [output, answerOf, if_neg calm, if_pos refused]
    · exact fun call member exhausted => recorded_after on member ((each call member).2.2 exhausted)

theorem attempt_off (off : limiter.enabled = false) (attempt : Attempt) :
    limiter.attempt attempt = (.allowed, limiter) := by
  simp [RateLimiter.attempt, RateLimiter.allow, off]

theorem enforce_off (off : limiter.enabled = false) (arrival : Arrival) :
    arrival.enforce cfg limiter = (some (.ok ()), limiter) := by
  simp [Arrival.enforce, enforceRate, off]

theorem answered_off (off : limiter.enabled = false) (arrival : Arrival) :
    let request := taken (RateLimiter.enforce cfg) limiter arrival
    Answered cfg request ∧ ∀ call ∈ callsOf cfg request, ¬ Exhausted call := by
  intro request
  have free : ∀ call ∈ callsOf cfg request, call.before.enabled = false := by
    intro call member
    obtain ⟨earlier, _, _, same⟩ := trace_member _ member
    have kept := @invariant_run _ _ _ RateLimiter.attempt (fun limiter => limiter.enabled = false)
      (fun limiter attempt off => by rw [attempt_off off]; exact off) limiter earlier off
    rw [same]
    exact kept
  have unlimited : ∀ call ∈ callsOf cfg request, ¬ OverLimit call := by
    intro call member limited
    exact Bool.false_ne_true ((free call member).symm.trans limited.1)
  have output : request.output = some (.ok ()) := congrArg Prod.fst (enforce_off off arrival)
  refine ⟨⟨?_, ?_, ?_⟩, fun call member exhausted => unlimited call member exhausted.overLimit⟩
  · rw [output]
    exact Option.some_ne_none _
  · exact fun call member limited => absurd limited (unlimited call member)
  · exact fun call member exhausted => absurd exhausted.overLimit (unlimited call member)

end Requests

section Runs

/-- The requests that a relay has handled since it was started. -/
def handled (cfg : RateLimitConfig) (arrivals : List Arrival) : List Handled :=
  trace (RateLimiter.enforce cfg) (.new cfg.enabled cfg.banSeconds) arrivals

theorem handled_answered_iff {cfg : RateLimitConfig} {arrivals : List Arrival} {request : Handled}
    (member : request ∈ handled cfg arrivals) :
    Answered cfg request ↔
      ∀ call ∈ callsOf cfg request, Exhausted call → banEnd cfg.banSeconds call.input.now < instantEnd := by
  obtain ⟨earlier, _, _, same⟩ := trace_member _ member
  rw [same]
  cases enabled : cfg.enabled with
  | true =>
    exact answered_iff (enforce_run_on earlier) request.input
  | false =>
    have off := @invariant_run _ _ _ (RateLimiter.enforce cfg) (fun limiter => limiter.enabled = false)
      (fun limiter arrival off => by rw [RateLimiter.enforce, enforce_off off]; exact off)
      (.new false cfg.banSeconds) earlier rfl
    obtain ⟨answered, never⟩ := @answered_off cfg _ off request.input
    exact iff_of_true answered (fun call member exhausted => absurd exhausted (never call member))

/-- Nothing that the request path computes with clocks, durations and times to live leaves its type. -/
structure ArithmeticSafe [Base64] (cfg : RelayConfig) (arrivals : List Arrival) : Prop where
  deadline : ∀ body nowMillis msg, Server.buildInboundMessage body cfg.relay nowMillis = .ok msg →
    saturatingMul cfg.relay.messageTtlSeconds 1000 ≤ u64Max ∧ msg.deadlineMs ≤ u64Max
  elapsed : ∀ now earlier, Representable now → Representable earlier →
    0 ≤ secsSince now earlier ∧ secsSince now earlier < 2 ^ 64
  answered : ∀ request ∈ handled cfg.rateLimit arrivals, Answered cfg.rateLimit request

/-- For every configuration and any requests: no panic exactly when every call that exhausts a bucket comes at
    an instant from which the end of its ban can be represented. -/
theorem arithmetic_safe_iff [Base64] (cfg : RelayConfig) (arrivals : List Arrival) :
    ArithmeticSafe cfg arrivals ↔ ∀ request ∈ handled cfg.rateLimit arrivals, ∀ call ∈ callsOf cfg.rateLimit request,
      Exhausted call → banEnd cfg.rateLimit.banSeconds call.input.now < instantEnd := by
  constructor
  · intro safe request member
    exact (handled_answered_iff member).mp (safe.answered request member)
  · intro within
    refine ⟨?_, fun now earlier here there => secsSince_fits here there, ?_⟩
    · intro body nowMillis msg built
      obtain ⟨_, _, _, rfl⟩ := Server.buildInboundMessage_ok built
      exact ⟨Nat.min_le_right _ _, saturatingAdd_le _ _⟩
    · exact fun request member => (handled_answered_iff member).mpr (within request member)

end Runs

def endlessBans : RelayConfig where
  rateLimit := { burst := 1, banSeconds := u64Max }

/-- The second of two requests at one instant is never answered. -/
theorem arithmetic_panics :
    endlessBans.validate ⟨false, true⟩ = .ok () ∧
      outputs (RateLimiter.enforce endlessBans.rateLimit) (.new true u64Max)
        [sampleArrival .push 0, sampleArrival .push 0] = [some (.ok ()), none] ∧
      ¬ ArithmeticSafe endlessBans [sampleArrival .push 0, sampleArrival .push 0] := by
  have answers : outputs (RateLimiter.enforce endlessBans.rateLimit) (.new true u64Max)
      [sampleArrival .push 0, sampleArrival .push 0] = [some (.ok ()), none] := by decide +kernel
  refine ⟨by decide, answers, ?_⟩
  intro safe
  have none : (none : Option (Result Unit)) ∈ (handled endlessBans.rateLimit
      [sampleArrival .push 0, sampleArrival .push 0]).map Step.output := by
    change _ ∈ outputs (RateLimiter.enforce endlessBans.rateLimit) (.new true u64Max) _
    rw [answers]
    exact List.mem_cons_of_mem _ List.mem_cons_self
  obtain ⟨request, member, silent⟩ := List.mem_map.mp none
  exact (safe.answered request member).finished silent

end EnigmaRelay
