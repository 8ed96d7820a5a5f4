import EnigmaRelay.Limiter.Bucket

open Machine TokenBucket

namespace EnigmaRelay

inductive Endpoint where
  | push
  | pull
  | ack
  deriving DecidableEq, Repr

def Endpoint.label : Endpoint → String
  | .push => "push"
  | .pull => "pull"
  | .ack => "ack"

theorem Endpoint.label_ne_global (endpoint : Endpoint) : endpoint.label ≠ "global" := by
  cases endpoint <;> simp [Endpoint.label]

theorem Endpoint.key_ne_global (endpoint : Endpoint) (ip : IpAddr) :
    (⟨ip, endpoint.label⟩ : RateKey) ≠ ⟨ip, "global"⟩ :=
  fun same => endpoint.label_ne_global (congrArg RateKey.label same)

/-- A request as the limiter sees it: its two calls read the clock one after the other. -/
structure Arrival where
  ip : IpAddr
  endpoint : Endpoint
  globalNow : Instant
  endpointNow : Instant
  deriving DecidableEq, Repr

section Place

variable {rate burst : ℚ} {times : List ℚ} {place : Option Bucket}

/-- A place whose bucket has admitted a call at each of the times, and refused none. -/
def Drawn (rate burst : ℚ) (times : List ℚ) : Option Bucket → Prop
  | none => times = []
  | some entry => entry.rate = rate ∧ entry.burst = burst ∧ entry.banUntil = none ∧ Spent rate burst times entry.level

theorem Bucket.allow_unbanned {entry : Bucket} {now : Instant} (free : entry.banned now = false) (banSeconds : Nat) :
    (1 ≤ entry.refilled now ∧ entry.allow banSeconds now = (.allowed, entry.counted now (entry.refilled now - 1) none)) ∨
    (¬ 1 ≤ entry.refilled now ∧ (entry.allow banSeconds now).1 ≠ .allowed) := by
  rcases entry.allow_cases banSeconds now with ⟨banned, _⟩ | ⟨_, enough, allowed⟩ | ⟨_, short, _, allowed⟩ |
    ⟨_, _, short, _, allowed⟩
  · rw [free] at banned
    cases banned
  · exact .inl ⟨enough, allowed⟩
  · exact .inr ⟨not_le_of_gt short, by rw [allowed]; nofun⟩
  · exact .inr ⟨not_le_of_gt short, by rw [allowed]; nofun⟩

theorem Drawn.consult (drawn : Drawn rate burst times place) (conforming : Conforming rate burst times)
    (banSeconds : Nat) (attempt : Attempt) (own : attempt.rate = rate ∧ attempt.burst = burst)
    (ordered : ∀ time ∈ times, time ≤ seconds attempt.now) :
    (Conforming rate burst (times ++ [seconds attempt.now]) ∧ (attempt.consult banSeconds place).1 = .allowed ∧
      Drawn rate burst (times ++ [seconds attempt.now]) (attempt.consult banSeconds place).2) ∨
    (¬ Conforming rate burst (times ++ [seconds attempt.now]) ∧ (attempt.consult banSeconds place).1 ≠ .allowed) := by
  cases place with
  | none =>
    obtain ⟨rfl, rfl⟩ := own
    cases drawn
    -- the first call finds the bucket full
    have full : (Bucket.full attempt.rate attempt.burst attempt.now).refilled attempt.now = attempt.burst := by
      simp [Bucket.refilled, Bucket.full, Bucket.level, refill]
    have free : (Bucket.full attempt.rate attempt.burst attempt.now).banned attempt.now = false := rfl
    have answered := Bucket.allow_unbanned free banSeconds
    rw [full] at answered
    rw [List.nil_append, conforming_singleton]
    rcases answered with ⟨enough, allowed⟩ | ⟨short, refused⟩
    · left
      rw [Attempt.consult, Option.getD_none, allowed]
      exact ⟨enough, rfl, rfl, rfl, rfl, spent_first _⟩
    · exact .inr ⟨short, refused⟩
  | some entry =>
    obtain ⟨rfl, rfl, unbanned, spent⟩ := drawn
    have later : entry.level.counted ≤ seconds attempt.now := ordered _ (List.mem_of_getLast? spent.last)
    have free : entry.banned attempt.now = false := by
      rw [Bucket.banned, unbanned]
      rfl
    rw [spent.conforming_iff later conforming]
    rcases entry.allow_unbanned free banSeconds with ⟨enough, allowed⟩ | ⟨short, refused⟩
    · left
      rw [Attempt.consult, Option.getD_some, allowed]
      exact ⟨enough, rfl, rfl, rfl, rfl, spent.charge later⟩
    · exact .inr ⟨short, refused⟩

end Place

variable (cfg : RateLimitConfig)

namespace Arrival

variable (arrival : Arrival)

def globalAttempt : Attempt := ⟨arrival.ip, "global", cfg.perIpRps, cfg.burst, arrival.globalNow⟩

def endpointAttempt : Attempt :=
  ⟨arrival.ip, arrival.endpoint.label, cfg.endpointRps arrival.endpoint.label, cfg.burst, arrival.endpointNow⟩

def enforce (limiter : RateLimiter) : Option (Result Unit) × RateLimiter :=
  enforceRate cfg arrival.ip arrival.endpoint.label arrival.globalNow arrival.endpointNow limiter

end Arrival

namespace RateLimiter

variable {cfg} {banSeconds : Nat} {limiter : RateLimiter}

theorem enforce_cases (on : limiter.On banSeconds) (arrival : Arrival) :
    let first := (arrival.globalAttempt cfg).consult banSeconds (limiter.buckets ⟨arrival.ip, "global"⟩)
    let second := (arrival.endpointAttempt cfg).consult banSeconds (limiter.buckets ⟨arrival.ip, arrival.endpoint.label⟩)
    let once := Function.update limiter.buckets ⟨arrival.ip, "global"⟩ first.2
    let twice := Function.update once ⟨arrival.ip, arrival.endpoint.label⟩ second.2
    (first.1 = .allowed ∧ second.1 = .allowed ∧
      arrival.enforce cfg limiter = (some (.ok ()), { limiter with buckets := twice })) ∨
    ((first.1 ≠ .allowed ∨ second.1 ≠ .allowed) ∧ (arrival.enforce cfg limiter).1 ≠ some (.ok ()) ∧
      ((arrival.enforce cfg limiter).2 = { limiter with buckets := once } ∨
        (arrival.enforce cfg limiter).2 = { limiter with buckets := twice })) := by
  intro first second once twice
  have apart := arrival.endpoint.key_ne_global arrival.ip
  have onceOn : ({ limiter with buckets := once } : RateLimiter).On banSeconds := ⟨on.enabled, on.bans⟩
  have globalCall : limiter.allow arrival.ip "global" cfg.perIpRps cfg.burst arrival.globalNow =
      (first.1, { limiter with buckets := once }) := allow_eq on (arrival.globalAttempt cfg) rfl
  have endpointCall : ({ limiter with buckets := once } : RateLimiter).allow arrival.ip arrival.endpoint.label
      (cfg.endpointRps arrival.endpoint.label) cfg.burst arrival.endpointNow =
      (second.1, { limiter with buckets := twice }) :=
    allow_eq onceOn (arrival.endpointAttempt cfg) (Function.update_of_ne apart _ _)
  have working : ¬ (!limiter.enabled) = true := by simp [on.enabled]
  rw [Arrival.enforce, enforceRate, if_neg working, globalCall]
  -- a panic of the first call leaves the second undone
  cases globalOk : first.1 with
  | panicked => exact .inr ⟨.inl nofun, nofun, .inl rfl⟩
  | refused =>
    dsimp only
    rw [endpointCall]
    right
    refine ⟨.inl nofun, ?_⟩
    cases second.1 <;> exact ⟨nofun, .inr rfl⟩
  | allowed =>
    dsimp only
    rw [endpointCall]
    cases second.1 with
    | panicked => exact .inr ⟨.inr nofun, nofun, .inr rfl⟩
    | refused => exact .inr ⟨.inr nofun, nofun, .inr rfl⟩
    | allowed => exact .inl ⟨rfl, rfl, rfl⟩

theorem enforce_on (on : limiter.On banSeconds) (arrival : Arrival) : (arrival.enforce cfg limiter).2.On banSeconds := by
  rcases @enforce_cases cfg _ _ on arrival with ⟨_, _, accepted⟩ | ⟨_, _, same | same⟩
  · rw [accepted]
    exact ⟨on.enabled, on.bans⟩
  · rw [same]
    exact ⟨on.enabled, on.bans⟩
  · rw [same]
    exact ⟨on.enabled, on.bans⟩

theorem enforce_other (on : limiter.On banSeconds) (arrival : Arrival) {key : RateKey} (other : arrival.ip ≠ key.ip) :
    (arrival.enforce cfg limiter).2.buckets key = limiter.buckets key := by
  have apart : ∀ label, key ≠ ⟨arrival.ip, label⟩ := by
    rintro label rfl
    exact other rfl
  rcases @enforce_cases cfg _ _ on arrival with ⟨_, _, accepted⟩ | ⟨_, _, same | same⟩
  · rw [accepted]
    simp [apart]
  · rw [same]
    simp [apart]
  · rw [same]
    simp [apart]

end RateLimiter

section Traffic

variable (ip : IpAddr)

def globalTimes (arrivals : List Arrival) : List ℚ :=
  (arrivals.filter (fun arrival => arrival.ip = ip)).map (fun arrival => seconds arrival.globalNow)

def endpointTimes (endpoint : Endpoint) (arrivals : List Arrival) : List ℚ :=
  (arrivals.filter (fun arrival => arrival.ip = ip ∧ arrival.endpoint = endpoint)).map
    (fun arrival => seconds arrival.endpointNow)

def ConformingTraffic (arrivals : List Arrival) : Prop :=
  Conforming (cfg.perIpRps : ℚ) cfg.burst (globalTimes ip arrivals) ∧
    ∀ endpoint, Conforming (cfg.endpointRps endpoint.label : ℚ) cfg.burst (endpointTimes ip endpoint arrivals)

/-- The buckets of an address after requests that were all accepted. -/
structure Tracked (arrivals : List Arrival) (limiter : RateLimiter) : Prop where
  shared : Drawn cfg.perIpRps cfg.burst (globalTimes ip arrivals) (limiter.buckets ⟨ip, "global"⟩)
  endpoints : ∀ endpoint, Drawn (cfg.endpointRps endpoint.label) cfg.burst (endpointTimes ip endpoint arrivals)
    (limiter.buckets ⟨ip, endpoint.label⟩)

variable {cfg ip} {arrivals : List Arrival} {arrival : Arrival}

theorem globalTimes_snoc (own : arrival.ip = ip) :
    globalTimes ip (arrivals ++ [arrival]) = globalTimes ip arrivals ++ [seconds arrival.globalNow] := by
  simp [globalTimes, own]

theorem endpointTimes_snoc (own : arrival.ip = ip) (endpoint : Endpoint) :
    endpointTimes ip endpoint (arrivals ++ [arrival]) = endpointTimes ip endpoint arrivals ++
      if arrival.endpoint = endpoint then [seconds arrival.endpointNow] else [] := by
  by_cases same : arrival.endpoint = endpoint
  · simp [endpointTimes, own, same]
  · simp [endpointTimes, same]

theorem globalTimes_other (other : arrival.ip ≠ ip) :
    globalTimes ip (arrivals ++ [arrival]) = globalTimes ip arrivals := by
  simp [globalTimes, other]

theorem endpointTimes_other (other : arrival.ip ≠ ip) (endpoint : Endpoint) :
    endpointTimes ip endpoint (arrivals ++ [arrival]) = endpointTimes ip endpoint arrivals := by
  simp [endpointTimes, other]

theorem conformingTraffic_snoc (own : arrival.ip = ip) (before : ConformingTraffic cfg ip arrivals) :
    ConformingTraffic cfg ip (arrivals ++ [arrival]) ↔
      Conforming (cfg.perIpRps : ℚ) cfg.burst (globalTimes ip arrivals ++ [seconds arrival.globalNow]) ∧
      Conforming (cfg.endpointRps arrival.endpoint.label : ℚ) cfg.burst
        (endpointTimes ip arrival.endpoint arrivals ++ [seconds arrival.endpointNow]) := by
  rw [ConformingTraffic, globalTimes_snoc own]
  apply and_congr_right
  intro _
  constructor
  · intro each
    have here := each arrival.endpoint
    rwa [endpointTimes_snoc own, if_pos rfl] at here
  · intro here endpoint
    rw [endpointTimes_snoc own]
    by_cases same : arrival.endpoint = endpoint
    · rw [if_pos same, ← same]
      exact here
    · rw [if_neg same, List.append_nil]
      exact before.2 endpoint

theorem ConformingTraffic.before (own : arrival.ip = ip) (whole : ConformingTraffic cfg ip (arrivals ++ [arrival])) :
    ConformingTraffic cfg ip arrivals := by
  obtain ⟨shared, endpoints⟩ := whole
  rw [globalTimes_snoc own] at shared
  refine ⟨(conforming_snoc.mp shared).1, ?_⟩
  intro endpoint
  have here := endpoints endpoint
  rw [endpointTimes_snoc own] at here
  split at here
  · exact (conforming_snoc.mp here).1
  · rwa [List.append_nil] at here

def After (ip : IpAddr) (arrivals : List Arrival) (arrival : Arrival) : Prop :=
  ∀ earlier ∈ arrivals, earlier.ip = ip →
    earlier.globalNow ≤ arrival.globalNow ∧ earlier.endpointNow ≤ arrival.endpointNow

/-- One more request of the address is accepted exactly when the traffic stays conforming. -/
theorem Tracked.step {banSeconds : Nat} {limiter : RateLimiter} (tracked : Tracked cfg ip arrivals limiter)
    (on : limiter.On banSeconds) (before : ConformingTraffic cfg ip arrivals) (after : After ip arrivals arrival)
    (own : arrival.ip = ip) :
    (ConformingTraffic cfg ip (arrivals ++ [arrival]) ∧ (arrival.enforce cfg limiter).1 = some (.ok ()) ∧
      Tracked cfg ip (arrivals ++ [arrival]) (arrival.enforce cfg limiter).2) ∨
    (¬ ConformingTraffic cfg ip (arrivals ++ [arrival]) ∧ (arrival.enforce cfg limiter).1 ≠ some (.ok ())) := by
  subst own
  have sharedOrder : ∀ time ∈ globalTimes arrival.ip arrivals, time ≤ seconds arrival.globalNow := by
    intro time member
    obtain ⟨earlier, listed, rfl⟩ := List.mem_map.mp member
    obtain ⟨kept, same⟩ := List.mem_filter.mp listed
    exact seconds_le.mpr (after earlier kept (of_decide_eq_true same)).1
  have endpointOrder :
      ∀ time ∈ endpointTimes arrival.ip arrival.endpoint arrivals, time ≤ seconds arrival.endpointNow := by
    intro time member
    obtain ⟨earlier, listed, rfl⟩ := List.mem_map.mp member
    obtain ⟨kept, same⟩ := List.mem_filter.mp listed
    exact seconds_le.mpr (after earlier kept (of_decide_eq_true same).1).2
  have first := tracked.shared.consult before.1 banSeconds (arrival.globalAttempt cfg) ⟨rfl, rfl⟩ sharedOrder
  have second := (tracked.endpoints arrival.endpoint).consult (before.2 _) banSeconds (arrival.endpointAttempt cfg)
    ⟨rfl, rfl⟩ endpointOrder
  rw [conformingTraffic_snoc rfl before]
  rcases @RateLimiter.enforce_cases cfg _ _ on arrival with ⟨firstOk, secondOk, accepted⟩ | ⟨failed, rejected, _⟩
  · left
    rcases first with ⟨firstFits, _, firstDrawn⟩ | ⟨_, firstBad⟩
    · rcases second with ⟨secondFits, _, secondDrawn⟩ | ⟨_, secondBad⟩
      · refine ⟨⟨firstFits, secondFits⟩, by rw [accepted], ?_⟩
        rw [accepted]
        constructor
        · rw [globalTimes_snoc rfl]
          have apart := (arrival.endpoint.key_ne_global arrival.ip).symm
          simp only [Function.update_of_ne apart, Function.update_self]
          exact firstDrawn
        · intro endpoint
          rw [endpointTimes_snoc rfl]
          by_cases same : arrival.endpoint = endpoint
          · subst same
            simp only [Function.update_self, if_true]
            exact secondDrawn
          · have apart : (⟨arrival.ip, endpoint.label⟩ : RateKey) ≠ ⟨arrival.ip, arrival.endpoint.label⟩ := by
              intro keys
              apply same
              cases endpoint <;> cases here : arrival.endpoint <;> simp_all [Endpoint.label]
            have shared := endpoint.key_ne_global arrival.ip
            simp only [Function.update_of_ne apart, Function.update_of_ne shared, if_neg same, List.append_nil]
            exact tracked.endpoints endpoint
      · exact absurd secondOk secondBad
    · exact absurd firstOk firstBad
  · right
    refine ⟨?_, rejected⟩
    rintro ⟨firstFits, secondFits⟩
    rcases first with ⟨_, firstOk, _⟩ | ⟨firstBad, _⟩
    · rcases second with ⟨_, secondOk, _⟩ | ⟨secondBad, _⟩
      · rcases failed with failed | failed
        · exact failed firstOk
        · exact failed secondOk
      · exact secondBad secondFits
    · exact firstBad firstFits

end Traffic

def RateLimiter.enforce (cfg : RateLimitConfig) (limiter : RateLimiter) (arrival : Arrival) :
    Option (Result Unit) × RateLimiter := arrival.enforce cfg limiter

/-- The limiter accepts every request of the address. -/
def AcceptsAll (cfg : RateLimitConfig) (ip : IpAddr) (limiter : RateLimiter) (arrivals : List Arrival) : Prop :=
  ∀ event ∈ trace (RateLimiter.enforce cfg) limiter arrivals, event.input.ip = ip → event.output = some (.ok ())

theorem acceptsAll_nil {ip : IpAddr} {limiter : RateLimiter} : AcceptsAll cfg ip limiter [] :=
  fun _ member => absurd member List.not_mem_nil

theorem acceptsAll_snoc {ip : IpAddr} {limiter : RateLimiter} {arrivals : List Arrival} {arrival : Arrival} :
    AcceptsAll cfg ip limiter (arrivals ++ [arrival]) ↔ AcceptsAll cfg ip limiter arrivals ∧
      (arrival.ip = ip →
        (arrival.enforce cfg (final (RateLimiter.enforce cfg) limiter arrivals)).1 = some (.ok ())) := by
  rw [AcceptsAll, trace_snoc, List.forall_mem_append, List.forall_mem_singleton]
  rfl

theorem accepts_and_tracks (banSeconds : Nat) (ip : IpAddr) (arrivals : List Arrival)
    (ordered : (arrivals.filter (fun arrival => arrival.ip = ip)).Pairwise (fun earlier later =>
      earlier.globalNow ≤ later.globalNow ∧ earlier.endpointNow ≤ later.endpointNow)) :
    (AcceptsAll cfg ip (.new true banSeconds) arrivals ↔ ConformingTraffic cfg ip arrivals) ∧
      (ConformingTraffic cfg ip arrivals →
        Tracked cfg ip arrivals (final (RateLimiter.enforce cfg) (.new true banSeconds) arrivals)) := by
  induction arrivals using List.reverseRecOn with
  | nil =>
    refine ⟨iff_of_true (acceptsAll_nil cfg) ⟨conforming_nil, fun _ => conforming_nil⟩, ?_⟩
    exact fun _ => ⟨rfl, fun _ => rfl⟩
  | append_singleton arrivals arrival ih =>
    have on : (final (RateLimiter.enforce cfg) (.new true banSeconds) arrivals).On banSeconds :=
      invariant_run (P := RateLimiter.On banSeconds) (RateLimiter.enforce cfg)
        (fun _ arrival on => RateLimiter.enforce_on on arrival) arrivals
        (RateLimiter.new_on banSeconds)
    rw [List.filter_append, List.pairwise_append] at ordered
    obtain ⟨accepts, tracks⟩ := ih ordered.1
    rw [acceptsAll_snoc, accepts, final_snoc]
    by_cases own : arrival.ip = ip
    · have after : After ip arrivals arrival := by
        intro earlier member same
        exact ordered.2.2 earlier (by simpa using ⟨member, same⟩) arrival (by simp [own])
      by_cases before : ConformingTraffic cfg ip arrivals
      · rcases (tracks before).step on before after own with ⟨fits, accepted, tracked⟩ | ⟨breaks, rejected⟩
        · exact ⟨iff_of_true ⟨before, fun _ => accepted⟩ fits, fun _ => tracked⟩
        · exact ⟨iff_of_false (fun both => rejected (both.2 own)) breaks, fun fits => absurd fits breaks⟩
      · have breaks : ¬ ConformingTraffic cfg ip (arrivals ++ [arrival]) := by
          intro fits
          exact before (ConformingTraffic.before own fits)
        exact ⟨iff_of_false (fun both => before both.1) breaks, fun fits => absurd fits breaks⟩
    · have same : ConformingTraffic cfg ip (arrivals ++ [arrival]) ↔ ConformingTraffic cfg ip arrivals := by
        rw [ConformingTraffic, globalTimes_other own]
        simp only [endpointTimes_other own]
        rfl
      rw [same]
      refine ⟨by simp [own], ?_⟩
      intro before
      have tracked := tracks before
      constructor
      · rw [globalTimes_other own, RateLimiter.enforce, RateLimiter.enforce_other on arrival own]
        exact tracked.shared
      · intro endpoint
        rw [endpointTimes_other own, RateLimiter.enforce, RateLimiter.enforce_other on arrival own]
        exact tracked.endpoints endpoint

/-- All requests of an address are accepted exactly when they conform to the rate of the address and,
    on each endpoint, to the rate of the endpoint, whatever other addresses send. -/
theorem accepted_iff_conforming (enabled : cfg.enabled = true) (ip : IpAddr) (arrivals : List Arrival)
    (ordered : (arrivals.filter (fun arrival => arrival.ip = ip)).Pairwise (fun earlier later =>
      earlier.globalNow ≤ later.globalNow ∧ earlier.endpointNow ≤ later.endpointNow)) :
    AcceptsAll cfg ip (.new cfg.enabled cfg.banSeconds) arrivals ↔ ConformingTraffic cfg ip arrivals := by
  rw [enabled]
  exact (accepts_and_tracks cfg cfg.banSeconds ip arrivals ordered).1

def sampleArrival (endpoint : Endpoint) (seconds : Nat) : Arrival :=
  ⟨.localhost, endpoint, seconds * 10 ^ 9, seconds * 10 ^ 9⟩

theorem accepted_iff_conforming_sample :
    AcceptsAll {} .localhost (.new true 300) [sampleArrival .push 0, sampleArrival .pull 0, sampleArrival .push 1] ↔
      ConformingTraffic {} .localhost [sampleArrival .push 0, sampleArrival .pull 0, sampleArrival .push 1] :=
  accepted_iff_conforming {} rfl .localhost _ (by decide)

end EnigmaRelay
