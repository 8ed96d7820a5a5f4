import EnigmaRelay.Limiter.Conforming

open Machine

namespace EnigmaRelay

/-- What `enforce_rate` makes of the verdicts of its calls. -/
def answerOf (verdicts : List Verdict) : Option (Result Unit) :=
  if .panicked ∈ verdicts then none
  else if .refused ∈ verdicts then some (.error .rateLimited)
  else some (.ok ())

/-- The calls that a request makes: a panic of the first one leaves the second undone. -/
def Arrival.attempts (cfg : RateLimitConfig) (limiter : RateLimiter) (arrival : Arrival) : List Attempt :=
  if (limiter.attempt (arrival.globalAttempt cfg)).1 = .panicked then [arrival.globalAttempt cfg]
  else [arrival.globalAttempt cfg, arrival.endpointAttempt cfg]

def attemptsOf (cfg : RateLimitConfig) : RateLimiter → List Arrival → List Attempt
  | _, [] => []
  | limiter, arrival :: rest => arrival.attempts cfg limiter ++ attemptsOf cfg (arrival.enforce cfg limiter).2 rest

/-- A request and what the limiter made of it. -/
abbrev Handled := Step RateLimiter Arrival (Option (Result Unit))

/-- The calls that the request made. -/
def callsOf (cfg : RateLimitConfig) (request : Handled) : List (Step RateLimiter Attempt Verdict) :=
  trace RateLimiter.attempt request.before (request.input.attempts cfg request.before)

section Calls

variable {cfg : RateLimitConfig} {banSeconds : Nat} {limiter : RateLimiter}

/-- A request is its calls: it leaves what they leave, and answers for their verdicts. -/
theorem enforce_calls (on : limiter.On banSeconds) (arrival : Arrival) :
    arrival.enforce cfg limiter = (answerOf (outputs RateLimiter.attempt limiter (arrival.attempts cfg limiter)),
      final RateLimiter.attempt limiter (arrival.attempts cfg limiter)) := by
  have working : ¬ (!limiter.enabled) = true := by simp [on.enabled]
  have globalCall : limiter.allow arrival.ip "global" cfg.perIpRps cfg.burst arrival.globalNow =
      limiter.attempt (arrival.globalAttempt cfg) := rfl
  have endpointCall : ∀ between : RateLimiter, between.allow arrival.ip arrival.endpoint.label
      (cfg.endpointRps arrival.endpoint.label) cfg.burst arrival.endpointNow =
      between.attempt (arrival.endpointAttempt cfg) := fun _ => rfl
  rw [Arrival.enforce, enforceRate, if_neg working, globalCall, Arrival.attempts]
  cases first : limiter.attempt (arrival.globalAttempt cfg) with
  | mk firstVerdict between =>
    cases second : between.attempt (arrival.endpointAttempt cfg) with
    | mk secondVerdict last =>
      cases firstVerdict with
      | panicked => simp [outputs, trace, taken, first, answerOf]
      | allowed => cases secondVerdict <;> simp [outputs, trace, taken, first, second, endpointCall, answerOf]
      | refused => cases secondVerdict <;> simp [outputs, trace, taken, first, second, endpointCall, answerOf]

theorem answerOf_eq_none {verdicts : List Verdict} : answerOf verdicts = none ↔ .panicked ∈ verdicts := by
  unfold answerOf
  split
  · rename_i panicked
    exact iff_of_true rfl panicked
  · rename_i finished
    refine iff_of_false ?_ finished
    split <;> exact Option.some_ne_none _

theorem enforce_run_on (arrivals : List Arrival) :
    (final (RateLimiter.enforce cfg) (.new true banSeconds) arrivals).On banSeconds :=
  invariant_run (P := RateLimiter.On banSeconds) (RateLimiter.enforce cfg)
    (fun _ arrival on => RateLimiter.enforce_on on arrival) arrivals (RateLimiter.new_on banSeconds)

theorem attemptsOf_trace (on : limiter.On banSeconds) (arrivals : List Arrival) :
    trace RateLimiter.attempt limiter (attemptsOf cfg limiter arrivals) =
      (trace (RateLimiter.enforce cfg) limiter arrivals).flatMap (callsOf cfg) := by
  induction arrivals generalizing limiter with
  | nil => rfl
  | cons arrival rest ih =>
    have after : (arrival.enforce cfg limiter).2 = final RateLimiter.attempt limiter (arrival.attempts cfg limiter) :=
      congrArg Prod.snd (enforce_calls on arrival)
    rw [attemptsOf, trace_append, trace, List.flatMap_cons, ← after]
    exact congrArg (_ ++ ·) (ih (RateLimiter.enforce_on on arrival))

theorem callsOf_member (on : limiter.On banSeconds) {arrival : Arrival}
    {call : Step RateLimiter Attempt Verdict}
    (member : call ∈ callsOf cfg (taken (RateLimiter.enforce cfg) limiter arrival)) :
    ∃ before : RateLimiter, before.On banSeconds ∧ call = taken RateLimiter.attempt before call.input := by
  obtain ⟨earlier, _, _, same⟩ := trace_member _ member
  refine ⟨_, ?_, same⟩
  exact invariant_run (P := RateLimiter.On banSeconds) RateLimiter.attempt
    (RateLimiter.attempt_separate banSeconds).kept earlier on

theorem mem_callsOf {arrival : Arrival} {call : Step RateLimiter Attempt Verdict}
    (member : call ∈ callsOf cfg (taken (RateLimiter.enforce cfg) limiter arrival)) :
    call = taken RateLimiter.attempt limiter (arrival.globalAttempt cfg) ∨
      call = taken RateLimiter.attempt (limiter.attempt (arrival.globalAttempt cfg)).2 (arrival.endpointAttempt cfg) := by
  change call ∈ trace RateLimiter.attempt limiter (arrival.attempts cfg limiter) at member
  rw [Arrival.attempts] at member
  split at member
  · exact .inl (List.mem_singleton.mp member)
  · simpa [trace] using member

theorem callsOf_key {arrival : Arrival} {call other : Step RateLimiter Attempt Verdict}
    (member : call ∈ callsOf cfg (taken (RateLimiter.enforce cfg) limiter arrival))
    (listed : other ∈ callsOf cfg (taken (RateLimiter.enforce cfg) limiter arrival))
    (same : other.input.key = call.input.key) : other = call := by
  have apart : (arrival.endpointAttempt cfg).key ≠ (arrival.globalAttempt cfg).key :=
    arrival.endpoint.key_ne_global arrival.ip
  rcases mem_callsOf member with rfl | rfl
  · rcases mem_callsOf listed with rfl | rfl
    · rfl
    · exact absurd same apart
  · rcases mem_callsOf listed with rfl | rfl
    · exact absurd same.symm apart
    · rfl

theorem callsOf_frame (on : limiter.On banSeconds) {arrival : Arrival} {key : RateKey}
    (kept : ∀ call ∈ callsOf cfg (taken (RateLimiter.enforce cfg) limiter arrival), call.input.key = key →
      call.after.buckets key = call.before.buckets key) :
    (arrival.enforce cfg limiter).2.buckets key = limiter.buckets key := by
  have after : (arrival.enforce cfg limiter).2 = final RateLimiter.attempt limiter (arrival.attempts cfg limiter) :=
    congrArg Prod.snd (enforce_calls on arrival)
  have untouched : ∀ (attempts : List Attempt) (current : RateLimiter), current.On banSeconds →
      (∀ call ∈ trace RateLimiter.attempt current attempts, call.input.key = key →
        call.after.buckets key = call.before.buckets key) →
      (final RateLimiter.attempt current attempts).buckets key = current.buckets key := by
    intro attempts
    induction attempts with
    | nil => exact fun _ _ _ => rfl
    | cons attempt rest ih =>
      intro current switched each
      have next := (RateLimiter.attempt_separate banSeconds).kept current attempt switched
      have first : (current.attempt attempt).2.buckets key = current.buckets key := by
        by_cases own : attempt.key = key
        · exact each (taken RateLimiter.attempt current attempt) List.mem_cons_self own
        · exact (RateLimiter.attempt_separate banSeconds).others current attempt key switched (Ne.symm own)
      rw [final_cons, ih _ next (fun call member => each call (List.mem_cons_of_mem _ member))]
      exact first
  rw [after]
  exact untouched _ limiter on kept

theorem attemptsOf_sublist (limiter : RateLimiter) (arrivals : List Arrival) :
    (attemptsOf cfg limiter arrivals).Sublist
      (arrivals.flatMap (fun arrival => [arrival.globalAttempt cfg, arrival.endpointAttempt cfg])) := by
  induction arrivals generalizing limiter with
  | nil => exact .slnil
  | cons arrival rest ih =>
    rw [attemptsOf, List.flatMap_cons]
    refine List.Sublist.append ?_ (ih _)
    rw [Arrival.attempts]
    split
    · exact List.sublist_append_left [arrival.globalAttempt cfg] [arrival.endpointAttempt cfg]
    · exact .refl _

theorem attemptsOf_ordered {key : RateKey} {arrivals : List Arrival}
    (ordered : (arrivals.filter (fun arrival => arrival.ip = key.ip)).Pairwise (fun earlier later =>
      earlier.globalNow ≤ later.globalNow ∧ earlier.endpointNow ≤ later.endpointNow)) (limiter : RateLimiter) :
    ((attemptsOf cfg limiter arrivals).filter (fun attempt => attempt.key = key)).Pairwise
      (fun earlier later => earlier.now ≤ later.now) := by
  refine List.Pairwise.sublist ((attemptsOf_sublist limiter arrivals).filter _) ?_
  rw [List.pairwise_filter, List.pairwise_flatMap]
  constructor
  · intro arrival _
    rw [List.pairwise_pair]
    intro first second
    have labels := congrArg RateKey.label ((of_decide_eq_true second).trans (of_decide_eq_true first).symm)
    exact absurd labels arrival.endpoint.label_ne_global
  · rw [List.pairwise_filter] at ordered
    refine ordered.imp ?_
    intro earlier later order first listed second listedLater firstOwn secondOwn
    simp only [List.mem_cons, List.not_mem_nil, or_false] at listed listedLater
    rcases listed with rfl | rfl <;> rcases listedLater with rfl | rfl
    all_goals
      have firstKey := of_decide_eq_true firstOwn
      have secondKey := of_decide_eq_true secondOwn
      have both := order (decide_eq_true (congrArg RateKey.ip firstKey)) (decide_eq_true (congrArg RateKey.ip secondKey))
    · exact both.1
    · exact absurd (congrArg RateKey.label (secondKey.trans firstKey.symm)) later.endpoint.label_ne_global
    · exact absurd (congrArg RateKey.label (firstKey.trans secondKey.symm)) earlier.endpoint.label_ne_global
    · exact both.2

end Calls

end EnigmaRelay
