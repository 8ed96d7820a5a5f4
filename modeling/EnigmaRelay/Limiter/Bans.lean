import EnigmaRelay.Limiter.Calls

open Machine TokenBucket

namespace EnigmaRelay

/-- When a ban that begins at `now` ends. -/
def banEnd (banSeconds : Nat) (now : Instant) : Instant := now + banSeconds * 10 ^ 9

theorem lt_banEnd {banSeconds : Nat} (positive : 1 ≤ banSeconds) (now : Instant) : now < banEnd banSeconds now := by
  have some : (0 : Int) < banSeconds := Int.natCast_pos.mpr positive
  exact Int.lt_add_of_pos_right now (by positivity)

theorem checkedAddSecs_eq_some_iff {now ends : Instant} {secs : Nat} :
    checkedAddSecs now secs = some ends ↔ banEnd secs now < instantEnd ∧ ends = banEnd secs now := by
  unfold checkedAddSecs
  change (if banEnd secs now < instantEnd then some (banEnd secs now) else none) = some ends ↔ _
  rw [Option.ite_none_right_eq_some, Option.some.injEq, eq_comm (b := ends)]

theorem checkedAddSecs_eq_none_iff {now : Instant} {secs : Nat} :
    checkedAddSecs now secs = none ↔ instantEnd ≤ banEnd secs now := by
  unfold checkedAddSecs
  change (if banEnd secs now < instantEnd then some (banEnd secs now) else none) = none ↔ _
  rw [ite_eq_right_iff, ← not_lt]
  exact ⟨fun never within => Option.some_ne_none _ (never within), fun beyond within => absurd within beyond⟩

section Place

variable {banSeconds : Nat}

def BeginsBan (event : Step (Option Bucket) Attempt Verdict) : Prop :=
  event.output = .refused ∧ event.before.all (fun entry => !entry.banned event.input.now) = true

theorem banned_run {entry : Bucket} {ends : Instant} (banned : entry.banUntil = some ends) {attempts : List Attempt}
    (ordered : attempts.Pairwise (fun earlier later => earlier.now ≤ later.now)) :
    ∀ event ∈ trace (Attempt.consult banSeconds) (some entry) attempts, event.input.now < ends →
      event.output = .refused ∧ event.after = event.before := by
  induction attempts with
  | nil =>
    intro event member
    cases member
  | cons attempt rest ih =>
    obtain ⟨later, restOrdered⟩ := List.pairwise_cons.mp ordered
    by_cases early : attempt.now < ends
    · have refused : attempt.consult banSeconds (some entry) = (.refused, some entry) := by
        have free : entry.banned attempt.now = true := by
          rw [Bucket.banned, banned]
          exact decide_eq_true early
        simp [Attempt.consult, Bucket.allow, free]
      intro event member inside
      rw [trace, refused] at member
      rcases List.mem_cons.mp member with rfl | behind
      · rw [taken, refused]
        exact ⟨rfl, rfl⟩
      · exact ih restOrdered event behind inside
    · intro event member inside
      exfalso
      have asked := (trace_event _ member).1
      rcases List.mem_cons.mp asked with same | behind
      · rw [same] at inside
        exact early inside
      · exact early (Int.lt_of_le_of_lt (later _ behind) inside)

theorem banUntil_begun (attempts : List Attempt) {entry : Bucket} {ends : Instant}
    (held : final (Attempt.consult banSeconds) none attempts = some entry) (banned : entry.banUntil = some ends) :
    ∃ began ∈ trace (Attempt.consult banSeconds) none attempts, BeginsBan began ∧
      ends = banEnd banSeconds began.input.now := by
  induction attempts using List.reverseRecOn generalizing entry with
  | nil => cases held
  | append_singleton attempts attempt ih =>
    rw [final_snoc] at held
    rw [trace_snoc]
    rcases Bucket.allow_cases banSeconds attempt.now ((final (Attempt.consult banSeconds) none attempts).getD
      (.full attempt.rate attempt.burst attempt.now)) with ⟨free, allowed⟩ | ⟨_, _, allowed⟩ | ⟨_, _, _, allowed⟩ |
      ⟨until_, free, _, added, allowed⟩
    · -- the ban was in force before
      cases before : final (Attempt.consult banSeconds) none attempts with
      | none =>
        rw [before] at free
        cases free
      | some old =>
        simp only [Attempt.consult, allowed] at held
        rw [before] at held
        cases held
        obtain ⟨began, member, begins, same⟩ := ih before banned
        exact ⟨began, List.mem_append_left _ member, begins, same⟩
    · simp only [Attempt.consult, allowed] at held
      cases held
      cases banned
    · simp only [Attempt.consult, allowed] at held
      cases held
      cases banned
    · simp only [Attempt.consult, allowed] at held
      cases held
      cases banned
      refine ⟨_, List.mem_append_right _ List.mem_cons_self, ⟨?_, ?_⟩, (checkedAddSecs_eq_some_iff.mp added).2⟩
      · simp only [taken, Attempt.consult, allowed]
      · simp only [taken]
        cases before : final (Attempt.consult banSeconds) none attempts with
        | none => rfl
        | some old =>
          rw [before] at free
          simpa using free

/-- A refusal at `now` that begins a ban: the bucket refuses all that comes before the ban is over. -/
theorem ban_holds {attempts : List Attempt}
    (ordered : attempts.Pairwise (fun earlier later => earlier.now ≤ later.now))
    {past rest : List (Step (Option Bucket) Attempt Verdict)} {began : Step (Option Bucket) Attempt Verdict}
    (split : trace (Attempt.consult banSeconds) none attempts = past ++ began :: rest) (begins : BeginsBan began) :
    ∀ event ∈ rest, event.input.now < banEnd banSeconds began.input.now →
      event.output = .refused ∧ event.after = event.before := by
  obtain ⟨earlier, later, rfl, _, now, rfl⟩ := trace_split _ split
  obtain ⟨refused, unbanned⟩ := begins
  have free : (began.before.getD (.full began.input.rate began.input.burst began.input.now)).banned began.input.now =
      false := by
    cases before : began.before with
    | none => rfl
    | some entry => simpa [before] using unbanned
  have step : taken (Attempt.consult banSeconds) began.before began.input = began := by
    have start := congrArg Step.before now
    rw [start]
    exact now.symm
  rcases Bucket.allow_cases banSeconds began.input.now
      (began.before.getD (.full began.input.rate began.input.burst began.input.now)) with
    ⟨banned, _⟩ | ⟨_, _, allowed⟩ | ⟨_, _, _, allowed⟩ | ⟨ends, _, _, added, allowed⟩
  · rw [free] at banned
    cases banned
  · rw [← step] at refused
    simp [taken, Attempt.consult, allowed] at refused
  · rw [← step] at refused
    simp [taken, Attempt.consult, allowed] at refused
  · have after : began.after = (began.input.consult banSeconds began.before).2 := (congrArg Step.after step).symm
    simp only [Attempt.consult, allowed] at after
    rw [after, ← (checkedAddSecs_eq_some_iff.mp added).2]
    exact banned_run rfl (List.pairwise_cons.mp (List.pairwise_append.mp ordered).2.1).2

/-- A refusal begins a ban, or comes before the end of one that has begun. -/
theorem refusal_begun {attempts : List Attempt} {past rest : List (Step (Option Bucket) Attempt Verdict)}
    {refusal : Step (Option Bucket) Attempt Verdict} (positive : 1 ≤ banSeconds)
    (split : trace (Attempt.consult banSeconds) none attempts = past ++ refusal :: rest)
    (refused : refusal.output = .refused) :
    ∃ began ∈ past ++ [refusal], BeginsBan began ∧ refusal.input.now < banEnd banSeconds began.input.now := by
  obtain ⟨earlier, later, _, rfl, now, _⟩ := trace_split _ split
  have start : refusal.before = final (Attempt.consult banSeconds) none earlier := congrArg Step.before now
  by_cases unbanned : refusal.before.all (fun entry => !entry.banned refusal.input.now) = true
  · exact ⟨refusal, List.mem_append_right _ List.mem_cons_self, ⟨refused, unbanned⟩, lt_banEnd positive _⟩
  · cases before : refusal.before with
    | none =>
      rw [before] at unbanned
      exact absurd rfl unbanned
    | some entry =>
      have banned : entry.banned refusal.input.now = true := by simpa [before] using unbanned
      obtain ⟨ends, inForce, inside⟩ : ∃ ends, entry.banUntil = some ends ∧ refusal.input.now < ends := by
        cases ban : entry.banUntil with
        | none => simp [Bucket.banned, ban] at banned
        | some ends => exact ⟨ends, rfl, by simpa [Bucket.banned, ban] using banned⟩
      obtain ⟨began, member, begins, same⟩ := banUntil_begun earlier (start.symm.trans before) inForce
      exact ⟨began, List.mem_append_left _ member, begins, same ▸ inside⟩

end Place

section Limiter

/-- The bucket of the call is not banned and refuses it: a ban begins. -/
def Begins (event : Step RateLimiter Attempt Verdict) : Prop :=
  event.output = .refused ∧
    (event.before.buckets event.input.key).all (fun entry => !entry.banned event.input.now) = true

theorem begins_iff {event : Step RateLimiter Attempt Verdict} {key : RateKey} (own : event.input.key = key) :
    Begins event ↔ BeginsBan (event.seenBy RateLimiter.buckets key) := by
  rw [Begins, own]
  rfl

variable {banSeconds : Nat} {attempts : List Attempt} {past rest : List (Step RateLimiter Attempt Verdict)}
  {event : Step RateLimiter Attempt Verdict}

theorem seenBy_split (split : trace RateLimiter.attempt (.new true banSeconds) attempts = past ++ event :: rest) :
    let own : List (Step RateLimiter Attempt Verdict) → List (Step (Option Bucket) Attempt Verdict) := fun events =>
      (events.filter (fun other => other.input.key = event.input.key)).map
        (Step.seenBy RateLimiter.buckets event.input.key)
    trace (Attempt.consult banSeconds) none (attempts.filter (fun attempt => attempt.key = event.input.key)) =
      own past ++ event.seenBy RateLimiter.buckets event.input.key :: own rest := by
  intro own
  have seen := (RateLimiter.attempt_separate banSeconds).trace_seenBy (RateLimiter.new_on banSeconds) attempts
    event.input.key
  simp only [split, List.filter_append, List.map_append, List.filter_cons, decide_true, if_true, List.map_cons] at seen
  exact seen.symm

theorem limiter_ban_holds
    (ordered : (attempts.filter (fun attempt => attempt.key = event.input.key)).Pairwise
      (fun earlier later => earlier.now ≤ later.now))
    (split : trace RateLimiter.attempt (.new true banSeconds) attempts = past ++ event :: rest)
    (begins : Begins event) :
    ∀ later ∈ rest, later.input.key = event.input.key → later.input.now < banEnd banSeconds event.input.now →
      later.output = .refused ∧
        later.after.buckets event.input.key = later.before.buckets event.input.key := by
  intro later member same inside
  exact ban_holds ordered (seenBy_split split) ((begins_iff rfl).mp begins)
    (later.seenBy RateLimiter.buckets event.input.key)
    (List.mem_map_of_mem (List.mem_filter.mpr ⟨member, decide_eq_true same⟩)) inside

theorem limiter_refusal_begun (positive : 1 ≤ banSeconds)
    (split : trace RateLimiter.attempt (.new true banSeconds) attempts = past ++ event :: rest)
    (refused : event.output = .refused) :
    ∃ began ∈ past ++ [event], Begins began ∧ began.input.key = event.input.key ∧
      event.input.now < banEnd banSeconds began.input.now := by
  obtain ⟨began, member, begins, inside⟩ := refusal_begun positive (seenBy_split split) refused
  rcases List.mem_append.mp member with before | here
  · obtain ⟨whole, kept, rfl⟩ := List.mem_map.mp before
    obtain ⟨listed, own⟩ := List.mem_filter.mp kept
    have same := of_decide_eq_true own
    exact ⟨whole, List.mem_append_left _ listed, (begins_iff same).mpr begins, same, inside⟩
  · rw [List.mem_singleton.mp here] at begins inside
    exact ⟨event, List.mem_append_right _ List.mem_cons_self, (begins_iff rfl).mpr begins, rfl, inside⟩

end Limiter

section Waiting

variable {banSeconds : Nat}

/-- What no history can spoil: tokens do not go below zero, and a ban ends within its time of the last call. -/
structure Solvent (banSeconds : Nat) (latest : Instant) (entry : Bucket) : Prop where
  rate : 1 ≤ entry.rate
  burst : 1 ≤ entry.burst
  tokens : 0 ≤ entry.tokens
  last : entry.last ≤ latest
  ban : ∀ ends, entry.banUntil = some ends → ends ≤ banEnd banSeconds latest

theorem Solvent.mono {earlier latest : Instant} {entry : Bucket} (solvent : Solvent banSeconds earlier entry)
    (later : earlier ≤ latest) : Solvent banSeconds latest entry := by
  refine ⟨solvent.rate, solvent.burst, solvent.tokens, solvent.last.trans later, ?_⟩
  intro ends banned
  exact (solvent.ban ends banned).trans (Int.add_le_add_right later _)

theorem Solvent.allow {now : Instant} {entry : Bucket} (solvent : Solvent banSeconds now entry) :
    Solvent banSeconds now (entry.allow banSeconds now).2 := by
  have tokens : 0 ≤ entry.refilled now :=
    refill_nonneg (zero_le_one.trans solvent.rate) (zero_le_one.trans solvent.burst) solvent.tokens
  rcases entry.allow_cases banSeconds now with ⟨_, allowed⟩ | ⟨_, enough, allowed⟩ | ⟨_, _, _, allowed⟩ |
    ⟨ends, _, _, added, allowed⟩
  · rw [allowed]
    exact solvent
  · rw [allowed]
    refine ⟨solvent.rate, solvent.burst, sub_nonneg.mpr enough, le_rfl, ?_⟩
    intro ends banned
    cases banned
  · rw [allowed]
    refine ⟨solvent.rate, solvent.burst, tokens, le_rfl, ?_⟩
    intro ends banned
    cases banned
  · rw [allowed]
    refine ⟨solvent.rate, solvent.burst, tokens, le_rfl, ?_⟩
    intro other banned
    cases banned
    exact ((checkedAddSecs_eq_some_iff.mp added).2).le

theorem Solvent.allowed {latest now : Instant} {entry : Bucket} (solvent : Solvent banSeconds latest entry)
    (positive : 1 ≤ banSeconds) (waited : banEnd banSeconds latest ≤ now) :
    (entry.allow banSeconds now).1 = .allowed := by
  have free : entry.banned now = false := by
    rw [Bucket.banned]
    cases ban : entry.banUntil with
    | none => rfl
    | some ends =>
      rw [Option.any_some, decide_eq_false_iff_not, not_lt]
      exact (solvent.ban ends ban).trans waited
  have second : entry.level.counted + 1 ≤ seconds now := by
    have apart : latest + 10 ^ 9 ≤ now := by
      have one : (1 : Int) ≤ banSeconds := Int.ofNat_le.mpr positive
      have reach : latest + (banSeconds : Int) * 10 ^ 9 ≤ now := waited
      linarith
    have moved : seconds (latest + 10 ^ 9) = seconds latest + 1 := by
      simp only [seconds]
      push_cast
      ring
    have before : entry.level.counted ≤ seconds latest := seconds_le.mpr solvent.last
    have after := seconds_le.mpr apart
    linarith
  have enough : 1 ≤ entry.refilled now := one_le_refill solvent.rate solvent.burst solvent.tokens second
  rcases entry.allow_unbanned free banSeconds with ⟨_, allowed⟩ | ⟨short, _⟩
  · rw [allowed]
  · exact absurd enough short

def SolventAt (banSeconds : Nat) (latest : Instant) (place : Option Bucket) : Prop :=
  ∀ entry, place = some entry → Solvent banSeconds latest entry

theorem solvent_full {attempt : Attempt} (rate : 1 ≤ attempt.rate) (burst : 1 ≤ attempt.burst) :
    Solvent banSeconds attempt.now (.full attempt.rate attempt.burst attempt.now) := by
  refine ⟨rate, burst, zero_le_one.trans burst, le_rfl, ?_⟩
  intro ends banned
  cases banned

theorem SolventAt.consult {attempt : Attempt} {place : Option Bucket} (solvent : SolventAt banSeconds attempt.now place)
    (rate : 1 ≤ attempt.rate) (burst : 1 ≤ attempt.burst) :
    SolventAt banSeconds attempt.now (attempt.consult banSeconds place).2 := by
  intro entry held
  cases held
  cases place with
  | none => exact (solvent_full rate burst).allow
  | some old => exact (solvent old rfl).allow

theorem SolventAt.allowed {latest : Instant} {attempt : Attempt} {place : Option Bucket}
    (solvent : SolventAt banSeconds latest place) (burst : 1 ≤ attempt.burst) (positive : 1 ≤ banSeconds)
    (waited : banEnd banSeconds latest ≤ attempt.now) :
    (attempt.consult banSeconds place).1 = .allowed := by
  cases place with
  | none =>
    have free : (Bucket.full attempt.rate attempt.burst attempt.now).banned attempt.now = false := rfl
    have full : (Bucket.full attempt.rate attempt.burst attempt.now).refilled attempt.now = attempt.burst := by
      simp [Bucket.refilled, Bucket.full, Bucket.level, refill]
    rcases Bucket.allow_unbanned free banSeconds with ⟨_, allowed⟩ | ⟨short, _⟩
    · rw [Attempt.consult, Option.getD_none, allowed]
    · exact absurd (burst.trans full.ge) short
  | some entry => exact (solvent entry rfl).allowed positive waited

end Waiting

section Runs

/-- Every rate and the burst are worth a token. -/
structure Granting (cfg : RateLimitConfig) : Prop where
  shared : (1 : ℚ) ≤ cfg.perIpRps
  endpoints : ∀ endpoint : Endpoint, (1 : ℚ) ≤ cfg.endpointRps endpoint.label
  burst : (1 : ℚ) ≤ cfg.burst

theorem validate_granting {features : Features} {cfg : RelayConfig} (passed : cfg.validate features = .ok ())
    (enabled : cfg.rateLimit.enabled = true) : Granting cfg.rateLimit := by
  obtain ⟨shared, burst, push, pull, ack⟩ := (RelayConfig.validate_ok passed).rateLimit enabled
  refine ⟨Nat.one_le_cast.mpr shared, ?_, Nat.one_le_cast.mpr burst⟩
  intro endpoint
  cases endpoint with
  | push => exact Nat.one_le_cast.mpr push
  | pull => exact Nat.one_le_cast.mpr pull
  | ack => exact Nat.one_le_cast.mpr ack

variable {cfg : RateLimitConfig} {banSeconds : Nat} {ip : IpAddr}

/-- The buckets of an address, none of whose requests came later than the given instants. -/
structure SolventFor (banSeconds : Nat) (ip : IpAddr) (globalNow endpointNow : Instant) (limiter : RateLimiter) :
    Prop where
  shared : SolventAt banSeconds globalNow (limiter.buckets ⟨ip, "global"⟩)
  endpoints : ∀ endpoint : Endpoint, SolventAt banSeconds endpointNow (limiter.buckets ⟨ip, endpoint.label⟩)

theorem SolventFor.mono {limiter : RateLimiter} {globalNow endpointNow globalLater endpointLater : Instant}
    (solvent : SolventFor banSeconds ip globalNow endpointNow limiter) (shared : globalNow ≤ globalLater)
    (endpoints : endpointNow ≤ endpointLater) : SolventFor banSeconds ip globalLater endpointLater limiter :=
  ⟨fun entry held => (solvent.shared entry held).mono shared,
    fun endpoint entry held => (solvent.endpoints endpoint entry held).mono endpoints⟩

theorem SolventFor.enforce (granting : Granting cfg) {limiter : RateLimiter} (on : limiter.On banSeconds)
    {arrival : Arrival}
    (solvent : SolventFor banSeconds arrival.ip arrival.globalNow arrival.endpointNow limiter) :
    SolventFor banSeconds arrival.ip arrival.globalNow arrival.endpointNow (arrival.enforce cfg limiter).2 := by
  have first : SolventAt banSeconds arrival.globalNow
      ((arrival.globalAttempt cfg).consult banSeconds (limiter.buckets ⟨arrival.ip, "global"⟩)).2 :=
    SolventAt.consult solvent.shared granting.shared granting.burst
  have second : SolventAt banSeconds arrival.endpointNow
      ((arrival.endpointAttempt cfg).consult banSeconds (limiter.buckets ⟨arrival.ip, arrival.endpoint.label⟩)).2 :=
    SolventAt.consult (solvent.endpoints arrival.endpoint) (granting.endpoints arrival.endpoint) granting.burst
  have apart : ∀ endpoint : Endpoint, (⟨arrival.ip, endpoint.label⟩ : RateKey) ≠ ⟨arrival.ip, "global"⟩ :=
    fun endpoint => endpoint.key_ne_global arrival.ip
  have once : SolventFor banSeconds arrival.ip arrival.globalNow arrival.endpointNow { limiter with
      buckets := Function.update limiter.buckets ⟨arrival.ip, "global"⟩
        ((arrival.globalAttempt cfg).consult banSeconds (limiter.buckets ⟨arrival.ip, "global"⟩)).2 } := by
    constructor
    · simpa only [Function.update_self] using first
    · intro endpoint
      simpa only [Function.update_of_ne (apart endpoint)] using solvent.endpoints endpoint
  have twice : SolventFor banSeconds arrival.ip arrival.globalNow arrival.endpointNow { limiter with
      buckets := Function.update (Function.update limiter.buckets ⟨arrival.ip, "global"⟩
        ((arrival.globalAttempt cfg).consult banSeconds (limiter.buckets ⟨arrival.ip, "global"⟩)).2)
        ⟨arrival.ip, arrival.endpoint.label⟩
        ((arrival.endpointAttempt cfg).consult banSeconds
          (limiter.buckets ⟨arrival.ip, arrival.endpoint.label⟩)).2 } := by
    constructor
    · simpa only [Function.update_of_ne (apart arrival.endpoint).symm] using once.shared
    · intro endpoint
      by_cases same : (⟨arrival.ip, endpoint.label⟩ : RateKey) = ⟨arrival.ip, arrival.endpoint.label⟩
      · simpa only [same, Function.update_self] using second
      · simpa only [Function.update_of_ne same] using once.endpoints endpoint
  rcases @RateLimiter.enforce_cases cfg _ _ on arrival with ⟨_, _, accepted⟩ | ⟨_, _, left | left⟩
  · rw [accepted]
    exact twice
  · rw [left]
    exact once
  · rw [left]
    exact twice

/-- After any requests of an address in order, and whatever others send, its buckets are solvent. -/
theorem solvent_run (granting : Granting cfg) {arrivals : List Arrival}
    (ordered : (arrivals.filter (fun arrival => arrival.ip = ip)).Pairwise (fun earlier later =>
      earlier.globalNow ≤ later.globalNow ∧ earlier.endpointNow ≤ later.endpointNow))
    {globalNow endpointNow : Instant}
    (latest : ∀ arrival ∈ arrivals, arrival.ip = ip → arrival.globalNow ≤ globalNow ∧ arrival.endpointNow ≤ endpointNow) :
    SolventFor banSeconds ip globalNow endpointNow (final (RateLimiter.enforce cfg) (.new true banSeconds) arrivals) := by
  induction arrivals using List.reverseRecOn generalizing globalNow endpointNow with
  | nil =>
    constructor
    · intro entry held
      cases held
    · intro endpoint entry held
      cases held
  | append_singleton arrivals arrival ih =>
    have on := @enforce_run_on cfg banSeconds arrivals
    rw [List.filter_append, List.pairwise_append] at ordered
    rw [final_snoc]
    by_cases own : arrival.ip = ip
    · subst own
      obtain ⟨shared, endpoints⟩ := latest arrival (by simp) rfl
      have before := @ih ordered.1 arrival.globalNow arrival.endpointNow (fun earlier member same =>
        ordered.2.2 earlier (by simpa using ⟨member, same⟩) arrival (by simp))
      exact (SolventFor.enforce granting on before).mono shared endpoints
    · have before := @ih ordered.1 globalNow endpointNow
        (fun earlier member => latest earlier (List.mem_append_left _ member))
      constructor
      · rw [RateLimiter.enforce, RateLimiter.enforce_other on arrival own]
        exact before.shared
      · intro endpoint
        rw [RateLimiter.enforce, RateLimiter.enforce_other on arrival own]
        exact before.endpoints endpoint

theorem SolventFor.accepted {limiter : RateLimiter} (granting : Granting cfg) (on : limiter.On banSeconds)
    (positive : 1 ≤ banSeconds) {arrival : Arrival} {globalNow endpointNow : Instant}
    (solvent : SolventFor banSeconds arrival.ip globalNow endpointNow limiter)
    (shared : banEnd banSeconds globalNow ≤ arrival.globalNow)
    (endpoints : banEnd banSeconds endpointNow ≤ arrival.endpointNow) :
    (arrival.enforce cfg limiter).1 = some (.ok ()) := by
  have first := @SolventAt.allowed _ _ (arrival.globalAttempt cfg) _ solvent.shared granting.burst positive shared
  have second := @SolventAt.allowed _ _ (arrival.endpointAttempt cfg) _ (solvent.endpoints arrival.endpoint)
    granting.burst positive endpoints
  rcases @RateLimiter.enforce_cases cfg _ _ on arrival with ⟨_, _, accepted⟩ | ⟨failed | failed, _⟩
  · rw [accepted]
  · exact absurd first failed
  · exact absurd second failed

theorem latest_of_ordered {arrivals : List Arrival} (ordered : arrivals.Pairwise (fun earlier later =>
      earlier.globalNow ≤ later.globalNow ∧ earlier.endpointNow ≤ later.endpointNow))
    {earlier : Arrival} (member : earlier ∈ arrivals) :
    ∃ last, arrivals.getLast? = some last ∧ earlier.globalNow ≤ last.globalNow ∧
      earlier.endpointNow ≤ last.endpointNow := by
  cases ends : arrivals.getLast? with
  | none =>
    rw [List.getLast?_eq_none_iff.mp ends] at member
    cases member
  | some last =>
    obtain ⟨front, rfl⟩ := List.getLast?_eq_some_iff.mp ends
    refine ⟨last, rfl, ?_⟩
    rcases List.mem_append.mp member with before | here
    · exact (List.pairwise_append.mp ordered).2.2 earlier before last List.mem_cons_self
    · rw [List.mem_singleton.mp here]
      exact ⟨le_rfl, le_rfl⟩

end Runs

section Requests

variable {cfg : RateLimitConfig} {banSeconds : Nat} {limiter : RateLimiter}

/-- The request is told that it is over the limit. It goes without an answer only when its call to the other bucket
    panics. -/
def TurnedAway (cfg : RateLimitConfig) (key : RateKey) (request : Handled) : Prop :=
  request.output = some (.error .rateLimited) ∨
    request.output = none ∧ ∃ other ∈ callsOf cfg request, other.input.key ≠ key ∧ other.output = .panicked

theorem turnedAway (on : limiter.On banSeconds) {arrival : Arrival} {call : Step RateLimiter Attempt Verdict}
    (member : call ∈ callsOf cfg (taken (RateLimiter.enforce cfg) limiter arrival)) (refused : call.output = .refused) :
    TurnedAway cfg call.input.key (taken (RateLimiter.enforce cfg) limiter arrival) := by
  have output : (taken (RateLimiter.enforce cfg) limiter arrival).output =
      answerOf ((callsOf cfg (taken (RateLimiter.enforce cfg) limiter arrival)).map Step.output) :=
    congrArg Prod.fst (enforce_calls on arrival)
  by_cases panicked : .panicked ∈ (callsOf cfg (taken (RateLimiter.enforce cfg) limiter arrival)).map Step.output
  · right
    obtain ⟨other, listed, same⟩ := List.mem_map.mp panicked
    refine ⟨by rw [output, answerOf_eq_none]; exact panicked, other, listed, ?_, same⟩
    intro key
    rw [callsOf_key member listed key, refused] at same
    cases same
  · left
    have told : .refused ∈ (callsOf cfg (taken (RateLimiter.enforce cfg) limiter arrival)).map Step.output :=
      List.mem_map.mpr ⟨call, member, refused⟩
    rw [output, answerOf, if_neg panicked, if_pos told]

theorem call_split {arrivals : List Arrival} {past rest : List Handled} {request : Handled}
    {call : Step RateLimiter Attempt Verdict}
    (split : trace (RateLimiter.enforce cfg) (.new true banSeconds) arrivals = past ++ request :: rest)
    (member : call ∈ callsOf cfg request) : ∃ front back,
      trace RateLimiter.attempt (.new true banSeconds) (attemptsOf cfg (.new true banSeconds) arrivals) =
        (past.flatMap (callsOf cfg) ++ front) ++ call :: (back ++ rest.flatMap (callsOf cfg)) ∧
      ∀ earlier ∈ front, earlier ∈ callsOf cfg request := by
  obtain ⟨front, back, calls⟩ := List.append_of_mem member
  refine ⟨front, back, ?_, fun earlier listed => calls ▸ List.mem_append_left _ listed⟩
  rw [attemptsOf_trace (RateLimiter.new_on banSeconds), split, List.flatMap_append, List.flatMap_cons, calls]
  simp

section Ban

variable {arrivals : List Arrival} {past rest : List Handled} {request : Handled}
  {call : Step RateLimiter Attempt Verdict}

theorem request_refused
    (split : trace (RateLimiter.enforce cfg) (.new true banSeconds) arrivals = past ++ request :: rest)
    (member : call ∈ callsOf cfg request) (refused : call.output = .refused) :
    TurnedAway cfg call.input.key request := by
  obtain ⟨earlier, _, _, _, same, _⟩ := trace_split _ split
  rw [same] at member ⊢
  exact turnedAway (enforce_run_on earlier) member refused

theorem request_begun (positive : 1 ≤ banSeconds)
    (split : trace (RateLimiter.enforce cfg) (.new true banSeconds) arrivals = past ++ request :: rest)
    (member : call ∈ callsOf cfg request) (refused : call.output = .refused) :
    ∃ earlier ∈ past ++ [request], ∃ began ∈ callsOf cfg earlier, Begins began ∧ began.input.key = call.input.key ∧
      call.input.now < banEnd banSeconds began.input.now := by
  obtain ⟨front, back, calls, own⟩ := call_split split member
  obtain ⟨began, listed, begins, key, inside⟩ := limiter_refusal_begun positive calls refused
  rcases List.mem_append.mp listed with before | last
  · rcases List.mem_append.mp before with earlier | first
    · obtain ⟨other, among, called⟩ := List.mem_flatMap.mp earlier
      exact ⟨other, List.mem_append_left _ among, began, called, begins, key, inside⟩
    · exact ⟨request, List.mem_append_right _ List.mem_cons_self, began, own began first, begins, key, inside⟩
  · rw [List.mem_singleton.mp last] at begins inside
    exact ⟨request, List.mem_append_right _ List.mem_cons_self, call, member, begins, rfl, inside⟩

/-- A ban turns away all requests that consult its bucket, and they leave the bucket as it is. -/
theorem request_ban_holds
    (ordered : (arrivals.filter (fun arrival => arrival.ip = request.input.ip)).Pairwise (fun earlier later =>
      earlier.globalNow ≤ later.globalNow ∧ earlier.endpointNow ≤ later.endpointNow))
    (split : trace (RateLimiter.enforce cfg) (.new true banSeconds) arrivals = past ++ request :: rest)
    (member : call ∈ callsOf cfg request) (begins : Begins call) {later : Handled} (among : later ∈ rest)
    {again : Step RateLimiter Attempt Verdict} (called : again ∈ callsOf cfg later)
    (key : again.input.key = call.input.key) (inside : again.input.now < banEnd banSeconds call.input.now) :
    again.output = .refused ∧ TurnedAway cfg call.input.key later ∧
      later.after.buckets call.input.key = later.before.buckets call.input.key := by
  obtain ⟨front, back, calls, _⟩ := call_split split member
  obtain ⟨_, _, _, _, same, _⟩ := trace_split _ split
  have ip : call.input.key.ip = request.input.ip := by
    rw [same] at member
    rcases mem_callsOf member with rfl | rfl <;> rfl
  obtain ⟨refused, still⟩ := limiter_ban_holds (@attemptsOf_ordered _ call.input.key _ (ip ▸ ordered) _) calls begins
    again (List.mem_append_right _ (List.mem_flatMap.mpr ⟨later, among, called⟩)) key inside
  have listed : later ∈ trace (RateLimiter.enforce cfg) (.new true banSeconds) arrivals :=
    split ▸ List.mem_append_right _ (List.mem_cons_of_mem _ among)
  obtain ⟨before, _, _, here⟩ := trace_member _ listed
  rw [here] at called ⊢
  refine ⟨refused, key ▸ turnedAway (enforce_run_on before) called refused, ?_⟩
  apply callsOf_frame (enforce_run_on before)
  intro other among otherKey
  rw [callsOf_key called among (otherKey.trans key.symm)]
  exact still

end Ban

end Requests

/-- Bans hold and end. A call that is refused begins a ban, unless it falls into one, and its request is turned away.
    Until a ban that began at `now` is over, every request that consults its bucket is turned away and leaves the bucket
    as it is, so that no request extends the ban; and a request whose address has been silent for as long as a ban takes
    is accepted. -/
theorem bans_hold_and_end {features : Features} {cfg : RelayConfig} (passed : cfg.validate features = .ok ())
    (enabled : cfg.rateLimit.enabled = true) (positive : 1 ≤ cfg.rateLimit.banSeconds) (ip : IpAddr)
    (arrivals : List Arrival)
    (ordered : (arrivals.filter (fun arrival => arrival.ip = ip)).Pairwise (fun earlier later =>
      earlier.globalNow ≤ later.globalNow ∧ earlier.endpointNow ≤ later.endpointNow)) :
    let limiter := RateLimiter.new cfg.rateLimit.enabled cfg.rateLimit.banSeconds
    let ends := banEnd cfg.rateLimit.banSeconds
    (∀ past request rest,
      trace (RateLimiter.enforce cfg.rateLimit) limiter arrivals = past ++ request :: rest → request.input.ip = ip →
      ∀ call ∈ callsOf cfg.rateLimit request, call.output = .refused →
        TurnedAway cfg.rateLimit call.input.key request ∧
        (∃ earlier ∈ past ++ [request], ∃ began ∈ callsOf cfg.rateLimit earlier, Begins began ∧
          began.input.key = call.input.key ∧ call.input.now < ends began.input.now) ∧
        (Begins call → ∀ later ∈ rest, ∀ again ∈ callsOf cfg.rateLimit later, again.input.key = call.input.key →
          again.input.now < ends call.input.now →
            again.output = .refused ∧ TurnedAway cfg.rateLimit call.input.key later ∧
              later.after.buckets call.input.key = later.before.buckets call.input.key)) ∧
    ∀ past arrival rest, arrivals = past ++ arrival :: rest → arrival.ip = ip →
      (∀ previous, (past.filter (fun earlier => earlier.ip = ip)).getLast? = some previous →
        ends previous.globalNow ≤ arrival.globalNow ∧ ends previous.endpointNow ≤ arrival.endpointNow) →
      (arrival.enforce cfg.rateLimit (final (RateLimiter.enforce cfg.rateLimit) limiter past)).1 = some (.ok ()) := by
  intro limiter ends
  have switched : limiter = .new true cfg.rateLimit.banSeconds := by rw [← enabled]
  rw [switched]
  constructor
  · intro past request rest split own call member refused
    subst own
    refine ⟨request_refused split member refused, request_begun positive split member refused, ?_⟩
    intro begins later among again called key inside
    exact request_ban_holds ordered split member begins among called key inside
  · intro past arrival rest split own waited
    subst split own
    have granting := validate_granting passed enabled
    rw [List.filter_append, List.pairwise_append] at ordered
    have silent : ∀ earlier ∈ past, earlier.ip = arrival.ip →
        earlier.globalNow ≤ arrival.globalNow - cfg.rateLimit.banSeconds * 10 ^ 9 ∧
          earlier.endpointNow ≤ arrival.endpointNow - cfg.rateLimit.banSeconds * 10 ^ 9 := by
      intro earlier member same
      obtain ⟨previous, final_, shared, endpoints⟩ := latest_of_ordered ordered.1
        (List.mem_filter.mpr ⟨member, decide_eq_true same⟩)
      obtain ⟨sharedEnd, endpointsEnd⟩ := waited previous final_
      exact ⟨shared.trans (Int.le_sub_right_of_add_le sharedEnd),
        endpoints.trans (Int.le_sub_right_of_add_le endpointsEnd)⟩
    have solvent := @solvent_run _ cfg.rateLimit.banSeconds _ granting _ ordered.1
      (arrival.globalNow - cfg.rateLimit.banSeconds * 10 ^ 9) (arrival.endpointNow - cfg.rateLimit.banSeconds * 10 ^ 9)
      silent
    exact solvent.accepted granting (enforce_run_on past) positive (Int.sub_add_cancel _ _).le (Int.sub_add_cancel _ _).le

def sampleBans : RelayConfig where
  rateLimit := { burst := 1 }

def sampleHammering : List Arrival := [sampleArrival .push 0, sampleArrival .push 0, sampleArrival .push 10]

/-- The third push falls into the ban that the second one has begun; the next one comes when it is over. -/
theorem bans_hold_and_end_sample :
    let limiter := RateLimiter.new sampleBans.rateLimit.enabled sampleBans.rateLimit.banSeconds
    let after := fun earlier => final (RateLimiter.enforce sampleBans.rateLimit) limiter (sampleHammering.take earlier)
    TurnedAway sampleBans.rateLimit ⟨.localhost, "global"⟩
        (taken (RateLimiter.enforce sampleBans.rateLimit) (after 2) (sampleArrival .push 10)) ∧
      ((sampleArrival .push 310).enforce sampleBans.rateLimit (after 3)).1 = some (.ok ()) := by
  intro limiter after
  have passed : sampleBans.validate ⟨false, true⟩ = .ok () := by decide
  obtain ⟨held, ended⟩ := bans_hold_and_end passed rfl (by decide) .localhost
    (sampleHammering ++ [sampleArrival .push 310]) (by decide)
  constructor
  · have first : ∀ (current : RateLimiter) (arrival : Arrival),
        taken RateLimiter.attempt current (arrival.globalAttempt sampleBans.rateLimit) ∈
          callsOf sampleBans.rateLimit (taken (RateLimiter.enforce sampleBans.rateLimit) current arrival) := by
      intro current arrival
      rw [callsOf, Arrival.attempts]
      split <;> exact List.mem_cons_self
    obtain ⟨_, _, holds⟩ := held (trace (RateLimiter.enforce sampleBans.rateLimit) limiter [sampleArrival .push 0]) _ _ rfl
      rfl _ (first (after 1) (sampleArrival .push 0)) (by decide +kernel)
    exact (holds ⟨by decide +kernel, by decide +kernel⟩ _ List.mem_cons_self _
      (first (after 2) (sampleArrival .push 10)) rfl (by decide +kernel)).2.1
  · apply ended sampleHammering (sampleArrival .push 310) [] rfl rfl
    intro previous last
    cases (Option.some.inj last : sampleArrival .push 10 = previous)
    decide

end EnigmaRelay
