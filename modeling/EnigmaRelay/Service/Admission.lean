import EnigmaRelay.Foundation.Totals
import EnigmaRelay.Limiter.Admission
import EnigmaRelay.Service.Linear

open Std Machine Totals Linearization

namespace EnigmaRelay.Service

section Limiter

variable {limiter : RateLimiter} {banSeconds : Nat}

theorem attempts_bounded (on : limiter.On banSeconds) {key : RateKey} (unused : limiter.buckets key = none)
    {rate burst : ℚ} (positive : 0 ≤ rate) (full : 0 ≤ burst) {earliest latest : Instant} (ordered : earliest ≤ latest)
    {attempts : List Attempt}
    (each : ∀ event ∈ trace RateLimiter.attempt limiter attempts, event.input.key = key →
      (event.input.rate = rate ∧ event.input.burst = burst) ∧
        (earliest ≤ event.input.now ∧ event.input.now ≤ latest) ∧
        event.input.forward (event.before.buckets key) = true) :
    ((trace RateLimiter.attempt limiter attempts).countP
      (fun event => event.input.key = key && event.output = .allowed) : ℚ) ≤
      burst + rate * (seconds latest - seconds earliest) := by
  have seen := (RateLimiter.attempt_separate banSeconds).trace_seenBy on attempts key
  rw [unused] at seen
  have asked : ∀ attempt ∈ attempts.filter (fun attempt => attempt.key = key),
      ∃ event ∈ trace RateLimiter.attempt limiter attempts, event.input = attempt ∧ attempt.key = key := by
    intro attempt member
    obtain ⟨listed, own⟩ := List.mem_filter.mp member
    rw [← trace_inputs RateLimiter.attempt limiter attempts] at listed
    obtain ⟨event, happened, same⟩ := List.mem_map.mp listed
    exact ⟨event, happened, same, of_decide_eq_true own⟩
  have bounded := consult_bounded positive full banSeconds ordered
    (fun attempt member => by
      obtain ⟨event, happened, rfl, own⟩ := asked attempt member
      exact (each event happened own).1)
    (fun attempt member => by
      obtain ⟨event, happened, rfl, own⟩ := asked attempt member
      exact (each event happened own).2.1)
    (fun event member => by
      rw [← seen] at member
      obtain ⟨whole, kept, rfl⟩ := List.mem_map.mp member
      obtain ⟨happened, own⟩ := List.mem_filter.mp kept
      exact (each whole happened (of_decide_eq_true own)).2.2)
  rw [← seen, List.countP_map, List.countP_filter] at bounded
  refine le_of_eq_of_le (congrArg Nat.cast (List.countP_congr ?_)) bounded
  intro event _
  simp only [Bool.and_eq_true, decide_eq_true_eq, Function.comp_apply]
  exact and_comm

end Limiter

section Relay

variable {σ : Type}

def mover (event : Event σ) : Option RequestTask :=
  match event.input with
  | .advance id _ => event.before.tasks[id]?
  | _ => none

/-- The step is a move of a request for which `what` holds of what the step makes visible. -/
def moves (what : RequestTask → Told → Bool) (event : Event σ) : Bool :=
  (mover event).any (fun task => what task event.output)

def admits (kind : IpAddr → Payload → Bool) (task : RequestTask) (told : Told) : Bool :=
  kind task.ip task.payload && told.admission.any (fun admission => admission.2)

def calls (kind : IpAddr → Payload → Bool) (task : RequestTask) (told : Told) : Bool :=
  kind task.ip task.payload && told.called.isSome

def allows (key : RateKey) (told : Told) : Bool :=
  told.asked.any (fun pair => pair.1.key = key && pair.2 = .allowed)

def pending (kind : IpAddr → Payload → Bool) (task : RequestTask) : Nat :=
  match task.stage with
  | .admitted => (kind task.ip task.payload).toNat
  | .counted => (kind task.ip task.payload).toNat
  | _ => 0

def granted (kind : IpAddr → Payload → Bool) (task : RequestTask) : Nat :=
  match task.stage with
  | .halfway true => (kind task.ip task.payload).toNat
  | _ => 0

variable [Base64] {backend : RelayStore σ} {cfg : RelayConfig}

section Moves

variable {held : RequestTask → Nat} {spends earns : RequestTask → Told → Bool}

theorem Steps.spending (silent : ∀ task : RequestTask, spends task {} = false)
    (waiting : ∀ task : RequestTask, task.stage = .arrived ∨ task.stage = .gone → held task = 0)
    {service after : Service σ} {choice : Choice} {told : Told} (steps : Steps backend cfg service choice (told, after))
    (each : ∀ (task : RequestTask) (stage : Stage) (performed : Service σ),
      Performs backend cfg task service (told, stage, performed) →
        (spends task told).toNat + held { task with stage := stage } ≤ held task + (earns task told).toNat) :
    (moves spends ⟨service, choice, told, after⟩).toNat + total held after.tasks ≤
      total held service.tasks + (moves earns ⟨service, choice, told, after⟩).toNat := by
  cases steps with
  | idle =>
    have nothing : moves spends ⟨service, choice, {}, service⟩ = false := by
      rw [moves]
      cases mover (⟨service, choice, {}, service⟩ : Event σ) with
      | none => rfl
      | some task => exact silent task
    rw [nothing, Bool.toNat_false]
    omega
  | arrived id peerAddr payload fresh =>
    have added := total_insert_new held ⟨peerIp peerAddr, payload, .arrived⟩ fresh
    rw [waiting _ (.inl rfl), Nat.zero_add] at added
    exact Nat.le_of_eq ((Nat.zero_add _).trans added)
  | advanced id moment task running told stage performed performs =>
    have replaced := total_insert held { task with stage := stage } running
    have covered := each task stage performed performs
    have moved : ∀ what : RequestTask → Told → Bool, moves what (⟨service, .advance id moment, told,
        { performed with tasks := service.tasks.insert id { task with stage := stage } }⟩ : Event σ) =
          what task told := by
      intro what
      change (service.tasks[id]?).any (fun task => what task told) = _
      rw [running, Option.any_some]
    rw [moved, moved]
    dsimp only
    omega
  | dropped id task running here =>
    have replaced := total_insert held { task with stage := .gone } running
    rw [waiting { task with stage := .gone } (.inr rfl), Nat.add_zero] at replaced
    have less := Nat.le.intro replaced
    exact (Nat.zero_add _).trans_le less
  | collected => exact Nat.le_of_eq (Nat.zero_add _)
  | tallied => exact Nat.le_of_eq (Nat.zero_add _)

variable (backend cfg)

theorem asks_embed : Embeds (step cfg backend) RateLimiter.attempt Service.limiter Told.asked := by
  constructor
  · intro service choice silent
    have steps := step_spec backend cfg service choice
    rcases stepped : step cfg backend service choice with ⟨told, after⟩
    rw [stepped] at steps silent
    cases steps with
    | advanced id moment task running told stage performed performs => cases performs <;> first | rfl | cases silent
    | _ => rfl
  · intro service choice attempt verdict asked
    have steps := step_spec backend cfg service choice
    rcases stepped : step cfg backend service choice with ⟨told, after⟩
    rw [stepped] at steps asked
    cases steps with
    | advanced id moment task running told stage performed performs =>
      cases performs with
      | asked here now verdict limiter answer => cases asked; exact answer
      | panicked globalOk here now limiter answer => cases asked; exact answer
      | passed here now limiter answer => cases asked; exact answer
      | refused globalOk here now verdict limiter answer => cases asked; exact answer
      | _ => cases asked
    | _ => cases asked

theorem run_limiter (enabled : cfg.rateLimit.enabled = true) (store : σ) {choices : List Choice} {event : Event σ}
    (member : event ∈ trace (step cfg backend) (start cfg store) choices) :
    event.before.limiter.On cfg.rateLimit.banSeconds := by
  obtain ⟨earlier, _, _, same⟩ := trace_member (step cfg backend) member
  have before : event.before = final (step cfg backend) (start cfg store) earlier := congrArg Step.before same
  have first : (start cfg store).limiter.On cfg.rateLimit.banSeconds := ⟨enabled, rfl⟩
  rw [before, ← ((asks_embed backend cfg).run (start cfg store) earlier).1]
  exact invariant_run RateLimiter.attempt (RateLimiter.attempt_separate cfg.rateLimit.banSeconds).kept _ first

theorem asked_rate (service : Service σ) (choice : Choice) {attempt : Attempt} {verdict : Verdict}
    (asked : (step cfg backend service choice).1.asked = some (attempt, verdict)) :
    attempt.rate = cfg.rateLimit.endpointRps attempt.label ∧ attempt.burst = cfg.rateLimit.burst := by
  have steps := step_spec backend cfg service choice
  rcases stepped : step cfg backend service choice with ⟨told, after⟩
  rw [stepped] at steps asked
  cases steps with
  | advanced id moment task running told stage performed performs =>
    cases performs <;> cases asked <;> exact ⟨rfl, rfl⟩
  | _ => cases asked

theorem run_spending (silent : ∀ task : RequestTask, spends task {} = false)
    (waiting : ∀ task : RequestTask, task.stage = .arrived ∨ task.stage = .gone → held task = 0)
    (store : σ) (choices : List Choice)
    (each : ∀ event ∈ trace (step cfg backend) (start cfg store) choices,
      ∀ (task : RequestTask) (told : Told) (stage : Stage) (performed : Service σ),
        Performs backend cfg task event.before (told, stage, performed) →
          (spends task told).toNat + held { task with stage := stage } ≤ held task + (earns task told).toNat) :
    (trace (step cfg backend) (start cfg store) choices).countP (moves spends) ≤
      (trace (step cfg backend) (start cfg store) choices).countP (moves earns) := by
  have covered := @spending_run _ _ _ (step cfg backend) (fun service => total held service.tasks) (moves spends)
    (moves earns) (start cfg store) choices (fun event member => by
      have steps := step_spec backend cfg event.before event.input
      have shape := (trace_event (step cfg backend) member).2
      have bounded := steps.spending silent waiting (fun task stage performed => each event member task _ stage performed)
      rw [← shape]
      exact bounded)
  have nothing : total held (start cfg store).tasks = 0 := total_empty held
  rw [nothing, Nat.zero_add] at covered
  exact (Nat.le_add_right _ _).trans covered

end Moves

section Kinds

variable {task : RequestTask} {service after : Service σ} {told : Told} {stage : Stage}

theorem Performs.calls_pending (performs : Performs backend cfg task service (told, stage, after))
    (kind : IpAddr → Payload → Bool) : (calls kind task told).toNat + pending kind { task with stage := stage } ≤
      pending kind task + (admits kind task told).toNat := by
  obtain ⟨ip, payload, old⟩ := task
  cases performs with
  | waived here => cases here; simp [calls, admits, pending]
  | asked here now verdict limiter answer =>
    cases here
    by_cases panicked : verdict = .panicked <;> simp [calls, pending, panicked]
  | panicked globalOk here => cases here; simp [calls, pending]
  | passed here => cases here; simp [calls, admits, pending]
  | refused globalOk here => cases here; simp [calls, pending]
  | totalled here => cases here; simp [calls, pending]
  | turnedDown here message => cases here; simp [calls, pending]
  | called here moment call made => cases here; simp [calls, pending]
  | raised counter amount due reply here => cases here; simp [calls, pending]
  | finished here => simp [calls]

theorem Performs.admits_granted (performs : Performs backend cfg task service (told, stage, after))
    (enabled : service.limiter.enabled = true) (ip : IpAddr) :
    (admits (fun other _ => other = ip) task told).toNat +
        granted (fun other _ => other = ip) { task with stage := stage } ≤
      granted (fun other _ => other = ip) task + (allows ⟨ip, "global"⟩ told).toNat := by
  obtain ⟨own, payload, old⟩ := task
  cases performs with
  | waived here off =>
    rw [enabled] at off
    cases off
  | asked here now verdict limiter answer =>
    cases here
    cases verdict <;> simp [admits, granted, allows, globalAttempt, Attempt.key]
  | panicked globalOk here => cases here; simp [admits, granted]
  | passed here => cases here; simp [admits, granted]
  | refused globalOk here => cases here; simp [admits, granted]
  | totalled here => cases here; simp [admits, granted]
  | turnedDown here message => cases here; simp [admits, granted]
  | called here moment call made => cases here; simp [admits, granted]
  | raised counter amount due reply here => cases here; simp [admits, granted]
  | finished here => simp [admits]

theorem Performs.admits_endpoint (performs : Performs backend cfg task service (told, stage, after))
    (enabled : service.limiter.enabled = true) (ip : IpAddr) (label : String) :
    (admits (fun other payload => other = ip && payload.label = label) task told).toNat ≤
      (allows ⟨ip, label⟩ told).toNat := by
  cases performs with
  | waived here off =>
    rw [enabled] at off
    cases off
  | passed here => simp [admits, allows, endpointAttempt, Attempt.key]
  | _ => simp [admits]

end Kinds

section Bounds

variable (backend cfg)

theorem allows_bounded (enabled : cfg.rateLimit.enabled = true) (store : σ) (choices : List Choice) (key : RateKey)
    {earliest latest : Instant} (ordered : earliest ≤ latest)
    (each : ∀ event ∈ trace (step cfg backend) (start cfg store) choices, ∀ asked ∈ event.output.asked,
      asked.1.key = key → (earliest ≤ asked.1.now ∧ asked.1.now ≤ latest) ∧
        asked.1.forward (event.before.limiter.buckets key) = true) :
    ((trace (step cfg backend) (start cfg store) choices).countP (fun event => allows key event.output) : ℚ) ≤
      cfg.rateLimit.burst + cfg.rateLimit.endpointRps key.label * (seconds latest - seconds earliest) := by
  have embedded := asks_embed backend cfg
  have counted : _ = (trace (step cfg backend) (start cfg store) choices).countP (fun event => allows key event.output) :=
    embedded.countP (start cfg store) choices (fun pair => pair.1.key = key && pair.2 = .allowed)
  have on : (start cfg store).limiter.On cfg.rateLimit.banSeconds := ⟨enabled, rfl⟩
  rw [← counted]
  apply attempts_bounded on rfl (by positivity) (by positivity) ordered
  intro inner member own
  rw [(embedded.trace_inside (start cfg store) choices).2] at member
  obtain ⟨event, happened, seen⟩ := List.mem_filterMap.mp member
  obtain ⟨⟨attempt, verdict⟩, asked, rfl⟩ := Option.map_eq_some_iff.mp seen
  dsimp only at own ⊢
  refine ⟨?_, each event happened _ asked own⟩
  have shape := (trace_event (step cfg backend) happened).2
  rw [← shape] at asked
  obtain ⟨rate, burst⟩ := asked_rate backend cfg event.before event.input asked
  rw [rate, burst, ← own]
  exact ⟨rfl, rfl⟩

/-- However the requests of an address interleave with all others: those that call the store have been admitted, and
    those that have been admitted are no more than the burst and the inflow of their two buckets, as long as no call
    sets the clock of a bucket back. -/
theorem address_bounded (enabled : cfg.rateLimit.enabled = true) (store : σ) (choices : List Choice) (ip : IpAddr)
    {earliest latest : Instant} (ordered : earliest ≤ latest)
    (span : ∀ event ∈ trace (step cfg backend) (start cfg store) choices, ∀ asked ∈ event.output.asked,
      asked.1.ip = ip → earliest ≤ asked.1.now ∧ asked.1.now ≤ latest)
    (forward : ∀ event ∈ trace (step cfg backend) (start cfg store) choices, ∀ asked ∈ event.output.asked,
      asked.1.ip = ip → asked.1.forward (event.before.limiter.buckets asked.1.key) = true) :
    let events := trace (step cfg backend) (start cfg store) choices
    let inflow : Nat → ℚ := fun rate => cfg.rateLimit.burst + rate * (seconds latest - seconds earliest)
    events.countP (moves (calls (fun other _ => other = ip))) ≤
        events.countP (moves (admits (fun other _ => other = ip))) ∧
      events.countP (moves (admits (fun other _ => other = ip))) ≤ inflow cfg.rateLimit.perIpRps ∧
      ∀ label : String, events.countP (moves (admits (fun other payload => other = ip && payload.label = label))) ≤
        inflow (cfg.rateLimit.endpointRps label) := by
  intro events inflow
  have bounded := fun label : String => allows_bounded backend cfg enabled store choices ⟨ip, label⟩ ordered
    (fun event member asked told own => by
      have here : asked.1.ip = ip := congrArg RateKey.ip own
      have ahead := forward event member asked told here
      rw [own] at ahead
      exact ⟨span event member asked told here, ahead⟩)
  have limited : ∀ event ∈ events, event.before.limiter.enabled = true :=
    fun event member => (run_limiter backend cfg enabled store member).enabled
  have allowed : ∀ label : String, events.countP (moves (fun _ told => allows ⟨ip, label⟩ told)) ≤
      events.countP (fun event => allows ⟨ip, label⟩ event.output) := by
    intro label
    apply List.countP_mono_left
    intro event _ moved
    obtain ⟨task, _, told⟩ := (Option.any_eq_true _ _).mp moved
    exact told
  have idle : ∀ task : RequestTask, task.stage = .arrived ∨ task.stage = .gone →
      pending (fun other _ => other = ip) task = 0 ∧ granted (fun other _ => other = ip) task = 0 := by
    intro task stage
    rcases stage with stage | stage <;> simp [pending, granted, stage]
  refine ⟨?_, ?_, ?_⟩
  · exact @run_spending _ _ backend cfg (pending (fun other _ => other = ip)) _ _ (by simp [calls])
      (fun task stage => (idle task stage).1) store choices
      (fun event _ task told stage performed performs => performs.calls_pending _)
  · have admitted := @run_spending _ _ backend cfg (granted (fun other _ => other = ip))
      (admits (fun other _ => other = ip)) (fun _ told => allows ⟨ip, "global"⟩ told) (by simp [admits])
      (fun task stage => (idle task stage).2) store choices
      (fun event member task told stage performed performs => performs.admits_granted (limited event member) ip)
    exact (Nat.cast_le.mpr (admitted.trans (allowed "global"))).trans (bounded "global")
  · intro label
    have admitted := @run_spending _ _ backend cfg (fun _ => 0)
      (admits (fun other payload => other = ip && payload.label = label)) (fun _ told => allows ⟨ip, label⟩ told)
      (by simp [admits]) (fun _ _ => rfl) store choices
      (fun event member task told stage performed performs => by
        have passed := performs.admits_endpoint (limited event member) ip label
        omega)
    exact (Nat.cast_le.mpr (admitted.trans (allowed label))).trans (bounded label)

end Bounds

end Relay

def samplePulls : List Choice :=
  [.arrive 0 none (.pull ⟨"alice", none, none⟩), .arrive 1 none (.pull ⟨"bob", none, none⟩),
    .advance 0 ⟨0, 0, .asListed⟩, .advance 1 ⟨0, 0, .asListed⟩, .advance 1 ⟨10 ^ 9, 0, .asListed⟩,
    .advance 0 ⟨10 ^ 9, 0, .asListed⟩]

theorem address_bounded_sample :
    ((trace (step {} MemStore.relayStore) (start {} MemStore.new) samplePulls).countP
      (moves (admits (fun other _ => other = .localhost))) : ℚ) ≤ 40 + 20 * (seconds (10 ^ 9) - seconds 0) :=
  (@address_bounded _ _ MemStore.relayStore {} rfl MemStore.new samplePulls .localhost 0 (10 ^ 9) (by decide)
    (by decide +kernel) (by decide +kernel)).2.1

end EnigmaRelay.Service
