import EnigmaRelay.Foundation.Linearization
import EnigmaRelay.Model.Service
import EnigmaRelay.Model.Standard

open Std Machine Linearization

namespace EnigmaRelay

section Handlers

theorem Server.buildInboundMessage_error [Base64] {limits : RelayLimits} {body : PushRequest} {nowMillis : Nat}
    {err : EnigmaRelayError} (failed : buildInboundMessage body limits nowMillis = .error err) :
    ∃ message, err = .invalidInput message := by
  simp only [buildInboundMessage] at failed
  repeat' split at failed
  all_goals cases failed
  all_goals exact ⟨_, rfl⟩

theorem Payload.counts_fail (payload : Payload) (err : EnigmaRelayError) : (payload.fail err).counts = [] := by
  cases payload <;> rfl

variable [Base64] {σ : Type} (backend : RelayStore σ) (limits : RelayLimits)

/-- The answer that a handler makes of the store's. -/
def Outcome.respond : Outcome → Server.Response
  | .push result => .push (result.map (fun result =>
      { stored := result.stored, duplicate := result.duplicate,
        queueLen := some result.queueLen, queueBytes := some result.queueBytes }))
  | .pull result => .pull (result.map (fun batch =>
      { items := batch.items.map Server.toDelivery, nextCursor := batch.nextCursor,
        remainingEstimate := batch.remainingEstimate }))
  | .ack result => .ack (result.map (fun outcome =>
      { deleted := outcome.deleted, missing := outcome.missing, remaining := outcome.remaining }))
  | .purgeExpired result => .purgeExpired result

theorem handle_reply (payload : Payload) (nowMillis : Nat) (order : HashOrder) :
    let input : Server.Request × Server.Context := (payload.request, ⟨true, nowMillis, order⟩)
    match Server.storeCall limits input with
    | none => ∃ message, ∀ state, (Server.handle backend limits state input).1 = payload.fail (.invalidInput message)
    | some call => ∀ state,
        (Server.handle backend limits state input).1 = (backend.step limits state call).1.respond := by
  dsimp only
  cases payload with
  | push body =>
    simp only [Payload.request, Server.storeCall, Server.handle, Server.push, if_true]
    cases built : Server.buildInboundMessage body limits nowMillis with
    | error err =>
      obtain ⟨message, rfl⟩ := Server.buildInboundMessage_error built
      exact ⟨message, fun _ => rfl⟩
    | ok msg =>
      intro state
      simp only [RelayStore.step_push, Outcome.respond]
      rcases backend.push limits msg state with ⟨_ | _, _⟩ <;> rfl
  | pull body =>
    simp only [Payload.request, Server.storeCall, Server.handle, Server.pull]
    cases Server.blank body.recipient with
    | true => exact ⟨_, fun _ => rfl⟩
    | false =>
      by_cases zero : body.max.getD limits.pullBatchMax = 0
      · simp only [zero, ne_eq, not_true_eq_false, decide_false, Bool.and_false, Bool.false_eq_true, if_false, if_true]
        exact ⟨_, fun _ => rfl⟩
      · simp only [zero, Bool.not_false, Bool.and_self, ne_eq, not_false_eq_true, decide_true, if_true,
          if_false, Bool.false_eq_true, RelayStore.step_pull, Outcome.respond]
        intro state
        rcases backend.pull body.recipient body.cursor _ nowMillis state with ⟨_ | _, _⟩ <;> rfl
  | ack body =>
    simp only [Payload.request, Server.storeCall, Server.handle, Server.ack]
    cases Server.blank body.recipient with
    | true => exact ⟨_, fun _ => rfl⟩
    | false =>
      simp only [Bool.not_false, Bool.and_self, if_true, if_false, Bool.false_eq_true, RelayStore.step_ack,
        Outcome.respond]
      intro state
      rcases backend.ack order body.recipient (Server.ackItems body) state with ⟨_ | _, _⟩ <;> rfl

end Handlers

namespace Service

variable [Base64] {σ : Type} (backend : RelayStore σ) (cfg : RelayConfig)

/-- Everything the next operation of a handler can do. -/
inductive Performs (task : RequestTask) (service : Service σ) : Told × Stage × Service σ → Prop where
  | waived (here : task.stage = .arrived) (off : service.limiter.enabled = false) :
      Performs task service ({ admission := some (task.payload, true) }, .admitted, service)
  | asked (here : task.stage = .arrived) (now : Instant) (verdict : Verdict) (limiter : RateLimiter)
      (answer : service.limiter.attempt (globalAttempt cfg task now) = (verdict, limiter)) :
      Performs task service ({ asked := some (globalAttempt cfg task now, verdict) },
        if verdict = .panicked then .gone else .halfway (verdict = .allowed), { service with limiter := limiter })
  | panicked (globalOk : Bool) (here : task.stage = .halfway globalOk) (now : Instant) (limiter : RateLimiter)
      (answer : service.limiter.attempt (endpointAttempt cfg task now) = (.panicked, limiter)) :
      Performs task service ({ asked := some (endpointAttempt cfg task now, .panicked) }, .gone,
        { service with limiter := limiter })
  | passed (here : task.stage = .halfway true) (now : Instant) (limiter : RateLimiter)
      (answer : service.limiter.attempt (endpointAttempt cfg task now) = (.allowed, limiter)) :
      Performs task service
        ({ asked := some (endpointAttempt cfg task now, .allowed), admission := some (task.payload, true) }, .admitted,
          { service with limiter := limiter })
  | refused (globalOk : Bool) (here : task.stage = .halfway globalOk) (now : Instant) (verdict : Verdict)
      (limiter : RateLimiter) (answer : service.limiter.attempt (endpointAttempt cfg task now) = (verdict, limiter)) :
      Performs task service
        ({ asked := some (endpointAttempt cfg task now, verdict), admission := some (task.payload, false) },
          .replying [(.rateLimited, 1)] (task.payload.fail .rateLimited), { service with limiter := limiter })
  | totalled (here : task.stage = .admitted) :
      Performs task service ({}, .counted, { service with metrics := service.metrics.fetchAdd 1 task.payload.total })
  | turnedDown (here : task.stage = .counted) (message : String) :
      Performs task service ({}, .replying [] (task.payload.fail (.invalidInput message)), service)
  | called (here : task.stage = .counted) (moment : Moment) (call : Call × HashOrder)
      (made : Server.storeCall cfg.relay (task.payload.request, ⟨true, moment.nowMillis, moment.order⟩) = some call) :
      Performs task service ({ called := some (call, (backend.step cfg.relay service.store call).1) },
        .replying (backend.step cfg.relay service.store call).1.respond.counts
          (backend.step cfg.relay service.store call).1.respond,
        { service with store := (backend.step cfg.relay service.store call).2 })
  | raised (counter : Counter) (amount : UInt64) (due : List (Counter × UInt64)) (reply : Server.Response)
      (here : task.stage = .replying ((counter, amount) :: due) reply) :
      Performs task service ({}, .replying due reply, { service with metrics := service.metrics.fetchAdd amount counter })
  | finished (here : task.stage = .gone ∨ ∃ reply, task.stage = .replying [] reply) :
      Performs task service ({}, task.stage, service)

theorem perform_spec (task : RequestTask) (moment : Moment) (service : Service σ) :
    Performs backend cfg task service (perform cfg backend task moment service) := by
  obtain ⟨ip, payload, stage⟩ := task
  cases stage with
  | arrived =>
    simp only [perform]
    split
    · rename_i off
      exact .waived rfl (by simpa using off)
    · exact .asked rfl moment.now _ _ rfl
  | halfway globalOk =>
    simp only [perform]
    rcases answer : service.limiter.attempt (endpointAttempt cfg ⟨ip, payload, .halfway globalOk⟩ moment.now) with
      ⟨verdict, limiter⟩
    dsimp only
    split
    · rename_i panicked
      subst panicked
      exact .panicked globalOk rfl moment.now limiter answer
    · split
      · rename_i passed
        obtain ⟨rfl, rfl⟩ : globalOk = true ∧ verdict = .allowed := by simpa using passed
        exact .passed rfl moment.now limiter answer
      · exact .refused globalOk rfl moment.now verdict limiter answer
  | admitted => exact .totalled rfl
  | counted =>
    have replied := handle_reply backend cfg.relay payload moment.nowMillis moment.order
    have after := Server.handle_after backend cfg.relay service.store
      (payload.request, ⟨true, moment.nowMillis, moment.order⟩)
    simp only [perform]
    cases made : Server.storeCall cfg.relay (payload.request, ⟨true, moment.nowMillis, moment.order⟩) with
    | none =>
      simp only [made] at replied after
      obtain ⟨message, answer⟩ := replied
      rw [answer, after, Payload.counts_fail]
      exact .turnedDown rfl message
    | some call =>
      simp only [made] at replied after
      rw [replied, after]
      exact .called rfl moment call made
  | replying due reply =>
    cases due with
    | nil => exact .finished (.inr ⟨reply, rfl⟩)
    | cons first due =>
      obtain ⟨counter, amount⟩ := first
      exact .raised counter amount due reply rfl
  | gone => exact .finished (.inl rfl)

/-- Everything a step can do. -/
inductive Steps (service : Service σ) : Choice → Told × Service σ → Prop where
  | idle (choice : Choice) : Steps service choice ({}, service)
  | arrived (id : Nat) (peerAddr : Option IpAddr) (payload : Payload) (fresh : service.tasks[id]? = none) :
      Steps service (.arrive id peerAddr payload)
        ({}, { service with tasks := service.tasks.insert id ⟨peerIp peerAddr, payload, .arrived⟩ })
  | advanced (id : Nat) (moment : Moment) (task : RequestTask) (running : service.tasks[id]? = some task) (told : Told)
      (stage : Stage) (after : Service σ) (performs : Performs backend cfg task service (told, stage, after)) :
      Steps service (.advance id moment)
        (told, { after with tasks := service.tasks.insert id { task with stage := stage } })
  | dropped (id : Nat) (task : RequestTask) (running : service.tasks[id]? = some task)
      (here : task.stage = .arrived ∨ task.stage = .counted) :
      Steps service (.disconnect id)
        ({}, { service with tasks := service.tasks.insert id { task with stage := .gone } })
  | collected (moment : Moment) (idle : service.collected = 0) :
      Steps service (.collect moment)
        ({ called := some ((.purgeExpired moment.nowMillis 1024, moment.order),
            (backend.step cfg.relay service.store (.purgeExpired moment.nowMillis 1024, moment.order)).1) },
          { service with
            store := (backend.step cfg.relay service.store (.purgeExpired moment.nowMillis 1024, moment.order)).2
            collected :=
              (backend.step cfg.relay service.store (.purgeExpired moment.nowMillis 1024, moment.order)).1.removed })
  | tallied : Steps service .tally ({},
      { service with metrics := service.metrics.fetchAdd (.ofNat service.collected) .gcRemoved, collected := 0 })

theorem Performs.tasks {task : RequestTask} {service after : Service σ} {told : Told} {stage : Stage}
    (performs : Performs backend cfg task service (told, stage, after)) : after.tasks = service.tasks := by
  cases performs <;> rfl

theorem perform_tasks (task : RequestTask) (moment : Moment) (service : Service σ) :
    (perform cfg backend task moment service).2.2.tasks = service.tasks :=
  (perform_spec backend cfg task moment service).tasks

theorem Performs.collected {task : RequestTask} {service after : Service σ} {told : Told} {stage : Stage}
    (performs : Performs backend cfg task service (told, stage, after)) : after.collected = service.collected := by
  cases performs <;> rfl

theorem step_spec (service : Service σ) (choice : Choice) :
    Steps backend cfg service choice (step cfg backend service choice) := by
  cases choice with
  | arrive id peerAddr payload =>
    rw [step]
    split
    · exact .idle _
    · rename_i unused
      have fresh : service.tasks[id]? = none := ExtTreeMap.getElem?_eq_none unused
      exact .arrived id peerAddr payload fresh
  | advance id moment =>
    rw [step]
    cases running : service.tasks[id]? with
    | none => exact .idle _
    | some task =>
      have performs := perform_spec backend cfg task moment service
      rcases performed : perform cfg backend task moment service with ⟨told, stage, after⟩
      rw [performed] at performs
      dsimp only
      rw [performed, performs.tasks]
      exact .advanced id moment task running told stage after performs
  | disconnect id =>
    rw [step]
    cases running : service.tasks[id]? with
    | none => exact .idle _
    | some task =>
      dsimp only
      split
      · rename_i droppable
        have here : task.stage = .arrived ∨ task.stage = .counted := by
          cases stage : task.stage <;> simp [Stage.droppable, stage] at droppable ⊢
        exact .dropped id task running here
      · exact .idle _
  | collect moment =>
    rw [step]
    split
    · exact .idle _
    · rename_i idle
      have moved := @Steps.collected _ σ backend cfg service moment (by omega)
      rw [RelayStore.step_purgeExpired] at moved
      rcases purged : backend.purgeExpired moment.order moment.nowMillis 1024 service.store with ⟨result, store⟩
      rw [purged] at moved
      cases result <;> exact moved
  | tally =>
    rw [step]
    split
    · exact .tallied
    · exact .idle _

variable {backend cfg}

/-- Where the tasks of a step come from: they were there, have just arrived or been dropped, or have performed. -/
theorem Steps.source {service after : Service σ} {choice : Choice} {told : Told}
    (steps : Steps backend cfg service choice (told, after)) {id : Nat} {task : RequestTask}
    (found : after.tasks[id]? = some task) :
    (service.tasks[id]? = some task ∧ (choice.advances id = true → after = service)) ∨ task.stage = .arrived ∨
      task.stage = .gone ∨
      ∃ old stage performed, service.tasks[id]? = some old ∧ Performs backend cfg old service (told, stage, performed) ∧
        task = { old with stage := stage } ∧ after.store = performed.store := by
  cases steps with
  | idle => exact .inl ⟨found, fun _ => rfl⟩
  | arrived other peerAddr payload fresh =>
    rw [OrderedMap.getElem?_insert] at found
    split at found
    · cases found
      exact .inr (.inl rfl)
    · exact .inl ⟨found, fun moved => by cases moved⟩
  | advanced other moment old running told stage performed performs =>
    rw [OrderedMap.getElem?_insert] at found
    split at found
    · rename_i same
      subst same
      cases found
      exact .inr (.inr (.inr ⟨old, stage, performed, running, performs, rfl, rfl⟩))
    · rename_i different
      exact .inl ⟨found, fun moved => absurd (of_decide_eq_true moved) different⟩
  | dropped other old running here =>
    rw [OrderedMap.getElem?_insert] at found
    split at found
    · cases found
      exact .inr (.inr (.inl rfl))
    · exact .inl ⟨found, fun moved => by cases moved⟩
  | collected => exact .inl ⟨found, fun moved => by cases moved⟩
  | tallied => exact .inl ⟨found, fun moved => by cases moved⟩

end Service

end EnigmaRelay
