import EnigmaRelay.Limiter.Bucket
import EnigmaRelay.Model.Errors
import EnigmaRelay.Model.Metrics

open Std

/-! The running relay: requests and the collector take turns, one operation on the shared state at a time. A call to the
store is one operation, as it is on a backend that holds its lock throughout. -/

namespace EnigmaRelay

/-- The body of a request, by its route. -/
inductive Payload where
  | push (body : PushRequest)
  | pull (body : PullRequest)
  | ack (body : AckRequest)

namespace Payload

def request : Payload → Server.Request
  | .push body => .push body
  | .pull body => .pull body
  | .ack body => .ack body

def recipient : Payload → String
  | .push body => body.recipient
  | .pull body => body.recipient
  | .ack body => body.recipient

/-- The label that the handler gives to `enforce_rate`. -/
def label : Payload → String
  | .push _ => "push"
  | .pull _ => "pull"
  | .ack _ => "ack"

/-- The counter that the handler raises once the request is admitted. -/
def total : Payload → Counter
  | .push _ => .pushTotal
  | .pull _ => .pullTotal
  | .ack _ => .ackTotal

def fail (err : EnigmaRelayError) : Payload → Server.Response
  | .push _ => .push (.error err)
  | .pull _ => .pull (.error err)
  | .ack _ => .ack (.error err)

end Payload

namespace Server.Response

/-- The counters that a handler raises between the store's answer and its own. -/
def counts : Response → List (Counter × UInt64)
  | .push (.ok response) =>
    (if response.stored then [(.pushStored, 1)] else []) ++ (if response.duplicate then [(.duplicates, 1)] else [])
  | .ack (.ok response) => [(.ackDeleted, .ofNat response.deleted)]
  | _ => []

def status : Response → StatusCode
  | .push (.error err) => err.statusCode
  | .pull (.error err) => err.statusCode
  | .ack (.error err) => err.statusCode
  | _ => .ok

end Server.Response

/-- How far a handler has come. -/
inductive Stage where
  | arrived
  /-- between the two calls of `enforce_rate` -/
  | halfway (globalOk : Bool)
  | admitted
  /-- waiting for the store -/
  | counted
  /-- about to answer: the counters that are still to be raised, and the answer -/
  | replying (due : List (Counter × UInt64)) (reply : Server.Response)
  /-- dropped with its connection, or unwound by a panic -/
  | gone

structure RequestTask where
  ip : IpAddr
  payload : Payload
  stage : Stage

structure Service (σ : Type) where
  store : σ
  limiter : RateLimiter
  metrics : RelayMetrics
  tasks : ExtTreeMap Nat RequestTask compare
  /-- what the collector has removed and not added to its counter yet -/
  collected : Nat

/-- The clock readings and hash orders that an operation may meet. -/
structure Moment where
  now : Instant
  nowMillis : Nat
  order : HashOrder

/-- What a step makes visible: its call to the limiter, what `enforce_rate` says with it, and its call to the store. -/
structure Told where
  asked : Option (Attempt × Verdict) := none
  admission : Option (Payload × Bool) := none
  called : Option ((Call × HashOrder) × Outcome) := none

/-- Who moves next. -/
inductive Choice where
  | arrive (id : Nat) (peerAddr : Option IpAddr) (payload : Payload)
  | advance (id : Nat) (moment : Moment)
  | disconnect (id : Nat)
  | collect (moment : Moment)
  | tally

/-- The choice is a move of the handler of the request. -/
def Choice.advances (id : Nat) : Choice → Bool
  | .advance other _ => other = id
  | _ => false

namespace Service

variable {σ : Type}

def start (cfg : RelayConfig) (store : σ) : Service σ where
  store := store
  limiter := RateLimiter.new cfg.rateLimit.enabled cfg.rateLimit.banSeconds
  metrics := {}
  tasks := ∅
  collected := 0

variable (cfg : RelayConfig)

/-- The two calls of `enforce_rate`. -/
def globalAttempt (task : RequestTask) (now : Instant) : Attempt :=
  ⟨task.ip, "global", cfg.rateLimit.perIpRps, cfg.rateLimit.burst, now⟩

def endpointAttempt (task : RequestTask) (now : Instant) : Attempt :=
  ⟨task.ip, task.payload.label, cfg.rateLimit.endpointRps task.payload.label, cfg.rateLimit.burst, now⟩

variable [Base64] (backend : RelayStore σ)

/-- The next operation of a handler. The shared state it leaves has the task still at its old stage. -/
def perform (task : RequestTask) (moment : Moment) (service : Service σ) : Told × Stage × Service σ :=
  match task.stage with
  | .arrived =>
    if !service.limiter.enabled then ({ admission := some (task.payload, true) }, .admitted, service)
    else
      let (verdict, limiter) := service.limiter.attempt (globalAttempt cfg task moment.now)
      ({ asked := some (globalAttempt cfg task moment.now, verdict) },
        if verdict = .panicked then .gone else .halfway (verdict = .allowed), { service with limiter := limiter })
  | .halfway globalOk =>
    let (verdict, limiter) := service.limiter.attempt (endpointAttempt cfg task moment.now)
    let told : Told := { asked := some (endpointAttempt cfg task moment.now, verdict) }
    if verdict = .panicked then (told, .gone, { service with limiter := limiter })
    else if globalOk && verdict = .allowed then
      ({ told with admission := some (task.payload, true) }, .admitted, { service with limiter := limiter })
    else
      ({ told with admission := some (task.payload, false) },
        .replying [(.rateLimited, 1)] (task.payload.fail .rateLimited), { service with limiter := limiter })
  | .admitted => ({}, .counted, { service with metrics := service.metrics.fetchAdd 1 task.payload.total })
  | .counted =>
    let input : Server.Request × Server.Context := (task.payload.request, ⟨true, moment.nowMillis, moment.order⟩)
    let (reply, store) := Server.handle backend cfg.relay service.store input
    let called :=
      (Server.storeCall cfg.relay input).map (fun call => (call, (backend.step cfg.relay service.store call).1))
    ({ called := called }, .replying reply.counts reply, { service with store := store })
  | .replying ((counter, amount) :: due) reply =>
    ({}, .replying due reply, { service with metrics := service.metrics.fetchAdd amount counter })
  | .replying [] reply => ({}, .replying [] reply, service)
  | .gone => ({}, .gone, service)

/-- A handler waits, and can be dropped, before it runs and while it waits for the store. -/
def Stage.droppable : Stage → Bool
  | .arrived => true
  | .counted => true
  | _ => false

def step (service : Service σ) : Choice → Told × Service σ
  | .arrive id peerAddr payload =>
    if id ∈ service.tasks then ({}, service)
    else ({}, { service with tasks := service.tasks.insert id ⟨peerIp peerAddr, payload, .arrived⟩ })
  | .advance id moment =>
    match service.tasks[id]? with
    | none => ({}, service)
    | some task =>
      let (told, stage, service) := perform cfg backend task moment service
      (told, { service with tasks := service.tasks.insert id { task with stage := stage } })
  | .disconnect id =>
    match service.tasks[id]? with
    | none => ({}, service)
    | some task =>
      if Stage.droppable task.stage then
        ({}, { service with tasks := service.tasks.insert id { task with stage := .gone } })
      else ({}, service)
  | .collect moment =>
    -- the collector counts what a batch has removed before its next tick
    if service.collected > 0 then ({}, service)
    else
      let (result, store) := backend.purgeExpired moment.order moment.nowMillis 1024 service.store
      let removed := match result with
        | .ok removed => removed
        | .error _ => 0
      ({ called := some ((.purgeExpired moment.nowMillis 1024, moment.order), .purgeExpired result) },
        { service with store := store, collected := removed })
  | .tally =>
    if service.collected > 0 then
      ({}, { service with metrics := service.metrics.fetchAdd (.ofNat service.collected) .gcRemoved, collected := 0 })
    else ({}, service)

end Service

end EnigmaRelay
