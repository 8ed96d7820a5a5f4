import EnigmaRelay.Memory.Run
import EnigmaRelay.Model.Standard
import EnigmaRelay.Service.Calls

open Std Machine

namespace EnigmaRelay

namespace RateLimiter

variable {ours : IpAddr → Prop} {full part : RateLimiter}

/-- The limiters treat our addresses alike. -/
structure Agree (ours : IpAddr → Prop) (full part : RateLimiter) : Prop where
  enabled : full.enabled = part.enabled
  banSeconds : full.banSeconds = part.banSeconds
  buckets : ∀ key : RateKey, ours key.ip → full.buckets key = part.buckets key

theorem Agree.attempt (agree : Agree ours full part) {attempt : Attempt} (own : ours attempt.ip) :
    (full.attempt attempt).1 = (part.attempt attempt).1 ∧
      Agree ours (full.attempt attempt).2 (part.attempt attempt).2 := by
  have bucket := agree.buckets ⟨attempt.ip, attempt.label⟩ own
  unfold RateLimiter.attempt RateLimiter.allow
  dsimp only
  rw [agree.enabled, agree.banSeconds, bucket]
  split
  · exact ⟨rfl, agree⟩
  · refine ⟨rfl, rfl, rfl, ?_⟩
    intro key here
    simp only [Function.update_apply]
    split
    · rfl
    · exact agree.buckets key here

theorem Agree.foreign (agree : Agree ours full part) {attempt : Attempt} (other : ¬ ours attempt.ip) :
    Agree ours (full.attempt attempt).2 part := by
  unfold RateLimiter.attempt RateLimiter.allow
  split
  · exact agree
  · refine ⟨agree.enabled, agree.banSeconds, ?_⟩
    intro key here
    have different : key ≠ ⟨attempt.ip, attempt.label⟩ := by
      rintro rfl
      exact other here
    dsimp only
    rw [Function.update_of_ne different]
    exact agree.buckets key here

end RateLimiter

namespace MemStore

variable [Base64] (limits : RelayLimits)

theorem next_alike {full part : MemStore} {recipient : String} (same : full[recipient]? = part[recipient]?)
    {input : Call × HashOrder} (addressed : input.1.addressee = some recipient) :
    (next limits full input).1 = (next limits part input).1 ∧
      (next limits full input).2[recipient]? = (next limits part input).2[recipient]? := by
  obtain ⟨call, order⟩ := input
  cases call with
  | push msg =>
    cases addressed
    have entry : full.entryOf msg.recipient = part.entryOf msg.recipient := by rw [entryOf, entryOf, same]
    change Outcome.push (push limits msg full).1 = .push (push limits msg part).1 ∧
      (push limits msg full).2[msg.recipient]? = (push limits msg part).2[msg.recipient]?
    rw [push, push, entry, OrderedMap.getElem?_insert, OrderedMap.getElem?_insert, if_pos rfl, if_pos rfl]
    exact ⟨rfl, rfl⟩
  | pull target cursor limit nowMs =>
    cases addressed
    change Outcome.pull (pull recipient cursor limit nowMs full).1 = .pull (pull recipient cursor limit nowMs part).1 ∧
      (pull recipient cursor limit nowMs full).2[recipient]? = (pull recipient cursor limit nowMs part).2[recipient]?
    rw [pull, pull, same]
    cases part[recipient]? with
    | none => exact ⟨rfl, same⟩
    | some entry =>
      dsimp only
      rw [OrderedMap.getElem?_insert, OrderedMap.getElem?_insert, if_pos rfl, if_pos rfl]
      exact ⟨rfl, rfl⟩
  | ack target items =>
    cases addressed
    change Outcome.ack (ack order recipient items full).1 = .ack (ack order recipient items part).1 ∧
      (ack order recipient items full).2[recipient]? = (ack order recipient items part).2[recipient]?
    rw [ack, ack, same]
    cases part[recipient]? with
    | none => exact ⟨rfl, same⟩
    | some entry =>
      dsimp only
      rw [OrderedMap.getElem?_insert, OrderedMap.getElem?_insert, if_pos rfl, if_pos rfl]
      exact ⟨rfl, rfl⟩
  | purgeExpired nowMs max => cases addressed

end MemStore

namespace Service

/-- A tenant: the requests, the addresses they come from, and the recipients they are for. -/
structure Tenant where
  requests : Nat → Bool
  addresses : IpAddr → Prop
  recipients : String → Prop

namespace Tenant

variable (tenant : Tenant)

/-- The task is on its own side: a request of the tenant is from its addresses and for its recipients, and no other
    request is from one or for one. -/
structure Holds (id : Nat) (ip : IpAddr) (payload : Payload) : Prop where
  address : tenant.requests id = true ↔ tenant.addresses ip
  recipient : tenant.requests id = true ↔ tenant.recipients payload.recipient

/-- Requests arrive on their own side, and the collector, which serves all tenants, does not run. -/
def Fair : Choice → Prop
  | .arrive id peerAddr payload => tenant.Holds id (peerIp peerAddr) payload
  | .collect _ => False
  | _ => True

def owns : Choice → Bool
  | .arrive id _ _ => tenant.requests id
  | .advance id _ => tenant.requests id
  | .disconnect id => tenant.requests id
  | .collect _ => false
  | .tally => false

/-- What the tenant's requests can tell apart: the limiter and the store. -/
structure Shared (full part : Service MemStore) : Prop where
  limiter : full.limiter.Agree tenant.addresses part.limiter
  entries : ∀ recipient : String, tenant.recipients recipient → full.store[recipient]? = part.store[recipient]?

/-- The states are the same to the tenant. -/
structure Alike (full part : Service MemStore) : Prop extends tenant.Shared full part where
  own : ∀ id : Nat, tenant.requests id = true → full.tasks[id]? = part.tasks[id]?
  sides : ∀ (id : Nat) (task : RequestTask), full.tasks[id]? = some task → tenant.Holds id task.ip task.payload

section Perform

variable {tenant} [Base64] {cfg : RelayConfig} {full part : Service MemStore}

theorem Shared.perform (shared : tenant.Shared full part) {task : RequestTask} (address : tenant.addresses task.ip)
    (recipient : tenant.recipients task.payload.recipient) (moment : Moment) :
    (Service.perform cfg MemStore.relayStore task moment full).1 =
      (Service.perform cfg MemStore.relayStore task moment part).1 ∧
    (Service.perform cfg MemStore.relayStore task moment full).2.1 =
      (Service.perform cfg MemStore.relayStore task moment part).2.1 ∧
    tenant.Shared (Service.perform cfg MemStore.relayStore task moment full).2.2
      (Service.perform cfg MemStore.relayStore task moment part).2.2 := by
  obtain ⟨ip, payload, stage⟩ := task
  change tenant.addresses ip at address
  cases stage with
  | arrived =>
    simp only [Service.perform]
    rw [shared.limiter.enabled]
    split
    · exact ⟨rfl, rfl, shared⟩
    · obtain ⟨verdict, agree⟩ := @RateLimiter.Agree.attempt _ _ _ shared.limiter
        (globalAttempt cfg ⟨ip, payload, .arrived⟩ moment.now) address
      rw [verdict]
      exact ⟨rfl, rfl, agree, shared.entries⟩
  | halfway globalOk =>
    obtain ⟨verdict, agree⟩ := @RateLimiter.Agree.attempt _ _ _ shared.limiter
      (endpointAttempt cfg ⟨ip, payload, .halfway globalOk⟩ moment.now) address
    simp only [Service.perform]
    rw [verdict]
    split
    · exact ⟨rfl, rfl, agree, shared.entries⟩
    · split <;> exact ⟨rfl, rfl, agree, shared.entries⟩
  | admitted => exact ⟨rfl, rfl, shared.limiter, shared.entries⟩
  | counted =>
    have replied := handle_reply MemStore.relayStore cfg.relay payload moment.nowMillis moment.order
    have after := fun state : MemStore => Server.handle_after MemStore.relayStore cfg.relay state
      (payload.request, ⟨true, moment.nowMillis, moment.order⟩)
    simp only [Service.perform]
    cases made : Server.storeCall cfg.relay (payload.request, ⟨true, moment.nowMillis, moment.order⟩) with
    | none =>
      simp only [made] at replied after
      obtain ⟨message, answer⟩ := replied
      rw [answer, answer, after, after]
      exact ⟨rfl, rfl, shared⟩
    | some call =>
      simp only [made] at replied after
      rw [replied, replied, after, after]
      have addressed : call.1.addressee = some payload.recipient := by
        rw [Server.storeCall_addressee made]
        cases payload <;> rfl
      obtain ⟨answer, entry⟩ := MemStore.next_alike cfg.relay (shared.entries _ recipient) addressed
      refine ⟨congrArg (fun outcome => ({ called := some (call, outcome) } : Told)) answer,
        congrArg (fun outcome => Stage.replying outcome.respond.counts outcome.respond) answer, shared.limiter, ?_⟩
      intro other here
      by_cases same : payload.recipient = other
      · subst same
        exact entry
      · have first := MemStore.step_elsewhere cfg.relay full.store call addressed same
        have second := MemStore.step_elsewhere cfg.relay part.store call addressed same
        exact first.trans ((shared.entries other here).trans second.symm)
  | replying due reply =>
    cases due with
    | nil => exact ⟨rfl, rfl, shared⟩
    | cons first due => exact ⟨rfl, rfl, shared.limiter, shared.entries⟩
  | gone => exact ⟨rfl, rfl, shared⟩

theorem Shared.foreign (shared : tenant.Shared full part) {task : RequestTask} (address : ¬ tenant.addresses task.ip)
    (recipient : ¬ tenant.recipients task.payload.recipient) (moment : Moment) :
    tenant.Shared (Service.perform cfg MemStore.relayStore task moment full).2.2 part := by
  obtain ⟨ip, payload, stage⟩ := task
  change ¬ tenant.addresses ip at address
  cases stage with
  | arrived =>
    simp only [Service.perform]
    split
    · exact shared
    · have asked := @RateLimiter.Agree.foreign _ _ _ shared.limiter
        (globalAttempt cfg ⟨ip, payload, .arrived⟩ moment.now) address
      exact ⟨asked, shared.entries⟩
  | halfway globalOk =>
    have asked := @RateLimiter.Agree.foreign _ _ _ shared.limiter
      (endpointAttempt cfg ⟨ip, payload, .halfway globalOk⟩ moment.now) address
    simp only [Service.perform]
    split
    · exact ⟨asked, shared.entries⟩
    · split <;> exact ⟨asked, shared.entries⟩
  | admitted => exact ⟨shared.limiter, shared.entries⟩
  | counted =>
    have after := Server.handle_after MemStore.relayStore cfg.relay full.store
      (payload.request, ⟨true, moment.nowMillis, moment.order⟩)
    simp only [Service.perform]
    cases made : Server.storeCall cfg.relay (payload.request, ⟨true, moment.nowMillis, moment.order⟩) with
    | none =>
      simp only [made] at after
      rw [after]
      exact shared
    | some call =>
      simp only [made] at after
      rw [after]
      have addressed : call.1.addressee = some payload.recipient := by
        rw [Server.storeCall_addressee made]
        cases payload <;> rfl
      refine ⟨shared.limiter, ?_⟩
      intro other here
      have different : payload.recipient ≠ other := by
        rintro rfl
        exact recipient here
      exact (MemStore.step_elsewhere cfg.relay full.store call addressed different).trans (shared.entries other here)
  | replying due reply =>
    cases due with
    | nil => exact shared
    | cons first due => exact ⟨shared.limiter, shared.entries⟩
  | gone => exact shared

end Perform

section Runs

variable {tenant} {full part : Service MemStore}

theorem Alike.sides_insert (alike : tenant.Alike full part) {id : Nat} {task : RequestTask}
    (side : tenant.Holds id task.ip task.payload) (other : Nat) (found : RequestTask)
    (known : (full.tasks.insert id task)[other]? = some found) : tenant.Holds other found.ip found.payload := by
  rw [OrderedMap.getElem?_insert] at known
  split at known
  · rename_i same
    subst same
    cases known
    exact side
  · exact alike.sides other found known

theorem Alike.own_moves (alike : tenant.Alike full part) {fullNext partNext : Service MemStore}
    (shared : tenant.Shared fullNext partNext) {id : Nat} (task : RequestTask)
    (side : tenant.Holds id task.ip task.payload) (fullTasks : fullNext.tasks = full.tasks.insert id task)
    (partTasks : partNext.tasks = part.tasks.insert id task) : tenant.Alike fullNext partNext := by
  refine ⟨shared, ?_, ?_⟩
  · intro other ours
    rw [fullTasks, partTasks, OrderedMap.getElem?_insert, OrderedMap.getElem?_insert, alike.own other ours]
  · intro other found known
    rw [fullTasks] at known
    exact alike.sides_insert side other found known

theorem Alike.foreign_moves (alike : tenant.Alike full part) {fullNext : Service MemStore}
    (shared : tenant.Shared fullNext part) {id : Nat} (foreign : tenant.requests id = false) (task : RequestTask)
    (side : tenant.Holds id task.ip task.payload) (fullTasks : fullNext.tasks = full.tasks.insert id task) :
    tenant.Alike fullNext part := by
  refine ⟨shared, ?_, ?_⟩
  · intro other ours
    have different : id ≠ other := by
      rintro rfl
      rw [foreign] at ours
      cases ours
    rw [fullTasks, OrderedMap.getElem?_insert, if_neg different]
    exact alike.own other ours
  · intro other found known
    rw [fullTasks] at known
    exact alike.sides_insert side other found known

variable (tenant) [Base64] (cfg : RelayConfig)

theorem unwinds : Unwinding.Unwinds (step cfg MemStore.relayStore) tenant.Fair tenant.owns tenant.Alike := by
  constructor
  · intro full part choice alike fair own
    cases choice with
    | arrive id peerAddr payload =>
      have present : id ∈ full.tasks ↔ id ∈ part.tasks := by
        rw [ExtTreeMap.mem_iff_isSome_getElem?, ExtTreeMap.mem_iff_isSome_getElem?, alike.own id own]
      rw [step, step]
      by_cases used : id ∈ part.tasks
      · rw [if_pos (present.mpr used), if_pos used]
        exact ⟨rfl, alike⟩
      · rw [if_neg (fun there => used (present.mp there)), if_neg used]
        exact ⟨rfl, alike.own_moves ⟨alike.limiter, alike.entries⟩ ⟨peerIp peerAddr, payload, .arrived⟩ fair rfl rfl⟩
    | advance id moment =>
      have same := alike.own id own
      rw [step, step]
      cases running : part.tasks[id]? with
      | none =>
        rw [same, running]
        exact ⟨rfl, alike⟩
      | some task =>
        rw [running] at same
        have side := alike.sides id task same
        obtain ⟨told, stage, shared⟩ := @Shared.perform tenant _ cfg full part alike.toShared task (side.address.mp own)
          (side.recipient.mp own) moment
        rw [same]
        dsimp only
        rw [told, stage, perform_tasks, perform_tasks]
        exact ⟨rfl, alike.own_moves ⟨shared.limiter, shared.entries⟩
          { task with stage := (perform cfg MemStore.relayStore task moment part).2.1 } side rfl rfl⟩
    | disconnect id =>
      have same := alike.own id own
      rw [step, step]
      cases running : part.tasks[id]? with
      | none =>
        rw [same, running]
        exact ⟨rfl, alike⟩
      | some task =>
        rw [running] at same
        have side := alike.sides id task same
        rw [same]
        dsimp only
        split
        · exact ⟨rfl, alike.own_moves ⟨alike.limiter, alike.entries⟩ { task with stage := .gone } side rfl rfl⟩
        · exact ⟨rfl, alike⟩
    | collect moment => cases own
    | tally => cases own
  · intro full part choice alike fair foreign
    cases choice with
    | arrive id peerAddr payload =>
      rw [step]
      split
      · exact alike
      · exact alike.foreign_moves ⟨alike.limiter, alike.entries⟩ foreign ⟨peerIp peerAddr, payload, .arrived⟩ fair rfl
    | advance id moment =>
      rw [step]
      cases running : full.tasks[id]? with
      | none => exact alike
      | some task =>
        have side := alike.sides id task running
        have others : ¬ tenant.requests id = true := by
          rw [show tenant.requests id = false from foreign]
          decide
        have shared := @Shared.foreign tenant _ cfg full part alike.toShared task
          (fun here => others (side.address.mpr here)) (fun here => others (side.recipient.mpr here)) moment
        dsimp only
        rw [perform_tasks]
        exact alike.foreign_moves ⟨shared.limiter, shared.entries⟩ foreign
          { task with stage := (perform cfg MemStore.relayStore task moment full).2.1 } side rfl
    | disconnect id =>
      rw [step]
      cases running : full.tasks[id]? with
      | none => exact alike
      | some task =>
        dsimp only
        split
        · exact alike.foreign_moves ⟨alike.limiter, alike.entries⟩ foreign { task with stage := .gone }
            (alike.sides id task running) rfl
        · exact alike
    | collect moment => cases fair
    | tally =>
      rw [step]
      split
      · exact ⟨⟨alike.limiter, alike.entries⟩, alike.own, alike.sides⟩
      · exact alike

/-- Between two rounds of the collector a tenant cannot tell whether others use the relay, from other addresses and for
    other recipients: its requests get the same answers, and its queues come to the same, as if it were alone. -/
theorem others_invisible {service : Service MemStore}
    (sides : ∀ (id : Nat) (task : RequestTask), service.tasks[id]? = some task → tenant.Holds id task.ip task.payload)
    {choices : List Choice} (fair : ∀ choice ∈ choices, tenant.Fair choice) :
    let all := final (step cfg MemStore.relayStore) service choices
    let alone := final (step cfg MemStore.relayStore) service (choices.filter tenant.owns)
    (∀ id : Nat, tenant.requests id = true → all.tasks[id]? = alone.tasks[id]?) ∧
      (∀ recipient : String, tenant.recipients recipient → all.store[recipient]? = alone.store[recipient]?) ∧
      ((trace (step cfg MemStore.relayStore) service choices).filter (fun event => tenant.owns event.input)).map
          (fun event => (event.input, event.output)) =
        (trace (step cfg MemStore.relayStore) service (choices.filter tenant.owns)).map
          (fun event => (event.input, event.output)) := by
  intro all alone
  have start : tenant.Alike service service := ⟨⟨⟨rfl, rfl, fun _ _ => rfl⟩, fun _ _ => rfl⟩, fun _ _ => rfl, sides⟩
  obtain ⟨alike, seen⟩ := (tenant.unwinds cfg).run start fair
  exact ⟨alike.own, alike.entries, seen⟩

end Runs

end Tenant

def sampleMoment : Moment := ⟨0, 0, .asListed⟩

def samplePushOf (recipient : String) (messageId : Uuid) : Payload := .push (sampleRequest recipient messageId)

def sampleTenant : Tenant := ⟨fun id => id = 0, fun ip => ip = .localhost, fun recipient => recipient = "alice"⟩

def sampleTraffic : List Choice :=
  [.arrive 0 none (samplePushOf "alice" 1), .arrive 1 (some (.v4 1#32)) (samplePushOf "bob" 2)] ++
    [1, 0, 0, 1, 1, 0, 1, 0, 0, 1].map (fun id => .advance id sampleMoment)

theorem others_invisible_sample :
    let all := final (step {} MemStore.relayStore) (start {} MemStore.new) sampleTraffic
    let alone := final (step {} MemStore.relayStore) (start {} MemStore.new) (sampleTraffic.filter sampleTenant.owns)
    all.tasks[0]? = alone.tasks[0]? ∧ all.store["alice"]? = alone.store["alice"]? ∧
      all.store["alice"]?.isSome = true ∧ all.store["bob"]?.isSome = true := by
  have fair : ∀ choice ∈ sampleTraffic, sampleTenant.Fair choice := by
    intro choice member
    rcases List.mem_append.mp member with arrived | advanced
    · simp only [List.mem_cons, List.not_mem_nil, or_false] at arrived
      rcases arrived with rfl | rfl
      · exact ⟨by simp [sampleTenant, peerIp], by simp [sampleTenant, samplePushOf, sampleRequest, Payload.recipient]⟩
      · exact ⟨by simp [sampleTenant, peerIp, IpAddr.localhost],
          by simp [sampleTenant, samplePushOf, sampleRequest, Payload.recipient]⟩
    · obtain ⟨_, _, rfl⟩ := List.mem_map.mp advanced
      exact True.intro
  have invisible := @Tenant.others_invisible sampleTenant _ {} (start {} MemStore.new)
    (fun id task known => by simp [start] at known) _ fair
  refine ⟨invisible.1 0 rfl, invisible.2.1 "alice" rfl, ?_, ?_⟩
  · decide +kernel
  · decide +kernel

end Service

end EnigmaRelay
