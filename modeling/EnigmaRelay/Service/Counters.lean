import EnigmaRelay.Memory.Ledger
import EnigmaRelay.Service.Linear

open Std Machine Totals Linearization

namespace EnigmaRelay

def Outcome.earned (outcome : Outcome) : Counter → Nat
  | .pushStored => outcome.stored
  | .duplicates => outcome.repeated
  | .ackDeleted => outcome.deleted
  | .gcRemoved => outcome.removed
  | _ => 0

def Payload.earned (payload : Payload) (counter : Counter) (admitted : Bool) : Nat :=
  if (if admitted then payload.total else .rateLimited) = counter then 1 else 0

def Told.earned (told : Told) (counter : Counter) : Nat :=
  told.admission.elim 0 (fun admission => admission.1.earned counter admission.2) +
    told.called.elim 0 (fun pair => pair.2.earned counter)

def Counter.ofStore : Counter → Bool
  | .pushStored => true
  | .duplicates => true
  | .ackDeleted => true
  | .gcRemoved => true
  | _ => false

theorem Payload.earned_ofStore (payload : Payload) {counter : Counter} (kept : counter.ofStore = true) (admitted : Bool) :
    payload.earned counter admitted = 0 := by
  have other : (if admitted then payload.total else .rateLimited) ≠ counter := by
    rintro rfl
    cases admitted <;> cases payload <;> cases kept
  exact if_neg other

theorem Told.earned_ofStore (told : Told) {counter : Counter} (kept : counter.ofStore = true) :
    told.earned counter = told.called.elim 0 (fun pair => pair.2.earned counter) := by
  rw [Told.earned]
  cases told.admission with
  | none => exact Nat.zero_add _
  | some admission =>
    rw [Option.elim_some, Payload.earned_ofStore admission.1 kept, Nat.zero_add]

def amountFor (counter : Counter) (due : List (Counter × UInt64)) : UInt64 :=
  (due.map (fun entry => if entry.1 = counter then entry.2 else 0)).sum

/-- What a handler has earned a counter and not added yet. -/
def RequestTask.owed (counter : Counter) (task : RequestTask) : UInt64 :=
  match task.stage with
  | .admitted => if task.payload.total = counter then 1 else 0
  | .replying due _ => amountFor counter due
  | _ => 0

namespace Service

section Accounts

variable {σ : Type}

/-- What handlers and the collector have earned a counter and not added yet. -/
def owed (counter : Counter) (service : Service σ) : UInt64 :=
  total (RequestTask.owed counter) service.tasks + if counter = .gcRemoved then .ofNat service.collected else 0

/-- What a counter stands for: its value, and what is still on its way. -/
def worth (counter : Counter) (service : Service σ) : UInt64 := service.metrics.load counter + service.owed counter

/-- Nobody owes anything: every request has been answered or dropped, and the collector has counted. -/
def Quiet (service : Service σ) : Prop :=
  service.collected = 0 ∧ ∀ (id : Nat) (task : RequestTask), service.tasks[id]? = some task →
    task.stage = .gone ∨ ∃ reply, task.stage = .replying [] reply

theorem Quiet.owed {service : Service σ} (quiet : service.Quiet) (counter : Counter) : service.owed counter = 0 := by
  have idle : ∀ amount ∈ service.tasks.toList.map (fun entry => RequestTask.owed counter entry.2), amount = 0 := by
    intro amount member
    obtain ⟨⟨id, task⟩, listed, rfl⟩ := List.mem_map.mp member
    rcases quiet.2 id task (OrderedMap.mem_toList.mp listed) with stage | ⟨reply, stage⟩
    · simp [RequestTask.owed, stage]
    · simp [RequestTask.owed, stage, amountFor]
  rw [Service.owed, total, List.sum_eq_zero idle, quiet.1]
  simp

theorem worth_insert (counter : Counter) (service : Service σ) {id : Nat} {task : RequestTask}
    (running : service.tasks[id]? = some task) (next : RequestTask) :
    worth counter { service with tasks := service.tasks.insert id next } + task.owed counter =
      worth counter service + next.owed counter := by
  have replaced := total_insert (RequestTask.owed counter) next running
  simp only [worth, owed]
  calc service.metrics.load counter + (total (RequestTask.owed counter) (service.tasks.insert id next) + _) +
        task.owed counter
      = service.metrics.load counter + ((total (RequestTask.owed counter) (service.tasks.insert id next) +
          task.owed counter) + _) := by rw [add_assoc, add_right_comm]
    _ = service.metrics.load counter + ((total (RequestTask.owed counter) service.tasks + next.owed counter) + _) := by
        rw [replaced]
    _ = _ := by rw [add_right_comm (total (RequestTask.owed counter) service.tasks), ← add_assoc]

end Accounts

section Steps

variable [Base64] {σ : Type} {backend : RelayStore σ} {cfg : RelayConfig}

theorem counts_earned {payload : Payload} {context : Server.Context} {call : Call × HashOrder}
    (made : Server.storeCall cfg.relay (payload.request, context) = some call) (state : σ) (counter : Counter) :
    amountFor counter (backend.step cfg.relay state call).1.respond.counts =
      .ofNat ((backend.step cfg.relay state call).1.earned counter) := by
  have addressed := Server.storeCall_addressee made
  obtain ⟨call, order⟩ := call
  cases call with
  | push msg =>
    rw [RelayStore.step_push]
    rcases (backend.push cfg.relay msg state).1 with err | result
    · cases counter <;> rfl
    · rcases result with ⟨stored, duplicate, _, _⟩
      cases stored <;> cases duplicate <;> cases counter <;> rfl
  | pull recipient cursor limit nowMs =>
    rw [RelayStore.step_pull]
    rcases (backend.pull recipient cursor limit nowMs state).1 with err | batch <;> cases counter <;> rfl
  | ack recipient items =>
    rw [RelayStore.step_ack]
    rcases (backend.ack order recipient items state).1 with err | outcome
    · cases counter <;> rfl
    · cases counter <;> simp [Outcome.respond, Except.map, Server.Response.counts, amountFor, Outcome.earned,
        Outcome.stored, Outcome.repeated, Outcome.deleted, Outcome.removed]
  | purgeExpired nowMs max => cases payload <;> cases addressed

theorem Performs.worth {task : RequestTask} {service after : Service σ} {told : Told} {stage : Stage}
    (performs : Performs backend cfg task service (told, stage, after)) (counter : Counter) :
    after.metrics.load counter + RequestTask.owed counter { task with stage := stage } =
      service.metrics.load counter + task.owed counter + .ofNat (told.earned counter) := by
  obtain ⟨ip, payload, old⟩ := task
  cases performs with
  | waived here => cases here; simp [RequestTask.owed, Told.earned, Payload.earned, apply_ite UInt64.ofNat]
  | asked here now verdict limiter answer =>
    cases here
    by_cases panicked : verdict = .panicked <;> simp [RequestTask.owed, Told.earned, panicked]
  | panicked globalOk here => cases here; simp [RequestTask.owed, Told.earned]
  | passed here => cases here; simp [RequestTask.owed, Told.earned, Payload.earned, apply_ite UInt64.ofNat]
  | refused globalOk here =>
    cases here
    cases counter <;> simp [RequestTask.owed, Told.earned, Payload.earned, amountFor]
  | totalled here =>
    cases here
    rw [RelayMetrics.load_fetchAdd]
    simp [RequestTask.owed, Told.earned]
  | turnedDown here message =>
    cases here
    simp [RequestTask.owed, Told.earned, amountFor]
  | called here moment call made =>
    cases here
    have due := @counts_earned _ σ backend cfg payload _ call made service.store counter
    change service.metrics.load counter + amountFor counter _ = service.metrics.load counter + 0 + .ofNat (0 + _)
    rw [due, add_zero, Nat.zero_add]
    rfl
  | raised counter' amount due reply here =>
    cases here
    rw [RelayMetrics.load_fetchAdd]
    simp [RequestTask.owed, Told.earned, amountFor, add_assoc]
  | finished here => simp [Told.earned]

theorem Steps.worth {service after : Service σ} {choice : Choice} {told : Told}
    (steps : Steps backend cfg service choice (told, after)) (counter : Counter) :
    after.worth counter = service.worth counter + .ofNat (told.earned counter) := by
  cases steps with
  | idle => simp [Told.earned]
  | arrived id peerAddr payload fresh =>
    have added := total_insert_new (RequestTask.owed counter) ⟨peerIp peerAddr, payload, .arrived⟩ fresh
    rw [Service.worth, owed, added]
    simp [Service.worth, owed, RequestTask.owed, Told.earned]
  | advanced id moment task running told stage after performs =>
    have replaced := total_insert (RequestTask.owed counter) { task with stage := stage } running
    have moved := performs.worth counter
    rw [Service.worth, Service.worth, owed, owed, performs.collected]
    apply add_right_cancel (b := RequestTask.owed counter { task with stage := stage })
    dsimp only
    generalize (if counter = Counter.gcRemoved then UInt64.ofNat service.collected else 0) = removed
    calc after.metrics.load counter + (total (RequestTask.owed counter)
          (service.tasks.insert id { task with stage := stage }) + removed) + RequestTask.owed counter { task with stage := stage }
        = (after.metrics.load counter + RequestTask.owed counter { task with stage := stage }) +
            total (RequestTask.owed counter) (service.tasks.insert id { task with stage := stage }) + removed := by abel
      _ = service.metrics.load counter + (total (RequestTask.owed counter)
            (service.tasks.insert id { task with stage := stage }) + task.owed counter) + removed +
              .ofNat (told.earned counter) := by
          rw [moved]
          abel
      _ = _ := by
          rw [replaced]
          abel
  | dropped id task running here =>
    have kept := worth_insert counter service running { task with stage := .gone }
    have nothing : task.owed counter = 0 := by
      rcases here with here | here <;> simp [RequestTask.owed, here]
    rw [nothing, add_zero] at kept
    rw [kept]
    simp [RequestTask.owed, Told.earned]
  | collected moment idle =>
    rw [Service.worth, Service.worth, owed, owed, idle]
    cases counter <;> simp [Told.earned, Outcome.earned, Outcome.stored, Outcome.repeated, Outcome.deleted, add_assoc]
  | tallied =>
    rw [Service.worth, Service.worth, owed, owed, RelayMetrics.load_fetchAdd]
    cases counter <;> simp [Told.earned, add_assoc, add_left_comm, add_comm]

variable (backend cfg)

theorem run_worth (store : σ) (choices : List Choice) (counter : Counter) :
    worth counter (final (step cfg backend) (start cfg store) choices) =
      .ofNat ((trace (step cfg backend) (start cfg store) choices).map (fun event =>
        event.output.earned counter)).sum := by
  have ledger := @ledger_run _ _ _ _ _ (step cfg backend) (worth counter)
    (fun event => .ofNat (event.output.earned counter))
    (fun _ => 0) (start cfg store) choices
    (fun event member => by
      have steps := step_spec backend cfg event.before event.input
      have shape := (trace_event (step cfg backend) member).2
      rw [add_zero, ← shape]
      exact Steps.worth steps counter)
  have nothing : worth counter (start cfg store) = 0 := by
    cases counter <;> simp [worth, owed, start, RelayMetrics.load]
  have summed : ∀ events : List (Event σ), (events.map (fun event => UInt64.ofNat (event.output.earned counter))).sum =
      .ofNat (events.map (fun event => event.output.earned counter)).sum := by
    intro events
    induction events with
    | nil => rfl
    | cons event rest ih => rw [List.map_cons, List.sum_cons, ih, List.map_cons, List.sum_cons, UInt64.ofNat_add]
  rw [nothing, zero_add, summed, List.map_const', List.sum_replicate, nsmul_zero, add_zero] at ledger
  exact ledger

/-- A counter is what has happened, less what handlers and the collector have not added yet, modulo `2^64`; once they
    all have, it is the number itself as long as that fits. -/
theorem counters_account (store : σ) (choices : List Choice) (counter : Counter) :
    let happened :=
      ((trace (step cfg backend) (start cfg store) choices).map (fun event => event.output.earned counter)).sum
    let last := final (step cfg backend) (start cfg store) choices
    last.metrics.load counter + last.owed counter = .ofNat happened ∧
      (last.Quiet → happened < 2 ^ 64 → (last.metrics.load counter).toNat = happened) := by
  intro happened last
  have account : last.metrics.load counter + last.owed counter = .ofNat happened :=
    run_worth backend cfg store choices counter
  refine ⟨account, ?_⟩
  intro quiet fits
  rw [quiet.owed, add_zero] at account
  rw [account]
  exact UInt64.toNat_ofNat_of_lt fits

end Steps

section Reconciled

variable [Base64] (cfg : RelayConfig)

/-- The calls that a run of the relay on the memory backend makes to it. -/
def callsMade (choices : List Choice) : List (Call × HashOrder) :=
  (report Told.called (trace (step cfg MemStore.relayStore) (start cfg MemStore.new) choices)).map Prod.fst

theorem earned_booked (choices : List Choice) {counter : Counter} (kept : counter.ofStore = true) :
    ((trace (step cfg MemStore.relayStore) (start cfg MemStore.new) choices).map
        (fun event => event.output.earned counter)).sum =
      booked (fun outcome => outcome.earned counter)
        (trace (MemStore.next cfg.relay) MemStore.new (callsMade cfg choices)) := by
  obtain ⟨_, answers⟩ := (embeds MemStore.relayStore cfg).run (start cfg MemStore.new) choices
  have reported := @sum_report (Service MemStore) Choice Told (Call × HashOrder) Outcome Told.called
    (fun outcome => outcome.earned counter) (trace (step cfg MemStore.relayStore) (start cfg MemStore.new) choices)
  rw [List.map_congr_left (fun event _ => Told.earned_ofStore event.output kept)]
  apply reported.trans
  rw [← answers, List.map_map]
  rfl

theorem callsMade_length (choices : List Choice) : (callsMade cfg choices).length ≤ choices.length := by
  rw [callsMade, List.length_map]
  exact (List.length_filterMap_le _ _).trans_eq (trace_length _ _ _)

/-- Whatever interleaves: messages held, acknowledged, collected and dropped by pulls are the messages stored. -/
theorem messages_reconciled {choices : List Choice} (few : MemStore.Few cfg.relay (callsMade cfg choices)) :
    let last := final (step cfg MemStore.relayStore) (start cfg MemStore.new) choices
    let dropped := ((trace (MemStore.next cfg.relay) MemStore.new (callsMade cfg choices)).map MemStore.lapsed).sum
    .ofNat (MemStore.held last.store) + last.worth .ackDeleted + last.worth .gcRemoved + .ofNat dropped =
      last.worth .pushStored := by
  intro last dropped
  have balance := MemStore.run_balances cfg.relay few
  obtain ⟨state, _⟩ := (embeds MemStore.relayStore cfg).run (start cfg MemStore.new) choices
  have acked : last.worth .ackDeleted = _ := run_worth MemStore.relayStore cfg MemStore.new choices .ackDeleted
  have collected : last.worth .gcRemoved = _ := run_worth MemStore.relayStore cfg MemStore.new choices .gcRemoved
  have pushed : last.worth .pushStored = _ := run_worth MemStore.relayStore cfg MemStore.new choices .pushStored
  rw [earned_booked cfg choices rfl] at acked collected pushed
  have held : last.store.held = (final (MemStore.next cfg.relay) MemStore.new (callsMade cfg choices)).held :=
    congrArg MemStore.held state.symm
  rw [acked, collected, pushed, held, ← UInt64.ofNat_add, ← UInt64.ofNat_add, ← UInt64.ofNat_add]
  exact congrArg UInt64.ofNat balance

end Reconciled

def samplePushing : List Choice :=
  [.arrive 0 none (.push (sampleRequest "alice" 1)), .advance 0 ⟨0, 0, .asListed⟩, .advance 0 ⟨0, 0, .asListed⟩,
    .advance 0 ⟨0, 0, .asListed⟩, .collect ⟨0, 60_000, .asListed⟩]

theorem messages_reconciled_sample :
    let last := final (step unlimited MemStore.relayStore) (start unlimited MemStore.new) samplePushing
    let dropped := ((trace (MemStore.next unlimited.relay) MemStore.new (callsMade unlimited samplePushing)).map
      MemStore.lapsed).sum
    .ofNat (MemStore.held last.store) + last.worth .ackDeleted + last.worth .gcRemoved + .ofNat dropped =
      last.worth .pushStored :=
  messages_reconciled unlimited (HitsBelow.of_length
    (Nat.lt_of_le_of_lt (callsMade_length unlimited samplePushing) (by decide)))

end Service

end EnigmaRelay
