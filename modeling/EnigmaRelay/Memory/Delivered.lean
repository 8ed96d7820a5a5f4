import EnigmaRelay.Memory.History

open Std Machine

namespace EnigmaRelay.MemStore

abbrev Attributed := Nat × (Call × HashOrder)

abbrev ClientEvent := Machine.Step MemStore Attributed Outcome

namespace ClientEvent

def event (event : ClientEvent) : Event MemStore := ⟨event.before, event.input.2, event.output, event.after⟩

def returned (recipient : String) (event : ClientEvent) : List QueueMessage :=
  match event.input.2.1, event.output with
  | .pull addressee _ _ _, .pull (.ok batch) => if addressee = recipient then batch.items else []
  | _, _ => []

end ClientEvent

def received (past : List ClientEvent) (client : Nat) (recipient : String) : List QueueMessage :=
  (past.filter (fun event => event.input.1 = client)).flatMap (ClientEvent.returned recipient)

def removed (recipient : String) (event : ClientEvent) : List QueueMessage :=
  (event.before.queued recipient).filter (· ∉ event.after.queued recipient)

/-- Clients acknowledge only pairs of messages they have received. -/
def AcksReceived (past : List ClientEvent) (event : ClientEvent) : Prop :=
  match event.input.2.1 with
  | .ack recipient items => ∀ item ∈ items.toList, ∃ msg ∈ received past event.input.1 recipient, msg.ackItem = item
  | _ => True

instance (past : List ClientEvent) (event : ClientEvent) : Decidable (AcksReceived past event) :=
  match event with
  | ⟨_, (_, .ack _ items, _), _, _⟩ => inferInstanceAs (Decidable (∀ item ∈ items.toList, _))
  | ⟨_, (_, .push _, _), _, _⟩ => isTrue True.intro
  | ⟨_, (_, .pull _ _ _ _, _), _, _⟩ => isTrue True.intro
  | ⟨_, (_, .purgeExpired _ _, _), _, _⟩ => isTrue True.intro

/-- Every message an acknowledgement removes has been returned by a pull. -/
def RemovesReturned (past : List ClientEvent) (event : ClientEvent) : Prop :=
  match event.input.2.1 with
  | .ack recipient _ => ∀ msg ∈ removed recipient event, ∃ earlier ∈ past, msg ∈ earlier.returned recipient
  | _ => True

instance (past : List ClientEvent) (event : ClientEvent) : Decidable (RemovesReturned past event) :=
  match event with
  | ⟨before, (client, .ack recipient items, order), output, after⟩ =>
    inferInstanceAs (Decidable (∀ msg ∈
      removed recipient ⟨before, (client, .ack recipient items, order), output, after⟩, _))
  | ⟨_, (_, .push _, _), _, _⟩ => isTrue True.intro
  | ⟨_, (_, .pull _ _ _ _, _), _, _⟩ => isTrue True.intro
  | ⟨_, (_, .purgeExpired _ _, _), _, _⟩ => isTrue True.intro

/-- `newer` was stored when `older`, of the same pair, had already left the queue. -/
def Supersedes (past : List ClientEvent) (recipient : String) (older newer : QueueMessage) : Prop :=
  older.arrivalSeq < newer.arrivalSeq ∧ ∃ before event future msg, past = before ++ event :: future ∧
    Event.storedPush recipient event.event = some msg ∧ newer = msg.queued newer.arrivalSeq ∧
    older ∉ event.before.queued recipient

theorem Supersedes.prepend {past : List ClientEvent} {recipient : String} {older newer : QueueMessage}
    (supersedes : Supersedes past recipient older newer) (earlier : List ClientEvent) :
    Supersedes (earlier ++ past) recipient older newer := by
  obtain ⟨below, before, event, future, msg, rfl, stored⟩ := supersedes
  exact ⟨below, earlier ++ before, event, future, msg, (List.append_assoc _ _ _).symm, stored⟩

/-- Of every message that an acknowledgement removes, its client has received that very message, or
    an older one of the same pair that the removed one supersedes. -/
def RemovesReceived (past : List ClientEvent) (event : ClientEvent) : Prop :=
  ∀ recipient items, event.input.2.1 = .ack recipient items → ∀ msg ∈ removed recipient event,
    ∃ delivered ∈ received past event.input.1 recipient, delivered.ackItem = msg.ackItem ∧
      (delivered = msg ∨ Supersedes past recipient delivered msg)

section Clients

variable [Base64] (limits : RelayLimits)

abbrev nextOf (state : MemStore) (input : Attributed) : Outcome × MemStore := next limits state input.2

variable {limits}

theorem returned_queued {event : ClientEvent} (coherent : event.before.Coherent)
    (taken : event = taken (nextOf limits) event.before event.input) {recipient : String} {msg : QueueMessage}
    (member : msg ∈ event.returned recipient) : msg ∈ event.before.queued recipient := by
  unfold ClientEvent.returned at member
  split at member
  · rename_i addressee cursor limit nowMs batch called answered
    split at member
    · rename_i same
      subst same
      have pulled : (MemStore.pull addressee cursor limit nowMs event.before).1 = .ok batch := by
        rw [taken] at answered
        obtain ⟨before, ⟨client, call, order⟩, output, after⟩ := event
        change call = _ at called
        subst called
        exact Outcome.pull.inj answered
      exact (pull_items coherent pulled).subset member
    · cases member
  · cases member

theorem stored_alone {state : MemStore} (coherent : state.Coherent) {input : Call × HashOrder} {recipient : String}
    {push : InboundMessage} (stored : Event.storedPush recipient (event limits state input) = some push)
    {other : QueueMessage} (pair : other.ackItem = push.ackItem) : other ∉ state.queued recipient := by
  intro member
  rcases step_effect limits coherent input recipient with ⟨msg, stores, hit⟩ | ⟨_, miss⟩
  · rw [stores.storedPush hit] at stored
    cases stored
    have known := ((coherent recipient).indexed _ _).mpr ⟨other, (coherent recipient).filed.mem.mp member, pair⟩
    rw [stores.absent] at known
    cases known
  · rw [storedPush_of_miss miss] at stored
    cases stored

theorem nextOf_trace (state : MemStore) (inputs : List Attributed) :
    (trace (nextOf limits) state inputs).map ClientEvent.event = trace (next limits) state (inputs.map Prod.snd) :=
  trace_map (next limits) Prod.snd state inputs

theorem nextOf_final (state : MemStore) (inputs : List Attributed) :
    final (nextOf limits) state inputs = final (next limits) state (inputs.map Prod.snd) :=
  final_map (next limits) Prod.snd state inputs

theorem nextOf_split {earlier later : List Attributed} (few : Few limits ((earlier ++ later).map Prod.snd)) :
    (final (nextOf limits) new earlier).Coherent ∧
      Fits limits (final (nextOf limits) new earlier) (later.map Prod.snd) := by
  rw [List.map_append] at few
  rw [nextOf_final]
  exact few.fits.split new_coherent

/-- Between a delivery and the removal of a message of the same pair, that message was in the queue
    all along, or was stored in between. -/
theorem delivered_or_superseded {state : MemStore} (coherent : state.Coherent) {inputs : List Attributed}
    (fits : Fits limits state (inputs.map Prod.snd)) {recipient : String} {delivered msg : QueueMessage}
    (had : delivered ∈ state.queued recipient) (pair : delivered.ackItem = msg.ackItem)
    (member : msg ∈ (final (nextOf limits) state inputs).queued recipient) :
    delivered = msg ∨ Supersedes (trace (nextOf limits) state inputs) recipient delivered msg := by
  have history := history_run limits coherent fits recipient
  rw [← nextOf_final] at history
  rcases List.mem_append.mp (history.subset member) with kept | later
  · exact .inl ((coherent recipient).distinct had kept pair)
  · right
    have below : delivered.arrivalSeq < state.spent recipient :=
      (coherent recipient).below _ _ ((coherent recipient).filed.mem.mp had)
    have above := numbered_arrivalSeq later
    obtain ⟨past, event, future, push, split, stored, same⟩ := mem_numbered later
    rw [← nextOf_trace] at split
    obtain ⟨before, rest, whole, _, tail⟩ := List.map_eq_append_iff.mp split
    obtain ⟨store, after, parts, rfl, _⟩ := List.map_eq_cons_iff.mp tail
    rw [parts] at whole
    refine ⟨by omega, before, store, after, push, whole, stored, ?_, ?_⟩
    · rw [same]
      rfl
    · obtain ⟨first, second, rfl, _, now, _⟩ := trace_split (nextOf limits) whole
      rw [List.map_append] at fits
      have found := (fits.split coherent).1
      rw [← nextOf_final] at found
      rw [now] at stored ⊢
      apply stored_alone found stored
      rw [pair, same]
      rfl

/-- What an acknowledgement removes was delivered to its client, itself or as an older instance of
    its pair that had left the queue before it was stored. -/
theorem removes_received {inputs : List Attributed} (few : Few limits (inputs.map Prod.snd))
    (honest : Along AcksReceived (trace (nextOf limits) new inputs)) :
    Along RemovesReceived (trace (nextOf limits) new inputs) := by
  rw [along_iff] at honest ⊢
  intro past event future split recipient items called msg member
  have named := honest past event future split
  obtain ⟨earlier, later, rfl, rfl, now, rfl⟩ := trace_split (nextOf limits) split
  obtain ⟨coherent, fits⟩ := nextOf_split few
  obtain ⟨queued, gone⟩ := List.mem_filter.mp member
  have pairListed : msg.ackItem ∈ items.toList := by
    rw [now] at queued gone
    have parts : Fits limits (final (nextOf limits) new earlier) ([event.input.2] ++ later.map Prod.snd) := fits
    obtain ⟨input, here, removes⟩ := absence_run limits coherent parts.left queued (of_decide_eq_true gone)
    rw [List.mem_singleton.mp here, called] at removes
    exact removes.2
  have acked : ∀ item ∈ items.toList, ∃ msg ∈ received (trace (nextOf limits) new earlier) event.input.1 recipient,
      msg.ackItem = item := by
    simpa only [AcksReceived, called] using named
  obtain ⟨delivered, given, pair⟩ := acked _ pairListed
  refine ⟨delivered, given, pair, ?_⟩
  obtain ⟨pulled, listed, had⟩ := List.mem_flatMap.mp given
  obtain ⟨before, after, parts⟩ := List.append_of_mem (List.mem_of_mem_filter listed)
  obtain ⟨first, second, rfl, _, this, _⟩ := trace_split (nextOf limits) parts
  rw [List.append_assoc] at few
  obtain ⟨found, room⟩ := nextOf_split few
  have present : delivered ∈ (final (nextOf limits) new first).queued recipient := by
    have start : pulled.before = final (nextOf limits) new first := congrArg Step.before this
    rw [← start]
    exact returned_queued (start ▸ found) (start ▸ this) had
  have reached :
      msg ∈ (final (nextOf limits) (final (nextOf limits) new first) (pulled.input :: second)).queued recipient := by
    rw [← final_append]
    rw [now] at queued
    exact queued
  rw [trace_append]
  rw [List.map_append] at room
  rcases delivered_or_superseded found room.left present pair reached with same | later
  · exact .inl same
  · exact .inr (later.prepend _)

end Clients

def lateAck : List Attributed :=
  [(0, .push (sample "alice" 1 0 60 3), .asListed),
    (1, .pull "alice" none 10 1, .asListed), (2, .pull "alice" none 10 1, .asListed),
    (1, .ack "alice" sampleAck, .asListed),
    (0, .push (sample "alice" 1 2 62 3), .asListed),
    (2, .ack "alice" sampleAck, .asListed)]

theorem acknowledged_undelivered :
    Along AcksReceived (trace (nextOf sampleLimits) new lateAck) ∧
      ¬ Along RemovesReturned (trace (nextOf sampleLimits) new lateAck) := by
  decide +kernel

theorem removes_received_sample : Along RemovesReceived (trace (nextOf sampleLimits) new lateAck) :=
  removes_received (HitsBelow.of_length (by decide)) (by decide +kernel)

end EnigmaRelay.MemStore
