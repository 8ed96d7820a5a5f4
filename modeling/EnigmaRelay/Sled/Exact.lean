import EnigmaRelay.Sled.Ascending
import EnigmaRelay.Sled.PurgeExact

open Std Machine

namespace EnigmaRelay.SledStore

section Trees

variable [UuidText]

/-- Trees that agree with each other, with every recipient within its limits. -/
structure Exact (limits : RelayLimits) (store : SledStore) : Prop where
  consistent : store.Consistent
  ascending : store.Ascending
  agreed : store.Agreed
  count : ∀ recipient, (readQuota store.quota recipient).count ≤ limits.maxMessagesPerUser
  bytes : ∀ recipient, (readQuota store.quota recipient).bytes ≤ limits.maxQueueBytesPerUser

theorem new_exact (limits : RelayLimits) : Exact limits new :=
  ⟨new_consistent, new_ascending, new_agreed, fun _ => by simp [readQuota, new], fun _ => by simp [readQuota, new]⟩

theorem Ascending.length_le {store : SledStore} (ascending : store.Ascending) (keyed : Keyed store.messages)
    (recipient : String) : (stored store.messages recipient).length ≤ store.spent recipient := by
  have distinct : ((stored store.messages recipient).map QueueMessage.arrivalSeq).Nodup :=
    List.pairwise_map.mpr ((ascending.sorted keyed recipient).imp Nat.ne_of_lt)
  have bounded : (stored store.messages recipient).map QueueMessage.arrivalSeq ⊆ List.range (store.spent recipient) := by
    intro seq member
    obtain ⟨msg, listed, rfl⟩ := List.mem_map.mp member
    exact List.mem_range.mpr (ascending recipient msg listed).1
  have counted := (distinct.subperm bounded).length_le
  rwa [List.length_map, List.length_range] at counted

section Push

variable {limits : RelayLimits} {store : SledStore} {msg : InboundMessage}

theorem Exact.fits (exact : store.Exact limits) (bytesCap : limits.maxQueueBytesPerUser < u64Max)
    (numbers : store.spent msg.recipient < u64Max) (room : HasRoom limits msg (readQuota store.quota msg.recipient)) :
    (readQuota store.quota msg.recipient).bytes + msg.payloadBytes ≤ u64Max ∧
      (readQuota store.quota msg.recipient).count + 1 ≤ u64Max := by
  constructor
  · have sum := saturatingAdd_exact bytesCap room.bytes
    rw [← sum]
    exact saturatingAdd_le _ _
  · have held := exact.ascending.length_le exact.agreed.keyed msg.recipient
    have counted : (readQuota store.quota msg.recipient).count = (stored store.messages msg.recipient).length :=
      congrArg QuotaValue.count (exact.agreed.quota msg.recipient)
    omega

theorem Exact.push (exact : store.Exact limits) (bytesCap : limits.maxQueueBytesPerUser < u64Max)
    (numbers : ∀ result, (SledStore.push limits msg store).1 = .ok result → result.stored = true →
      store.spent msg.recipient < u64Max) :
    (SledStore.push limits msg store).2.Agreed ∧
      (∀ recipient, (readQuota (SledStore.push limits msg store).2.quota recipient).count ≤ limits.maxMessagesPerUser ∧
        (readQuota (SledStore.push limits msg store).2.quota recipient).bytes ≤ limits.maxQueueBytesPerUser) ∧
      ∀ result, (SledStore.push limits msg store).1 = .ok result →
        { bytes := result.queueBytes, count := result.queueLen } =
          total (stored (SledStore.push limits msg store).2.messages msg.recipient) := by
  rcases push_cases limits msg store with ⟨_, _, pushed⟩ | ⟨_, _, pushed⟩ | ⟨_, _, err, _, pushed⟩ |
    ⟨_, room, arrivalSeq, _, pushed⟩
  · rw [pushed]
    refine ⟨exact.agreed, fun r => ⟨exact.count r, exact.bytes r⟩, ?_⟩
    intro result answered
    cases answered
    exact exact.agreed.quota msg.recipient
  · rw [pushed]
    exact ⟨exact.agreed, fun r => ⟨exact.count r, exact.bytes r⟩, by simp⟩
  · rw [pushed]
    exact ⟨exact.agreed, fun r => ⟨exact.count r, exact.bytes r⟩, by simp⟩
  · have number := numbers _ (congrArg Prod.fst pushed) rfl
    have agreed : (SledStore.push limits msg store).2.Agreed :=
      exact.agreed.push (fun _ => exact.fits bytesCap number room)
    have charged : ∀ recipient, readQuota (SledStore.push limits msg store).2.quota recipient =
        if msg.recipient = recipient then
          { bytes := saturatingAdd (readQuota store.quota msg.recipient).bytes msg.payloadBytes
            count := saturatingAdd (readQuota store.quota msg.recipient).count 1 }
        else readQuota store.quota recipient := by
      intro recipient
      rw [pushed, accept, readQuota_insert]
    refine ⟨agreed, ?_, ?_⟩
    · intro recipient
      rw [charged]
      split
      · exact ⟨room.count, room.bytes⟩
      · exact ⟨exact.count recipient, exact.bytes recipient⟩
    · intro result answered
      rw [← agreed.quota, charged, if_pos rfl]
      rw [pushed] at answered
      cases answered
      rfl

end Push

theorem within_of_shrinks {limits : RelayLimits} {store after : SledStore} (exact : store.Exact limits)
    (agreed : after.Agreed) {kept : Bytes × QueueMessage → Bool}
    (left : after.messages.toList = store.messages.toList.filter kept) (recipient : String) :
    (readQuota after.quota recipient).count ≤ limits.maxMessagesPerUser ∧
      (readQuota after.quota recipient).bytes ≤ limits.maxQueueBytesPerUser := by
  have part : List.Sublist (stored after.messages recipient) (stored store.messages recipient) := by
    rw [stored, stored, left]
    exact (List.filter_sublist.map _).filter _
  have count := part.length_le
  have bytes : ((stored after.messages recipient).map QueueMessage.payloadBytes).sum ≤
      ((stored store.messages recipient).map QueueMessage.payloadBytes).sum :=
    (part.map QueueMessage.payloadBytes).sum_le_sum (fun _ _ => Nat.zero_le _)
  have before := exact.agreed.quota recipient
  have countBefore := exact.count recipient
  have bytesBefore := exact.bytes recipient
  rw [before] at countBefore bytesBefore
  rw [agreed.quota]
  exact ⟨Nat.le_trans count countBefore, Nat.le_trans bytes bytesBefore⟩

variable [Base64] (limits : RelayLimits)

theorem push_numbered {store : SledStore} {msg : InboundMessage} {order : HashOrder}
    (room : ∀ recipient, Event.storedFor recipient (event limits store (.push msg, order)) = true →
      store.spent recipient < u64Max) :
    ∀ result, (SledStore.push limits msg store).1 = .ok result → result.stored = true →
      store.spent msg.recipient < u64Max := by
  intro result answered kept
  apply room msg.recipient
  have told : Event.storedFor msg.recipient (event limits store (.push msg, order)) = _ :=
    Event.storedFor_push msg.recipient store _ msg order (SledStore.push limits msg store).1
  rw [told, answered]
  simp [kept]

theorem step_exact (bytesCap : limits.maxQueueBytesPerUser < u64Max) {store : SledStore} (exact : store.Exact limits)
    (input : Call × HashOrder)
    (room : ∀ recipient, Event.storedFor recipient (event limits store input) = true → store.spent recipient < u64Max) :
    (next limits store input).2.Exact limits ∧ ∀ recipient, (next limits store input).2.spent recipient =
      store.spent recipient + if Event.storedFor recipient (event limits store input) then 1 else 0 := by
  obtain ⟨ascending, raised⟩ := step_ascending limits exact.consistent exact.ascending input room
  have consistent := step_consistent limits exact.consistent input
  have rest : (next limits store input).2.Agreed ∧
      ∀ recipient, (readQuota (next limits store input).2.quota recipient).count ≤ limits.maxMessagesPerUser ∧
        (readQuota (next limits store input).2.quota recipient).bytes ≤ limits.maxQueueBytesPerUser := by
    obtain ⟨call, order⟩ := input
    cases call with
    | push msg =>
      have numbers := push_numbered limits room
      obtain ⟨agreed, within, _⟩ := exact.push bytesCap numbers
      exact ⟨agreed, within⟩
    | pull recipient cursor limit nowMs =>
      have same : (next limits store (.pull recipient cursor limit nowMs, order)).2 = store :=
        pull_unchanged recipient cursor limit nowMs store
      rw [same]
      exact ⟨exact.agreed, fun r => ⟨exact.count r, exact.bytes r⟩⟩
    | ack recipient items =>
      have law := exact.agreed.acknowledges recipient items order
      exact ⟨law.agreed, within_of_shrinks exact law.agreed law.messages⟩
    | purgeExpired nowMs max =>
      have law := exact.agreed.purges limits order nowMs max
      exact ⟨law.agreed, within_of_shrinks exact law.agreed law.messages⟩
  exact ⟨⟨consistent, ascending, rest.1, fun r => (rest.2 r).1, fun r => (rest.2 r).2⟩, raised⟩

/-- What the answers of a call say is so. -/
def Truthful (event : Event SledStore) : Prop :=
  match event.input.1, event.output with
  | .push msg, .push (.ok result) =>
    { bytes := result.queueBytes, count := result.queueLen } = total (stored event.after.messages msg.recipient)
  | .push _, .push (.error err) => err = .quotaExceeded ∧ event.after = event.before
  | .pull _ _ _ _, .pull _ => event.after = event.before
  | .ack recipient items, .ack _ => Acknowledges event.before recipient items event.input.2
  | .purgeExpired nowMs max, .purgeExpired _ => Purges limits event.before event.input.2 nowMs max
  | _, _ => False

theorem step_truthful (bytesCap : limits.maxQueueBytesPerUser < u64Max) {store : SledStore} (exact : store.Exact limits)
    (input : Call × HashOrder)
    (room : ∀ recipient, Event.storedFor recipient (event limits store input) = true → store.spent recipient < u64Max) :
    Truthful limits (event limits store input) := by
  obtain ⟨call, order⟩ := input
  cases call with
  | push msg =>
    have numbers := push_numbered limits room
    obtain ⟨_, _, reports⟩ := exact.push bytesCap numbers
    have shape : event limits store (.push msg, order) = ⟨store, (.push msg, order),
        .push (SledStore.push limits msg store).1, (SledStore.push limits msg store).2⟩ := rfl
    rw [shape]
    cases answered : (SledStore.push limits msg store).1 with
    | ok result => exact reports result answered
    | error err =>
      rcases push_cases limits msg store with ⟨_, _, pushed⟩ | ⟨_, _, pushed⟩ | ⟨_, _, _, failed, _⟩ |
        ⟨_, _, _, _, pushed⟩
      · rw [pushed] at answered
        cases answered
      · rw [pushed] at answered ⊢
        cases answered
        exact ⟨rfl, rfl⟩
      · obtain ⟨value, read⟩ := exact.consistent.numbered msg.recipient
        rw [failed] at read
        cases read
      · rw [pushed] at answered
        cases answered
  | pull recipient cursor limit nowMs => exact pull_unchanged recipient cursor limit nowMs store
  | ack recipient items => exact exact.agreed.acknowledges recipient items order
  | purgeExpired nowMs max => exact exact.agreed.purges limits order nowMs max

/-- Whoever the recipients are, every state that the trees reach is exact and every answer is true. -/
theorem trees_exact (bytesCap : limits.maxQueueBytesPerUser < 2 ^ 64 - 1) {calls : List (Call × HashOrder)}
    (few : Few limits calls) :
    (final (next limits) new calls).Exact limits ∧
      ∀ event ∈ trace (next limits) new calls, event.before.Exact limits ∧ event.after.Exact limits ∧
        Truthful limits event := by
  have within : ∀ recipient, spent new recipient +
      (trace (next limits) new calls).countP (Event.storedFor recipient) ≤ u64Max := by
    intro recipient
    have bound := few recipient
    rw [spent_new, u64Max]
    omega
  obtain ⟨last, _, events⟩ := budget_run (next limits)
    (fun store input exact room => step_exact limits bytesCap exact input room) (new_exact limits) within
  refine ⟨last, ?_⟩
  intro event member
  obtain ⟨before, after, room⟩ := events event member
  refine ⟨before, after, ?_⟩
  obtain ⟨_, _, _, shape⟩ := trace_member (next limits) member
  rw [shape] at before room ⊢
  exact step_truthful limits bytesCap before _ room

end Trees

def sampleDay : List (Call × HashOrder) :=
  [(.push (sample "a:b" 1 0 5 3), .asListed), (.push (sample "a" 1 0 20 3), .asListed),
    (.push (sample "a:b" 1 0 5 3), .asListed), (.ack "a" sampleAck, .asListed), (.purgeExpired 10 1024, .asListed)]

theorem trees_exact_sample : (final (next sampleLimits) new sampleDay).Exact sampleLimits :=
  (trees_exact sampleLimits (by decide) (HitsBelow.of_length (by decide))).1

end EnigmaRelay.SledStore
