import EnigmaRelay.Sled.PushRetry

open Std Machine

namespace EnigmaRelay.SledStore

section Trees

variable [UuidText]

section Acks

variable {limits : RelayLimits} {store : SledStore} {recipient : String} {items : Vec AckItem} {tries : List Try}

/-- An acknowledgement of these items, or a push of a pair that is not one of them. -/
def Try.retries (recipient : String) (items : Vec AckItem) : Try → Prop
  | .push msg _ => ¬ (msg.recipient = recipient ∧ msg.ackItem ∈ items.toList)
  | .ack _ owner named _ => owner = recipient ∧ named = items

/-- The attempt is an acknowledgement whose transaction is committed. -/
def Try.acknowledges : Try → Bool
  | .push _ _ => false
  | .ack _ _ _ fault => !fault.aborts

def removes (msg : QueueMessage) (event : Attempted) : Bool :=
  event.before.messages[msg.key]? = some msg && event.after.messages[msg.key]? = none

theorem push_messages (inbound : InboundMessage) {msg : QueueMessage} (bound : msg.arrivalSeq < 2 ^ 64)
    (other : ¬ (inbound.recipient = msg.recipient ∧ inbound.ackItem = msg.ackItem)) :
    (SledStore.push limits inbound store).2.messages[msg.key]? = store.messages[msg.key]? := by
  rcases push_after limits inbound store with unchanged | ⟨_, _, arrivalSeq, _, number, _, pushed⟩
  · rw [unchanged]
  · rw [pushed, accept, OrderedMap.getElem?_insert, if_neg]
    intro same
    have fits : (inbound.queued arrivalSeq).arrivalSeq < 2 ^ 64 := currentSeq_bound number
    obtain ⟨owners, _, pairs⟩ := key_injective fits bound same
    exact other ⟨owners, pairs⟩

theorem ack_messages (matched : store.Matched) (order : HashOrder) (recipient : String) (items : Vec AckItem)
    (key : Bytes) :
    (SledStore.ack order recipient items store).2.messages[key]? =
      (store.messages[key]?).filter (fun msg => ¬ (msg.recipient = recipient ∧ msg.ackItem ∈ items.toList)) := by
  obtain ⟨last, _, cleared, acked, _⟩ := ack_cleared matched.keyed matched.indexed recipient items order
  rw [acked]
  exact OrderedMap.getElem?_of_toList_filter cleared.messages key

theorem Matched.push_keeps (matched : store.Matched) (inbound : InboundMessage) {key : Bytes} {msg : QueueMessage}
    (here : store.messages[key]? = some msg) : (SledStore.push limits inbound store).2.messages[key]? = some msg := by
  rcases push_after limits inbound store with unchanged | ⟨absent, _, arrivalSeq, _, number, _, pushed⟩
  · rwa [unchanged]
  · have bound : (inbound.queued arrivalSeq).arrivalSeq < 2 ^ 64 := currentSeq_bound number
    have fresh := matched.indexed.fresh matched.keyed bound absent
    rw [pushed, accept, OrderedMap.getElem?_insert, if_neg, here]
    intro same
    rw [same, here] at fresh
    cases fresh

theorem Matched.named_step (matched : store.Matched) {msg : QueueMessage} (bound : msg.arrivalSeq < 2 ^ 64)
    (named : msg.recipient = recipient ∧ msg.ackItem ∈ items.toList) {input : Try}
    (retries : input.retries recipient items) :
    (tryStep limits store input).2.messages[msg.key]? =
      if input.acknowledges then none else store.messages[msg.key]? := by
  cases input with
  | push inbound fault =>
    change (attempt fault (SledStore.push limits inbound) store).2.messages[msg.key]? = store.messages[msg.key]?
    rw [attempt_after]
    split
    · rfl
    · apply push_messages inbound bound
      rintro ⟨owner, pair⟩
      exact retries (owner.symm ▸ pair.symm ▸ named)
  | ack order owner listed fault =>
    obtain ⟨rfl, rfl⟩ := retries
    change (attempt fault (SledStore.ack order owner listed) store).2.messages[msg.key]? =
      if (!fault.aborts) = true then none else store.messages[msg.key]?
    rw [attempt_after]
    cases fault.aborts with
    | true => rfl
    | false =>
      change (SledStore.ack order owner listed store).2.messages[msg.key]? = none
      rw [ack_messages matched]
      cases here : store.messages[msg.key]? with
      | none => rfl
      | some found =>
        obtain ⟨own, small⟩ := matched.keyed _ _ here
        obtain ⟨owners, _, pairs⟩ := key_injective bound small own
        rw [Option.filter_some, if_neg]
        rw [← owners, ← pairs]
        simp [named]

theorem Matched.refunds (matched : store.Matched) (order : HashOrder) (recipient : String) (items : Vec AckItem)
    (fault : Fault) :
    ∃ gone, (stored store.messages recipient).Perm
        (gone ++ stored (tryStep limits store (.ack order recipient items fault)).2.messages recipient) ∧
      readQuota (tryStep limits store (.ack order recipient items fault)).2.quota recipient =
        gone.foldl QuotaValue.refund (readQuota store.quota recipient) := by
  have after : (tryStep limits store (.ack order recipient items fault)).2 =
      if fault.aborts then store else (SledStore.ack order recipient items store).2 :=
    attempt_after fault (SledStore.ack order recipient items) store
  rw [after]
  split
  · exact ⟨[], .refl _, rfl⟩
  · obtain ⟨last, _, cleared, acked, _⟩ := ack_cleared matched.keyed matched.indexed recipient items order
    obtain ⟨gone, split, charged⟩ := cleared.refunds
    refine ⟨gone, ?_, ?_⟩
    · rw [acked]
      exact split
    · rw [acked, readQuota_insert, if_pos rfl]
      exact charged

theorem Matched.never_again (matched : store.Matched) {msg : QueueMessage} (bound : msg.arrivalSeq < 2 ^ 64)
    (named : msg.recipient = recipient ∧ msg.ackItem ∈ items.toList) (gone : store.messages[msg.key]? = none)
    (retries : ∀ input ∈ tries, input.retries recipient items) :
    (trace (tryStep limits) store tries).countP (removes msg) = 0 := by
  induction tries generalizing store with
  | nil => rfl
  | cons input rest ih =>
    have next : (tryStep limits store input).2.Matched := matched.step input
    have absent : (tryStep limits store input).2.messages[msg.key]? = none := by
      rw [matched.named_step bound named (retries input List.mem_cons_self), gone, ite_self]
    rw [trace, List.countP_cons_of_neg]
    · exact ih next absent (fun other member => retries other (List.mem_cons_of_mem _ member))
    · simp [removes, taken, gone]

theorem Matched.once (matched : store.Matched) {msg : QueueMessage} (here : store.messages[msg.key]? = some msg)
    (named : msg.recipient = recipient ∧ msg.ackItem ∈ items.toList)
    (retries : ∀ input ∈ tries, input.retries recipient items) :
    (trace (tryStep limits) store tries).countP (removes msg) = if tries.any Try.acknowledges then 1 else 0 := by
  have bound := (matched.keyed _ _ here).2
  induction tries generalizing store with
  | nil => rfl
  | cons input rest ih =>
    have next : (tryStep limits store input).2.Matched := matched.step input
    have later : ∀ other ∈ rest, other.retries recipient items :=
      fun other member => retries other (List.mem_cons_of_mem _ member)
    have after := @Matched.named_step _ limits _ _ _ matched _ bound named _ (retries input List.mem_cons_self)
    rw [trace, List.any_cons]
    cases acks : input.acknowledges with
    | true =>
      rw [acks, if_pos rfl] at after
      rw [List.countP_cons_of_pos, next.never_again bound named after later]
      · rfl
      · simp [removes, taken, here, after]
    | false =>
      rw [acks, if_neg (by decide)] at after
      rw [List.countP_cons_of_neg, ih next (after.trans here) later]
      · rfl
      · simp [removes, taken, here, after]

end Acks

end Trees

end EnigmaRelay.SledStore
