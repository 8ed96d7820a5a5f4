import EnigmaRelay.Foundation.Totals
import EnigmaRelay.Sled.PurgeExact

open Std Machine Totals

namespace EnigmaRelay.SledStore

/-- How many messages the tree holds, over all recipients. -/
def held (store : SledStore) : Nat := store.messages.toList.length

theorem length_by_recipient (messages : Tree QueueMessage) (recipient : String) :
    messages.toList.length = (stored messages recipient).length +
      (messages.toList.filter (fun entry => entry.2.recipient ≠ recipient)).length := by
  rw [stored, List.filter_map, List.length_map,
    List.length_eq_length_filter_add (fun entry => entry.2.recipient = recipient)]
  congr 2
  apply List.filter_congr
  intro entry _
  simp

section Trees

variable [UuidText]

theorem ack_held {store : SledStore} (consistent : store.Consistent) (order : HashOrder) (recipient : String)
    (items : Vec AckItem) : held (ack order recipient items store).2 +
      (Outcome.ack (ack order recipient items store).1).deleted = held store := by
  obtain ⟨last, aligned, cleared, acked, left⟩ := ack_cleared consistent.keyed consistent.indexed recipient items order
  have others : last.messages.toList.filter (fun entry => entry.2.recipient ≠ recipient) =
      store.messages.toList.filter (fun entry => entry.2.recipient ≠ recipient) := by
    rw [cleared.messages, List.filter_filter]
    apply List.filter_congr
    intro entry _
    by_cases own : entry.2.recipient = recipient <;> simp [Acked, own]
  have before := length_by_recipient store.messages recipient
  have after := length_by_recipient last.messages recipient
  rw [others] at after
  rw [← card_pairs consistent.keyed consistent.indexed] at before
  rw [← card_pairs aligned.keyed aligned.indexed, left] at after
  have counted := Finset.card_sdiff_add_card_inter (pairs store.messages recipient) items.toList.toFinset
  rw [Finset.inter_comm] at counted
  rw [acked]
  simp only [held, Outcome.deleted]
  omega

theorem purge_held (order : HashOrder) (nowMs max : Nat) (store : SledStore) :
    held (purgeExpired order nowMs max store).2 + (Outcome.purgeExpired (purgeExpired order nowMs max store).1).removed =
      held store := by
  obtain ⟨counted, left⟩ := purgeScan_takes nowMs (min max gcBatchLimit) store.messages.toList { store := store }
  have part : (due nowMs max store.messages).Sublist store.messages.toList :=
    (List.take_sublist _ _).trans List.filter_sublist
  have taken : (store.messages.toList.filter
      (fun entry => entry.1 ∈ (due nowMs max store.messages).map Prod.fst)).Perm (due nowMs max store.messages) := by
    apply (List.perm_ext_iff_of_nodup ((OrderedMap.toList_nodup _).filter _) (part.nodup (OrderedMap.toList_nodup _))).mpr
    intro entry
    rw [List.mem_filter, decide_eq_true_eq, List.mem_map]
    constructor
    · rintro ⟨member, other, gone, key⟩
      have bound := OrderedMap.mem_toList.mp (part.subset gone)
      rw [key, OrderedMap.mem_toList.mp member] at bound
      rwa [Prod.ext key.symm (Option.some.inj bound)]
    · intro gone
      exact ⟨part.subset gone, entry, gone, rfl⟩
  have split := store.messages.toList.length_eq_length_filter_add
    (fun entry => entry.1 ∈ (due nowMs max store.messages).map Prod.fst)
  have purged : (purgeExpired order nowMs max store).2.messages =
      (purgeScan nowMs (min max gcBatchLimit) store.messages.toList { store := store }).store.messages := rfl
  have rest : held (purgeExpired order nowMs max store).2 = (store.messages.toList.filter
      (fun entry => !decide (entry.1 ∈ (due nowMs max store.messages).map Prod.fst))).length := by
    rw [held, purged, left]
    congr 1
    apply List.filter_congr
    intro entry _
    simp [due]
  have answer : (Outcome.purgeExpired (purgeExpired order nowMs max store).1).removed =
      0 + (due nowMs max store.messages).length := counted
  rw [rest, answer, held, split, taken.length_eq]
  omega

variable [Base64] (limits : RelayLimits)

theorem step_ledger {store : SledStore} (consistent : store.Consistent) (input : Call × HashOrder) :
    held (next limits store input).2 + ((next limits store input).1.deleted + (next limits store input).1.removed) =
      held store + (next limits store input).1.stored := by
  obtain ⟨call, order⟩ := input
  cases call with
  | push msg =>
    change held (push limits msg store).2 + (0 + 0) = held store + (Outcome.push (push limits msg store).1).stored
    rcases push_cases limits msg store with ⟨_, _, pushed⟩ | ⟨_, _, pushed⟩ | ⟨_, _, _, _, pushed⟩ |
      ⟨absent, _, arrivalSeq, number, pushed⟩
    · rw [pushed]
      rfl
    · rw [pushed]
      rfl
    · rw [pushed]
      rfl
    · have fresh : store.messages[(msg.queued arrivalSeq).key]? = none :=
        consistent.indexed.fresh consistent.keyed (currentSeq_bound number) absent
      have longer := (OrderedMap.toList_insert_perm store.messages _ (msg.queued arrivalSeq) fresh).length_eq
      rw [pushed]
      exact longer
  | pull recipient cursor limit nowMs =>
    change held (pull recipient cursor limit nowMs store).2 + (0 + 0) = held store + 0
    rw [pull_unchanged]
  | ack recipient items => exact ack_held consistent order recipient items
  | purgeExpired nowMs max =>
    have removed := purge_held order nowMs max store
    change held (purgeExpired order nowMs max store).2 +
      (0 + (Outcome.purgeExpired (purgeExpired order nowMs max store).1).removed) = held store + 0
    omega

/-- Every message that was stored is still held, or was deleted or purged, once. -/
theorem trees_balance (calls : List (Call × HashOrder)) :
    held (final (next limits) new calls) + booked Outcome.deleted (trace (next limits) new calls) +
        booked Outcome.removed (trace (next limits) new calls) =
      booked Outcome.stored (trace (next limits) new calls) := by
  have ledger := @ledger_run _ _ _ _ _ (next limits) held (fun event => event.output.stored)
    (fun event => event.output.deleted + event.output.removed) new calls
    (fun event member => by
      obtain ⟨earlier, _, _, shape⟩ := trace_member (next limits) member
      rw [shape]
      exact step_ledger limits (run_consistent limits earlier) event.input)
  have start : held new = 0 := by simp [held, new]
  rw [List.sum_map_add] at ledger
  change held _ + (booked Outcome.deleted _ + booked Outcome.removed _) = _ + booked Outcome.stored _ at ledger
  omega

end Trees

end EnigmaRelay.SledStore
