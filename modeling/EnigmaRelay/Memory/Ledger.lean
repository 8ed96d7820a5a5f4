import EnigmaRelay.Foundation.Totals
import EnigmaRelay.Memory.Invariant
import EnigmaRelay.Memory.PurgeLaw

open Std Machine Totals

namespace EnigmaRelay

theorem RecipientState.Coherent.ackItems_balance {recipient : String} {entry : RecipientState}
    (coherent : entry.Coherent recipient) {keys : List AckItem} {outcome : AckOutcome}
    (room : outcome.deleted + keys.length ≤ u64Max) :
    (keys.foldl RecipientState.ackItem (entry, outcome)).1.messages.length +
        (keys.foldl RecipientState.ackItem (entry, outcome)).2.deleted = entry.messages.length + outcome.deleted := by
  induction keys generalizing entry outcome with
  | nil => rfl
  | cons key rest ih =>
    rw [List.length_cons] at room
    rw [List.foldl_cons]
    rcases coherent.ackItem outcome key with ⟨_, same⟩ | ⟨seq, msg, found, _, same⟩
    · rw [same]
      exact ih coherent (show outcome.deleted + rest.length ≤ u64Max by omega)
    · have raised : saturatingAdd outcome.deleted 1 = outcome.deleted + 1 := saturatingAdd_of_le (by omega)
      have counted := (RecipientState.messages_perm found).length_eq
      rw [List.length_cons] at counted
      rw [same, ih (coherent.drop seq) (by dsimp only; omega)]
      dsimp only
      omega

theorem RecipientState.Coherent.ack_balance {recipient : String} {entry : RecipientState}
    (coherent : entry.Coherent recipient) (order : HashOrder) (items : Vec AckItem) :
    (entry.ack order items).2.messages.length + (Outcome.ack (entry.ack order items).1).deleted =
      entry.messages.length := by
  have size : (order.items.arrange items.toList.dedup).length ≤ u64Max := by
    rw [(order.items.arranged items.toList.dedup).length_eq]
    exact Nat.le_trans (List.dedup_sublist _).length_le items.bounded
  have balance := @RecipientState.Coherent.ackItems_balance _ _ coherent _ {} (by simpa using size)
  simpa [RecipientState.ack, Outcome.deleted] using balance

namespace MemStore

/-- How many messages the store holds, over all recipients. -/
def held (state : MemStore) : Nat := total (fun entry => entry.messages.length) state

theorem held_insert (state : MemStore) (recipient : String) (entry : RecipientState) :
    held (state.insert recipient entry) + (state.entryOf recipient).messages.length =
      held state + entry.messages.length := by
  cases known : state[recipient]? with
  | none =>
    rw [entryOf_of_none known, held, total_insert_new _ _ known]
    simp [RecipientState.messages, held, Nat.add_comm]
  | some old =>
    rw [entryOf_of_some known]
    exact total_insert _ entry known

theorem overall_length (state : MemStore) : state.overall List.length = state.held := by
  rw [overall, held, total, ← ExtTreeMap.map_fst_toList_eq_keys, List.map_map]
  congr 1
  apply List.map_congr_left
  intro entry member
  have known : state[entry.1]? = some entry.2 := OrderedMap.mem_toList.mp member
  rw [Function.comp_apply, queued_of_some known]

/-- The expired messages that a pull has dropped on its way. -/
def lapsed (event : Event MemStore) : Nat :=
  match event.input.1 with
  | .pull recipient _ _ nowMs => (event.before.queued recipient).countP (fun msg =>
      msg ∉ event.after.queued recipient ∧ msg.deadlineMs ≤ nowMs)
  | _ => 0

variable [Base64] (limits : RelayLimits)

theorem held_pull (state : MemStore) (recipient : String) (cursor : Option String) (limit nowMs : Nat) :
    held (pull recipient cursor limit nowMs state).2 + (state.queued recipient).length =
      held state + (queued (pull recipient cursor limit nowMs state).2 recipient).length := by
  unfold pull
  split
  · rfl
  · rename_i entry known
    have balance := held_insert state recipient (entry.pull recipient cursor limit nowMs).2
    dsimp only
    rw [queued_insert, if_pos rfl]
    exact balance

theorem pull_lapsed {state : MemStore} (coherent : state.Coherent) (recipient : String) (cursor : Option String)
    (limit nowMs : Nat) (order : HashOrder) :
    (queued (pull recipient cursor limit nowMs state).2 recipient).length +
        lapsed (event limits state (.pull recipient cursor limit nowMs, order)) = (state.queued recipient).length := by
  have reduced : Reduces (.pull recipient cursor limit nowMs) recipient (state.entryOf recipient)
      ((pull recipient cursor limit nowMs state).2.entryOf recipient) := by
    rcases step_effect limits coherent (.pull recipient cursor limit nowMs, order) recipient with
      ⟨_, stores, _⟩ | ⟨reduced, _⟩
    · cases stores.call
    · exact reduced
  obtain ⟨keep, left, removes⟩ := reduced.messages (coherent recipient)
  have after : queued (pull recipient cursor limit nowMs state).2 recipient = (state.queued recipient).filter keep := left
  have gone : lapsed (event limits state (.pull recipient cursor limit nowMs, order)) =
      (state.queued recipient).countP (fun msg => !keep msg) := by
    change (state.queued recipient).countP (fun msg =>
      msg ∉ queued (pull recipient cursor limit nowMs state).2 recipient ∧ msg.deadlineMs ≤ nowMs) = _
    rw [after]
    apply List.countP_congr
    intro msg member
    rw [decide_eq_true_iff, List.mem_filter, Bool.not_eq_true']
    constructor
    · rintro ⟨absent, _⟩
      by_contra kept
      exact absent ⟨member, Bool.not_eq_false _ ▸ kept⟩
    · intro dropped
      refine ⟨?_, (removes msg member dropped).2⟩
      rintro ⟨_, kept⟩
      rw [dropped] at kept
      cases kept
  rw [gone, after, ← List.countP_eq_length_filter, List.length_eq_countP_add_countP keep (l := state.queued recipient)]
  simp

theorem step_ledger {state : MemStore} (coherent : state.Coherent) (input : Call × HashOrder) :
    held (next limits state input).2 + ((next limits state input).1.deleted + (next limits state input).1.removed +
      lapsed (event limits state input)) = held state + (next limits state input).1.stored := by
  obtain ⟨call, order⟩ := input
  cases call with
  | push msg =>
    have after : (next limits state (.push msg, order)).2 =
        state.insert msg.recipient ((state.entryOf msg.recipient).push limits msg).2 := rfl
    have answer :
        (next limits state (.push msg, order)).1 = .push ((state.entryOf msg.recipient).push limits msg).1 := rfl
    have balance := held_insert state msg.recipient ((state.entryOf msg.recipient).push limits msg).2
    rw [after, answer]
    change _ + (0 + 0 + 0) = _
    rcases RecipientState.push_cases limits msg (state.entryOf msg.recipient) with
      ⟨_, _, pushed⟩ | ⟨_, _, pushed⟩ | ⟨_, _, pushed⟩
    · rw [pushed] at balance ⊢
      simp only [Outcome.stored, Bool.false_eq_true, if_false] at balance ⊢
      omega
    · rw [pushed] at balance ⊢
      simp only [Outcome.stored] at balance ⊢
      omega
    · rw [pushed] at balance ⊢
      dsimp only at balance
      rw [(coherent msg.recipient).accept_messages, List.length_append, List.length_singleton] at balance
      simp only [Outcome.stored, if_true]
      omega
  | pull recipient cursor limit nowMs =>
    have counted := pull_lapsed limits coherent recipient cursor limit nowMs order
    have moved := held_pull state recipient cursor limit nowMs
    change held (pull recipient cursor limit nowMs state).2 +
      (0 + 0 + lapsed (event limits state (.pull recipient cursor limit nowMs, order))) = held state + 0
    omega
  | ack recipient items =>
    change held (ack order recipient items state).2 +
      ((Outcome.ack (ack order recipient items state).1).deleted + 0 + 0) = held state + 0
    unfold ack
    split
    · rfl
    · rename_i entry known
      have here : entry.Coherent recipient := entryOf_of_some known ▸ coherent recipient
      have counted := here.ack_balance order items
      have balance := held_insert state recipient (entry.ack order items).2
      rw [entryOf_of_some known] at balance
      dsimp only
      omega
  | purgeExpired nowMs max =>
    obtain ⟨answered, counted⟩ := purge_counted order nowMs max state
    have length := counted.length
    rw [overall_length, overall_length] at length
    change held (purgeExpired order nowMs max state).2 +
      (0 + (Outcome.purgeExpired (purgeExpired order nowMs max state).1).removed + 0) = held state + 0
    rw [answered]
    simp only [Outcome.removed]
    omega

/-- Every message that was stored is still held, or was deleted, purged or dropped by a pull, once. -/
theorem run_balances {calls : List (Call × HashOrder)} (few : Few limits calls) :
    held (final (next limits) new calls) + booked Outcome.deleted (trace (next limits) new calls) +
        booked Outcome.removed (trace (next limits) new calls) + ((trace (next limits) new calls).map lapsed).sum =
      booked Outcome.stored (trace (next limits) new calls) := by
  obtain ⟨_, _, events⟩ := run_coherent limits few
  have ledger := @ledger_run _ _ _ _ _ (next limits) held (fun event => event.output.stored)
    (fun event => event.output.deleted + event.output.removed + lapsed event) new calls
    (fun event member => by
      have balance := step_ledger limits (events event member).1 event.input
      have shape : taken (next limits) event.before event.input = event := (trace_event (next limits) member).2
      rw [← shape]
      exact balance)
  have start : held new = 0 := total_empty _
  rw [List.sum_map_add, List.sum_map_add] at ledger
  change held _ + (booked Outcome.deleted _ + booked Outcome.removed _ + _) = _ + booked Outcome.stored _ at ledger
  omega

end MemStore

end EnigmaRelay
