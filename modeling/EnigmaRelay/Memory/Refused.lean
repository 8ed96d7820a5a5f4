import EnigmaRelay.Memory.Run
import EnigmaRelay.Model.Standard

open Std Machine

namespace EnigmaRelay

namespace RecipientState

theorem ackItem_comm (current : RecipientState × AckOutcome) (a b : AckItem) :
    ackItem (ackItem current a) b = ackItem (ackItem current b) a := by
  obtain ⟨entry, outcome⟩ := current
  by_cases same : a = b
  · rw [same]
  have other : b ≠ a := Ne.symm same
  cases first : entry.idx[a]? with
  | none =>
    cases second : entry.idx[b]? with
    | none => simp [ackItem, first, second]
    | some there =>
      cases found : entry.queue[there]? <;>
        simp [ackItem, first, second, found, OrderedMap.getElem?_erase, other]
  | some here =>
    cases second : entry.idx[b]? with
    | none =>
      cases found : entry.queue[here]? <;>
        simp [ackItem, first, second, found, OrderedMap.getElem?_erase, same]
    | some there =>
      have pairs := OrderedMap.erase_comm entry.idx a b
      by_cases shared : here = there
      · subst shared
        cases found : entry.queue[here]? <;>
          simp [ackItem, first, second, found, OrderedMap.getElem?_erase, same, other, pairs]
      · have apart : there ≠ here := Ne.symm shared
        have queues := OrderedMap.erase_comm entry.queue here there
        cases found : entry.queue[here]? <;> cases further : entry.queue[there]? <;>
          simp [ackItem, first, second, found, further, OrderedMap.getElem?_erase, same, other, pairs, queues,
            shared, apart, saturatingSub, Nat.sub_right_comm]

theorem ack_order (order order' : HashOrder) (items : Vec AckItem) (entry : RecipientState) :
    entry.ack order items = entry.ack order' items := by
  have folded := order.items.foldl_arrange order'.items ackItem ackItem_comm items.toList.dedup (entry, {})
  simp only [ack, folded]

end RecipientState

namespace MemStore

/-- A push that was not stored: over quota, or a duplicate. -/
def Refused (result : Result PushResult) : Prop :=
  result = .error .quotaExceeded ∨ ∃ answer, result = .ok answer ∧ answer.duplicate = true

theorem refused_push {limits : RelayLimits} {msg : InboundMessage} {state : MemStore}
    (refused : Refused (push limits msg state).1) :
    (push limits msg state).2 = state.insert msg.recipient (state.entryOf msg.recipient) := by
  have kept : ((state.entryOf msg.recipient).push limits msg).2 = state.entryOf msg.recipient := by
    rcases RecipientState.push_cases limits msg (state.entryOf msg.recipient) with
      ⟨_, _, pushed⟩ | ⟨_, _, pushed⟩ | ⟨_, _, pushed⟩
    · rw [pushed]
    · rw [pushed]
    · rcases refused with error | ⟨answer, accepted, duplicate⟩
      · simp only [push, pushed] at error
        cases error
      · simp only [push, pushed] at accepted
        cases accepted
        cases duplicate
  simp only [push, kept]

def repeated : Vec AckItem := .ofList [sampleItem 0, sampleItem 0]

theorem ack_repeated_unknown {state : MemStore} {recipient : String} (unknown : state[recipient]? = none) :
    (ack .asListed recipient repeated state).1 = .ok { deleted := 0, missing := 2, remaining := 0 } := by
  simp only [ack, unknown]
  rfl

theorem ack_repeated_empty (state : MemStore) (recipient : String) :
    (ack .asListed recipient repeated (state.insert recipient {})).1 =
      .ok { deleted := 0, missing := 1, remaining := 0 } := by
  have inserted : (state.insert recipient {})[recipient]? = some {} := by simp
  simp only [ack, inserted]
  decide +kernel

section Runs

variable [Base64] {limits : RelayLimits}

theorem next_order (state : MemStore) (call : Call) (order order' : HashOrder) :
    next limits state (call, order) = next limits state (call, order') := by
  cases call with
  | push msg => rfl
  | pull recipient cursor limit nowMs => rfl
  | ack recipient items =>
    simp only [next, RelayStore.step_ack, relayStore, ack]
    split
    · rfl
    · rename_i entry known
      simp only [RecipientState.ack_order order order' items entry]
  | purgeExpired nowMs max => rfl

theorem outputs_order (state : MemStore) {first second : List (Call × HashOrder)}
    (same : first.map Prod.fst = second.map Prod.fst) :
    outputs (next limits) state first = outputs (next limits) state second := by
  induction first generalizing state second with
  | nil =>
    cases second with
    | nil => rfl
    | cons => cases same
  | cons left rest ih =>
    cases second with
    | nil => cases same
    | cons right tail =>
      obtain ⟨call, order⟩ := left
      obtain ⟨call', order'⟩ := right
      obtain ⟨rfl, later⟩ := List.cons.inj same
      have now := @next_order _ limits state call order order'
      have after := ih (next limits state (call, order)).2 later
      simp only [outputs, trace, List.map_cons, taken] at after ⊢
      rw [after, now]

/-- A refused push goes unnoticed by every continuation exactly when its recipient was known. -/
theorem refused_push_invisible {msg : InboundMessage} {state : MemStore}
    (refused : Refused (push limits msg state).1) :
    (∀ first second : List (Call × HashOrder), first.map Prod.fst = second.map Prod.fst →
      outputs (next limits) (push limits msg state).2 first = outputs (next limits) state second) ↔
    state.contains msg.recipient = true := by
  rw [refused_push refused]
  constructor
  · intro invisible
    by_contra unknown
    have absent : state[msg.recipient]? = none := by simpa using unknown
    -- an acknowledgement counts a repeated item twice for an unknown recipient only
    have answers := invisible [(.ack msg.recipient repeated, .asListed)] _ rfl
    rw [entryOf_of_none absent] at answers
    have known := ack_repeated_empty state msg.recipient
    have missing := ack_repeated_unknown absent
    simp only [outputs, trace, taken, List.map_cons, List.map_nil, RelayStore.step_ack, relayStore, known,
      missing] at answers
    exact absurd answers (by decide)
  · intro known first second same
    obtain ⟨entry, bound⟩ := Option.isSome_iff_exists.mp (ExtTreeMap.isSome_getElem?_eq_contains.trans known)
    rw [entryOf_of_some bound, OrderedMap.insert_of_some _ _ _ bound]
    exact outputs_order state same

end Runs

theorem refused_push_invisible_sample :
    (∀ first second : List (Call × HashOrder), first.map Prod.fst = second.map Prod.fst →
      outputs (next sampleLimits) (push sampleLimits (sample "alice" 1 0 60 200) new).2 first =
        outputs (next sampleLimits) new second) ↔
    new.contains "alice" = true :=
  refused_push_invisible (.inl (by decide +kernel))

/-- A first push over the byte quota is refused, and the next acknowledgement tells that it was made. -/
theorem refused_push_visible :
    (push sampleLimits (sample "alice" 1 0 60 200) new).1 = .error .quotaExceeded ∧
      outputs (next sampleLimits) (push sampleLimits (sample "alice" 1 0 60 200) new).2
          [(.ack "alice" repeated, .asListed)] ≠
        outputs (next sampleLimits) new [(.ack "alice" repeated, .asListed)] := by
  decide +kernel

end MemStore

end EnigmaRelay
