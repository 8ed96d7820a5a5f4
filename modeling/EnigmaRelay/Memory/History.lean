import EnigmaRelay.Memory.Invariant
import EnigmaRelay.Model.Mailboxes

open Std Machine

namespace EnigmaRelay

namespace MemStore

def storedPushes (recipient : String) (events : List (Event MemStore)) : List InboundMessage :=
  events.filterMap (Event.storedPush recipient)

theorem storedPushes_append (recipient : String) (first second : List (Event MemStore)) :
    storedPushes recipient (first ++ second) = storedPushes recipient first ++ storedPushes recipient second :=
  List.filterMap_append

theorem storedPush_of_miss {recipient : String} {event : Event MemStore}
    (miss : Event.storedFor recipient event = false) : Event.storedPush recipient event = none := by
  unfold Event.storedPush
  split <;> simp [miss]

theorem storedPush_isSome (recipient : String) (event : Event MemStore) :
    (Event.storedPush recipient event).isSome = Event.storedFor recipient event := by
  cases hit : Event.storedFor recipient event with
  | false => rw [storedPush_of_miss hit, Option.isSome_none]
  | true =>
    unfold Event.storedPush
    cases called : event.input.1 <;> simp_all [Event.storedFor]

theorem storedPushes_length (recipient : String) (events : List (Event MemStore)) :
    (storedPushes recipient events).length = events.countP (Event.storedFor recipient) := by
  rw [storedPushes, List.length_filterMap_eq_countP]
  congr 1
  funext event
  exact storedPush_isSome recipient event

theorem mem_numbered {recipient : String} {events : List (Event MemStore)} {seq : Nat} {msg : QueueMessage}
    (member : msg ∈ numbered seq (storedPushes recipient events)) :
    ∃ past event future push, events = past ++ event :: future ∧ Event.storedPush recipient event = some push ∧
      msg = push.queued (seq + (storedPushes recipient past).length) := by
  induction events generalizing seq with
  | nil => simp [storedPushes] at member
  | cons event rest ih =>
    have later : ∀ {floor : Nat}, msg ∈ numbered floor (storedPushes recipient rest) →
        (seq + (storedPushes recipient [event]).length = floor) →
        ∃ past now future push, event :: rest = past ++ now :: future ∧ Event.storedPush recipient now = some push ∧
          msg = push.queued (seq + (storedPushes recipient past).length) := by
      intro floor listed start
      obtain ⟨past, now, future, push, rfl, stored, same⟩ := ih listed
      refine ⟨event :: past, now, future, push, rfl, stored, ?_⟩
      have grown :
          storedPushes recipient (event :: past) = storedPushes recipient [event] ++ storedPushes recipient past :=
        storedPushes_append recipient [event] past
      rw [same, ← start, grown, List.length_append, Nat.add_assoc]
    cases stored : Event.storedPush recipient event with
    | none =>
      rw [storedPushes, List.filterMap_cons_none stored] at member
      exact later member (by simp [storedPushes, stored])
    | some push =>
      rw [storedPushes, List.filterMap_cons_some stored, numbered_cons] at member
      rcases List.mem_cons.mp member with same | listed
      · exact ⟨[], event, rest, push, rfl, stored, same⟩
      · exact later listed (by simp [storedPushes, stored])

theorem numbered_arrivalSeq {seq : Nat} {pushes : List InboundMessage} {msg : QueueMessage}
    (member : msg ∈ numbered seq pushes) : seq ≤ msg.arrivalSeq := by
  obtain ⟨⟨push, place⟩, listed, rfl⟩ := List.mem_map.mp member
  exact List.le_snd_of_mem_zipIdx listed

variable [Base64] (limits : RelayLimits)

theorem Stores.storedPush {limits : RelayLimits} {state : MemStore} {input : Call × HashOrder} {recipient : String}
    {msg : InboundMessage} (stores : Stores limits state input recipient msg)
    (hit : Event.storedFor recipient (event limits state input) = true) :
    Event.storedPush recipient (event limits state input) = some msg := by
  have called : (event limits state input).input.1 = .push msg := stores.call
  simp only [Event.storedPush, called, hit, if_true]

theorem step_queue {state : MemStore} (coherent : state.Coherent) (input : Call × HashOrder) (recipient : String) :
    (∃ msg, Event.storedPush recipient (event limits state input) = some msg ∧ msg.recipient = recipient ∧
      Event.storedFor recipient (event limits state input) = true ∧
      (next limits state input).2.queued recipient =
        state.queued recipient ++ [msg.queued (state.spent recipient)]) ∨
    (Event.storedPush recipient (event limits state input) = none ∧
      Event.storedFor recipient (event limits state input) = false ∧
      ∃ keep : QueueMessage → Bool, (next limits state input).2.queued recipient =
          (state.queued recipient).filter keep ∧
        ∀ msg ∈ state.queued recipient, keep msg = false → Removes recipient msg input.1) := by
  rcases step_effect limits coherent input recipient with ⟨msg, stores, hit⟩ | ⟨reduced, miss⟩
  · left
    refine ⟨msg, stores.storedPush hit, stores.addressed, hit, ?_⟩
    rw [queued, stores.entry, (coherent recipient).accept_messages]
    rfl
  · right
    exact ⟨storedPush_of_miss miss, miss, reduced.messages (coherent recipient)⟩

/-- A queue is a subsequence of what it held at the start followed by what was stored since. -/
theorem history_run {state : MemStore} (coherent : state.Coherent) {calls : List (Call × HashOrder)}
    (fits : Fits limits state calls) (recipient : String) :
    List.Sublist ((final (next limits) state calls).queued recipient)
      (state.queued recipient ++
        numbered (state.spent recipient) (storedPushes recipient (trace (next limits) state calls))) := by
  induction calls generalizing state with
  | nil => simp [trace, storedPushes]
  | cons input rest ih =>
    obtain ⟨after, raised, later⟩ := fits.step coherent
    have tail := ih after later
    rw [final_cons, trace, storedPushes]
    rcases step_queue limits coherent input recipient with ⟨msg, pushed, _, hit, grown⟩ | ⟨silent, miss, keep, kept, _⟩
    · rw [List.filterMap_cons_some pushed, numbered_cons]
      rw [grown, raised, if_pos hit, List.append_assoc] at tail
      exact tail
    · rw [List.filterMap_cons_none silent]
      rw [kept, raised, if_neg (by simp [miss])] at tail
      exact tail.trans (List.Sublist.append List.filter_sublist (List.Sublist.refl _))

/-- A message leaves a queue only through a call that may remove it. -/
theorem absence_run {state : MemStore} (coherent : state.Coherent) {calls : List (Call × HashOrder)}
    (fits : Fits limits state calls) {recipient : String} {msg : QueueMessage}
    (member : msg ∈ state.queued recipient) (gone : msg ∉ (final (next limits) state calls).queued recipient) :
    ∃ input ∈ calls, Removes recipient msg input.1 := by
  induction calls generalizing state with
  | nil => exact absurd member gone
  | cons input rest ih =>
    obtain ⟨after, _, later⟩ := fits.step coherent
    by_cases stays : msg ∈ (next limits state input).2.queued recipient
    · obtain ⟨remover, listed, removes⟩ := ih after later stays gone
      exact ⟨remover, List.mem_cons_of_mem _ listed, removes⟩
    · refine ⟨input, List.mem_cons_self, ?_⟩
      rcases step_queue limits coherent input recipient with ⟨_, _, _, _, grown⟩ | ⟨_, _, keep, kept, allowed⟩
      · rw [grown] at stays
        exact absurd (List.mem_append_left _ member) stays
      · rw [kept, List.mem_filter] at stays
        exact allowed msg member (by simpa [member] using stays)

theorem kept_run {state : MemStore} (coherent : state.Coherent) {calls : List (Call × HashOrder)}
    (fits : Fits limits state calls) {recipient : String} {msg : QueueMessage}
    (member : msg ∈ state.queued recipient) (undisturbed : ∀ input ∈ calls, ¬ Removes recipient msg input.1) :
    msg ∈ (final (next limits) state calls).queued recipient := by
  by_contra gone
  obtain ⟨input, listed, removes⟩ := absence_run limits coherent fits member gone
  exact undisturbed input listed removes

theorem quiet_run {state : MemStore} (coherent : state.Coherent) {calls : List (Call × HashOrder)}
    (fits : Fits limits state calls) {recipient : String}
    (quiet : ∀ event ∈ trace (next limits) state calls, Event.storedPush recipient event = none) :
    List.Sublist ((final (next limits) state calls).queued recipient) (state.queued recipient) := by
  have history := history_run limits coherent fits recipient
  have none : storedPushes recipient (trace (next limits) state calls) = [] := List.filterMap_eq_nil_iff.mpr quiet
  rwa [none, numbered_nil, List.append_nil] at history

end MemStore

end EnigmaRelay
