import EnigmaRelay.Model.Mailboxes
import EnigmaRelay.Sled.AckRetry
import EnigmaRelay.Sled.Mailbox

open Machine

namespace EnigmaRelay

namespace SledStore

/-- The calls that may take a message out of the trees. A pull takes none. -/
def Removes (recipient : String) (msg : QueueMessage) : Call → Prop
  | .push _ => False
  | .pull _ _ _ _ => False
  | .ack addressee items => addressee = recipient ∧ msg.ackItem ∈ items.toList
  | .purgeExpired nowMs _ => msg.deadlineMs ≤ nowMs

/-- What waits for a recipient is what was stored for it, but for what later calls have taken out. -/
structure KeepsHistory (recipient : String) (events : List (Event SledStore)) (waiting : List QueueMessage) : Prop where
  part : List.Sublist waiting (numbered 0 (events.filterMap (Event.storedPush recipient)))
  complete : ∀ past event future msg, events = past ++ event :: future → event.storedPush recipient = some msg →
    msg.queued (past.filterMap (Event.storedPush recipient)).length ∉ waiting →
      ∃ later ∈ future, Removes recipient (msg.queued (past.filterMap (Event.storedPush recipient)).length) later.input.1
  delivered : ∀ past event future cursor limit nowMs batch, events = past ++ event :: future →
    event.input.1 = .pull recipient cursor limit nowMs → event.output = .pull (.ok batch) →
      List.Sublist batch.items (numbered 0 (past.filterMap (Event.storedPush recipient)))

section Trees

variable [UuidText] (limits : RelayLimits) {store : SledStore} {recipient : String} {msg : QueueMessage}

variable [Base64]

theorem step_removes (consistent : store.Consistent) (input : Call × HashOrder)
    (present : msg ∈ stored store.messages recipient)
    (gone : msg ∉ stored (next limits store input).2.messages recipient) : Removes recipient msg input.1 := by
  obtain ⟨call, order⟩ := input
  obtain ⟨here, owner⟩ := consistent.keyed.mem_stored.mp present
  have listed : (msg.key, msg) ∈ store.messages.toList := OrderedMap.mem_toList.mpr here
  -- a message that the filter of the call leaves is still stored
  have stays : ∀ after : SledStore, Keyed after.messages → (msg.key, msg) ∈ after.messages.toList →
      msg ∈ stored after.messages recipient :=
    fun after left member => left.mem_stored.mpr ⟨OrderedMap.mem_toList.mp member, owner⟩
  have keyedAfter := (step_consistent limits consistent (call, order)).keyed
  cases call with
  | push pushed =>
    have matched : store.Matched := ⟨consistent.keyed, consistent.indexed⟩
    exact absurd ((matched.push pushed).keyed.mem_stored.mpr ⟨matched.push_keeps pushed here, owner⟩) gone
  | pull addressee cursor limit nowMs =>
    have same : (next limits store (.pull addressee cursor limit nowMs, order)).2 = store :=
      pull_unchanged addressee cursor limit nowMs store
    rw [same] at gone
    exact absurd present gone
  | ack addressee items =>
    obtain ⟨last, _, cleared, acked, _⟩ := ack_cleared consistent.keyed consistent.indexed addressee items order
    have left : (ack order addressee items store).2.messages.toList =
        store.messages.toList.filter (fun entry => ¬ Acked addressee items.toList entry) := by
      rw [acked]
      exact cleared.messages
    by_contra kept
    apply gone
    apply stays _ keyedAfter
    change _ ∈ (ack order addressee items store).2.messages.toList
    rw [left, List.mem_filter, decide_eq_true_eq]
    refine ⟨listed, ?_⟩
    rintro ⟨addressed, named⟩
    exact kept ⟨addressed.symm.trans owner, named⟩
  | purgeExpired nowMs max =>
    obtain ⟨kept, left, late⟩ := @purge_filters _ store recipient consistent.keyed order nowMs max
    by_contra young
    apply gone
    apply stays _ keyedAfter
    change _ ∈ (purgeExpired order nowMs max store).2.messages.toList
    rw [left, List.mem_filter]
    refine ⟨listed, ?_⟩
    by_contra dropped
    exact young (late msg present (Bool.eq_false_iff.mpr dropped))

/-- A message leaves the trees only through a call that may remove it. -/
theorem absence_run (consistent : store.Consistent) {calls : List (Call × HashOrder)}
    (present : msg ∈ stored store.messages recipient)
    (gone : msg ∉ stored (final (next limits) store calls).messages recipient) :
    ∃ event ∈ trace (next limits) store calls, Removes recipient msg event.input.1 := by
  induction calls generalizing store with
  | nil => exact absurd present gone
  | cons input rest ih =>
    by_cases stays : msg ∈ stored (next limits store input).2.messages recipient
    · obtain ⟨event, listed, removes⟩ := ih (step_consistent limits consistent input) stays gone
      exact ⟨event, List.mem_cons_of_mem _ listed, removes⟩
    · exact ⟨_, List.mem_cons_self, step_removes limits consistent input present stays⟩

/-- The trees hold the history of what was stored, and pulls show nothing else. -/
theorem trees_keep_history {calls : List (Call × HashOrder)} (few : Few limits calls) (plain : PlainPushes calls)
    (own : ':' ∉ recipient.toList) :
    KeepsHistory recipient (trace (next limits) new calls)
        (stored (final (next limits) new calls).messages recipient) ∧
      (final (next limits) new calls).spent recipient =
        ((trace (next limits) new calls).filterMap (Event.storedPush recipient)).length := by
  obtain ⟨heard, last, told, moved, shows⟩ := @run_mailbox _ _ limits [] calls few plain _ own _ (empty_shows recipient)
  change HeardAll recipient (trace (next limits) new calls) heard at told
  have waits : last.waiting = stored (final (next limits) new calls).messages recipient := shows.waiting
  refine ⟨⟨?_, ?_, ?_⟩, ?_⟩
  · rw [← waits]
    exact told.part moved
  · intro past event future msg split stored_ gone
    obtain ⟨earlier, later, rfl, rfl, now, rfl⟩ := trace_split _ split
    have whole : earlier ++ event.input :: later = (earlier ++ [event.input]) ++ later := by simp
    rw [whole] at few plain gone
    -- the message waits right after its push
    obtain ⟨_, box, first, reached, shown⟩ := @run_mailbox _ _ limits [] (earlier ++ [event.input]) few.left
      (fun input member => plain input (List.mem_append_left _ member)) _ own _ (empty_shows recipient)
    change HeardAll recipient (trace (next limits) new (earlier ++ [event.input])) _ at first
    rw [trace_snoc, ← now] at first
    have present := first.newest reached stored_
    rw [show box.waiting = _ from shown.waiting] at present
    rw [final_append] at gone
    have after : event.after = final (next limits) new (earlier ++ [event.input]) := by
      rw [final_snoc, now]
      rfl
    rw [after]
    exact absence_run limits (run_consistent limits (earlier ++ [event.input])) present gone
  · intro past event future cursor limit nowMs batch split asked answered
    rw [split] at told
    exact told.delivered moved asked answered
  · exact shows.issued.symm.trans (told.issued moved)

end Trees

end SledStore

def samplePull : Call × HashOrder := (.pull "alice" none 10 5, .asListed)

def samplePushes : List (Call × HashOrder) := [(.push (sample "alice" 1 0 20 3), .asListed)]

def sampleNothing : Vec AckItem := .ofList []

def sampleVisits : List (Call × HashOrder) :=
  [samplePull, (.ack "alice" sampleAck, .asListed), samplePull, (.ack "alice" sampleNothing, .asListed)]

theorem samplePlain : PlainPushes (samplePushes ++ sampleVisits) := by
  intro input member msg pushed
  simp only [samplePushes, sampleVisits, samplePull, List.cons_append, List.nil_append, List.mem_cons,
    List.not_mem_nil, or_false] at member
  rcases member with rfl | rfl | rfl | rfl | rfl <;> cases pushed
  decide

theorem SledStore.trees_keep_history_sample :
    KeepsHistory "alice" (trace (next sampleLimits) new (samplePushes ++ sampleVisits))
      (stored (final (next sampleLimits) new (samplePushes ++ sampleVisits)).messages "alice") :=
  (trees_keep_history sampleLimits (HitsBelow.of_length (by decide)) samplePlain (by decide)).1

end EnigmaRelay
