import EnigmaRelay.Model.Mailboxes
import EnigmaRelay.Sled.Ascending
import EnigmaRelay.Sled.PurgeExact

open Std Machine

namespace EnigmaRelay

theorem Keyed.stored_filter [UuidText] {before after : Tree QueueMessage} (keyed : Keyed before)
    {keep : Bytes × QueueMessage → Bool} (left : after.toList = before.toList.filter keep) (recipient : String) :
    stored after recipient = (stored before recipient).filter (fun msg => keep (msg.key, msg)) := by
  rw [stored, stored, left, List.filter_map, List.filter_map, List.filter_map, List.filter_filter, List.filter_filter]
  congr 1
  apply List.filter_congr
  intro entry member
  have own := (keyed _ _ (OrderedMap.mem_toList.mp member)).1
  simp only [Function.comp_apply, ← own]
  exact Bool.and_comm _ _

namespace SledStore

def post : Post SledStore := ⟨spent, fun store recipient => stored store.messages recipient⟩

theorem empty_shows (recipient : String) : post.Shows new recipient .empty := by
  constructor
  · exact (spent_new recipient).symm
  · simp [post, stored, new, Mailbox.Box.empty]

section Trees

variable [UuidText] {store : SledStore} {recipient : String} {box : Mailbox.Box QueueMessage}

theorem shows_sift {after : SledStore} (shows : post.Shows store recipient box) (keyed : Keyed store.messages)
    (shrinks : Shrinks store after) {kept : Bytes × QueueMessage → Bool}
    (left : after.messages.toList = store.messages.toList.filter kept) {keep : QueueMessage → Bool}
    (same : ∀ msg ∈ stored store.messages recipient, keep msg = kept (msg.key, msg)) :
    post.Shows after recipient (box.sift keep) := by
  constructor
  · exact shows.issued.trans (shrinks.spent recipient).symm
  · change box.waiting.filter keep = stored after.messages recipient
    rw [keyed.stored_filter left, shows.waiting]
    exact List.filter_congr same

theorem purge_filters (keyed : Keyed store.messages) (order : HashOrder) (nowMs max : Nat) :
    ∃ kept : Bytes × QueueMessage → Bool,
      (purgeExpired order nowMs max store).2.messages.toList = store.messages.toList.filter kept ∧
        ∀ msg ∈ stored store.messages recipient, kept (msg.key, msg) = false → msg.deadlineMs ≤ nowMs := by
  obtain ⟨_, left⟩ := purgeScan_takes nowMs (min max gcBatchLimit) store.messages.toList { store := store }
  refine ⟨_, left, ?_⟩
  intro msg member gone
  obtain ⟨present, _⟩ := keyed.mem_stored.mp member
  have taken : msg.key ∈ ((expired nowMs store.messages.toList).take (min max gcBatchLimit - 0)).map Prod.fst := by
    simpa using gone
  obtain ⟨entry, listed, key⟩ := List.mem_map.mp taken
  obtain ⟨bound, late⟩ := @due_expired nowMs max _ _ listed
  rw [key, present] at bound
  rw [Option.some.inj bound]
  exact late

end Trees

variable [Base64] [UuidText] {limits : RelayLimits}

/-- What one call does to the mailbox of one recipient. -/
abbrev Simulates (limits : RelayLimits) (store : SledStore) (input : Call × HashOrder) (recipient : String)
    (box : Mailbox.Box QueueMessage) : Prop :=
  ∃ told next, Heard recipient input.1 (SledStore.next limits store input).1 told ∧ Mailbox.Step box told next ∧
    post.Shows (SledStore.next limits store input).2 recipient next

section Simulation

variable {store : SledStore} {recipient : String} {box : Mailbox.Box QueueMessage}

theorem push_simulates (consistent : store.Consistent) (ascending : store.Ascending)
    (shows : post.Shows store recipient box) {msg : InboundMessage} (order : HashOrder)
    (room : Event.storedFor recipient (event limits store (.push msg, order)) = true → store.spent recipient < u64Max) :
    Simulates limits store (.push msg, order) recipient box := by
  have step : next limits store (.push msg, order) = (.push (push limits msg store).1, (push limits msg store).2) := rfl
  rcases push_cases limits msg store with ⟨_, _, pushed⟩ | ⟨_, _, pushed⟩ | ⟨_, _, err, failed, _⟩ |
    ⟨absent, _, arrivalSeq, number, pushed⟩
  · rw [Simulates, step, pushed]
    by_cases addressed : msg.recipient = recipient
    · exact ⟨.idle, box, .duplicate addressed ⟨rfl, rfl⟩, .idle box, shows⟩
    · exact ⟨.idle, box, .elsewhere rfl addressed, .idle box, shows⟩
  · rw [Simulates, step, pushed]
    by_cases addressed : msg.recipient = recipient
    · exact ⟨.idle, box, .full addressed, .idle box, shows⟩
    · exact ⟨.idle, box, .elsewhere rfl addressed, .idle box, shows⟩
  · obtain ⟨value, read⟩ := consistent.numbered msg.recipient
    rw [failed] at read
    cases read
  · have hit : Event.storedFor recipient (event limits store (.push msg, order)) =
        decide (msg.recipient = recipient) := by
      have told : Event.storedFor recipient (event limits store (.push msg, order)) = _ :=
        Event.storedFor_push recipient store _ msg order (push limits msg store).1
      rw [told, pushed]
      simp
    have bound : (msg.queued arrivalSeq).arrivalSeq < 2 ^ 64 := currentSeq_bound number
    rw [Simulates, step, pushed]
    by_cases addressed : msg.recipient = recipient
    · subst addressed
      have counter : store.spent msg.recipient = arrivalSeq := spent_of_ok number
      have small : arrivalSeq < u64Max := counter ▸ room (by rw [hit]; simp)
      have numbered : Mailbox.Parcel.number (msg.queued arrivalSeq) = box.issued := counter.symm.trans shows.issued.symm
      have fresh : ∀ other ∈ box.waiting, Mailbox.Parcel.tag other ≠ Mailbox.Parcel.tag (msg.queued arrivalSeq) := by
        rw [shows.waiting]
        exact (consistent.indexed.absent_iff consistent.keyed msg.recipient msg.ackItem).mp absent
      refine ⟨.arrived _, box.arrive _ numbered fresh, .stored _ rfl ⟨rfl, rfl⟩, .arrived box _ numbered fresh, ?_, ?_⟩
      · change box.issued + 1 = spent (accept msg arrivalSeq store) msg.recipient
        rw [spent_accept number small, if_pos rfl, shows.issued]
        rfl
      · change box.waiting ++ [msg.queued arrivalSeq] = stored (accept msg arrivalSeq store).messages msg.recipient
        rw [shows.waiting]
        refine (consistent.keyed.stored_insert_last bound ?_).symm
        intro found member
        rw [queued_arrivalSeq, ← counter]
        exact (ascending msg.recipient found member).1
    · refine ⟨.idle, box, .elsewhere rfl addressed, .idle box, ?_, ?_⟩
      · change box.issued = spent (accept msg arrivalSeq store) recipient
        have fits : saturatingAdd arrivalSeq 1 < 2 ^ 64 := Nat.lt_of_le_of_lt (saturatingAdd_le _ _) (by decide)
        rw [spent, accept, currentSeq_insert _ _ _ fits, if_neg addressed, shows.issued]
        rfl
      · rw [shows.waiting]
        exact (consistent.keyed.stored_insert_other bound
          (consistent.indexed.fresh consistent.keyed bound absent) addressed).symm

theorem pull_simulates (consistent : store.Consistent) (plain : Plain store.messages) (own : ':' ∉ recipient.toList)
    (shows : post.Shows store recipient box) (addressee : String) (cursor : Option String) (limit nowMs : Nat)
    (order : HashOrder) : Simulates limits store (.pull addressee cursor limit nowMs, order) recipient box := by
  have same : (next limits store (.pull addressee cursor limit nowMs, order)).2 = store :=
    pull_unchanged addressee cursor limit nowMs store
  rw [Simulates, same]
  by_cases addressed : addressee = recipient
  · subst addressed
    cases started : startSeq addressee cursor with
    | error err =>
      have refused : (next limits store (.pull addressee cursor limit nowMs, order)).1 = .pull (.error err) := by
        change Outcome.pull (pull addressee cursor limit nowMs store).1 = _
        rw [pull, started]
      rw [refused]
      exact ⟨.idle, box, .badCursor started (by simp), .idle box, shows⟩
    | ok start =>
      have step := Mailbox.Step.read box nowMs start (min limit u32Max) (fun _ => true) (by simp)
      have pages : box.pending nowMs start = waiting addressee start nowMs store := by
        rw [Mailbox.Box.pending, shows.waiting]
        rfl
      have answer : (next limits store (.pull addressee cursor limit nowMs, order)).1 =
          .pull (pull addressee cursor limit nowMs store).1 := rfl
      rw [pages] at step
      rw [answer, pull_plain consistent.keyed plain own started]
      refine ⟨_, box.sift (fun _ => true), .page _ started ?_, step, shows.issued, ?_⟩
      · simp only [decide_eq_true_eq]
      · change box.waiting.filter (fun _ => true) = stored store.messages addressee
        rw [List.filter_true]
        exact shows.waiting
  · exact ⟨.idle, box, .elsewhere rfl addressed, .idle box, shows⟩

theorem ack_simulates (consistent : store.Consistent) (shows : post.Shows store recipient box) (addressee : String)
    (items : Vec AckItem) (order : HashOrder) : Simulates limits store (.ack addressee items, order) recipient box := by
  obtain ⟨last, _, cleared, acked, _⟩ := ack_cleared consistent.keyed consistent.indexed addressee items order
  have step : next limits store (.ack addressee items, order) =
      (.ack (ack order addressee items store).1, (ack order addressee items store).2) := rfl
  have shrinks : Shrinks store (ack order addressee items store).2 := by
    rw [acked]
    refine ⟨?_, rfl⟩
    intro key msg present
    have listed : (key, msg) ∈ _ := OrderedMap.mem_toList.mpr present
    rw [cleared.messages] at listed
    exact OrderedMap.mem_toList.mp (List.mem_of_mem_filter listed)
  have left : (ack order addressee items store).2.messages.toList =
      store.messages.toList.filter (fun entry => ¬ Acked addressee items.toList entry) := by
    rw [acked]
    exact cleared.messages
  rw [Simulates, step]
  by_cases addressed : addressee = recipient
  · subst addressed
    refine ⟨.confirmed items.toList, _, ?_, .confirmed box items.toList,
      shows_sift shows consistent.keyed shrinks left ?_⟩
    · rw [acked]
      exact .acked
    · intro msg member
      have owner := (consistent.keyed.mem_stored.mp member).2
      apply decide_eq_decide.mpr
      rw [Acked, owner]
      simp [Mailbox.Parcel.tag]
  · refine ⟨.idle, box, .elsewhere rfl addressed, .idle box, shows.issued.trans (shrinks.spent recipient).symm, ?_⟩
    have kept : stored (ack order addressee items store).2.messages recipient = stored store.messages recipient := by
      rw [acked]
      exact cleared.stored_other addressed
    exact shows.waiting.trans kept.symm

theorem purge_simulates (consistent : store.Consistent) (shows : post.Shows store recipient box) (nowMs max : Nat)
    (order : HashOrder) : Simulates limits store (.purgeExpired nowMs max, order) recipient box := by
  obtain ⟨_, _, shrinks⟩ := Consistent.purge consistent.keyed consistent.indexed order nowMs max
  obtain ⟨kept, left, late⟩ := @purge_filters _ store recipient consistent.keyed order nowMs max
  refine ⟨.lapsed nowMs, box.sift (fun msg => kept (msg.key, msg)), .purged, .lapsed box nowMs _ ?_,
    shows_sift shows consistent.keyed shrinks left (fun _ _ => rfl)⟩
  rw [shows.waiting]
  exact late

end Simulation

theorem step_simulates {store : SledStore} {input : Call × HashOrder} (consistent : store.Consistent)
    (ascending : store.Ascending) (plain : Plain store.messages) {recipient : String} (own : ':' ∉ recipient.toList)
    {box : Mailbox.Box QueueMessage} (shows : post.Shows store recipient box)
    (room : Event.storedFor recipient (event limits store input) = true → store.spent recipient < u64Max) :
    Simulates limits store input recipient box := by
  obtain ⟨call, order⟩ := input
  cases call with
  | push msg => exact push_simulates consistent ascending shows order room
  | pull addressee cursor limit nowMs => exact pull_simulates consistent plain own shows addressee cursor limit nowMs order
  | ack addressee items => exact ack_simulates consistent shows addressee items order
  | purgeExpired nowMs max => exact purge_simulates consistent shows nowMs max order

theorem Few.spent {calls : List (Call × HashOrder)} (few : Few limits calls) (recipient : String) :
    SledStore.spent (final (next limits) new calls) recipient =
      (trace (next limits) new calls).countP (Event.storedFor recipient) := by
  have within : ∀ recipient, SledStore.spent new recipient +
      (trace (next limits) new calls).countP (Event.storedFor recipient) ≤ u64Max := by
    intro recipient
    have bound := few recipient
    rw [spent_new, u64Max]
    omega
  obtain ⟨_, levels, _⟩ := budget_run (P := fun store => store.Consistent ∧ store.Ascending) (next limits)
    (fun store input both room => by
      obtain ⟨ascending, raised⟩ := step_ascending limits both.1 both.2 input room
      exact ⟨⟨step_consistent limits both.1 input, ascending⟩, raised⟩) ⟨new_consistent, new_ascending⟩ within
  rw [levels, spent_new, Nat.zero_add]

/-- The trees keep a mailbox for every recipient without separators, as long as no other is written to. -/
theorem run_mailbox {earlier calls : List (Call × HashOrder)} (few : Few limits (earlier ++ calls))
    (plain : PlainPushes (earlier ++ calls)) {recipient : String} (own : ':' ∉ recipient.toList)
    {box : Mailbox.Box QueueMessage} (shows : post.Shows (final (next limits) new earlier) recipient box) :
    ∃ heard last, HeardAll recipient (trace (next limits) (final (next limits) new earlier) calls) heard ∧
      Mailbox.Run box heard last ∧
      post.Shows (final (next limits) (final (next limits) new earlier) calls) recipient last := by
  refine @Post.run SledStore _ post (next limits) (fun store calls => ∃ earlier, store = final (next limits) new earlier ∧
    Few limits (earlier ++ calls) ∧ PlainPushes (earlier ++ calls)) recipient
    ?_ _ calls ⟨earlier, rfl, few, plain⟩ box shows
  rintro store input rest ⟨earlier, rfl, few, plain⟩
  have split : earlier ++ input :: rest = (earlier ++ [input]) ++ rest := by simp
  have before : Few limits earlier := few.left
  constructor
  · rw [split] at few plain
    exact ⟨earlier ++ [input], (final_snoc (next limits) new earlier input).symm, few, plain⟩
  · intro box shown
    have named : Plain (final (next limits) new earlier).messages :=
      run_plain limits (fun input member => plain input (List.mem_append_left _ member))
    refine step_simulates (run_consistent limits earlier) (run_ascending limits before).1 named own shown ?_
    intro hit
    have bound := few recipient
    rw [trace_append, trace, List.countP_append, List.countP_cons_of_pos hit] at bound
    rw [before.spent, u64Max]
    omega

end SledStore

end EnigmaRelay
