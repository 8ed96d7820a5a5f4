import EnigmaRelay.Memory.Invariant
import EnigmaRelay.Model.Mailboxes

open Std Machine

namespace EnigmaRelay.MemStore

open RecipientState (dropAll)

def post : Post MemStore := ⟨spent, queued⟩

section Boxes

variable {state : MemStore} {recipient : String} {box : Mailbox.Box QueueMessage}

theorem shows_of_entry {after : MemStore} (shows : post.Shows state recipient box)
    (same : after.entryOf recipient = state.entryOf recipient) : post.Shows after recipient box := by
  refine ⟨shows.issued.trans ?_, shows.waiting.trans ?_⟩
  · exact congrArg RecipientState.seq same.symm
  · exact congrArg RecipientState.messages same.symm

theorem shows_sift {after : MemStore} (shows : post.Shows state recipient box) {dropped : List Nat}
    (left : after.entryOf recipient = (state.entryOf recipient).dropAll dropped)
    (filed : (state.entryOf recipient).Filed recipient) {keep : QueueMessage → Bool}
    (same : ∀ msg ∈ state.queued recipient, (keep msg = true ↔ msg.arrivalSeq ∉ dropped)) :
    post.Shows after recipient (box.sift keep) := by
  constructor
  · change box.issued = (after.entryOf recipient).seq
    rw [left, RecipientState.dropAll_seq]
    exact shows.issued
  · change box.waiting.filter keep = (after.entryOf recipient).messages
    rw [left, filed.dropAll_messages, shows.waiting]
    apply List.filter_congr
    intro msg member
    rw [Bool.eq_iff_iff, decide_eq_true_eq]
    exact same msg member

theorem pending_eq (shows : post.Shows state recipient box) (nowMs : Nat) (start : Option Nat) :
    box.pending nowMs start = (state.entryOf recipient).pending start nowMs := by
  rw [Mailbox.Box.pending, shows.waiting]
  rfl

end Boxes

theorem empty_shows (recipient : String) : post.Shows new recipient .empty := by
  constructor
  · exact (spent_new recipient).symm
  · change [] = (entryOf new recipient).messages
    rw [entryOf_new]
    simp [RecipientState.messages]

variable [Base64] {limits : RelayLimits}

section Simulation

variable {state : MemStore} {recipient : String} {box : Mailbox.Box QueueMessage}

/-- What one call does to the mailbox of one recipient. -/
abbrev Simulates (limits : RelayLimits) (state : MemStore) (input : Call × HashOrder) (recipient : String)
    (box : Mailbox.Box QueueMessage) : Prop :=
  ∃ told next, Heard recipient input.1 (MemStore.next limits state input).1 told ∧ Mailbox.Step box told next ∧
    post.Shows (MemStore.next limits state input).2 recipient next

theorem elsewhere_simulates (shows : post.Shows state recipient box) {input : Call × HashOrder} {other : String}
    (addressee : input.1.addressee = some other) (different : other ≠ recipient) :
    Simulates limits state input recipient box := by
  have same := step_elsewhere limits state input addressee different
  have entry : (next limits state input).2.entryOf recipient = state.entryOf recipient := by
    rw [entryOf, same]
    rfl
  exact ⟨.idle, box, .elsewhere addressee different, .idle box, shows_of_entry shows entry⟩

theorem push_simulates (coherent : state.Coherent) (shows : post.Shows state recipient box) {msg : InboundMessage}
    (order : HashOrder) (addressed : msg.recipient = recipient)
    (room : Event.storedFor recipient (event limits state (.push msg, order)) = true → state.spent recipient < u64Max) :
    Simulates limits state (.push msg, order) recipient box := by
  subst addressed
  have own : (next limits state (.push msg, order)).2.entryOf msg.recipient =
      ((state.entryOf msg.recipient).push limits msg).2 := by
    change entryOf (state.insert msg.recipient ((state.entryOf msg.recipient).push limits msg).2) msg.recipient = _
    rw [entryOf_insert, if_pos rfl]
  have answer : (next limits state (.push msg, order)).1 = .push ((state.entryOf msg.recipient).push limits msg).1 := rfl
  rcases RecipientState.push_cases limits msg (state.entryOf msg.recipient) with
    ⟨seq, _, pushed⟩ | ⟨_, _, pushed⟩ | ⟨absent, _, pushed⟩
  · rw [pushed] at own answer
    refine ⟨.idle, box, ?_, .idle box, shows_of_entry shows own⟩
    rw [answer]
    exact .duplicate rfl ⟨rfl, rfl⟩
  · rw [pushed] at own answer
    refine ⟨.idle, box, ?_, .idle box, shows_of_entry shows own⟩
    rw [answer]
    exact .full rfl
  · have hit : Event.storedFor msg.recipient (event limits state (.push msg, order)) = true := by
      have told : Event.storedFor msg.recipient (event limits state (.push msg, order)) = _ :=
        Event.storedFor_push msg.recipient state _ msg order ((state.entryOf msg.recipient).push limits msg).1
      rw [told, pushed]
      simp
    have numbered : Mailbox.Parcel.number (msg.queued (state.spent msg.recipient)) = box.issued := shows.issued.symm
    have fresh : ∀ other ∈ box.waiting,
        Mailbox.Parcel.tag other ≠ Mailbox.Parcel.tag (msg.queued (state.spent msg.recipient)) := by
      rw [shows.waiting]
      exact ((coherent msg.recipient).absent_iff msg.ackItem).mp absent
    rw [pushed] at own answer
    refine ⟨.arrived _, box.arrive _ numbered fresh, ?_, .arrived box _ numbered fresh, ?_, ?_⟩
    · rw [answer]
      exact .stored _ rfl ⟨rfl, rfl⟩
    · change box.issued + 1 = ((next limits state (.push msg, order)).2.entryOf msg.recipient).seq
      rw [own, shows.issued]
      exact (saturatingAdd_of_le (room hit)).symm
    · change box.waiting ++ _ = ((next limits state (.push msg, order)).2.entryOf msg.recipient).messages
      rw [own, shows.waiting]
      exact (coherent msg.recipient).accept_messages.symm

theorem pull_simulates (coherent : state.Coherent) (shows : post.Shows state recipient box) (cursor : Option String)
    (limit nowMs : Nat) (order : HashOrder) :
    Simulates limits state (.pull recipient cursor limit nowMs, order) recipient box := by
  change ∃ told next, Heard recipient (.pull recipient cursor limit nowMs)
      (.pull (pull recipient cursor limit nowMs state).1) told ∧ Mailbox.Step box told next ∧
      post.Shows (pull recipient cursor limit nowMs state).2 recipient next
  have pages := pending_eq shows nowMs
  unfold pull
  split
  · rename_i unknown
    cases started : startSeq recipient cursor with
    | error err => exact ⟨.idle, box, .badCursor started (by simp), .idle box, shows⟩
    | ok start =>
      have step := Mailbox.Step.read box nowMs start (min limit u32Max) (fun _ => true) (by simp)
      rw [pages, pending_unknown unknown] at step
      refine ⟨_, box.sift (fun _ => true), .page false started rfl, ?_, shows.issued, ?_⟩
      · simpa using step
      · change box.waiting.filter (fun _ => true) = state.queued recipient
        rw [List.filter_true]
        exact shows.waiting
  · rename_i entry known
    have here : entry.Coherent recipient := entryOf_of_some known ▸ coherent recipient
    have own := entryOf_of_some known
    dsimp only
    rcases here.filed.pull cursor limit nowMs with ⟨err, started, pulled⟩ | ⟨start, batch, dropped, started, pulled, spec⟩
    · rw [pulled]
      refine ⟨.idle, box, .badCursor started (by simp), .idle box, shows_of_entry shows ?_⟩
      rw [entryOf_insert, if_pos rfl, own]
    · rw [pulled]
      have late : ∀ msg ∈ box.waiting, decide (msg.arrivalSeq ∉ dropped) = false → msg.deadlineMs ≤ nowMs := by
        intro msg member gone
        rw [shows.waiting] at member
        change msg ∈ (state.entryOf recipient).messages at member
        rw [own] at member
        exact spec.expired msg.arrivalSeq (by simpa using gone) msg (here.filed.mem.mp member)
      have step := Mailbox.Step.read box nowMs start (min limit u32Max) _ late
      rw [pages, own, ← spec.items] at step
      refine ⟨_, _, .page _ started ?_, step, shows_sift shows (?_ : _ = (state.entryOf recipient).dropAll dropped)
        (own ▸ here.filed) ?_⟩
      · rw [spec.cursor]
        simp only [decide_eq_true_eq]
        split
        · apply Option.map_congr
          intro last ends
          have listed := List.mem_of_getLast? ends
          rw [spec.items] at listed
          have member := List.mem_of_mem_filter (List.mem_of_mem_take listed)
          rw [here.owner _ _ (here.filed.mem.mp member)]
        · rfl
      · rw [entryOf_insert, if_pos rfl, own]
      · exact fun msg _ => decide_eq_true_iff

theorem ack_simulates (coherent : state.Coherent) (shows : post.Shows state recipient box) (items : Vec AckItem)
    (order : HashOrder) : Simulates limits state (.ack recipient items, order) recipient box := by
  change ∃ told next, Heard recipient (.ack recipient items) (.ack (ack order recipient items state).1) told ∧
      Mailbox.Step box told next ∧ post.Shows (ack order recipient items state).2 recipient next
  unfold ack
  split
  · rename_i unknown
    refine ⟨_, _, .acked, .confirmed box items.toList, shows.issued, ?_⟩
    have nothing : box.waiting = [] := by
      rw [shows.waiting]
      change (state.entryOf recipient).messages = []
      rw [entryOf_of_none unknown]
      simp [RecipientState.messages]
    change box.waiting.filter _ = state.queued recipient
    rw [nothing, List.filter_nil, ← nothing]
    exact shows.waiting
  · rename_i entry known
    have here : entry.Coherent recipient := entryOf_of_some known ▸ coherent recipient
    have own := entryOf_of_some known
    obtain ⟨dropped, result, named⟩ := here.ackAll {} (order.items.arrange items.toList.dedup)
    refine ⟨_, _, .acked, .confirmed box items.toList,
      shows_sift shows (?_ : _ = (state.entryOf recipient).dropAll dropped) (own ▸ here.filed) ?_⟩
    · rw [entryOf_insert, if_pos rfl, own]
      exact result
    · intro msg member
      change msg ∈ (state.entryOf recipient).messages at member
      rw [own] at member
      rw [decide_eq_true_eq, named msg member, order.items.mem_arrange, List.mem_dedup]
      rfl

theorem purge_simulates (coherent : state.Coherent) (shows : post.Shows state recipient box) (nowMs max : Nat)
    (order : HashOrder) : Simulates limits state (.purgeExpired nowMs max, order) recipient box := by
  obtain ⟨dropped, left, allowed⟩ :=
    purgeRecipients_reduces nowMs max (min max gcBatchLimit) state.keys state 0 recipient
  have filed := (coherent recipient).filed
  refine ⟨.lapsed nowMs, box.sift (fun msg => decide (msg.arrivalSeq ∉ dropped)), .purged, .lapsed box nowMs _ ?_,
    shows_sift shows left filed (fun msg _ => decide_eq_true_iff)⟩
  intro msg member gone
  rw [shows.waiting] at member
  exact allowed msg.arrivalSeq (by simpa using gone) msg (filed.mem.mp member)

end Simulation

theorem step_simulates {state : MemStore} {input : Call × HashOrder} (coherent : state.Coherent)
    (recipient : String) {box : Mailbox.Box QueueMessage} (shows : post.Shows state recipient box)
    (room : Event.storedFor recipient (event limits state input) = true → state.spent recipient < u64Max) :
    Simulates limits state input recipient box := by
  obtain ⟨call, order⟩ := input
  by_cases elsewhere : ∃ other, call.addressee = some other ∧ other ≠ recipient
  · obtain ⟨other, addressee, different⟩ := elsewhere
    exact elsewhere_simulates shows addressee different
  · have own : ∀ other, call.addressee = some other → other = recipient :=
      fun other addressee => not_not.mp (fun different => elsewhere ⟨other, addressee, different⟩)
    cases call with
    | push msg => exact push_simulates coherent shows order (own _ rfl) room
    | pull addressee cursor limit nowMs =>
      cases own _ rfl
      exact pull_simulates coherent shows cursor limit nowMs order
    | ack addressee items =>
      cases own _ rfl
      exact ack_simulates coherent shows items order
    | purgeExpired nowMs max => exact purge_simulates coherent shows nowMs max order

/-- The map in memory keeps a mailbox for everyone. -/
theorem run_mailbox {state : MemStore} {calls : List (Call × HashOrder)} (coherent : state.Coherent)
    (fits : Fits limits state calls) {recipient : String} {box : Mailbox.Box QueueMessage}
    (shows : post.Shows state recipient box) :
    ∃ heard last, HeardAll recipient (trace (next limits) state calls) heard ∧ Mailbox.Run box heard last ∧
      post.Shows (final (next limits) state calls) recipient last := by
  refine @Post.run MemStore _ post (next limits) (fun state calls => state.Coherent ∧ Fits limits state calls) recipient
    ?_ state calls ⟨coherent, fits⟩ box shows
  intro state input rest sound
  obtain ⟨after, _, later⟩ := sound.2.step sound.1
  refine ⟨⟨after, later⟩, fun box shown => step_simulates sound.1 recipient shown ?_⟩
  intro hit
  have bound := sound.2 recipient
  rw [trace, List.countP_cons_of_pos hit] at bound
  omega

end EnigmaRelay.MemStore
