import EnigmaRelay.Backends.Mirror

open Std Machine

namespace EnigmaRelay

section Unknown

namespace MemStore

variable (state : MemStore) (recipient : String)

theorem pull_entry [Base64] {cursor : Option String} {start : Option Nat}
    (started : startSeq recipient cursor = .ok start)
    (limit nowMs : Nat) :
    (pull recipient cursor limit nowMs state).1 = ((state.entryOf recipient).pull recipient cursor limit nowMs).1 ∧
      (pull recipient cursor limit nowMs state).2.entryOf recipient =
        ((state.entryOf recipient).pull recipient cursor limit nowMs).2 ∧
      ∀ other, recipient ≠ other → (pull recipient cursor limit nowMs state).2.entryOf other = state.entryOf other := by
  unfold pull
  cases known : state[recipient]? with
  | none =>
    have nothing : RecipientState.entriesAfter {} start = [] := by
      cases start <;> simp [RecipientState.entriesAfter]
    rw [entryOf_of_none known]
    simp only [RecipientState.pull, started, nothing, RecipientState.scan, List.foldl_nil, implies_true, and_true]
    rfl
  | some entry =>
    rw [entryOf_of_some known]
    refine ⟨rfl, ?_, ?_⟩
    · dsimp only
      rw [entryOf_insert, if_pos rfl]
    · intro other different
      dsimp only
      rw [entryOf_insert, if_neg different]

end MemStore

end Unknown

section Backends

/-- The map in memory and the trees hold the same queues, all of them of recipients without
    separators and with deadlines beyond the `horizon`. -/
structure Agree [UuidText] (horizon : Nat → Prop) (mem : MemStore) (sled : SledStore) : Prop where
  coherent : mem.Coherent
  consistent : sled.Consistent
  mirrors : ∀ recipient, Mirrors (mem.entryOf recipient) recipient sled
  queued : ∀ recipient, ∀ msg ∈ mem.queued recipient, ':' ∉ recipient.toList ∧ horizon msg.deadlineMs

/-- A call of a recipient without separators that neither meets nor makes expired messages, and whose
    cursor is accepted. -/
def Tame [Base64] (horizon : Nat → Prop) : Call → Prop
  | .push msg => ':' ∉ msg.recipient.toList ∧ horizon msg.deadlineMs
  | .pull recipient cursor _ nowMs => ':' ∉ recipient.toList ∧
      (∃ start, startSeq recipient cursor = .ok start) ∧ ∀ deadlineMs, horizon deadlineMs → nowMs < deadlineMs
  | .ack recipient items => ':' ∉ recipient.toList ∧ items.toList.Nodup
  | .purgeExpired _ _ => False

section Step

variable [UuidText] {limits : RelayLimits} {horizon : Nat → Prop} {mem : MemStore} {sled : SledStore}

theorem Agree.new (horizon : Nat → Prop) : Agree horizon MemStore.new SledStore.new := by
  refine ⟨MemStore.new_coherent, SledStore.new_consistent, ?_, ?_⟩
  · intro recipient
    rw [MemStore.entryOf_new]
    constructor <;> simp [stored, SledStore.new, SledStore.readQuota, SledStore.currentSeq, RecipientState.messages]
  · intro recipient msg member
    simp [MemStore.queued, RecipientState.messages] at member

theorem Agree.plain (agree : Agree horizon mem sled) : SledStore.Plain sled.messages := by
  intro key msg present
  have own := (agree.consistent.keyed key msg present).1
  rw [own] at present
  have member := agree.consistent.keyed.mem_stored.mpr ⟨present, rfl⟩
  rw [(agree.mirrors msg.recipient).messages] at member
  exact (agree.queued msg.recipient msg member).1

theorem Agree.push (agree : Agree horizon mem sled) (msg : InboundMessage) :
    (SledStore.push limits msg sled).1 = (MemStore.push limits msg mem).1 ∧
      ∀ recipient, Mirrors ((MemStore.push limits msg mem).2.entryOf recipient) recipient
        (SledStore.push limits msg sled).2 := by
  have here := agree.mirrors msg.recipient
  have coherent := agree.coherent msg.recipient
  have known := here.absent_iff coherent agree.consistent msg.ackItem
  have rooms : SledStore.HasRoom limits msg (SledStore.readQuota sled.quota msg.recipient) ↔
      (mem.entryOf msg.recipient).HasRoom limits msg := by
    rw [here.quota]
    exact ⟨fun room => ⟨room.count, room.bytes⟩, fun room => ⟨room.count, room.bytes⟩⟩
  have settled : (mem.entryOf msg.recipient).push limits msg = (((mem.entryOf msg.recipient).push limits msg).1,
      mem.entryOf msg.recipient) → ∀ recipient,
      Mirrors ((MemStore.push limits msg mem).2.entryOf recipient) recipient sled := by
    intro kept recipient
    rw [MemStore.push, MemStore.entryOf_insert, kept]
    split
    · rename_i same
      exact same ▸ here
    · exact agree.mirrors recipient
  rcases RecipientState.push_cases limits msg (mem.entryOf msg.recipient) with
    ⟨seq, present, pushed⟩ | ⟨absent, full, pushed⟩ | ⟨absent, room, pushed⟩
  · rcases SledStore.push_cases limits msg sled with ⟨_, _, answered⟩ | ⟨missing, _⟩ | ⟨missing, _⟩ | ⟨missing, _⟩
    · rw [answered, here.quota]
      exact ⟨by rw [MemStore.push, pushed], settled (by rw [pushed])⟩
    all_goals
      rw [known.mpr missing] at present
      cases present
  · rcases SledStore.push_cases limits msg sled with ⟨_, present, _⟩ | ⟨_, _, answered⟩ | ⟨_, room, _⟩ | ⟨_, room, _⟩
    · rw [known.mp absent] at present
      cases present
    · rw [answered]
      exact ⟨by rw [MemStore.push, pushed], settled (by rw [pushed])⟩
    all_goals exact absurd (rooms.mp room) full
  · rcases SledStore.push_cases limits msg sled with
      ⟨_, present, _⟩ | ⟨_, full, _⟩ | ⟨_, _, err, failed, _⟩ | ⟨missing, _, arrivalSeq, read, answered⟩
    · rw [known.mp absent] at present
      cases present
    · exact absurd (rooms.mpr room) full
    · rw [here.seq] at failed
      cases failed
    · have number := here.seq
      rw [read] at number
      cases number
      rw [answered, here.quota]
      refine ⟨by rw [MemStore.push, pushed]; rfl, ?_⟩
      intro recipient
      rw [MemStore.push, MemStore.entryOf_insert, pushed]
      split
      · rename_i same
        exact same ▸ here.accept coherent agree.consistent
      · rename_i other
        exact (agree.mirrors recipient).accept_other agree.consistent read missing other

theorem Agree.ack (agree : Agree horizon mem sled) (recipient : String) {items : Vec AckItem}
    (distinct : items.toList.Nodup) (order order' : HashOrder) :
    (SledStore.ack order' recipient items sled).1 = (MemStore.ack order recipient items mem).1 ∧
      ∀ other, Mirrors ((MemStore.ack order recipient items mem).2.entryOf other) other
        (SledStore.ack order' recipient items sled).2 := by
  obtain ⟨answer, after, untouched⟩ := mem.ack_entry recipient order (.inr distinct)
  obtain ⟨acked, here, elsewhere⟩ :=
    (agree.mirrors recipient).ack (agree.coherent recipient) agree.consistent order' items
  rw [RecipientState.ack_order order' order] at acked here
  refine ⟨acked.trans answer.symm, ?_⟩
  intro other
  by_cases same : recipient = other
  · rw [← same, after]
    exact here
  · rw [untouched other same]
    exact elsewhere other _ same (agree.mirrors other)

variable [Base64]

theorem Agree.pull (agree : Agree horizon mem sled) {recipient : String} (own : ':' ∉ recipient.toList)
    {cursor : Option String} {start : Option Nat} (started : startSeq recipient cursor = .ok start) (limit : Nat)
    {nowMs : Nat} (early : ∀ deadlineMs, horizon deadlineMs → nowMs < deadlineMs) :
    (SledStore.pull recipient cursor limit nowMs sled).1 = (MemStore.pull recipient cursor limit nowMs mem).1 ∧
      ∀ other, Mirrors ((MemStore.pull recipient cursor limit nowMs mem).2.entryOf other) other
        (SledStore.pull recipient cursor limit nowMs sled).2 := by
  have alive : ∀ msg ∈ (mem.entryOf recipient).messages, nowMs < msg.deadlineMs :=
    fun msg member => early _ (agree.queued recipient msg member).2
  obtain ⟨answer, after, elsewhere⟩ := mem.pull_entry recipient started limit nowMs
  obtain ⟨pulled, kept⟩ := (agree.mirrors recipient).pull (agree.coherent recipient) agree.consistent agree.plain own
    started limit alive
  rw [pulled]
  refine ⟨answer.symm, ?_⟩
  intro other
  by_cases same : recipient = other
  · rw [← same, after, kept]
    exact agree.mirrors recipient
  · rw [elsewhere other same]
    exact agree.mirrors other

/-- The simulation: on agreeing stores a tame call gives the same answer and leaves them agreeing. -/
theorem Agree.step (agree : Agree horizon mem sled) {call : Call} (tame : Tame horizon call) (order order' : HashOrder)
    (after : (MemStore.next limits mem (call, order)).2.Coherent) :
    (MemStore.next limits mem (call, order)).1 = (SledStore.next limits sled (call, order')).1 ∧
      Agree horizon (MemStore.next limits mem (call, order)).2 (SledStore.next limits sled (call, order')).2 := by
  have queued : ∀ recipient, ∀ msg ∈ (MemStore.next limits mem (call, order)).2.queued recipient,
      ':' ∉ recipient.toList ∧ horizon msg.deadlineMs := by
    intro recipient msg member
    rcases MemStore.step_effect limits agree.coherent (call, order) recipient with ⟨pushed, stores, _⟩ | ⟨reduced, _⟩
    · have called : call = .push pushed := stores.call
      rw [MemStore.queued, stores.entry, (agree.coherent recipient).accept_messages, List.mem_append,
        List.mem_singleton] at member
      rcases member with earlier | rfl
      · exact agree.queued recipient msg earlier
      · rw [called] at tame
        exact ⟨stores.addressed ▸ tame.1, tame.2⟩
    · obtain ⟨keep, kept, _⟩ := reduced.messages (agree.coherent recipient)
      rw [MemStore.queued, kept] at member
      exact agree.queued recipient msg (List.mem_of_mem_filter member)
  have steps : (MemStore.next limits mem (call, order)).1 = (SledStore.next limits sled (call, order')).1 ∧
      ∀ recipient, Mirrors ((MemStore.next limits mem (call, order)).2.entryOf recipient) recipient
        (SledStore.next limits sled (call, order')).2 := by
    cases call with
    | push msg =>
      obtain ⟨answer, mirrors⟩ := @Agree.push _ limits _ _ _ agree msg
      exact ⟨congrArg Outcome.push answer.symm, mirrors⟩
    | pull recipient cursor limit nowMs =>
      obtain ⟨own, ⟨start, started⟩, early⟩ := tame
      obtain ⟨answer, mirrors⟩ := agree.pull own started limit early
      exact ⟨congrArg Outcome.pull answer.symm, mirrors⟩
    | ack recipient items =>
      obtain ⟨_, distinct⟩ := tame
      obtain ⟨answer, mirrors⟩ := agree.ack recipient distinct order order'
      exact ⟨congrArg Outcome.ack answer.symm, mirrors⟩
    | purgeExpired nowMs max => exact tame.elim
  obtain ⟨answer, mirrors⟩ := steps
  exact ⟨answer, after, SledStore.step_consistent limits agree.consistent _, mirrors, queued⟩

theorem Agree.run (agree : Agree horizon mem sled) {first second : List (Call × HashOrder)}
    (same : first.map Prod.fst = second.map Prod.fst) (tame : ∀ input ∈ first, Tame horizon input.1)
    (fits : MemStore.Fits limits mem first) :
    outputs (MemStore.next limits) mem first = outputs (SledStore.next limits) sled second := by
  induction first generalizing mem sled second with
  | nil =>
    cases second with
    | nil => rfl
    | cons => cases same
  | cons left rest ih =>
    cases second with
    | nil => cases same
    | cons right tail =>
      obtain ⟨call, order⟩ := left
      obtain ⟨call', order'⟩ := right
      obtain ⟨rfl, later⟩ := List.cons.inj same
      obtain ⟨after, _, left⟩ := fits.step agree.coherent
      obtain ⟨answer, kept⟩ := agree.step (tame _ List.mem_cons_self) order order' after
      have others := ih kept later (fun input member => tame input (List.mem_cons_of_mem _ member)) left
      simp only [outputs, trace, List.map_cons, taken] at others ⊢
      rw [others, answer]

end Step

section Cursors

variable {σ : Type}

/-- The cursor that a pull of `recipient` returned. -/
def Event.issued (recipient : String) (event : Event σ) : Option String :=
  match event.input.1, event.output with
  | .pull addressee _ _ _, .pull (.ok batch) => if addressee = recipient then batch.nextCursor else none
  | _, _ => none

def continues (past : List (Event σ)) (event : Event σ) : Bool :=
  match event.input.1 with
  | .pull recipient (some cursor) _ _ => past.any (fun earlier => Event.issued recipient earlier = some cursor)
  | _ => true

variable [Base64] {limits : RelayLimits}

theorem MemStore.pull_cursor {state : MemStore} (coherent : state.Coherent) {recipient : String} {cursor : Option String}
    {limit nowMs : Nat} {batch : PullBatch} (answered : (pull recipient cursor limit nowMs state).1 = .ok batch)
    {next : String} (given : batch.nextCursor = some next) :
    ∃ msg ∈ state.queued recipient, next = encodeCursor recipient msg.arrivalSeq := by
  obtain ⟨start, items, follows⟩ := pull_answered coherent answered
  rw [follows] at given
  split at given
  · obtain ⟨last, ends, rfl⟩ := Option.map_eq_some_iff.mp given
    rw [items] at ends
    have pending := (mem_pending.mp (List.mem_of_mem_take (List.mem_of_getLast? ends))).1
    rw [(coherent recipient).owner _ _ ((coherent recipient).filed.mem.mp pending)]
    exact ⟨last, pending, rfl⟩
  · cases given

theorem MemStore.issued_cursor {state : MemStore} (coherent : state.Coherent) {input : Call × HashOrder}
    {recipient cursor : String} (issued : Event.issued recipient (event limits state input) = some cursor) :
    ∃ msg ∈ state.queued recipient, cursor = encodeCursor recipient msg.arrivalSeq := by
  obtain ⟨call, order⟩ := input
  cases call with
  | pull addressee given limit nowMs =>
    have answer : Event.issued recipient (event limits state (.pull addressee given limit nowMs, order)) =
        match (pull addressee given limit nowMs state).1 with
        | .ok batch => if addressee = recipient then batch.nextCursor else none
        | .error _ => none := by
      change Event.issued recipient ⟨state, (.pull addressee given limit nowMs, order),
        .pull (pull addressee given limit nowMs state).1, _⟩ = _
      cases (pull addressee given limit nowMs state).1 <;> rfl
    rw [answer] at issued
    split at issued
    · rename_i batch answered
      split at issued
      · rename_i owner
        exact owner ▸ pull_cursor coherent answered issued
      · cases issued
    · cases issued
  | push msg => cases issued
  | ack addressee items => cases issued
  | purgeExpired nowMs max => cases issued

theorem MemStore.issued_accepted {calls : List (Call × HashOrder)} (few : Few limits calls)
    {event : Event MemStore} (member : event ∈ trace (next limits) new calls) {recipient : String}
    (plain : ':' ∉ recipient.toList) {cursor : String} (issued : Event.issued recipient event = some cursor) :
    ∃ start, startSeq recipient (some cursor) = .ok start := by
  obtain ⟨earlier, later, same, shape⟩ := trace_member (next limits) member
  have fits := few.fits
  rw [same] at fits
  obtain ⟨coherent, left⟩ := fits.split new_coherent
  rw [shape] at issued
  obtain ⟨msg, pending, rfl⟩ := issued_cursor coherent issued
  have below := (coherent recipient).below _ _ ((coherent recipient).filed.mem.mp pending)
  have spent := left.spent_le recipient
  have cap : u64Max < 2 ^ 64 := by decide
  exact ⟨_, startSeq_encodeCursor plain (Nat.lt_trans (Nat.lt_of_lt_of_le below spent) cap)⟩

end Cursors

section Runs

variable [Base64] (limits : RelayLimits)

/-- Pushes, pulls and acknowledgements of recipients without separators, with pulls before every
    deadline, cursors the run returned, and no repetition in an acknowledgement. -/
structure Comparable (calls : List (Call × HashOrder)) : Prop where
  plain : ∀ input ∈ calls, ∃ recipient, input.1.addressee = some recipient ∧ ':' ∉ recipient.toList
  early : ∀ input ∈ calls, ∀ msg, input.1 = .push msg → ∀ other ∈ calls, ∀ recipient cursor limit nowMs,
    other.1 = .pull recipient cursor limit nowMs → nowMs < msg.deadlineMs
  distinct : ∀ input ∈ calls, ∀ recipient items, input.1 = .ack recipient items → items.toList.Nodup
  cursors : Along (fun past event => continues past event = true) (trace (MemStore.next limits) MemStore.new calls)
  few : MemStore.Few limits calls

def beyondPulls (calls : List (Call × HashOrder)) (deadlineMs : Nat) : Prop :=
  ∀ input ∈ calls, ∀ recipient cursor limit nowMs, input.1 = .pull recipient cursor limit nowMs → nowMs < deadlineMs

theorem Comparable.tame {limits : RelayLimits} {calls : List (Call × HashOrder)} (comparable : Comparable limits calls) :
    ∀ input ∈ calls, Tame (beyondPulls calls) input.1 := by
  rintro ⟨call, order⟩ member
  obtain ⟨recipient, addressed, plain⟩ := comparable.plain _ member
  cases call with
  | push msg =>
    cases addressed
    exact ⟨plain, comparable.early _ member msg rfl⟩
  | pull addressee cursor limit nowMs =>
    cases addressed
    refine ⟨plain, ?_, fun deadlineMs beyond => beyond _ member _ _ _ _ rfl⟩
    cases cursor with
    | none => exact ⟨none, rfl⟩
    | some cursor =>
      obtain ⟨earlier, later, rfl⟩ := List.append_of_mem member
      have guarded := along_iff.mp comparable.cursors _ _ _ (trace_append _ _ _ _)
      simp only [continues, taken, List.any_eq_true, decide_eq_true_eq] at guarded
      obtain ⟨event, past, issued⟩ := guarded
      apply MemStore.issued_accepted comparable.few _ plain issued
      rw [trace_append]
      exact List.mem_append_left _ past
  | ack addressee items =>
    cases addressed
    exact ⟨plain, comparable.distinct _ member _ items rfl⟩
  | purgeExpired nowMs max => cases addressed

/-- The two backends answer every call of a comparable run alike, whatever order their hash tables
    are iterated in. -/
theorem backends_agree [UuidText] {memCalls sledCalls : List (Call × HashOrder)}
    (same : memCalls.map Prod.fst = sledCalls.map Prod.fst) (comparable : Comparable limits memCalls) :
    outputs (MemStore.next limits) MemStore.new memCalls = outputs (SledStore.next limits) SledStore.new sledCalls :=
  (Agree.new (beyondPulls memCalls)).run same comparable.tame comparable.few.fits

end Runs

def sampleRun : List (Call × HashOrder) :=
  [(.push (sample "alice" 1 0 60 3), .asListed), (.push (sample "bob" 3 0 60 3), .asListed),
    (.push (sample "alice" 2 1 61 4), .asListed), (.push (sample "alice" 1 2 62 5), .asListed),
    (.pull "alice" none 1 10, .asListed), (.ack "carol" sampleAck, .asListed),
    (.ack "alice" (.ofList [sampleItem 1, sampleItem 7]), .asListed),
    (.pull "alice" (some (encodeCursor "alice" 0)) 1 20, .asListed)]

theorem backends_agree_sample :
    outputs (MemStore.next sampleLimits) MemStore.new sampleRun =
      outputs (SledStore.next sampleLimits) SledStore.new sampleRun := by
  apply backends_agree sampleLimits rfl
  constructor
  · simp [sampleRun, Call.addressee, sample]
  · simp [sampleRun, sample]
    grind
  · simp [sampleRun, sampleAck, Vec.ofList, sampleItem]
  · decide +kernel
  · exact HitsBelow.of_length (by decide)

end Backends

end EnigmaRelay
