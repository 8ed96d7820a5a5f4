import EnigmaRelay.Foundation.Rounds
import EnigmaRelay.Model.MemStore

open Machine

/-! What a relay is for: every recipient has a mailbox, and each call does to it what its answer says. -/

namespace EnigmaRelay

instance : Mailbox.Parcel QueueMessage AckItem where
  number := QueueMessage.arrivalSeq
  tag := QueueMessage.ackItem
  deadline := QueueMessage.deadlineMs

/-- What an answered call means for the mailbox of `recipient`. -/
inductive Heard [Base64] (recipient : String) : Call → Outcome → Mailbox.Event QueueMessage AckItem → Prop where
  | stored {msg : InboundMessage} {result : PushResult} (seq : Nat) (addressed : msg.recipient = recipient)
      (kept : result.stored = true ∧ result.duplicate = false) :
      Heard recipient (.push msg) (.push (.ok result)) (.arrived (msg.queued seq))
  | duplicate {msg : InboundMessage} {result : PushResult} (addressed : msg.recipient = recipient)
      (known : result.stored = false ∧ result.duplicate = true) : Heard recipient (.push msg) (.push (.ok result)) .idle
  | full {msg : InboundMessage} (addressed : msg.recipient = recipient) :
      Heard recipient (.push msg) (.push (.error .quotaExceeded)) .idle
  | page {cursor : Option String} {limit nowMs : Nat} {start : Option Nat} {batch : PullBatch} (more : Bool)
      (started : startSeq recipient cursor = .ok start)
      (next : batch.nextCursor =
        if more then batch.items.getLast?.map (fun item => encodeCursor recipient item.arrivalSeq) else none) :
      Heard recipient (.pull recipient cursor limit nowMs) (.pull (.ok batch))
        (.read nowMs start (min limit u32Max) batch.items more)
  | badCursor {cursor : Option String} {limit nowMs : Nat} {result : Result PullBatch} {err : EnigmaRelayError}
      (refused : startSeq recipient cursor = .error err) (nothing : ∀ batch, result = .ok batch → batch.items = []) :
      Heard recipient (.pull recipient cursor limit nowMs) (.pull result) .idle
  | acked {items : Vec AckItem} {outcome : AckOutcome} :
      Heard recipient (.ack recipient items) (.ack (.ok outcome)) (.confirmed items.toList)
  | purged {nowMs max removed : Nat} : Heard recipient (.purgeExpired nowMs max) (.purgeExpired (.ok removed))
      (.lapsed nowMs)
  | elsewhere {call : Call} {outcome : Outcome} {other : String} (addressee : call.addressee = some other)
      (different : other ≠ recipient) : Heard recipient call outcome .idle

section Reading

variable [Base64] {recipient : String} {call : Call} {outcome : Outcome} {event : Mailbox.Event QueueMessage AckItem}

theorem Heard.pull {limit nowMs : Nat} (heard : Heard recipient (.pull recipient none limit nowMs) outcome event) :
    ∃ batch more, outcome = .pull (.ok batch) ∧ event = .read nowMs none (min limit u32Max) batch.items more := by
  cases heard with
  | page more started next =>
    cases started
    exact ⟨_, more, rfl, rfl⟩
  | badCursor refused nothing => cases refused
  | elsewhere addressee different =>
    cases addressee
    exact absurd rfl different

theorem Heard.ack {items : Vec AckItem} (heard : Heard recipient (.ack recipient items) outcome event) :
    event = .confirmed items.toList := by
  cases heard with
  | acked => rfl
  | elsewhere addressee different =>
    cases addressee
    exact absurd rfl different

end Reading

/-- The message of a push for `recipient` that was answered `stored: true`. -/
def Event.storedPush {σ : Type} (recipient : String) (event : Event σ) : Option InboundMessage :=
  match event.input.1 with
  | .push msg => if Event.storedFor recipient event then some msg else none
  | _ => none

/-- Messages as successive stored pushes leave them, from the sequence number `seq` on. -/
def numbered (seq : Nat) (pushes : List InboundMessage) : List QueueMessage :=
  (pushes.zipIdx seq).map (fun push => push.1.queued push.2)

@[simp] theorem numbered_nil (seq : Nat) : numbered seq [] = [] := rfl

@[simp] theorem numbered_cons (seq : Nat) (msg : InboundMessage) (rest : List InboundMessage) :
    numbered seq (msg :: rest) = msg.queued seq :: numbered (seq + 1) rest := by
  rw [numbered, List.zipIdx_cons, List.map_cons]
  rfl

/-- How a backend's state shows the mailboxes. -/
structure Post (σ : Type) where
  issued : σ → String → Nat
  waiting : σ → String → List QueueMessage

variable {σ : Type}

structure Post.Shows (post : Post σ) (state : σ) (recipient : String) (box : Mailbox.Box QueueMessage) : Prop where
  issued : box.issued = post.issued state recipient
  waiting : box.waiting = post.waiting state recipient

/-- The steps of a run, one by one, as what they mean for a mailbox. -/
abbrev HeardAll [Base64] (recipient : String) (events : List (Event σ))
    (heard : List (Mailbox.Event QueueMessage AckItem)) : Prop :=
  List.Forall₂ (fun event told => Heard recipient event.input.1 event.output told) events heard

/-- When every step of a backend is a step of the mailbox, every run is a run of the mailbox. -/
theorem Post.run [Base64] (post : Post σ) (step : σ → Call × HashOrder → Outcome × σ)
    {Sound : σ → List (Call × HashOrder) → Prop} {recipient : String}
    (simulates : ∀ state input rest, Sound state (input :: rest) → Sound (step state input).2 rest ∧
      ∀ box, post.Shows state recipient box → ∃ told next, Heard recipient input.1 (step state input).1 told ∧
        Mailbox.Step box told next ∧ post.Shows (step state input).2 recipient next)
    {state : σ} {calls : List (Call × HashOrder)} (sound : Sound state calls) {box : Mailbox.Box QueueMessage}
    (shows : post.Shows state recipient box) :
    ∃ heard last, HeardAll recipient (trace step state calls) heard ∧ Mailbox.Run box heard last ∧
      post.Shows (final step state calls) recipient last := by
  induction calls generalizing state box with
  | nil => exact ⟨[], box, .nil, .nil box, shows⟩
  | cons input rest ih =>
    obtain ⟨after, stepwise⟩ := simulates state input rest sound
    obtain ⟨told, next, first, moved, shown⟩ := stepwise box shows
    obtain ⟨heard, last, later, run, ends⟩ := ih after shown
    exact ⟨told :: heard, last, .cons first later, .cons moved run, ends⟩

section History

variable [Base64] {recipient : String}

theorem Heard.arrival {event : Event σ} {told : Mailbox.Event QueueMessage AckItem}
    (heard : Heard recipient event.input.1 event.output told) :
    (told.arrival = none ∧ event.storedPush recipient = none) ∨
      ∃ msg seq, told = .arrived (msg.queued seq) ∧ event.storedPush recipient = some msg := by
  obtain ⟨before, ⟨call, order⟩, outcome, after⟩ := event
  cases heard with
  | @stored msg result seq addressed kept =>
    right
    refine ⟨msg, seq, rfl, ?_⟩
    simp [Event.storedPush, Event.storedFor, addressed, kept.1]
  | duplicate addressed known => exact .inl ⟨rfl, by simp [Event.storedPush, Event.storedFor, known.1]⟩
  | full addressed => exact .inl ⟨rfl, by simp [Event.storedPush, Event.storedFor]⟩
  | page more started next => exact .inl ⟨rfl, rfl⟩
  | badCursor refused nothing => exact .inl ⟨rfl, rfl⟩
  | acked => exact .inl ⟨rfl, rfl⟩
  | purged => exact .inl ⟨rfl, rfl⟩
  | elsewhere addressee different =>
    left
    refine ⟨rfl, ?_⟩
    cases call with
    | push msg =>
      cases addressee
      cases outcome with
      | push result => cases result <;> simp [Event.storedPush, Event.storedFor, different]
      | pull result => simp [Event.storedPush, Event.storedFor]
      | ack result => simp [Event.storedPush, Event.storedFor]
      | purgeExpired result => simp [Event.storedPush, Event.storedFor]
    | pull addressee cursor limit nowMs => rfl
    | ack addressee items => rfl
    | purgeExpired nowMs max => rfl

theorem HeardAll.split {first second : List (Event σ)} {heard : List (Mailbox.Event QueueMessage AckItem)}
    (told : HeardAll recipient (first ++ second) heard) :
    ∃ front back, heard = front ++ back ∧ HeardAll recipient first front ∧ HeardAll recipient second back := by
  induction first generalizing heard with
  | nil => exact ⟨[], heard, rfl, .nil, told⟩
  | cons event rest ih =>
    cases told with
    | cons here later =>
      obtain ⟨front, back, rfl, early, late⟩ := ih later
      exact ⟨_ :: front, back, rfl, .cons here early, late⟩

theorem HeardAll.source {events : List (Event σ)} {heard : List (Mailbox.Event QueueMessage AckItem)}
    (told : HeardAll recipient events heard) {note : Mailbox.Event QueueMessage AckItem} (member : note ∈ heard) :
    ∃ event ∈ events, Heard recipient event.input.1 event.output note := by
  induction told with
  | nil => cases member
  | cons here _ ih =>
    rcases List.mem_cons.mp member with rfl | later
    · exact ⟨_, List.mem_cons_self, here⟩
    · obtain ⟨event, listed, heard⟩ := ih later
      exact ⟨event, List.mem_cons_of_mem _ listed, heard⟩

theorem HeardAll.arrivals {events : List (Event σ)} {heard : List (Mailbox.Event QueueMessage AckItem)}
    (told : HeardAll recipient events heard) {box last : Mailbox.Box QueueMessage} (run : Mailbox.Run box heard last) :
    heard.filterMap Mailbox.Event.arrival = numbered box.issued (events.filterMap (Event.storedPush recipient)) := by
  induction told generalizing box with
  | nil => rfl
  | @cons event note events heard here _ ih =>
    cases run with
    | cons step rest =>
      rcases here.arrival with ⟨silent, unstored⟩ | ⟨msg, seq, rfl, stored⟩
      · rcases step.effect with ⟨arrived, rfl, _⟩ | ⟨_, same, _⟩
        · cases silent
        · rw [List.filterMap_cons_none silent, List.filterMap_cons_none unstored, ih rest, same]
      · rcases step.effect with ⟨arrived, here, numbered, raised, _⟩ | ⟨silent, _⟩
        · cases here
          change seq = box.issued at numbered
          subst numbered
          rw [List.filterMap_cons_some stored, numbered_cons, ← raised]
          exact congrArg _ (ih rest)
        · cases silent

theorem HeardAll.part {events : List (Event σ)} {heard : List (Mailbox.Event QueueMessage AckItem)}
    (told : HeardAll recipient events heard) {last : Mailbox.Box QueueMessage} (run : Mailbox.Run .empty heard last) :
    List.Sublist last.waiting (numbered 0 (events.filterMap (Event.storedPush recipient))) := by
  have history := run.history.2.1
  rw [told.arrivals run] at history
  exact history

theorem HeardAll.issued {events : List (Event σ)} {heard : List (Mailbox.Event QueueMessage AckItem)}
    (told : HeardAll recipient events heard) {last : Mailbox.Box QueueMessage} (run : Mailbox.Run .empty heard last) :
    last.issued = (events.filterMap (Event.storedPush recipient)).length := by
  have issued := run.history.1
  rw [told.arrivals run] at issued
  simpa [numbered, Mailbox.Box.empty] using issued

theorem HeardAll.newest {past : List (Event σ)} {event : Event σ}
    {heard : List (Mailbox.Event QueueMessage AckItem)} (told : HeardAll recipient (past ++ [event]) heard)
    {last : Mailbox.Box QueueMessage} (run : Mailbox.Run .empty heard last) {msg : InboundMessage}
    (stored : event.storedPush recipient = some msg) :
    msg.queued (past.filterMap (Event.storedPush recipient)).length ∈ last.waiting := by
  obtain ⟨early, rest, rfl, before, after⟩ := told.split
  obtain ⟨box, first, second⟩ := run.split
  cases after with
  | cons here nothing =>
    cases nothing
    cases second with
    | cons step ends =>
      cases ends
      rcases here.arrival with ⟨_, unstored⟩ | ⟨pushed, seq, rfl, same⟩
      · rw [stored] at unstored
        cases unstored
      · rw [stored] at same
        cases same
        rcases step.effect with ⟨arrived, same, fits, _, waiting⟩ | ⟨silent, _⟩
        · cases same
          change seq = box.issued at fits
          rw [← before.issued first, ← fits, waiting]
          exact List.mem_append_right _ List.mem_cons_self
        · cases silent

theorem HeardAll.delivered {past future : List (Event σ)} {event : Event σ}
    {heard : List (Mailbox.Event QueueMessage AckItem)} (told : HeardAll recipient (past ++ event :: future) heard)
    {last : Mailbox.Box QueueMessage} (run : Mailbox.Run .empty heard last) {cursor : Option String}
    {limit nowMs : Nat} {batch : PullBatch} (asked : event.input.1 = .pull recipient cursor limit nowMs)
    (answered : event.output = .pull (.ok batch)) :
    List.Sublist batch.items (numbered 0 (past.filterMap (Event.storedPush recipient))) := by
  obtain ⟨early, rest, rfl, before, after⟩ := told.split
  obtain ⟨box, first, second⟩ := run.split
  cases after with
  | cons here later =>
    cases second with
    | cons step rest =>
      rw [asked, answered] at here
      have held := before.part first
      generalize shown : Except.ok batch = result at here
      cases here with
      | page more started next =>
        cases shown
        generalize batch.items = items at step
        cases step
        exact (List.take_sublist _ _).trans (List.filter_sublist.trans held)
      | badCursor refused nothing =>
        rw [nothing batch shown.symm]
        exact List.nil_sublist _
      | elsewhere addressee different =>
        cases addressee
        exact absurd rfl different

end History

end EnigmaRelay
