import EnigmaRelay.Backends.Retry
import EnigmaRelay.Memory.Mailbox
import EnigmaRelay.Sled.History

open Machine

namespace EnigmaRelay

open MemStore (Removes)

section Heard

variable {σ : Type} [Base64] {recipient : String}

theorem Heard.removes {call : Call} {outcome : Outcome} {told : Mailbox.Event QueueMessage AckItem}
    (heard : Heard recipient call outcome told) {msg : QueueMessage} (released : told.Releases msg) :
    Removes recipient msg call := by
  cases heard with
  | page more started next => exact ⟨rfl, released⟩
  | acked => exact ⟨rfl, released⟩
  | purged => exact released
  | stored seq addressed kept => exact released.elim
  | duplicate addressed known => exact released.elim
  | full addressed => exact released.elim
  | badCursor refused nothing => exact released.elim
  | elsewhere addressee different => exact released.elim

end Heard

/-- One turn of a consumer: its pull from the front of the queue, its acknowledgement of what it was
    given, and the calls of others before each of them. -/
structure Turn (σ : Type) where
  before : List (Event σ)
  limit : Nat
  nowMs : Nat
  pull : Event σ
  between : List (Event σ)
  ack : Event σ

namespace Turn

variable {σ : Type}

def events (turn : Turn σ) : List (Event σ) := turn.before ++ turn.pull :: (turn.between ++ [turn.ack])

def others (turn : Turn σ) : List (Event σ) := turn.before ++ turn.between

def items (turn : Turn σ) : List QueueMessage :=
  match turn.pull.output with
  | .pull (.ok batch) => batch.items
  | _ => []

/-- The consumer acknowledges what it was given, all of it and nothing else. -/
structure Of (recipient : String) (turn : Turn σ) : Prop where
  pulls : turn.pull.input.1 = .pull recipient none turn.limit turn.nowMs
  acks : ∃ named : Vec AckItem, turn.ack.input.1 = .ack recipient named ∧
    named.toList = turn.items.map QueueMessage.ackItem

end Turn

/-- A consumer is given every message once, in the order of arrival. -/
structure ReadsOnce {σ : Type} (recipient : String) (waiting : List QueueMessage) (turns : List (Turn σ)) : Prop where
  answered : ∀ turn ∈ turns, ∃ batch, turn.pull.output = .pull (.ok batch)
  ascending : (turns.flatMap Turn.items).Pairwise (fun a b => a.arrivalSeq < b.arrivalSeq)
  complete : ∀ last, turns.getLast? = some last → 1 ≤ last.limit → last.items = [] → ∀ msg ∈ waiting,
    (∀ turn ∈ turns, turn.nowMs < msg.deadlineMs) →
    (∀ turn ∈ turns, ∀ event ∈ turn.others, ¬ Removes recipient msg event.input.1) → msg ∈ turns.flatMap Turn.items
  bounded : (∀ turn ∈ turns, ∀ event ∈ turn.others, event.storedPush recipient = none) →
    (∀ turn ∈ turns, turn.items ≠ []) → turns.length ≤ waiting.length

section Turns

variable {σ : Type} [Base64] {recipient : String}

structure Turn.Plays (recipient : String) (turn : Turn σ) (round : Mailbox.Round QueueMessage AckItem) : Prop where
  before : HeardAll recipient turn.before round.before
  between : HeardAll recipient turn.between round.between
  now : round.now = turn.nowMs
  size : round.size = min turn.limit u32Max
  page : round.page = turn.items
  answered : ∃ batch, turn.pull.output = .pull (.ok batch)

theorem Turn.Of.plays {turn : Turn σ} (own : turn.Of recipient) {heard : List (Mailbox.Event QueueMessage AckItem)}
    (told : HeardAll recipient turn.events heard) :
    ∃ round : Mailbox.Round QueueMessage AckItem, heard = round.events ∧ turn.Plays recipient round := by
  obtain ⟨early, rest, rfl, before, after⟩ := told.split
  cases after with
  | cons here later =>
    obtain ⟨middle, rest, rfl, between, ends⟩ := HeardAll.split later
    cases ends with
    | cons confirmed nothing =>
      cases nothing
      rw [own.pulls] at here
      obtain ⟨batch, more, answered, rfl⟩ := here.pull
      obtain ⟨named, acked, same⟩ := own.acks
      rw [acked] at confirmed
      have items : turn.items = batch.items := by
        unfold Turn.items
        rw [answered]
      refine ⟨⟨early, turn.nowMs, min turn.limit u32Max, batch.items, more, middle⟩, ?_, before, between, rfl, rfl,
        items.symm, batch, answered⟩
      rw [confirmed.ack, same, items]
      rfl

theorem plays_all {turns : List (Turn σ)} (own : ∀ turn ∈ turns, turn.Of recipient)
    {heard : List (Mailbox.Event QueueMessage AckItem)} (told : HeardAll recipient (turns.flatMap Turn.events) heard) :
    ∃ rounds, heard = rounds.flatMap Mailbox.Round.events ∧ List.Forall₂ (Turn.Plays recipient) turns rounds := by
  induction turns generalizing heard with
  | nil =>
    cases told
    exact ⟨[], rfl, .nil⟩
  | cons turn rest ih =>
    rw [List.flatMap_cons] at told
    obtain ⟨front, back, rfl, first, later⟩ := told.split
    obtain ⟨round, rfl, plays⟩ := (own turn List.mem_cons_self).plays first
    obtain ⟨rounds, rfl, all⟩ := ih (fun turn listed => own turn (List.mem_cons_of_mem _ listed)) later
    exact ⟨round :: rounds, List.flatMap_cons.symm, .cons plays all⟩

section Pairs

variable {turns : List (Turn σ)} {rounds : List (Mailbox.Round QueueMessage AckItem)}

theorem pages_eq (all : List.Forall₂ (Turn.Plays recipient) turns rounds) :
    rounds.flatMap Mailbox.Round.page = turns.flatMap Turn.items := by
  induction all with
  | nil => rfl
  | cons plays _ ih => rw [List.flatMap_cons, List.flatMap_cons, plays.page, ih]

theorem turn_of_round (all : List.Forall₂ (Turn.Plays recipient) turns rounds)
    {round : Mailbox.Round QueueMessage AckItem} (member : round ∈ rounds) :
    ∃ turn ∈ turns, turn.Plays recipient round := by
  induction all with
  | nil => cases member
  | cons plays _ ih =>
    rcases List.mem_cons.mp member with rfl | later
    · exact ⟨_, List.mem_cons_self, plays⟩
    · obtain ⟨turn, listed, plays⟩ := ih later
      exact ⟨turn, List.mem_cons_of_mem _ listed, plays⟩

theorem round_of_turn (all : List.Forall₂ (Turn.Plays recipient) turns rounds) {turn : Turn σ} (member : turn ∈ turns) :
    ∃ round ∈ rounds, turn.Plays recipient round := by
  induction all with
  | nil => cases member
  | cons plays _ ih =>
    rcases List.mem_cons.mp member with rfl | later
    · exact ⟨_, List.mem_cons_self, plays⟩
    · obtain ⟨round, listed, plays⟩ := ih later
      exact ⟨round, List.mem_cons_of_mem _ listed, plays⟩

theorem last_round (all : List.Forall₂ (Turn.Plays recipient) turns rounds) {turn : Turn σ}
    (ends : turns.getLast? = some turn) : ∃ round, rounds.getLast? = some round ∧ turn.Plays recipient round := by
  induction all with
  | nil => cases ends
  | @cons first round later rest plays all ih =>
    rw [List.getLast?_cons] at ends ⊢
    cases all with
    | nil =>
      cases ends
      exact ⟨round, rfl, plays⟩
    | @cons second next _ _ _ _ =>
      rw [List.getLast?_cons, Option.getD_some] at ends
      obtain ⟨final, found, plays⟩ := ih (by rw [List.getLast?_cons]; exact ends)
      exact ⟨final, by rw [found]; rfl, plays⟩

theorem others_note {turn : Turn σ} {round : Mailbox.Round QueueMessage AckItem} (plays : turn.Plays recipient round)
    {note : Mailbox.Event QueueMessage AckItem} (member : note ∈ round.before ++ round.between) :
    ∃ event ∈ turn.others, Heard recipient event.input.1 event.output note := by
  rcases List.mem_append.mp member with early | late
  · obtain ⟨event, listed, heard⟩ := plays.before.source early
    exact ⟨event, List.mem_append_left _ listed, heard⟩
  · obtain ⟨event, listed, heard⟩ := plays.between.source late
    exact ⟨event, List.mem_append_right _ listed, heard⟩

end Pairs

/-- What a mailbox gives a consumer, every backend that keeps mailboxes gives it. -/
theorem HeardAll.readsOnce {turns : List (Turn σ)} (own : ∀ turn ∈ turns, turn.Of recipient)
    (clocks : turns.Pairwise (fun earlier later => earlier.nowMs ≤ later.nowMs))
    {heard : List (Mailbox.Event QueueMessage AckItem)} (told : HeardAll recipient (turns.flatMap Turn.events) heard)
    {box last : Mailbox.Box QueueMessage} (run : Mailbox.Run box heard last) :
    ReadsOnce recipient box.waiting turns := by
  obtain ⟨rounds, rfl, all⟩ := plays_all own told
  have pages := pages_eq all
  have ordered : rounds.Pairwise (fun earlier later => earlier.now ≤ later.now) := by
    have nows : rounds.map Mailbox.Round.now = turns.map Turn.nowMs := by
      clear own clocks told run pages
      induction all with
      | nil => rfl
      | cons plays _ ih => rw [List.map_cons, List.map_cons, plays.now, ih]
    have sorted := List.pairwise_map.mpr clocks
    rw [← nows] at sorted
    exact List.pairwise_map.mp sorted
  refine ⟨?_, ?_, ?_, ?_⟩
  · intro turn member
    obtain ⟨round, _, plays⟩ := round_of_turn all member
    exact plays.answered
  · rw [← pages]
    exact run.rounds_ascending ordered
  · intro final ends positive empty msg waits alive held
    obtain ⟨round, found, plays⟩ := last_round all ends
    rw [← pages]
    refine run.rounds_cover found ?_ (plays.page.trans empty) waits ?_ ?_
    · rw [plays.size]
      exact Nat.le_min.mpr ⟨positive, by decide⟩
    · intro round member
      obtain ⟨turn, listed, plays⟩ := turn_of_round all member
      rw [plays.now]
      exact alive turn listed
    · intro round member note listed released
      obtain ⟨turn, present, plays⟩ := turn_of_round all member
      obtain ⟨event, other, heard⟩ := others_note plays listed
      exact held turn present event other (heard.removes released)
  · intro quiet full
    have rooms : rounds.length = turns.length := all.length_eq.symm
    rw [← rooms]
    refine run.rounds_bounded ordered ?_ ?_
    · rw [List.filterMap_eq_nil_iff]
      intro note member
      obtain ⟨round, listed, within⟩ := List.mem_flatMap.mp member
      obtain ⟨turn, present, plays⟩ := turn_of_round all listed
      rw [Mailbox.Round.events, List.mem_append, List.mem_cons, List.mem_append, List.mem_singleton] at within
      have silent : ∀ note ∈ round.before ++ round.between, note.arrival = none := by
        intro note among
        obtain ⟨event, other, heard⟩ := others_note plays among
        rcases heard.arrival with ⟨none, _⟩ | ⟨_, _, _, stored⟩
        · exact none
        · rw [quiet turn present event other] at stored
          cases stored
      rcases within with early | rfl | late | rfl
      · exact silent note (List.mem_append_left _ early)
      · rfl
      · exact silent note (List.mem_append_right _ late)
      · rfl
    · intro round member
      obtain ⟨turn, listed, plays⟩ := turn_of_round all member
      rw [plays.page]
      exact full turn listed

end Turns

section Backends

variable [Base64] [UuidText] (limits : RelayLimits)

/-- On either backend, whatever the others do in between: a consumer that acknowledges each page before it pulls the
    next one is given every message once, in order of arrival. -/
theorem consumer_reads_once {recipient : String} {earlier later : List (Call × HashOrder)} :
    (∀ turns : List (Turn MemStore), MemStore.Few limits (earlier ++ later) →
      trace (MemStore.next limits) (final (MemStore.next limits) MemStore.new earlier) later = turns.flatMap Turn.events →
      (∀ turn ∈ turns, turn.Of recipient) → turns.Pairwise (fun first second => first.nowMs ≤ second.nowMs) →
        ReadsOnce recipient ((final (MemStore.next limits) MemStore.new earlier).queued recipient) turns) ∧
    ∀ turns : List (Turn SledStore), SledStore.Few limits (earlier ++ later) → PlainPushes (earlier ++ later) →
      ':' ∉ recipient.toList →
      trace (SledStore.next limits) (final (SledStore.next limits) SledStore.new earlier) later =
        turns.flatMap Turn.events →
      (∀ turn ∈ turns, turn.Of recipient) → turns.Pairwise (fun first second => first.nowMs ≤ second.nowMs) →
        ReadsOnce recipient (stored (final (SledStore.next limits) SledStore.new earlier).messages recipient) turns := by
  constructor
  · intro turns few run own clocks
    obtain ⟨coherent, fits⟩ := few.fits.split MemStore.new_coherent
    obtain ⟨_, box, _, _, shows⟩ :=
      MemStore.run_mailbox MemStore.new_coherent few.fits.left (MemStore.empty_shows recipient)
    obtain ⟨heard, last, told, moved, _⟩ := MemStore.run_mailbox coherent fits shows
    rw [run] at told
    have reads := HeardAll.readsOnce own clocks told moved
    rwa [shows.waiting] at reads
  · intro turns few plain separate run own clocks
    have before : PlainPushes earlier := fun input member => plain input (List.mem_append_left _ member)
    obtain ⟨_, box, _, _, shows⟩ := @SledStore.run_mailbox _ _ limits [] earlier few.left before _ separate _
      (SledStore.empty_shows recipient)
    obtain ⟨heard, last, told, moved, _⟩ := SledStore.run_mailbox few plain separate shows
    rw [run] at told
    have reads := HeardAll.readsOnce own clocks told moved
    rwa [shows.waiting] at reads

end Backends

section Sample

variable {σ : Type} (step : σ → Call × HashOrder → Outcome × σ) (state : σ)

def sampleTurn (named : Vec AckItem) : Turn σ where
  before := []
  limit := 10
  nowMs := 5
  pull := taken step state samplePull
  between := []
  ack := taken step (step state samplePull).2 (.ack "alice" named, .asListed)

def sampleTurns : List (Turn σ) :=
  [sampleTurn step state sampleAck, sampleTurn step (final step state (sampleVisits.take 2)) sampleNothing]

end Sample

theorem consumer_reads_once_sample :
    ReadsOnce "alice" ((final (MemStore.next sampleLimits) MemStore.new samplePushes).queued "alice")
      (sampleTurns (MemStore.next sampleLimits) (final (MemStore.next sampleLimits) MemStore.new samplePushes)) ∧
    ReadsOnce "alice" (stored (final (SledStore.next sampleLimits) SledStore.new samplePushes).messages "alice")
      (sampleTurns (SledStore.next sampleLimits) (final (SledStore.next sampleLimits) SledStore.new samplePushes)) := by
  constructor
  · refine (@consumer_reads_once _ _ sampleLimits "alice" samplePushes sampleVisits).1 _
      (HitsBelow.of_length (by decide)) rfl ?_ ?_
    · intro turn member
      rcases List.mem_cons.mp member with rfl | member
      · exact ⟨rfl, sampleAck, rfl, by decide +kernel⟩
      · rw [List.mem_singleton.mp member]
        exact ⟨rfl, sampleNothing, rfl, by decide +kernel⟩
    · simp [sampleTurns, sampleTurn]
  · refine (@consumer_reads_once _ _ sampleLimits "alice" samplePushes sampleVisits).2 _
      (HitsBelow.of_length (by decide)) samplePlain (by decide) rfl ?_ ?_
    · intro turn member
      rcases List.mem_cons.mp member with rfl | member
      · exact ⟨rfl, sampleAck, rfl, by decide +kernel⟩
      · rw [List.mem_singleton.mp member]
        exact ⟨rfl, sampleNothing, rfl, by decide +kernel⟩
    · simp [sampleTurns, sampleTurn]

end EnigmaRelay
