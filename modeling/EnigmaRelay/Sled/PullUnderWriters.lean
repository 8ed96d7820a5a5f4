import EnigmaRelay.Sled.Ascending
import EnigmaRelay.Sled.PullAlone

open Std Machine

namespace EnigmaRelay.SledStore

/-- A pull is to return the message, if it finds it. -/
def PullRun.Sought (run : PullRun) (msg : QueueMessage) : Prop :=
  msg.recipient = run.recipient ∧ run.start.all (· < msg.arrivalSeq) = true ∧ run.nowMs < msg.deadlineMs

def PullRun.result (run : PullRun) : Option (Result PullBatch) :=
  match run.phase with
  | .finished result => some result
  | _ => none

section Reads

variable [UuidText]

/-- Where a pull stands that has missed none of the `kept` messages. -/
def PullRun.Covers [Base64] (kept : QueueMessage → Prop) (run : PullRun) : Prop :=
  match run.phase with
  | .scan => ∀ msg, kept msg → run.Sought msg → msg ∈ run.items ∨ LiveScan.beyond compare run.last msg.key = true
  | .readQuota more => ∀ msg, kept msg → run.Sought msg → msg ∈ run.items ∨
      more = true ∧ ∃ item, run.items.getLast? = some item ∧ item.arrivalSeq < msg.arrivalSeq
  | .finished (.error _) => False
  | .finished (.ok batch) => batch.items = run.items ∧ ∀ msg, kept msg → run.Sought msg → msg ∈ run.items ∨
      ∃ item ∈ run.items, batch.nextCursor = some (encodeCursor run.recipient item.arrivalSeq) ∧
        item.arrivalSeq < msg.arrivalSeq

/-- The items are in order of arrival and end where the scan has come to, and none of their numbers
    can turn up again. -/
structure PullRun.Ordered (store : SledStore) (run : PullRun) : Prop where
  items : ∀ item ∈ run.items, run.Sought item ∧ Claimed store run.recipient item
  sorted : run.items.Pairwise (fun a b => a.arrivalSeq < b.arrivalSeq)
  started : run.last = none → run.items = []
  last : ∀ key, run.last = some key → ∃ msg : QueueMessage, key = msg.key ∧ msg.recipient = run.recipient ∧
    Claimed store run.recipient msg ∧ ∀ item ∈ run.items, item.arrivalSeq ≤ msg.arrivalSeq

theorem PullRun.Ordered.store {before after : SledStore} {run : PullRun} (ordered : run.Ordered before)
    (claims : ∀ msg, Claimed before run.recipient msg → Claimed after run.recipient msg) : run.Ordered after := by
  refine ⟨?_, ordered.sorted, ordered.started, ?_⟩
  · intro item member
    obtain ⟨sought, claimed⟩ := ordered.items item member
    exact ⟨sought, claims item claimed⟩
  · intro key reached
    obtain ⟨msg, same, owner, claimed, bound⟩ := ordered.last key reached
    exact ⟨msg, same, owner, claims msg claimed, bound⟩

theorem PullRun.Ordered.ahead {store : SledStore} {run : PullRun} (ordered : run.Ordered store)
    {msg : QueueMessage} (member : msg ∈ stored store.messages run.recipient)
    (ahead : LiveScan.beyond compare run.last msg.key = true) : ∀ item ∈ run.items, item.arrivalSeq < msg.arrivalSeq := by
  intro item listed
  cases reached : run.last with
  | none =>
    rw [ordered.started reached] at listed
    cases listed
  | some key =>
    obtain ⟨passed, rfl, owner, claimed, bound⟩ := ordered.last key reached
    have below : compare passed.key msg.key = .lt := by
      rw [reached] at ahead
      exact of_decide_eq_true ahead
    have reach := bound item listed
    have later :=
      arrival_of_key (owner.trans (by simpa using (List.mem_filter.mp member).2 : msg.recipient = run.recipient).symm)
      (Nat.lt_trans claimed.1 (spent_bound store run.recipient)) below
    apply Nat.lt_of_le_of_ne (Nat.le_trans reach later)
    intro same
    have equal := claimed.2 msg member (by omega)
    rw [equal, ReflOrd.compare_self] at below
    cases below

section Scan

variable {store : SledStore} (keyed : Keyed store.messages) (plain : Plain store.messages) {recipient : String}
  (own : ':' ∉ recipient.toList) {last : Option Bytes}

include keyed plain own

theorem nextUnder_none (ended : nextUnder store.messages (messagePrefix recipient) last = none) {other : QueueMessage}
    (member : other ∈ stored store.messages recipient) : LiveScan.beyond compare last other.key = false := by
  obtain ⟨present, owner⟩ := keyed.mem_stored.mp member
  rw [nextUnder, scanPrefix_plain keyed plain own] at ended
  have inside : (other.key, other) ∈ store.messages.toList.filter (fun entry => entry.2.recipient = recipient) :=
    List.mem_filter.mpr ⟨OrderedMap.mem_toList.mpr present, decide_eq_true owner⟩
  exact LiveScan.next_none ended inside

theorem nextUnder_some {key : Bytes} {msg : QueueMessage}
    (found : nextUnder store.messages (messagePrefix recipient) last = some (key, msg)) :
    key = msg.key ∧ parseSeqFromKey key = .ok (some msg.arrivalSeq) ∧ msg ∈ stored store.messages recipient ∧
      LiveScan.beyond compare last msg.key = true ∧
      ∀ other ∈ stored store.messages recipient, LiveScan.beyond compare last other.key = true →
        other = msg ∨ LiveScan.beyond compare (some key) other.key = true := by
  rw [nextUnder, scanPrefix_plain keyed plain own] at found
  obtain ⟨listed, ahead⟩ := LiveScan.next_some found
  obtain ⟨bound, owner⟩ := List.mem_filter.mp listed
  have present := OrderedMap.mem_toList.mp bound
  obtain ⟨same, _⟩ := keyed key msg present
  refine ⟨same, parseSeqFromKey_plain keyed plain bound, ?_, same ▸ ahead, ?_⟩
  · exact keyed.mem_stored.mpr ⟨same ▸ present, of_decide_eq_true owner⟩
  · intro other member later
    obtain ⟨there, otherOwner⟩ := keyed.mem_stored.mp member
    have sorted := (OrderedMap.toList_sorted store.messages).filter (fun entry => entry.2.recipient = recipient)
    have inside : (other.key, other) ∈ store.messages.toList.filter (fun entry => entry.2.recipient = recipient) :=
      List.mem_filter.mpr ⟨OrderedMap.mem_toList.mpr there, decide_eq_true otherOwner⟩
    rcases LiveScan.next_least sorted found inside later with equal | below
    · exact .inl (congrArg Prod.snd equal)
    · exact .inr (decide_eq_true below)

end Scan

section Step

variable {kept : QueueMessage → Prop} {store : SledStore} {run : PullRun} {msg : QueueMessage}

theorem PullRun.Ordered.pass (ordered : run.Ordered store) (ascending : store.Ascending)
    (member : msg ∈ stored store.messages run.recipient) (ahead : LiveScan.beyond compare run.last msg.key = true)
    (owner : msg.recipient = run.recipient) : PullRun.Ordered store { run with last := some msg.key } := by
  refine ⟨ordered.items, ordered.sorted, ?_, ?_⟩
  · intro nothing
    cases nothing
  · intro key reached
    cases reached
    refine ⟨msg, rfl, owner, ascending _ _ member, ?_⟩
    exact fun item listed => Nat.le_of_lt (ordered.ahead member ahead item listed)

theorem PullRun.Ordered.take (ordered : run.Ordered store) (ascending : store.Ascending)
    (member : msg ∈ stored store.messages run.recipient) (ahead : LiveScan.beyond compare run.last msg.key = true)
    (sought : run.Sought msg) :
    PullRun.Ordered store { run with last := some msg.key, items := run.items ++ [msg] } := by
  have later := ordered.ahead member ahead
  have claimed := ascending _ _ member
  refine ⟨?_, ?_, ?_, ?_⟩
  · intro item listed
    rcases List.mem_append.mp listed with earlier | new
    · exact ordered.items item earlier
    · rw [List.mem_singleton.mp new]
      exact ⟨sought, claimed⟩
  · rw [List.pairwise_append]
    refine ⟨ordered.sorted, List.pairwise_singleton _ _, ?_⟩
    intro item earlier other new
    rw [List.mem_singleton.mp new]
    exact later item earlier
  · intro nothing
    cases nothing
  · intro key reached
    cases reached
    refine ⟨msg, rfl, sought.1, claimed, ?_⟩
    intro item listed
    rcases List.mem_append.mp listed with earlier | new
    · exact Nat.le_of_lt (later item earlier)
    · rw [List.mem_singleton.mp new]

variable [Base64]

theorem PullRun.Covers.step (covers : run.Covers kept) (ordered : run.Ordered store) (keyed : Keyed store.messages)
    (plain : Plain store.messages) (ascending : store.Ascending) (own : ':' ∉ run.recipient.toList)
    (positive : 1 ≤ run.limit)
    (present : run.phase = .scan → ∀ msg, kept msg → run.Sought msg → msg ∈ stored store.messages run.recipient) :
    (run.step store).Covers kept ∧ (run.step store).Ordered store := by
  rw [PullRun.Covers] at covers
  cases phase : run.phase with
  | finished result =>
    have same : run.step store = run := by simp only [PullRun.step, phase]
    rw [same, PullRun.Covers, phase]
    rw [phase] at covers
    exact ⟨covers, ordered⟩
  | readQuota more =>
    rw [phase] at covers
    simp only [PullRun.step, phase, PullRun.Covers]
    refine ⟨⟨trivial, ?_⟩, ordered.items, ordered.sorted, ordered.started, ordered.last⟩
    intro msg holds sought
    apply (covers msg holds sought).imp_right
    rintro ⟨full, item, ends, below⟩
    exact ⟨item, List.mem_of_getLast? ends, by rw [if_pos full, ends, Option.map_some], below⟩
  | scan =>
    rw [phase] at covers
    have there := present phase
    cases found : nextUnder store.messages (messagePrefix run.recipient) run.last with
    | none =>
      simp only [PullRun.step, phase, found, PullRun.Covers]
      refine ⟨?_, ordered.items, ordered.sorted, ordered.started, ordered.last⟩
      intro msg holds sought
      apply (covers msg holds sought).imp_right
      intro ahead
      rw [nextUnder_none keyed plain own found (there msg holds sought)] at ahead
      cases ahead
    | some entry =>
      obtain ⟨key, msg⟩ := entry
      obtain ⟨rfl, parsed, member, ahead, least⟩ := nextUnder_some keyed plain own found
      have owner : msg.recipient = run.recipient := (keyed.mem_stored.mp member).2
      -- a kept message is on the page, is this one, or is still ahead
      have onward : ∀ other, kept other → run.Sought other → other ∈ run.items ∨ other = msg ∨
          LiveScan.beyond compare (some msg.key) other.key = true := by
        intro other holds sought
        rcases covers other holds sought with listed | later
        · exact .inl listed
        · exact .inr (least other (there other holds sought) later)
      have passed : ¬ run.Sought msg →
          PullRun.Covers kept { run with last := some msg.key } ∧
            PullRun.Ordered store { run with last := some msg.key } := by
        intro unsought
        refine ⟨?_, ordered.pass ascending member ahead owner⟩
        simp only [PullRun.Covers, phase]
        intro other holds sought
        rcases onward other holds sought with listed | rfl | later
        · exact .inl listed
        · exact absurd sought unsought
        · exact .inr later
      have excluded : run.start.any (msg.arrivalSeq ≤ ·) = true ↔ ¬ run.start.all (· < msg.arrivalSeq) = true := by
        cases run.start <;> simp
      by_cases behind : run.start.any (msg.arrivalSeq ≤ ·) = true
      · have stepped : run.step store = { run with last := some msg.key } := by
          simp only [PullRun.step, phase, found, parsed, if_pos behind]
        rw [stepped]
        apply passed
        rintro ⟨_, beyond, _⟩
        exact excluded.mp behind beyond
      by_cases late : msg.deadlineMs ≤ run.nowMs
      · have stepped : run.step store = { run with last := some msg.key } := by
          simp only [PullRun.step, phase, found, parsed, if_neg behind, if_pos late]
        rw [stepped]
        apply passed
        rintro ⟨_, _, alive⟩
        exact absurd alive (Nat.not_lt.mpr late)
      have sought : run.Sought msg :=
        ⟨owner, Decidable.not_not.mp (fun outside => behind (excluded.mpr outside)), Nat.not_le.mp late⟩
      by_cases room : run.items.length < run.limit
      · have stepped : run.step store = { run with last := some msg.key, items := run.items ++ [msg] } := by
          simp only [PullRun.step, phase, found, parsed, if_neg behind, if_neg late, if_pos room]
        rw [stepped]
        refine ⟨?_, ordered.take ascending member ahead sought⟩
        simp only [PullRun.Covers, phase]
        intro other holds wanted
        rcases onward other holds wanted with listed | rfl | later
        · exact .inl (List.mem_append_left _ listed)
        · exact .inl (List.mem_append_right _ List.mem_cons_self)
        · exact .inr later
      · have stepped : run.step store = { run with phase := .readQuota true } := by
          simp only [PullRun.step, phase, found, parsed, if_neg behind, if_neg late, if_neg room]
        rw [stepped]
        refine ⟨?_, ordered.items, ordered.sorted, ordered.started, ordered.last⟩
        intro other holds wanted
        apply (covers other holds wanted).imp_right
        intro later
        have filled : 0 < run.items.length := Nat.lt_of_lt_of_le positive (Nat.not_lt.mp room)
        obtain ⟨item, ends⟩ := Option.isSome_iff_exists.mp (List.getLast?_isSome.mpr (List.length_pos_iff.mp filled))
        exact ⟨rfl, item, ends, ordered.ahead (there other holds wanted) later item (List.mem_of_getLast? ends)⟩

end Step

end Reads

section Moves

variable [UuidText] {store : SledStore}

theorem ack_shrinks (keyed : Keyed store.messages) (order : HashOrder) (recipient : String) (items : Vec AckItem) :
    Shrinks store (ack order recipient items store).2 := by
  rcases ack_cases order recipient items store with ⟨err, acked⟩ | ⟨tx, folded, acked⟩
  · rw [acked]
    exact .refl _
  · rw [acked]
    refine ⟨(ackItems_invariant (P := fun tx => Keyed tx.messages ∧ ∀ (key : Bytes) (msg : QueueMessage),
      tx.messages[key]? = some msg → store.messages[key]? = some msg) ?_ ⟨keyed, fun _ _ bound => bound⟩ folded).2, rfl⟩
    rintro tx item next _ ⟨txKeyed, part⟩ once
    rcases ackItem_cases txKeyed recipient item with ⟨_, missed⟩ | ⟨_, _, _, _, failed⟩ | ⟨_, _, _, _, _, missed⟩ |
      ⟨_, msg, _, _, _, _, _, deleted⟩
    · rw [missed] at once
      cases once
      exact ⟨txKeyed, part⟩
    · rw [failed] at once
      cases once
    · rw [missed] at once
      cases once
      exact ⟨txKeyed, part⟩
    · rw [deleted] at once
      cases once
      refine ⟨txKeyed.erase msg.key, ?_⟩
      intro key found left
      rw [AckTx.delete, OrderedMap.getElem?_erase] at left
      split at left
      · cases left
      · exact part key found left

variable [MessageIter]

theorem PurgeRun.step_shrinks (run : PurgeRun) (store : SledStore) : Shrinks store (run.step store).2 := by
  unfold PurgeRun.step
  cases run.phase with
  | next =>
    dsimp only
    split
    · exact .refl _
    · split
      · exact .refl _
      · split <;> exact .refl _
  | removeMessage key msg =>
    refine ⟨?_, rfl⟩
    intro other found left
    dsimp only at left
    rw [OrderedMap.getElem?_erase] at left
    split at left
    · cases left
    · exact left
  | removeIndex msg => exact ⟨fun _ _ bound => bound, rfl⟩
  | readQuota msg => exact .refl _
  | writeBack pending =>
    cases pending with
    | nil => exact .refl _
    | cons entry rest => exact ⟨fun _ _ bound => bound, rfl⟩
  | finished removed => exact .refl _

/-- The push of a message for `recipient` that was answered `stored: true`. -/
def Serving.storedFor (recipient : String) (event : Step Serving Move (Option Outcome)) : Bool :=
  match event.input, event.output with
  | .push msg, some (.push (.ok result)) => msg.recipient = recipient && result.stored
  | _, _ => false

variable [Base64] (limits : RelayLimits)

theorem Serving.step_effect {state : Serving} (keyed : Keyed state.store.messages) (move : Move) :
    (∃ msg arrivalSeq, move = .push msg ∧ currentSeq state.store.seq msg.recipient = .ok arrivalSeq ∧
      (state.step limits move).2.store = accept msg arrivalSeq state.store ∧
      ∀ recipient, storedFor recipient (taken (Serving.step limits) state move) = decide (msg.recipient = recipient)) ∨
    (Shrinks state.store (state.step limits move).2.store ∧
      ∀ recipient, storedFor recipient (taken (Serving.step limits) state move) = false) := by
  cases move with
  | push msg =>
    have step : state.step limits (.push msg) = (some (.push (SledStore.push limits msg state.store).1),
        { state with store := (SledStore.push limits msg state.store).2 }) := rfl
    rcases push_cases limits msg state.store with ⟨_, _, pushed⟩ | ⟨_, _, pushed⟩ | ⟨_, _, err, failed, pushed⟩ |
      ⟨absent, _, arrivalSeq, number, pushed⟩
    · right
      rw [step, pushed]
      exact ⟨.refl _, fun r => by simp [storedFor, taken, step, pushed]⟩
    · right
      rw [step, pushed]
      exact ⟨.refl _, fun r => by simp [storedFor, taken, step, pushed]⟩
    · right
      rw [step, pushed]
      exact ⟨.refl _, fun r => by simp [storedFor, taken, step, pushed]⟩
    · left
      refine ⟨msg, arrivalSeq, rfl, number, by rw [step, pushed], ?_⟩
      intro recipient
      simp [storedFor, taken, step, pushed]
  | ack order recipient items => exact .inr ⟨ack_shrinks keyed order recipient items, fun _ => rfl⟩
  | collect order nowMs max => exact .inr ⟨.refl _, fun _ => rfl⟩
  | purge =>
    right
    refine ⟨?_, fun _ => rfl⟩
    rw [Serving.step]
    split
    · exact .refl _
    · exact PurgeRun.step_shrinks _ _
  | begin recipient cursor limit nowMs => exact .inr ⟨.refl _, fun _ => rfl⟩
  | pull => exact .inr ⟨.refl _, fun _ => rfl⟩

/-- Every message lies under its own key, with a number of its own below the recipient's counter. -/
structure Orderly (store : SledStore) : Prop where
  keyed : Keyed store.messages
  ascending : store.Ascending

theorem Serving.step_orderly {state : Serving} (orderly : state.store.Orderly) (move : Move)
    (room : ∀ recipient, storedFor recipient (taken (Serving.step limits) state move) = true →
      state.store.spent recipient < u64Max) :
    (state.step limits move).2.store.Orderly ∧
      (∀ recipient, (state.step limits move).2.store.spent recipient = state.store.spent recipient +
        if storedFor recipient (taken (Serving.step limits) state move) then 1 else 0) ∧
      ∀ recipient msg, Claimed state.store recipient msg → Claimed (state.step limits move).2.store recipient msg := by
  obtain ⟨keyed, ascending⟩ := orderly
  rcases Serving.step_effect limits keyed move with ⟨msg, arrivalSeq, _, number, after, hit⟩ | ⟨shrinks, miss⟩
  · have small : arrivalSeq < u64Max := spent_of_ok number ▸ room msg.recipient (by rw [hit]; simp)
    rw [after]
    refine ⟨⟨keyed.insert (currentSeq_bound number), ascending.accept keyed number small⟩, ?_, ?_⟩
    · intro recipient
      rw [spent_accept number small, hit]
      simp
    · exact fun recipient found => Claimed.accept keyed number small
  · refine ⟨⟨shrinks.keyed keyed, shrinks.ascending keyed ascending⟩, ?_, ?_⟩
    · intro recipient
      rw [shrinks.spent, miss]
      simp
    · exact fun recipient found => shrinks.claimed keyed

theorem Serving.step_plain {state : Serving} (keyed : Keyed state.store.messages) (plain : Plain state.store.messages)
    (move : Move) (named : ∀ msg, move = .push msg → ':' ∉ msg.recipient.toList) :
    Plain (state.step limits move).2.store.messages := by
  intro key found present
  rcases Serving.step_effect limits keyed move with ⟨msg, arrivalSeq, pushed, _, after, _⟩ | ⟨shrinks, _⟩
  · rw [after, accept, OrderedMap.getElem?_insert] at present
    split at present
    · cases Option.some.inj present
      exact named msg pushed
    · exact plain key found present
  · exact plain key found (shrinks.messages key found present)

/-- The pull that was `opened` is under way, over trees that are in order, and has missed none of the
    `kept` messages. -/
structure Serving.Reads (kept : QueueMessage → Prop) (opened : PullRun) (state : Serving) : Prop where
  orderly : state.store.Orderly
  plain : Plain state.store.messages
  pull : ∃ last items phase, state.pull = some { opened with last := last, items := items, phase := phase } ∧
    PullRun.Covers kept { opened with last := last, items := items, phase := phase } ∧
    PullRun.Ordered state.store { opened with last := last, items := items, phase := phase }

def Serving.scanning (state : Serving) : Bool := state.pull.any (fun run => run.phase = .scan)

/-- A move that a pull under way has to cope with: numbers are left, recipients have no separators, and
    what is `kept` is there as long as it may be scanned. -/
structure Serving.Copes (kept : QueueMessage → Prop) (opened : PullRun) (state : Serving) (move : Move) : Prop where
  room : ∀ recipient, storedFor recipient (taken (Serving.step limits) state move) = true →
    state.store.spent recipient < u64Max
  named : ∀ msg, move = .push msg → ':' ∉ msg.recipient.toList
  same : ∀ recipient cursor limit nowMs, move ≠ .begin recipient cursor limit nowMs
  present : state.scanning = true → ∀ msg, kept msg → opened.Sought msg →
    msg ∈ stored state.store.messages opened.recipient

variable {limits}

theorem Serving.Reads.step {kept : QueueMessage → Prop} {opened : PullRun} {state : Serving} {move : Move}
    (own : ':' ∉ opened.recipient.toList) (positive : 1 ≤ opened.limit) (reads : state.Reads kept opened)
    (copes : state.Copes limits kept opened move) : (state.step limits move).2.Reads kept opened := by
  obtain ⟨orderly, plain, last, items, phase, under, covers, ordered⟩ := reads
  obtain ⟨after, _, claims⟩ := Serving.step_orderly limits orderly move copes.room
  refine ⟨after, Serving.step_plain limits orderly.keyed plain move copes.named, ?_⟩
  have unmoved : (state.step limits move).2.pull = state.pull →
      ∃ last items phase, (state.step limits move).2.pull =
          some { opened with last := last, items := items, phase := phase } ∧
        PullRun.Covers kept { opened with last := last, items := items, phase := phase } ∧
        PullRun.Ordered (state.step limits move).2.store { opened with last := last, items := items, phase := phase } :=
    fun same => ⟨last, items, phase, same.trans under, covers, ordered.store (claims opened.recipient)⟩
  cases move with
  | push msg => exact unmoved rfl
  | ack order recipient items => exact unmoved rfl
  | collect order nowMs max => exact unmoved rfl
  | purge =>
    apply unmoved
    rw [Serving.step]
    split <;> rfl
  | begin recipient cursor limit nowMs => exact absurd rfl (copes.same recipient cursor limit nowMs)
  | pull =>
    have next := covers.step ordered orderly.keyed plain orderly.ascending own positive (fun scans msg holds sought =>
      copes.present (by rw [Serving.scanning, under, Option.any_some]; exact decide_eq_true scans) msg holds sought)
    obtain ⟨last', items', phase', moved⟩ :=
      PullRun.step_moves { opened with last := last, items := items, phase := phase } state.store
    rw [moved] at next
    refine ⟨last', items', phase', ?_, next.1, next.2⟩
    change state.pull.map (fun run => run.step state.store) = _
    rw [under, Option.map_some, moved]

theorem Serving.alone (state : Serving) {run : PullRun} (under : state.pull = some run) (operations : Nat) :
    final (Serving.step limits) state (List.replicate operations .pull) =
      { state with pull := some (run.alone state.store operations) } := by
  induction operations generalizing state run with
  | zero =>
    rw [List.replicate_zero, final_nil, PullRun.alone, Function.iterate_zero_apply, ← under]
  | succ operations ih =>
    have next : (state.step limits .pull).2 = { state with pull := some (run.step state.store) } := by
      rw [Serving.step, under, Option.map_some]
    rw [List.replicate_succ, final_cons, next, ih { state with pull := some (run.step state.store) } rfl,
      PullRun.alone_succ]

def Serving.answer (state : Serving) : Option (Result PullBatch) := state.pull.bind PullRun.result

variable (limits)

/-- The message is in the tree as long as the pull may come across it. -/
def StoredThroughout (opened : Serving) (moves : List Move) (msg : QueueMessage) : Prop :=
  ∀ event ∈ trace (Serving.step limits) opened moves, event.before.scanning = true →
    msg ∈ stored event.before.store.messages msg.recipient

/-- In any run of pushes, acknowledgements and purges, taken apart into their operations: fewer than
    `2^64` messages are stored for any one recipient. -/
def FewStored (moves : List Move) : Prop := HitsBelow (Serving.step limits) Serving.storedFor (2 ^ 64) .new moves

theorem run_room {moves : List Move} (few : FewStored limits moves) :
    ∀ event ∈ trace (Serving.step limits) .new moves, event.before.store.Orderly ∧
      ∀ recipient, Serving.storedFor recipient event = true → event.before.store.spent recipient < u64Max := by
  have within : ∀ recipient, spent Serving.new.store recipient +
      (trace (Serving.step limits) .new moves).countP (Serving.storedFor recipient) ≤ u64Max := by
    intro recipient
    have bound := few recipient
    have fresh : spent Serving.new.store recipient = 0 := spent_new recipient
    rw [fresh, u64Max]
    omega
  have empty : Serving.new.store.Orderly := ⟨new_consistent.keyed, new_ascending⟩
  obtain ⟨_, _, events⟩ := @budget_run _ _ _ (Serving.step limits) _ (fun state => state.store.Orderly)
    (fun state => spent state.store) Serving.storedFor u64Max
    (fun state move orderly room => by
      obtain ⟨after, levels, _⟩ := Serving.step_orderly limits orderly move room
      exact ⟨after, levels⟩) _ _ empty within
  exact fun event member => ⟨(events event member).1, (events event member).2.2⟩

theorem run_reads {past during : List Move} {cursor : Option String} {limit nowMs : Nat} {run : PullRun}
    (own : ':' ∉ run.recipient.toList) (positive : 1 ≤ run.limit)
    (begun : PullRun.begin run.recipient cursor limit nowMs = run)
    (fresh : run.last = none ∧ run.items = [] ∧ run.phase = .scan)
    (named : ∀ msg, .push msg ∈ past ++ during → ':' ∉ msg.recipient.toList)
    (alone : ∀ recipient cursor limit nowMs, .begin recipient cursor limit nowMs ∉ during)
    (few : FewStored limits (past ++ .begin run.recipient cursor limit nowMs :: during)) :
    let opened := final (Serving.step limits) .new (past ++ [.begin run.recipient cursor limit nowMs])
    (final (Serving.step limits) opened during).Reads (StoredThroughout limits opened during) run := by
  intro opened
  have events := run_room limits few
  rw [trace_append] at events
  have start : opened = { final (Serving.step limits) .new past with pull := some run } := by
    rw [show opened = _ from final_snoc _ _ _ _, Serving.step, begun]
  have onward : (Serving.step limits (final (Serving.step limits) .new past)
      (.begin run.recipient cursor limit nowMs)).2 = opened := (final_snoc _ _ _ _).symm
  -- the writers alone, until the pull begins
  have ready : (final (Serving.step limits) .new past).store.Orderly ∧
      Plain (final (Serving.step limits) .new past).store.messages := by
    have preserved : ∀ (state : Serving) (move : Move), (state.store.Orderly ∧ Plain state.store.messages) →
        ((∀ recipient, Serving.storedFor recipient (taken (Serving.step limits) state move) = true →
          state.store.spent recipient < u64Max) ∧ ∀ msg, move = .push msg → ':' ∉ msg.recipient.toList) →
        (state.step limits move).2.store.Orderly ∧ Plain (state.step limits move).2.store.messages :=
      fun state move both guard => ⟨(Serving.step_orderly limits both.1 move guard.1).1,
        Serving.step_plain limits both.1.keyed both.2 move guard.2⟩
    refine guarded_run (Serving.step limits) preserved ⟨⟨new_consistent.keyed, new_ascending⟩, ?_⟩ ?_
    · intro key msg present
      simp [Serving.new, new] at present
    · intro event member
      obtain ⟨asked, same⟩ := trace_event _ member
      rw [same]
      exact ⟨(events event (List.mem_append_left _ member)).2,
        fun msg pushed => named msg (List.mem_append_left _ (pushed ▸ asked))⟩
  -- then the pull among them
  refine guarded_run (Serving.step limits) (fun state move reads copes => Serving.Reads.step own positive reads copes)
    ⟨?_, ?_, run.last, run.items, run.phase, ?_, ?_, ?_⟩ ?_
  · rw [start]
    exact ready.1
  · rw [start]
    exact ready.2
  · rw [start]
  · obtain ⟨nowhere, _, phase⟩ := fresh
    simp only [PullRun.Covers, phase, nowhere]
    exact fun msg _ _ => .inr rfl
  · obtain ⟨nowhere, nothing, _⟩ := fresh
    rw [nowhere, nothing]
    refine ⟨?_, .nil, fun _ => rfl, ?_⟩
    · intro item listed
      cases listed
    · intro key reached
      cases reached
  · intro event member
    have later : event ∈ trace (Serving.step limits) (final (Serving.step limits) .new past)
        (.begin run.recipient cursor limit nowMs :: during) := by
      rw [trace, onward]
      exact List.mem_cons_of_mem _ member
    obtain ⟨asked, same⟩ := trace_event _ member
    refine ⟨?_, ?_, ?_, ?_⟩
    · rw [same]
      exact (events event (List.mem_append_right _ later)).2
    · exact fun msg pushed => named msg (List.mem_append_right _ (pushed ▸ asked))
    · exact fun recipient cursor limit nowMs begins => alone recipient cursor limit nowMs (begins ▸ asked)
    · intro scanning msg throughout sought
      rw [← sought.1]
      exact throughout event member scanning

/-- A pull reads on while messages are pushed, acknowledged and purged between any two of its
    operations: it returns what it is to return, in order, and skips nothing that stays. -/
theorem pull_under_writers {past during : List Move} {recipient : String} {start : Option Nat} {limit nowMs : Nat}
    (own : ':' ∉ recipient.toList) (inRange : ∀ seq ∈ start, seq < 2 ^ 64) (positive : 1 ≤ limit)
    (named : ∀ msg, .push msg ∈ past ++ during → ':' ∉ msg.recipient.toList)
    (alone : ∀ recipient cursor limit nowMs, .begin recipient cursor limit nowMs ∉ during)
    (few : FewStored limits (past ++ .begin recipient (start.map (encodeCursor recipient)) limit nowMs :: during)) :
    let opened := final (Serving.step limits) .new
      (past ++ [.begin recipient (start.map (encodeCursor recipient)) limit nowMs])
    let last := final (Serving.step limits) opened during
    (∃ operations, (final (Serving.step limits) last (List.replicate operations .pull)).answer.isSome = true) ∧
    ∀ result, last.answer = some result → ∃ batch, result = .ok batch ∧
      (∀ item ∈ batch.items, item.recipient = recipient ∧ start.all (· < item.arrivalSeq) = true ∧
        nowMs < item.deadlineMs) ∧
      batch.items.Pairwise (fun a b => a.arrivalSeq < b.arrivalSeq) ∧
      ∀ msg, msg.recipient = recipient → start.all (· < msg.arrivalSeq) = true → nowMs < msg.deadlineMs →
        StoredThroughout limits opened during msg →
        msg ∈ batch.items ∨ ∃ arrivalSeq < 2 ^ 64,
          batch.nextCursor = some (encodeCursor recipient arrivalSeq) ∧ arrivalSeq < msg.arrivalSeq := by
  intro opened last
  let run : PullRun := { recipient := recipient, start := start, limit := min limit u32Max, nowMs := nowMs }
  have accepted : startSeq recipient (start.map (encodeCursor recipient)) = .ok start := by
    cases start with
    | none => rfl
    | some seq => exact startSeq_encodeCursor own (inRange seq rfl)
  have begun : PullRun.begin run.recipient (start.map (encodeCursor recipient)) limit nowMs = run := by
    rw [PullRun.begin, accepted]
  obtain ⟨_, _, position, items, phase, under, covers, ordered⟩ :=
    run_reads limits own (Nat.le_min.mpr ⟨positive, by decide⟩ : 1 ≤ run.limit) begun ⟨rfl, rfl, rfl⟩ named alone few
  constructor
  · obtain ⟨operations, result, reached⟩ :=
      PullRun.finishes { run with last := position, items := items, phase := phase } last.store
    refine ⟨operations, ?_⟩
    rw [Serving.alone last under, Serving.answer, Option.bind_some, PullRun.result, reached]
    rfl
  · intro result answered
    rw [Serving.answer, under, Option.bind_some, PullRun.result] at answered
    cases phase with
    | scan => cases answered
    | readQuota more => cases answered
    | finished told =>
      cases answered
      cases result with
      | error err => exact covers.elim
      | ok batch =>
        obtain ⟨same, complete⟩ := covers
        refine ⟨batch, rfl, ?_, same ▸ ordered.sorted, ?_⟩
        · intro item listed
          exact (ordered.items item (same ▸ listed)).1
        · intro msg owner beyond alive throughout
          rcases complete msg throughout ⟨owner, beyond, alive⟩ with listed | ⟨item, listed, next, below⟩
          · exact .inl (same ▸ listed)
          · right
            have small := (ordered.items item listed).2.1
            exact ⟨item.arrivalSeq, Nat.lt_trans small (spent_bound last.store recipient), next, below⟩

end Moves

def sampleWaiting : List Move := [.push (sample "alice" 1 0 90 3), .push (sample "alice" 2 0 90 3)]

def sampleReading : List Move :=
  [.pull, .push (sample "alice" 3 5 90 3), .ack .asListed "alice" sampleAck, .pull, .pull]

theorem pull_under_writers_sample :
    let opened := final (Serving.step sampleLimits) .new (sampleWaiting ++ [.begin "alice" none 1 10])
    ∃ batch, (final (Serving.step sampleLimits) opened sampleReading).answer = some (.ok batch) ∧
      batch.items.Pairwise (fun a b => a.arrivalSeq < b.arrivalSeq) := by
  intro opened
  obtain ⟨_, answers⟩ := @pull_under_writers _ _ _ sampleLimits sampleWaiting sampleReading "alice" none 1 10 (by decide)
    (by simp) (by decide) (by
      intro msg listed
      simp only [sampleWaiting, sampleReading, List.cons_append, List.nil_append, List.mem_cons, Move.push.injEq,
        List.not_mem_nil, or_false, reduceCtorEq, false_or] at listed
      rcases listed with rfl | rfl | rfl <;> decide)
    (by
      intro recipient cursor limit nowMs listed
      simp [sampleReading] at listed)
    (HitsBelow.of_length (by decide))
  have told : (final (Serving.step sampleLimits) opened sampleReading).answer.isSome = true := by decide +kernel
  obtain ⟨result, known⟩ := Option.isSome_iff_exists.mp told
  obtain ⟨batch, rfl, _, sorted, _⟩ := answers result known
  exact ⟨batch, known, sorted⟩

end EnigmaRelay.SledStore
