import EnigmaRelay.Foundation.OrderedMap
import EnigmaRelay.Model.Store

open Std

namespace EnigmaRelay

instance : Ord AckItem := ⟨compareLex (compareOn AckItem.messageId) (compareOn AckItem.chunkIndex)⟩

instance : TransOrd AckItem :=
  inferInstanceAs (TransCmp (compareLex (compareOn AckItem.messageId) (compareOn AckItem.chunkIndex)))

instance : LawfulEqOrd AckItem where
  eq_of_compare {a b} same := by
    have both : (compare a.messageId b.messageId).then (compare a.chunkIndex b.chunkIndex) = .eq := same
    rw [Ordering.then_eq_eq, Std.compare_eq_iff_eq, Std.compare_eq_iff_eq] at both
    cases a
    cases b
    simp_all

def gcBatchLimit : Nat := 1024

structure RecipientState where
  seq : Nat := 0
  queue : ExtTreeMap Nat QueueMessage compare := ∅
  idx : ExtTreeMap AckItem Nat compare := ∅
  quotaBytes : Nat := 0
  quotaCount : Nat := 0

/-- The stored map; the mutex around it makes every method one atomic step. Hash maps are kept as
    ordered ones: the only iteration over their keys sorts them first. -/
abbrev MemStore := ExtTreeMap String RecipientState compare

/-- The sequence number a pull starts after, once its cursor is decoded and found to be the
    recipient's own. Both backends run this code. -/
def startSeq [Base64] (recipient : String) : Option String → Result (Option Nat)
  | none => .ok none
  | some raw =>
    match decodeCursor raw with
    | .error err => .error err
    | .ok (recip, seq) =>
      if recip ≠ recipient then .error (.invalidInput "cursor recipient mismatch") else .ok (some seq)

theorem startSeq_encodeCursor [Base64] {recipient : String} (plain : ':' ∉ recipient.toList) {seq : Nat}
    (bound : seq < 2 ^ 64) : startSeq recipient (some (encodeCursor recipient seq)) = .ok (some seq) := by
  simp only [startSeq, decodeCursor_encodeCursor recipient seq plain bound]
  rw [if_neg (by simp)]

namespace RecipientState

def push (limits : RelayLimits) (msg : InboundMessage) (entry : RecipientState) :
    Result PushResult × RecipientState :=
  if entry.idx.contains msg.ackItem then
    (.ok { stored := false, duplicate := true, queueLen := entry.quotaCount, queueBytes := entry.quotaBytes }, entry)
  else
    let nextCount := saturatingAdd entry.quotaCount 1
    if nextCount > limits.maxMessagesPerUser then (.error .quotaExceeded, entry)
    else
      let nextBytes := saturatingAdd entry.quotaBytes msg.payloadBytes
      if nextBytes > limits.maxQueueBytesPerUser then (.error .quotaExceeded, entry)
      else
        (.ok { stored := true, duplicate := false, queueLen := nextCount, queueBytes := nextBytes },
          { seq := saturatingAdd entry.seq 1
            queue := entry.queue.insert entry.seq (msg.queued entry.seq)
            idx := entry.idx.insert msg.ackItem entry.seq
            quotaCount := nextCount
            quotaBytes := nextBytes })

/-- `queue.remove(&seq)` and, when a message was there, its quota charge and index entry. -/
def drop (entry : RecipientState) (seq : Nat) : RecipientState :=
  match entry.queue[seq]? with
  | none => entry
  | some removed =>
    { entry with
      queue := entry.queue.erase seq
      quotaCount := saturatingSub entry.quotaCount 1
      quotaBytes := saturatingSub entry.quotaBytes removed.payloadBytes
      idx := entry.idx.erase removed.ackItem }

structure Scan where
  collected : List QueueMessage := []
  expired : List Nat := []
  more : Bool := false

def scan (limit nowMs : Nat) : List (Nat × QueueMessage) → Scan → Scan
  | [], found => found
  | (seq, msg) :: rest, found =>
    if msg.deadlineMs ≤ nowMs then scan limit nowMs rest { found with expired := found.expired ++ [seq] }
    else if found.collected.length < limit then
      scan limit nowMs rest { found with collected := found.collected ++ [msg] }
    else { found with more := true }

/-- The queue entries a pull looks at, in key order: `range((Excluded(seq), Unbounded))` or all. -/
def entriesAfter (entry : RecipientState) : Option Nat → List (Nat × QueueMessage)
  | none => entry.queue.toList
  | some seq => entry.queue.toList.filter (fun pending => seq < pending.1)

def pull [Base64] (recipient : String) (cursor : Option String) (limit nowMs : Nat) (entry : RecipientState) :
    Result PullBatch × RecipientState :=
  match startSeq recipient cursor with
  | .error err => (.error err, entry)
  | .ok start =>
    let limitUsize := min limit u32Max
    let found := scan limitUsize nowMs (entry.entriesAfter start) {}
    let entry := found.expired.foldl drop entry
    let nextCursor :=
      if found.more then found.collected.getLast?.map (fun item => encodeCursor item.recipient item.arrivalSeq)
      else none
    (.ok { items := found.collected, nextCursor := nextCursor,
           remainingEstimate := saturatingSub entry.quotaCount found.collected.length }, entry)

def ackItem : RecipientState × AckOutcome → AckItem → RecipientState × AckOutcome
  | (entry, outcome), key =>
    match entry.idx[key]? with
    | none => (entry, { outcome with missing := saturatingAdd outcome.missing 1 })
    | some seq =>
      let entry := { entry with idx := entry.idx.erase key }
      match entry.queue[seq]? with
      | none => (entry, outcome)
      | some removed =>
        ({ entry with
           queue := entry.queue.erase seq
           quotaCount := saturatingSub entry.quotaCount 1
           quotaBytes := saturatingSub entry.quotaBytes removed.payloadBytes },
          { outcome with deleted := saturatingAdd outcome.deleted 1 })

def ack (order : HashOrder) (items : Vec AckItem) (entry : RecipientState) : Result AckOutcome × RecipientState :=
  let unique := order.items.arrange items.toList.dedup
  let (entry, outcome) := unique.foldl ackItem (entry, {})
  (.ok { outcome with remaining := entry.quotaCount }, entry)

/-- The sequence numbers one purge takes from the front of a queue: it stops at the first message
    that has not expired and when the batch is full. -/
def toDrop (nowMs removed target : Nat) : List (Nat × QueueMessage) → List Nat → List Nat
  | [], chosen => chosen
  | (seq, msg) :: rest, chosen =>
    if msg.deadlineMs ≤ nowMs then
      let chosen := chosen ++ [seq]
      if removed + chosen.length ≥ target then chosen else toDrop nowMs removed target rest chosen
    else chosen

def dropCounted (target : Nat) : List Nat → RecipientState × Nat → RecipientState × Nat
  | [], current => current
  | seq :: rest, (entry, removed) =>
    let removed := if entry.queue.contains seq then removed + 1 else removed
    let entry := entry.drop seq
    if removed ≥ target then (entry, removed) else dropCounted target rest (entry, removed)

end RecipientState

namespace MemStore

open RecipientState (toDrop dropCounted)

def new : MemStore := ∅

/-- `entry(..).or_default()` without the insertion: an unknown recipient has the empty state. -/
def entryOf (state : MemStore) (recipient : String) : RecipientState := (state[recipient]?).getD {}

def push (limits : RelayLimits) (msg : InboundMessage) (state : MemStore) : Result PushResult × MemStore :=
  -- `entry(..).or_default()`: the recipient is known from here on, whatever the checks say
  let (result, entry) := (state.entryOf msg.recipient).push limits msg
  (result, state.insert msg.recipient entry)

def pull [Base64] (recipient : String) (cursor : Option String) (limit nowMs : Nat) (state : MemStore) :
    Result PullBatch × MemStore :=
  match state[recipient]? with
  | none => (.ok { items := [], nextCursor := none, remainingEstimate := 0 }, state)
  | some entry =>
    let (result, entry) := entry.pull recipient cursor limit nowMs
    (result, state.insert recipient entry)

def ack (order : HashOrder) (recipient : String) (items : Vec AckItem) (state : MemStore) :
    Result AckOutcome × MemStore :=
  match state[recipient]? with
  | none => (.ok { deleted := 0, missing := items.toList.length, remaining := 0 }, state)
  | some entry =>
    let (result, entry) := entry.ack order items
    (result, state.insert recipient entry)

def purgeRecipients (nowMs target : Nat) : List String → MemStore × Nat → MemStore × Nat
  | [], current => current
  | recip :: rest, (state, removed) =>
    if removed ≥ target then (state, removed)
    else
      match state[recip]? with
      | none => purgeRecipients nowMs target rest (state, removed)
      | some entry =>
        let chosen := toDrop nowMs removed target entry.queue.toList []
        let (entry, removed) := dropCounted target chosen (entry, removed)
        purgeRecipients nowMs target rest (state.insert recip entry, removed)

def purgeExpired (_order : HashOrder) (nowMs max : Nat) (state : MemStore) : Result Nat × MemStore :=
  let target := min max gcBatchLimit
  let (state, removed) := purgeRecipients nowMs target state.keys (state, 0)
  (.ok removed, state)

def relayStore [Base64] : RelayStore MemStore := ⟨push, pull, ack, purgeExpired⟩

end MemStore

end EnigmaRelay
