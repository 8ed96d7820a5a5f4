import EnigmaRelay.Foundation.Text
import EnigmaRelay.Foundation.Machine
import EnigmaRelay.Foundation.OrderedMap

namespace EnigmaRelay

/-- `u64` values are natural numbers; every operation on them that can leave the type saturates. -/
def u64Max : Nat := 2 ^ 64 - 1
def u32Max : Nat := 2 ^ 32 - 1

def saturatingAdd (a b : Nat) : Nat := min (a + b) u64Max
def saturatingSub (a b : Nat) : Nat := a - b

theorem saturatingAdd_of_le {a b : Nat} (fits : a + b ≤ u64Max) : saturatingAdd a b = a + b :=
  Nat.min_eq_left fits

theorem saturatingAdd_le (a b : Nat) : saturatingAdd a b ≤ u64Max := Nat.min_le_right _ _

theorem saturatingAdd_exact {a b cap : Nat} (capped : cap < u64Max) (kept : saturatingAdd a b ≤ cap) :
    saturatingAdd a b = a + b := by
  unfold saturatingAdd at kept ⊢
  omega

/-- A Rust `Vec`: its length is a `usize`. -/
structure Vec (α : Type) where
  toList : List α
  bounded : toList.length ≤ u64Max

abbrev Uuid := BitVec 128

structure MessageMeta where
  kind : String
  totalLen : Nat
  chunkIndex : UInt32
  chunkCount : UInt32
  sentMs : Nat
  deriving DecidableEq, Repr

structure RelayLimits where
  maxMessageBytes : Nat
  maxQueueBytesPerUser : Nat
  maxMessagesPerUser : Nat
  messageTtlSeconds : Nat
  gcIntervalSeconds : Nat
  pullBatchMax : Nat
  deriving DecidableEq, Repr

inductive EnigmaRelayError where
  | invalidInput (message : String)
  | rateLimited
  | duplicate
  | quotaExceeded
  | notFound
  | storageError (message : String)
  | config (message : String)
  | tls (message : String)
  | disabled (message : String)
  | internal (message : String)
  deriving DecidableEq, Repr

abbrev Result (α : Type) := Except EnigmaRelayError α

structure InboundMessage where
  recipient : String
  messageId : Uuid
  ciphertextB64 : String
  messageMeta : MessageMeta
  payloadBytes : Nat
  arrivalMs : Nat
  deadlineMs : Nat
  deriving DecidableEq, Repr

structure QueueMessage where
  recipient : String
  messageId : Uuid
  ciphertextB64 : String
  messageMeta : MessageMeta
  arrivalMs : Nat
  deadlineMs : Nat
  payloadBytes : Nat
  arrivalSeq : Nat
  deriving DecidableEq, Repr

/-- The record a store keeps for an accepted message. -/
def InboundMessage.queued (msg : InboundMessage) (arrivalSeq : Nat) : QueueMessage where
  arrivalSeq := arrivalSeq
  recipient := msg.recipient
  messageId := msg.messageId
  ciphertextB64 := msg.ciphertextB64
  messageMeta := msg.messageMeta
  arrivalMs := msg.arrivalMs
  deadlineMs := msg.deadlineMs
  payloadBytes := msg.payloadBytes

/-- A message that has not expired at `nowMs`. -/
def live (nowMs : Nat) (msg : QueueMessage) : Bool := nowMs < msg.deadlineMs

structure PushResult where
  stored : Bool
  duplicate : Bool
  queueLen : Nat
  queueBytes : Nat
  deriving DecidableEq, Repr

structure PullBatch where
  items : List QueueMessage
  nextCursor : Option String
  remainingEstimate : Nat
  deriving DecidableEq, Repr

structure AckOutcome where
  deleted : Nat := 0
  missing : Nat := 0
  remaining : Nat := 0
  deriving DecidableEq, Repr

structure AckItem where
  messageId : Uuid
  chunkIndex : UInt32
  deriving DecidableEq, Repr

/-- The pair an acknowledgement names, and deduplication looks at. -/
def QueueMessage.ackItem (msg : QueueMessage) : AckItem := ⟨msg.messageId, msg.messageMeta.chunkIndex⟩
def InboundMessage.ackItem (msg : InboundMessage) : AckItem := ⟨msg.messageId, msg.messageMeta.chunkIndex⟩

@[simp] theorem queued_ackItem (msg : InboundMessage) (seq : Nat) : (msg.queued seq).ackItem = msg.ackItem := rfl
@[simp] theorem queued_arrivalSeq (msg : InboundMessage) (seq : Nat) : (msg.queued seq).arrivalSeq = seq := rfl
@[simp] theorem queued_recipient (msg : InboundMessage) (seq : Nat) : (msg.queued seq).recipient = msg.recipient := rfl
@[simp] theorem queued_deadlineMs (msg : InboundMessage) (seq : Nat) : (msg.queued seq).deadlineMs = msg.deadlineMs := rfl
@[simp] theorem queued_payloadBytes (msg : InboundMessage) (seq : Nat) :
    (msg.queued seq).payloadBytes = msg.payloadBytes := rfl

/-- The `STANDARD` engine of the base64 crate, as far as the relay relies on it. -/
class Base64 where
  encode : Bytes → String
  decode : String → Option Bytes
  decode_encode : ∀ bytes, decode (encode bytes) = some bytes

section Cursor

variable [Base64]

def encodeCursor (recipient : String) (arrivalSeq : Nat) : String :=
  Base64.encode (Text.asBytes (recipient ++ ":" ++ Text.zeroPadded 20 arrivalSeq))

def invalidCursor : EnigmaRelayError := .invalidInput "invalid cursor"

def decodeCursor (cursor : String) : Result (String × Nat) :=
  match Base64.decode cursor with
  | none => .error invalidCursor
  | some decoded =>
    match Text.fromUtf8 decoded with
    | none => .error invalidCursor
    | some text =>
      -- `splitn(2, ':')`: the text before the first colon, and everything after it
      match text.toList.dropWhile (· ≠ ':') with
      | [] => .error invalidCursor
      | _ :: seq =>
        match Text.parseU64 (Text.asBytes (String.ofList seq)) with
        | none => .error invalidCursor
        | some arrivalSeq => .ok (String.ofList (text.toList.takeWhile (· ≠ ':')), arrivalSeq)

/-- A cursor for a recipient without the separator decodes to what it encodes. -/
theorem decodeCursor_encodeCursor (recipient : String) (arrivalSeq : Nat) (plain : ':' ∉ recipient.toList)
    (bound : arrivalSeq < 2 ^ 64) :
    decodeCursor (encodeCursor recipient arrivalSeq) = .ok (recipient, arrivalSeq) := by
  have passes : ∀ c ∈ recipient.toList, decide (c ≠ ':') = true := by
    intro c member
    rw [decide_eq_true_eq]
    rintro rfl
    exact plain member
  have text : (recipient ++ ":" ++ Text.zeroPadded 20 arrivalSeq).toList =
      recipient.toList ++ ':' :: (Text.zeroPadded 20 arrivalSeq).toList := by
    simp [String.toList_append]
  have before : (recipient.toList ++ ':' :: (Text.zeroPadded 20 arrivalSeq).toList).takeWhile (· ≠ ':') =
      recipient.toList := by
    rw [List.takeWhile_append_of_pos passes]
    simp
  have after : (recipient.toList ++ ':' :: (Text.zeroPadded 20 arrivalSeq).toList).dropWhile (· ≠ ':') =
      ':' :: (Text.zeroPadded 20 arrivalSeq).toList := by
    rw [List.dropWhile_append_of_pos passes]
    simp
  have fits : arrivalSeq < 10 ^ (19 + 1) := by omega
  have parsed : Text.parseU64 (Text.asBytes (Text.zeroPadded 20 arrivalSeq)) = some arrivalSeq := by
    rw [Text.asBytes_zeroPadded 19 arrivalSeq fits, Text.parseU64_digits 19 arrivalSeq bound fits]
  simp only [decodeCursor, encodeCursor, Base64.decode_encode, Text.fromUtf8_asBytes, text, before, after,
    String.ofList_toList, parsed]

end Cursor

/-- The iteration orders of the hash tables built inside one call. -/
structure HashOrder where
  items : IterationOrder AckItem
  recipients : IterationOrder String

def HashOrder.asListed : HashOrder := ⟨.asListed, .asListed⟩

inductive Call where
  | push (msg : InboundMessage)
  | pull (recipient : String) (cursor : Option String) (limit nowMs : Nat)
  | ack (recipient : String) (items : Vec AckItem)
  | purgeExpired (nowMs max : Nat)

/-- The one recipient a call concerns; a purge concerns them all. -/
def Call.addressee : Call → Option String
  | .push msg => some msg.recipient
  | .pull recipient _ _ _ => some recipient
  | .ack recipient _ => some recipient
  | .purgeExpired _ _ => none

inductive Outcome where
  | push (result : Result PushResult)
  | pull (result : Result PullBatch)
  | ack (result : Result AckOutcome)
  | purgeExpired (result : Result Nat)
  deriving DecidableEq

/-- A backend: each method takes the stored state and leaves a new one, also when it fails. -/
structure RelayStore (σ : Type) where
  push : RelayLimits → InboundMessage → σ → Result PushResult × σ
  pull : String → Option String → Nat → Nat → σ → Result PullBatch × σ
  ack : HashOrder → String → Vec AckItem → σ → Result AckOutcome × σ
  purgeExpired : HashOrder → Nat → Nat → σ → Result Nat × σ

namespace RelayStore

variable {σ : Type} (store : RelayStore σ) (limits : RelayLimits)

def step (state : σ) : Call × HashOrder → Outcome × σ
  | (.push msg, _) => let (result, state) := store.push limits msg state; (.push result, state)
  | (.pull recipient cursor limit nowMs, _) =>
    let (result, state) := store.pull recipient cursor limit nowMs state; (.pull result, state)
  | (.ack recipient items, order) =>
    let (result, state) := store.ack order recipient items state; (.ack result, state)
  | (.purgeExpired nowMs max, order) =>
    let (result, state) := store.purgeExpired order nowMs max state; (.purgeExpired result, state)

section Step

variable (state : σ) (order : HashOrder)

@[simp] theorem step_push (msg : InboundMessage) : store.step limits state (.push msg, order) =
    (.push (store.push limits msg state).1, (store.push limits msg state).2) := rfl

@[simp] theorem step_pull (recipient : String) (cursor : Option String) (limit nowMs : Nat) :
    store.step limits state (.pull recipient cursor limit nowMs, order) =
      (.pull (store.pull recipient cursor limit nowMs state).1, (store.pull recipient cursor limit nowMs state).2) := rfl

@[simp] theorem step_ack (recipient : String) (items : Vec AckItem) :
    store.step limits state (.ack recipient items, order) =
      (.ack (store.ack order recipient items state).1, (store.ack order recipient items state).2) := rfl

@[simp] theorem step_purgeExpired (nowMs max : Nat) :
    store.step limits state (.purgeExpired nowMs max, order) =
      (.purgeExpired (store.purgeExpired order nowMs max state).1, (store.purgeExpired order nowMs max state).2) := rfl

end Step

end RelayStore

abbrev Event (σ : Type) := Machine.Step σ (Call × HashOrder) Outcome

/-- The push of a message for `recipient` that was answered `stored: true`. -/
def Event.storedFor {σ : Type} (recipient : String) (event : Event σ) : Bool :=
  match event.input.1, event.output with
  | .push msg, .push (.ok result) => msg.recipient = recipient && result.stored
  | _, _ => false

theorem Event.storedFor_push {σ : Type} (recipient : String) (before after : σ) (msg : InboundMessage)
    (order : HashOrder) (result : Result PushResult) :
    Event.storedFor recipient ⟨before, (.push msg, order), .push result, after⟩ =
      match result with
      | .ok answer => msg.recipient = recipient && answer.stored
      | .error _ => false := by
  cases result <;> rfl

namespace Outcome

/-- How many messages an answer says were stored, deleted by an acknowledgement, or removed by a purge. -/
def stored : Outcome → Nat
  | .push (.ok result) => if result.stored then 1 else 0
  | _ => 0

def repeated : Outcome → Nat
  | .push (.ok result) => if result.duplicate then 1 else 0
  | _ => 0

def deleted : Outcome → Nat
  | .ack (.ok outcome) => outcome.deleted
  | _ => 0

def removed : Outcome → Nat
  | .purgeExpired (.ok removed) => removed
  | _ => 0

end Outcome

/-- What the answers of a run add up to. -/
def booked {σ : Type} (count : Outcome → Nat) (events : List (Event σ)) : Nat :=
  (events.map (fun event => count event.output)).sum

end EnigmaRelay
