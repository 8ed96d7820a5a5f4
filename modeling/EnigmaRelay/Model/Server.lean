import EnigmaRelay.Model.Store

namespace EnigmaRelay

structure PushRequest where
  recipient : String
  messageId : Uuid
  ciphertextB64 : String
  messageMeta : MessageMeta
  deriving DecidableEq, Repr

structure PushResponse where
  stored : Bool
  duplicate : Bool
  queueLen : Option Nat
  queueBytes : Option Nat
  deriving DecidableEq, Repr

structure PullRequest where
  recipient : String
  cursor : Option String
  max : Option Nat
  deriving DecidableEq, Repr

structure DeliveryItem where
  recipient : String
  messageId : Uuid
  ciphertextB64 : String
  messageMeta : MessageMeta
  arrivalMs : Nat
  deadlineMs : Nat
  deriving DecidableEq, Repr

structure PullResponse where
  items : List DeliveryItem
  nextCursor : Option String
  remainingEstimate : Nat
  deriving DecidableEq, Repr

structure AckEntry where
  messageId : Uuid
  chunkIndex : UInt32
  deriving DecidableEq, Repr

structure AckRequest where
  recipient : String
  ack : Vec AckEntry

structure AckResponse where
  deleted : Nat
  missing : Nat
  remaining : Nat
  deriving DecidableEq, Repr

def saturatingMul (a b : Nat) : Nat := min (a * b) u64Max

namespace Server

/-- The Unicode `White_Space` characters, which `str::trim` removes. -/
def isWhitespace (c : Char) : Bool :=
  let code := c.toNat
  (0x09 ≤ code && code ≤ 0x0d) || code = 0x20 || code = 0x85 || code = 0xa0 || code = 0x1680 ||
    (0x2000 ≤ code && code ≤ 0x200a) || code = 0x2028 || code = 0x2029 || code = 0x202f || code = 0x205f ||
    code = 0x3000

/-- `text.trim().is_empty()`. -/
def blank (text : String) : Bool := text.toList.all isWhitespace

def recipientRequired : EnigmaRelayError := .invalidInput "recipient required"

section Push

variable [Base64]

def buildInboundMessage (body : PushRequest) (limits : RelayLimits) (nowMillis : Nat) : Result InboundMessage :=
  if blank body.recipient then .error recipientRequired
  else if body.messageMeta.chunkCount = 0 then .error (.invalidInput "chunk_count must be positive")
  else if body.messageMeta.chunkIndex ≥ body.messageMeta.chunkCount then
    .error (.invalidInput "chunk_index out of range")
  else if blank body.messageMeta.kind then .error (.invalidInput "kind required")
  else
    match Base64.decode body.ciphertextB64 with
    | none => .error (.invalidInput "invalid base64")
    | some decoded =>
      let payloadBytes := decoded.length
      if payloadBytes > limits.maxMessageBytes then .error (.invalidInput "message too large")
      else
        let ttlMs := saturatingMul limits.messageTtlSeconds 1000
        .ok { recipient := body.recipient
              messageId := body.messageId
              ciphertextB64 := body.ciphertextB64
              messageMeta := body.messageMeta
              payloadBytes := payloadBytes
              arrivalMs := nowMillis
              deadlineMs := saturatingAdd nowMillis ttlMs }

/-- The message that the store is handed. -/
def inbound (limits : RelayLimits) (body : PushRequest) (decoded : Bytes) (nowMillis : Nat) : InboundMessage where
  recipient := body.recipient
  messageId := body.messageId
  ciphertextB64 := body.ciphertextB64
  messageMeta := body.messageMeta
  payloadBytes := decoded.length
  arrivalMs := nowMillis
  deadlineMs := saturatingAdd nowMillis (saturatingMul limits.messageTtlSeconds 1000)

theorem buildInboundMessage_ok {limits : RelayLimits} {body : PushRequest} {nowMillis : Nat} {msg : InboundMessage}
    (built : buildInboundMessage body limits nowMillis = .ok msg) :
    ∃ decoded, Base64.decode body.ciphertextB64 = some decoded ∧ decoded.length ≤ limits.maxMessageBytes ∧
      msg = inbound limits body decoded nowMillis := by
  simp only [buildInboundMessage] at built
  repeat' split at built
  all_goals cases built
  rename_i decoded payload size
  exact ⟨decoded, payload, Nat.not_lt.mp size, rfl⟩

end Push

def toDelivery (msg : QueueMessage) : DeliveryItem where
  recipient := msg.recipient
  messageId := msg.messageId
  ciphertextB64 := msg.ciphertextB64
  messageMeta := msg.messageMeta
  arrivalMs := msg.arrivalMs
  deadlineMs := msg.deadlineMs

/-- What a handler reads besides its body: the verdict of `enforce_rate`, the clock, and the order
    of the hash tables that the store builds. -/
structure Context where
  admitted : Bool
  nowMillis : Nat
  order : HashOrder

inductive Request where
  | push (body : PushRequest)
  | pull (body : PullRequest)
  | ack (body : AckRequest)
  | purgeExpired (nowMs max : Nat)

def Request.addressee : Request → Option String
  | .push body => some body.recipient
  | .pull body => some body.recipient
  | .ack body => some body.recipient
  | .purgeExpired _ _ => none

inductive Response where
  | push (result : Result PushResponse)
  | pull (result : Result PullResponse)
  | ack (result : Result AckResponse)
  | purgeExpired (result : Result Nat)
  deriving DecidableEq

variable {σ : Type} (store : RelayStore σ) (limits : RelayLimits)

def push [Base64] (context : Context) (body : PushRequest) (state : σ) : Result PushResponse × σ :=
  if context.admitted then
    match buildInboundMessage body limits context.nowMillis with
    | .error err => (.error err, state)
    | .ok msg =>
      match store.push limits msg state with
      | (.error err, state) => (.error err, state)
      | (.ok result, state) =>
        (.ok { stored := result.stored, duplicate := result.duplicate,
               queueLen := some result.queueLen, queueBytes := some result.queueBytes }, state)
  else (.error .rateLimited, state)

def pull (context : Context) (body : PullRequest) (state : σ) : Result PullResponse × σ :=
  if context.admitted then
    if blank body.recipient then (.error recipientRequired, state)
    else
      let max := body.max.getD limits.pullBatchMax
      if max = 0 then (.error (.invalidInput "max must be positive"), state)
      else
        let clamped := min max limits.pullBatchMax
        match store.pull body.recipient body.cursor clamped context.nowMillis state with
        | (.error err, state) => (.error err, state)
        | (.ok batch, state) =>
          (.ok { items := batch.items.map toDelivery, nextCursor := batch.nextCursor,
                 remainingEstimate := batch.remainingEstimate }, state)
  else (.error .rateLimited, state)

def ackItems (body : AckRequest) : Vec AckItem where
  toList := body.ack.toList.map (fun entry => ⟨entry.messageId, entry.chunkIndex⟩)
  bounded := by
    rw [List.length_map]
    exact body.ack.bounded

def ack (context : Context) (body : AckRequest) (state : σ) : Result AckResponse × σ :=
  if context.admitted then
    if blank body.recipient then (.error recipientRequired, state)
    else
      match store.ack context.order body.recipient (ackItems body) state with
      | (.error err, state) => (.error err, state)
      | (.ok outcome, state) =>
        (.ok { deleted := outcome.deleted, missing := outcome.missing, remaining := outcome.remaining }, state)
  else (.error .rateLimited, state)

def handle [Base64] (state : σ) : Request × Context → Response × σ
  | (.push body, context) => let (result, state) := push store limits context body state; (.push result, state)
  | (.pull body, context) => let (result, state) := pull store limits context body state; (.pull result, state)
  | (.ack body, context) => let (result, state) := ack store context body state; (.ack result, state)
  | (.purgeExpired nowMs max, context) =>
    let (result, state) := store.purgeExpired context.order nowMs max state; (.purgeExpired result, state)

abbrev Event (σ : Type) := Machine.Step σ (Request × Context) Response

section Calls

variable [Base64]

/-- The call a request makes to the store, when it gets that far. -/
def storeCall : Request × Context → Option (Call × HashOrder)
  | (.push body, context) =>
    if context.admitted then
      (buildInboundMessage body limits context.nowMillis).toOption.map (fun msg => (.push msg, context.order))
    else none
  | (.pull body, context) =>
    let max := body.max.getD limits.pullBatchMax
    if context.admitted && !blank body.recipient && max ≠ 0 then
      some (.pull body.recipient body.cursor (min max limits.pullBatchMax) context.nowMillis, context.order)
    else none
  | (.ack body, context) =>
    if context.admitted && !blank body.recipient then some (.ack body.recipient (ackItems body), context.order) else none
  | (.purgeExpired nowMs max, context) => some (.purgeExpired nowMs max, context.order)

theorem storeCall_addressee {limits : RelayLimits} {input : Request × Context} {call : Call × HashOrder}
    (called : storeCall limits input = some call) : call.1.addressee = input.1.addressee := by
  obtain ⟨request, context⟩ := input
  cases request with
  | push body =>
    simp only [storeCall] at called
    split at called
    · cases built : buildInboundMessage body limits context.nowMillis with
      | error err =>
        rw [built] at called
        cases called
      | ok msg =>
        obtain ⟨_, _, _, rfl⟩ := buildInboundMessage_ok built
        rw [built] at called
        cases called
        rfl
    · cases called
  | pull body =>
    simp only [storeCall] at called
    split at called <;> cases called
    rfl
  | ack body =>
    simp only [storeCall] at called
    split at called <;> cases called
    rfl
  | purgeExpired nowMs max =>
    cases called
    rfl

/-- A request changes the store only through its call. -/
theorem handle_after (state : σ) (input : Request × Context) :
    (handle store limits state input).2 =
      match storeCall limits input with
      | none => state
      | some call => (store.step limits state call).2 := by
  obtain ⟨request, context⟩ := input
  cases request with
  | push body =>
    simp only [handle, push, storeCall]
    split
    · cases buildInboundMessage body limits context.nowMillis with
      | error err => rfl
      | ok msg =>
        simp only [Except.toOption, Option.map_some, RelayStore.step_push]
        generalize store.push limits msg state = pushed
        rcases pushed with ⟨_ | _, _⟩ <;> rfl
    · rfl
  | pull body =>
    simp only [handle, pull, storeCall]
    cases context.admitted with
    | false => rfl
    | true =>
      cases blank body.recipient with
      | true => rfl
      | false =>
        by_cases zero : body.max.getD limits.pullBatchMax = 0
        · simp [zero]
        · simp only [zero, if_true, if_false, Bool.not_false, Bool.and_self, ne_eq, not_false_eq_true, decide_true,
            RelayStore.step_pull, Bool.false_eq_true]
          generalize store.pull body.recipient body.cursor _ context.nowMillis state = pulled
          rcases pulled with ⟨_ | _, _⟩ <;> rfl
  | ack body =>
    simp only [handle, ack, storeCall]
    cases context.admitted with
    | false => rfl
    | true =>
      cases blank body.recipient with
      | true => rfl
      | false =>
        simp only [Bool.not_false, Bool.and_self, if_true, if_false, RelayStore.step_ack, Bool.false_eq_true]
        generalize store.ack context.order body.recipient (ackItems body) state = acked
        rcases acked with ⟨_ | _, _⟩ <;> rfl
  | purgeExpired nowMs max => rfl

end Calls

end Server

end EnigmaRelay
