import EnigmaRelay.Model.MemStore

open Std

namespace EnigmaRelay

/-- `Uuid::as_hyphenated` as the key layout relies on it: 36 bytes, no separator among them, in the
    order of the identifiers. -/
class UuidText where
  hyphenated : Uuid → Bytes
  length_eq : ∀ id, (hyphenated id).length = 36
  plain : ∀ id, Text.octet ':' ∉ hyphenated id
  ordered : ∀ a b : Uuid, a.toNat < b.toNat → compare (hyphenated a) (hyphenated b) = .lt

section Keys

def colon : UInt8 := Text.octet ':'

def messagePrefix (recipient : String) : Bytes :=
  Text.asBytes "msg:" ++ Text.asBytes recipient ++ [colon]

def quotaKey (recipient : String) : Bytes := Text.asBytes "quota:" ++ Text.asBytes recipient

def seqKey (recipient : String) : Bytes := Text.asBytes "seq:" ++ Text.asBytes recipient

variable [UuidText]

/-- The part of a key that names a message within its recipient: identifier and chunk. -/
def itemSuffix (messageId : Uuid) (chunkIndex : UInt32) : Bytes :=
  UuidText.hyphenated messageId ++ [colon] ++ Text.asBytes (Text.zeroPadded 10 chunkIndex.toNat)

def messageKey (recipient : String) (arrivalSeq : Nat) (messageId : Uuid) (chunkIndex : UInt32) : Bytes :=
  messagePrefix recipient ++ Text.asBytes (Text.zeroPadded 20 arrivalSeq) ++ [colon] ++ itemSuffix messageId chunkIndex

def indexKey (recipient : String) (messageId : Uuid) (chunkIndex : UInt32) : Bytes :=
  Text.asBytes "idx:" ++ Text.asBytes recipient ++ [colon] ++ itemSuffix messageId chunkIndex

end Keys

/-- `from_utf8_lossy` neither moves nor adds ASCII bytes, so the text is split and parsed here as
    the bytes it comes from. -/
def parseSeqFromKey (key : Bytes) : Result (Option Nat) :=
  let parts := key.splitOn colon
  if parts[0]? ≠ some (Text.asBytes "msg") then .ok none
  else
    match parts[2]? with
    | none => .ok none
    | some seqTxt =>
      match Text.parseU64 seqTxt with
      | none => .error (.internal "invalid key")
      | some seq => .ok (some seq)

/-- `to_be_bytes`. -/
def encodeU64 (value : Nat) : Bytes := (FixedWidth.digits 256 8 value).map UInt8.ofNat

def decodeU64 (bytes : Bytes) : Result Nat :=
  if bytes.length ≠ 8 then .error (.internal "invalid integer")
  else .ok (bytes.foldl (fun value byte => value * 256 + byte.toNat) 0)

structure QuotaValue where
  bytes : Nat := 0
  count : Nat := 0
  deriving DecidableEq, Repr

/-- The charge of one message taken back: `saturating_sub` on both fields. -/
def QuotaValue.refund (quota : QuotaValue) (msg : QueueMessage) : QuotaValue where
  count := saturatingSub quota.count 1
  bytes := saturatingSub quota.bytes msg.payloadBytes

/-- A sled tree: a map ordered by the bytes of its keys. -/
abbrev Tree (α : Type) := ExtTreeMap Bytes α compare

/-- `serde_json` gives back what it was given, so the values it writes are kept as such; the
    integers, which the store encodes itself, are kept as bytes. -/
structure SledStore where
  messages : Tree QueueMessage := ∅
  index : Tree Bytes := ∅
  quota : Tree QuotaValue := ∅
  seq : Tree Bytes := ∅

namespace SledStore

def new : SledStore := {}

/-- `read_quota_tx` and `read_quota_tree`. -/
def readQuota (quota : Tree QuotaValue) (recipient : String) : QuotaValue := (quota[quotaKey recipient]?).getD {}

def currentSeq (seq : Tree Bytes) (recipient : String) : Result Nat :=
  match seq[seqKey recipient]? with
  | none => .ok 0
  | some bytes => decodeU64 bytes

/-- `scan_prefix`: the entries under a key prefix, in key order. -/
def scanPrefix {α : Type} (tree : Tree α) (start : Bytes) : List (Bytes × α) :=
  tree.toList.filter (fun entry => start.isPrefixOf entry.1)

/-- The loop of a pull over the entries its scan yields. -/
def pullScan (startSeq : Option Nat) (limit nowMs : Nat) :
    List (Bytes × QueueMessage) → List QueueMessage → Result (List QueueMessage × Bool)
  | [], items => .ok (items, false)
  | (key, msg) :: rest, items =>
    match parseSeqFromKey key with
    | .error err => .error err
    | .ok none => pullScan startSeq limit nowMs rest items
    | .ok (some seq) =>
      if startSeq.any (seq ≤ ·) then pullScan startSeq limit nowMs rest items
      else if msg.deadlineMs ≤ nowMs then pullScan startSeq limit nowMs rest items
      else if items.length < limit then pullScan startSeq limit nowMs rest (items ++ [msg])
      else .ok (items, true)

def pull [Base64] (recipient : String) (cursor : Option String) (limit nowMs : Nat) (store : SledStore) :
    Result PullBatch × SledStore :=
  match startSeq recipient cursor with
  | .error err => (.error err, store)
  | .ok start =>
    match pullScan start (min limit u32Max) nowMs (scanPrefix store.messages (messagePrefix recipient)) [] with
    | .error err => (.error err, store)
    | .ok (items, more) =>
      let nextCursor := if more then items.getLast?.map (fun item => encodeCursor recipient item.arrivalSeq) else none
      let quotaValue := readQuota store.quota recipient
      (.ok { items := items, nextCursor := nextCursor,
             remainingEstimate := saturatingSub quotaValue.count items.length }, store)

variable [UuidText]

/-- One transaction over the four trees: an abort leaves them as they were. -/
def push (limits : RelayLimits) (msg : InboundMessage) (store : SledStore) : Result PushResult × SledStore :=
  let idxKey := indexKey msg.recipient msg.messageId msg.messageMeta.chunkIndex
  let quotaValue := readQuota store.quota msg.recipient
  if store.index.contains idxKey then
    (.ok { stored := false, duplicate := true, queueLen := quotaValue.count, queueBytes := quotaValue.bytes }, store)
  else
    let nextCount := saturatingAdd quotaValue.count 1
    if nextCount > limits.maxMessagesPerUser then (.error .quotaExceeded, store)
    else
      let nextBytes := saturatingAdd quotaValue.bytes msg.payloadBytes
      if nextBytes > limits.maxQueueBytesPerUser then (.error .quotaExceeded, store)
      else
        match currentSeq store.seq msg.recipient with
        | .error err => (.error err, store)
        | .ok arrivalSeq =>
          let msgKey := messageKey msg.recipient arrivalSeq msg.messageId msg.messageMeta.chunkIndex
          (.ok { stored := true, duplicate := false, queueLen := nextCount, queueBytes := nextBytes },
            { messages := store.messages.insert msgKey (msg.queued arrivalSeq)
              index := store.index.insert idxKey (encodeU64 arrivalSeq)
              quota := store.quota.insert (quotaKey msg.recipient) { bytes := nextBytes, count := nextCount }
              seq := store.seq.insert (seqKey msg.recipient) (encodeU64 (saturatingAdd arrivalSeq 1)) })

/-- What an acknowledgement's transaction has read and written so far. -/
structure AckTx where
  messages : Tree QueueMessage
  index : Tree Bytes
  quotaValue : QuotaValue
  outcome : AckOutcome

def ackItem (recipient : String) (tx : AckTx) (item : AckItem) : Result AckTx :=
  let idxKey := indexKey recipient item.messageId item.chunkIndex
  match tx.index[idxKey]? with
  | none => .ok { tx with outcome := { tx.outcome with missing := saturatingAdd tx.outcome.missing 1 } }
  | some seqBytes =>
    match decodeU64 seqBytes with
    | .error err => .error err
    | .ok seq =>
      let msgKey := messageKey recipient seq item.messageId item.chunkIndex
      match tx.messages[msgKey]? with
      | some msg =>
        .ok { messages := tx.messages.erase msgKey
              index := tx.index.erase idxKey
              quotaValue := tx.quotaValue.refund msg
              outcome := { tx.outcome with deleted := saturatingAdd tx.outcome.deleted 1 } }
      | none =>
        .ok { tx with index := tx.index.erase idxKey
                      outcome := { tx.outcome with missing := saturatingAdd tx.outcome.missing 1 } }

def ack (order : HashOrder) (recipient : String) (items : Vec AckItem) (store : SledStore) :
    Result AckOutcome × SledStore :=
  let start : AckTx :=
    { messages := store.messages, index := store.index, quotaValue := readQuota store.quota recipient, outcome := {} }
  match (order.items.arrange items.toList.dedup).foldlM (ackItem recipient) start with
  | .error err => (.error err, store)
  | .ok tx =>
    (.ok { tx.outcome with remaining := tx.quotaValue.count },
      { store with
        messages := tx.messages
        index := tx.index
        quota := store.quota.insert (quotaKey recipient) tx.quotaValue })

/-- The trees, the local quota cache and the count of a purge under way. -/
structure PurgeState where
  store : SledStore
  quotas : ExtTreeMap String QuotaValue compare := ∅
  removed : Nat := 0

/-- `quotas.entry(recipient)`: the cached value, or the tree's on first sight. -/
def cachedQuota (quotas : ExtTreeMap String QuotaValue compare) (store : SledStore) (recipient : String) : QuotaValue :=
  match quotas[recipient]? with
  | some quotaValue => quotaValue
  | none => readQuota store.quota recipient

/-- An expired message: its key, its index entry, and its charge on the cached quota. -/
def PurgeState.remove (current : PurgeState) (key : Bytes) (msg : QueueMessage) : PurgeState :=
  let store := { current.store with
    messages := current.store.messages.erase key
    index := current.store.index.erase (indexKey msg.recipient msg.messageId msg.messageMeta.chunkIndex) }
  let quotaEntry := cachedQuota current.quotas store msg.recipient
  { store := store
    quotas := current.quotas.insert msg.recipient (quotaEntry.refund msg)
    removed := current.removed + 1 }

def purgeScan (nowMs target : Nat) : List (Bytes × QueueMessage) → PurgeState → PurgeState
  | [], current => current
  | (key, msg) :: rest, current =>
    if current.removed ≥ target then current
    else if msg.deadlineMs > nowMs then purgeScan nowMs target rest current
    else purgeScan nowMs target rest (current.remove key msg)

/-- The cached quotas, in the order in which the cache is iterated. -/
def writeBacks (order : HashOrder) (quotas : ExtTreeMap String QuotaValue compare) : List (String × QuotaValue) :=
  (order.recipients.arrange quotas.keys).map (fun recipient => (recipient, (quotas[recipient]?).getD {}))

/-- A purge that nothing interrupts. Its iterator is already past a key when it removes it, so it
    yields the entries there were at the start. -/
def purgeExpired (order : HashOrder) (nowMs max : Nat) (store : SledStore) : Result Nat × SledStore :=
  let target := min max gcBatchLimit
  let current := purgeScan nowMs target store.messages.toList { store := store }
  let quota := (writeBacks order current.quotas).foldl
    (fun quota entry => quota.insert (quotaKey entry.1) entry.2) current.store.quota
  (.ok current.removed, { current.store with quota := quota })

def relayStore [Base64] : RelayStore SledStore := ⟨push, pull, ack, purgeExpired⟩

end SledStore

end EnigmaRelay
