import EnigmaRelay.Foundation.Rfc4122
import EnigmaRelay.Foundation.Rfc4648
import EnigmaRelay.Model.Config
import EnigmaRelay.Model.PurgeSteps

/-! The codecs the relay is linked with, and an iterator; every general result holds of any with the same contract. -/

namespace EnigmaRelay

instance standardBase64 : Base64 where
  encode bytes := String.ofList (Rfc4648.encodeChars bytes)
  decode text := Rfc4648.decodeChars text.toList
  decode_encode bytes := by rw [String.toList_ofList, Rfc4648.decodeChars_encodeChars]

instance standardUuidText : UuidText where
  hyphenated := Rfc4122.hyphenated
  length_eq := Rfc4122.hyphenated_length
  plain := Rfc4122.hyphenated_plain
  ordered := Rfc4122.hyphenated_ordered

/-- The messages of the samples fit one leaf. -/
instance sampleIter : SledStore.MessageIter := TreeIter.oneLeaf Bytes QueueMessage compare

/-- A chunk of a message, with everything but its pair, clock readings and size fixed. -/
def sample (recipient : String) (messageId : Uuid) (arrivalMs deadlineMs payloadBytes : Nat) : InboundMessage where
  recipient := recipient
  messageId := messageId
  ciphertextB64 := "AA=="
  messageMeta := { kind := "msg", totalLen := 1, chunkIndex := 0, chunkCount := 1, sentMs := 0 }
  payloadBytes := payloadBytes
  arrivalMs := arrivalMs
  deadlineMs := deadlineMs

def sampleRequest (recipient : String) (messageId : Uuid) : PushRequest where
  recipient := recipient
  messageId := messageId
  ciphertextB64 := "AA=="
  messageMeta := { kind := "msg", totalLen := 1, chunkIndex := 0, chunkCount := 1, sentMs := 0 }

def sampleItem (messageId : Uuid) : AckItem := ⟨messageId, 0⟩

def sampleLimits : RelayLimits where
  maxMessageBytes := 8
  maxQueueBytesPerUser := 100
  maxMessagesPerUser := 10
  messageTtlSeconds := 60
  gcIntervalSeconds := 60
  pullBatchMax := 256

/-- The default configuration, its limiter switched off. -/
def unlimited : RelayConfig := { rateLimit := { enabled := false } }

def Vec.ofList {α : Type} (items : List α) (bounded : items.length ≤ u64Max := by decide) : Vec α := ⟨items, bounded⟩

def sampleAck : Vec AckItem := .ofList [sampleItem 1]

end EnigmaRelay
