import EnigmaRelay.Model.Http
import EnigmaRelay.Backends.Retry

open Machine

namespace EnigmaRelay.Server

section Accepted

variable [Base64]

/-- A request whose fields are in order, with a payload of at most the configured size. -/
structure Admissible (limits : RelayLimits) (body : PushRequest) (decoded : Bytes) : Prop where
  recipient : blank body.recipient = false
  kind : blank body.messageMeta.kind = false
  chunk : body.messageMeta.chunkIndex < body.messageMeta.chunkCount
  payload : Base64.decode body.ciphertextB64 = some decoded
  size : decoded.length ≤ limits.maxMessageBytes

theorem Admissible.built {limits : RelayLimits} {body : PushRequest} {decoded : Bytes}
    (admissible : Admissible limits body decoded) (nowMillis : Nat) :
    buildInboundMessage body limits nowMillis = .ok (inbound limits body decoded nowMillis) := by
  have counted : ¬ body.messageMeta.chunkCount = 0 := by
    intro zero
    have chunk := admissible.chunk
    rw [zero] at chunk
    exact UInt32.not_lt_zero chunk
  have inside : ¬ body.messageMeta.chunkIndex ≥ body.messageMeta.chunkCount := UInt32.not_le.mpr admissible.chunk
  have fits : ¬ decoded.length > limits.maxMessageBytes := Nat.not_lt.mpr admissible.size
  simp only [buildInboundMessage, admissible.recipient, admissible.kind, admissible.payload, if_neg counted,
    if_neg inside, if_neg fits, Bool.false_eq_true, if_false]
  rfl

variable {σ : Type} {json : JsonParser} {store : RelayStore σ} {cfg : RelayConfig} {request : HttpRequest}
  {body : PushRequest} {decoded : Bytes} {state : σ}

theorem postPush_stored_iff (unlimited : cfg.rateLimit.enabled = false)
    (parsed : json.parse request.text = some body) (admissible : Admissible cfg.relay body decoded)
    (taken : ∃ answer, (store.push cfg.relay (inbound cfg.relay body decoded request.nowMillis) state).1 = .ok answer ∧
      answer.stored = true) :
    (postPush json store cfg request (.start cfg state)).1.stored = true ↔ request.text.length ≤ jsonLimit := by
  rw [postPush]
  by_cases long : request.text.length > jsonLimit
  · rw [if_pos long]
    exact iff_of_false Bool.false_ne_true (Nat.not_le.mpr long)
  · have free : ∀ limiter : RateLimiter, limiter.enabled = false → enforceRate cfg.rateLimit (peerIp request.peerAddr)
        "push" request.globalNow request.endpointNow limiter = (some (.ok ()), limiter) := by
      intro limiter off
      simp [enforceRate, off]
    obtain ⟨answer, pushed, stored⟩ := taken
    rw [if_neg long, parsed]
    simp only [App.start]
    rw [free _ unlimited]
    refine iff_of_true ?_ (Nat.not_lt.mp long)
    have outcome : push store cfg.relay ⟨true, request.nowMillis, request.order⟩ body state =
        (.ok { stored := answer.stored, duplicate := answer.duplicate, queueLen := some answer.queueLen,
               queueBytes := some answer.queueBytes },
          (store.push cfg.relay (inbound cfg.relay body decoded request.nowMillis) state).2) := by
      simp only [push, admissible.built, if_true]
      generalize store.push cfg.relay _ state = whole at pushed
      cases whole
      cases pushed
      rfl
    change (Reply.answered (push store cfg.relay ⟨true, request.nowMillis, request.order⟩ body state).1).stored = true
    rw [outcome]
    exact stored

end Accepted

section Stores

variable {limits : RelayLimits} {msg : InboundMessage}

theorem mem_takes [Base64] {state : MemStore} (fresh : ¬ MemStore.backend.indexes msg.recipient msg.ackItem state)
    (count : (state.entryOf msg.recipient).quotaCount + 1 ≤ limits.maxMessagesPerUser)
    (bytes : (state.entryOf msg.recipient).quotaBytes + msg.payloadBytes ≤ limits.maxQueueBytesPerUser) :
    ∃ answer, (MemStore.push limits msg state).1 = .ok answer ∧ answer.stored = true := by
  have room : (state.entryOf msg.recipient).HasRoom limits msg :=
    ⟨(Nat.min_le_left _ _).trans count, (Nat.min_le_left _ _).trans bytes⟩
  rcases RecipientState.push_cases limits msg (state.entryOf msg.recipient) with
    ⟨seq, known, _⟩ | ⟨_, full, _⟩ | ⟨_, _, pushed⟩
  · exact absurd ⟨seq, known⟩ fresh
  · exact absurd room full
  · exact ⟨_, congrArg Prod.fst pushed, rfl⟩

theorem mem_new_indexes [Base64] (recipient : String) (item : AckItem) :
    ¬ MemStore.backend.indexes recipient item MemStore.new := by
  intro indexed
  obtain ⟨seq, known⟩ := indexed
  cases known

theorem sled_takes [Base64] [UuidText] {store : SledStore} (consistent : store.Consistent)
    (fresh : ¬ SledStore.backend.indexes msg.recipient msg.ackItem store)
    (count : (SledStore.readQuota store.quota msg.recipient).count + 1 ≤ limits.maxMessagesPerUser)
    (bytes : (SledStore.readQuota store.quota msg.recipient).bytes + msg.payloadBytes ≤ limits.maxQueueBytesPerUser) :
    ∃ answer, (SledStore.push limits msg store).1 = .ok answer ∧ answer.stored = true := by
  have room : SledStore.HasRoom limits msg (SledStore.readQuota store.quota msg.recipient) :=
    ⟨(Nat.min_le_left _ _).trans count, (Nat.min_le_left _ _).trans bytes⟩
  rcases SledStore.push_cases limits msg store with
    ⟨known, present, _⟩ | ⟨_, full, _⟩ | ⟨_, _, err, failed, _⟩ | ⟨_, _, arrivalSeq, _, pushed⟩
  · exact absurd ⟨known, present⟩ fresh
  · exact absurd room full
  · obtain ⟨value, read⟩ := consistent.numbered msg.recipient
    rw [failed] at read
    cases read
  · exact ⟨_, congrArg Prod.fst pushed, rfl⟩

theorem sled_new_indexes [Base64] [UuidText] (recipient : String) (item : AckItem) :
    ¬ SledStore.backend.indexes recipient item SledStore.new := by
  intro indexed
  obtain ⟨bytes, known⟩ := indexed
  cases known

end Stores

section Runs

variable [Base64] [UuidText]

/-- After any calls, on either backend: without rate limiting, a push within all configured limits is
    stored exactly when its JSON text is short enough for the extractor, which no text of a payload
    of more than 1.5 MiB is, whatever `max_message_bytes` says. -/
theorem push_stored_iff (json : JsonParser) {cfg : RelayConfig} (unlimited : cfg.rateLimit.enabled = false)
    (calls : List (Call × HashOrder)) {request : HttpRequest} {body : PushRequest} {decoded : Bytes}
    (parsed : json.parse request.text = some body) (admissible : Admissible cfg.relay body decoded) :
    let pair : AckItem := ⟨body.messageId, body.messageMeta.chunkIndex⟩
    let mem := final (MemStore.next cfg.relay) MemStore.new calls
    let sled := final (SledStore.next cfg.relay) SledStore.new calls
    (¬ MemStore.backend.indexes body.recipient pair mem →
      (mem.entryOf body.recipient).quotaCount + 1 ≤ cfg.relay.maxMessagesPerUser →
      (mem.entryOf body.recipient).quotaBytes + decoded.length ≤ cfg.relay.maxQueueBytesPerUser →
      ((postPush json MemStore.relayStore cfg request (.start cfg mem)).1.stored = true ↔
        request.text.length ≤ jsonLimit)) ∧
    (¬ SledStore.backend.indexes body.recipient pair sled →
      (SledStore.readQuota sled.quota body.recipient).count + 1 ≤ cfg.relay.maxMessagesPerUser →
      (SledStore.readQuota sled.quota body.recipient).bytes + decoded.length ≤ cfg.relay.maxQueueBytesPerUser →
      ((postPush json SledStore.relayStore cfg request (.start cfg sled)).1.stored = true ↔
        request.text.length ≤ jsonLimit)) ∧
    (jsonLimit < 4 * ((decoded.length + 2) / 3) → ¬ request.text.length ≤ jsonLimit) := by
  intro pair mem sled
  refine ⟨?_, ?_, ?_⟩
  · intro fresh count bytes
    exact postPush_stored_iff unlimited parsed admissible
      (@mem_takes cfg.relay (inbound cfg.relay body decoded request.nowMillis) _ mem fresh count bytes)
  · intro fresh count bytes
    exact postPush_stored_iff unlimited parsed admissible
      (@sled_takes cfg.relay (inbound cfg.relay body decoded request.nowMillis) _ _ sled
        (SledStore.run_consistent cfg.relay calls) fresh count bytes)
  · intro large short
    exact absurd (json.covers _ _ _ parsed admissible.payload) (by omega)

end Runs

section Upload

variable (payload : Bytes)

def upload : PushRequest where
  recipient := "bob"
  messageId := 1
  ciphertextB64 := Base64.encode payload
  messageMeta := { kind := "msg", totalLen := payload.length, chunkIndex := 0, chunkCount := 1, sentMs := 0 }

def uploadHead : String :=
  "\x7b\"recipient\":\"bob\",\"message_id\":\"00000000-0000-0000-0000-000000000001\",\"ciphertext_b64\":\""

def uploadTail : String :=
  "\",\"meta\":\x7b\"kind\":\"msg\",\"total_len\":" ++ Nat.repr payload.length ++
    ",\"chunk_index\":0,\"chunk_count\":1,\"sent_ms\":0\x7d\x7d"

def uploadText : String := uploadHead ++ Base64.encode payload ++ uploadTail payload

theorem encode_length : 4 * ((payload.length + 2) / 3) ≤ (Text.asBytes (Base64.encode payload)).length := by
  have chars : (Base64.encode payload).toList.length = 4 * ((payload.length + 2) / 3) := by
    change (String.ofList (Rfc4648.encodeChars payload)).toList.length = _
    rw [String.toList_ofList, Rfc4648.encodeChars_length]
  rw [← chars]
  exact Text.length_le_asBytes _

theorem uploadText_length : 4 * ((payload.length + 2) / 3) ≤ (Text.asBytes (uploadText payload)).length := by
  rw [uploadText, Text.asBytes_append, Text.asBytes_append, List.length_append, List.length_append]
  exact (encode_length payload).trans ((Nat.le_add_left _ _).trans (Nat.le_add_right _ _))

def uploadParser : JsonParser where
  parse text := if text = Text.asBytes (uploadText payload) then some (upload payload) else none
  covers text body decoded parsed payloadOf := by
    split at parsed
    · rename_i same
      cases parsed
      cases (Base64.decode_encode payload).symm.trans payloadOf
      rw [same]
      exact uploadText_length payload
    · cases parsed

def uploadRequest : HttpRequest where
  peerAddr := none
  text := Text.asBytes (uploadText payload)
  globalNow := 0
  endpointNow := 0
  nowMillis := 0
  order := .asListed

theorem upload_parsed : (uploadParser payload).parse (uploadRequest payload).text = some (upload payload) :=
  if_pos rfl

theorem upload_admissible {limits : RelayLimits} (size : payload.length ≤ limits.maxMessageBytes) :
    Admissible limits (upload payload) payload where
  recipient := (by decide : blank "bob" = false)
  kind := (by decide : blank "msg" = false)
  chunk := (by decide : (0 : UInt32) < 1)
  payload := Base64.decode_encode payload
  size := size

theorem postPush_overflow [Base64] {σ : Type} (json : JsonParser) (store : RelayStore σ) (cfg : RelayConfig)
    {request : HttpRequest} (app : App σ) (long : jsonLimit < request.text.length) :
    (postPush json store cfg request app).1 = .overflow := by
  rw [postPush, if_pos long]

end Upload

theorem push_stored_iff_sample :
    (postPush (uploadParser [0]) MemStore.relayStore unlimited (uploadRequest [0])
      (.start unlimited MemStore.new)).1.stored = true ∧
    (postPush (uploadParser [0]) SledStore.relayStore unlimited (uploadRequest [0])
      (.start unlimited SledStore.new)).1.stored = true := by
  have admissible : Admissible unlimited.relay (upload [0]) [0] := upload_admissible [0] (by decide)
  have both := push_stored_iff (uploadParser [0]) rfl [] (upload_parsed [0]) admissible
  have short : (uploadRequest [0]).text.length ≤ jsonLimit := by decide +kernel
  exact ⟨(both.1 (mem_new_indexes _ _) (by decide +kernel) (by decide +kernel)).mpr short,
    (both.2.1 (sled_new_indexes _ _) (by decide +kernel) (by decide +kernel)).mpr short⟩

/-- The default configuration takes 8 MiB, and 1,572,865 zeros are turned away from a new store. -/
theorem push_turned_away :
    let payload : Bytes := .replicate 1_572_865 0
    let parser := uploadParser payload
    let request := uploadRequest payload
    unlimited.validate ⟨false, true⟩ = .ok () ∧ unlimited.rateLimit.enabled = false ∧
      parser.parse request.text = some (upload payload) ∧ Admissible unlimited.relay (upload payload) payload ∧
      (¬ MemStore.backend.indexes "bob" ⟨1, 0⟩ MemStore.new ∧
        (MemStore.new.entryOf "bob").quotaCount + 1 ≤ unlimited.relay.maxMessagesPerUser ∧
        (MemStore.new.entryOf "bob").quotaBytes + payload.length ≤ unlimited.relay.maxQueueBytesPerUser ∧
        (postPush parser MemStore.relayStore unlimited request (.start unlimited MemStore.new)).1 = .overflow) ∧
      (¬ SledStore.backend.indexes "bob" ⟨1, 0⟩ SledStore.new ∧
        (SledStore.readQuota SledStore.new.quota "bob").count + 1 ≤ unlimited.relay.maxMessagesPerUser ∧
        (SledStore.readQuota SledStore.new.quota "bob").bytes + payload.length ≤
          unlimited.relay.maxQueueBytesPerUser ∧
        (postPush parser SledStore.relayStore unlimited request (.start unlimited SledStore.new)).1 = .overflow) := by
  intro payload parser request
  have size : payload.length = 1_572_865 := List.length_replicate
  have long : jsonLimit < request.text.length := by
    have covered := uploadText_length payload
    rw [size] at covered
    exact Nat.lt_of_lt_of_le (by decide) covered
  have admissible : Admissible unlimited.relay (upload payload) payload := by
    apply upload_admissible
    rw [size]
    decide
  refine ⟨by decide, rfl, upload_parsed payload, admissible, ⟨mem_new_indexes _ _, by decide, ?_, ?_⟩,
    ⟨sled_new_indexes _ _, by decide +kernel, ?_, ?_⟩⟩
  · rw [size]
    decide
  · exact postPush_overflow _ _ _ _ long
  · rw [size]
    decide +kernel
  · exact postPush_overflow _ _ _ _ long

end EnigmaRelay.Server
