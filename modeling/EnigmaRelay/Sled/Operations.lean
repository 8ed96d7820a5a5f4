import EnigmaRelay.Sled.State

open Std

namespace EnigmaRelay

theorem decodeU64_bound {bytes : Bytes} {value : Nat} (decoded : decodeU64 bytes = .ok value) : value < 2 ^ 64 := by
  have folded : ∀ (bytes : Bytes) (start : Nat),
      bytes.foldl (fun value byte => value * 256 + byte.toNat) start < (start + 1) * 256 ^ bytes.length := by
    intro bytes
    induction bytes with
    | nil => simp
    | cons byte rest ih =>
      intro start
      have small := byte.toNat_lt
      have next := ih (start * 256 + byte.toNat)
      rw [List.foldl_cons, List.length_cons, Nat.pow_succ']
      refine Nat.lt_of_lt_of_le next ?_
      rw [← Nat.mul_assoc]
      exact Nat.mul_le_mul_right _ (by omega)
  rw [decodeU64] at decoded
  split at decoded
  · cases decoded
  · rename_i eight
    have bound := folded bytes 0
    rw [Except.ok.inj decoded, Decidable.not_not.mp eight] at bound
    exact bound

namespace SledStore

theorem pull_unchanged [Base64] (recipient : String) (cursor : Option String) (limit nowMs : Nat) (store : SledStore) :
    (pull recipient cursor limit nowMs store).2 = store := by
  unfold pull
  split
  · rfl
  · split <;> rfl

theorem currentSeq_bound {seq : Tree Bytes} {recipient : String} {value : Nat}
    (read : currentSeq seq recipient = .ok value) : value < 2 ^ 64 := by
  unfold currentSeq at read
  split at read
  · cases read
    decide
  · exact decodeU64_bound read

section Trees

variable (recipient : String)

theorem readQuota_insert (quota : Tree QuotaValue) (other : String) (value : QuotaValue) :
    readQuota (quota.insert (quotaKey other) value) recipient =
      if other = recipient then value else readQuota quota recipient := by
  unfold readQuota
  rw [OrderedMap.getElem?_insert]
  by_cases same : other = recipient
  · rw [if_pos same, if_pos (same ▸ rfl)]
    rfl
  · rw [if_neg same, if_neg (fun keys => same (quotaKey_injective keys))]

theorem currentSeq_insert (seq : Tree Bytes) (other : String) {value : Nat} (bound : value < 2 ^ 64) :
    currentSeq (seq.insert (seqKey other) (encodeU64 value)) recipient =
      if other = recipient then .ok value else currentSeq seq recipient := by
  unfold currentSeq
  rw [OrderedMap.getElem?_insert]
  by_cases same : other = recipient
  · rw [if_pos same, if_pos (same ▸ rfl)]
    exact decodeU64_encodeU64 bound
  · rw [if_neg same, if_neg (fun keys => same (seqKey_injective keys))]

end Trees

variable [UuidText]

def accept (msg : InboundMessage) (arrivalSeq : Nat) (store : SledStore) : SledStore where
  messages := store.messages.insert (msg.queued arrivalSeq).key (msg.queued arrivalSeq)
  index := store.index.insert (itemKey msg.recipient msg.ackItem) (encodeU64 arrivalSeq)
  quota := store.quota.insert (quotaKey msg.recipient)
    { bytes := saturatingAdd (readQuota store.quota msg.recipient).bytes msg.payloadBytes
      count := saturatingAdd (readQuota store.quota msg.recipient).count 1 }
  seq := store.seq.insert (seqKey msg.recipient) (encodeU64 (saturatingAdd arrivalSeq 1))

structure HasRoom (limits : RelayLimits) (msg : InboundMessage) (quota : QuotaValue) : Prop where
  count : saturatingAdd quota.count 1 ≤ limits.maxMessagesPerUser
  bytes : saturatingAdd quota.bytes msg.payloadBytes ≤ limits.maxQueueBytesPerUser

theorem push_cases (limits : RelayLimits) (msg : InboundMessage) (store : SledStore) :
    (∃ bytes, store.index[itemKey msg.recipient msg.ackItem]? = some bytes ∧ push limits msg store =
      (.ok { stored := false, duplicate := true, queueLen := (readQuota store.quota msg.recipient).count,
             queueBytes := (readQuota store.quota msg.recipient).bytes }, store)) ∨
    (store.index[itemKey msg.recipient msg.ackItem]? = none ∧
      ¬ HasRoom limits msg (readQuota store.quota msg.recipient) ∧
        push limits msg store = (.error .quotaExceeded, store)) ∨
    (store.index[itemKey msg.recipient msg.ackItem]? = none ∧
      HasRoom limits msg (readQuota store.quota msg.recipient) ∧
      ∃ err, currentSeq store.seq msg.recipient = .error err ∧ push limits msg store = (.error err, store)) ∨
    (store.index[itemKey msg.recipient msg.ackItem]? = none ∧
      HasRoom limits msg (readQuota store.quota msg.recipient) ∧
      ∃ arrivalSeq, currentSeq store.seq msg.recipient = .ok arrivalSeq ∧ push limits msg store =
        (.ok { stored := true, duplicate := false,
               queueLen := saturatingAdd (readQuota store.quota msg.recipient).count 1,
               queueBytes := saturatingAdd (readQuota store.quota msg.recipient).bytes msg.payloadBytes },
          accept msg arrivalSeq store)) := by
  have same : indexKey msg.recipient msg.messageId msg.messageMeta.chunkIndex = itemKey msg.recipient msg.ackItem := rfl
  unfold push
  dsimp only
  rw [same]
  split
  · rename_i present
    left
    obtain ⟨bytes, bound⟩ := Option.isSome_iff_exists.mp (ExtTreeMap.isSome_getElem?_eq_contains.trans present)
    exact ⟨bytes, bound, rfl⟩
  · rename_i absent
    have missing : store.index[itemKey msg.recipient msg.ackItem]? = none := by simpa using absent
    right
    split
    · rename_i excess
      left
      exact ⟨missing, fun room => absurd room.count (Nat.not_le.mpr excess), rfl⟩
    · split
      · rename_i excess
        left
        exact ⟨missing, fun room => absurd room.bytes (Nat.not_le.mpr excess), rfl⟩
      · rename_i count bytes
        have room : HasRoom limits msg (readQuota store.quota msg.recipient) := ⟨Nat.not_lt.mp count, Nat.not_lt.mp bytes⟩
        right
        split
        · rename_i err failed
          exact .inl ⟨missing, room, err, failed, rfl⟩
        · rename_i arrivalSeq decoded
          exact .inr ⟨missing, room, arrivalSeq, decoded, rfl⟩

theorem push_after (limits : RelayLimits) (msg : InboundMessage) (store : SledStore) :
    (push limits msg store).2 = store ∨
    (store.index[itemKey msg.recipient msg.ackItem]? = none ∧
      HasRoom limits msg (readQuota store.quota msg.recipient) ∧
      ∃ arrivalSeq answer, currentSeq store.seq msg.recipient = .ok arrivalSeq ∧ answer.stored = true ∧
        push limits msg store = (.ok answer, accept msg arrivalSeq store)) := by
  rcases push_cases limits msg store with ⟨_, _, pushed⟩ | ⟨_, _, pushed⟩ | ⟨_, _, _, _, pushed⟩ |
    ⟨absent, room, arrivalSeq, number, pushed⟩
  · exact .inl (congrArg Prod.snd pushed)
  · exact .inl (congrArg Prod.snd pushed)
  · exact .inl (congrArg Prod.snd pushed)
  · exact .inr ⟨absent, room, arrivalSeq, _, number, rfl, pushed⟩

/-- An acknowledged pair with its message: both leave, and the charge is taken back. -/
def AckTx.delete (tx : AckTx) (msg : QueueMessage) : AckTx where
  messages := tx.messages.erase msg.key
  index := tx.index.erase (itemKey msg.recipient msg.ackItem)
  quotaValue := tx.quotaValue.refund msg
  outcome := { tx.outcome with deleted := saturatingAdd tx.outcome.deleted 1 }

def AckTx.miss (tx : AckTx) : AckTx :=
  { tx with outcome := { tx.outcome with missing := saturatingAdd tx.outcome.missing 1 } }

theorem ackItem_cases {tx : AckTx} (keyed : Keyed tx.messages) (recipient : String) (item : AckItem) :
    (tx.index[itemKey recipient item]? = none ∧ ackItem recipient tx item = .ok tx.miss) ∨
    (∃ bytes err, tx.index[itemKey recipient item]? = some bytes ∧ decodeU64 bytes = .error err ∧
      ackItem recipient tx item = .error err) ∨
    (∃ bytes arrivalSeq, tx.index[itemKey recipient item]? = some bytes ∧ decodeU64 bytes = .ok arrivalSeq ∧
      tx.messages[messageKey recipient arrivalSeq item.messageId item.chunkIndex]? = none ∧
      ackItem recipient tx item = .ok { tx.miss with index := tx.index.erase (itemKey recipient item) }) ∨
    ∃ bytes msg, tx.index[itemKey recipient item]? = some bytes ∧ decodeU64 bytes = .ok msg.arrivalSeq ∧
      tx.messages[msg.key]? = some msg ∧ msg.recipient = recipient ∧ msg.ackItem = item ∧
      ackItem recipient tx item = .ok (tx.delete msg) := by
  have same : indexKey recipient item.messageId item.chunkIndex = itemKey recipient item := rfl
  unfold ackItem
  dsimp only
  rw [same]
  cases entry : tx.index[itemKey recipient item]? with
  | none => exact .inl ⟨rfl, rfl⟩
  | some bytes =>
    right
    dsimp only
    cases decoded : decodeU64 bytes with
    | error err => exact .inl ⟨bytes, err, rfl, decoded, rfl⟩
    | ok arrivalSeq =>
      right
      dsimp only
      cases found : tx.messages[messageKey recipient arrivalSeq item.messageId item.chunkIndex]? with
      | none => exact .inl ⟨bytes, arrivalSeq, rfl, decoded, found, rfl⟩
      | some msg =>
        right
        obtain ⟨own, bound⟩ := keyed _ _ found
        obtain ⟨owners, seqs, ids, chunks⟩ := messageKey_injective (decodeU64_bound decoded) bound own
        have pair : msg.ackItem = item := by
          cases item
          exact congrArg₂ AckItem.mk ids.symm chunks.symm
        refine ⟨bytes, msg, rfl, seqs ▸ decoded, own ▸ found, owners.symm, pair, ?_⟩
        rw [AckTx.delete, ← own, ← owners, pair]

theorem ackItems_invariant {P : AckTx → Prop} {recipient : String} {items : List AckItem}
    (step : ∀ tx item next, item ∈ items → P tx → ackItem recipient tx item = .ok next → P next)
    {start last : AckTx} (first : P start) (folded : items.foldlM (ackItem recipient) start = .ok last) : P last := by
  induction items generalizing start with
  | nil =>
    cases folded
    exact first
  | cons item rest ih =>
    rw [List.foldlM_cons] at folded
    cases once : ackItem recipient start item with
    | error err =>
      rw [once] at folded
      cases folded
    | ok next =>
      rw [once] at folded
      refine ih ?_ (step start item next List.mem_cons_self first once) folded
      exact fun tx other after member => step tx other after (List.mem_cons_of_mem _ member)

def AckTx.start (store : SledStore) (recipient : String) : AckTx where
  messages := store.messages
  index := store.index
  quotaValue := readQuota store.quota recipient
  outcome := {}

theorem ack_cases (order : HashOrder) (recipient : String) (items : Vec AckItem) (store : SledStore) :
    (∃ err, ack order recipient items store = (.error err, store)) ∨
    ∃ tx, (order.items.arrange items.toList.dedup).foldlM (ackItem recipient) (AckTx.start store recipient) = .ok tx ∧
      ack order recipient items store =
        (.ok { tx.outcome with remaining := tx.quotaValue.count },
          { store with
            messages := tx.messages
            index := tx.index
            quota := store.quota.insert (quotaKey recipient) tx.quotaValue }) := by
  have begun : AckTx.start store recipient =
      { messages := store.messages, index := store.index, quotaValue := readQuota store.quota recipient,
        outcome := {} } := rfl
  unfold ack
  dsimp only
  rw [← begun]
  cases folded : (order.items.arrange items.toList.dedup).foldlM (ackItem recipient) (AckTx.start store recipient) with
  | error err => exact .inl ⟨err, rfl⟩
  | ok tx => exact .inr ⟨tx, rfl, rfl⟩

end SledStore

end EnigmaRelay
