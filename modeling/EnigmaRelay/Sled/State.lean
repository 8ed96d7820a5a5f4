import EnigmaRelay.Sled.Keys

open Std

namespace EnigmaRelay

/-- What a quota record says of a list of messages. -/
def total (msgs : List QueueMessage) : QuotaValue where
  bytes := (msgs.map QueueMessage.payloadBytes).sum
  count := msgs.length

def QuotaValue.charge (quota : QuotaValue) (msg : QueueMessage) : QuotaValue where
  bytes := quota.bytes + msg.payloadBytes
  count := quota.count + 1

@[simp] theorem refund_charge (quota : QuotaValue) (msg : QueueMessage) : (quota.charge msg).refund msg = quota := by
  simp [QuotaValue.charge, QuotaValue.refund, saturatingSub]

theorem total_cons (msg : QueueMessage) (rest : List QueueMessage) : total (msg :: rest) = (total rest).charge msg := by
  simp [total, QuotaValue.charge, Nat.add_comm]

theorem total_perm {first second : List QueueMessage} (permuted : first.Perm second) : total first = total second := by
  rw [total, total, (permuted.map QueueMessage.payloadBytes).sum_eq, permuted.length_eq]

theorem foldl_refund (gone rest : List QueueMessage) :
    gone.foldl QuotaValue.refund (total (gone ++ rest)) = total rest := by
  induction gone with
  | nil => rfl
  | cons msg later ih => rw [List.cons_append, total_cons, List.foldl_cons, refund_charge, ih]

section Keys

variable [UuidText]

def QueueMessage.key (msg : QueueMessage) : Bytes :=
  messageKey msg.recipient msg.arrivalSeq msg.messageId msg.messageMeta.chunkIndex

def itemKey (recipient : String) (item : AckItem) : Bytes := indexKey recipient item.messageId item.chunkIndex

theorem itemKey_injective {recipient other : String} {item otherItem : AckItem}
    (same : itemKey recipient item = itemKey other otherItem) : recipient = other ∧ item = otherItem := by
  obtain ⟨owners, ids, chunks⟩ := indexKey_injective same
  cases item
  cases otherItem
  exact ⟨owners, congrArg₂ AckItem.mk ids chunks⟩

theorem key_injective {a b : QueueMessage} (aBound : a.arrivalSeq < 2 ^ 64) (bBound : b.arrivalSeq < 2 ^ 64)
    (same : a.key = b.key) : a.recipient = b.recipient ∧ a.arrivalSeq = b.arrivalSeq ∧ a.ackItem = b.ackItem := by
  obtain ⟨owners, seqs, ids, chunks⟩ := messageKey_injective aBound bBound same
  exact ⟨owners, seqs, congrArg₂ AckItem.mk ids chunks⟩

theorem arrival_of_key {a b : QueueMessage} (owner : a.recipient = b.recipient) (bound : a.arrivalSeq < 2 ^ 64)
    (below : compare a.key b.key = .lt) : a.arrivalSeq ≤ b.arrivalSeq := by
  by_contra later
  have turned : compare b.key a.key = .lt := by
    rw [QueueMessage.key, QueueMessage.key, owner]
    exact compare_messageKey (Nat.not_le.mp later) bound _ _ _ _
  exact OrderedMap.not_lt_both below turned

/-- Every message lies under its own key. -/
def Keyed (messages : Tree QueueMessage) : Prop :=
  ∀ (key : Bytes) (msg : QueueMessage), messages[key]? = some msg → key = msg.key ∧ msg.arrivalSeq < 2 ^ 64

/-- The index has the entries of the stored messages and no others. -/
structure Indexed (messages : Tree QueueMessage) (index : Tree Bytes) : Prop where
  complete : ∀ msg : QueueMessage, messages[msg.key]? = some msg →
    index[itemKey msg.recipient msg.ackItem]? = some (encodeU64 msg.arrivalSeq)
  sound : ∀ (recipient : String) (item : AckItem) (bytes : Bytes), index[itemKey recipient item]? = some bytes →
    ∃ msg : QueueMessage, messages[msg.key]? = some msg ∧ msg.recipient = recipient ∧ msg.ackItem = item ∧
      bytes = encodeU64 msg.arrivalSeq

/-- The stored messages of a recipient, in key order. -/
def stored (messages : Tree QueueMessage) (recipient : String) : List QueueMessage :=
  (messages.toList.map Prod.snd).filter (fun msg => msg.recipient = recipient)

namespace Keyed

variable {messages : Tree QueueMessage}

theorem mem_stored (keyed : Keyed messages) {recipient : String} {msg : QueueMessage} :
    msg ∈ stored messages recipient ↔ messages[msg.key]? = some msg ∧ msg.recipient = recipient := by
  rw [stored, List.mem_filter, decide_eq_true_eq, List.mem_map]
  constructor
  · rintro ⟨⟨⟨key, found⟩, member, rfl⟩, owner⟩
    have bound := OrderedMap.mem_toList.mp member
    have own := (keyed key found bound).1
    exact ⟨own ▸ bound, owner⟩
  · rintro ⟨bound, owner⟩
    exact ⟨⟨(msg.key, msg), OrderedMap.mem_toList.mpr bound, rfl⟩, owner⟩

theorem sorted (keyed : Keyed messages) (recipient : String) :
    (stored messages recipient).Pairwise (fun a b => compare a.key b.key = .lt) := by
  refine List.Pairwise.filter _ (List.pairwise_map.mpr ?_)
  refine (OrderedMap.toList_sorted messages).imp_of_mem ?_
  intro a b first second below
  have left := (keyed _ _ (OrderedMap.mem_toList.mp first)).1
  have right := (keyed _ _ (OrderedMap.mem_toList.mp second)).1
  rwa [← left, ← right]

theorem arrival_sorted (keyed : Keyed messages) (recipient : String) :
    (stored messages recipient).Pairwise (fun a b => a.arrivalSeq ≤ b.arrivalSeq) := by
  refine (keyed.sorted recipient).imp_of_mem ?_
  intro a b first second below
  obtain ⟨aStored, aOwner⟩ := keyed.mem_stored.mp first
  obtain ⟨_, bOwner⟩ := keyed.mem_stored.mp second
  exact arrival_of_key (aOwner.trans bOwner.symm) (keyed _ _ aStored).2 below

theorem insert (keyed : Keyed messages) {msg : QueueMessage} (bound : msg.arrivalSeq < 2 ^ 64) :
    Keyed (messages.insert msg.key msg) := by
  intro key found present
  rw [OrderedMap.getElem?_insert] at present
  split at present
  · rename_i same
    cases Option.some.inj present
    exact ⟨same.symm, bound⟩
  · exact keyed key found present

theorem erase (keyed : Keyed messages) (key : Bytes) : Keyed (messages.erase key) := by
  intro other found present
  rw [OrderedMap.getElem?_erase] at present
  split at present
  · cases present
  · exact keyed other found present

theorem stored_erase (keyed : Keyed messages) (key : Bytes) (recipient : String) :
    stored (messages.erase key) recipient = (stored messages recipient).filter (fun msg => msg.key ≠ key) := by
  rw [stored, stored, OrderedMap.toList_erase, List.filter_filter, List.filter_map, List.filter_map, List.filter_filter]
  congr 1
  apply List.filter_congr
  intro entry member
  have own := (keyed _ _ (OrderedMap.mem_toList.mp member)).1
  simp only [Function.comp_apply, ← own]
  exact Bool.and_comm _ _

theorem stored_erase_other (keyed : Keyed messages) {msg : QueueMessage} {recipient : String}
    (present : messages[msg.key]? = some msg) (other : msg.recipient ≠ recipient) :
    stored (messages.erase msg.key) recipient = stored messages recipient := by
  rw [keyed.stored_erase, List.filter_eq_self]
  intro found member
  obtain ⟨bound, owner⟩ := keyed.mem_stored.mp member
  have apart : found.key ≠ msg.key := by
    intro same
    rw [same, present] at bound
    cases Option.some.inj bound
    exact other owner
  simpa using apart

end Keyed

theorem stored_erase_perm {messages : Tree QueueMessage} {msg : QueueMessage} (present : messages[msg.key]? = some msg) :
    (stored messages msg.recipient).Perm (msg :: stored (messages.erase msg.key) msg.recipient) := by
  have permuted := ((OrderedMap.toList_erase_perm messages msg.key msg present).map Prod.snd).filter
    (fun other => decide (other.recipient = msg.recipient))
  simpa [stored] using permuted

theorem stored_insert_perm {messages : Tree QueueMessage} {msg : QueueMessage} (fresh : messages[msg.key]? = none) :
    (stored (messages.insert msg.key msg) msg.recipient).Perm (msg :: stored messages msg.recipient) := by
  have permuted := ((OrderedMap.toList_insert_perm messages msg.key msg fresh).map Prod.snd).filter
    (fun other => decide (other.recipient = msg.recipient))
  simpa [stored] using permuted

theorem Keyed.stored_insert_other {messages : Tree QueueMessage} (keyed : Keyed messages) {msg : QueueMessage}
    (bound : msg.arrivalSeq < 2 ^ 64) {recipient : String} (fresh : messages[msg.key]? = none)
    (other : msg.recipient ≠ recipient) : stored (messages.insert msg.key msg) recipient = stored messages recipient := by
  refine OrderedMap.sorted_unique ((keyed.insert bound).sorted recipient) (keyed.sorted recipient) ?_
  intro found
  rw [(keyed.insert bound).mem_stored, keyed.mem_stored, OrderedMap.getElem?_insert]
  by_cases same : msg.key = found.key
  · rw [if_pos same]
    constructor
    · rintro ⟨equal, owner⟩
      cases Option.some.inj equal
      exact absurd owner other
    · rintro ⟨present, _⟩
      rw [← same, fresh] at present
      cases present
  · rw [if_neg same]

theorem Keyed.stored_insert_last {messages : Tree QueueMessage} (keyed : Keyed messages) {msg : QueueMessage}
    (bound : msg.arrivalSeq < 2 ^ 64)
    (above : ∀ found ∈ stored messages msg.recipient, found.arrivalSeq < msg.arrivalSeq) :
    stored (messages.insert msg.key msg) msg.recipient = stored messages msg.recipient ++ [msg] := by
  have fresh : ∀ found ∈ stored messages msg.recipient, compare found.key msg.key = .lt := by
    intro found member
    rw [QueueMessage.key, QueueMessage.key, (keyed.mem_stored.mp member).2]
    exact compare_messageKey (above found member) bound _ _ _ _
  refine OrderedMap.sorted_unique ((keyed.insert bound).sorted msg.recipient) ?_ ?_
  · rw [List.pairwise_append]
    refine ⟨keyed.sorted msg.recipient, List.pairwise_singleton _ _, ?_⟩
    intro a member b last
    rw [List.mem_singleton.mp last]
    exact fresh a member
  · intro found
    rw [(keyed.insert bound).mem_stored, OrderedMap.getElem?_insert, List.mem_append, List.mem_singleton]
    by_cases same : msg.key = found.key
    · rw [if_pos same]
      constructor
      · rintro ⟨equal, _⟩
        exact .inr (Option.some.inj equal).symm
      · rintro (member | rfl)
        · have below := fresh found member
          rw [same, ReflOrd.compare_self] at below
          cases below
        · exact ⟨rfl, rfl⟩
    · rw [if_neg same, keyed.mem_stored]
      constructor
      · exact .inl
      · rintro (member | rfl)
        · exact member
        · exact absurd rfl same

def Complete (messages : Tree QueueMessage) (index : Tree Bytes) : Prop :=
  ∀ msg : QueueMessage, messages[msg.key]? = some msg →
    index[itemKey msg.recipient msg.ackItem]? = some (encodeU64 msg.arrivalSeq)

namespace Complete

variable {messages : Tree QueueMessage} {index : Tree Bytes}

theorem distinct (complete : Complete messages index) (keyed : Keyed messages) {a b : QueueMessage}
    (first : messages[a.key]? = some a) (second : messages[b.key]? = some b) (owner : a.recipient = b.recipient)
    (pair : a.ackItem = b.ackItem) : a = b := by
  have left := complete a first
  rw [owner, pair, complete b second] at left
  have seqs := encodeU64_injective (keyed _ _ second).2 (keyed _ _ first).2 (Option.some.inj left)
  have keys : a.key = b.key := by
    have ids := congrArg AckItem.messageId pair
    have chunks := congrArg AckItem.chunkIndex pair
    change a.messageId = b.messageId at ids
    change a.messageMeta.chunkIndex = b.messageMeta.chunkIndex at chunks
    rw [QueueMessage.key, QueueMessage.key, owner, ids, chunks, seqs]
  rw [keys, second] at first
  exact (Option.some.inj first).symm

theorem fresh (complete : Complete messages index) (keyed : Keyed messages) {msg : QueueMessage}
    (bound : msg.arrivalSeq < 2 ^ 64) (absent : index[itemKey msg.recipient msg.ackItem]? = none) :
    messages[msg.key]? = none := by
  cases present : messages[msg.key]? with
  | none => rfl
  | some found =>
    obtain ⟨own, small⟩ := keyed _ _ present
    obtain ⟨owners, _, pairs⟩ := key_injective bound small own
    rw [own] at present
    have entry := complete found present
    rw [← owners, ← pairs, absent] at entry
    cases entry

theorem insert (complete : Complete messages index) {msg : QueueMessage}
    (absent : index[itemKey msg.recipient msg.ackItem]? = none) :
    Complete (messages.insert msg.key msg)
      (index.insert (itemKey msg.recipient msg.ackItem) (encodeU64 msg.arrivalSeq)) := by
  intro found present
  rw [OrderedMap.getElem?_insert] at present ⊢
  split at present
  · cases Option.some.inj present
    exact if_pos rfl
  · have entry := complete found present
    rw [if_neg, entry]
    intro same
    rw [same, entry] at absent
    cases absent

theorem erase_index (complete : Complete messages index) {recipient : String} {item : AckItem}
    (gone : ∀ msg : QueueMessage, messages[msg.key]? = some msg → msg.recipient = recipient → msg.ackItem ≠ item) :
    Complete messages (index.erase (itemKey recipient item)) := by
  intro found present
  rw [OrderedMap.getElem?_erase, if_neg, complete found present]
  intro same
  obtain ⟨owner, pair⟩ := itemKey_injective same
  exact gone found present owner.symm pair.symm

theorem erase (complete : Complete messages index) (key : Bytes) : Complete (messages.erase key) index := by
  intro found present
  rw [OrderedMap.getElem?_erase] at present
  split at present
  · cases present
  · exact complete found present

end Complete

namespace Indexed

variable {messages : Tree QueueMessage} {index : Tree Bytes}

theorem distinct (indexed : Indexed messages index) (keyed : Keyed messages) {a b : QueueMessage}
    (first : messages[a.key]? = some a) (second : messages[b.key]? = some b) (owner : a.recipient = b.recipient)
    (pair : a.ackItem = b.ackItem) : a = b :=
  Complete.distinct indexed.complete keyed first second owner pair

theorem absent_iff (indexed : Indexed messages index)
    (keyed : Keyed messages) (recipient : String) (item : AckItem) :
    index[itemKey recipient item]? = none ↔ ∀ msg ∈ stored messages recipient, msg.ackItem ≠ item := by
  constructor
  · rintro absent msg member rfl
    obtain ⟨present, owner⟩ := keyed.mem_stored.mp member
    have entry := indexed.complete msg present
    rw [owner, absent] at entry
    cases entry
  · intro nowhere
    cases entry : index[itemKey recipient item]? with
    | none => rfl
    | some bytes =>
      obtain ⟨msg, present, owner, pair, _⟩ := indexed.sound recipient item bytes entry
      exact absurd pair (nowhere msg (keyed.mem_stored.mpr ⟨present, owner⟩))

theorem fresh (indexed : Indexed messages index) (keyed : Keyed messages) {msg : QueueMessage}
    (bound : msg.arrivalSeq < 2 ^ 64) (absent : index[itemKey msg.recipient msg.ackItem]? = none) :
    messages[msg.key]? = none := Complete.fresh indexed.complete keyed bound absent

theorem insert (indexed : Indexed messages index) (keyed : Keyed messages) {msg : QueueMessage}
    (bound : msg.arrivalSeq < 2 ^ 64) (absent : index[itemKey msg.recipient msg.ackItem]? = none) :
    Indexed (messages.insert msg.key msg)
      (index.insert (itemKey msg.recipient msg.ackItem) (encodeU64 msg.arrivalSeq)) := by
  constructor
  · exact Complete.insert indexed.complete absent
  · intro recipient item bytes entry
    rw [OrderedMap.getElem?_insert] at entry
    split at entry
    · rename_i same
      obtain ⟨owner, pair⟩ := itemKey_injective same
      exact ⟨msg, by simp, owner, pair, (Option.some.inj entry).symm⟩
    · rename_i different
      obtain ⟨found, present, owner, pair, same⟩ := indexed.sound recipient item bytes entry
      refine ⟨found, ?_, owner, pair, same⟩
      rw [OrderedMap.getElem?_insert, if_neg, present]
      intro keys
      rw [← keys, indexed.fresh keyed bound absent] at present
      cases present

theorem erase (indexed : Indexed messages index) (keyed : Keyed messages) {msg : QueueMessage}
    (stored : messages[msg.key]? = some msg) :
    Indexed (messages.erase msg.key) (index.erase (itemKey msg.recipient msg.ackItem)) := by
  constructor
  · apply Complete.erase_index (Complete.erase indexed.complete _)
    intro found present owner pair
    rw [OrderedMap.getElem?_erase] at present
    split at present
    · cases present
    · rename_i different
      rw [indexed.distinct keyed stored present owner.symm pair.symm] at different
      exact different rfl
  · intro recipient item bytes entry
    rw [OrderedMap.getElem?_erase] at entry
    split at entry
    · cases entry
    · rename_i different
      obtain ⟨found, present, owner, pair, same⟩ := indexed.sound recipient item bytes entry
      refine ⟨found, ?_, owner, pair, same⟩
      rw [OrderedMap.getElem?_erase, if_neg, present]
      intro keys
      rw [← keys, stored] at present
      cases Option.some.inj present
      rw [owner, pair] at different
      exact different rfl

end Indexed

end Keys

end EnigmaRelay
