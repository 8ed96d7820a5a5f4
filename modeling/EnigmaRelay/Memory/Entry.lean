import EnigmaRelay.Model.MemStore

open Std

namespace EnigmaRelay.RecipientState

def messages (entry : RecipientState) : List QueueMessage := entry.queue.toList.map Prod.snd

/-- The queue, its index and the sequence counter of one recipient agree. -/
structure Coherent (recipient : String) (entry : RecipientState) : Prop where
  below : ∀ (seq : Nat) (msg : QueueMessage), entry.queue[seq]? = some msg → seq < entry.seq
  arrival : ∀ (seq : Nat) (msg : QueueMessage), entry.queue[seq]? = some msg → msg.arrivalSeq = seq
  owner : ∀ (seq : Nat) (msg : QueueMessage), entry.queue[seq]? = some msg → msg.recipient = recipient
  indexed : ∀ (key : AckItem) (seq : Nat), entry.idx[key]? = some seq ↔
    ∃ msg : QueueMessage, entry.queue[seq]? = some msg ∧ msg.ackItem = key

/-- Every queued message is numbered by its key and belongs to the recipient. -/
structure Filed (recipient : String) (entry : RecipientState) : Prop where
  arrival : ∀ (seq : Nat) (msg : QueueMessage), entry.queue[seq]? = some msg → msg.arrivalSeq = seq
  owner : ∀ (seq : Nat) (msg : QueueMessage), entry.queue[seq]? = some msg → msg.recipient = recipient

theorem Coherent.filed {recipient : String} {entry : RecipientState} (coherent : Coherent recipient entry) :
    Filed recipient entry := ⟨coherent.arrival, coherent.owner⟩

/-- Both quota counters are exact. -/
structure Charged (entry : RecipientState) : Prop where
  count : entry.quotaCount = entry.messages.length
  bytes : entry.quotaBytes = (entry.messages.map QueueMessage.payloadBytes).sum

structure Within (limits : RelayLimits) (entry : RecipientState) : Prop where
  count : entry.quotaCount ≤ limits.maxMessagesPerUser
  bytes : entry.quotaBytes ≤ limits.maxQueueBytesPerUser

theorem Coherent.empty (recipient : String) : Coherent recipient {} := by
  constructor <;> simp

theorem Charged.empty : Charged {} := by
  constructor <;> simp [messages]

theorem Within.empty (limits : RelayLimits) : Within limits {} := by
  constructor <;> simp

theorem mem_messages {entry : RecipientState} {msg : QueueMessage} :
    msg ∈ entry.messages ↔ ∃ seq : Nat, entry.queue[seq]? = some msg := by
  rw [messages, List.mem_map]
  constructor
  · rintro ⟨⟨seq, found⟩, member, rfl⟩
    exact ⟨seq, OrderedMap.mem_toList.mp member⟩
  · rintro ⟨seq, bound⟩
    exact ⟨(seq, msg), OrderedMap.mem_toList.mpr bound, rfl⟩

theorem Filed.mem {recipient : String} {entry : RecipientState} (filed : Filed recipient entry)
    {msg : QueueMessage} : msg ∈ entry.messages ↔ entry.queue[msg.arrivalSeq]? = some msg := by
  rw [mem_messages]
  constructor
  · rintro ⟨seq, bound⟩
    rwa [filed.arrival seq msg bound]
  · intro bound
    exact ⟨_, bound⟩

theorem Filed.sorted {recipient : String} {entry : RecipientState} (filed : Filed recipient entry) :
    entry.messages.Pairwise (fun a b => a.arrivalSeq < b.arrivalSeq) := by
  rw [messages, List.pairwise_map]
  refine (OrderedMap.toList_sorted entry.queue).imp_of_mem ?_
  intro a b first second below
  rw [filed.arrival _ _ (OrderedMap.mem_toList.mp first), filed.arrival _ _ (OrderedMap.mem_toList.mp second)]
  exact Nat.compare_eq_lt.mp below

theorem Coherent.distinct {recipient : String} {entry : RecipientState} (coherent : Coherent recipient entry)
    {a b : QueueMessage} (first : a ∈ entry.messages) (second : b ∈ entry.messages)
    (same : a.ackItem = b.ackItem) : a = b := by
  have left := (coherent.indexed a.ackItem a.arrivalSeq).mpr ⟨a, coherent.filed.mem.mp first, rfl⟩
  have right := (coherent.indexed a.ackItem b.arrivalSeq).mpr ⟨b, coherent.filed.mem.mp second, same.symm⟩
  have seqs : a.arrivalSeq = b.arrivalSeq := Option.some.inj (left.symm.trans right)
  have found := coherent.filed.mem.mp first
  rw [seqs, coherent.filed.mem.mp second] at found
  exact (Option.some.inj found).symm

theorem Coherent.absent_iff {recipient : String} {entry : RecipientState}
    (coherent : entry.Coherent recipient) (key : AckItem) :
    entry.idx[key]? = none ↔ ∀ msg ∈ entry.messages, msg.ackItem ≠ key := by
  constructor
  · rintro absent msg member rfl
    have known := (coherent.indexed _ _).mpr ⟨msg, coherent.filed.mem.mp member, rfl⟩
    rw [absent] at known
    cases known
  · intro nowhere
    cases known : entry.idx[key]? with
    | none => rfl
    | some seq =>
      obtain ⟨msg, found, pair⟩ := (coherent.indexed key seq).mp known
      exact absurd pair (nowhere msg (mem_messages.mpr ⟨seq, found⟩))

section Drop

variable (entry : RecipientState) (seq : Nat)

@[simp] theorem drop_seq : (entry.drop seq).seq = entry.seq := by
  unfold drop
  split <;> rfl

@[simp] theorem drop_queue : (entry.drop seq).queue = entry.queue.erase seq := by
  unfold drop
  split
  · rename_i absent
    exact (OrderedMap.erase_of_none _ _ absent).symm
  · rfl

theorem drop_of_some {removed : QueueMessage} (found : entry.queue[seq]? = some removed) :
    entry.drop seq =
      { entry with
        queue := entry.queue.erase seq
        quotaCount := saturatingSub entry.quotaCount 1
        quotaBytes := saturatingSub entry.quotaBytes removed.payloadBytes
        idx := entry.idx.erase removed.ackItem } := by
  simp only [drop, found]

theorem drop_of_none (absent : entry.queue[seq]? = none) : entry.drop seq = entry := by
  simp only [drop, absent]

theorem Coherent.drop {recipient : String} {entry : RecipientState} (coherent : Coherent recipient entry)
    (seq : Nat) : Coherent recipient (entry.drop seq) := by
  cases found : entry.queue[seq]? with
  | none => rwa [drop_of_none entry seq found]
  | some removed =>
    have kept : ∀ (other : Nat) (msg : QueueMessage), (entry.queue.erase seq)[other]? = some msg →
        other ≠ seq ∧ entry.queue[other]? = some msg := by
      intro other msg bound
      rw [OrderedMap.getElem?_erase] at bound
      split at bound
      · cases bound
      · rename_i different
        exact ⟨Ne.symm different, bound⟩
    rw [drop_of_some entry seq found]
    refine ⟨?_, ?_, ?_, ?_⟩
    · exact fun other msg bound => coherent.below other msg (kept other msg bound).2
    · exact fun other msg bound => coherent.arrival other msg (kept other msg bound).2
    · exact fun other msg bound => coherent.owner other msg (kept other msg bound).2
    · intro key other
      have home := (coherent.indexed removed.ackItem seq).mpr ⟨removed, found, rfl⟩
      simp only [OrderedMap.getElem?_erase]
      by_cases same : removed.ackItem = key
      · -- the pair left the index with its message
        subst same
        simp only [if_true, reduceCtorEq, false_iff, not_exists, not_and]
        intro msg bound
        split at bound
        · cases bound
        · rename_i different
          intro pair
          have again := (coherent.indexed removed.ackItem other).mpr ⟨msg, bound, pair⟩
          exact different (Option.some.inj (home.symm.trans again))
      · simp only [same, if_false, coherent.indexed key other]
        constructor
        · rintro ⟨msg, bound, pair⟩
          refine ⟨msg, ?_, pair⟩
          split
          · rename_i here
            rw [← here, found] at bound
            exact absurd (by rw [Option.some.inj bound]; exact pair) same
          · exact bound
        · rintro ⟨msg, bound, pair⟩
          split at bound
          · cases bound
          · exact ⟨msg, bound, pair⟩

theorem messages_perm {entry : RecipientState} {seq : Nat} {removed : QueueMessage}
    (found : entry.queue[seq]? = some removed) :
    entry.messages.Perm (removed :: (entry.drop seq).messages) := by
  have permuted := (OrderedMap.toList_erase_perm entry.queue seq removed found).map Prod.snd
  simpa only [messages, drop_queue, List.map_cons] using permuted

theorem Charged.covers {entry : RecipientState} (charged : Charged entry) {seq : Nat} {removed : QueueMessage}
    (found : entry.queue[seq]? = some removed) :
    1 ≤ entry.quotaCount ∧ removed.payloadBytes ≤ entry.quotaBytes := by
  have permuted := messages_perm found
  rw [charged.count, charged.bytes, permuted.length_eq, (permuted.map QueueMessage.payloadBytes).sum_eq]
  simp

theorem Charged.drop {entry : RecipientState} (charged : Charged entry) (seq : Nat) : Charged (entry.drop seq) := by
  cases found : entry.queue[seq]? with
  | none => rwa [drop_of_none entry seq found]
  | some removed =>
    have permuted := messages_perm found
    have count := permuted.length_eq
    have bytes := (permuted.map QueueMessage.payloadBytes).sum_eq
    rw [← charged.count, List.length_cons] at count
    rw [← charged.bytes, List.map_cons, List.sum_cons] at bytes
    constructor
    · have lowered : (entry.drop seq).quotaCount = entry.quotaCount - 1 := by
        rw [drop_of_some entry seq found]
        rfl
      omega
    · have lowered : (entry.drop seq).quotaBytes = entry.quotaBytes - removed.payloadBytes := by
        rw [drop_of_some entry seq found]
        rfl
      omega

theorem Within.drop {limits : RelayLimits} {entry : RecipientState} (within : Within limits entry) (seq : Nat) :
    Within limits (entry.drop seq) := by
  obtain ⟨count, bytes⟩ := within
  unfold RecipientState.drop
  split
  · exact ⟨count, bytes⟩
  · exact ⟨Nat.le_trans (Nat.sub_le _ _) count, Nat.le_trans (Nat.sub_le _ _) bytes⟩

end Drop

/-- Every removal from a queue is a sequence of drops. -/
abbrev dropAll (entry : RecipientState) (seqs : List Nat) : RecipientState := seqs.foldl drop entry

theorem dropAll_toList (entry : RecipientState) (seqs : List Nat) :
    (entry.dropAll seqs).queue.toList = entry.queue.toList.filter (fun pending => pending.1 ∉ seqs) := by
  induction seqs generalizing entry with
  | nil => simp
  | cons seq rest ih =>
    rw [dropAll, List.foldl_cons, ih, drop_queue, OrderedMap.toList_erase, List.filter_filter]
    apply List.filter_congr
    intro pending _
    simp [Bool.and_comm]

theorem dropAll_getElem? (entry : RecipientState) (seqs : List Nat) (seq : Nat) :
    (entry.dropAll seqs).queue[seq]? = if seq ∈ seqs then none else entry.queue[seq]? := by
  induction seqs generalizing entry with
  | nil => simp
  | cons first rest ih =>
    rw [dropAll, List.foldl_cons, ih, drop_queue, OrderedMap.getElem?_erase]
    by_cases later : seq ∈ rest
    · simp [later]
    · simp [later, eq_comm]

@[simp] theorem dropAll_seq (entry : RecipientState) (seqs : List Nat) :
    (entry.dropAll seqs).seq = entry.seq := by
  induction seqs generalizing entry with
  | nil => rfl
  | cons first rest ih => rw [dropAll, List.foldl_cons, ih, drop_seq]

theorem dropAll_absent {entry : RecipientState} {seqs : List Nat} (absent : ∀ seq ∈ seqs, entry.queue[seq]? = none) :
    entry.dropAll seqs = entry := by
  induction seqs with
  | nil => rfl
  | cons seq rest ih =>
    rw [dropAll, List.foldl_cons, drop_of_none _ _ (absent seq List.mem_cons_self)]
    exact ih (fun other member => absent other (List.mem_cons_of_mem _ member))

theorem Coherent.dropAll {recipient : String} {entry : RecipientState} (coherent : Coherent recipient entry)
    (seqs : List Nat) : Coherent recipient (entry.dropAll seqs) := by
  induction seqs generalizing entry with
  | nil => exact coherent
  | cons seq rest ih => exact ih (coherent.drop seq)

theorem Charged.dropAll {entry : RecipientState} (charged : Charged entry) (seqs : List Nat) :
    Charged (entry.dropAll seqs) := by
  induction seqs generalizing entry with
  | nil => exact charged
  | cons seq rest ih => exact ih (charged.drop seq)

theorem Within.dropAll {limits : RelayLimits} {entry : RecipientState} (within : Within limits entry)
    (seqs : List Nat) : Within limits (entry.dropAll seqs) := by
  induction seqs generalizing entry with
  | nil => exact within
  | cons seq rest ih => exact ih (within.drop seq)

theorem Filed.dropAll_messages {recipient : String} {entry : RecipientState}
    (filed : Filed recipient entry) (seqs : List Nat) :
    (entry.dropAll seqs).messages = entry.messages.filter (fun msg => msg.arrivalSeq ∉ seqs) := by
  rw [messages, dropAll_toList, messages, List.filter_map]
  congr 1
  apply List.filter_congr
  intro pending member
  rw [Function.comp_apply, filed.arrival _ _ (OrderedMap.mem_toList.mp member)]

end EnigmaRelay.RecipientState
