import EnigmaRelay.Sled.Acknowledged
import EnigmaRelay.Sled.PurgeAlone
import EnigmaRelay.Sled.PurgeQuota

open Std Machine

namespace EnigmaRelay.SledStore

/-- The expired entries, in key order. -/
def expired (nowMs : Nat) (entries : List (Bytes × QueueMessage)) : List (Bytes × QueueMessage) :=
  entries.filter (fun entry => entry.2.deadlineMs ≤ nowMs)

/-- The entries that are a purge's to take: the first expired ones, as many as a batch holds. -/
def due (nowMs max : Nat) (messages : Tree QueueMessage) : List (Bytes × QueueMessage) :=
  (expired nowMs messages.toList).take (min max gcBatchLimit)

theorem length_due (nowMs max : Nat) (messages : Tree QueueMessage) :
    (due nowMs max messages).length = min (min max gcBatchLimit) (expired nowMs messages.toList).length :=
  List.length_take

theorem due_expired {nowMs max : Nat} {messages : Tree QueueMessage} {entry : Bytes × QueueMessage}
    (taken : entry ∈ due nowMs max messages) : messages[entry.1]? = some entry.2 ∧ entry.2.deadlineMs ≤ nowMs := by
  obtain ⟨member, late⟩ := List.mem_filter.mp (List.mem_of_mem_take taken)
  exact ⟨OrderedMap.mem_toList.mp member, of_decide_eq_true late⟩

theorem cachedQuota_eq (quotas : ExtTreeMap String QuotaValue compare) (store : SledStore) (recipient : String) :
    cachedQuota quotas store recipient = (quotas[recipient]?).getD (readQuota store.quota recipient) := by
  rw [cachedQuota]
  cases quotas[recipient]? <;> rfl

theorem Collecting.Reading.takes [MessageIter] {run : PurgeRun} {store : SledStore} {seen : List (Tree QueueMessage)}
    (lawful : TreeIter.Lawful Bytes QueueMessage compare) (reading : Collecting.Reading ⟨store, run⟩ seen)
    (key : Bytes) (msg : QueueMessage) (taken : run.takes store.messages = some (key, msg)) :
    store.messages[key]? = some msg := by
  rw [PurgeRun.takes] at taken
  split at taken
  · exact reading.there lawful (Option.filter_eq_some_iff.mp taken).1
  · cases taken

section Trees

variable [UuidText]

theorem purgeScan_takes (nowMs target : Nat) (entries : List (Bytes × QueueMessage)) (current : PurgeState) :
    (purgeScan nowMs target entries current).removed =
      current.removed + ((expired nowMs entries).take (target - current.removed)).length ∧
    (purgeScan nowMs target entries current).store.messages.toList = current.store.messages.toList.filter
      (fun entry => entry.1 ∉ ((expired nowMs entries).take (target - current.removed)).map Prod.fst) := by
  induction entries generalizing current with
  | nil => simp [purgeScan, expired]
  | cons entry rest ih =>
    obtain ⟨key, msg⟩ := entry
    rw [purgeScan]
    by_cases full : current.removed ≥ target
    · simp [if_pos full, Nat.sub_eq_zero_of_le full]
    · rw [if_neg full]
      by_cases fresh : msg.deadlineMs > nowMs
      · have passed : expired nowMs ((key, msg) :: rest) = expired nowMs rest :=
          List.filter_cons_of_neg (by simpa using fresh)
        rw [if_pos fresh, passed]
        exact ih current
      · have here : expired nowMs ((key, msg) :: rest) = (key, msg) :: expired nowMs rest :=
          List.filter_cons_of_pos (by simpa using fresh)
        have more : (current.remove key msg).removed = current.removed + 1 := rfl
        have budget : target - current.removed = target - (current.remove key msg).removed + 1 := by omega
        obtain ⟨counted, left⟩ := ih (current.remove key msg)
        rw [if_neg fresh, here, budget, List.take_succ_cons]
        constructor
        · rw [counted, List.length_cons]
          omega
        · have erased : (current.remove key msg).store.messages.toList =
              current.store.messages.toList.filter (fun entry => entry.1 ≠ key) := OrderedMap.toList_erase _ _
          rw [left, erased, List.filter_filter]
          apply List.filter_congr
          intro entry _
          simp [Bool.and_comm]

section Iteration

variable [MessageIter] (limits : RelayLimits)

theorem Collecting.Books.uninterrupted (lawful : TreeIter.Lawful Bytes QueueMessage compare) {state : Collecting}
    (books : state.Books) {seen : List (Tree QueueMessage)} (reading : state.Reading seen) (operations : Nat) :
    (SledStore.uninterrupted limits operations state).Books := by
  induction operations generalizing state seen with
  | zero => exact books
  | succ operations ih =>
    obtain ⟨more, onward⟩ := reading.purge
    rw [uninterrupted_succ]
    exact ih (books.purge (reading.takes lawful)) onward

theorem Collecting.Books.covers {state : Collecting} (books : state.Books) {msg : QueueMessage}
    (phase : state.purge.phase = .readQuota msg) :
    1 ≤ (cachedQuota state.purge.quotas state.store msg.recipient).count ∧
      msg.payloadBytes ≤ (cachedQuota state.purge.quotas state.store msg.recipient).bytes := by
  have balanced := books.balanced msg.recipient
  simp only [booked, owed, PurgeRun.held, phase, if_true, List.singleton_append] at balanced
  rw [cachedQuota_eq, balanced, total_cons]
  exact ⟨Nat.le_add_left _ _, Nat.le_add_left _ _⟩

end Iteration

/-- A purge takes the first expired messages in key order and nothing else, and leaves trees that agree. -/
structure Purges (limits : RelayLimits) (store : SledStore) (order : HashOrder) (nowMs max : Nat) : Prop where
  answer : (purgeExpired order nowMs max store).1 =
    .ok (min (min max gcBatchLimit) (expired nowMs store.messages.toList).length)
  messages : (purgeExpired order nowMs max store).2.messages.toList =
    store.messages.toList.filter (fun entry => entry ∉ due nowMs max store.messages)
  fresh : ∀ (key : Bytes) (msg : QueueMessage), store.messages[key]? = some msg → nowMs < msg.deadlineMs →
    (purgeExpired order nowMs max store).2.messages[key]? = some msg
  agreed : (purgeExpired order nowMs max store).2.Agreed
  seq : (purgeExpired order nowMs max store).2.seq = store.seq
  alone : ∀ [MessageIter], TreeIter.Lawful Bytes QueueMessage compare → ∃ operations removed,
    (uninterrupted limits operations (.start order nowMs max store)).store = (purgeExpired order nowMs max store).2 ∧
    (uninterrupted limits operations (.start order nowMs max store)).purge.phase = .finished removed ∧
    (purgeExpired order nowMs max store).1 = .ok removed
  unsaturated : ∀ [MessageIter], TreeIter.Lawful Bytes QueueMessage compare → ∀ operations state msg,
    uninterrupted limits operations (.start order nowMs max store) = state → state.purge.phase = .readQuota msg →
      1 ≤ (cachedQuota state.purge.quotas state.store msg.recipient).count ∧
        msg.payloadBytes ≤ (cachedQuota state.purge.quotas state.store msg.recipient).bytes

section Law

variable {store : SledStore} (limits : RelayLimits)

theorem purge_alone_quota (agreed : store.Agreed) (order : HashOrder) (nowMs max : Nat) (recipient : String) :
    readQuota (purgeExpired order nowMs max store).2.quota recipient =
      total (stored (purgeExpired order nowMs max store).2.messages recipient) := by
  -- the limits are the pushes' and the iterator is any lawful one; they play no part in the whole method
  have lawful : @TreeIter.Lawful Bytes QueueMessage compare _ sampleIter := TreeIter.oneLeaf_lawful
  obtain ⟨operations, removed, reached, phase, _⟩ := purge_alone sampleLimits lawful order nowMs max store
  have started := Collecting.Books.start agreed.keyed agreed.quota order nowMs max
  have books := started.uninterrupted sampleLimits lawful (.start order nowMs max store) operations
  have balanced := books.balanced recipient
  simp only [Collecting.booked, Collecting.owed, PurgeRun.held, phase] at balanced
  rw [reached] at balanced
  exact balanced

theorem Agreed.purges (agreed : store.Agreed) (order : HashOrder) (nowMs max : Nat) :
    Purges limits store order nowMs max := by
  obtain ⟨keyed, indexed, shrinks⟩ := Consistent.purge agreed.keyed agreed.indexed order nowMs max
  obtain ⟨counted, left⟩ := purgeScan_takes nowMs (min max gcBatchLimit) store.messages.toList { store := store }
  have kept : (purgeExpired order nowMs max store).2.messages.toList =
      store.messages.toList.filter (fun entry => entry ∉ due nowMs max store.messages) := by
    refine left.trans ?_
    apply List.filter_congr
    intro entry member
    apply decide_eq_decide.mpr
    apply not_congr
    constructor
    · intro taken
      obtain ⟨other, listed, same⟩ := List.mem_map.mp taken
      have found := (due_expired listed).1
      rw [same, OrderedMap.mem_toList.mp member] at found
      rw [Prod.ext same.symm (Option.some.inj found)]
      exact listed
    · exact fun taken => List.mem_map_of_mem taken
  constructor
  · rw [← length_due]
    exact congrArg Except.ok (counted.trans (Nat.zero_add _))
  · exact kept
  · intro key msg here young
    have member : (key, msg) ∈ (purgeExpired order nowMs max store).2.messages.toList := by
      rw [kept, List.mem_filter, decide_eq_true_eq]
      exact ⟨OrderedMap.mem_toList.mpr here, fun taken => absurd (due_expired taken).2 (Nat.not_le.mpr young)⟩
    exact OrderedMap.mem_toList.mp member
  · exact ⟨keyed, indexed, purge_alone_quota agreed order nowMs max⟩
  · exact shrinks.seq
  · intro iter lawful
    exact purge_alone limits lawful order nowMs max store
  · intro iter lawful operations state msg reached phase
    subst reached
    have started := Collecting.Books.start agreed.keyed agreed.quota order nowMs max
    exact (started.uninterrupted limits lawful (.start order nowMs max store) operations).covers phase

/-- On every agreed state a purge keeps its law, whatever the recipients and the iteration order. -/
theorem purge_exact (agreed : store.Agreed) (order : HashOrder) (nowMs max : Nat) :
    Purges limits store order nowMs max := agreed.purges limits order nowMs max

end Law

end Trees

theorem purge_exact_sample : Purges sampleLimits sampleStore .asListed 10 1024 :=
  purge_exact sampleLimits sampleStore_agreed .asListed 10 1024

example : (due 10 1024 sampleStore.messages).map (fun entry => entry.2.ackItem) = [sampleItem 1] := by decide +kernel

end EnigmaRelay.SledStore
