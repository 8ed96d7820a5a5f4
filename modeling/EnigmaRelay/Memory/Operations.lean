import EnigmaRelay.Memory.Entry

open Std

namespace EnigmaRelay.RecipientState

section Push

def accept (msg : InboundMessage) (entry : RecipientState) : RecipientState where
  seq := saturatingAdd entry.seq 1
  queue := entry.queue.insert entry.seq (msg.queued entry.seq)
  idx := entry.idx.insert msg.ackItem entry.seq
  quotaCount := saturatingAdd entry.quotaCount 1
  quotaBytes := saturatingAdd entry.quotaBytes msg.payloadBytes

structure HasRoom (limits : RelayLimits) (msg : InboundMessage) (entry : RecipientState) : Prop where
  count : saturatingAdd entry.quotaCount 1 ≤ limits.maxMessagesPerUser
  bytes : saturatingAdd entry.quotaBytes msg.payloadBytes ≤ limits.maxQueueBytesPerUser

theorem push_cases (limits : RelayLimits) (msg : InboundMessage) (entry : RecipientState) :
    (∃ seq, entry.idx[msg.ackItem]? = some seq ∧ entry.push limits msg =
      (.ok { stored := false, duplicate := true, queueLen := entry.quotaCount, queueBytes := entry.quotaBytes }, entry)) ∨
    (entry.idx[msg.ackItem]? = none ∧ ¬ entry.HasRoom limits msg ∧
      entry.push limits msg = (.error .quotaExceeded, entry)) ∨
    (entry.idx[msg.ackItem]? = none ∧ entry.HasRoom limits msg ∧ entry.push limits msg =
      (.ok { stored := true, duplicate := false, queueLen := (entry.accept msg).quotaCount,
             queueBytes := (entry.accept msg).quotaBytes }, entry.accept msg)) := by
  unfold push
  split
  · rename_i present
    left
    obtain ⟨seq, bound⟩ := Option.isSome_iff_exists.mp (ExtTreeMap.isSome_getElem?_eq_contains.trans present)
    exact ⟨seq, bound, rfl⟩
  · rename_i absent
    have missing : entry.idx[msg.ackItem]? = none := by
      simpa using absent
    right
    dsimp only
    split
    · rename_i excess
      left
      exact ⟨missing, fun room => absurd room.count (Nat.not_le.mpr excess), rfl⟩
    · split
      · rename_i excess
        left
        exact ⟨missing, fun room => absurd room.bytes (Nat.not_le.mpr excess), rfl⟩
      · rename_i count bytes
        right
        exact ⟨missing, ⟨Nat.not_lt.mp count, Nat.not_lt.mp bytes⟩, rfl⟩

variable {recipient : String} {entry : RecipientState} {msg : InboundMessage}

theorem accept_getElem? {seq : Nat} {found : QueueMessage}
    (queued : (entry.accept msg).queue[seq]? = some found) :
    (seq = entry.seq ∧ found = msg.queued entry.seq) ∨ entry.queue[seq]? = some found := by
  rw [RecipientState.accept, OrderedMap.getElem?_insert] at queued
  split at queued
  · rename_i same
    exact .inl ⟨same.symm, (Option.some.inj queued).symm⟩
  · exact .inr queued

theorem Coherent.accept_toList (coherent : Coherent recipient entry) :
    (entry.accept msg).queue.toList = entry.queue.toList ++ [(entry.seq, msg.queued entry.seq)] := by
  apply OrderedMap.toList_insert_last
  intro pending member
  exact Nat.compare_eq_lt.mpr (coherent.below _ _ (OrderedMap.mem_toList.mp member))

theorem Coherent.accept_messages (coherent : Coherent recipient entry) :
    (entry.accept msg).messages = entry.messages ++ [msg.queued entry.seq] := by
  simp [messages, coherent.accept_toList]

theorem Coherent.accept (coherent : Coherent recipient entry) (room : entry.seq < u64Max)
    (addressed : msg.recipient = recipient) (absent : entry.idx[msg.ackItem]? = none) :
    Coherent recipient (entry.accept msg) := by
  have raised : saturatingAdd entry.seq 1 = entry.seq + 1 := saturatingAdd_of_le room
  refine ⟨?_, ?_, ?_, ?_⟩
  · intro seq found bound
    change seq < saturatingAdd entry.seq 1
    rw [raised]
    rcases accept_getElem? bound with ⟨rfl, _⟩ | earlier
    · exact Nat.lt_succ_self _
    · exact Nat.lt_succ_of_lt (coherent.below seq found earlier)
  · intro seq found bound
    rcases accept_getElem? bound with ⟨rfl, rfl⟩ | earlier
    · rfl
    · exact coherent.arrival seq found earlier
  · intro seq found bound
    rcases accept_getElem? bound with ⟨rfl, rfl⟩ | earlier
    · exact addressed
    · exact coherent.owner seq found earlier
  · intro key seq
    have fresh : entry.queue[entry.seq]? = none := by
      cases found : entry.queue[entry.seq]? with
      | none => rfl
      | some other => exact absurd (coherent.below _ _ found) (Nat.lt_irrefl _)
    simp only [RecipientState.accept, OrderedMap.getElem?_insert]
    by_cases new : msg.ackItem = key
    · subst new
      simp only [if_true, Option.some.injEq]
      constructor
      · rintro rfl
        exact ⟨msg.queued entry.seq, by simp, rfl⟩
      · rintro ⟨found, bound, pair⟩
        split at bound
        · assumption
        · have known := (coherent.indexed msg.ackItem seq).mpr ⟨found, bound, pair⟩
          rw [absent] at known
          cases known
    · simp only [new, if_false, coherent.indexed key seq]
      constructor
      · rintro ⟨found, bound, pair⟩
        have other : entry.seq ≠ seq := by
          rintro rfl
          rw [fresh] at bound
          cases bound
        exact ⟨found, by simpa [other] using bound, pair⟩
      · rintro ⟨found, bound, pair⟩
        split at bound
        · cases Option.some.inj bound
          exact absurd pair new
        · exact ⟨found, bound, pair⟩

theorem Charged.accept {limits : RelayLimits} (coherent : Coherent recipient entry) (charged : Charged entry)
    (room : entry.HasRoom limits msg)
    (bytesCap : limits.maxQueueBytesPerUser < u64Max) (countRoom : entry.messages.length < u64Max) :
    Charged (entry.accept msg) ∧ Within limits (entry.accept msg) := by
  have count : saturatingAdd entry.quotaCount 1 = entry.quotaCount + 1 := by
    apply saturatingAdd_of_le
    rw [charged.count]
    exact countRoom
  have bytes : saturatingAdd entry.quotaBytes msg.payloadBytes = entry.quotaBytes + msg.payloadBytes :=
    saturatingAdd_exact bytesCap room.bytes
  refine ⟨⟨?_, ?_⟩, ⟨room.count, room.bytes⟩⟩
  · change saturatingAdd entry.quotaCount 1 = _
    rw [count, charged.count, coherent.accept_messages, List.length_append, List.length_singleton]
  · change saturatingAdd entry.quotaBytes msg.payloadBytes = _
    rw [bytes, charged.bytes, coherent.accept_messages]
    simp

theorem Coherent.length_le (coherent : Coherent recipient entry) : entry.messages.length ≤ entry.seq := by
  have seqs : (entry.messages.map QueueMessage.arrivalSeq).Nodup :=
    (List.pairwise_map.mpr (coherent.filed.sorted.imp Nat.ne_of_lt))
  have bounded : entry.messages.map QueueMessage.arrivalSeq ⊆ List.range entry.seq := by
    intro seq member
    obtain ⟨found, present, rfl⟩ := List.mem_map.mp member
    exact List.mem_range.mpr (coherent.below _ _ (coherent.filed.mem.mp present))
  have size := (seqs.subperm bounded).length_le
  simpa using size

end Push

section Pull

theorem scan_spec (limit nowMs : Nat) (entries : List (Nat × QueueMessage)) (found : Scan)
    (within : found.collected.length ≤ limit) (open_ : found.more = false) :
    (scan limit nowMs entries found).collected = found.collected ++
      ((entries.map Prod.snd).filter (live nowMs)).take (limit - found.collected.length) ∧
    ((scan limit nowMs entries found).more = true ↔
      limit < found.collected.length + ((entries.map Prod.snd).filter (live nowMs)).length) ∧
    ∀ seq ∈ (scan limit nowMs entries found).expired, seq ∈ found.expired ∨
      ∃ msg : QueueMessage, (seq, msg) ∈ entries ∧ msg.deadlineMs ≤ nowMs := by
  induction entries generalizing found with
  | nil =>
    simp only [scan, List.map_nil, List.filter_nil, List.take_nil, List.append_nil, List.length_nil, true_and]
    refine ⟨?_, fun seq member => .inl member⟩
    rw [open_]
    simp only [Bool.false_eq_true, false_iff]
    omega
  | cons pending rest ih =>
    obtain ⟨seq, msg⟩ := pending
    rw [scan]
    split
    · rename_i stale
      have dead : live nowMs msg = false := by simpa [live] using stale
      obtain ⟨collected, more, expired⟩ := ih { found with expired := found.expired ++ [seq] } within open_
      simp only [List.map_cons, List.filter_cons, dead, Bool.false_eq_true, if_false]
      refine ⟨collected, more, ?_⟩
      intro other member
      rcases expired other member with earlier | ⟨source, present, late⟩
      · rcases List.mem_append.mp earlier with earlier | this
        · exact .inl earlier
        · cases List.mem_singleton.mp this
          exact .inr ⟨msg, List.mem_cons_self, stale⟩
      · exact .inr ⟨source, List.mem_cons_of_mem _ present, late⟩
    · rename_i fresh
      have alive : live nowMs msg = true := by simpa [live] using fresh
      simp only [List.map_cons, List.filter_cons, alive, if_true]
      split
      · rename_i space
        have grown : (found.collected ++ [msg]).length = found.collected.length + 1 := by simp
        obtain ⟨collected, more, expired⟩ := ih { found with collected := found.collected ++ [msg] }
          (by rw [grown]; omega) open_
        simp only [grown] at collected more
        refine ⟨?_, ?_, ?_⟩
        · have split : limit - found.collected.length = limit - (found.collected.length + 1) + 1 := by omega
          rw [collected, split, List.take_succ_cons, List.append_assoc]
          rfl
        · rw [more, List.length_cons]
          omega
        · intro other member
          rcases expired other member with earlier | ⟨source, present, late⟩
          · exact .inl earlier
          · exact .inr ⟨source, List.mem_cons_of_mem _ present, late⟩
      · rename_i full
        have stop : limit - found.collected.length = 0 := by omega
        refine ⟨?_, ?_, fun other member => .inl member⟩
        · rw [stop, List.take_zero, List.append_nil]
        · simp only [List.length_cons, true_iff]
          omega

def pending (entry : RecipientState) (start : Option Nat) (nowMs : Nat) : List QueueMessage :=
  entry.messages.filter (fun msg => live nowMs msg && start.all (· < msg.arrivalSeq))

theorem Filed.entriesAfter {recipient : String} {entry : RecipientState} (filed : Filed recipient entry)
    (start : Option Nat) (nowMs : Nat) :
    ((entry.entriesAfter start).map Prod.snd).filter (live nowMs) = entry.pending start nowMs := by
  cases start with
  | none => simp [RecipientState.entriesAfter, pending, messages]
  | some seq =>
    rw [RecipientState.entriesAfter, pending, messages, List.filter_map, List.filter_map, List.filter_filter]
    congr 1
    apply List.filter_congr
    intro bound member
    simp [filed.arrival _ _ (OrderedMap.mem_toList.mp member)]

theorem entriesAfter_mem {entry : RecipientState} {start : Option Nat} {bound : Nat × QueueMessage}
    (member : bound ∈ entry.entriesAfter start) : entry.queue[bound.1]? = some bound.2 := by
  cases start with
  | none => exact OrderedMap.mem_toList.mp member
  | some seq => exact OrderedMap.mem_toList.mp (List.mem_of_mem_filter member)

theorem Filed.scan {recipient : String} {entry : RecipientState} (filed : Filed recipient entry)
    (start : Option Nat) (limit nowMs : Nat) :
    (scan limit nowMs (entry.entriesAfter start) {}).collected = (entry.pending start nowMs).take limit ∧
    ((scan limit nowMs (entry.entriesAfter start) {}).more = true ↔ limit < (entry.pending start nowMs).length) ∧
    ∀ seq ∈ (scan limit nowMs (entry.entriesAfter start) {}).expired,
      ∃ msg : QueueMessage, entry.queue[seq]? = some msg ∧ msg.deadlineMs ≤ nowMs := by
  obtain ⟨collected, more, expired⟩ := scan_spec limit nowMs (entry.entriesAfter start) {} (by simp) rfl
  simp only [filed.entriesAfter, List.length_nil, Nat.sub_zero, List.nil_append, Nat.zero_add] at collected more
  refine ⟨collected, more, ?_⟩
  intro seq member
  rcases expired seq member with none | ⟨msg, present, late⟩
  · cases none
  · exact ⟨msg, entriesAfter_mem present, late⟩

theorem Filed.pending_dropAll {recipient : String} {entry : RecipientState} (filed : Filed recipient entry)
    {dropped : List Nat} {nowMs : Nat}
    (expired : ∀ seq ∈ dropped, ∀ msg : QueueMessage, entry.queue[seq]? = some msg → msg.deadlineMs ≤ nowMs)
    (start : Option Nat) : (entry.dropAll dropped).pending start nowMs = entry.pending start nowMs := by
  rw [pending, pending, filed.dropAll_messages, List.filter_filter]
  apply List.filter_congr
  intro msg member
  by_cases gone : msg.arrivalSeq ∈ dropped
  · have late := expired _ gone msg (filed.mem.mp member)
    simp [gone, live, Nat.not_lt.mpr late]
  · simp [gone]

variable [Base64]

/-- The batch a pull answers with once its cursor is accepted, and what it drops. -/
structure PullSpec (entry : RecipientState) (start : Option Nat) (limit nowMs : Nat) (batch : PullBatch)
    (dropped : List Nat) : Prop where
  items : batch.items = (entry.pending start nowMs).take (min limit u32Max)
  cursor : batch.nextCursor = if min limit u32Max < (entry.pending start nowMs).length then
    batch.items.getLast?.map (fun item => encodeCursor item.recipient item.arrivalSeq) else none
  estimate : batch.remainingEstimate = (entry.dropAll dropped).quotaCount - batch.items.length
  expired : ∀ seq ∈ dropped, ∀ msg : QueueMessage, entry.queue[seq]? = some msg → msg.deadlineMs ≤ nowMs

theorem Filed.pull {recipient : String} {entry : RecipientState} (filed : Filed recipient entry)
    (cursor : Option String) (limit nowMs : Nat) :
    (∃ err, startSeq recipient cursor = .error err ∧ entry.pull recipient cursor limit nowMs = (.error err, entry)) ∨
    ∃ start batch dropped, startSeq recipient cursor = .ok start ∧
      entry.pull recipient cursor limit nowMs = (.ok batch, entry.dropAll dropped) ∧
      PullSpec entry start limit nowMs batch dropped := by
  unfold RecipientState.pull
  cases decoded : startSeq recipient cursor with
  | error err => exact .inl ⟨err, rfl, rfl⟩
  | ok start =>
    right
    obtain ⟨collected, more, expired⟩ := filed.scan start (min limit u32Max) nowMs
    refine ⟨start, _, _, rfl, rfl, ⟨collected, ?_, rfl, ?_⟩⟩
    · by_cases full : min limit u32Max < (entry.pending start nowMs).length
      · simp only [full, if_true, more.mpr full]
      · have last : (RecipientState.scan (min limit u32Max) nowMs (entry.entriesAfter start) {}).more = false := by
          rw [← Bool.not_eq_true, more]
          exact full
        simp only [full, if_false, last, Bool.false_eq_true]
    · intro seq member msg found
      obtain ⟨source, bound, late⟩ := expired seq member
      rw [found] at bound
      cases Option.some.inj bound
      exact late

end Pull

section Ack

theorem Coherent.ackItem {recipient : String} {entry : RecipientState} (coherent : Coherent recipient entry)
    (outcome : AckOutcome) (key : AckItem) :
    (entry.idx[key]? = none ∧
      RecipientState.ackItem (entry, outcome) key =
        (entry, { outcome with missing := saturatingAdd outcome.missing 1 })) ∨
    ∃ seq msg, entry.queue[seq]? = some msg ∧ msg.ackItem = key ∧
      RecipientState.ackItem (entry, outcome) key =
        (entry.drop seq, { outcome with deleted := saturatingAdd outcome.deleted 1 }) := by
  cases known : entry.idx[key]? with
  | none =>
    left
    exact ⟨rfl, by simp only [RecipientState.ackItem, known]⟩
  | some seq =>
    right
    obtain ⟨msg, found, pair⟩ := (coherent.indexed key seq).mp known
    refine ⟨seq, msg, found, pair, ?_⟩
    rw [drop_of_some entry seq found, pair]
    simp only [RecipientState.ackItem, known, found]

theorem Coherent.ackAll {recipient : String} {entry : RecipientState} (coherent : Coherent recipient entry)
    (outcome : AckOutcome) (keys : List AckItem) :
    ∃ dropped : List Nat, (keys.foldl RecipientState.ackItem (entry, outcome)).1 = entry.dropAll dropped ∧
      ∀ msg ∈ entry.messages, msg.arrivalSeq ∈ dropped ↔ msg.ackItem ∈ keys := by
  induction keys generalizing entry outcome with
  | nil => exact ⟨[], rfl, by simp⟩
  | cons key rest ih =>
    rw [List.foldl_cons]
    rcases coherent.ackItem outcome key with ⟨unknown, same⟩ | ⟨seq, target, found, pair, same⟩
    · rw [same]
      obtain ⟨dropped, result, named⟩ := ih coherent { outcome with missing := saturatingAdd outcome.missing 1 }
      refine ⟨dropped, result, ?_⟩
      intro msg member
      have other : msg.ackItem ≠ key := by
        rintro rfl
        have known := (coherent.indexed _ _).mpr ⟨msg, coherent.filed.mem.mp member, rfl⟩
        rw [unknown] at known
        cases known
      rw [named msg member, List.mem_cons, or_iff_right other]
    · rw [same]
      obtain ⟨dropped, result, named⟩ :=
        ih (coherent.drop seq) { outcome with deleted := saturatingAdd outcome.deleted 1 }
      have home : target.arrivalSeq = seq := coherent.arrival seq target found
      have present : target ∈ entry.messages := mem_messages.mpr ⟨seq, found⟩
      refine ⟨seq :: dropped, result, ?_⟩
      intro msg member
      by_cases hit : msg = target
      · subst hit
        simp [home, pair]
      · have elsewhere : msg.arrivalSeq ≠ seq := by
          intro here
          apply hit
          have bound := coherent.filed.mem.mp member
          rw [here, found] at bound
          exact (Option.some.inj bound).symm
        have unlike : msg.ackItem ≠ key := fun clash =>
          hit (coherent.distinct member present (clash.trans pair.symm))
        have remains : msg ∈ (entry.drop seq).messages := by
          rw [(coherent.drop seq).filed.mem, drop_queue, OrderedMap.getElem?_erase, if_neg (Ne.symm elsewhere)]
          exact coherent.filed.mem.mp member
        rw [List.mem_cons, or_iff_right elsewhere, named msg remains, List.mem_cons, or_iff_right unlike]

end Ack

section Purge

theorem toDrop_expired (nowMs removed target : Nat) (entries : List (Nat × QueueMessage)) (chosen : List Nat) :
    ∀ seq ∈ toDrop nowMs removed target entries chosen, seq ∈ chosen ∨
      ∃ msg : QueueMessage, (seq, msg) ∈ entries ∧ msg.deadlineMs ≤ nowMs := by
  induction entries generalizing chosen with
  | nil => exact fun seq member => .inl member
  | cons pending rest ih =>
    obtain ⟨seq, msg⟩ := pending
    intro other member
    rw [toDrop] at member
    have now : ∀ late : msg.deadlineMs ≤ nowMs, other ∈ chosen ++ [seq] → other ∈ chosen ∨
        ∃ found : QueueMessage, (other, found) ∈ (seq, msg) :: rest ∧ found.deadlineMs ≤ nowMs := by
      intro late listed
      rcases List.mem_append.mp listed with earlier | this
      · exact .inl earlier
      · cases List.mem_singleton.mp this
        exact .inr ⟨msg, List.mem_cons_self, late⟩
    split at member
    · rename_i late
      dsimp only at member
      split at member
      · exact now late member
      · rcases ih (chosen ++ [seq]) other member with listed | ⟨found, present, expired⟩
        · exact now late listed
        · exact .inr ⟨found, List.mem_cons_of_mem _ present, expired⟩
    · exact .inl member

theorem dropCounted_prefix (target : Nat) (chosen : List Nat) (entry : RecipientState) (removed : Nat) :
    ∃ taken rest, chosen = taken ++ rest ∧ (dropCounted target chosen (entry, removed)).1 = entry.dropAll taken := by
  induction chosen generalizing entry removed with
  | nil => exact ⟨[], [], rfl, rfl⟩
  | cons seq later ih =>
    rw [dropCounted]
    generalize (if entry.queue.contains seq then removed + 1 else removed) = counted
    split
    · exact ⟨[seq], later, rfl, rfl⟩
    · obtain ⟨taken, rest, split, result⟩ := ih (entry.drop seq) counted
      exact ⟨seq :: taken, rest, by rw [split, List.cons_append], result⟩

end Purge

section Thinned

/-- Nothing was queued, whatever was taken out. -/
structure Thinned (before after : RecipientState) : Prop where
  seq : after.seq = before.seq
  part : ∀ (seq : Nat) (msg : QueueMessage), after.queue[seq]? = some msg → before.queue[seq]? = some msg

theorem Thinned.refl (entry : RecipientState) : Thinned entry entry := ⟨rfl, fun _ _ found => found⟩

theorem Thinned.trans {first second third : RecipientState} (left : Thinned first second)
    (right : Thinned second third) : Thinned first third :=
  ⟨right.seq.trans left.seq, fun seq msg found => left.part seq msg (right.part seq msg found)⟩

variable (entry : RecipientState)

theorem dropAll_thinned (seqs : List Nat) : Thinned entry (entry.dropAll seqs) := by
  refine ⟨dropAll_seq entry seqs, ?_⟩
  intro seq msg found
  rw [dropAll_getElem?] at found
  split at found
  · cases found
  · exact found

theorem ackItem_thinned (current : RecipientState × AckOutcome) (key : AckItem) :
    Thinned current.1 (RecipientState.ackItem current key).1 := by
  obtain ⟨entry, outcome⟩ := current
  rw [RecipientState.ackItem]
  split
  · exact .refl entry
  · rename_i seq _
    dsimp only
    split
    · exact ⟨rfl, fun _ _ found => found⟩
    · refine ⟨rfl, ?_⟩
      intro other msg found
      dsimp only at found
      rw [OrderedMap.getElem?_erase] at found
      split at found
      · cases found
      · exact found

theorem ack_thinned (order : HashOrder) (items : Vec AckItem) : Thinned entry (entry.ack order items).2 := by
  have folded : ∀ (keys : List AckItem) (current : RecipientState × AckOutcome),
      Thinned current.1 (keys.foldl RecipientState.ackItem current).1 := by
    intro keys
    induction keys with
    | nil => exact fun current => .refl current.1
    | cons key rest ih => exact fun current => (ackItem_thinned current key).trans (ih _)
  exact folded _ (entry, {})

theorem pull_thinned [Base64] (recipient : String) (cursor : Option String) (limit nowMs : Nat) :
    Thinned entry (entry.pull recipient cursor limit nowMs).2 := by
  unfold RecipientState.pull
  split
  · exact .refl entry
  · exact dropAll_thinned entry _

theorem Filed.empty (recipient : String) : Filed recipient {} := by
  constructor <;> simp

variable {recipient : String} {entry} {after : RecipientState}

theorem Filed.thinned (filed : Filed recipient entry) (thinned : Thinned entry after) : Filed recipient after :=
  ⟨fun seq msg found => filed.arrival seq msg (thinned.part seq msg found),
    fun seq msg found => filed.owner seq msg (thinned.part seq msg found)⟩

theorem Filed.accept {msg : InboundMessage} (filed : Filed msg.recipient entry) :
    Filed msg.recipient (entry.accept msg) := by
  constructor
  · intro seq found queued
    rcases accept_getElem? queued with ⟨rfl, rfl⟩ | earlier
    · rfl
    · exact filed.arrival seq found earlier
  · intro seq found queued
    rcases accept_getElem? queued with ⟨rfl, rfl⟩ | earlier
    · rfl
    · exact filed.owner seq found earlier

end Thinned

end EnigmaRelay.RecipientState
