import EnigmaRelay.Foundation.Removal
import EnigmaRelay.Memory.Invariant
import EnigmaRelay.Memory.Refused

open Std Machine Removal

namespace EnigmaRelay

namespace RecipientState

def pairs (entry : RecipientState) : Finset AckItem := (entry.messages.map QueueMessage.ackItem).toFinset

/-- An acknowledgement under way, seen as the removal of pairs. -/
def tally (current : RecipientState × AckOutcome) : Tally AckItem where
  present := current.1.pairs
  hits := current.2.deleted
  misses := current.2.missing

section Fold

variable {recipient : String} {entry : RecipientState}

theorem mem_pairs {key : AckItem} : key ∈ entry.pairs ↔ ∃ msg ∈ entry.messages, msg.ackItem = key := by
  rw [pairs, List.mem_toFinset, List.mem_map]

theorem Coherent.card_pairs (coherent : Coherent recipient entry) : entry.pairs.card = entry.messages.length := by
  have distinct : (entry.messages.map QueueMessage.ackItem).Nodup := by
    apply List.Nodup.map_on
    · exact fun a first b second same => coherent.distinct first second same
    · exact coherent.filed.sorted.imp (fun below same =>
        absurd (congrArg QueueMessage.arrivalSeq same) (Nat.ne_of_lt below))
  rw [pairs, List.toFinset_card_of_nodup distinct, List.length_map]

theorem Coherent.pairs_drop (coherent : Coherent recipient entry) {seq : Nat} {msg : QueueMessage}
    (found : entry.queue[seq]? = some msg) : (entry.drop seq).pairs = entry.pairs.erase msg.ackItem := by
  ext key
  rw [mem_pairs, Finset.mem_erase, mem_pairs]
  have home : msg ∈ entry.messages := mem_messages.mpr ⟨seq, found⟩
  have kept : ∀ other, other ∈ (entry.drop seq).messages ↔ other ∈ entry.messages ∧ other ≠ msg := by
    intro other
    rw [(coherent.drop seq).filed.mem, drop_queue, OrderedMap.getElem?_erase, coherent.filed.mem]
    constructor
    · intro bound
      split at bound
      · cases bound
      · rename_i apart
        refine ⟨bound, ?_⟩
        rintro rfl
        exact apart (coherent.arrival seq other found).symm
    · rintro ⟨bound, different⟩
      rw [if_neg, bound]
      rintro rfl
      rw [bound] at found
      exact different (Option.some.inj found)
  constructor
  · rintro ⟨other, member, rfl⟩
    obtain ⟨listed, different⟩ := (kept other).mp member
    exact ⟨fun same => different (coherent.distinct listed home same), other, listed, rfl⟩
  · rintro ⟨apart, other, listed, rfl⟩
    exact ⟨other, (kept other).mpr ⟨listed, fun same => apart (congrArg QueueMessage.ackItem same)⟩, rfl⟩

theorem Coherent.tally_ackItem (coherent : Coherent recipient entry) {outcome : AckOutcome}
    (room : outcome.deleted + outcome.missing < u64Max) (key : AckItem) :
    tally (RecipientState.ackItem (entry, outcome) key) = remove (tally (entry, outcome)) key := by
  have hits : saturatingAdd outcome.deleted 1 = outcome.deleted + 1 := saturatingAdd_of_le (by omega)
  have misses : saturatingAdd outcome.missing 1 = outcome.missing + 1 := saturatingAdd_of_le (by omega)
  rcases coherent.ackItem outcome key with ⟨unknown, same⟩ | ⟨seq, msg, found, rfl, same⟩
  · have absent : key ∉ (tally (entry, outcome)).present := by
      rw [tally, mem_pairs]
      rintro ⟨msg, member, pair⟩
      exact (coherent.absent_iff key).mp unknown msg member pair
    rw [same, remove_of_notMem absent, tally, misses]
    rfl
  · have present : msg.ackItem ∈ (tally (entry, outcome)).present :=
      mem_pairs.mpr ⟨msg, mem_messages.mpr ⟨seq, found⟩, rfl⟩
    rw [same, remove_of_mem present, tally, hits, coherent.pairs_drop found]
    rfl

theorem Coherent.tally_ackItems (coherent : Coherent recipient entry) {keys : List AckItem} {outcome : AckOutcome}
    (room : outcome.deleted + outcome.missing + keys.length ≤ u64Max) :
    tally (keys.foldl RecipientState.ackItem (entry, outcome)) = keys.foldl remove (tally (entry, outcome)) := by
  induction keys generalizing entry outcome with
  | nil => rfl
  | cons key rest ih =>
    rw [List.length_cons] at room
    have once := coherent.tally_ackItem (show outcome.deleted + outcome.missing < u64Max by omega) key
    have counted := remove_counted (tally (entry, outcome)) key
    rw [← once] at counted
    have after : (RecipientState.ackItem (entry, outcome) key).1.Coherent recipient := by
      rcases coherent.ackItem outcome key with ⟨_, same⟩ | ⟨seq, _, _, _, same⟩
      · rw [same]
        exact coherent
      · rw [same]
        exact coherent.drop seq
    rw [List.foldl_cons, List.foldl_cons, ← once]
    cases result : RecipientState.ackItem (entry, outcome) key with
    | mk next answer =>
      rw [result] at after counted
      have next_counted : answer.deleted + answer.missing = outcome.deleted + outcome.missing + 1 := counted
      exact ih after (by omega)

theorem Coherent.ack (coherent : Coherent recipient entry) (charged : Charged entry) (order : HashOrder)
    (items : Vec AckItem) :
    (entry.ack order items).1 = .ok
      { deleted := (items.toList.toFinset ∩ entry.pairs).card
        missing := (items.toList.toFinset \ entry.pairs).card
        remaining := (entry.pairs \ items.toList.toFinset).card } ∧
    (entry.ack order items).2.pairs = entry.pairs \ items.toList.toFinset ∧
    (entry.ack order items).2.messages = entry.messages.filter (fun msg => msg.ackItem ∉ items.toList) ∧
    (entry.ack order items).2.Coherent recipient ∧ (entry.ack order items).2.Charged ∧
    (entry.ack order items).2.seq = entry.seq := by
  have arranged := order.items.arranged items.toList.dedup
  have distinct := order.items.nodup_arrange (List.nodup_dedup items.toList)
  have named : (order.items.arrange items.toList.dedup).toFinset = items.toList.toFinset := by
    rw [List.toFinset_eq_of_perm _ _ arranged]
    ext key
    simp
  have size : (order.items.arrange items.toList.dedup).length ≤ u64Max := by
    rw [arranged.length_eq]
    exact Nat.le_trans (List.dedup_sublist _).length_le items.bounded
  have counts := @Coherent.tally_ackItems _ _ coherent _ {} (by simpa using size)
  rw [foldl_remove distinct, named] at counts
  obtain ⟨dropped, left, gone⟩ := coherent.ackAll {} (order.items.arrange items.toList.dedup)
  have charge := charged.dropAll dropped
  have whole : (entry.ack order items).2 = entry.dropAll dropped := left
  have pairs := congrArg Tally.present counts
  have hits := congrArg Tally.hits counts
  have misses := congrArg Tally.misses counts
  simp only [tally, left, Nat.zero_add] at pairs hits misses
  have remaining : (entry.dropAll dropped).quotaCount = (entry.pairs \ items.toList.toFinset).card := by
    rw [← pairs, (coherent.dropAll dropped).card_pairs, charge.count]
  rw [whole]
  refine ⟨?_, pairs, ?_, coherent.dropAll dropped, charge, dropAll_seq entry dropped⟩
  · simp only [RecipientState.ack, left, hits, misses, remaining]
  · rw [coherent.filed.dropAll_messages]
    apply List.filter_congr
    intro msg member
    simp [gone msg member, order.items.mem_arrange]

theorem ack_congr (entry : RecipientState) (order order' : HashOrder) {items items' : Vec AckItem}
    (same : items'.toList.dedup.Perm items.toList.dedup) : entry.ack order' items' = entry.ack order items := by
  have permuted :=
    (order'.items.arranged items'.toList.dedup).trans (same.trans (order.items.arranged items.toList.dedup).symm)
  have folded :=
    permuted.foldl_eq' (f := RecipientState.ackItem) (fun a _ b _ state => ackItem_comm state a b) (entry, {})
  simp only [RecipientState.ack, folded]

end Fold

theorem ack_empty (order : HashOrder) (items : Vec AckItem) (distinct : items.toList.Nodup) :
    RecipientState.ack order items {} =
      (.ok { deleted := 0, missing := items.toList.length, remaining := 0 }, {}) := by
  have folded : ∀ (keys : List AckItem) (outcome : AckOutcome), outcome.missing + keys.length ≤ u64Max →
      keys.foldl RecipientState.ackItem (({} : RecipientState), outcome) =
        ({}, { outcome with missing := outcome.missing + keys.length }) := by
    intro keys
    induction keys with
    | nil => exact fun outcome _ => rfl
    | cons key rest ih =>
      intro outcome bound
      rw [List.length_cons] at bound
      have once : RecipientState.ackItem (({} : RecipientState), outcome) key =
          ({}, { outcome with missing := outcome.missing + 1 }) := by
        rw [← saturatingAdd_of_le (show outcome.missing + 1 ≤ u64Max by omega)]
        simp [RecipientState.ackItem]
      rw [List.foldl_cons, once, ih _ (by simp only; omega), List.length_cons]
      simp only [Nat.add_assoc, Nat.add_comm 1]
  have size : (order.items.arrange items.toList.dedup).length = items.toList.length := by
    rw [(order.items.arranged _).length_eq, List.Nodup.dedup distinct]
  have whole := folded (order.items.arrange items.toList.dedup) {} (by rw [size]; simpa using items.bounded)
  simp only [RecipientState.ack, whole, size, Nat.zero_add]

end RecipientState

namespace MemStore

section Law

theorem not_contains {state : MemStore} {recipient : String} (unknown : state[recipient]? = none) :
    ¬ state.contains recipient = true := by
  rw [← ExtTreeMap.isSome_getElem?_eq_contains, unknown]
  exact Bool.false_ne_true

variable (state : MemStore) (recipient : String)

theorem ack_entry (order : HashOrder) {items : Vec AckItem}
    (regular : state.contains recipient = true ∨ items.toList.Nodup) :
    (ack order recipient items state).1 = ((state.entryOf recipient).ack order items).1 ∧
      (ack order recipient items state).2.entryOf recipient = ((state.entryOf recipient).ack order items).2 ∧
      ∀ other, recipient ≠ other → (ack order recipient items state).2.entryOf other = state.entryOf other := by
  unfold ack
  cases known : state[recipient]? with
  | none =>
    have distinct := regular.resolve_left (not_contains known)
    rw [entryOf_of_none known, RecipientState.ack_empty order items distinct]
    exact ⟨rfl, rfl, fun _ _ => rfl⟩
  | some entry =>
    rw [entryOf_of_some known]
    refine ⟨rfl, ?_, ?_⟩
    · dsimp only
      rw [entryOf_insert, if_pos rfl]
    · intro other different
      dsimp only
      rw [entryOf_insert, if_neg different]

theorem ack_elsewhere (order : HashOrder) (items : Vec AckItem) {other : String} (different : recipient ≠ other) :
    (ack order recipient items state).2[other]? = state[other]? := by
  unfold ack
  split
  · rfl
  · rw [OrderedMap.getElem?_insert, if_neg different]

def pairs : Finset AckItem := (state.entryOf recipient).pairs

/-- An acknowledgement removes the messages of the items it names, and counts each item once. -/
structure Acknowledges (items : Vec AckItem) (order : HashOrder) : Prop where
  answer : (ack order recipient items state).1 = .ok
    { deleted := (items.toList.toFinset ∩ state.pairs recipient).card
      missing := (items.toList.toFinset \ state.pairs recipient).card
      remaining := (state.pairs recipient \ items.toList.toFinset).card }
  queue : queued (ack order recipient items state).2 recipient =
    (state.queued recipient).filter (fun msg => msg.ackItem ∉ items.toList)
  entry : ((ack order recipient items state).2.entryOf recipient).Coherent recipient ∧
    ((ack order recipient items state).2.entryOf recipient).Charged
  others : ∀ other, recipient ≠ other → (ack order recipient items state).2[other]? = state[other]?
  listed : ∀ (order' : HashOrder) (items' : Vec AckItem), items'.toList.Perm items.toList.dedup →
    ack order' recipient items' state = ack order recipient items state
  again : ∀ order', (ack order' recipient items (ack order recipient items state).2).1 = .ok
    { deleted := 0
      missing := items.toList.toFinset.card
      remaining := (state.pairs recipient \ items.toList.toFinset).card }

variable {state} {recipient} {limits : RelayLimits}

theorem Exact.acknowledges (exact : state.Exact limits) {items : Vec AckItem}
    (regular : state.contains recipient = true ∨ items.toList.Nodup) (order : HashOrder) :
    Acknowledges state recipient items order := by
  obtain ⟨answer, after, _⟩ := state.ack_entry recipient order regular
  obtain ⟨counts, pairs, left, coherent, charged, _⟩ :=
    (exact.coherent recipient).ack (exact.charged recipient) order items
  rw [← after] at pairs left coherent charged
  refine ⟨answer.trans counts, left, ⟨coherent, charged⟩, fun other => ack_elsewhere state recipient order items, ?_, ?_⟩
  · intro order' items' same
    unfold ack
    cases known : state[recipient]? with
    | none =>
      have distinct := regular.resolve_left (not_contains known)
      rw [List.Nodup.dedup distinct] at same
      simp only [same.length_eq]
    | some entry =>
      have nodup : items'.toList.Nodup := same.nodup_iff.mpr (List.nodup_dedup _)
      have permuted : items'.toList.dedup.Perm items.toList.dedup := by rwa [List.Nodup.dedup nodup]
      simp only [entry.ack_congr order order' permuted]
  · intro order'
    have still : (ack order recipient items state).2.contains recipient = true ∨ items.toList.Nodup := by
      rcases regular with known | distinct
      · left
        unfold ack
        split
        · exact known
        · simp
      · exact .inr distinct
    obtain ⟨answer', _, _⟩ := (ack order recipient items state).2.ack_entry recipient order' still
    obtain ⟨counts', _⟩ := coherent.ack charged order' items
    have none_left : items.toList.toFinset ∩ (state.pairs recipient \ items.toList.toFinset) = ∅ :=
      Finset.inter_sdiff_self _ _
    have all_missing : items.toList.toFinset \ (state.pairs recipient \ items.toList.toFinset) = items.toList.toFinset :=
      Finset.sdiff_eq_self_of_disjoint Finset.disjoint_sdiff
    have same_rest : (state.pairs recipient \ items.toList.toFinset) \ items.toList.toFinset =
        state.pairs recipient \ items.toList.toFinset := Finset.sdiff_idem _ _
    rw [pairs] at counts'
    change _ = Except.ok (AckOutcome.mk (_ ∩ (state.pairs recipient \ _)).card (_ \ (state.pairs recipient \ _)).card
      ((state.pairs recipient \ _) \ _).card) at counts'
    rw [none_left, all_missing, same_rest] at counts'
    exact answer'.trans counts'

/-- On the reachable states an acknowledgement keeps its law when the recipient is known or no item is
    repeated, and only then: for an unknown recipient the length of the list is answered. -/
theorem acknowledges_iff [Base64] (bytesCap : limits.maxQueueBytesPerUser < 2 ^ 64 - 1)
    {calls : List (Call × HashOrder)} (few : Few limits calls) (recipient : String) (items : Vec AckItem)
    (order : HashOrder) :
    Acknowledges (final (next limits) new calls) recipient items order ↔
      (final (next limits) new calls).contains recipient = true ∨ items.toList.Nodup := by
  constructor
  · intro law
    by_contra irregular
    obtain ⟨unknown, repeats⟩ := not_or.mp irregular
    have absent : (final (next limits) new calls)[recipient]? = none := by simpa using unknown
    have missing := law.answer
    simp only [ack, absent, pairs, entryOf_of_none absent] at missing
    have counted := congrArg AckOutcome.missing (Except.ok.inj missing)
    have nothing : (({} : RecipientState)).pairs = ∅ := by simp [RecipientState.pairs, RecipientState.messages]
    simp only [nothing, Finset.sdiff_empty, List.card_toFinset] at counted
    have whole := (List.dedup_sublist items.toList).eq_of_length counted.symm
    exact repeats (whole ▸ List.nodup_dedup items.toList)
  · exact fun regular => (run_exact limits bytesCap few).1.acknowledges regular order

end Law

theorem acknowledges_iff_sample :
    Acknowledges (final (next sampleLimits) new sampleCalls) "alice" repeated .asListed ↔
      (final (next sampleLimits) new sampleCalls).contains "alice" = true ∨ repeated.toList.Nodup :=
  acknowledges_iff (by decide) (HitsBelow.of_length (by decide)) "alice" repeated .asListed

/-- One item listed twice, for a recipient never seen: two are missing. -/
theorem ack_counts_repetitions :
    (ack .asListed "alice" repeated new).1 = .ok { deleted := 0, missing := 2, remaining := 0 } ∧
      (repeated.toList.toFinset \ pairs new "alice").card = 1 ∧ ¬ Acknowledges new "alice" repeated .asListed := by
  have unknown : new["alice"]? = none := by simp [new]
  have answered := ack_repeated_unknown unknown
  have one : (repeated.toList.toFinset \ pairs new "alice").card = 1 := by decide +kernel
  refine ⟨answered, one, ?_⟩
  intro law
  have missing := congrArg AckOutcome.missing (Except.ok.inj (answered.symm.trans law.answer))
  rw [one] at missing
  cases missing

end MemStore

end EnigmaRelay
