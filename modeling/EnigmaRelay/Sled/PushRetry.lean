import EnigmaRelay.Model.Attempt
import EnigmaRelay.Sled.Acknowledged

open Std Machine

namespace EnigmaRelay.SledStore

/-- The attempt is to take messages of this pair away. -/
def Try.names (recipient : String) (item : AckItem) : Try → Bool
  | .push _ _ => false
  | .ack _ owner items _ => owner = recipient && items.toList.contains item

/-- The attempt is to store a message of this pair. -/
def Try.offers (recipient : String) (item : AckItem) : Try → Bool
  | .push msg _ => msg.recipient = recipient && msg.ackItem = item
  | .ack _ _ _ _ => false

section Trees

variable [UuidText]

/-- The transaction of the attempt is a push of this pair and goes through. -/
def Try.commits (limits : RelayLimits) (recipient : String) (item : AckItem) (store : SledStore) : Try → Bool
  | .push msg fault =>
    msg.recipient = recipient && msg.ackItem = item && !fault.aborts && (SledStore.push limits msg store).1.isOk
  | .ack _ _ _ _ => false

abbrev Attempted := Step SledStore Try Outcome

/-- The attempt has stored a message of this pair: there was none before, and there is one now. -/
def storesPair (recipient : String) (item : AckItem) (event : Attempted) : Bool :=
  (event.before.index[itemKey recipient item]?).isNone && (event.after.index[itemKey recipient item]?).isSome

/-- The messages lie under their keys and the index has their entries. -/
structure Matched (store : SledStore) : Prop where
  keyed : Keyed store.messages
  indexed : Indexed store.messages store.index

section Step

variable {limits : RelayLimits} {store : SledStore}

theorem Matched.push (matched : store.Matched) (msg : InboundMessage) : (SledStore.push limits msg store).2.Matched := by
  rcases push_after limits msg store with unchanged | ⟨absent, _, arrivalSeq, _, number, _, pushed⟩
  · rw [unchanged]
    exact matched
  · have bound : (msg.queued arrivalSeq).arrivalSeq < 2 ^ 64 := currentSeq_bound number
    rw [pushed]
    exact ⟨matched.keyed.insert bound, matched.indexed.insert matched.keyed bound absent⟩

theorem Matched.ack (matched : store.Matched) (order : HashOrder) (recipient : String) (items : Vec AckItem) :
    (SledStore.ack order recipient items store).2.Matched := by
  obtain ⟨last, aligned, _, acked, _⟩ := ack_cleared matched.keyed matched.indexed recipient items order
  rw [acked]
  exact ⟨aligned.keyed, aligned.indexed⟩

theorem Matched.step (matched : store.Matched) (input : Try) : (tryStep limits store input).2.Matched := by
  cases input with
  | push msg fault =>
    change (attempt fault (SledStore.push limits msg) store).2.Matched
    rw [attempt_after]
    split
    · exact matched
    · exact matched.push msg
  | ack order recipient items fault =>
    change (attempt fault (SledStore.ack order recipient items) store).2.Matched
    rw [attempt_after]
    split
    · exact matched
    · exact matched.ack order recipient items

theorem push_index (msg : InboundMessage) {recipient : String} {item : AckItem}
    (other : ¬ (msg.recipient = recipient ∧ msg.ackItem = item)) :
    (SledStore.push limits msg store).2.index[itemKey recipient item]? = store.index[itemKey recipient item]? := by
  rcases push_after limits msg store with unchanged | ⟨_, _, arrivalSeq, _, _, _, pushed⟩
  · rw [unchanged]
  · rw [pushed, accept, OrderedMap.getElem?_insert, if_neg]
    exact fun same => other (itemKey_injective same)

theorem ack_index (matched : store.Matched) (order : HashOrder) {owner recipient : String} {items : Vec AckItem}
    {item : AckItem}
    (unnamed : ¬ (owner = recipient ∧ item ∈ items.toList)) :
    (SledStore.ack order owner items store).2.index[itemKey recipient item]? = store.index[itemKey recipient item]? := by
  obtain ⟨last, _, cleared, acked, _⟩ := ack_cleared matched.keyed matched.indexed owner items order
  rw [acked]
  change last.index[itemKey recipient item]? = _
  rw [cleared.index, if_neg]
  · rfl
  · intro listed
    obtain ⟨other, member, same⟩ := List.mem_map.mp listed
    obtain ⟨owners, pairs⟩ := itemKey_injective same
    exact unnamed ⟨owners, pairs ▸ member⟩

/-- What an attempt does to the entry of a pair that it does not take away. -/
structure Tried (limits : RelayLimits) (recipient : String) (item : AckItem) (store : SledStore) (input : Try) :
    Prop where
  stays : (store.index[itemKey recipient item]?).isSome = true →
    ((tryStep limits store input).2.index[itemKey recipient item]?).isSome = true
  repeated : (store.index[itemKey recipient item]?).isSome = true → input.offers recipient item = true →
    (tryStep limits store input).2 = store
  charged : storesPair recipient item (taken (tryStep limits) store input) = true →
    ∃ msg fault arrivalSeq, input = .push msg fault ∧ msg.recipient = recipient ∧ msg.ackItem = item ∧
      (tryStep limits store input).2 = accept msg arrivalSeq store
  refused : input.offers recipient item = true → storesPair recipient item (taken (tryStep limits) store input) = false →
    (tryStep limits store input).2 = store
  committed : input.commits limits recipient item store = true →
    ((tryStep limits store input).2.index[itemKey recipient item]?).isSome = true

section Tried

variable {recipient : String} {item : AckItem} {input : Try}

theorem storesPair_iff : storesPair recipient item (taken (tryStep limits) store input) = true ↔
    store.index[itemKey recipient item]? = none ∧
      ((tryStep limits store input).2.index[itemKey recipient item]?).isSome = true := by
  simp [storesPair, taken]

theorem Try.commits_offers (committed : input.commits limits recipient item store = true) :
    input.offers recipient item = true := by
  cases input with
  | push msg fault =>
    simp only [Try.commits, Bool.and_eq_true] at committed
    rw [Try.offers, Bool.and_eq_true]
    exact committed.1.1
  | ack order owner items fault => cases committed

theorem Tried.of_elsewhere (foreign : input.offers recipient item = false)
    (same : (tryStep limits store input).2.index[itemKey recipient item]? = store.index[itemKey recipient item]?) :
    Tried limits recipient item store input := by
  constructor
  · intro present
    rwa [same]
  · intro _ offers
    rw [foreign] at offers
    cases offers
  · intro stores
    obtain ⟨absent, present⟩ := storesPair_iff.mp stores
    rw [same, absent] at present
    cases present
  · intro offers
    rw [foreign] at offers
    cases offers
  · intro committed
    rw [Try.commits_offers committed] at foreign
    cases foreign

theorem Tried.of_idle (same : (tryStep limits store input).2 = store)
    (known : input.commits limits recipient item store = true → (store.index[itemKey recipient item]?).isSome = true) :
    Tried limits recipient item store input := by
  constructor
  · intro present
    rwa [same]
  · exact fun _ _ => same
  · intro stores
    obtain ⟨absent, present⟩ := storesPair_iff.mp stores
    rw [same, absent] at present
    cases present
  · exact fun _ _ => same
  · rw [same]
    exact known

/-- The cases are those of the push itself: a duplicate, a refusal, a bad counter, or a stored message. -/
theorem Matched.tried (matched : store.Matched) (unnamed : input.names recipient item = false) :
    Tried limits recipient item store input := by
  cases input with
  | ack order owner items fault =>
    apply Tried.of_elsewhere rfl
    change (attempt fault (SledStore.ack order owner items) store).2.index[itemKey recipient item]? = _
    rw [attempt_after]
    split
    · rfl
    · apply ack_index matched order
      rintro ⟨owners, member⟩
      simp [Try.names, owners, member] at unnamed
  | push msg fault =>
    have after :
        (tryStep limits store (.push msg fault)).2 =
          if fault.aborts then store else (SledStore.push limits msg store).2 :=
      attempt_after fault (SledStore.push limits msg) store
    by_cases own : msg.recipient = recipient ∧ msg.ackItem = item
    · obtain ⟨rfl, rfl⟩ := own
      cases aborts : fault.aborts with
      | true =>
        rw [aborts] at after
        apply Tried.of_idle after
        intro committed
        simp [Try.commits, aborts] at committed
      | false =>
        rw [aborts] at after
        rcases push_cases limits msg store with ⟨bytes, entry, pushed⟩ | ⟨_, _, pushed⟩ | ⟨_, _, err, _, pushed⟩ |
          ⟨absent, _, arrivalSeq, _, pushed⟩
        · rw [pushed] at after
          apply Tried.of_idle after
          intro _
          rw [entry]
          rfl
        · rw [pushed] at after
          apply Tried.of_idle after
          intro committed
          simp [Try.commits, pushed, Except.isOk, Except.toBool] at committed
        · rw [pushed] at after
          apply Tried.of_idle after
          intro committed
          simp [Try.commits, pushed, Except.isOk, Except.toBool] at committed
        · rw [pushed] at after
          have stored : (tryStep limits store (.push msg fault)).2 = accept msg arrivalSeq store := after
          have entry :
              ((tryStep limits store (.push msg fault)).2.index[itemKey msg.recipient msg.ackItem]?).isSome = true := by
            rw [stored, accept, OrderedMap.getElem?_insert, if_pos rfl]
            rfl
          constructor
          · exact fun _ => entry
          · intro present
            rw [absent] at present
            cases present
          · exact fun _ => ⟨msg, fault, arrivalSeq, rfl, rfl, rfl, stored⟩
          · intro _ idle
            rw [storesPair_iff.mpr ⟨absent, entry⟩] at idle
            cases idle
          · exact fun _ => entry
    · apply Tried.of_elsewhere
      · rw [Try.offers, Bool.and_eq_false_iff, decide_eq_false_iff_not, decide_eq_false_iff_not]
        exact not_and_or.mp own
      · rw [after]
        split
        · rfl
        · exact push_index msg own

end Tried

end Step

def known (recipient : String) (item : AckItem) (store : SledStore) : Bool :=
  (store.index[itemKey recipient item]?).isSome

theorem Matched.one {store : SledStore} (matched : store.Matched) {recipient : String} {item : AckItem}
    (present : known recipient item store = true) :
    ((stored store.messages recipient).filter (fun found => found.ackItem = item)).length = 1 := by
  obtain ⟨bytes, entry⟩ := Option.isSome_iff_exists.mp present
  obtain ⟨msg, here, owner, pair, _⟩ := matched.indexed.sound recipient item bytes entry
  have nodup : (stored store.messages recipient).Nodup := by
    apply (matched.keyed.sorted recipient).imp
    rintro a b below rfl
    exact OrderedMap.not_lt_both below below
  have listed : msg ∈ (stored store.messages recipient).filter (fun found => found.ackItem = item) :=
    List.mem_filter.mpr ⟨matched.keyed.mem_stored.mpr ⟨here, owner⟩, decide_eq_true pair⟩
  have same : ∀ found ∈ (stored store.messages recipient).filter (fun found => found.ackItem = item), found = msg := by
    intro found member
    obtain ⟨kept, equal⟩ := List.mem_filter.mp member
    obtain ⟨there, owned⟩ := matched.keyed.mem_stored.mp kept
    exact matched.indexed.distinct matched.keyed there here (owned.trans owner.symm)
      ((of_decide_eq_true equal).trans pair.symm)
  have short := nodup.filter (fun found => decide (found.ackItem = item))
  rw [List.eq_replicate_of_mem same, List.nodup_replicate] at short
  have filled := List.length_pos_of_mem listed
  omega

section Run

variable {limits : RelayLimits} {store : SledStore} {recipient : String} {item : AckItem} {tries : List Try}

theorem Matched.final (matched : store.Matched) (tries : List Try) : (final (tryStep limits) store tries).Matched :=
  invariant_run (P := Matched) (tryStep limits) (fun _ input here => here.step input) tries matched

theorem Matched.event (matched : store.Matched) (unnamed : ∀ input ∈ tries, input.names recipient item = false)
    {event : Attempted} (member : event ∈ trace (tryStep limits) store tries) :
    event = taken (tryStep limits) event.before event.input ∧ Tried limits recipient item event.before event.input := by
  obtain ⟨earlier, later, split, shape⟩ := trace_member (tryStep limits) member
  have before : event.before = Machine.final (tryStep limits) store earlier := by rw [shape]; rfl
  have named : event.input.names recipient item = false := by
    apply unnamed
    rw [split]
    exact List.mem_append_right _ List.mem_cons_self
  rw [before]
  exact ⟨shape, (matched.final earlier).tried named⟩

theorem Matched.counted (matched : store.Matched) (unnamed : ∀ input ∈ tries, input.names recipient item = false) :
    (trace (tryStep limits) store tries).countP (storesPair recipient item) + (known recipient item store).toNat =
      (known recipient item (Machine.final (tryStep limits) store tries)).toNat := by
  induction tries generalizing store with
  | nil => exact Nat.zero_add _
  | cons input rest ih =>
    have tried : Tried limits recipient item store input := matched.tried (unnamed input List.mem_cons_self)
    have next : (tryStep limits store input).2.Matched := matched.step input
    have later := ih next (fun other member => unnamed other (List.mem_cons_of_mem _ member))
    have once : (if storesPair recipient item (taken (tryStep limits) store input) then 1 else 0) +
        (known recipient item store).toNat = (known recipient item (tryStep limits store input).2).toNat := by
      cases present : known recipient item store with
      | true =>
        have idle : storesPair recipient item (taken (tryStep limits) store input) = false := by
          rw [← Bool.not_eq_true, storesPair_iff]
          rintro ⟨absent, _⟩
          rw [known, absent] at present
          cases present
        rw [known, tried.stays present, idle]
        rfl
      | false =>
        have absent : store.index[itemKey recipient item]? = none := by
          rw [known, Option.isSome_eq_false_iff, Option.isNone_iff_eq_none] at present
          exact present
        cases after : known recipient item (tryStep limits store input).2 with
        | true =>
          rw [storesPair_iff.mpr ⟨absent, after⟩]
          rfl
        | false =>
          have idle : storesPair recipient item (taken (tryStep limits) store input) = false := by
            rw [← Bool.not_eq_true, storesPair_iff]
            rintro ⟨_, stored⟩
            rw [known, stored] at after
            cases after
          rw [idle]
          rfl
    rw [trace, List.countP_cons, Machine.final_cons, ← later, ← once]
    omega

theorem Matched.stays (matched : store.Matched) (unnamed : ∀ input ∈ tries, input.names recipient item = false)
    (committed : ∃ event ∈ trace (tryStep limits) store tries,
      event.input.commits limits recipient item event.before = true) :
    known recipient item (Machine.final (tryStep limits) store tries) = true := by
  induction tries generalizing store with
  | nil =>
    obtain ⟨event, member, _⟩ := committed
    cases member
  | cons input rest ih =>
    have tried : Tried limits recipient item store input := matched.tried (unnamed input List.mem_cons_self)
    have others : ∀ other ∈ rest, other.names recipient item = false :=
      fun other member => unnamed other (List.mem_cons_of_mem _ member)
    obtain ⟨event, member, through⟩ := committed
    rw [trace] at member
    cases member with
    | head =>
      have next : (tryStep limits store input).2.Matched := matched.step input
      have counted := @Matched.counted _ limits _ recipient item rest next others
      have here : known recipient item (tryStep limits store input).2 = true := tried.committed through
      rw [here] at counted
      rw [Machine.final_cons]
      cases last : known recipient item (Machine.final (tryStep limits) (tryStep limits store input).2 rest) with
      | true => rfl
      | false =>
        rw [last] at counted
        cases counted
    | tail _ later => exact ih (matched.step input) others ⟨event, later, through⟩

theorem Agreed.step (agreed : store.Agreed) (bytesCap : limits.maxQueueBytesPerUser < u64Max)
    (countCap : limits.maxMessagesPerUser < u64Max) (input : Try) : (tryStep limits store input).2.Agreed := by
  cases input with
  | push msg fault =>
    change (attempt fault (SledStore.push limits msg) store).2.Agreed
    rw [attempt_after]
    split
    · exact agreed
    · apply agreed.push
      intro room
      have bytes := saturatingAdd_exact bytesCap room.bytes
      have count := saturatingAdd_exact countCap room.count
      exact ⟨bytes ▸ saturatingAdd_le _ _, count ▸ saturatingAdd_le _ _⟩
  | ack order recipient items fault =>
    change (attempt fault (SledStore.ack order recipient items) store).2.Agreed
    rw [attempt_after]
    split
    · exact agreed
    · exact (agreed.acknowledges recipient items order).agreed

end Run

end Trees

end EnigmaRelay.SledStore
