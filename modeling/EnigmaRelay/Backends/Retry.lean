import EnigmaRelay.Backends.Agreement
import EnigmaRelay.Backends.Still
import EnigmaRelay.Sled.Ascending

open Std Machine

namespace EnigmaRelay

/-- A store with what it keeps for a recipient, and which pairs it takes for duplicates. -/
structure Backend (σ : Type) where
  store : RelayStore σ
  queue : String → σ → List QueueMessage
  indexes : String → AckItem → σ → Prop

namespace Backend

variable {σ : Type} (backend : Backend σ) (limits : RelayLimits) (msg : InboundMessage) (state : σ)

/-- If the push is accepted, a message of its pair is kept that has not expired on its arrival. -/
def Keeps : Prop :=
  ∀ answer, (backend.store.push limits msg state).1 = .ok answer →
    ∃ found ∈ backend.queue msg.recipient (backend.store.push limits msg state).2,
      found.ackItem = msg.ackItem ∧ msg.arrivalMs < found.deadlineMs

/-- A pair in the index is that of a message that has not expired on arrival of the push. -/
def Unshadowed : Prop :=
  backend.indexes msg.recipient msg.ackItem state →
    ∃ found ∈ backend.queue msg.recipient state, found.ackItem = msg.ackItem ∧ msg.arrivalMs < found.deadlineMs

/-- No message of the pair is kept past its deadline. -/
def Collected : Prop :=
  ∀ found ∈ backend.queue msg.recipient state, found.ackItem = msg.ackItem → msg.arrivalMs < found.deadlineMs

/-- A push of an indexed pair changes nothing and is accepted; any other is refused or stored. -/
structure Deduplicates : Prop where
  indexed : backend.indexes msg.recipient msg.ackItem state →
    (∃ answer, (backend.store.push limits msg state).1 = .ok answer) ∧
      backend.queue msg.recipient (backend.store.push limits msg state).2 = backend.queue msg.recipient state
  fresh : ¬ backend.indexes msg.recipient msg.ackItem state →
    ∀ answer, (backend.store.push limits msg state).1 = .ok answer →
      ∃ arrivalSeq, msg.queued arrivalSeq ∈ backend.queue msg.recipient (backend.store.push limits msg state).2

variable {backend limits msg state}

theorem Deduplicates.keeps_iff (deduplicates : backend.Deduplicates limits msg state)
    (timely : msg.arrivalMs < msg.deadlineMs) : backend.Keeps limits msg state ↔ backend.Unshadowed msg state := by
  constructor
  · intro keeps indexed
    obtain ⟨⟨answer, accepted⟩, same⟩ := deduplicates.indexed indexed
    rw [← same]
    exact keeps answer accepted
  · intro unshadowed answer accepted
    by_cases indexed : backend.indexes msg.recipient msg.ackItem state
    · rw [(deduplicates.indexed indexed).2]
      exact unshadowed indexed
    · obtain ⟨arrivalSeq, member⟩ := deduplicates.fresh indexed answer accepted
      exact ⟨msg.queued arrivalSeq, member, rfl, timely⟩

theorem unshadowed_iff
    (exact : backend.indexes msg.recipient msg.ackItem state ↔
      ∃ found ∈ backend.queue msg.recipient state, found.ackItem = msg.ackItem)
    (distinct : ∀ a ∈ backend.queue msg.recipient state, ∀ b ∈ backend.queue msg.recipient state,
      a.ackItem = b.ackItem → a = b) :
    backend.Unshadowed msg state ↔ backend.Collected msg state := by
  constructor
  · intro unshadowed found member pair
    obtain ⟨other, listed, same, alive⟩ := unshadowed (exact.mpr ⟨found, member, pair⟩)
    rwa [distinct found member other listed (pair.trans same.symm)]
  · intro collected indexed
    obtain ⟨found, member, pair⟩ := exact.mp indexed
    exact ⟨found, member, pair, collected found member pair⟩

end Backend

section Traversals

variable [Base64] {σ : Type} (backend : Backend σ) (limits : RelayLimits) (recipient : String) (nowMs : Nat) (state : σ)

/-- A client that is alone is handed every unexpired message, and gets to the end. -/
def Backend.ReadsAll : Prop :=
  ∀ legs, Alone nowMs legs → let pages := traverse backend.store limits recipient none state legs
    (Finished pages → ∀ found ∈ backend.queue recipient state, nowMs < found.deadlineMs →
      found ∈ pages.flatMap Page.items) ∧
    ((backend.queue recipient state).length < legs.length → Finished pages)

variable {backend limits recipient nowMs state}

theorem Still.readsAll {steady : σ → Prop}
    (still : Still backend.store recipient nowMs steady ((backend.queue recipient state).filter (live nowMs)))
    (plain : ':' ∉ recipient.toList) (here : steady state) : backend.ReadsAll limits recipient nowMs state := by
  intro legs alone pages
  have started : startSeq recipient none = .ok none := rfl
  have course := @Still.traverse _ _ _ limits _ _ _ _ still plain _ _ _ here started _ alone
  obtain ⟨complete, stops⟩ := course
  have whole : beyondStart none ((backend.queue recipient state).filter (live nowMs)) =
      (backend.queue recipient state).filter (live nowMs) := List.filter_eq_self.mpr (fun _ _ => rfl)
  rw [whole] at complete stops
  refine ⟨?_, fun enough => stops (Nat.lt_of_le_of_lt (List.length_filter_le _ _) enough)⟩
  intro finished found member alive
  rw [complete finished]
  exact List.mem_filter.mpr ⟨member, decide_eq_true alive⟩

end Traversals

namespace MemStore

def backend [Base64] : Backend MemStore where
  store := relayStore
  queue recipient state := state.queued recipient
  indexes recipient item state := ∃ seq : Nat, (state.entryOf recipient).idx[item]? = some seq

section Push

variable [Base64] (limits : RelayLimits) (msg : InboundMessage) (state : MemStore)

/-- In any state at all, also when sequence numbers have run out. -/
theorem deduplicates : backend.Deduplicates limits msg state := by
  have after :
      queued (push limits msg state).2 msg.recipient = ((state.entryOf msg.recipient).push limits msg).2.messages := by
    rw [queued, push, entryOf_insert, if_pos rfl]
  constructor
  · rintro ⟨seq, known⟩
    rcases RecipientState.push_cases limits msg (state.entryOf msg.recipient) with
      ⟨_, _, pushed⟩ | ⟨absent, _⟩ | ⟨absent, _⟩
    · refine ⟨⟨_, by simp only [backend, relayStore, push, pushed]; rfl⟩, ?_⟩
      rw [pushed] at after
      exact after
    all_goals
      rw [absent] at known
      cases known
  · intro unknown answer accepted
    rcases RecipientState.push_cases limits msg (state.entryOf msg.recipient) with
      ⟨seq, known, _⟩ | ⟨_, _, pushed⟩ | ⟨_, _, pushed⟩
    · exact absurd ⟨seq, known⟩ unknown
    · simp only [backend, relayStore, push, pushed] at accepted
      cases accepted
    · refine ⟨(state.entryOf msg.recipient).seq, ?_⟩
      change _ ∈ queued (push limits msg state).2 msg.recipient
      rw [after, pushed, RecipientState.mem_messages]
      exact ⟨_, by rw [RecipientState.accept, OrderedMap.getElem?_insert, if_pos rfl]⟩

theorem Coherent.unshadowed_iff {state : MemStore} (coherent : state.Coherent) :
    backend.Unshadowed msg state ↔ backend.Collected msg state := by
  have here := coherent msg.recipient
  apply Backend.unshadowed_iff
  · constructor
    · rintro ⟨seq, known⟩
      obtain ⟨found, bound, pair⟩ := (here.indexed _ seq).mp known
      exact ⟨found, RecipientState.mem_messages.mpr ⟨seq, bound⟩, pair⟩
    · rintro ⟨found, member, pair⟩
      exact ⟨found.arrivalSeq, (here.indexed _ _).mpr ⟨found, here.filed.mem.mp member, pair⟩⟩
  · exact fun a first b second pair => here.distinct first second pair

end Push

variable [Base64] {limits : RelayLimits}

theorem still {state : MemStore} {recipient : String} (filed : (state.entryOf recipient).Filed recipient)
    (bound : ∀ msg ∈ state.queued recipient, msg.arrivalSeq < 2 ^ 64) (nowMs : Nat) :
    Still relayStore recipient nowMs
      (fun later => (later.entryOf recipient).Filed recipient ∧
        (later.queued recipient).filter (live nowMs) = (state.queued recipient).filter (live nowMs))
      ((state.queued recipient).filter (live nowMs)) := by
  refine ⟨filed.sorted.filter _, fun msg member => bound msg (List.mem_of_mem_filter member), ?_⟩
  rintro later cursor start limit ⟨settled, same⟩ started
  obtain ⟨answer, after, _⟩ := later.pull_entry recipient started limit nowMs
  rcases settled.pull cursor limit nowMs with ⟨err, refused, _⟩ | ⟨first, batch, dropped, read, pulled, spec⟩
  · rw [started] at refused
    cases refused
  · rw [started] at read
    cases read
    rw [pulled] at answer after
    have pending : (later.entryOf recipient).pending start nowMs =
        beyondStart start ((state.queued recipient).filter (live nowMs)) := by
      rw [← same, beyondStart, List.filter_filter, RecipientState.pending, queued]
      apply List.filter_congr
      exact fun msg _ => Bool.and_comm _ _
    have owners : batch.items.getLast?.map (fun item => encodeCursor item.recipient item.arrivalSeq) =
        batch.items.getLast?.map (fun item => encodeCursor recipient item.arrivalSeq) := by
      apply Option.map_congr
      intro last ends
      rw [spec.items] at ends
      have listed := (mem_pending.mp (List.mem_of_mem_take (List.mem_of_getLast? ends))).1
      rw [settled.owner _ _ (settled.mem.mp listed)]
    refine ⟨batch, answer, ⟨?_, ?_⟩, pending ▸ spec.items, ?_⟩
    · change RecipientState.Filed recipient (entryOf (pull recipient cursor limit nowMs later).2 recipient)
      rw [after]
      exact settled.thinned (RecipientState.dropAll_thinned _ dropped)
    · have kept := settled.pending_dropAll spec.expired none
      change (queued (pull recipient cursor limit nowMs later).2 recipient).filter _ = _
      rw [← same, queued, after, queued]
      simpa [RecipientState.pending] using kept
    · rw [spec.cursor, pending, owners]

end MemStore

namespace SledStore

def backend [Base64] [UuidText] : Backend SledStore where
  store := relayStore
  queue recipient store := stored store.messages recipient
  indexes recipient item store := ∃ bytes : Bytes, store.index[itemKey recipient item]? = some bytes

variable [Base64] [UuidText] {limits : RelayLimits} {store : SledStore}

theorem Consistent.deduplicates (consistent : store.Consistent) (msg : InboundMessage) :
    backend.Deduplicates limits msg store := by
  constructor
  · rintro ⟨bytes, known⟩
    rcases push_cases limits msg store with ⟨_, _, pushed⟩ | ⟨absent, _⟩ | ⟨absent, _⟩ | ⟨absent, _⟩
    · exact ⟨⟨_, by simp only [backend, relayStore, pushed]; rfl⟩, by simp only [backend, relayStore, pushed]⟩
    all_goals
      rw [absent] at known
      cases known
  · intro unknown answer accepted
    rcases push_cases limits msg store with
      ⟨bytes, known, _⟩ | ⟨_, _, pushed⟩ | ⟨_, _, err, _, pushed⟩ | ⟨_, _, arrivalSeq, read, pushed⟩
    · exact absurd ⟨bytes, known⟩ unknown
    · simp only [backend, relayStore, pushed] at accepted
      cases accepted
    · simp only [backend, relayStore, pushed] at accepted
      cases accepted
    · refine ⟨arrivalSeq, ?_⟩
      change _ ∈ stored (push limits msg store).2.messages msg.recipient
      have bound : (msg.queued arrivalSeq).arrivalSeq < 2 ^ 64 := currentSeq_bound read
      rw [pushed]
      exact (consistent.keyed.insert bound).mem_stored.mpr ⟨by simp, rfl⟩

theorem Consistent.unshadowed_iff (consistent : store.Consistent) (msg : InboundMessage) :
    backend.Unshadowed msg store ↔ backend.Collected msg store := by
  apply Backend.unshadowed_iff
  · have absent := consistent.indexed.absent_iff consistent.keyed msg.recipient msg.ackItem
    change (∃ bytes, _ = some bytes) ↔ ∃ found ∈ stored store.messages msg.recipient, _
    rw [← Option.ne_none_iff_exists', ne_eq, absent]
    simp
  · intro a first b second pair
    obtain ⟨aPresent, aOwner⟩ := consistent.keyed.mem_stored.mp first
    obtain ⟨bPresent, bOwner⟩ := consistent.keyed.mem_stored.mp second
    exact consistent.indexed.distinct consistent.keyed aPresent bPresent (aOwner.trans bOwner.symm) pair

theorem still (keyed : Keyed store.messages) (plain : Plain store.messages) (ascending : store.Ascending)
    {recipient : String} (own : ':' ∉ recipient.toList) (bound : store.spent recipient < 2 ^ 64) (nowMs : Nat) :
    Still relayStore recipient nowMs (fun later => later = store)
      ((stored store.messages recipient).filter (live nowMs)) := by
  refine ⟨(ascending.sorted keyed recipient).filter _, ?_, ?_⟩
  · exact fun msg member => Nat.lt_trans (ascending recipient msg (List.mem_of_mem_filter member)).1 bound
  · rintro later cursor start limit rfl started
    have pulled := pull_plain keyed plain own started limit nowMs
    have items : waiting recipient start nowMs later =
        beyondStart start ((stored later.messages recipient).filter (live nowMs)) := by
      rw [waiting, beyondStart, List.filter_filter]
      apply List.filter_congr
      exact fun msg _ => Bool.and_comm _ _
    rw [items] at pulled
    exact ⟨_, congrArg Prod.fst pulled, congrArg Prod.snd pulled, rfl, rfl⟩

end SledStore

section Runs

variable [Base64] [UuidText] (limits : RelayLimits)

/-- After any calls, on either backend: an accepted push leaves a message of its pair that can still
    be delivered, exactly when the pair is new or that of an unexpired message. While sequence
    numbers last that is when no expired message of the pair is left, and a client reads what is kept. -/
theorem accepted_push_deliverable (calls : List (Call × HashOrder)) (msg : InboundMessage) (order : HashOrder)
    (timely : msg.arrivalMs < msg.deadlineMs) :
    let mem := final (MemStore.next limits) MemStore.new calls
    let sled := final (SledStore.next limits) SledStore.new calls
    (MemStore.backend.Keeps limits msg mem ↔ MemStore.backend.Unshadowed msg mem) ∧
    (SledStore.backend.Keeps limits msg sled ↔ SledStore.backend.Unshadowed msg sled) ∧
    (MemStore.Few limits (calls ++ [(.push msg, order)]) →
      (MemStore.backend.Unshadowed msg mem ↔ MemStore.backend.Collected msg mem) ∧
      (':' ∉ msg.recipient.toList →
        MemStore.backend.ReadsAll limits msg.recipient msg.arrivalMs (MemStore.push limits msg mem).2)) ∧
    (SledStore.backend.Unshadowed msg sled ↔ SledStore.backend.Collected msg sled) ∧
    (SledStore.Few limits (calls ++ [(.push msg, order)]) → PlainPushes (calls ++ [(.push msg, order)]) →
      SledStore.backend.ReadsAll limits msg.recipient msg.arrivalMs (SledStore.push limits msg sled).2) := by
  intro mem sled
  have consistent := SledStore.run_consistent limits calls
  refine ⟨(MemStore.deduplicates limits msg mem).keeps_iff timely,
    (consistent.deduplicates msg).keeps_iff timely, ?_, consistent.unshadowed_iff msg, ?_⟩
  · intro few
    obtain ⟨coherent, fits⟩ := few.fits.split MemStore.new_coherent
    refine ⟨coherent.unshadowed_iff msg, fun plain => ?_⟩
    obtain ⟨after, _, left⟩ := fits.step coherent
    have filed := (after msg.recipient).filed
    have bound : ∀ found ∈ MemStore.queued (MemStore.push limits msg mem).2 msg.recipient, found.arrivalSeq < 2 ^ 64 := by
      intro found member
      have below := (after msg.recipient).below _ _ (filed.mem.mp member)
      exact Nat.lt_trans (Nat.lt_of_lt_of_le below (left.spent_le msg.recipient)) (by decide : u64Max < 2 ^ 64)
    exact (MemStore.still filed bound msg.arrivalMs).readsAll plain ⟨filed, rfl⟩
  · intro few plain
    have last : final (SledStore.next limits) SledStore.new (calls ++ [(.push msg, order)]) =
        (SledStore.push limits msg sled).2 := final_snoc _ _ _ _
    obtain ⟨ascending, bound⟩ := SledStore.run_ascending limits few
    have named := SledStore.run_plain limits plain
    have keyed := (SledStore.run_consistent limits (calls ++ [(.push msg, order)])).keyed
    rw [last] at ascending bound named keyed
    have own := plain (.push msg, order) (List.mem_append_right _ (List.mem_singleton_self _)) msg rfl
    have still : Still SledStore.backend.store msg.recipient msg.arrivalMs
        (fun later => later = (SledStore.push limits msg sled).2) _ :=
      SledStore.still keyed named ascending own (bound msg.recipient) msg.arrivalMs
    exact still.readsAll own rfl

end Runs

def lingering : List (Call × HashOrder) := [(.push (sample "alice" 1 0 5 3), .asListed)]

def retry : InboundMessage := sample "alice" 1 10 70 3

theorem accepted_push_deliverable_sample :
    (MemStore.backend.Keeps sampleLimits (sample "alice" 2 10 70 3)
        (final (MemStore.next sampleLimits) MemStore.new lingering) ↔
      MemStore.backend.Unshadowed (sample "alice" 2 10 70 3)
        (final (MemStore.next sampleLimits) MemStore.new lingering)) ∧
    MemStore.backend.ReadsAll sampleLimits "alice" 10
      (MemStore.push sampleLimits (sample "alice" 2 10 70 3)
        (final (MemStore.next sampleLimits) MemStore.new lingering)).2 := by
  obtain ⟨kept, _, readable, _⟩ :=
    accepted_push_deliverable sampleLimits lingering (sample "alice" 2 10 70 3) .asListed (by decide)
  exact ⟨kept, (readable (HitsBelow.of_length (by decide))).2 (by decide)⟩

/-- Both backends accept the retry as a duplicate of the expired message, and neither keeps
    anything that could still be delivered. -/
theorem accepted_push_swallowed :
    (MemStore.push sampleLimits retry (final (MemStore.next sampleLimits) MemStore.new lingering)).1 =
      .ok { stored := false, duplicate := true, queueLen := 1, queueBytes := 3 } ∧
    ¬ MemStore.backend.Keeps sampleLimits retry (final (MemStore.next sampleLimits) MemStore.new lingering) ∧
    (SledStore.push sampleLimits retry (final (SledStore.next sampleLimits) SledStore.new lingering)).1 =
      .ok { stored := false, duplicate := true, queueLen := 1, queueBytes := 3 } ∧
    ¬ SledStore.backend.Keeps sampleLimits retry (final (SledStore.next sampleLimits) SledStore.new lingering) := by
  have memAnswer : (MemStore.push sampleLimits retry (final (MemStore.next sampleLimits) MemStore.new lingering)).1 =
      .ok { stored := false, duplicate := true, queueLen := 1, queueBytes := 3 } := by decide +kernel
  have sledAnswer : (SledStore.push sampleLimits retry (final (SledStore.next sampleLimits) SledStore.new lingering)).1 =
      .ok { stored := false, duplicate := true, queueLen := 1, queueBytes := 3 } := by decide +kernel
  have memExpired : ∀ found ∈ (MemStore.push sampleLimits retry
      (final (MemStore.next sampleLimits) MemStore.new lingering)).2.queued "alice", found.deadlineMs ≤ 10 := by
    decide +kernel
  have sledExpired : ∀ found ∈ stored (SledStore.push sampleLimits retry
      (final (SledStore.next sampleLimits) SledStore.new lingering)).2.messages "alice", found.deadlineMs ≤ 10 := by
    decide +kernel
  refine ⟨memAnswer, ?_, sledAnswer, ?_⟩
  · intro keeps
    obtain ⟨found, member, _, alive⟩ := keeps _ memAnswer
    exact absurd (memExpired found member) (Nat.not_le.mpr alive)
  · intro keeps
    obtain ⟨found, member, _, alive⟩ := keeps _ sledAnswer
    exact absurd (sledExpired found member) (Nat.not_le.mpr alive)

end EnigmaRelay
