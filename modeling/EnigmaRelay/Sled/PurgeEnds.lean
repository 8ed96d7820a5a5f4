import EnigmaRelay.Model.Standard
import EnigmaRelay.Sled.GcLoop

open Std Machine

namespace EnigmaRelay.SledStore

theorem writeBacks_length (order : HashOrder) (quotas : ExtTreeMap String QuotaValue compare) :
    (writeBacks order quotas).length = quotas.size := by
  rw [writeBacks, List.length_map, (order.recipients.arranged quotas.keys).length_eq, ExtTreeMap.length_keys]

section Iteration

variable [MessageIter]

def PurgeRun.left (run : PurgeRun) (pool : Pool) : Nat :=
  match run.phase with
  | .next => 5 * pool.card + run.quotas.size + 2
  | .removeMessage _ _ => 5 * pool.card + run.quotas.size + 6
  | .removeIndex _ => 5 * pool.card + run.quotas.size + 5
  | .readQuota _ => 5 * pool.card + run.quotas.size + 4
  | .writeBack pending => pending.length + 1
  | .finished _ => 0

/-- What is stored is behind the iterator or in the pool, and it yields nothing else. -/
structure Yielding (seen : List (Tree QueueMessage)) (pool : Pool) (state : Collecting) : Prop where
  cursor : state.purge.entries = TreeIter.reached seen
  covers : TreeIter.Covers seen (· ∈ pool)
  stored : ∀ (key : Bytes) (msg : QueueMessage), state.store.messages[key]? = some msg →
    TreeIter.passed seen key = true ∨ (key, msg) ∈ pool

section Steps

variable {seen : List (Tree QueueMessage)} {pool : Pool} {run : PurgeRun} {store after : SledStore}

theorem left_mono {more : Pool} (near : more.card ≤ pool.card + 1) : run.left more ≤ run.left pool + 5 := by
  unfold PurgeRun.left
  split <;> omega

theorem left_pos (under : ∀ removed, run.phase ≠ .finished removed) : 0 < run.left pool := by
  unfold PurgeRun.left
  split
  · omega
  · omega
  · omega
  · omega
  · omega
  · rename_i removed phase
    exact absurd phase (under removed)

theorem Yielding.shrink (yielding : Yielding seen pool ⟨store, run⟩)
    (old : ∀ (key : Bytes) (msg : QueueMessage), after.messages[key]? = some msg → store.messages[key]? = some msg) :
    Yielding seen pool ⟨after, run⟩ :=
  ⟨yielding.cursor, yielding.covers, fun key msg bound => yielding.stored key msg (old key msg bound)⟩

theorem Yielding.insert (yielding : Yielding seen pool ⟨store, run⟩) (key : Bytes) (msg : QueueMessage)
    (messages : after.messages = store.messages.insert key msg) :
    Yielding seen (insert (key, msg) pool) ⟨after, run⟩ := by
  refine ⟨yielding.cursor, yielding.covers.mono (fun _ member => Finset.mem_insert_of_mem member), ?_⟩
  intro other left bound
  change after.messages[other]? = some left at bound
  rw [messages, OrderedMap.getElem?_insert] at bound
  split at bound
  · rename_i same
    cases bound
    exact .inr (same ▸ Finset.mem_insert_self _ _)
  · exact (yielding.stored other left bound).imp_right Finset.mem_insert_of_mem

variable [UuidText]

theorem Yielding.next (lawful : TreeIter.Lawful Bytes QueueMessage compare) (yielding : Yielding seen pool ⟨store, run⟩)
    (phase : run.phase = .next) : ∃ seen' pool', Yielding seen' pool' ⟨(run.step store).2, (run.step store).1⟩ ∧
      (run.step store).1.left pool' + 1 ≤ run.left pool := by
  have cursor : run.entries = _ := yielding.cursor
  have moved : (TreeIter.next run.entries store.messages).2 = TreeIter.reached (seen ++ [store.messages]) := by
    rw [cursor, TreeIter.reached_snoc]
  have before : run.left pool = 5 * pool.card + run.quotas.size + 2 := by rw [PurgeRun.left, phase]
  have covers : TreeIter.Covers (seen ++ [store.messages]) (· ∈ pool) :=
    yielding.covers.read yielding.stored (fun _ member => .inl member)
  rcases run.next_cases phase store with ⟨_, stepped⟩ | ⟨key, msg, found, _, read⟩
  · rw [stepped, before]
    refine ⟨_, pool, ⟨moved, covers, ?_⟩, ?_⟩
    · exact fun other left bound => (yielding.stored other left bound).imp_left TreeIter.passed_mono
    · simp only [PurgeRun.left, writeBacks_length]
      omega
  · rw [cursor] at found
    have member : (key, msg) ∈ pool := lawful.covered yielding.covers yielding.stored found
    have fewer := Finset.card_erase_add_one member
    have taken_ : ∀ (other : Bytes) (left : QueueMessage), store.messages[other]? = some left →
        TreeIter.passed (seen ++ [store.messages]) other = true ∨ (other, left) ∈ pool.erase (key, msg) := by
      intro other left bound
      rcases yielding.stored other left bound with behind | listed
      · exact .inl (TreeIter.passed_mono behind)
      · by_cases same : (other, left) = (key, msg)
        · cases same
          exact .inl (TreeIter.passed_self found)
        · exact .inr (Finset.mem_erase.mpr ⟨same, listed⟩)
    rcases read with ⟨_, stepped⟩ | ⟨_, stepped⟩
    · rw [stepped, before]
      refine ⟨_, _, ⟨moved, yielding.covers.take yielding.stored found, taken_⟩, ?_⟩
      simp only [PurgeRun.left, phase]
      omega
    · rw [stepped, before]
      refine ⟨_, _, ⟨moved, yielding.covers.take yielding.stored found, taken_⟩, ?_⟩
      simp only [PurgeRun.left]
      omega

theorem Yielding.purge (lawful : TreeIter.Lawful Bytes QueueMessage compare) (yielding : Yielding seen pool ⟨store, run⟩)
    (under : ∀ removed, run.phase ≠ .finished removed) :
    ∃ seen' pool', Yielding seen' pool' ⟨(run.step store).2, (run.step store).1⟩ ∧
      (run.step store).1.left pool' + 1 ≤ run.left pool := by
  have shrunk : ∀ (key : Bytes) (msg : QueueMessage), (run.step store).2.messages[key]? = some msg →
      TreeIter.passed seen key = true ∨ (key, msg) ∈ pool :=
    fun key msg bound => yielding.stored key msg (step_messages run store bound)
  cases phase : run.phase with
  | next => exact yielding.next lawful phase
  | removeMessage key msg =>
    have before : run.left pool = 5 * pool.card + run.quotas.size + 6 := by rw [PurgeRun.left, phase]
    rw [PurgeRun.step, phase] at shrunk ⊢
    refine ⟨seen, pool, ⟨yielding.cursor, yielding.covers, shrunk⟩, ?_⟩
    rw [before]
    simp only [PurgeRun.left]
    omega
  | removeIndex msg =>
    have before : run.left pool = 5 * pool.card + run.quotas.size + 5 := by rw [PurgeRun.left, phase]
    rw [PurgeRun.step, phase] at shrunk ⊢
    refine ⟨seen, pool, ⟨yielding.cursor, yielding.covers, shrunk⟩, ?_⟩
    rw [before]
    simp only [PurgeRun.left]
    omega
  | readQuota msg =>
    have before : run.left pool = 5 * pool.card + run.quotas.size + 4 := by rw [PurgeRun.left, phase]
    have grown := @ExtTreeMap.size_insert_le String QuotaValue compare run.quotas _ msg.recipient
      ((cachedQuota run.quotas store msg.recipient).refund msg)
    rw [PurgeRun.step, phase] at shrunk ⊢
    refine ⟨seen, pool, ⟨yielding.cursor, yielding.covers, shrunk⟩, ?_⟩
    rw [before]
    simp only [PurgeRun.left]
    omega
  | writeBack pending =>
    have before : run.left pool = pending.length + 1 := by rw [PurgeRun.left, phase]
    rw [PurgeRun.step, phase] at shrunk ⊢
    rw [before]
    cases pending with
    | nil => exact ⟨seen, pool, ⟨yielding.cursor, yielding.covers, shrunk⟩, le_rfl⟩
    | cons first rest =>
      refine ⟨seen, pool, ⟨yielding.cursor, yielding.covers, shrunk⟩, ?_⟩
      simp only [PurgeRun.left, List.length_cons]
      omega
  | finished removed => exact absurd phase (under removed)

theorem finished_turn {limits : RelayLimits} {state : Collecting} {removed : Nat}
    (ended : state.purge.phase = .finished removed)
    (turn : Turn) : (state.step limits turn).2.purge.phase = .finished removed := by
  cases turn with
  | push msg => exact ended
  | ack order recipient items => exact ended
  | purge =>
    change (state.purge.step state.store).1.phase = _
    rw [PurgeRun.step, ended]
    exact ended

end Steps

def Turn.isPurge : Turn → Bool
  | .purge => true
  | _ => false

def Turn.isPush : Turn → Bool
  | .push _ => true
  | _ => false

section Ends

variable [UuidText] (limits : RelayLimits)

theorem ends_within (lawful : TreeIter.Lawful Bytes QueueMessage compare) {seen : List (Tree QueueMessage)} {pool : Pool}
    {state : Collecting} (yielding : Yielding seen pool state) {turns : List Turn}
    (enough : state.purge.left pool + 5 * turns.countP Turn.isPush ≤ turns.countP Turn.isPurge) :
    ∃ removed, (final (Collecting.step limits) state turns).purge.phase = .finished removed := by
  induction turns generalizing seen pool state with
  | nil =>
    by_contra running
    have positive := @left_pos _ pool state.purge (fun removed ended => running ⟨removed, ended⟩)
    rw [List.countP_nil, List.countP_nil] at enough
    omega
  | cons turn rest ih =>
    obtain ⟨store, run⟩ := state
    by_cases under : ∀ removed, run.phase ≠ .finished removed
    · rw [List.countP_cons, List.countP_cons] at enough
      cases turn with
      | push msg =>
        simp only [Turn.isPush, Turn.isPurge, if_true, Bool.false_eq_true, if_false] at enough
        rcases push_after limits msg store with same | ⟨_, _, arrivalSeq, _, _, _, pushed⟩
        · refine @ih seen pool ⟨(push limits msg store).2, run⟩ (yielding.shrink ?_) ?_
          · rw [same]
            exact fun _ _ bound => bound
          · change run.left pool + _ ≤ _
            omega
        · have grown := @left_mono _ pool run _ (Finset.card_insert_le
            ((msg.queued arrivalSeq).key, msg.queued arrivalSeq) pool)
          refine @ih seen _ ⟨(push limits msg store).2, run⟩ (yielding.insert _ _ (by rw [pushed]; rfl)) ?_
          change run.left _ + _ ≤ _
          omega
      | ack order recipient items =>
        simp only [Turn.isPush, Turn.isPurge, Bool.false_eq_true, if_false] at enough
        refine @ih seen pool ⟨(ack order recipient items store).2, run⟩ (yielding.shrink ?_) ?_
        · exact @ack_erases _ (fun messages =>
              ∀ (key : Bytes) (msg : QueueMessage), messages[key]? = some msg → store.messages[key]? = some msg)
            (fun messages key holds other msg bound => by
              rw [OrderedMap.getElem?_erase] at bound
              split at bound
              · cases bound
              · exact holds other msg bound) store (fun _ _ bound => bound) order recipient items
        · change run.left pool + _ ≤ _
          omega
      | purge =>
        simp only [Turn.isPush, Turn.isPurge, if_true, Bool.false_eq_true, if_false] at enough
        obtain ⟨seen', pool', onward, less⟩ := yielding.purge lawful under
        refine @ih seen' pool' ⟨(run.step store).2, (run.step store).1⟩ onward ?_
        change (run.step store).1.left pool' + _ ≤ _
        change run.left pool + _ ≤ _ at enough
        omega
    · obtain ⟨removed, ended⟩ : ∃ removed, run.phase = .finished removed := by simpa using under
      refine ⟨removed, ?_⟩
      exact invariant_run (P := fun current : Collecting => current.purge.phase = .finished removed)
        (Collecting.step limits) (fun _ other holds => finished_turn holds other) (turn :: rest) ended

/-- A purge comes to its end, whatever handlers do between its operations: after five operations for every message stored
    at its start or pushed meanwhile, and two more. -/
theorem purge_ends (lawful : TreeIter.Lawful Bytes QueueMessage compare) (order : HashOrder) (nowMs max : Nat)
    (store : SledStore) {turns : List Turn}
    (enough : 5 * (store.messages.size + turns.countP Turn.isPush) + 2 ≤ turns.countP Turn.isPurge) :
    ∃ removed, (final (Collecting.step limits) (.start order nowMs max store) turns).purge.phase = .finished removed := by
  have started : Yielding [] store.messages.toList.toFinset (.start order nowMs max store) :=
    ⟨rfl, .nil, fun _ _ bound => .inr (List.mem_toFinset.mpr (OrderedMap.mem_toList.mpr bound))⟩
  have size : store.messages.toList.toFinset.card ≤ store.messages.size := by
    rw [← ExtTreeMap.length_toList]
    exact List.toFinset_card_le _
  apply ends_within limits lawful started
  change 5 * store.messages.toList.toFinset.card + (∅ : ExtTreeMap String QuotaValue compare).size + 2 + _ ≤ _
  rw [ExtTreeMap.size_empty]
  omega

end Ends

end Iteration

theorem purge_ends_sample : ∃ removed, (final (Collecting.step sampleLimits) (.start .asListed 10 1024 new)
    [.purge, .push (sample "a" 1 0 5 3), .purge, .purge, .purge, .purge, .purge, .purge]).purge.phase =
      .finished removed :=
  purge_ends sampleLimits TreeIter.oneLeaf_lawful .asListed 10 1024 new (by decide)

end EnigmaRelay.SledStore
