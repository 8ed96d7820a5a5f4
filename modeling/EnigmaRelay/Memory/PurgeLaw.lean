import EnigmaRelay.Foundation.Fronts
import EnigmaRelay.Memory.Invariant

open Std Machine Fronts

namespace EnigmaRelay

/-- The deadline of the message has come. -/
def late (nowMs : Nat) (msg : QueueMessage) : Bool := msg.deadlineMs ≤ nowMs

namespace RecipientState

/-- The numbers a purge picks are those of the front of the queue, as far as the batch goes. -/
theorem toDrop_front (nowMs removed target : Nat) (entries : List (Nat × QueueMessage)) {chosen : List Nat}
    (room : removed + chosen.length < target) :
    toDrop nowMs removed target entries chosen = chosen ++
      ((front (fun pending => late nowMs pending.2) entries).take (target - removed - chosen.length)).map Prod.fst := by
  induction entries generalizing chosen with
  | nil => simp [toDrop, front]
  | cons pending rest ih =>
    obtain ⟨seq, msg⟩ := pending
    have budget : target - removed - chosen.length = target - removed - (chosen ++ [seq]).length + 1 := by
      rw [List.length_append, List.length_singleton]
      omega
    rw [toDrop]
    by_cases stale : msg.deadlineMs ≤ nowMs
    · have first : front (fun pending => late nowMs pending.2) ((seq, msg) :: rest) =
          (seq, msg) :: front (fun pending => late nowMs pending.2) rest :=
        List.takeWhile_cons_of_pos (decide_eq_true stale)
      rw [if_pos stale, first, budget, List.take_succ_cons, List.map_cons]
      dsimp only
      split
      · rename_i full
        have spent : target - removed - (chosen ++ [seq]).length = 0 := by omega
        rw [spent, List.take_zero, List.map_nil]
      · rename_i open_
        rw [ih (Nat.not_le.mp open_), List.append_assoc]
        rfl
    · have none : front (fun pending => late nowMs pending.2) ((seq, msg) :: rest) = [] :=
        List.takeWhile_cons_of_neg (by simpa [late] using stale)
      rw [if_neg stale, none, List.take_nil, List.map_nil, List.append_nil]

theorem dropCounted_all {target : Nat} {chosen : List Nat} {entry : RecipientState} {removed : Nat}
    (distinct : chosen.Nodup) (present : ∀ seq ∈ chosen, entry.queue.contains seq = true)
    (fits : removed + chosen.length ≤ target) :
    dropCounted target chosen (entry, removed) = (entry.dropAll chosen, removed + chosen.length) := by
  induction chosen generalizing entry removed with
  | nil => rfl
  | cons seq rest ih =>
    obtain ⟨fresh, later⟩ := List.nodup_cons.mp distinct
    rw [List.length_cons] at fits
    rw [dropCounted, if_pos (present seq List.mem_cons_self), List.length_cons]
    split
    · rename_i full
      have ended : rest = [] := List.length_eq_zero_iff.mp (by omega)
      rw [ended]
      rfl
    · rw [ih later ?_ (by omega)]
      · rw [dropAll, dropAll, List.foldl_cons, Nat.add_assoc, Nat.add_comm 1]
      · intro other member
        have different : seq ≠ other := fun same => fresh (same ▸ member)
        have before := present other (List.mem_cons_of_mem _ member)
        rw [← ExtTreeMap.isSome_getElem?_eq_contains] at before ⊢
        rwa [drop_queue, OrderedMap.getElem?_erase, if_neg different]

theorem dropAll_take (entry : RecipientState) (count : Nat) :
    (entry.dropAll ((entry.queue.toList.take count).map Prod.fst)).queue.toList = entry.queue.toList.drop count := by
  have sorted := OrderedMap.toList_sorted entry.queue
  rw [← List.take_append_drop count entry.queue.toList, List.pairwise_append] at sorted
  have gone : (entry.queue.toList.take count).filter
      (fun pending => pending.1 ∉ (entry.queue.toList.take count).map Prod.fst) = [] := by
    rw [List.filter_eq_nil_iff]
    intro pending member
    rw [decide_eq_true_eq, not_not]
    exact List.mem_map_of_mem member
  have left : (entry.queue.toList.drop count).filter
      (fun pending => pending.1 ∉ (entry.queue.toList.take count).map Prod.fst) = entry.queue.toList.drop count := by
    rw [List.filter_eq_self]
    intro pending member
    rw [decide_eq_true_eq]
    intro listed
    obtain ⟨other, earlier, same⟩ := List.mem_map.mp listed
    have below := sorted.2.2 other earlier pending member
    rw [same, ReflOrd.compare_self] at below
    cases below
  rw [dropAll_toList]
  conv_lhs => rw [← List.take_append_drop count entry.queue.toList]
  rw [List.filter_append]
  rw [List.take_append_drop, gone, left, List.nil_append]

/-- What a purge does to one queue: it takes the front, as far as the batch goes. -/
theorem purge_entry (entry : RecipientState) {nowMs removed target : Nat} (room : removed < target) :
    (dropCounted target (toDrop nowMs removed target entry.queue.toList []) (entry, removed)).1.messages =
      entry.messages.drop (min (target - removed) (front (late nowMs) entry.messages).length) ∧
    (dropCounted target (toDrop nowMs removed target entry.queue.toList []) (entry, removed)).2 =
      removed + min (target - removed) (front (late nowMs) entry.messages).length := by
  have mapped : front (late nowMs) entry.messages =
      (front (fun pending => late nowMs pending.2) entry.queue.toList).map Prod.snd := by
    rw [front, messages, List.takeWhile_map]
    rfl
  have chosen : toDrop nowMs removed target entry.queue.toList [] =
      (entry.queue.toList.take (min (target - removed) (front (late nowMs) entry.messages).length)).map Prod.fst := by
    rw [toDrop_front _ _ _ _ (by simpa using room), mapped, List.length_map, List.nil_append, List.length_nil,
      Nat.sub_zero, front_take]
  have size : (entry.queue.toList.take (min (target - removed) (front (late nowMs) entry.messages).length)).length =
      min (target - removed) (front (late nowMs) entry.messages).length := by
    have short : (front (late nowMs) entry.messages).length ≤ entry.queue.toList.length := by
      rw [← List.length_map Prod.snd]
      exact front_le_length
    rw [List.length_take]
    omega
  have keys : (entry.queue.toList.map Prod.fst).Nodup := by
    rw [List.Nodup, List.pairwise_map]
    exact OrderedMap.keys_distinct entry.queue
  rw [chosen, dropCounted_all]
  · rw [List.length_map, size]
    refine ⟨?_, rfl⟩
    rw [messages, dropAll_take, messages, List.map_drop]
  · exact keys.sublist ((List.take_sublist _ _).map _)
  · intro seq member
    obtain ⟨pending, listed, rfl⟩ := List.mem_map.mp member
    have bound := OrderedMap.mem_toList.mp (List.mem_of_mem_take listed)
    rw [← ExtTreeMap.isSome_getElem?_eq_contains, bound]
    rfl
  · rw [List.length_map, size]
    omega

end RecipientState

namespace MemStore

open RecipientState (toDrop dropCounted)

theorem queued_of_some {state : MemStore} {recipient : String} {entry : RecipientState}
    (known : state[recipient]? = some entry) : state.queued recipient = entry.messages := by
  rw [queued, entryOf_of_some known]

theorem queued_of_none {state : MemStore} {recipient : String} (unknown : state[recipient]? = none) :
    state.queued recipient = [] := by
  rw [queued, entryOf_of_none unknown]
  simp [RecipientState.messages]

theorem queued_insert (state : MemStore) (recipient other : String) (entry : RecipientState) :
    queued (state.insert recipient entry) other = if recipient = other then entry.messages else state.queued other := by
  rw [queued, entryOf_insert]
  split <;> rfl

/-- A purge takes a share of the front of every queue; together the shares fill the batch, or all fronts are taken. -/
structure Shared (nowMs target : Nat) (recipients : List String) (before after : MemStore × Nat) (shares : String → Nat) :
    Prop where
  within : ∀ recipient, shares recipient ≤ (front (late nowMs) (before.1.queued recipient)).length
  taken : ∀ recipient, after.1.queued recipient = (before.1.queued recipient).drop (shares recipient)
  elsewhere : ∀ recipient, recipient ∉ recipients → shares recipient = 0
  known : ∀ recipient : String, after.1.contains recipient = before.1.contains recipient
  counted : after.2 = before.2 + (recipients.map shares).sum
  removed : after.2 =
    min target (before.2 + (recipients.map (fun recipient => (front (late nowMs) (before.1.queued recipient)).length)).sum)

theorem purgeRecipients_shared (nowMs target : Nat) {recipients : List String} (distinct : recipients.Nodup)
    {state : MemStore} {removed : Nat} (begun : removed ≤ target) :
    ∃ shares,
      Shared nowMs target recipients (state, removed)
        (purgeRecipients nowMs target recipients (state, removed)) shares := by
  induction recipients generalizing state removed with
  | nil =>
    refine ⟨fun _ => 0, fun _ => Nat.zero_le _, fun _ => rfl, fun _ _ => rfl, fun _ => rfl, rfl, ?_⟩
    exact (Nat.min_eq_right begun).symm
  | cons recip rest ih =>
    obtain ⟨fresh, later⟩ := List.nodup_cons.mp distinct
    rw [purgeRecipients]
    by_cases full : removed ≥ target
    · rw [if_pos full]
      refine ⟨fun _ => 0, fun _ => Nat.zero_le _, fun _ => rfl, fun _ _ => rfl, fun _ => rfl, ?_, ?_⟩
      · simp
      · change removed = _
        omega
    · rw [if_neg full]
      have room : removed < target := Nat.not_le.mp full
      cases known : state[recip]? with
      | none =>
        have empty : (front (late nowMs) (state.queued recip)).length = 0 := by
          rw [queued_of_none known]
          rfl
        obtain ⟨shares, spec⟩ := ih later begun
        have own : shares recip = 0 := spec.elsewhere recip fresh
        refine ⟨shares, spec.within, spec.taken, ?_, spec.known, ?_, ?_⟩
        · exact fun recipient outside => spec.elsewhere recipient (fun member => outside (List.mem_cons_of_mem _ member))
        · rw [List.map_cons, List.sum_cons, own, Nat.zero_add]
          exact spec.counted
        · rw [List.map_cons, List.sum_cons, empty, Nat.zero_add]
          exact spec.removed
      | some entry =>
        obtain ⟨left, count⟩ := @RecipientState.purge_entry entry nowMs _ _ room
        rw [← queued_of_some known] at left count
        dsimp only
        generalize dropCounted target (toDrop nowMs removed target entry.queue.toList []) (entry, removed) = next
          at left count ⊢
        obtain ⟨reduced, removed'⟩ := next
        dsimp only at left count ⊢
        have begun' : removed' ≤ target := by omega
        obtain ⟨shares, spec⟩ := @ih later (state.insert recip reduced) removed' begun'
        have own : shares recip = 0 := spec.elsewhere recip fresh
        have others :
            ∀ recipient, recip ≠ recipient → queued (state.insert recip reduced) recipient = state.queued recipient := by
          intro recipient different
          rw [queued_insert, if_neg different]
        refine ⟨fun recipient =>
          if recip = recipient then min (target - removed) (front (late nowMs) (state.queued recip)).length
          else shares recipient, ?_, ?_, ?_, ?_, ?_, ?_⟩
        · intro recipient
          split
          · rename_i same
            rw [← same]
            exact Nat.min_le_right _ _
          · rename_i different
            have within := spec.within recipient
            rwa [others recipient different] at within
        · intro recipient
          have taken := spec.taken recipient
          split
          · rename_i same
            subst same
            rw [taken, own, queued_insert, if_pos rfl, left, List.drop_zero]
          · rename_i different
            rw [taken, others recipient different]
        · intro recipient outside
          have different : recip ≠ recipient := fun same => outside (same ▸ List.mem_cons_self)
          rw [if_neg different]
          exact spec.elsewhere recipient (fun member => outside (List.mem_cons_of_mem _ member))
        · intro recipient
          rw [spec.known, ExtTreeMap.contains_insert]
          by_cases same : recip = recipient
          · subst same
            simp [← ExtTreeMap.isSome_getElem?_eq_contains, known]
          · simp [same]
        · have rest_ : rest.map (fun recipient => if recip = recipient then
              min (target - removed) (front (late nowMs) (state.queued recip)).length else shares recipient) =
              rest.map shares := by
            apply List.map_congr_left
            intro recipient member
            have different : recip ≠ recipient := fun same => fresh (same ▸ member)
            rw [if_neg different]
          rw [spec.counted, List.map_cons, List.sum_cons, if_pos rfl, rest_, count, Nat.add_assoc]
        · have rest_ : rest.map (fun recipient => (front (late nowMs) (queued (state.insert recip reduced) recipient)).length) =
              rest.map (fun recipient => (front (late nowMs) (state.queued recipient)).length) := by
            apply List.map_congr_left
            intro recipient member
            rw [others recipient (fun same => fresh (same ▸ member))]
          have total := spec.removed
          dsimp only at total
          rw [rest_] at total
          rw [total, List.map_cons, List.sum_cons]
          dsimp only
          omega

def overall (measure : List QueueMessage → Nat) (state : MemStore) : Nat :=
  (state.keys.map (fun recipient => measure (state.queued recipient))).sum

abbrev backlog (nowMs : Nat) (state : MemStore) : Nat := state.overall (fun msgs => (msgs.filter (late nowMs)).length)

abbrev inFront (nowMs : Nat) (state : MemStore) : Nat := state.overall (fun msgs => (front (late nowMs) msgs).length)

abbrev stuck (nowMs : Nat) (state : MemStore) : Nat := state.overall (fun msgs => (behind (late nowMs) msgs).length)

/-- In no queue does an expired message stand behind one that has not expired. -/
def Fronted (nowMs : Nat) (state : MemStore) : Prop := ∀ recipient, behind (late nowMs) (state.queued recipient) = []

theorem backlog_split (nowMs : Nat) (state : MemStore) :
    state.backlog nowMs = state.inFront nowMs + state.stuck nowMs := by
  simp only [backlog, inFront, stuck, overall, length_due, List.sum_map_add]

theorem fronted_iff (nowMs : Nat) (state : MemStore) : state.Fronted nowMs ↔ state.stuck nowMs = 0 := by
  rw [stuck, overall, List.sum_eq_zero_iff]
  constructor
  · intro fronted count member
    obtain ⟨recipient, _, rfl⟩ := List.mem_map.mp member
    rw [fronted recipient, List.length_nil]
  · intro none recipient
    cases known : state[recipient]? with
    | none =>
      rw [queued_of_none known]
      rfl
    | some entry =>
      have listed : recipient ∈ state.keys := by
        rw [ExtTreeMap.mem_keys, ExtTreeMap.mem_iff_contains, ← ExtTreeMap.isSome_getElem?_eq_contains, known]
        rfl
      exact List.length_eq_zero_iff.mp (none _ (List.mem_map_of_mem listed))

theorem keys_eq {before after : MemStore}
    (known : ∀ recipient : String, after.contains recipient = before.contains recipient) :
    after.keys = before.keys := by
  have sorted : ∀ state : MemStore, state.keys.Pairwise (fun a b => compare a b = .lt) :=
    fun state => ExtTreeMap.ordered_keys
  apply @OrderedMap.sorted_unique _ compare _ _ id _ _ (sorted after) (sorted before)
  intro recipient
  rw [ExtTreeMap.mem_keys, ExtTreeMap.mem_keys, ExtTreeMap.mem_iff_contains, ExtTreeMap.mem_iff_contains, known]

/-- What one purge does, in numbers. -/
structure Counted (nowMs max : Nat) (before after : MemStore) : Prop where
  shares : ∃ shares : String → Nat,
    (∀ recipient, shares recipient ≤ (front (late nowMs) (before.queued recipient)).length) ∧
    ∀ recipient, after.queued recipient = (before.queued recipient).drop (shares recipient)
  known : ∀ recipient : String, after.contains recipient = before.contains recipient
  length : before.overall List.length = after.overall List.length + min (min max gcBatchLimit) (before.inFront nowMs)
  inFront : before.inFront nowMs = after.inFront nowMs + min (min max gcBatchLimit) (before.inFront nowMs)
  stuck : after.stuck nowMs = before.stuck nowMs

theorem purge_counted (order : HashOrder) (nowMs max : Nat) (state : MemStore) :
    (purgeExpired order nowMs max state).1 = .ok (min (min max gcBatchLimit) (state.inFront nowMs)) ∧
      Counted nowMs max state (purgeExpired order nowMs max state).2 := by
  have distinct : state.keys.Nodup := ExtTreeMap.nodup_keys
  obtain ⟨shares, spec⟩ := @purgeRecipients_shared nowMs (min max gcBatchLimit) _ distinct state 0 (Nat.zero_le _)
  have removed : (purgeRecipients nowMs (min max gcBatchLimit) state.keys (state, 0)).2 =
      min (min max gcBatchLimit) (state.inFront nowMs) := by
    rw [spec.removed, Nat.zero_add]
    rfl
  have total : (state.keys.map shares).sum = min (min max gcBatchLimit) (state.inFront nowMs) := by
    rw [← removed, spec.counted, Nat.zero_add]
  have keys : (purgeExpired order nowMs max state).2.keys = state.keys := keys_eq spec.known
  have taken : ∀ recipient, (purgeExpired order nowMs max state).2.queued recipient =
      (state.queued recipient).drop (shares recipient) := spec.taken
  have within : ∀ recipient, shares recipient ≤ (front (late nowMs) (state.queued recipient)).length := spec.within
  refine ⟨congrArg Except.ok removed, ⟨shares, within, taken⟩, spec.known, ?_, ?_, ?_⟩
  · rw [← total, overall, overall, keys, ← List.sum_map_add]
    congr 1
    apply List.map_congr_left
    intro recipient _
    have short := Nat.le_trans (within recipient) front_le_length
    rw [taken, List.length_drop]
    omega
  · rw [← total, MemStore.inFront, MemStore.inFront, overall, overall, keys, ← List.sum_map_add]
    congr 1
    apply List.map_congr_left
    intro recipient _
    rw [taken, length_front_drop (within recipient)]
  · rw [MemStore.stuck, MemStore.stuck, overall, overall, keys]
    congr 1
    apply List.map_congr_left
    intro recipient _
    rw [taken, behind_drop (within recipient)]

/-- A purge takes as many expired messages as a batch holds, with all that belongs to them, and nothing else. -/
structure Sweeps (state : MemStore) (order : HashOrder) (nowMs max : Nat) : Prop where
  answer : (purgeExpired order nowMs max state).1 = .ok (min (min max gcBatchLimit) (state.backlog nowMs))
  length : state.overall List.length = (purgeExpired order nowMs max state).2.overall List.length +
    min (min max gcBatchLimit) (state.backlog nowMs)
  removed : ∀ recipient, ∃ keep : QueueMessage → Bool,
    (purgeExpired order nowMs max state).2.queued recipient = (state.queued recipient).filter keep ∧
    ∀ msg ∈ state.queued recipient, keep msg = false → msg.deadlineMs ≤ nowMs
  coherent : (purgeExpired order nowMs max state).2.Coherent
  charged : ∀ recipient, ((purgeExpired order nowMs max state).2.entryOf recipient).Charged
  seq : ∀ recipient, ((purgeExpired order nowMs max state).2.entryOf recipient).seq = (state.entryOf recipient).seq
  known : ∀ recipient : String, (purgeExpired order nowMs max state).2.contains recipient = state.contains recipient

def again (order : HashOrder) (nowMs max times : Nat) (state : MemStore) : MemStore :=
  (fun state => (purgeExpired order nowMs max state).2)^[times] state

theorem again_stuck (order : HashOrder) (nowMs max times : Nat) (state : MemStore) :
    (again order nowMs max times state).stuck nowMs = state.stuck nowMs := by
  induction times generalizing state with
  | zero => rfl
  | succ times ih =>
    rw [again, Function.iterate_succ_apply]
    exact (ih _).trans (purge_counted order nowMs max state).2.stuck

/-- Enough purges take all that stands in front. -/
theorem again_inFront (order : HashOrder) (nowMs : Nat) {max : Nat} (positive : 1 ≤ max) (state : MemStore) :
    ∃ times, (again order nowMs max times state).inFront nowMs = 0 := by
  induction size : state.inFront nowMs using Nat.strong_induction_on generalizing state with
  | _ count ih =>
    by_cases none : count = 0
    · exact ⟨0, size.trans none⟩
    · have counted := (purge_counted order nowMs max state).2.inFront
      have batch : 1 ≤ min max gcBatchLimit := Nat.le_min.mpr ⟨positive, by decide⟩
      obtain ⟨times, cleared⟩ := ih ((purgeExpired order nowMs max state).2.inFront nowMs) (by omega) _ rfl
      refine ⟨times + 1, ?_⟩
      rw [again, Function.iterate_succ_apply]
      exact cleared

theorem Exact.sweeps_iff {limits : RelayLimits} {state : MemStore} (exact : state.Exact limits) (order : HashOrder)
    (nowMs max : Nat) :
    state.Sweeps order nowMs max ↔ state.Fronted nowMs ∨ min max gcBatchLimit ≤ state.inFront nowMs := by
  obtain ⟨answered, counted⟩ := purge_counted order nowMs max state
  have split := backlog_split nowMs state
  rw [fronted_iff]
  constructor
  · intro sweeps
    have same := sweeps.answer
    rw [answered] at same
    have numbers := Except.ok.inj same
    omega
  · intro condition
    have numbers :
        min (min max gcBatchLimit) (state.backlog nowMs) = min (min max gcBatchLimit) (state.inFront nowMs) := by
      omega
    have reduced := purgeRecipients_reduces nowMs max (min max gcBatchLimit) state.keys state 0
    constructor
    · rw [numbers]
      exact answered
    · rw [numbers]
      exact counted.length
    · exact fun recipient => (reduced recipient).messages (exact.coherent recipient)
    · intro recipient
      obtain ⟨dropped, same, _⟩ := reduced recipient
      have entry :
          (purgeExpired order nowMs max state).2.entryOf recipient = (state.entryOf recipient).dropAll dropped := same
      rw [entry]
      exact (exact.coherent recipient).dropAll dropped
    · exact fun recipient => exact.reduces (reduced recipient)
    · exact fun recipient => (reduced recipient).seq
    · exact counted.known

theorem cleared_iff (order : HashOrder) (nowMs : Nat) {max : Nat} (positive : 1 ≤ max) (state : MemStore) :
    (∃ times, (again order nowMs max times state).backlog nowMs = 0) ↔ state.Fronted nowMs := by
  rw [fronted_iff]
  constructor
  · rintro ⟨times, cleared⟩
    rw [backlog_split, again_stuck] at cleared
    omega
  · intro none
    obtain ⟨times, cleared⟩ := again_inFront order nowMs positive state
    refine ⟨times, ?_⟩
    rw [backlog_split, again_stuck, cleared, none]

/-- In every state that calls to the store can lead to, a purge takes all it should exactly when what it
    should take stands in front, and purges in a row leave nothing expired exactly when nothing is stuck. -/
theorem purge_law_iff [Base64] {limits : RelayLimits} (bytesCap : limits.maxQueueBytesPerUser < 2 ^ 64 - 1)
    {calls : List (Call × HashOrder)} (few : Few limits calls) (order : HashOrder) (nowMs : Nat) :
    (∀ max, (final (next limits) new calls).Sweeps order nowMs max ↔
      (final (next limits) new calls).Fronted nowMs ∨
        min max gcBatchLimit ≤ (final (next limits) new calls).inFront nowMs) ∧
    ∀ max, 1 ≤ max → ((∃ times, (again order nowMs max times (final (next limits) new calls)).backlog nowMs = 0) ↔
      (final (next limits) new calls).Fronted nowMs) :=
  ⟨fun max => (run_exact limits bytesCap few).1.sweeps_iff order nowMs max,
    fun _ positive => cleared_iff order nowMs positive _⟩

def overtakenPushes : List (Call × HashOrder) :=
  [(.push (sample "alice" 1 1 61 3), .asListed), (.push (sample "alice" 2 0 60 4), .asListed)]

theorem purge_law_iff_sample :
    (final (next sampleLimits) new overtakenPushes).Sweeps .asListed 61 1024 ↔
      (final (next sampleLimits) new overtakenPushes).Fronted 61 ∨
        min 1024 gcBatchLimit ≤ (final (next sampleLimits) new overtakenPushes).inFront 61 :=
  (purge_law_iff (by decide) (HitsBelow.of_length (by decide)) .asListed 61).1 1024

theorem purge_stops_early :
    ¬ (final (next sampleLimits) new overtakenPushes).Sweeps .asListed 60 1024 ∧
      ∀ times, (again .asListed 60 1024 times (final (next sampleLimits) new overtakenPushes)).backlog 60 ≠ 0 := by
  have stands : (final (next sampleLimits) new overtakenPushes).stuck 60 = 1 := by decide +kernel
  constructor
  · intro sweeps
    have answered : (purgeExpired .asListed 60 1024 (final (next sampleLimits) new overtakenPushes)).1 = .ok 0 := by
      decide +kernel
    have expected : (final (next sampleLimits) new overtakenPushes).backlog 60 = 1 := by decide +kernel
    have same := sweeps.answer
    rw [answered, expected] at same
    exact absurd (Except.ok.inj same) (by decide)
  · intro times
    rw [backlog_split, again_stuck, stands]
    omega

end MemStore

end EnigmaRelay
