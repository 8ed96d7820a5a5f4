import EnigmaRelay.Model.PurgeSteps

open Std Machine

namespace EnigmaRelay.SledStore

variable [MessageIter]

/-- A purge that runs alone: what its iterator has met is behind it, or still there. -/
structure Collecting.Reading (state : Collecting) (seen : List (Tree QueueMessage)) : Prop where
  cursor : state.purge.entries = TreeIter.reached seen
  covers : TreeIter.Covers seen (fun entry => state.store.messages[entry.1]? = some entry.2)
  hand : ∀ key msg, state.purge.phase = .removeMessage key msg → TreeIter.passed seen key = true

theorem Collecting.Reading.start (order : HashOrder) (nowMs max : Nat) (store : SledStore) :
    (Collecting.start order nowMs max store).Reading [] :=
  ⟨rfl, .nil, by simp [Collecting.start, PurgeRun.start]⟩

section Reading

variable {run : PurgeRun} {store : SledStore} {seen : List (Tree QueueMessage)}

theorem Collecting.Reading.there (lawful : TreeIter.Lawful Bytes QueueMessage compare)
    (reading : Collecting.Reading ⟨store, run⟩ seen) {key : Bytes} {msg : QueueMessage}
    (found : (TreeIter.next run.entries store.messages).1 = some (key, msg)) : store.messages[key]? = some msg := by
  have cursor : run.entries = _ := reading.cursor
  rw [cursor] at found
  exact lawful.covered reading.covers (fun _ _ present => .inr present) found

variable [UuidText]

theorem Collecting.Reading.purge (reading : Collecting.Reading ⟨store, run⟩ seen) :
    ∃ more, Collecting.Reading ⟨(run.step store).2, (run.step store).1⟩ more := by
  cases phase : run.phase with
  | next =>
    have cursor : run.entries = _ := reading.cursor
    have moved : (TreeIter.next run.entries store.messages).2 = TreeIter.reached (seen ++ [store.messages]) := by
      rw [cursor, TreeIter.reached_snoc]
    have covers : TreeIter.Covers (seen ++ [store.messages])
        (fun entry => store.messages[entry.1]? = some entry.2) :=
      reading.covers.read (fun _ _ present => .inr present) (fun _ there => .inl there)
    refine ⟨seen ++ [store.messages], ?_⟩
    rcases run.next_cases phase store with ⟨_, stepped⟩ | ⟨key, msg, found, _, ⟨_, stepped⟩ | ⟨_, stepped⟩⟩
    · rw [stepped]
      exact ⟨moved, covers, by simp⟩
    · rw [stepped]
      exact ⟨moved, covers, by simp [phase]⟩
    · rw [stepped]
      refine ⟨moved, covers, ?_⟩
      intro key' msg' same
      cases same
      rw [cursor] at found
      exact TreeIter.passed_self found
  | removeMessage key msg =>
    have behind := reading.hand key msg phase
    rw [PurgeRun.step, phase]
    refine ⟨seen, reading.cursor, ?_, by simp⟩
    intro met member other value bound
    rcases reading.covers met member other value bound with passed | there
    · exact .inl passed
    · by_cases same : key = other
      · exact .inl (same ▸ behind)
      · right
        change (store.messages.erase key)[other]? = some value
        rw [OrderedMap.getElem?_erase, if_neg same]
        exact there
  | removeIndex msg =>
    rw [PurgeRun.step, phase]
    exact ⟨seen, reading.cursor, reading.covers, by simp⟩
  | readQuota msg =>
    rw [PurgeRun.step, phase]
    exact ⟨seen, reading.cursor, reading.covers, by simp⟩
  | writeBack pending =>
    rw [PurgeRun.step, phase]
    cases pending with
    | nil => exact ⟨seen, reading.cursor, reading.covers, by simp⟩
    | cons first rest => exact ⟨seen, reading.cursor, reading.covers, by simp⟩
  | finished removed =>
    rw [PurgeRun.step, phase]
    exact ⟨seen, reading⟩

end Reading

variable [UuidText] (limits : RelayLimits)

def uninterrupted (operations : Nat) (state : Collecting) : Collecting :=
  final (Collecting.step limits) state (List.replicate operations .purge)

theorem uninterrupted_succ (operations : Nat) (state : Collecting) :
    uninterrupted limits (operations + 1) state =
      uninterrupted limits operations ⟨(state.purge.step state.store).2, (state.purge.step state.store).1⟩ := rfl

theorem uninterrupted_add (first second : Nat) (state : Collecting) :
    uninterrupted limits (first + second) state = uninterrupted limits second (uninterrupted limits first state) := by
  rw [uninterrupted, List.replicate_add, final_append]
  rfl

theorem scan_alone (lawful : TreeIter.Lawful Bytes QueueMessage compare) {entries : List (Bytes × QueueMessage)}
    {seen : List (Tree QueueMessage)} {run : PurgeRun} {store : SledStore} (phase : run.phase = .next)
    (cursor : run.entries = TreeIter.reached seen) (alone : TreeIter.Alone seen store.messages)
    (rest : TreeIter.ahead seen store.messages = entries) :
    let result := purgeScan run.nowMs run.target entries { store := store, quotas := run.quotas, removed := run.removed }
    ∃ operations last, uninterrupted limits operations ⟨store, run⟩ =
      ⟨result.store, { run with entries := last, removed := result.removed, quotas := result.quotas,
                                phase := .writeBack (writeBacks run.order result.quotas) }⟩ := by
  induction entries generalizing seen run store with
  | nil =>
    have ended : TreeIter.following seen store.messages = none := by
      rw [lawful.following_alone alone, rest, List.head?_nil]
    rcases run.next_cases phase store with ⟨_, stepped⟩ | ⟨key, msg, found, _⟩
    · refine ⟨1, (TreeIter.next run.entries store.messages).2, ?_⟩
      rw [uninterrupted_succ, stepped]
      rfl
    · rw [cursor] at found
      exact absurd (ended.symm.trans found) (Option.some_ne_none _).symm
  | cons entry later ih =>
    obtain ⟨key, msg⟩ := entry
    have next : TreeIter.following seen store.messages = some (key, msg) := by
      rw [lawful.following_alone alone, rest, List.head?_cons]
    have behind : TreeIter.passed (seen ++ [store.messages]) key = true := TreeIter.passed_self next
    have onward := TreeIter.ahead_snoc rest next
    have moved : (TreeIter.next run.entries store.messages).2 = TreeIter.reached (seen ++ [store.messages]) := by
      rw [cursor, TreeIter.reached_snoc]
    rw [purgeScan]
    rcases run.next_cases phase store with ⟨ended | full, stepped⟩ | ⟨_, _, found, room, read⟩
    · rw [cursor] at ended
      exact absurd (ended.symm.trans next) (Option.some_ne_none _).symm
    · refine ⟨1, (TreeIter.next run.entries store.messages).2, ?_⟩
      rw [uninterrupted_succ, stepped, if_pos full]
      rfl
    · rw [cursor] at found
      cases Option.some.inj (next.symm.trans found)
      rw [if_neg (Nat.not_le.mpr room)]
      rcases read with ⟨fresh, stepped⟩ | ⟨expired, stepped⟩
      · obtain ⟨operations, last, reached⟩ :=
          @ih (seen ++ [store.messages]) { run with entries := (TreeIter.next run.entries store.messages).2 } store
            phase moved (alone.read (fun _ _ => rfl)) onward
        refine ⟨operations + 1, last, ?_⟩
        rw [uninterrupted_succ, stepped, if_pos fresh]
        exact reached
      · -- four operations take the message, and the rest of the entries stay as they are
        let current : PurgeState := { store := store, quotas := run.quotas, removed := run.removed }
        have remaining : TreeIter.ahead (seen ++ [store.messages]) (current.remove key msg).store.messages = later := by
          rw [← onward]
          exact TreeIter.ahead_erase behind
        have untouched : TreeIter.Alone (seen ++ [store.messages]) (current.remove key msg).store.messages := by
          apply alone.read
          intro other ahead
          change (store.messages.erase key)[other]? = _
          rw [OrderedMap.getElem?_erase, if_neg]
          rintro rfl
          rw [behind] at ahead
          cases ahead
        obtain ⟨operations, last, reached⟩ := @ih (seen ++ [store.messages])
          { run with
            entries := (TreeIter.next run.entries store.messages).2
            removed := run.removed + 1
            quotas := (current.remove key msg).quotas
            phase := .next }
          (current.remove key msg).store rfl moved untouched remaining
        refine ⟨operations + 4, last, ?_⟩
        simp only [if_neg (Nat.not_lt.mpr expired)]
        rw [uninterrupted_succ, stepped]
        exact reached

theorem writeBack_alone {pending : List (String × QuotaValue)} {run : PurgeRun} {store : SledStore}
    (phase : run.phase = .writeBack pending) :
    ∃ operations, uninterrupted limits operations ⟨store, run⟩ =
      ⟨{ store with quota := pending.foldl (fun quota entry => quota.insert (quotaKey entry.1) entry.2) store.quota },
        { run with phase := .finished run.removed }⟩ := by
  induction pending generalizing run store with
  | nil =>
    refine ⟨1, ?_⟩
    rw [uninterrupted_succ, PurgeRun.step, phase]
    rfl
  | cons entry rest ih =>
    obtain ⟨recipient, quotaValue⟩ := entry
    obtain ⟨operations, reached⟩ := @ih { run with phase := .writeBack rest }
      { store with quota := store.quota.insert (quotaKey recipient) quotaValue } rfl
    refine ⟨operations + 1, ?_⟩
    rw [uninterrupted_succ, PurgeRun.step, phase]
    exact reached

/-- Left alone, the operations of a purge come to an end and do what the whole method does. -/
theorem purge_alone (lawful : TreeIter.Lawful Bytes QueueMessage compare) (order : HashOrder) (nowMs max : Nat)
    (store : SledStore) :
    ∃ operations removed,
      (uninterrupted limits operations (.start order nowMs max store)).store = (purgeExpired order nowMs max store).2 ∧
      (uninterrupted limits operations (.start order nowMs max store)).purge.phase = .finished removed ∧
      (purgeExpired order nowMs max store).1 = .ok removed := by
  have whole : TreeIter.ahead [] store.messages = store.messages.toList := List.filter_eq_self.mpr (fun _ _ => rfl)
  have started : (PurgeRun.start order nowMs max).phase = .next := rfl
  obtain ⟨first, last, scanned⟩ := scan_alone limits lawful started rfl .nil whole
  obtain ⟨second, written⟩ := @writeBack_alone _ _ limits _
    { PurgeRun.start order nowMs max with
      entries := last
      removed := _
      quotas := _
      phase := .writeBack _ } _ rfl
  refine ⟨first + second, _, ?_, ?_, rfl⟩
  · rw [uninterrupted_add, Collecting.start, scanned, written]
    rfl
  · rw [uninterrupted_add, Collecting.start, scanned, written]
    rfl

end EnigmaRelay.SledStore
