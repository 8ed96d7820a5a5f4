import EnigmaRelay.Sled.PurgeExact

open Std Machine

namespace EnigmaRelay.SledStore

section Iteration

variable [MessageIter]

/-- The purge has removed nothing yet, or has written all it owes back. -/
def PurgeRun.settled (run : PurgeRun) : Bool :=
  match run.phase with
  | .next => run.removed = 0
  | .removeMessage _ _ => run.removed = 0
  | .removeIndex _ => false
  | .readQuota _ => false
  | .writeBack pending => pending.isEmpty
  | .finished _ => true

section Trees

variable [UuidText]

/-- What a purge has done so far when no other call runs beside it. -/
structure Collecting.Underway (state : Collecting) : Prop where
  books : state.Books
  behind : ∀ recipient value, state.purge.held recipient = some value →
    value.count < (readQuota state.store.quota recipient).count
  idle : state.purge.removed = 0 ↔ ∀ recipient : String, state.purge.quotas[recipient]? = none
  present : ∀ key msg, state.purge.phase = .removeMessage key msg → state.store.messages[key]? = some msg
  indexed : (∀ msg, state.purge.phase ≠ .removeIndex msg) → Indexed state.store.messages state.store.index
  gone : ∀ msg, state.purge.phase = .removeIndex msg →
    Indexed state.store.messages (state.store.index.erase (itemKey msg.recipient msg.ackItem))
  reading : ∃ seen, state.Reading seen

theorem Collecting.Underway.start {store : SledStore} (agreed : store.Agreed) (order : HashOrder) (nowMs max : Nat) :
    (Collecting.start order nowMs max store).Underway := by
  have nothing : ∀ recipient : String, (∅ : ExtTreeMap String QuotaValue compare)[recipient]? = none := by simp
  refine ⟨.start agreed.keyed agreed.quota order nowMs max, ?_, ?_, by simp [Collecting.start, PurgeRun.start],
    fun _ => agreed.indexed, by simp [Collecting.start, PurgeRun.start], [], .start order nowMs max store⟩
  · intro recipient value held
    have none : (∅ : ExtTreeMap String QuotaValue compare)[recipient]? = some value := held
    rw [nothing] at none
    cases none
  · exact ⟨fun _ => nothing, fun _ => rfl⟩

theorem Collecting.Underway.next (lawful : TreeIter.Lawful Bytes QueueMessage compare) {run : PurgeRun}
    {store : SledStore} (underway : Collecting.Underway ⟨store, run⟩) (phase : run.phase = .next) :
    Collecting.Underway ⟨(run.step store).2, (run.step store).1⟩ := by
  obtain ⟨seen, reading⟩ := underway.reading
  have books := underway.books.purge (reading.takes lawful)
  have onward := reading.purge
  have aligned : Indexed store.messages store.index := underway.indexed (by simp [phase])
  have behind : ∀ recipient value, run.quotas[recipient]? = some value →
      value.count < (readQuota store.quota recipient).count := by
    intro recipient value cached
    apply underway.behind recipient value
    simp only [PurgeRun.held, phase]
    exact cached
  rcases run.next_cases phase store with ⟨_, stepped⟩ | ⟨key, msg, found, _, ⟨_, stepped⟩ | ⟨_, stepped⟩⟩
  · rw [stepped] at books onward ⊢
    refine ⟨books, ?_, underway.idle, by simp, fun _ => aligned, by simp, onward⟩
    intro recipient value held
    change (writeBacks run.order run.quotas).lookup recipient = some value at held
    rw [lookup_writeBacks] at held
    exact behind recipient value held
  · rw [stepped] at books onward ⊢
    refine ⟨books, ?_, underway.idle, by simp [phase], fun _ => aligned, by simp [phase], onward⟩
    intro recipient value held
    simp only [PurgeRun.held, phase] at held
    exact behind recipient value held
  · rw [stepped] at books onward ⊢
    refine ⟨books, behind, underway.idle, ?_, fun _ => aligned, by simp, onward⟩
    intro other read same
    cases same
    exact reading.there lawful found

/-- One operation of the purge. -/
theorem Collecting.Underway.purge (lawful : TreeIter.Lawful Bytes QueueMessage compare) {run : PurgeRun}
    {store : SledStore} (underway : Collecting.Underway ⟨store, run⟩) :
    Collecting.Underway ⟨(run.step store).2, (run.step store).1⟩ := by
  obtain ⟨seen, reading⟩ := underway.reading
  have books := underway.books.purge (reading.takes lawful)
  have onward := reading.purge
  obtain ⟨nowMs, target, order, entries, removed, quotas, phase⟩ := run
  obtain ⟨before, behind, idle, present, indexed, gone, _⟩ := underway
  cases phase with
  | next => exact Collecting.Underway.next lawful ⟨before, behind, idle, present, indexed, gone, seen, reading⟩ rfl
  | removeMessage key msg =>
    have here : store.messages[key]? = some msg := present key msg rfl
    have own := (before.keyed key msg here).1
    subst own
    refine ⟨books, behind, idle, by simp [PurgeRun.step], fun free => absurd rfl (free msg), ?_, onward⟩
    intro found same
    cases same
    exact (indexed (by simp)).erase before.keyed here
  | removeIndex msg =>
    exact ⟨books, behind, idle, by simp [PurgeRun.step], fun _ => gone msg rfl, by simp [PurgeRun.step],
      onward⟩
  | readQuota msg =>
    refine ⟨books, ?_, ?_, by simp [PurgeRun.step], fun _ => indexed (by simp), by simp [PurgeRun.step], onward⟩
    · intro recipient value held
      change (quotas.insert msg.recipient ((cachedQuota quotas store msg.recipient).refund msg))[recipient]? =
        some value at held
      change value.count < (readQuota store.quota recipient).count
      rw [OrderedMap.getElem?_insert] at held
      split at held
      · rename_i same
        subst same
        have covered : 1 ≤ (cachedQuota quotas store msg.recipient).count := (before.covers rfl).1
        have lower : (cachedQuota quotas store msg.recipient).count ≤ (readQuota store.quota msg.recipient).count := by
          rw [cachedQuota]
          split
          · rename_i cached found
            exact Nat.le_of_lt (behind msg.recipient cached found)
          · exact Nat.le_refl _
        rw [← Option.some.inj held]
        change (cachedQuota quotas store msg.recipient).count - 1 < _
        omega
      · exact behind recipient value held
    · constructor
      · simp [PurgeRun.step]
      · intro nothing
        have cached :
            (quotas.insert msg.recipient ((cachedQuota quotas store msg.recipient).refund msg))[msg.recipient]? =
            none := nothing msg.recipient
        rw [OrderedMap.getElem?_insert, if_pos rfl] at cached
        cases cached
  | writeBack entries =>
    cases entries with
    | nil =>
      exact ⟨books, by simp [PurgeRun.step, PurgeRun.held], idle, by simp [PurgeRun.step], fun _ => indexed (by simp),
        by simp [PurgeRun.step], onward⟩
    | cons entry rest =>
      obtain ⟨name, value⟩ := entry
      obtain ⟨fresh, _⟩ := List.nodup_cons.mp (before.pending _ rfl)
      refine ⟨books, ?_, idle, by simp [PurgeRun.step], fun _ => indexed (by simp), by simp [PurgeRun.step], onward⟩
      intro recipient other held
      have later : rest.lookup recipient = some other := held
      change other.count < (readQuota (store.quota.insert (quotaKey name) value) recipient).count
      have different : name ≠ recipient := by
        rintro rfl
        rw [lookup_eq_none fresh] at later
        cases later
      have same : ((name, value) :: rest).lookup recipient = some other := by
        rw [List.lookup_cons, beq_eq_false_iff_ne.mpr (Ne.symm different)]
        exact later
      rw [readQuota_insert, if_neg different]
      exact behind recipient other same
  | finished count => exact ⟨books, behind, idle, present, indexed, gone, onward⟩

theorem Collecting.Underway.quota_iff {state : Collecting} (underway : state.Underway) (recipient : String) :
    readQuota state.store.quota recipient = total (stored state.store.messages recipient) ↔
      state.purge.held recipient = none ∧ state.owed recipient = [] := by
  have balanced := underway.books.balanced recipient
  rw [booked] at balanced
  constructor
  · intro exactly
    cases held : state.purge.held recipient with
    | none =>
      rw [held, Option.getD_none, exactly] at balanced
      have counts := congrArg QuotaValue.count balanced
      simp only [total, List.length_append] at counts
      exact ⟨rfl, List.length_eq_zero_iff.mp (by omega)⟩
    | some value =>
      rw [held, Option.getD_some] at balanced
      have less := underway.behind recipient value held
      rw [exactly, balanced] at less
      simp only [total, List.length_append] at less
      omega
  · rintro ⟨free, nothing⟩
    rw [free, nothing] at balanced
    exact balanced

theorem Collecting.Underway.agreed_iff {state : Collecting} (underway : state.Underway) :
    state.store.Agreed ↔ state.purge.settled = true := by
  have quota := underway.quota_iff
  have keyed := underway.books.keyed
  constructor
  · intro agreed
    have nothing : ∀ recipient, state.purge.held recipient = none ∧ state.owed recipient = [] :=
      fun recipient => (quota recipient).mp (agreed.quota recipient)
    rw [PurgeRun.settled]
    cases phase : state.purge.phase with
    | next =>
      simp only [PurgeRun.held, phase] at nothing
      exact decide_eq_true (underway.idle.mpr (fun recipient => (nothing recipient).1))
    | removeMessage key msg =>
      simp only [PurgeRun.held, phase] at nothing
      exact decide_eq_true (underway.idle.mpr (fun recipient => (nothing recipient).1))
    | removeIndex msg =>
      have charged : state.owed msg.recipient = [msg] := by simp [owed, phase]
      rw [(nothing msg.recipient).2] at charged
      cases charged
    | readQuota msg =>
      have charged : state.owed msg.recipient = [msg] := by simp [owed, phase]
      rw [(nothing msg.recipient).2] at charged
      cases charged
    | writeBack pending =>
      cases pending with
      | nil => rfl
      | cons entry rest =>
        have held := (nothing entry.1).1
        rw [PurgeRun.held, phase] at held
        simp at held
    | finished removed => rfl
  · intro settled
    have nothing : ∀ recipient, state.purge.held recipient = none ∧ state.owed recipient = [] := by
      intro recipient
      rw [PurgeRun.settled] at settled
      rw [PurgeRun.held, owed]
      cases phase : state.purge.phase with
      | next =>
        simp only [phase, decide_eq_true_eq] at settled
        exact ⟨underway.idle.mp settled recipient, rfl⟩
      | removeMessage key msg =>
        simp only [phase, decide_eq_true_eq] at settled
        refine ⟨underway.idle.mp settled recipient, if_neg ?_⟩
        rintro ⟨_, missing⟩
        rw [underway.present key msg phase] at missing
        cases missing
      | removeIndex msg => simp [phase] at settled
      | readQuota msg => simp [phase] at settled
      | writeBack pending =>
        simp only [phase, List.isEmpty_iff] at settled
        subst settled
        exact ⟨rfl, rfl⟩
      | finished removed => exact ⟨rfl, rfl⟩
    refine ⟨keyed, underway.indexed ?_, fun recipient => (quota recipient).mpr (nothing recipient)⟩
    intro msg phase
    rw [PurgeRun.settled, phase] at settled
    cases settled

variable (limits : RelayLimits)

theorem Collecting.Underway.uninterrupted (lawful : TreeIter.Lawful Bytes QueueMessage compare) {state : Collecting}
    (underway : state.Underway) (operations : Nat) :
    (SledStore.uninterrupted limits operations state).Underway := by
  induction operations generalizing state with
  | zero => exact underway
  | succ operations ih =>
    rw [uninterrupted_succ]
    exact ih (underway.purge lawful)

/-- The trees that a purge leaves when the operation after so many returns an error. -/
def failedPurge (operations : Nat) (order : HashOrder) (nowMs max : Nat) (store : SledStore) : Option SledStore :=
  let state := uninterrupted limits operations (.start order nowMs max store)
  if state.purge.fallible then some state.store else none

theorem failedPurge_of_fallible {operations : Nat} {order : HashOrder} {nowMs max : Nat} {store : SledStore}
    (fallible : (uninterrupted limits operations (.start order nowMs max store)).purge.fallible = true) :
    failedPurge limits operations order nowMs max store =
      some (uninterrupted limits operations (.start order nowMs max store)).store := if_pos fallible

/-- A purge that fails leaves trees that agree exactly when it had removed nothing, or had nothing left to write back. -/
theorem failed_purge_agrees_iff (lawful : TreeIter.Lawful Bytes QueueMessage compare) {store left : SledStore}
    (agreed : store.Agreed) {operations : Nat} {order : HashOrder} {nowMs max : Nat}
    (failed : failedPurge limits operations order nowMs max store = some left) :
    left.Agreed ↔ (uninterrupted limits operations (.start order nowMs max store)).purge.settled = true := by
  have underway := (Collecting.Underway.start agreed order nowMs max).uninterrupted limits lawful operations
  rw [failedPurge] at failed
  split at failed
  · rw [← Option.some.inj failed]
    exact underway.agreed_iff
  · cases failed

end Trees

end Iteration

theorem failed_purge_agrees_iff_sample :
    (uninterrupted sampleLimits 1 (.start .asListed 10 1024 sampleStore)).store.Agreed ↔
      (uninterrupted sampleLimits 1 (.start .asListed 10 1024 sampleStore)).purge.settled = true :=
  failed_purge_agrees_iff sampleLimits TreeIter.oneLeaf_lawful sampleStore_agreed
    (failedPurge_of_fallible sampleLimits (by decide +kernel))

/-- The message is gone when the removal of its index entry fails. -/
theorem failed_purge_disagrees :
    sampleStore.Agreed ∧ ∃ left, failedPurge sampleLimits 3 .asListed 10 1024 sampleStore = some left ∧
      ¬ left.Agreed := by
  refine ⟨sampleStore_agreed, _, failedPurge_of_fallible sampleLimits (by decide +kernel), ?_⟩
  intro agreed
  exact absurd (agreed.quota "a:b") (by decide +kernel)

end EnigmaRelay.SledStore
