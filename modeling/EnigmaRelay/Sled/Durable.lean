import EnigmaRelay.Model.Durability
import EnigmaRelay.Model.Standard
import EnigmaRelay.Sled.AckRetry

open Std Machine Durability

namespace EnigmaRelay.SledStore

abbrev Happening := Step Persistent Incident (Option Flushing)

/-- The transaction of this call is run in the step. -/
def Happening.runs (event : Happening) (input : Try) : Prop :=
  ∃ id, event.input = .commit id input ∧ id ∉ event.before.flushing

section Trees

variable [UuidText] {limits : RelayLimits}

section Runs

variable {P : SledStore → Prop} {state : Persistent}

/-- The transaction that is run in the step, if there is one, keeps what the trees have. -/
def Happening.keeps (limits : RelayLimits) (P : SledStore → Prop) (event : Happening) : Prop :=
  ∀ input, event.runs input → P event.before.disk.current → P (tryStep limits event.before.disk.current input).2

theorem Persistent.since_step {place : Nat} (since : state.disk.Since P place) (written : place ≤ state.disk.last)
    {incident : Incident} (keeps : Happening.keeps limits P (taken (Persistent.step limits) state incident)) :
    (state.step limits incident).2.disk.Since P place := by
  cases incident with
  | commit id input =>
    rw [step]
    split
    · exact since
    · rename_i free
      exact since.write (keeps input ⟨id, rfl, free⟩ (since.current written))
  | answer id number =>
    rw [step]
    cases state.flushing[id]? with
    | none => exact since
    | some call =>
      dsimp only
      split
      · split
        · exact since.sync number
        · exact since
      · exact since
  | disconnect id => exact since
  | crash number => exact since.recover number

theorem Persistent.since_run (since : state.disk.Since P 0) {incidents : List Incident}
    (keeps : ∀ event ∈ trace (Persistent.step limits) state incidents, Happening.keeps limits P event) :
    (final (Persistent.step limits) state incidents).disk.Since P 0 := by
  apply @guarded_run _ _ _ (Persistent.step limits) (fun current => current.disk.Since P 0)
    (fun current incident => Happening.keeps limits P (taken (Persistent.step limits) current incident))
    (fun current incident holds kept => since_step holds (Nat.zero_le _) kept) state incidents since
  intro event member
  rw [(trace_event (Persistent.step limits) member).2]
  exact keeps event member

omit [UuidText] in
theorem flushing_erase {flushing : ExtTreeMap Nat Flushing compare} (id other : Nat) :
    (flushing.erase other)[id]? = none ∨ (flushing.erase other)[id]? = flushing[id]? := by
  rw [OrderedMap.getElem?_erase]
  split
  · exact .inl rfl
  · exact .inr rfl

theorem Persistent.step_flushing {id : Nat} (incident : Incident) (single : ∀ input, incident ≠ .commit id input) :
    (state.step limits incident).2.flushing[id]? = none ∨
      ((state.step limits incident).2.flushing[id]? = state.flushing[id]? ∧
        state.disk.last ≤ (state.step limits incident).2.disk.last) := by
  cases incident with
  | commit other input =>
    right
    rw [step]
    split
    · exact ⟨rfl, Nat.le_refl _⟩
    · have different : other ≠ id := by
        intro same
        subst same
        exact single input rfl
      refine ⟨?_, Nat.le_succ _⟩
      rw [OrderedMap.getElem?_insert, if_neg different]
  | answer other number =>
    rw [step]
    cases state.flushing[other]? with
    | none => exact .inr ⟨rfl, Nat.le_refl _⟩
    | some call =>
      dsimp only
      split
      · split
        · exact (flushing_erase id other).imp_right (fun same => ⟨same, Nat.le_refl _⟩)
        · exact .inr ⟨rfl, Nat.le_refl _⟩
      · exact (flushing_erase id other).imp_right (fun same => ⟨same, Nat.le_refl _⟩)
  | disconnect other => exact (flushing_erase id other).imp_right (fun same => ⟨same, Nat.le_refl _⟩)
  | crash number =>
    left
    rw [step]
    simp

/-- The call is still between its transaction and its answer, with all that a crash can bring back of the states since;
    or nothing is known of it any more. -/
def Persistent.Awaits (P : SledStore → Prop) (id : Nat) (call : Flushing) (state : Persistent) : Prop :=
  (state.flushing[id]? = some call ∧ call.place ≤ state.disk.last ∧ state.disk.Since P call.place) ∨
    state.flushing[id]? = none

theorem Persistent.Awaits.step {id : Nat} {call : Flushing} (awaits : state.Awaits P id call) {incident : Incident}
    (single : ∀ input, incident ≠ .commit id input)
    (keeps : Happening.keeps limits P (taken (Persistent.step limits) state incident)) :
    (state.step limits incident).2.Awaits P id call := by
  rcases @step_flushing _ limits state id incident single with gone | ⟨same, later⟩
  · exact .inr gone
  · rcases awaits with ⟨here, written, since⟩ | gone
    · exact .inl ⟨same.trans here, written.trans later, since_step since written keeps⟩
    · exact .inr (same.trans gone)

theorem Persistent.Awaits.answer {id number : Nat} {call told : Flushing} (awaits : state.Awaits P id call)
    (answered : (state.step limits (.answer id number)).1 = some told) :
    told = call ∧ (call.outcome.isOk = true → (state.step limits (.answer id number)).2.disk.Since P 0) := by
  rw [Persistent.step] at answered ⊢
  rcases awaits with ⟨here, written, since⟩ | gone
  · rw [here] at answered ⊢
    dsimp only at answered ⊢
    split at answered
    · rename_i fine
      split at answered
      · rename_i flushed
        cases answered
        refine ⟨rfl, fun _ => ?_⟩
        rw [if_pos fine, if_pos flushed]
        exact since.synced flushed.1 flushed.2
      · cases answered
    · rename_i failed
      cases answered
      exact ⟨rfl, fun fine => absurd fine failed⟩
  · rw [gone] at answered
    cases answered

theorem Persistent.Awaits.run {id : Nat} {call : Flushing} (awaits : state.Awaits P id call) {incidents : List Incident}
    (single : ∀ input, .commit id input ∉ incidents)
    (keeps : ∀ event ∈ trace (Persistent.step limits) state incidents, Happening.keeps limits P event) :
    (final (Persistent.step limits) state incidents).Awaits P id call := by
  apply @guarded_run _ _ _ (Persistent.step limits) (Awaits P id call)
    (fun current incident => (∀ input, incident ≠ .commit id input) ∧
      Happening.keeps limits P (taken (Persistent.step limits) current incident))
    (fun current incident holds kept => holds.step kept.1 kept.2) state incidents awaits
  intro event member
  obtain ⟨listed, same⟩ := trace_event (Persistent.step limits) member
  rw [same]
  exact ⟨fun input committed => single input (committed ▸ listed), keeps event member⟩

theorem Persistent.committed {id : Nat} (unused : state.flushing[id]? = none) (input : Try) :
    (state.step limits (.commit id input)).2 =
      ⟨state.disk.write (tryStep limits state.disk.current input).2,
        state.flushing.insert id ⟨input, (tryStep limits state.disk.current input).1, state.disk.last + 1⟩⟩ := by
  have free : id ∉ state.flushing := by
    intro used
    rw [ExtTreeMap.mem_iff_isSome_getElem?, unused] at used
    cases used
  rw [step, if_neg free]

theorem Persistent.answered_told {id number : Nat} {input : Try} {told : Flushing} {mid : List Incident}
    (unused : state.flushing[id]? = none) (single : ∀ other, .commit id other ∉ mid)
    (answered : ((final (Persistent.step limits) state (.commit id input :: mid)).step limits (.answer id number)).1 =
      some told) :
    told.outcome = (tryStep limits state.disk.current input).1 := by
  have waits : (state.step limits (.commit id input)).2.Awaits (fun _ => True) id
      ⟨input, (tryStep limits state.disk.current input).1, state.disk.last + 1⟩ := by
    rw [committed unused]
    exact .inl ⟨by rw [OrderedMap.getElem?_insert, if_pos rfl], Nat.le_refl _, fun _ _ _ _ => True.intro⟩
  rw [final_cons] at answered
  rw [((waits.run single (fun _ _ _ _ _ => True.intro)).answer answered).1]

/-- What a transaction has brought about and later ones keep is there for good once the call is answered, whatever
    crashes. -/
theorem Persistent.secured {id number : Nat} {input : Try} {told : Flushing} {mid future : List Incident}
    (unused : state.flushing[id]? = none)
    (established : (tryStep limits state.disk.current input).1.isOk = true →
      P (tryStep limits state.disk.current input).2)
    (single : ∀ other, .commit id other ∉ mid)
    (keeps : ∀ event ∈ trace (Persistent.step limits) (state.step limits (.commit id input)).2
      (mid ++ .answer id number :: future), Happening.keeps limits P event)
    (answered : ((final (Persistent.step limits) state (.commit id input :: mid)).step limits (.answer id number)).1 =
      some told)
    (fine : told.outcome.isOk = true) :
    P (final (Persistent.step limits) state (.commit id input :: mid ++ .answer id number :: future)).disk.current := by
  have waits : ∀ {Q : SledStore → Prop}, Q (tryStep limits state.disk.current input).2 →
      (state.step limits (.commit id input)).2.Awaits Q id
        ⟨input, (tryStep limits state.disk.current input).1, state.disk.last + 1⟩ := by
    intro Q here
    rw [committed unused]
    exact .inl ⟨by rw [OrderedMap.getElem?_insert, if_pos rfl], Nat.le_refl _, Disk.since_write here⟩
  have done : (tryStep limits state.disk.current input).1.isOk = true := by
    rw [← answered_told unused single answered]
    exact fine
  rw [trace_append] at keeps
  have kept := (waits (established done)).run single
    (fun event member => keeps event (List.mem_append_left _ member))
  rw [final_cons] at answered
  have durable := (kept.answer answered).2 done
  have last := since_run durable (fun event member =>
    keeps event (List.mem_append_right _ (List.mem_cons_of_mem _ member)))
  rw [List.cons_append, final_cons, final_append, final_cons]
  exact last.current (Nat.zero_le _)

end Runs

section Calls

variable {store : SledStore} {recipient : String} {item : AckItem} {input : Try}

theorem Matched.known_iff (matched : store.Matched) :
    known recipient item store = true ↔ item ∈ pairs store.messages recipient := by
  rw [known, mem_pairs]
  constructor
  · intro present
    obtain ⟨bytes, bound⟩ := Option.isSome_iff_exists.mp present
    obtain ⟨msg, here, own, pair, _⟩ := matched.indexed.sound recipient item bytes bound
    exact ⟨msg, matched.keyed.mem_stored.mpr ⟨here, own⟩, pair⟩
  · intro held
    obtain ⟨msg, member, pair⟩ := held
    obtain ⟨here, own⟩ := matched.keyed.mem_stored.mp member
    rw [← own, ← pair, matched.indexed.complete msg here]
    rfl

/-- What a push that is answered `Ok` leaves stored: its message, or the one it is a duplicate of. -/
def Pushed (msg : InboundMessage) (outcome : Outcome) (store : SledStore) : Prop :=
  ∃ held ∈ stored store.messages msg.recipient, held.ackItem = msg.ackItem ∧
    (outcome.stored = 1 → ∃ arrivalSeq, held = msg.queued arrivalSeq)

theorem Matched.pushed (matched : store.Matched) {msg : InboundMessage} {fault : Fault}
    (fine : (tryStep limits store (.push msg fault)).1.isOk = true) :
    Pushed msg (tryStep limits store (.push msg fault)).1 (tryStep limits store (.push msg fault)).2 := by
  change (attempt fault (SledStore.push limits msg) store).1.isOk = true at fine
  change Pushed msg (.push (attempt fault (SledStore.push limits msg) store).1)
    (attempt fault (SledStore.push limits msg) store).2
  cases answered : (attempt fault (SledStore.push limits msg) store).1 with
  | error err =>
    rw [answered] at fine
    cases fine
  | ok result =>
    obtain ⟨whole, told⟩ := attempt_answered answered
    rw [attempt_after, whole]
    change Pushed msg (.push (.ok result)) (SledStore.push limits msg store).2
    rcases push_cases limits msg store with ⟨bytes, entry, pushed⟩ | ⟨_, _, pushed⟩ | ⟨_, _, _, _, pushed⟩ |
      ⟨absent, _, arrivalSeq, number, pushed⟩
    · rw [pushed] at told ⊢
      cases told
      obtain ⟨held, here, own, pair, _⟩ := matched.indexed.sound _ _ bytes entry
      exact ⟨held, matched.keyed.mem_stored.mpr ⟨here, own⟩, pair, fun fresh => by cases fresh⟩
    · rw [pushed] at told
      cases told
    · rw [pushed] at told
      cases told
    · have bound : (msg.queued arrivalSeq).arrivalSeq < 2 ^ 64 := currentSeq_bound number
      rw [pushed]
      refine ⟨msg.queued arrivalSeq, ?_, rfl, fun _ => ⟨arrivalSeq, rfl⟩⟩
      apply (matched.keyed.insert bound).mem_stored.mpr
      exact ⟨by rw [OrderedMap.getElem?_insert, if_pos rfl], rfl⟩

theorem Matched.message_stays (matched : store.Matched) {msg : QueueMessage}
    (here : msg ∈ stored store.messages recipient)
    (spared : ¬ (input.acknowledges = true ∧ input.names recipient msg.ackItem = true)) :
    msg ∈ stored (tryStep limits store input).2.messages recipient := by
  obtain ⟨present, own⟩ := matched.keyed.mem_stored.mp here
  apply (matched.step input).keyed.mem_stored.mpr
  refine ⟨?_, own⟩
  cases input with
  | push inbound fault =>
    change (attempt fault (SledStore.push limits inbound) store).2.messages[msg.key]? = some msg
    rw [attempt_after]
    split
    · exact present
    · exact matched.push_keeps inbound present
  | ack order owner items fault =>
    change (attempt fault (SledStore.ack order owner items) store).2.messages[msg.key]? = some msg
    rw [attempt_after]
    cases aborts : fault.aborts with
    | true => exact present
    | false =>
      change (SledStore.ack order owner items store).2.messages[msg.key]? = some msg
      rw [ack_messages matched, present, Option.filter_some, if_pos]
      apply decide_eq_true
      rintro ⟨owners, listed⟩
      apply spared
      rw [Try.acknowledges, aborts, Try.names]
      exact ⟨rfl, by simp [← owners, own, listed]⟩

theorem Matched.pushed_stays (matched : store.Matched) {msg : InboundMessage} {outcome : Outcome}
    (pushed : Pushed msg outcome store)
    (spared : ¬ (input.acknowledges = true ∧ input.names msg.recipient msg.ackItem = true)) :
    Pushed msg outcome (tryStep limits store input).2 := by
  obtain ⟨held, here, pair, fresh⟩ := pushed
  exact ⟨held, matched.message_stays here (pair.symm ▸ spared), pair, fresh⟩

theorem Matched.ack_unknown (matched : store.Matched) (order : HashOrder) {items : Vec AckItem}
    (named : item ∈ items.toList) : known recipient item (SledStore.ack order recipient items store).2 = false := by
  obtain ⟨last, _, cleared, acked, _⟩ := ack_cleared matched.keyed matched.indexed recipient items order
  rw [acked, known]
  change (last.index[itemKey recipient item]?).isSome = false
  rw [cleared.index, if_pos (List.mem_map_of_mem named)]
  rfl

theorem Matched.acked_unknown (matched : store.Matched) {order : HashOrder} {items : Vec AckItem} {fault : Fault}
    (fine : (tryStep limits store (.ack order recipient items fault)).1.isOk = true) (named : item ∈ items.toList) :
    known recipient item (tryStep limits store (.ack order recipient items fault)).2 = false := by
  change (attempt fault (SledStore.ack order recipient items) store).1.isOk = true at fine
  change known recipient item (attempt fault (SledStore.ack order recipient items) store).2 = false
  cases answered : (attempt fault (SledStore.ack order recipient items) store).1 with
  | error err =>
    rw [answered] at fine
    cases fine
  | ok outcome =>
    rw [attempt_after, (attempt_answered answered).1]
    exact matched.ack_unknown order named

theorem Matched.stays_unknown (matched : store.Matched) (absent : known recipient item store = false)
    (foreign : input.commits limits recipient item store = false) :
    known recipient item (tryStep limits store input).2 = false := by
  cases input with
  | push msg fault =>
    change known recipient item (attempt fault (SledStore.push limits msg) store).2 = false
    rw [attempt_after]
    cases aborts : fault.aborts with
    | true => exact absent
    | false =>
      change known recipient item (SledStore.push limits msg store).2 = false
      by_cases other : msg.recipient = recipient ∧ msg.ackItem = item
      · rcases push_after limits msg store with unchanged | ⟨_, _, _, _, _, _, pushed⟩
        · rwa [unchanged]
        · simp [Try.commits, other, aborts, pushed, Except.isOk, Except.toBool] at foreign
      · rw [known, push_index msg other]
        exact absent
  | ack order owner items fault =>
    change known recipient item (attempt fault (SledStore.ack order owner items) store).2 = false
    rw [attempt_after]
    split
    · exact absent
    · by_cases named : owner = recipient ∧ item ∈ items.toList
      · obtain ⟨same, listed⟩ := named
        subst same
        exact matched.ack_unknown order listed
      · rw [known, ack_index matched order named]
        exact absent

end Calls

section Answers

variable (limits)

theorem run_since {P : SledStore → Prop} (start : P new)
    (keeps : ∀ input store, P store → P (tryStep limits store input).2) (incidents : List Incident) :
    (final (Persistent.step limits) .start incidents).disk.Since P 0 := by
  have fresh : Persistent.start.disk.Since P 0 := Disk.Since.fresh start
  exact Persistent.since_run fresh (fun event _ input _ holds => keeps input event.before.disk.current holds)

/-- What an answer promises, as long as no transaction that is committed later takes it back. -/
structure Lasts (input : Try) (outcome : Outcome) (later : List Happening) (store : SledStore) : Prop where
  pushed : ∀ msg fault, input = .push msg fault →
    (∀ event ∈ later, ∀ other, event.runs other →
      ¬ (other.acknowledges = true ∧ other.names msg.recipient msg.ackItem = true)) →
      Pushed msg outcome store
  acked : ∀ order recipient items fault, input = .ack order recipient items fault → ∀ item ∈ items.toList,
    (∀ event ∈ later, ∀ other, event.runs other →
      other.commits limits recipient item event.before.disk.current = false) →
      item ∉ pairs store.messages recipient

theorem lasts {past mid future : List Incident} {id number : Nat} {input : Try} {told : Flushing}
    (unused : (final (Persistent.step limits) .start past).flushing[id]? = none)
    (single : ∀ other, .commit id other ∉ mid)
    (answered : ((final (Persistent.step limits) .start (past ++ .commit id input :: mid)).step limits
      (.answer id number)).1 = some told)
    (fine : told.outcome.isOk = true) :
    Lasts limits input told.outcome
      (trace (Persistent.step limits) (final (Persistent.step limits) .start (past ++ [.commit id input]))
        (mid ++ .answer id number :: future))
      (final (Persistent.step limits) .start
        (past ++ (.commit id input :: mid ++ .answer id number :: future))).disk.current := by
  have before : (final (Persistent.step limits) .start past).disk.current.Matched :=
    (run_since limits ⟨new_agreed.keyed, new_agreed.indexed⟩ (fun input store holds => holds.step input) past).current
      (Nat.zero_le _)
  rw [final_append] at answered
  rw [final_snoc, final_append]
  have outcome := Persistent.answered_told unused single answered
  constructor
  · intro msg fault own spared
    subst own
    exact (@Persistent.secured _ limits (fun store => store.Matched ∧ Pushed msg told.outcome store)
      _ id number _ told mid future unused (fun done => ⟨before.step _, outcome ▸ before.pushed done⟩) single
      (fun event member other runs holds =>
        ⟨holds.1.step other, holds.1.pushed_stays holds.2 (spared event member other runs)⟩) answered fine).2
  · intro order recipient items fault own item listed foreign held
    subst own
    have secure := @Persistent.secured _ limits (fun store => store.Matched ∧ known recipient item store = false)
      _ id number _ told mid future unused (fun done => ⟨before.step _, before.acked_unknown done listed⟩) single
      (fun event member other runs holds =>
        ⟨holds.1.step other, holds.1.stays_unknown holds.2 (foreign event member other runs)⟩) answered fine
    have present := secure.1.known_iff.mpr held
    rw [secure.2] at present
    cases present

/-- A push that was answered `Ok` has its message stored until an acknowledgement that names it is committed, and the
    messages of an acknowledgement that was answered `Ok` are gone until a push of them is committed; no crash changes
    that, and what a crash brings back has its index and its quota in agreement with its messages. -/
theorem answers_survive :
    (∀ (past mid future : List Incident) (id number : Nat) (input : Try) (told : Flushing),
      (final (Persistent.step limits) .start past).flushing[id]? = none → (∀ other, .commit id other ∉ mid) →
      ((final (Persistent.step limits) .start (past ++ .commit id input :: mid)).step limits (.answer id number)).1 =
        some told →
      told.outcome.isOk = true →
      Lasts limits input told.outcome
        (trace (Persistent.step limits) (final (Persistent.step limits) .start (past ++ [.commit id input]))
          (mid ++ .answer id number :: future))
        (final (Persistent.step limits) .start
          (past ++ (.commit id input :: mid ++ .answer id number :: future))).disk.current) ∧
    (limits.maxQueueBytesPerUser < u64Max → limits.maxMessagesPerUser < u64Max →
      ∀ incidents, (final (Persistent.step limits) .start incidents).disk.Since Agreed 0) := by
  constructor
  · intro past mid future id number input told unused single answered fine
    exact lasts limits unused single answered fine
  · intro bytesCap countCap incidents
    exact run_since limits new_agreed (fun input store holds => holds.step bytesCap countCap input) incidents

end Answers

end Trees

def sampleCommit : Incident := .commit 0 (.push (sample "a" 1 0 5 3) .none)

def sampleFlushing : Persistent := final (Persistent.step sampleLimits) .start [sampleCommit]

theorem sampleFlushing_answered : ((sampleFlushing.step sampleLimits (.answer 0 1)).1).isSome = true := by
  decide +kernel

theorem answers_survive_sample :
    Pushed (sample "a" 1 0 5 3) ((sampleFlushing.step sampleLimits (.answer 0 1)).1.get sampleFlushing_answered).outcome
      (final (Persistent.step sampleLimits) .start
        [sampleCommit, .answer 0 1, .crash 0, .crash 0]).disk.current :=
  ((answers_survive sampleLimits).1 [] [] [.crash 0, .crash 0] 0 1 (.push (sample "a" 1 0 5 3) .none)
    ((sampleFlushing.step sampleLimits (.answer 0 1)).1.get sampleFlushing_answered) rfl
    (fun _ member => by cases member) (Option.some_get _).symm (by decide +kernel)).pushed _ _ rfl
    (fun event member other runs => by
      obtain ⟨_, committed, _⟩ := runs
      have listed := (trace_event (Persistent.step sampleLimits) member).1
      rw [committed] at listed
      simp at listed)

/-- Without its answer the push may be gone after a crash. -/
example : sampleItem 1 ∉
    pairs (final (Persistent.step sampleLimits) .start [sampleCommit, .crash 0]).disk.current.messages "a" := by
  decide +kernel

end EnigmaRelay.SledStore
