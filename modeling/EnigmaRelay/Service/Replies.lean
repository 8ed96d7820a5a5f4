import EnigmaRelay.Service.Linear
import EnigmaRelay.Memory.Invariant

open Std Machine

namespace EnigmaRelay

section Failures

variable [Base64]

theorem decodeCursor_error {cursor : String} {err : EnigmaRelayError} (failed : decodeCursor cursor = .error err) :
    err = invalidCursor := by
  unfold decodeCursor at failed
  repeat' split at failed
  all_goals cases failed
  all_goals rfl

theorem startSeq_error {recipient : String} {cursor : Option String} {err : EnigmaRelayError}
    (failed : startSeq recipient cursor = .error err) : ∃ message, err = .invalidInput message := by
  unfold startSeq at failed
  split at failed
  · cases failed
  · split at failed
    · rename_i err' decoded
      cases failed
      exact ⟨_, decodeCursor_error decoded⟩
    · split at failed
      · cases failed
        exact ⟨_, rfl⟩
      · cases failed

/-- An answer that fails is a refusal of a cursor or of a message with no room, and has changed nothing. -/
theorem MemStore.next_failed (limits : RelayLimits) (state : MemStore) (input : Call × HashOrder) :
    (MemStore.next limits state input).1.respond.status = .ok ∨
      ((MemStore.next limits state input).1.respond.status ∈ [.badRequest, .conflict] ∧
        ∀ recipient, MemStore.entryOf (MemStore.next limits state input).2 recipient = state.entryOf recipient) := by
  obtain ⟨call, order⟩ := input
  cases call with
  | push msg =>
    change (Outcome.push (push limits msg state).1).respond.status = .ok ∨
      ((Outcome.push (push limits msg state).1).respond.status ∈ _ ∧
        ∀ recipient, entryOf (push limits msg state).2 recipient = _)
    unfold push
    rcases RecipientState.push_cases limits msg (state.entryOf msg.recipient) with
      ⟨_, _, pushed⟩ | ⟨_, _, pushed⟩ | ⟨_, _, pushed⟩
    · rw [pushed]
      exact .inl rfl
    · rw [pushed]
      refine .inr ⟨by simp [Outcome.respond, Except.map, Server.Response.status, EnigmaRelayError.statusCode], ?_⟩
      intro recipient
      dsimp only
      rw [entryOf_insert]
      split
      · rename_i same
        rw [same]
      · rfl
    · rw [pushed]
      exact .inl rfl
  | pull recipient cursor limit nowMs =>
    change (Outcome.pull (pull recipient cursor limit nowMs state).1).respond.status = .ok ∨
      ((Outcome.pull (pull recipient cursor limit nowMs state).1).respond.status ∈ _ ∧
        ∀ other, entryOf (pull recipient cursor limit nowMs state).2 other = _)
    unfold pull
    split
    · exact .inl rfl
    · rename_i entry known
      dsimp only
      unfold RecipientState.pull
      cases started : startSeq recipient cursor with
      | ok start => exact .inl rfl
      | error err =>
        obtain ⟨message, rfl⟩ := startSeq_error started
        refine .inr ⟨by simp [Outcome.respond, Except.map, Server.Response.status, EnigmaRelayError.statusCode], ?_⟩
        intro other
        dsimp only
        rw [entryOf_insert]
        split
        · rename_i same
          subst same
          exact (entryOf_of_some known).symm
        · rfl
  | ack recipient items =>
    left
    change (Outcome.ack (ack order recipient items state).1).respond.status = .ok
    unfold ack
    split <;> rfl
  | purgeExpired nowMs max => exact .inl rfl

end Failures

namespace Payload

theorem status_invalidInput (payload : Payload) (message : String) :
    (payload.fail (.invalidInput message)).status = .badRequest := by
  cases payload <;> rfl

theorem status_rateLimited (payload : Payload) : (payload.fail .rateLimited).status = .tooManyRequests := by
  cases payload <;> rfl

end Payload

namespace Service

section Runs

variable [Base64] {cfg : RelayConfig}

def answers : List StatusCode := [.ok, .badRequest, .conflict, .tooManyRequests]

/-- A handler about to answer has one of these statuses for its answer. -/
def AnswersWell (task : RequestTask) : Prop :=
  ∀ (due : List (Counter × UInt64)) (reply : Server.Response), task.stage = .replying due reply → reply.status ∈ answers

theorem Performs.answers {task : RequestTask} {service after : Service MemStore} {told : Told} {stage : Stage}
    (performs : Performs MemStore.relayStore cfg task service (told, stage, after)) (before : AnswersWell task)
    {due : List (Counter × UInt64)} {reply : Server.Response} (here : stage = .replying due reply) :
    reply.status ∈ answers ∧
      (reply.status ≠ .ok → ∀ recipient, MemStore.entryOf after.store recipient = service.store.entryOf recipient) := by
  cases performs with
  | asked _ _ verdict =>
    split at here <;> cases here
  | refused =>
    cases here
    rw [Payload.status_rateLimited]
    exact ⟨by decide, fun _ _ => rfl⟩
  | turnedDown _ message =>
    cases here
    rw [Payload.status_invalidInput]
    exact ⟨by decide, fun _ _ => rfl⟩
  | called _ moment call made =>
    cases here
    rcases MemStore.next_failed cfg.relay service.store call with fine | ⟨failed, same⟩
    · refine ⟨?_, fun bad => absurd fine bad⟩
      rw [fine]
      decide
    · refine ⟨?_, fun _ => same⟩
      rcases List.mem_pair.mp failed with status | status <;> rw [status] <;> decide
  | raised counter amount rest reply' stage =>
    cases here
    exact ⟨before _ _ stage, fun _ _ => rfl⟩
  | finished => exact ⟨before _ _ here, fun _ _ => rfl⟩
  | _ => cases here

theorem step_answers {service : Service MemStore}
    (before : ∀ (id : Nat) (task : RequestTask), service.tasks[id]? = some task → AnswersWell task) (choice : Choice)
    {id : Nat} {task : RequestTask}
    (found : (step cfg MemStore.relayStore service choice).2.tasks[id]? = some task) {due : List (Counter × UInt64)}
    {reply : Server.Response} (here : task.stage = .replying due reply) :
    reply.status ∈ answers ∧ (choice.advances id = true → reply.status ≠ .ok →
      ∀ recipient, MemStore.entryOf (step cfg MemStore.relayStore service choice).2.store recipient =
        service.store.entryOf recipient) := by
  have steps := step_spec MemStore.relayStore cfg service choice
  rcases stepped : step cfg MemStore.relayStore service choice with ⟨told, after⟩
  rw [stepped] at steps found
  rcases steps.source found with
    ⟨known, still⟩ | fresh | dropped | ⟨old, stage, performed, known, performs, rfl, store⟩
  · refine ⟨before id task known due reply here, ?_⟩
    intro moved _ recipient
    exact congrArg (fun current => MemStore.entryOf current.store recipient) (still moved)
  · rw [fresh] at here
    cases here
  · rw [dropped] at here
    cases here
  · obtain ⟨status, same⟩ := performs.answers (before id old known) here
    exact ⟨status, fun _ bad => store ▸ same bad⟩

/-- On the memory backend every answer has one of four statuses, and one that is not `200` has left every queue, with its
    index and its quota, as it was. -/
theorem failures_change_nothing (choices : List Choice) :
    ∀ event ∈ trace (step cfg MemStore.relayStore) (start cfg MemStore.new) choices,
      ∀ (id : Nat) (task : RequestTask) (due : List (Counter × UInt64)) (reply : Server.Response),
        event.after.tasks[id]? = some task → task.stage = .replying due reply →
          reply.status ∈ answers ∧ (event.input.advances id = true → reply.status ≠ .ok →
            ∀ recipient, MemStore.entryOf event.after.store recipient = event.before.store.entryOf recipient) := by
  have well : ∀ (choices : List Choice) (id : Nat) (task : RequestTask),
      (final (step cfg MemStore.relayStore) (start cfg MemStore.new) choices).tasks[id]? = some task →
        AnswersWell task := by
    intro choices
    induction choices using List.reverseRecOn with
    | nil =>
      intro id task known
      simp [start] at known
    | append_singleton choices choice ih =>
      intro id task found due reply here
      rw [final_snoc] at found
      exact (step_answers ih choice found here).1
  intro event member id task due reply found here
  obtain ⟨earlier, _, _, shape⟩ := trace_member (step cfg MemStore.relayStore) member
  rw [shape] at found ⊢
  exact step_answers (well earlier) event.input found here

end Runs

def sampleNameless : List Choice :=
  [.arrive 0 none (.pull ⟨"", none, none⟩), .advance 0 ⟨0, 0, .asListed⟩, .advance 0 ⟨0, 0, .asListed⟩]

theorem failures_change_nothing_sample :
    (Server.Response.pull (.error (.invalidInput "recipient required"))).status ∈ answers :=
  (failures_change_nothing (sampleNameless ++ [.advance 0 ⟨0, 0, .asListed⟩])
    (taken (step unlimited MemStore.relayStore)
      (final (step unlimited MemStore.relayStore) (start unlimited MemStore.new) sampleNameless)
      (.advance 0 ⟨0, 0, .asListed⟩))
    (by rw [trace_snoc]; exact List.mem_append_right _ (List.mem_singleton_self _))
    0 ⟨.localhost, .pull ⟨"", none, none⟩, .replying [] (.pull (.error (.invalidInput "recipient required")))⟩
    [] _ (by rfl) rfl).1

end Service

end EnigmaRelay
