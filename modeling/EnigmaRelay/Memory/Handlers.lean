import EnigmaRelay.Memory.History

open Std Machine

namespace EnigmaRelay.Server

open MemStore (new queued spent Fits Few Removes storedPushes)

def MayRemove (recipient : String) (msg : QueueMessage) : Request × Context → Prop
  | (.push _, _) => False
  | (.pull body, context) => body.recipient = recipient ∧ msg.deadlineMs ≤ context.nowMillis
  | (.ack body, _) => body.recipient = recipient ∧
    ∃ entry ∈ body.ack.toList, entry.messageId = msg.messageId ∧ entry.chunkIndex = msg.messageMeta.chunkIndex
  | (.purgeExpired nowMs _, _) => msg.deadlineMs ≤ nowMs

/-- The item that delivers a request accepted at `nowMillis`. -/
def deliveryOf (limits : RelayLimits) (body : PushRequest) (nowMillis : Nat) : DeliveryItem where
  recipient := body.recipient
  messageId := body.messageId
  ciphertextB64 := body.ciphertextB64
  messageMeta := body.messageMeta
  arrivalMs := nowMillis
  deadlineMs := saturatingAdd nowMillis (saturatingMul limits.messageTtlSeconds 1000)

section History

variable [Base64] (limits : RelayLimits)

def accepted (recipient : String) (event : Event MemStore) : Option InboundMessage :=
  match event.input, event.output with
  | (.push body, context), .push (.ok response) =>
    if body.recipient = recipient && response.stored then
      (buildInboundMessage body limits context.nowMillis).toOption
    else none
  | _, _ => none

abbrev serve (state : MemStore) (input : Request × Context) : Response × MemStore :=
  handle MemStore.relayStore limits state input

theorem removes_storeCall {recipient : String} {msg : QueueMessage} {input : Request × Context}
    {call : Call × HashOrder} (called : storeCall limits input = some call) (removes : Removes recipient msg call.1) :
    MayRemove recipient msg input := by
  obtain ⟨request, context⟩ := input
  cases request with
  | push body =>
    simp only [storeCall] at called
    split at called
    · obtain ⟨msg, _, rfl⟩ := Option.map_eq_some_iff.mp called
      exact removes
    · cases called
  | pull body =>
    simp only [storeCall] at called
    split at called
    · cases called
      exact removes
    · cases called
  | ack body =>
    simp only [storeCall] at called
    split at called
    · cases called
      obtain ⟨addressed, named⟩ := removes
      obtain ⟨entry, listed, same⟩ := List.mem_map.mp named
      refine ⟨addressed, entry, listed, ?_, ?_⟩
      · exact congrArg AckItem.messageId same
      · exact congrArg AckItem.chunkIndex same
    · cases called
  | purgeExpired nowMs max =>
    cases called
    exact removes

theorem accepted_storeCall (recipient : String) (state : MemStore) (input : Request × Context) :
    accepted limits recipient (taken (serve limits) state input) =
      (storeCall limits input).bind (fun call => Event.storedPush recipient (MemStore.event limits state call)) := by
  obtain ⟨request, context⟩ := input
  cases request with
  | push body =>
    cases admitted : context.admitted with
    | false => simp [accepted, taken, handle, push, storeCall, admitted]
    | true =>
      cases built : buildInboundMessage body limits context.nowMillis with
      | error err => simp [accepted, taken, handle, push, storeCall, admitted, built, Except.toOption]
      | ok msg =>
        have addressed : msg.recipient = body.recipient := by
          obtain ⟨_, _, _, rfl⟩ := buildInboundMessage_ok built
          rfl
        rcases pushed : MemStore.relayStore.push limits msg state with ⟨_ | _, _⟩ <;>
          simp [accepted, taken, handle, push, storeCall, admitted, built, pushed, addressed, Except.toOption,
            Event.storedPush, Event.storedFor]
  | pull body =>
    simp only [storeCall]
    split <;> rfl
  | ack body =>
    simp only [storeCall]
    split <;> rfl
  | purgeExpired nowMs max => rfl

variable {limits}

theorem final_serve (state : MemStore) (inputs : List (Request × Context)) :
    final (serve limits) state inputs = final (MemStore.next limits) state (inputs.filterMap (storeCall limits)) := by
  induction inputs generalizing state with
  | nil => rfl
  | cons input rest ih =>
    have after := handle_after MemStore.relayStore limits state input
    rw [final_cons, ih]
    cases called : storeCall limits input with
    | none =>
      rw [List.filterMap_cons_none called, after, called]
    | some call =>
      rw [List.filterMap_cons_some called, final_cons, after, called]

theorem accepted_run (recipient : String) (state : MemStore) (inputs : List (Request × Context)) :
    (trace (serve limits) state inputs).filterMap (accepted limits recipient) =
      storedPushes recipient (trace (MemStore.next limits) state (inputs.filterMap (storeCall limits))) := by
  induction inputs generalizing state with
  | nil => rfl
  | cons input rest ih =>
    have after := handle_after MemStore.relayStore limits state input
    have now := accepted_storeCall limits recipient state input
    rw [trace]
    cases called : storeCall limits input with
    | none =>
      rw [called] at now after
      rw [List.filterMap_cons_none now, List.filterMap_cons_none called, ih, after]
    | some call =>
      rw [called, Option.bind_some] at now
      rw [called] at after
      rw [List.filterMap_cons_some called, trace, storedPushes, List.filterMap_cons, List.filterMap_cons, now, ih, after]
      rfl

/-- Fewer than `2^64` pushes are ever accepted for any one recipient. -/
def FewAccepted (limits : RelayLimits) (inputs : List (Request × Context)) : Prop :=
  ∀ recipient, ((trace (serve limits) new inputs).filterMap (accepted limits recipient)).length < 2 ^ 64

theorem FewAccepted.of_length {inputs : List (Request × Context)} (short : inputs.length < 2 ^ 64) :
    FewAccepted limits inputs := by
  intro recipient
  have counted := List.length_filterMap_le (accepted limits recipient) (trace (serve limits) new inputs)
  rw [trace_length] at counted
  omega

theorem FewAccepted.few {inputs : List (Request × Context)} (few : FewAccepted limits inputs) :
    Few limits (inputs.filterMap (storeCall limits)) := by
  intro recipient
  rw [← MemStore.storedPushes_length, ← accepted_run]
  exact few recipient

theorem accepted_spec {recipient : String} {event : Event MemStore} {msg : InboundMessage}
    (hit : accepted limits recipient event = some msg) :
    ∃ body context response, event.input = (.push body, context) ∧ event.output = .push (.ok response) ∧
      response.stored = true ∧ body.recipient = recipient ∧
      ∀ seq, toDelivery (msg.queued seq) = deliveryOf limits body context.nowMillis := by
  unfold accepted at hit
  split at hit
  · rename_i body context response asked answered
    split at hit
    · rename_i both
      rw [Bool.and_eq_true, decide_eq_true_eq] at both
      cases built : buildInboundMessage body limits context.nowMillis with
      | error err =>
        rw [built] at hit
        cases hit
      | ok found =>
        rw [built] at hit
        cases hit
        obtain ⟨_, _, _, rfl⟩ := buildInboundMessage_ok built
        exact ⟨body, context, response, asked, answered, both.2, both.1, fun _ => rfl⟩
    · cases hit
  · cases hit

theorem pull_answer {context : Context} {body : PullRequest} {state : MemStore} {response : PullResponse}
    (answered : (pull MemStore.relayStore limits context body state).1 = .ok response) :
    ∃ limit batch, (MemStore.pull body.recipient body.cursor limit context.nowMillis state).1 = .ok batch ∧
      response.items = batch.items.map toDelivery := by
  simp only [pull] at answered
  split at answered
  · split at answered
    · cases answered
    · split at answered
      · cases answered
      · split at answered
        · cases answered
        · rename_i batch _ pulled
          cases answered
          exact ⟨_, batch, congrArg Prod.fst pulled, rfl⟩
  · cases answered

theorem handle_elsewhere (state : MemStore) (input : Request × Context) {addressee recipient : String}
    (addressed : input.1.addressee = some addressee) (other : addressee ≠ recipient) :
    (serve limits state input).2[recipient]? = state[recipient]? := by
  rw [handle_after]
  cases called : storeCall limits input with
  | none => rfl
  | some call => exact MemStore.step_elsewhere limits state call (storeCall_addressee called ▸ addressed) other

theorem FewAccepted.split {earlier later : List (Request × Context)} (few : FewAccepted limits (earlier ++ later)) :
    (final (serve limits) new earlier).Coherent ∧
      Fits limits (final (serve limits) new earlier) (later.filterMap (storeCall limits)) := by
  have fits := few.few.fits
  rw [List.filterMap_append] at fits
  rw [final_serve]
  exact fits.split MemStore.new_coherent

theorem FewAccepted.history {inputs : List (Request × Context)} (few : FewAccepted limits inputs) (recipient : String) :
    List.Sublist ((final (serve limits) new inputs).queued recipient)
      (numbered 0 ((trace (serve limits) new inputs).filterMap (accepted limits recipient))) := by
  have history := MemStore.history_run limits MemStore.new_coherent few.few.fits recipient
  rw [accepted_run, final_serve]
  simpa [queued, RecipientState.messages] using history

theorem FewAccepted.left {earlier later : List (Request × Context)} (few : FewAccepted limits (earlier ++ later)) :
    FewAccepted limits earlier := by
  intro recipient
  have bound := few recipient
  rw [trace_append, List.filterMap_append, List.length_append] at bound
  omega

theorem FewAccepted.absence {inputs : List (Request × Context)} (few : FewAccepted limits inputs) {recipient : String}
    {past future : List (Event MemStore)} {event : Event MemStore} {msg : InboundMessage}
    (split : trace (serve limits) new inputs = past ++ event :: future)
    (hit : accepted limits recipient event = some msg)
    (gone : msg.queued (past.filterMap (accepted limits recipient)).length ∉
      (final (serve limits) new inputs).queued recipient) :
    ∃ later ∈ future,
      MayRemove recipient (msg.queued (past.filterMap (accepted limits recipient)).length) later.input := by
  obtain ⟨earlier, later, rfl, rfl, now, rfl⟩ := trace_split (serve limits) split
  obtain ⟨before, fits⟩ := few.split
  have number : (final (serve limits) new earlier).spent recipient =
      ((trace (serve limits) new earlier).filterMap (accepted limits recipient)).length := by
    rw [final_serve, few.left.few.fits.spent_final MemStore.new_coherent, MemStore.spent_new, Nat.zero_add,
      accepted_run, MemStore.storedPushes_length]
  rw [← number] at gone ⊢
  have after := handle_after MemStore.relayStore limits (final (serve limits) new earlier) event.input
  rw [now, accepted_storeCall] at hit
  cases called : storeCall limits event.input with
  | none =>
    rw [called] at hit
    cases hit
  | some call =>
    rw [called] at hit after
    rw [List.filterMap_cons_some called] at fits
    obtain ⟨coherent, _, rest⟩ := fits.step before
    have present : msg.queued ((final (serve limits) new earlier).spent recipient) ∈
        (MemStore.next limits (final (serve limits) new earlier) call).2.queued recipient := by
      rcases MemStore.step_queue limits before call recipient with ⟨stored, pushed, _, _, grown⟩ | ⟨silent, _⟩
      · rw [Option.bind_some, pushed] at hit
        cases hit
        rw [grown]
        exact List.mem_append_right _ (List.mem_singleton_self _)
      · rw [Option.bind_some, silent] at hit
        cases hit
    rw [final_append, final_cons, after, final_serve] at gone
    obtain ⟨remover, listed, removes⟩ := MemStore.absence_run limits coherent rest present gone
    obtain ⟨input, member, same⟩ := List.mem_filterMap.mp listed
    have step : ∃ found ∈ trace (serve limits) event.after later, found.input = input := by
      rw [← trace_inputs (serve limits) event.after later] at member
      exact List.mem_map.mp member
    obtain ⟨found, within, rfl⟩ := step
    exact ⟨found, within, removes_storeCall limits same removes⟩

/-- Behind the handlers, a queue is a part of the accepted history: in order, unchanged, complete
    but for what was acknowledged or expired, and untouched by other recipients' requests. -/
theorem queue_is_history {inputs : List (Request × Context)} (few : FewAccepted limits inputs) :
    let events := trace (serve limits) new inputs
    let state := final (serve limits) new inputs
    (∀ recipient, List.Sublist (state.queued recipient) (numbered 0 (events.filterMap (accepted limits recipient)))) ∧
    (∀ recipient past event future msg, events = past ++ event :: future → accepted limits recipient event = some msg →
      let stored := msg.queued (past.filterMap (accepted limits recipient)).length
      stored ∉ state.queued recipient → ∃ later ∈ future, MayRemove recipient stored later.input) ∧
    (∀ past event future body context response, events = past ++ event :: future → event.input = (.pull body, context) →
      event.output = .pull (.ok response) →
      (∃ delivered, List.Sublist delivered (numbered 0 (past.filterMap (accepted limits body.recipient))) ∧
        response.items = delivered.map toDelivery) ∧
      ∀ item ∈ response.items, ∃ source ∈ past, ∃ request origin answer, source.input = (.push request, origin) ∧
        source.output = .push (.ok answer) ∧ answer.stored = true ∧ request.recipient = body.recipient ∧
        item = deliveryOf limits request origin.nowMillis) ∧
    ∀ event ∈ events, ∀ addressee recipient, event.input.1.addressee = some addressee → addressee ≠ recipient →
      event.after[recipient]? = event.before[recipient]? := by
  intro events state
  refine ⟨few.history, fun _ _ _ _ _ split hit gone => few.absence split hit gone, ?_, ?_⟩
  · intro past event future body context response split asked answered
    obtain ⟨earlier, later, rfl, rfl, now, rfl⟩ := trace_split (serve limits) split
    obtain ⟨before, _⟩ := few.split
    have pulled : (pull MemStore.relayStore limits context body (final (serve limits) new earlier)).1 = .ok response := by
      rw [now, asked] at answered
      exact Response.pull.inj answered
    obtain ⟨limit, batch, found, items⟩ := pull_answer pulled
    have part := (MemStore.pull_items before found).trans (few.left.history body.recipient)
    refine ⟨⟨batch.items, part, items⟩, ?_⟩
    intro item member
    rw [items] at member
    obtain ⟨msg, listed, rfl⟩ := List.mem_map.mp member
    obtain ⟨⟨push, seq⟩, numbered, rfl⟩ := List.mem_map.mp (part.subset listed)
    obtain ⟨source, present, hit⟩ := List.mem_filterMap.mp (List.fst_mem_of_mem_zipIdx numbered)
    obtain ⟨request, origin, answer, pushed, told, kept, own, same⟩ := accepted_spec hit
    exact ⟨source, present, request, origin, answer, pushed, told, kept, own, same seq⟩
  · intro event member addressee recipient addressed other
    obtain ⟨earlier, later, _, now⟩ := trace_member (serve limits) member
    rw [now]
    exact handle_elsewhere _ _ addressed other

end History

def sampleTraffic : List (Request × Context) :=
  [(.push (sampleRequest "alice" 1), ⟨true, 5, .asListed⟩), (.push (sampleRequest "alice" 1), ⟨true, 6, .asListed⟩),
    (.pull ⟨"alice", none, none⟩, ⟨true, 7, .asListed⟩), (.ack ⟨"alice", .ofList [⟨1, 0⟩]⟩, ⟨true, 8, .asListed⟩)]

theorem queue_is_history_sample :
    List.Sublist ((final (serve sampleLimits) new sampleTraffic).queued "alice")
      (numbered 0 ((trace (serve sampleLimits) new sampleTraffic).filterMap (accepted sampleLimits "alice"))) :=
  have few : FewAccepted sampleLimits sampleTraffic := FewAccepted.of_length (by decide)
  (queue_is_history few).1 "alice"

end EnigmaRelay.Server
