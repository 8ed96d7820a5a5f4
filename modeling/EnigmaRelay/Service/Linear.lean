import EnigmaRelay.Service.Calls

open Std Machine Linearization

namespace EnigmaRelay.Service

variable {σ : Type}

abbrev Event (σ : Type) := Machine.Step (Service σ) Choice Told

/-- The calls that the handler of a request has made, with their answers. -/
def callsOf (id : Nat) (events : List (Event σ)) : List ((Call × HashOrder) × Outcome) :=
  report Told.called (events.filter (fun event => event.input.advances id))

theorem callsOf_snoc (id : Nat) (events : List (Event σ)) (event : Event σ) : callsOf id (events ++ [event]) =
    callsOf id events ++ if event.input.advances id then event.output.called.toList else [] := by
  rw [callsOf, List.filter_append, report_append, callsOf]
  congr 1
  cases moved : event.input.advances id with
  | false => simp [moved, report]
  | true => cases made : event.output.called <;> simp [moved, made, report]

variable [Base64]

/-- A handler that is about to answer was refused, found its input invalid, or has made one call and answers for it;
    any other has made none. -/
def Served (limits : RelayLimits) (task : RequestTask) (calls : List ((Call × HashOrder) × Outcome)) : Prop :=
  match task.stage with
  | .replying _ reply =>
    (calls = [] ∧
      (reply = task.payload.fail .rateLimited ∨ ∃ message, reply = task.payload.fail (.invalidInput message))) ∨
      ∃ (moment : Moment) (call : Call × HashOrder) (outcome : Outcome), calls = [(call, outcome)] ∧
        Server.storeCall limits (task.payload.request, ⟨true, moment.nowMillis, moment.order⟩) = some call ∧
        reply = outcome.respond
  | _ => calls = []

variable (backend : RelayStore σ) (cfg : RelayConfig)

theorem embeds : Embeds (step cfg backend) (backend.step cfg.relay) Service.store Told.called := by
  constructor
  · intro service choice silent
    rcases stepped : step cfg backend service choice with ⟨told, after⟩
    have steps := step_spec backend cfg service choice
    rw [stepped] at steps silent
    cases steps with
    | advanced id moment task running told stage after performs =>
      cases performs with
      | called => cases silent
      | _ => rfl
    | collected => cases silent
    | _ => rfl
  · intro service choice call answer told
    rcases stepped : step cfg backend service choice with ⟨said, after⟩
    have steps := step_spec backend cfg service choice
    rw [stepped] at steps told
    cases steps with
    | advanced id moment task running said stage after performs =>
      cases performs with
      | called =>
        cases told
        rfl
      | _ => cases told
    | collected =>
      cases told
      rfl
    | _ => cases told

section Handlers

variable {backend cfg}

theorem Served.performs {task : RequestTask} {service after : Service σ} {told : Told} {stage : Stage}
    {calls : List ((Call × HashOrder) × Outcome)} (served : Served cfg.relay task calls)
    (performs : Performs backend cfg task service (told, stage, after)) :
    Served cfg.relay { task with stage := stage } (calls ++ told.called.toList) := by
  obtain ⟨ip, payload, old⟩ := task
  cases performs with
  | waived here => cases here; simpa [Served] using served
  | asked here now verdict limiter answer =>
    cases here
    have idle : calls = [] := served
    by_cases panicked : verdict = .panicked <;> simpa [Served, panicked] using idle
  | panicked globalOk here => cases here; simpa [Served] using served
  | passed here => cases here; simpa [Served] using served
  | refused globalOk here =>
    cases here
    exact .inl ⟨by simpa [Served] using served, .inl rfl⟩
  | totalled here => cases here; simpa [Served] using served
  | turnedDown here message =>
    cases here
    exact .inl ⟨by simpa [Served] using served, .inr ⟨message, rfl⟩⟩
  | called here moment call made =>
    cases here
    have none : calls = [] := served
    rw [none]
    exact .inr ⟨moment, call, _, rfl, made, rfl⟩
  | raised counter amount due reply here => cases here; simpa [Served] using served
  | finished here =>
    change Served cfg.relay _ (calls ++ [])
    rw [List.append_nil]
    exact served

/-- The calls of every handler are accounted for. -/
structure AllServed (limits : RelayLimits) (service : Service σ) (calls : Nat → List ((Call × HashOrder) × Outcome)) :
    Prop where
  unknown : ∀ id, service.tasks[id]? = none → calls id = []
  served : ∀ id task, service.tasks[id]? = some task → Served limits task (calls id)

theorem Steps.allServed {service : Service σ} {calls : Nat → List ((Call × HashOrder) × Outcome)}
    (all : AllServed cfg.relay service calls) {choice : Choice} {told : Told} {after : Service σ}
    (steps : Steps backend cfg service choice (told, after)) :
    AllServed cfg.relay after (fun id => calls id ++ if choice.advances id then told.called.toList else []) := by
  cases steps with
  | idle => simpa using all
  | arrived id peerAddr payload fresh =>
    constructor
    · intro other absent
      rw [OrderedMap.getElem?_insert] at absent
      split at absent
      · cases absent
      · simpa [Choice.advances] using all.unknown other absent
    · intro other task known
      rw [OrderedMap.getElem?_insert] at known
      split at known
      · rename_i same
        subst same
        cases known
        simpa [Served, Choice.advances] using all.unknown id fresh
      · simpa [Choice.advances] using all.served other task known
  | advanced id moment task running told stage after performs =>
    constructor
    · intro other absent
      rw [OrderedMap.getElem?_insert] at absent
      split at absent
      · cases absent
      · rename_i different
        simpa [Choice.advances, different] using all.unknown other absent
    · intro other known found
      rw [OrderedMap.getElem?_insert] at found
      split at found
      · rename_i same
        subst same
        cases found
        have here := (all.served id task running).performs performs
        simpa [Choice.advances] using here
      · rename_i different
        simpa [Choice.advances, different] using all.served other known found
  | dropped id task running here =>
    constructor
    · intro other absent
      rw [OrderedMap.getElem?_insert] at absent
      split at absent
      · cases absent
      · simpa [Choice.advances] using all.unknown other absent
    · intro other known found
      rw [OrderedMap.getElem?_insert] at found
      split at found
      · rename_i same
        subst same
        cases found
        have before := all.served id task running
        rcases here with here | here <;> simpa [Served, here, Choice.advances] using before
      · simpa [Choice.advances] using all.served other known found
  | collected => exact ⟨by simpa [Choice.advances] using all.unknown, by simpa [Choice.advances] using all.served⟩
  | tallied => exact ⟨by simpa [Choice.advances] using all.unknown, by simpa [Choice.advances] using all.served⟩

theorem run_allServed (store : σ) (choices : List Choice) :
    AllServed cfg.relay (final (step cfg backend) (start cfg store) choices)
      (fun id => callsOf id (trace (step cfg backend) (start cfg store) choices)) := by
  induction choices using List.reverseRecOn with
  | nil => exact ⟨fun _ _ => rfl, fun id task known => by simp [start] at known⟩
  | append_singleton choices choice ih =>
    have stepped := (step_spec backend cfg (final (step cfg backend) (start cfg store) choices) choice).allServed ih
    rw [final_snoc, trace_snoc]
    simp only [callsOf_snoc]
    exact stepped

end Handlers

/-- However requests, the collector and dropped connections interleave: the store sees one sequence of calls and answers
    them in turn, a handler makes at most one of them, and answers what the store has answered to its own. -/
theorem calls_linearized (store : σ) (choices : List Choice) :
    let events := trace (step cfg backend) (start cfg store) choices
    let last := final (step cfg backend) (start cfg store) choices
    let calls := report Told.called events
    final (backend.step cfg.relay) store (calls.map Prod.fst) = last.store ∧
      (trace (backend.step cfg.relay) store (calls.map Prod.fst)).map (fun event => (event.input, event.output)) = calls ∧
      (∀ id, last.tasks[id]? = none → callsOf id events = []) ∧
      ∀ id task, last.tasks[id]? = some task → Served cfg.relay task (callsOf id events) := by
  intro events last calls
  obtain ⟨state, answers⟩ := (embeds backend cfg).run (start cfg store) choices
  have all := @run_allServed σ _ backend cfg store choices
  exact ⟨state, answers, all.unknown, all.served⟩

end EnigmaRelay.Service
