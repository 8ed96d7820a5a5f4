import EnigmaRelay.Backends.Collection
import EnigmaRelay.Backends.Cursor
import EnigmaRelay.Model.Config
import EnigmaRelay.Model.Standard

open Std Machine

namespace EnigmaRelay

namespace Server

theorem deadline_iff {ttlSeconds nowMillis : Nat} (early : nowMillis < u64Max) :
    nowMillis < saturatingAdd nowMillis (saturatingMul ttlSeconds 1000) ↔ 1 ≤ ttlSeconds := by
  unfold saturatingAdd saturatingMul
  have cap : 0 < u64Max := by decide
  omega

end Server

namespace MemStore

section Held

def Calm (recipient : String) (nowMs : Nat) (msg : QueueMessage) : Call → Prop
  | .push pushed => pushed.recipient = recipient → msg.arrivalSeq < u64Max
  | .pull addressee _ _ now => addressee = recipient → now ≤ nowMs
  | .ack addressee _ => addressee ≠ recipient
  | .purgeExpired now _ => now ≤ nowMs

/-- The message is in its place, which the recipient's next message will not take. -/
structure Held (recipient : String) (msg : QueueMessage) (entry : RecipientState) : Prop where
  filed : entry.Filed recipient
  owned : entry.Owned recipient
  queued : entry.queue[msg.arrivalSeq]? = some msg
  passed : msg.arrivalSeq < u64Max → msg.arrivalSeq < entry.seq

variable {recipient : String} {msg : QueueMessage}

theorem Held.accepted {pushed : InboundMessage} {entry : RecipientState} (filed : entry.Filed pushed.recipient)
    (owned : entry.Owned pushed.recipient) :
    Held pushed.recipient (pushed.queued entry.seq) (entry.accept pushed) where
  filed := filed.accept
  owned := owned.accept
  queued := by
    rw [RecipientState.accept, OrderedMap.getElem?_insert]
    exact if_pos rfl
  passed room := by
    change entry.seq < saturatingAdd entry.seq 1
    rw [saturatingAdd_of_le room]
    exact Nat.lt_succ_self _

theorem Held.accept {pushed : InboundMessage} {entry : RecipientState} (held : Held pushed.recipient msg entry)
    (room : msg.arrivalSeq < u64Max) : Held pushed.recipient msg (entry.accept pushed) where
  filed := held.filed.accept
  owned := held.owned.accept
  queued := by
    rw [RecipientState.accept, OrderedMap.getElem?_insert, if_neg (Nat.ne_of_gt (held.passed room))]
    exact held.queued
  passed _ := by
    have above := held.passed room
    change msg.arrivalSeq < min (entry.seq + 1) u64Max
    omega

theorem Held.thinned {before after : RecipientState} (held : Held recipient msg before)
    (thinned : RecipientState.Thinned before after) (queued : after.queue[msg.arrivalSeq]? = some msg) :
    Held recipient msg after where
  filed := held.filed.thinned thinned
  owned := held.owned.thinned thinned
  queued := queued
  passed room := thinned.seq ▸ held.passed room

theorem push_stored {limits : RelayLimits} {pushed : InboundMessage} {state : MemStore} {answer : PushResult}
    (answered : (push limits pushed state).1 = .ok answer) (stored : answer.stored = true) :
    (push limits pushed state).2.entryOf pushed.recipient = (state.entryOf pushed.recipient).accept pushed := by
  have after : (push limits pushed state).2.entryOf pushed.recipient =
      ((state.entryOf pushed.recipient).push limits pushed).2 := by
    rw [push, entryOf_insert, if_pos rfl]
  change ((state.entryOf pushed.recipient).push limits pushed).1 = _ at answered
  rcases RecipientState.push_cases limits pushed (state.entryOf pushed.recipient) with
    ⟨_, _, outcome⟩ | ⟨_, _, outcome⟩ | ⟨_, _, outcome⟩
  · rw [outcome] at answered
    cases answered
    cases stored
  · rw [outcome] at answered
    cases answered
  · rw [after, outcome]

variable [Base64] (limits : RelayLimits) {nowMs : Nat} {state : MemStore}

theorem Held.step (held : Held recipient msg (state.entryOf recipient)) (alive : nowMs < msg.deadlineMs)
    {input : Call × HashOrder} (calm : Calm recipient nowMs msg input.1) :
    Held recipient msg ((next limits state input).2.entryOf recipient) := by
  have elsewhere : ∀ {addressee : String}, input.1.addressee = some addressee → addressee ≠ recipient →
      Held recipient msg ((next limits state input).2.entryOf recipient) := by
    intro addressee addressed other
    rw [entryOf, step_elsewhere limits state input addressed other]
    exact held
  have fresh : ∀ {now : Nat}, now ≤ nowMs → ¬ Stale now msg := by
    intro now early
    exact Nat.not_le.mpr (Nat.lt_of_le_of_lt early alive)
  rcases step_accepts limits state input recipient with ⟨pushed, called, rfl, accepted⟩ | thinned
  · rw [called] at calm
    rw [accepted]
    exact held.accept (calm rfl)
  · obtain ⟨call, order⟩ := input
    cases call with
    | push pushed =>
      rcases push_accepts limits pushed state recipient with ⟨rfl, accepted⟩ | same
      · change Held _ _ (entryOf (push limits pushed state).2 _)
        rw [accepted]
        exact held.accept (calm rfl)
      · change Held _ _ (entryOf (push limits pushed state).2 _)
        rw [same]
        exact held
    | pull addressee cursor limit now =>
      by_cases own : addressee = recipient
      · have sheds := (pull_sheds addressee cursor limit now state).queue recipient
        exact held.thinned thinned (sheds.rest _ _ held.queued (fresh (calm own)))
      · exact elsewhere rfl own
    | ack addressee items => exact elsewhere rfl calm
    | purgeExpired now max =>
      have sheds := (purge_sheds order now max state).queue recipient
      exact held.thinned thinned (sheds.rest _ _ held.queued (fresh calm))

theorem Held.run (held : Held recipient msg (state.entryOf recipient)) (alive : nowMs < msg.deadlineMs)
    {calls : List (Call × HashOrder)} (calm : ∀ input ∈ calls, Calm recipient nowMs msg input.1) :
    Held recipient msg ((final (next limits) state calls).entryOf recipient) := by
  apply @guarded_run _ _ _ (next limits) (fun state => Held recipient msg (state.entryOf recipient))
    (fun _ input => Calm recipient nowMs msg input.1)
  · exact fun _ _ held calm => held.step limits alive calm
  · exact held
  · exact fun event member => calm event.input (trace_event (next limits) member).1

end Held

section Read

variable [Base64] {limits : RelayLimits} {recipient : String} {msg : QueueMessage} {nowMs : Nat}

/-- The pulls of a client at `nowMs`, pages of positive size, with calm calls of others in between. -/
def Reads (recipient : String) (nowMs : Nat) (msg : QueueMessage) (legs : List Leg) : Prop :=
  ∀ leg ∈ legs, leg.nowMs = nowMs ∧ 1 ≤ leg.limit ∧ ∀ input ∈ leg.between, Calm recipient nowMs msg input.1

/-- A finished traversal has come by a message that was held all along. -/
theorem Held.read (plain : ':' ∉ recipient.toList) (alive : nowMs < msg.deadlineMs) {cursor : Option String}
    {start : Option Nat} {state : MemStore} (held : Held recipient msg (state.entryOf recipient))
    (started : startSeq recipient cursor = .ok start) (ahead : start.all (· < msg.arrivalSeq) = true)
    {legs : List Leg} (reads : Reads recipient nowMs msg legs)
    (finished : Finished (traverse relayStore limits recipient cursor state legs)) :
    msg ∈ (traverse relayStore limits recipient cursor state legs).flatMap Page.items := by
  induction legs generalizing cursor start state with
  | nil =>
    obtain ⟨_, none, _⟩ := finished
    cases none
  | cons leg rest ih =>
    obtain ⟨rfl, positive, calm⟩ := reads leg List.mem_cons_self
    let page := leg.page relayStore limits recipient cursor state
    have before : Held recipient msg ((final (next limits) state leg.between).entryOf recipient) :=
      held.run limits alive calm
    have asks : Calm recipient leg.nowMs msg (leg.pull recipient cursor).1 := fun _ => Nat.le_refl _
    have after : Held recipient msg (page.pull.after.entryOf recipient) := before.step limits alive asks
    obtain ⟨batch, answer, items, given⟩ := pull_accepted recipient before.filed started leg.limit leg.nowMs
    have answered : page.pull.output = .pull (.ok batch) := congrArg Outcome.pull answer
    obtain ⟨handed, told⟩ := Page.of_answer answered
    generalize offered : ((final (next limits) state leg.between).entryOf recipient).pending start leg.nowMs = offer
      at items given
    have listed : msg ∈ offer := by
      rw [← offered]
      exact mem_pending.mpr ⟨before.filed.mem.mpr before.queued, alive, ahead⟩
    have sorted : offer.Pairwise (fun a b => a.arrivalSeq < b.arrivalSeq) := offered ▸ before.filed.sorted.filter _
    rw [traverse] at finished ⊢
    rw [List.flatMap_cons, List.mem_append]
    rw [show (leg.page relayStore limits recipient cursor state).items = _ from handed.trans items]
    by_cases full : min leg.limit u32Max < offer.length
    · obtain ⟨last, ends, member⟩ := Paging.page_last (Nat.lt_min.mpr ⟨positive, by decide⟩) full
      rcases Paging.mem_page_or_beyond sorted ends listed with here | beyond
      · exact .inl here
      · right
        rw [← offered] at member
        have queued := before.filed.mem.mp (mem_pending.mp member).1
        obtain ⟨owner, bound⟩ := before.owned.queue _ _ queued
        have goesOn : (leg.page relayStore limits recipient cursor state).nextCursor =
            some (encodeCursor recipient last.arrivalSeq) := by
          rw [told, given, if_pos full, items, ends, Option.map_some, owner]
        rw [goesOn] at finished ⊢
        refine ih after (startSeq_encodeCursor plain bound) (decide_eq_true beyond)
          (fun other member => reads other (List.mem_cons_of_mem _ member)) (finished.tail ?_)
        rw [goesOn]
        exact Option.some_ne_none _
    · left
      rw [List.take_of_length_le (Nat.not_lt.mp full)]
      exact listed

/-- What can be had of a message at `nowMs` as long as nobody acknowledges: it stays, whatever is collected by
    then, finished traversals return it, and a client that is alone gets to the end. -/
structure Deliverable (limits : RelayLimits) (recipient : String) (nowMs : Nat) (msg : QueueMessage)
    (state : MemStore) : Prop where
  stays : ∀ calls, (∀ input ∈ calls, Calm recipient nowMs msg input.1) →
    msg ∈ (final (next limits) state calls).queued recipient
  returned : ∀ legs, Reads recipient nowMs msg legs → Finished (traverse relayStore limits recipient none state legs) →
    msg ∈ (traverse relayStore limits recipient none state legs).flatMap Page.items
  finishes : ∀ legs, Alone nowMs legs → (state.queued recipient).length < legs.length →
    Finished (traverse relayStore limits recipient none state legs)

theorem Held.deliverable_iff (plain : ':' ∉ recipient.toList) {state : MemStore}
    (held : Held recipient msg (state.entryOf recipient)) :
    Deliverable limits recipient nowMs msg state ↔ nowMs < msg.deadlineMs := by
  have bound : ∀ found ∈ state.queued recipient, found.arrivalSeq < 2 ^ 64 :=
    fun found member => (held.owned.queue _ _ (held.filed.mem.mp member)).2
  have course : ∀ legs, Alone nowMs legs →
      (Finished (traverse relayStore limits recipient none state legs) →
        (traverse relayStore limits recipient none state legs).flatMap Page.items =
          (state.queued recipient).filter (live nowMs)) ∧
      ((state.queued recipient).length < legs.length →
        Finished (traverse relayStore limits recipient none state legs)) := by
    intro legs alone
    have started : startSeq recipient none = .ok none := rfl
    obtain ⟨whole, stops⟩ := @Still.traverse _ _ _ limits _ _ _ _ (still held.filed bound nowMs) plain _ _ state
      ⟨held.filed, rfl⟩ started _ alone
    rw [show beyondStart none _ = _ from List.filter_eq_self.mpr (fun _ _ => rfl)] at whole stops
    exact ⟨whole, fun enough => stops (Nat.lt_of_le_of_lt (List.length_filter_le _ _) enough)⟩
  constructor
  · intro deliverable
    -- a client that is alone sees the living messages and no others
    let legs : List Leg := .replicate ((state.queued recipient).length + 1) ⟨[], 1, nowMs⟩
    have alone : Alone nowMs legs := by
      intro leg member
      rw [List.eq_of_mem_replicate member]
      exact ⟨rfl, rfl, Nat.le_refl 1⟩
    have reads : Reads recipient nowMs msg legs := by
      intro leg member
      rw [List.eq_of_mem_replicate member]
      exact ⟨rfl, Nat.le_refl 1, fun _ none => absurd none List.not_mem_nil⟩
    have finished := deliverable.finishes legs alone (by simp [legs])
    have listed := deliverable.returned legs reads finished
    rw [(course legs alone).1 finished] at listed
    exact of_decide_eq_true (List.mem_filter.mp listed).2
  · intro alive
    refine ⟨?_, ?_, fun legs alone => (course legs alone).2⟩
    · intro calls calm
      have after := held.run limits alive calm
      exact after.filed.mem.mpr after.queued
    · intro legs reads finished
      exact held.read plain alive rfl rfl reads finished

/-- After any calls: a message built and stored at `nowMillis` can be had at `nowMillis` exactly when messages
    have any time to live. -/
theorem stored_deliverable_iff {cfg : RelayConfig} (calls : List (Call × HashOrder)) {body : PushRequest}
    {nowMillis : Nat} (early : nowMillis < u64Max) {pushed : InboundMessage}
    (built : Server.buildInboundMessage body cfg.relay nowMillis = .ok pushed) (plain : ':' ∉ body.recipient.toList)
    {answer : PushResult} (answered : (push cfg.relay pushed (final (next cfg.relay) new calls)).1 = .ok answer)
    (stored : answer.stored = true) :
    let state := final (next cfg.relay) new calls
    Deliverable cfg.relay body.recipient nowMillis (pushed.queued (state.entryOf body.recipient).seq)
      (push cfg.relay pushed state).2 ↔ 1 ≤ cfg.relay.messageTtlSeconds := by
  intro state
  obtain ⟨own, deadline⟩ : pushed.recipient = body.recipient ∧
      pushed.deadlineMs = saturatingAdd nowMillis (saturatingMul cfg.relay.messageTtlSeconds 1000) := by
    obtain ⟨_, _, _, rfl⟩ := Server.buildInboundMessage_ok built
    exact ⟨rfl, rfl⟩
  rw [← own] at plain ⊢
  have held : Held pushed.recipient (pushed.queued (state.entryOf pushed.recipient).seq)
      ((push cfg.relay pushed state).2.entryOf pushed.recipient) := by
    rw [push_stored answered stored]
    exact .accepted (run_filed cfg.relay calls _) (run_owned cfg.relay calls _)
  rw [held.deliverable_iff plain, ← Server.deadline_iff early, ← deadline]
  rfl

end Read

def inMemory : RelayConfig := { storage := { kind := .memory } }

def shortLived : RelayConfig := { inMemory with relay := { RelayLimits.default with messageTtlSeconds := 0 } }

theorem stored_deliverable_iff_sample :
    Deliverable RelayLimits.default "alice" 5 ((sample "alice" 1 5 1_209_600_005 1).queued 0)
      (push RelayLimits.default (sample "alice" 1 5 1_209_600_005 1) new).2 := by
  have early : 5 < u64Max := by decide
  have built : Server.buildInboundMessage (sampleRequest "alice" 1) RelayLimits.default 5 =
      .ok (sample "alice" 1 5 1_209_600_005 1) := by decide +kernel
  have answered : (push RelayLimits.default (sample "alice" 1 5 1_209_600_005 1) new).1 =
      .ok { stored := true, duplicate := false, queueLen := 1, queueBytes := 1 } := by decide +kernel
  exact (@stored_deliverable_iff _ inMemory [] _ 5 early _ built (by decide) _ answered rfl).mpr (by decide)

/-- Stored and charged, the message is neither shown to a client nor spared by a purge. -/
theorem stored_undeliverable :
    shortLived.validate ⟨false, false⟩ = .ok () ∧
      ∃ pushed stored batch swept, Server.buildInboundMessage (sampleRequest "alice" 1) shortLived.relay 5 = .ok pushed ∧
        push shortLived.relay pushed new =
          (.ok { stored := true, duplicate := false, queueLen := 1, queueBytes := 1 }, stored) ∧
        (pull "alice" none 256 5 stored).1 = .ok batch ∧ batch.items = [] ∧ batch.nextCursor = none ∧
        purgeExpired .asListed 5 1024 stored = (.ok 1, swept) ∧ swept.queued "alice" = [] := by
  refine ⟨by decide, sample "alice" 1 5 5 1, _, { items := [], nextCursor := none, remainingEstimate := 0 }, _,
    ?_, rfl, ?_, rfl, rfl, rfl, ?_⟩
  · decide +kernel
  · decide +kernel
  · decide +kernel

end MemStore

end EnigmaRelay
