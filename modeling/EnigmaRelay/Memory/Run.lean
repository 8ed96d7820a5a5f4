import EnigmaRelay.Memory.Operations

open Std

namespace EnigmaRelay.MemStore

open RecipientState (accept dropAll)

/-- The messages queued for a recipient, in arrival order. -/
def queued (state : MemStore) (recipient : String) : List QueueMessage := (state.entryOf recipient).messages

def Coherent (state : MemStore) : Prop := ∀ recipient, (state.entryOf recipient).Coherent recipient

structure Exact (limits : RelayLimits) (state : MemStore) : Prop where
  coherent : state.Coherent
  charged : ∀ recipient, (state.entryOf recipient).Charged
  within : ∀ recipient, (state.entryOf recipient).Within limits

@[simp] theorem entryOf_new (recipient : String) : entryOf new recipient = {} := by
  simp [entryOf, new]

theorem new_coherent : Coherent new := by
  intro recipient
  rw [entryOf_new]
  exact .empty recipient

theorem new_exact (limits : RelayLimits) : Exact limits new :=
  ⟨new_coherent, fun r => entryOf_new r ▸ .empty, fun r => entryOf_new r ▸ .empty limits⟩

theorem entryOf_insert (state : MemStore) (recipient other : String) (entry : RecipientState) :
    entryOf (state.insert recipient entry) other = if recipient = other then entry else state.entryOf other := by
  rw [entryOf, OrderedMap.getElem?_insert]
  split <;> rfl

theorem entryOf_of_some {state : MemStore} {recipient : String} {entry : RecipientState}
    (known : state[recipient]? = some entry) : state.entryOf recipient = entry := by
  rw [entryOf, known]
  rfl

theorem entryOf_of_none {state : MemStore} {recipient : String} (unknown : state[recipient]? = none) :
    state.entryOf recipient = {} := by
  rw [entryOf, unknown]
  rfl

/-- The messages of a recipient that a call may take out of its queue. -/
def Removes (recipient : String) (msg : QueueMessage) : Call → Prop
  | .push _ => False
  | .pull addressee _ _ nowMs => addressee = recipient ∧ msg.deadlineMs ≤ nowMs
  | .ack addressee items => addressee = recipient ∧ msg.ackItem ∈ items.toList
  | .purgeExpired nowMs _ => msg.deadlineMs ≤ nowMs

/-- What is left of an entry after dropping some of the messages a call may remove. -/
def Reduces (call : Call) (recipient : String) (before after : RecipientState) : Prop :=
  ∃ dropped, after = before.dropAll dropped ∧
    ∀ seq ∈ dropped, ∀ msg : QueueMessage, before.queue[seq]? = some msg → Removes recipient msg call

theorem Reduces.refl (call : Call) (recipient : String) (entry : RecipientState) :
    Reduces call recipient entry entry := ⟨[], rfl, by simp⟩

theorem Reduces.trans {call : Call} {recipient : String} {first second third : RecipientState}
    (left : Reduces call recipient first second) (right : Reduces call recipient second third) :
    Reduces call recipient first third := by
  obtain ⟨front, rfl, frontAllowed⟩ := left
  obtain ⟨back, rfl, backAllowed⟩ := right
  refine ⟨front ++ back, by rw [dropAll, dropAll, dropAll, List.foldl_append], ?_⟩
  intro seq member msg found
  rcases List.mem_append.mp member with early | late
  · exact frontAllowed seq early msg found
  · by_cases early : seq ∈ front
    · exact frontAllowed seq early msg found
    · apply backAllowed seq late msg
      rw [RecipientState.dropAll_getElem?, if_neg early, found]

theorem Reduces.messages {call : Call} {recipient : String} {before after : RecipientState}
    (reduced : Reduces call recipient before after) (coherent : before.Coherent recipient) :
    ∃ keep : QueueMessage → Bool, after.messages = before.messages.filter keep ∧
      ∀ msg ∈ before.messages, keep msg = false → Removes recipient msg call := by
  obtain ⟨dropped, rfl, allowed⟩ := reduced
  refine ⟨fun msg => msg.arrivalSeq ∉ dropped, coherent.filed.dropAll_messages dropped, ?_⟩
  intro msg member gone
  exact allowed msg.arrivalSeq (by simpa using gone) msg (coherent.filed.mem.mp member)

section Purge

theorem purgeRecipients_reduces (nowMs max target : Nat) (recipients : List String) (state : MemStore)
    (removed : Nat) (recipient : String) :
    Reduces (.purgeExpired nowMs max) recipient (state.entryOf recipient)
      ((purgeRecipients nowMs target recipients (state, removed)).1.entryOf recipient) := by
  induction recipients generalizing state removed with
  | nil => exact .refl _ _ _
  | cons recip rest ih =>
    rw [purgeRecipients]
    split
    · exact .refl _ _ _
    · split
      · exact ih state removed
      · rename_i entry known
        refine Reduces.trans ?_ (ih _ _)
        rw [entryOf_insert]
        split
        · rename_i same
          subst same
          rw [entryOf_of_some known]
          obtain ⟨taken, rest, chosen, result⟩ := RecipientState.dropCounted_prefix target
            (RecipientState.toDrop nowMs removed target entry.queue.toList []) entry removed
          refine ⟨taken, result, ?_⟩
          intro seq member msg found
          have listed : seq ∈ RecipientState.toDrop nowMs removed target entry.queue.toList [] := by
            rw [chosen]
            exact List.mem_append_left _ member
          rcases RecipientState.toDrop_expired _ _ _ _ _ seq listed with none | ⟨source, present, expired⟩
          · cases none
          · have bound := OrderedMap.mem_toList.mp present
            rw [found] at bound
            cases Option.some.inj bound
            exact expired
        · exact .refl _ _ _

end Purge

theorem push_accepts (limits : RelayLimits) (msg : InboundMessage) (state : MemStore) (recipient : String) :
    (msg.recipient = recipient ∧
      (push limits msg state).2.entryOf recipient = (state.entryOf recipient).accept msg) ∨
    (push limits msg state).2.entryOf recipient = state.entryOf recipient := by
  have after : (push limits msg state).2 = state.insert msg.recipient ((state.entryOf msg.recipient).push limits msg).2 :=
    rfl
  rw [after, entryOf_insert]
  by_cases addressed : msg.recipient = recipient
  · rw [if_pos addressed, addressed]
    rcases RecipientState.push_cases limits msg (state.entryOf recipient) with
      ⟨_, _, pushed⟩ | ⟨_, _, pushed⟩ | ⟨_, _, pushed⟩
    · right
      rw [pushed]
    · right
      rw [pushed]
    · left
      rw [pushed]
      exact ⟨rfl, rfl⟩
  · right
    rw [if_neg addressed]

theorem pending_unknown {state : MemStore} {recipient : String} (unknown : state[recipient]? = none)
    (start : Option Nat) (nowMs : Nat) : (state.entryOf recipient).pending start nowMs = [] := by
  rw [entryOf_of_none unknown]
  simp [RecipientState.pending, RecipientState.messages]

variable [Base64] (limits : RelayLimits)

abbrev next (state : MemStore) (input : Call × HashOrder) : Outcome × MemStore := relayStore.step limits state input
abbrev event (state : MemStore) (input : Call × HashOrder) : Event MemStore := Machine.taken (next limits) state input

/-- The call is a push for `recipient` that passes every check and is stored. -/
structure Stores (state : MemStore) (input : Call × HashOrder) (recipient : String) (msg : InboundMessage) : Prop where
  call : input.1 = .push msg
  addressed : msg.recipient = recipient
  absent : (state.entryOf recipient).idx[msg.ackItem]? = none
  room : (state.entryOf recipient).HasRoom limits msg
  entry : (next limits state input).2.entryOf recipient = (state.entryOf recipient).accept msg
  answer : (next limits state input).1 = .push (.ok
    { stored := true, duplicate := false, queueLen := ((state.entryOf recipient).accept msg).quotaCount,
      queueBytes := ((state.entryOf recipient).accept msg).quotaBytes })

theorem step_effect {state : MemStore} (coherent : state.Coherent) (input : Call × HashOrder) (recipient : String) :
    (∃ msg, Stores limits state input recipient msg ∧ Event.storedFor recipient (event limits state input) = true) ∨
    (Reduces input.1 recipient (state.entryOf recipient) ((next limits state input).2.entryOf recipient) ∧
      Event.storedFor recipient (event limits state input) = false) := by
  obtain ⟨call, order⟩ := input
  cases call with
  | push msg =>
    have insertion : (next limits state (.push msg, order)).2 =
        state.insert msg.recipient ((state.entryOf msg.recipient).push limits msg).2 := rfl
    have hit : Event.storedFor recipient (event limits state (.push msg, order)) = _ :=
      Event.storedFor_push recipient state _ msg order ((state.entryOf msg.recipient).push limits msg).1
    by_cases addressed : msg.recipient = recipient
    · subst addressed
      have own : (next limits state (.push msg, order)).2.entryOf msg.recipient =
          ((state.entryOf msg.recipient).push limits msg).2 := by
        rw [insertion, entryOf_insert, if_pos rfl]
      rcases RecipientState.push_cases limits msg (state.entryOf msg.recipient) with
        ⟨seq, _, pushed⟩ | ⟨_, _, pushed⟩ | ⟨absent, room, pushed⟩
      · right
        rw [own, hit, pushed]
        exact ⟨.refl _ _ _, by simp⟩
      · right
        rw [own, hit, pushed]
        exact ⟨.refl _ _ _, rfl⟩
      · left
        refine ⟨msg, ⟨rfl, rfl, absent, room, by rw [own, pushed], ?_⟩, by rw [hit, pushed]; simp⟩
        change Outcome.push ((state.entryOf msg.recipient).push limits msg).1 = _
        rw [pushed]
    · right
      rw [insertion, entryOf_insert, if_neg addressed, hit]
      refine ⟨.refl _ _ _, ?_⟩
      split <;> simp [addressed]
  | pull addressee cursor limit nowMs =>
    right
    refine ⟨?_, rfl⟩
    change Reduces _ _ _ (entryOf (pull addressee cursor limit nowMs state).2 recipient)
    unfold pull
    split
    · exact .refl _ _ _
    · rename_i entry known
      have here : entry.Coherent addressee := entryOf_of_some known ▸ coherent addressee
      dsimp only
      rw [entryOf_insert]
      split
      · rename_i same
        subst same
        rw [entryOf_of_some known]
        rcases here.filed.pull cursor limit nowMs with ⟨err, _, same⟩ | ⟨start, batch, dropped, _, same, spec⟩
        · rw [same]
          exact .refl _ _ _
        · rw [same]
          refine ⟨dropped, rfl, ?_⟩
          exact fun seq member msg found => ⟨rfl, spec.expired seq member msg found⟩
      · exact .refl _ _ _
  | ack addressee items =>
    right
    refine ⟨?_, rfl⟩
    change Reduces _ _ _ (entryOf (ack order addressee items state).2 recipient)
    unfold ack
    split
    · exact .refl _ _ _
    · rename_i entry known
      have here : entry.Coherent addressee := entryOf_of_some known ▸ coherent addressee
      dsimp only
      rw [entryOf_insert]
      split
      · rename_i same
        subst same
        rw [entryOf_of_some known]
        obtain ⟨dropped, result, named⟩ := here.ackAll {} (order.items.arrange items.toList.dedup)
        refine ⟨dropped, result, ?_⟩
        intro seq member msg found
        have home := here.arrival seq msg found
        have listed := (named msg (RecipientState.mem_messages.mpr ⟨seq, found⟩)).mp (home ▸ member)
        exact ⟨rfl, List.mem_dedup.mp (order.items.mem_arrange.mp listed)⟩
      · exact .refl _ _ _
  | purgeExpired nowMs max =>
    right
    exact ⟨purgeRecipients_reduces nowMs max _ state.keys state 0 recipient, rfl⟩

theorem step_accepts (state : MemStore) (input : Call × HashOrder) (recipient : String) :
    (∃ msg, input.1 = .push msg ∧ msg.recipient = recipient ∧
      (next limits state input).2.entryOf recipient = (state.entryOf recipient).accept msg) ∨
    RecipientState.Thinned (state.entryOf recipient) ((next limits state input).2.entryOf recipient) := by
  have inserted : ∀ {addressee : String} {entry : RecipientState},
      RecipientState.Thinned (state.entryOf addressee) entry →
        RecipientState.Thinned (state.entryOf recipient) (entryOf (state.insert addressee entry) recipient) := by
    intro addressee entry thinned
    rw [entryOf_insert]
    split
    · rename_i same
      exact same ▸ thinned
    · exact .refl _
  obtain ⟨call, order⟩ := input
  cases call with
  | push msg =>
    rcases push_accepts limits msg state recipient with ⟨addressed, accepted⟩ | same
    · exact .inl ⟨msg, rfl, addressed, accepted⟩
    · right
      change RecipientState.Thinned _ (entryOf (push limits msg state).2 recipient)
      rw [same]
      exact .refl _
  | pull addressee cursor limit nowMs =>
    right
    change RecipientState.Thinned _ (entryOf (pull addressee cursor limit nowMs state).2 recipient)
    unfold pull
    split
    · exact .refl _
    · rename_i entry known
      apply inserted
      rw [entryOf_of_some known]
      exact entry.pull_thinned addressee cursor limit nowMs
  | ack addressee items =>
    right
    change RecipientState.Thinned _ (entryOf (ack order addressee items state).2 recipient)
    unfold ack
    split
    · exact .refl _
    · rename_i entry known
      apply inserted
      rw [entryOf_of_some known]
      exact entry.ack_thinned order items
  | purgeExpired nowMs max =>
    right
    obtain ⟨dropped, left, _⟩ := purgeRecipients_reduces nowMs max (min max gcBatchLimit) state.keys state 0 recipient
    change RecipientState.Thinned _ (entryOf (purgeRecipients nowMs _ state.keys (state, 0)).1 recipient)
    rw [left]
    exact RecipientState.dropAll_thinned _ dropped

def Filed (state : MemStore) : Prop := ∀ recipient, (state.entryOf recipient).Filed recipient

theorem step_filed {state : MemStore} (filed : state.Filed) (input : Call × HashOrder) :
    (next limits state input).2.Filed := by
  intro recipient
  rcases step_accepts limits state input recipient with ⟨msg, _, rfl, accepted⟩ | thinned
  · rw [accepted]
    exact (filed msg.recipient).accept
  · exact (filed recipient).thinned thinned

theorem run_filed (calls : List (Call × HashOrder)) : (Machine.final (next limits) new calls).Filed := by
  refine Machine.invariant_run (P := Filed) (next limits) (fun _ input filed => step_filed limits filed input) calls ?_
  intro recipient
  rw [entryOf_new]
  exact .empty recipient

theorem step_elsewhere (state : MemStore) (input : Call × HashOrder) {addressee recipient : String}
    (addressed : input.1.addressee = some addressee) (other : addressee ≠ recipient) :
    (next limits state input).2[recipient]? = state[recipient]? := by
  obtain ⟨call, order⟩ := input
  cases call with
  | push msg =>
    cases addressed
    change (MemStore.push limits msg state).2[recipient]? = _
    rw [push, OrderedMap.getElem?_insert, if_neg other]
  | pull target cursor limit nowMs =>
    cases addressed
    change (MemStore.pull addressee cursor limit nowMs state).2[recipient]? = _
    unfold pull
    split
    · rfl
    · rw [OrderedMap.getElem?_insert, if_neg other]
  | ack target items =>
    cases addressed
    change (MemStore.ack order addressee items state).2[recipient]? = _
    unfold ack
    split
    · rfl
    · rw [OrderedMap.getElem?_insert, if_neg other]
  | purgeExpired nowMs max => cases addressed

theorem pull_answered {state : MemStore} (coherent : state.Coherent) {recipient : String} {cursor : Option String}
    {limit nowMs : Nat} {batch : PullBatch} (answered : (pull recipient cursor limit nowMs state).1 = .ok batch) :
    ∃ start, batch.items = ((state.entryOf recipient).pending start nowMs).take (min limit u32Max) ∧
      batch.nextCursor = if min limit u32Max < ((state.entryOf recipient).pending start nowMs).length then
        batch.items.getLast?.map (fun item => encodeCursor item.recipient item.arrivalSeq) else none := by
  unfold pull at answered
  split at answered
  · rename_i unknown
    cases answered
    refine ⟨none, ?_, ?_⟩
    · rw [pending_unknown unknown, List.take_nil]
    · rw [pending_unknown unknown]
      simp
  · rename_i entry known
    have here : entry.Coherent recipient := entryOf_of_some known ▸ coherent recipient
    rw [entryOf_of_some known]
    rcases here.filed.pull cursor limit nowMs with ⟨err, _, pulled⟩ | ⟨start, found, dropped, _, pulled, spec⟩
    · rw [pulled] at answered
      cases answered
    · rw [pulled] at answered
      cases answered
      exact ⟨start, spec.items, spec.cursor⟩

theorem pull_items {state : MemStore} (coherent : state.Coherent) {recipient : String} {cursor : Option String}
    {limit nowMs : Nat} {batch : PullBatch} (answered : (pull recipient cursor limit nowMs state).1 = .ok batch) :
    List.Sublist batch.items (state.queued recipient) := by
  obtain ⟨start, items, _⟩ := pull_answered coherent answered
  rw [items]
  exact (List.take_sublist _ _).trans List.filter_sublist

end EnigmaRelay.MemStore
