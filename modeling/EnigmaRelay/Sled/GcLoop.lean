import EnigmaRelay.Foundation.Totals
import EnigmaRelay.Model.Standard
import EnigmaRelay.Sled.Operations

open Std Machine

namespace EnigmaRelay.SledStore

def due1 (deadline : Nat) (msg : QueueMessage) : Nat := if msg.deadlineMs ≤ deadline then 1 else 0

/-- How many stored messages expire by the deadline. -/
def late (deadline : Nat) (messages : Tree QueueMessage)  : Nat := Totals.total (due1 deadline) messages

/-- Nothing is stored that expires by the deadline. -/
def Clear (deadline : Nat) (store : SledStore) : Prop :=
  ∀ (key : Bytes) (msg : QueueMessage), store.messages[key]? = some msg → deadline < msg.deadlineMs

theorem late_eq_zero {deadline : Nat} {store : SledStore} (clear : Clear deadline store) :
    late deadline store.messages = 0 := by
  rw [late, Totals.total, List.sum_eq_zero_iff]
  intro amount member
  obtain ⟨⟨key, msg⟩, listed, rfl⟩ := List.mem_map.mp member
  exact if_neg (Nat.not_le.mpr (clear key msg (OrderedMap.mem_toList.mp listed)))

theorem Clear.mono {earliest : Nat} {store after : SledStore} (clear : Clear earliest store)
    (old : ∀ (key : Bytes) (msg : QueueMessage), after.messages[key]? = some msg → msg.deadlineMs ≤ earliest →
      store.messages[key]? = some msg) : Clear earliest after := by
  intro key msg bound
  by_contra early
  exact early (clear key msg (old key msg bound (Nat.not_lt.mp early)))

section Pool

/-- Entries that a purge has not taken yet: all that are stored, and all that its iterator may still yield. -/
abbrev Pool := Finset (Bytes × QueueMessage)

variable (deadline : Nat) (pool : Pool) (entry : Bytes × QueueMessage)

def Pool.late : Nat := (pool.filter (fun entry => entry.2.deadlineMs ≤ deadline)).card

theorem pool_start (messages : Tree QueueMessage) :
    Pool.late deadline messages.toList.toFinset ≤ SledStore.late deadline messages := by
  have counted : (messages.toList.filter (fun entry => entry.2.deadlineMs ≤ deadline)).length =
      SledStore.late deadline messages := by
    rw [SledStore.late, Totals.total]
    induction messages.toList with
    | nil => rfl
    | cons entry rest ih =>
      rw [List.filter_cons, List.map_cons, List.sum_cons, ← ih, due1]
      split <;> simp_all [Nat.add_comm]
  have same : messages.toList.toFinset.filter (fun entry => entry.2.deadlineMs ≤ deadline) =
      (messages.toList.filter (fun entry => entry.2.deadlineMs ≤ deadline)).toFinset := by
    ext entry
    simp
  rw [Pool.late, ← counted, same]
  exact List.toFinset_card_le _

theorem pool_insert : Pool.late deadline (insert entry pool) ≤ Pool.late deadline pool + due1 deadline entry.2 := by
  rw [Pool.late, Pool.late, Finset.filter_insert, due1]
  split
  · exact Finset.card_insert_le _ _
  · exact Nat.le_add_right _ _

variable {deadline pool entry}

theorem pool_erase (member : entry ∈ pool) (expires : entry.2.deadlineMs ≤ deadline) :
    Pool.late deadline (pool.erase entry) + 1 = Pool.late deadline pool := by
  rw [Pool.late, Pool.late, Finset.filter_erase]
  exact Finset.card_erase_add_one (Finset.mem_filter.mpr ⟨member, expires⟩)

theorem pool_empty (none : Pool.late deadline pool = 0) (member : entry ∈ pool) : deadline < entry.2.deadlineMs := by
  by_contra early
  have listed : entry ∈ pool.filter (fun entry => entry.2.deadlineMs ≤ deadline) :=
    Finset.mem_filter.mpr ⟨member, Nat.not_lt.mp early⟩
  rw [Finset.card_eq_zero.mp none] at listed
  cases listed

end Pool

section Others

variable [UuidText] {P : Tree QueueMessage → Prop}

theorem ack_erases (erases : ∀ messages key, P messages → P (messages.erase key)) {store : SledStore}
    (start : P store.messages) (order : HashOrder) (recipient : String) (items : Vec AckItem) :
    P (ack order recipient items store).2.messages := by
  rcases ack_cases order recipient items store with ⟨err, failed⟩ | ⟨tx, folded, acked⟩
  · rw [failed]
    exact start
  · rw [acked]
    refine @ackItems_invariant _ (fun tx => P tx.messages) recipient _ ?_ (AckTx.start store recipient) tx start folded
    intro tx item next _ holds stepped
    unfold ackItem at stepped
    dsimp only at stepped
    split at stepped
    · cases stepped
      exact holds
    · split at stepped
      · cases stepped
      · split at stepped
        · cases stepped
          exact erases _ _ holds
        · cases stepped
          exact holds

end Others

section Iteration

variable [MessageIter]

/-- The messages that a purge under way has taken: counted, or about to be. -/
def PurgeRun.charged (run : PurgeRun) : Nat :=
  match run.phase with
  | .next => run.removed
  | .removeMessage _ _ => run.removed + 1
  | .removeIndex _ => run.removed + 1
  | .readQuota _ => run.removed + 1
  | .writeBack _ => run.removed
  | .finished _ => 0

def PurgePhase.scanning : PurgePhase → Bool
  | .writeBack _ => false
  | .finished _ => false
  | _ => true

/-- A purge whose clock reads between `earliest` and `latest` leaves nothing behind that expires by `earliest`. -/
structure Sweeping (earliest latest : Nat) (seen : List (Tree QueueMessage)) (state : Collecting) : Prop where
  cursor : state.purge.entries = TreeIter.reached seen
  clock : (∀ removed, state.purge.phase ≠ .finished removed) →
    earliest ≤ state.purge.nowMs ∧ state.purge.nowMs ≤ latest ∧ state.purge.target = 1024
  ahead : state.purge.phase.scanning = true → ∀ (key : Bytes) (msg : QueueMessage),
    state.store.messages[key]? = some msg → msg.deadlineMs ≤ earliest →
      (∀ met ∈ seen, met[key]? = some msg) ∧
        (TreeIter.passed seen key = false ∨ ∃ held, state.purge.phase = .removeMessage key held)
  swept : ∀ pending, state.purge.phase = .writeBack pending → Clear earliest state.store ∨ 1024 ≤ state.purge.removed

section Sweep

variable {earliest latest : Nat} {seen : List (Tree QueueMessage)} {run : PurgeRun} {store after : SledStore}

theorem Sweeping.disturbed (sweeping : Sweeping earliest latest seen ⟨store, run⟩)
    (old : ∀ (key : Bytes) (msg : QueueMessage), after.messages[key]? = some msg → msg.deadlineMs ≤ earliest →
      store.messages[key]? = some msg) : Sweeping earliest latest seen ⟨after, run⟩ := by
  refine ⟨sweeping.cursor, sweeping.clock, ?_, ?_⟩
  · intro scanning key msg bound early
    exact sweeping.ahead scanning key msg (old key msg bound early) early
  · intro pending phase
    exact (sweeping.swept pending phase).imp_left (fun clear => clear.mono old)

theorem Sweeping.onward (sweeping : Sweeping earliest latest seen ⟨store, run⟩) {next : PurgeRun}
    (scanning : run.phase.scanning = true) (entries : next.entries = run.entries) (nowMs : next.nowMs = run.nowMs)
    (target : next.target = run.target) (writing : ∀ pending, next.phase ≠ .writeBack pending)
    (old : ∀ (key : Bytes) (msg : QueueMessage), after.messages[key]? = some msg → store.messages[key]? = some msg ∧
      ∀ held, run.phase ≠ .removeMessage key held) : Sweeping earliest latest seen ⟨after, next⟩ := by
  refine ⟨entries.trans sweeping.cursor, ?_, ?_, fun pending same => absurd same (writing pending)⟩
  · intro _
    have clock := sweeping.clock (fun removed same => by
      have ended : run.phase = .finished removed := same
      rw [ended] at scanning
      cases scanning)
    change earliest ≤ next.nowMs ∧ next.nowMs ≤ latest ∧ next.target = 1024
    rw [nowMs, target]
    exact clock
  · intro _ key msg bound early
    obtain ⟨before, free⟩ := old key msg bound
    obtain ⟨everywhere, fresh | ⟨held, hand⟩⟩ := sweeping.ahead scanning key msg before early
    · exact ⟨everywhere, .inl fresh⟩
    · exact absurd hand (free held)

variable [UuidText]

theorem Sweeping.next (lawful : TreeIter.Lawful Bytes QueueMessage compare)
    (sweeping : Sweeping earliest latest seen ⟨store, run⟩) (phase : run.phase = .next) :
    Sweeping earliest latest (seen ++ [store.messages]) ⟨(run.step store).2, (run.step store).1⟩ := by
  have cursor : run.entries = _ := sweeping.cursor
  have moved : (TreeIter.next run.entries store.messages).2 = TreeIter.reached (seen ++ [store.messages]) := by
    rw [cursor, TreeIter.reached_snoc]
  obtain ⟨from_, to_, target⟩ := sweeping.clock (by simp [phase])
  change earliest ≤ run.nowMs at from_
  change run.nowMs ≤ latest at to_
  change run.target = 1024 at target
  -- an early message has been there at every read, this one included, and none has come to it
  have waits : ∀ (key : Bytes) (msg : QueueMessage), store.messages[key]? = some msg → msg.deadlineMs ≤ earliest →
      (∀ met ∈ seen ++ [store.messages], met[key]? = some msg) ∧ TreeIter.passed seen key = false := by
    intro key msg bound early
    obtain ⟨before, fresh | ⟨held, hand⟩⟩ := sweeping.ahead (by simp [phase, PurgePhase.scanning]) key msg bound early
    · refine ⟨?_, fresh⟩
      intro met member
      rcases List.mem_append.mp member with earlier | last
      · exact before met earlier
      · rw [List.mem_singleton.mp last]
        exact bound
    · cases phase.symm.trans hand
  have clock : earliest ≤ run.nowMs ∧ run.nowMs ≤ latest ∧ run.target = 1024 := ⟨from_, to_, target⟩
  rcases run.next_cases phase store with ⟨ends, stepped⟩ | ⟨key, msg, found, _, read⟩
  · rw [stepped]
    refine ⟨moved, fun _ => clock, fun same => (by cases same), fun _ _ => ?_⟩
    rcases ends with ended | full
    · left
      intro key msg bound
      by_contra early
      obtain ⟨everywhere, fresh⟩ := waits key msg bound (Nat.not_lt.mp early)
      obtain ⟨entry, found, _⟩ := lawful.complete seen store.messages key msg everywhere fresh
      rw [cursor] at ended
      exact Option.some_ne_none _ (found.symm.trans ended)
    · right
      exact target ▸ full
  · rw [cursor] at found
    have passes : ∀ (other : Bytes) (left : QueueMessage), store.messages[other]? = some left →
        left.deadlineMs ≤ earliest → (∀ met ∈ seen ++ [store.messages], met[other]? = some left) ∧
          ((key = other ∧ msg = left) ∨ TreeIter.passed (seen ++ [store.messages]) other = false) := by
      intro other left bound early
      obtain ⟨everywhere, fresh⟩ := waits other left bound early
      refine ⟨everywhere, ?_⟩
      rcases lawful.onward everywhere fresh with here | ⟨_, _, later⟩
      · cases Option.some.inj (found.symm.trans here)
        exact .inl ⟨rfl, rfl⟩
      · exact .inr later
    rcases read with ⟨young, stepped⟩ | ⟨_, stepped⟩
    · rw [stepped]
      refine ⟨moved, fun _ => clock, ?_, fun _ same => (by cases phase.symm.trans same)⟩
      intro _ other left bound early
      obtain ⟨everywhere, ⟨_, rfl⟩ | later⟩ := passes other left bound early
      · omega
      · exact ⟨everywhere, .inl later⟩
    · rw [stepped]
      refine ⟨moved, fun _ => clock, ?_, fun _ same => (by cases same)⟩
      intro _ other left bound early
      obtain ⟨everywhere, ⟨rfl, rfl⟩ | later⟩ := passes other left bound early
      · exact ⟨everywhere, .inr ⟨_, rfl⟩⟩
      · exact ⟨everywhere, .inl later⟩

theorem Sweeping.purge (lawful : TreeIter.Lawful Bytes QueueMessage compare)
    (sweeping : Sweeping earliest latest seen ⟨store, run⟩) :
    Sweeping earliest latest (if run.phase = .next then seen ++ [store.messages] else seen)
      ⟨(run.step store).2, (run.step store).1⟩ := by
  cases phase : run.phase with
  | next =>
    rw [if_pos rfl]
    exact sweeping.next lawful phase
  | removeMessage key msg =>
    rw [if_neg (by simp), PurgeRun.step, phase]
    refine sweeping.onward (by rw [phase]; rfl) rfl rfl rfl (by simp) ?_
    intro other left bound
    dsimp only at bound
    rw [OrderedMap.getElem?_erase] at bound
    split at bound
    · cases bound
    · rename_i different
      refine ⟨bound, ?_⟩
      intro held same
      cases phase.symm.trans same
      exact different rfl
  | removeIndex msg =>
    rw [if_neg (by simp), PurgeRun.step, phase]
    exact sweeping.onward (by rw [phase]; rfl) rfl rfl rfl (by simp) (fun _ _ bound => ⟨bound, by simp [phase]⟩)
  | readQuota msg =>
    rw [if_neg (by simp), PurgeRun.step, phase]
    exact sweeping.onward (by rw [phase]; rfl) rfl rfl rfl (by simp) (fun _ _ bound => ⟨bound, by simp [phase]⟩)
  | writeBack pending =>
    have swept := sweeping.swept pending phase
    have clock := sweeping.clock (by simp [phase])
    rw [if_neg (by simp), PurgeRun.step, phase]
    cases pending with
    | nil =>
      exact ⟨sweeping.cursor, fun unfinished => absurd rfl (unfinished _), fun same => (by cases same),
        fun _ same => (by cases same)⟩
    | cons first rest =>
      exact ⟨sweeping.cursor, fun _ => clock, fun same => (by cases same), fun _ _ => swept⟩
  | finished removed =>
    rw [if_neg (by simp), PurgeRun.step, phase]
    exact sweeping

end Sweep

def PurgeRun.settles (run : PurgeRun) : Nat := if run.phase = .writeBack [] then run.removed else 0

/-- Everything stored is in the pool or in hand, and the iterator yields nothing else. -/
structure Pooled (seen : List (Tree QueueMessage)) (pool : Pool) (state : Collecting) : Prop where
  covers : TreeIter.Covers seen (· ∈ pool)
  kept : ∀ (key : Bytes) (msg : QueueMessage), state.store.messages[key]? = some msg →
    (key, msg) ∈ pool ∨ state.purge.phase = .removeMessage key msg

section Account

variable {latest : Nat} {seen : List (Tree QueueMessage)} {pool : Pool} {run : PurgeRun} {store after : SledStore}

theorem Pooled.free (pooled : Pooled seen pool ⟨store, run⟩) (free : ∀ key msg, run.phase ≠ .removeMessage key msg)
    {key : Bytes} {msg : QueueMessage} (bound : store.messages[key]? = some msg) : (key, msg) ∈ pool := by
  rcases pooled.kept key msg bound with member | hand
  · exact member
  · exact absurd hand (free key msg)

theorem Pooled.insert (pooled : Pooled seen pool ⟨store, run⟩) (key : Bytes) (msg : QueueMessage)
    (messages : after.messages = store.messages.insert key msg) :
    Pooled seen (insert (key, msg) pool) ⟨after, run⟩ := by
  refine ⟨pooled.covers.mono (fun _ member => Finset.mem_insert_of_mem member), ?_⟩
  intro other left bound
  change after.messages[other]? = some left at bound
  rw [messages, OrderedMap.getElem?_insert] at bound
  split at bound
  · rename_i same
    cases bound
    exact .inl (same ▸ Finset.mem_insert_self _ _)
  · exact (pooled.kept other left bound).imp_left Finset.mem_insert_of_mem

theorem Pooled.shrink (pooled : Pooled seen pool ⟨store, run⟩)
    (old : ∀ (key : Bytes) (msg : QueueMessage), after.messages[key]? = some msg → store.messages[key]? = some msg) :
    Pooled seen pool ⟨after, run⟩ := ⟨pooled.covers, fun key msg bound => pooled.kept key msg (old key msg bound)⟩

variable [UuidText]

theorem Pooled.next (lawful : TreeIter.Lawful Bytes QueueMessage compare) (pooled : Pooled seen pool ⟨store, run⟩)
    (cursor : run.entries = TreeIter.reached seen) (phase : run.phase = .next) (clock : run.nowMs ≤ latest) :
    ∃ left : Pool, Pooled (seen ++ [store.messages]) left ⟨(run.step store).2, (run.step store).1⟩ ∧
      left.late latest + (run.step store).1.charged = pool.late latest + run.charged := by
  have stored_ : ∀ (key : Bytes) (msg : QueueMessage), store.messages[key]? = some msg → (key, msg) ∈ pool :=
    fun key msg bound => pooled.free (by simp [phase]) bound
  have here : ∀ (key : Bytes) (msg : QueueMessage), store.messages[key]? = some msg →
      TreeIter.passed seen key = true ∨ (key, msg) ∈ pool := fun key msg bound => .inr (stored_ key msg bound)
  have account : run.charged = run.removed := by rw [PurgeRun.charged, phase]
  have covers : TreeIter.Covers (seen ++ [store.messages]) (· ∈ pool) :=
    pooled.covers.read here (fun _ member => .inl member)
  rcases run.next_cases phase store with ⟨_, stepped⟩ | ⟨key, msg, found, _, ⟨_, stepped⟩ | ⟨expired, stepped⟩⟩
  · rw [stepped, account]
    exact ⟨pool, ⟨covers, fun key msg bound => .inl (stored_ key msg bound)⟩, rfl⟩
  · rw [stepped, account]
    refine ⟨pool, ⟨covers, fun key msg bound => .inl (stored_ key msg bound)⟩, ?_⟩
    rw [PurgeRun.charged]
    simp only [phase]
  · rw [cursor] at found
    have member : (key, msg) ∈ pool := lawful.covered pooled.covers here found
    rw [stepped, account]
    refine ⟨pool.erase (key, msg), ⟨pooled.covers.take here found, ?_⟩, ?_⟩
    · intro other left bound
      by_cases same : (other, left) = (key, msg)
      · cases same
        exact .inr rfl
      · exact .inl (Finset.mem_erase.mpr ⟨same, stored_ other left bound⟩)
    · have taken_ := pool_erase member (expired.trans clock)
      simp only [PurgeRun.charged]
      omega

theorem Pooled.purge (lawful : TreeIter.Lawful Bytes QueueMessage compare) (pooled : Pooled seen pool ⟨store, run⟩)
    (cursor : run.entries = TreeIter.reached seen)
    (clock : (∀ removed, run.phase ≠ .finished removed) → run.nowMs ≤ latest) :
    ∃ left : Pool, Pooled (if run.phase = .next then seen ++ [store.messages] else seen) left
        ⟨(run.step store).2, (run.step store).1⟩ ∧
      left.late latest + (run.step store).1.charged + run.settles = pool.late latest + run.charged := by
  cases phase : run.phase with
  | next =>
    have settled : run.settles = 0 := by simp [PurgeRun.settles, phase]
    rw [if_pos rfl, settled]
    exact pooled.next lawful cursor phase (clock (by simp [phase]))
  | removeMessage key msg =>
    have settled : run.settles = 0 := by simp [PurgeRun.settles, phase]
    have account : run.charged = run.removed + 1 := by rw [PurgeRun.charged, phase]
    rw [if_neg (by simp), settled, account, PurgeRun.step, phase]
    refine ⟨pool, ⟨pooled.covers, ?_⟩, rfl⟩
    intro other left bound
    dsimp only at bound
    rw [OrderedMap.getElem?_erase] at bound
    split at bound
    · cases bound
    · rename_i different
      rcases pooled.kept other left bound with member | hand
      · exact .inl member
      · cases phase.symm.trans hand
        exact absurd rfl different
  | removeIndex msg =>
    have settled : run.settles = 0 := by simp [PurgeRun.settles, phase]
    have account : run.charged = run.removed + 1 := by rw [PurgeRun.charged, phase]
    rw [if_neg (by simp), settled, account, PurgeRun.step, phase]
    exact ⟨pool, ⟨pooled.covers, fun _ _ bound => .inl (pooled.free (by simp [phase]) bound)⟩, rfl⟩
  | readQuota msg =>
    have settled : run.settles = 0 := by simp [PurgeRun.settles, phase]
    have account : run.charged = run.removed + 1 := by rw [PurgeRun.charged, phase]
    rw [if_neg (by simp), settled, account, PurgeRun.step, phase]
    exact ⟨pool, ⟨pooled.covers, fun _ _ bound => .inl (pooled.free (by simp [phase]) bound)⟩, rfl⟩
  | writeBack pending =>
    have account : run.charged = run.removed := by rw [PurgeRun.charged, phase]
    rw [if_neg (by simp), account, PurgeRun.settles, phase]
    cases pending with
    | nil =>
      rw [PurgeRun.step, phase, if_pos rfl]
      exact ⟨pool, ⟨pooled.covers, fun _ _ bound => .inl (pooled.free (by simp [phase]) bound)⟩, rfl⟩
    | cons first rest =>
      rw [PurgeRun.step, phase, if_neg (by simp)]
      exact ⟨pool, ⟨pooled.covers, fun _ _ bound => .inl (pooled.free (by simp [phase]) bound)⟩, rfl⟩
  | finished removed =>
    have settled : run.settles = 0 := by simp [PurgeRun.settles, phase]
    rw [if_neg (by simp), settled, PurgeRun.step, phase]
    exact ⟨pool, pooled, rfl⟩

theorem step_messages (run : PurgeRun) (store : SledStore) {key : Bytes} {msg : QueueMessage}
    (bound : (run.step store).2.messages[key]? = some msg) : store.messages[key]? = some msg := by
  cases phase : run.phase with
  | next =>
    rcases run.next_cases phase store with ⟨_, stepped⟩ | ⟨_, _, _, _, ⟨_, stepped⟩ | ⟨_, stepped⟩⟩
    all_goals rwa [stepped] at bound
  | removeMessage other found =>
    rw [PurgeRun.step, phase] at bound
    dsimp only at bound
    rw [OrderedMap.getElem?_erase] at bound
    split at bound
    · cases bound
    · exact bound
  | removeIndex found => rwa [PurgeRun.step, phase] at bound
  | readQuota found => rwa [PurgeRun.step, phase] at bound
  | writeBack pending => cases pending <;> rwa [PurgeRun.step, phase] at bound
  | finished removed => rwa [PurgeRun.step, phase] at bound

end Account

/-- How far the collector has come: what is left to do, what its batches have done, and whether they have done it all. -/
structure Progress (earliest latest initial brought completed collected : Nat) (state : Collecting) : Prop where
  swept : ∃ seen pool, Sweeping earliest latest seen state ∧ Pooled seen pool state ∧
    pool.late latest + state.purge.charged + collected ≤ initial + brought
  clear : Clear earliest state.store ∨ 1024 * completed ≤ collected

theorem Progress.start (earliest latest : Nat) (store : SledStore) :
    Progress earliest latest (late latest store.messages) 0 0 0 (Collecting.idle store) := by
  refine ⟨⟨[], store.messages.toList.toFinset, ?_, ?_, ?_⟩, .inr (Nat.zero_le _)⟩
  · exact ⟨rfl, fun unfinished => absurd rfl (unfinished 0), fun same => (by cases same), fun _ same => (by cases same)⟩
  · exact ⟨.nil, fun _ _ bound => .inl (List.mem_toFinset.mpr (OrderedMap.mem_toList.mpr bound))⟩
  · exact pool_start latest store.messages

section Loop

variable [UuidText] (limits : RelayLimits)

abbrev BeatEvent := Step Collecting Beat (Option Outcome)

/-- A push that was stored and expires by the deadline. -/
def BeatEvent.brings (deadline : Nat) (event : BeatEvent) : Nat :=
  match event.input, event.output with
  | .turn (.push msg), some outcome => if outcome.stored = 1 then due1 deadline (msg.queued 0) else 0
  | _, _ => 0

/-- The step with which a purge ends. -/
def BeatEvent.completes (event : BeatEvent) : Bool :=
  match event.input with
  | .turn .purge => event.before.purge.phase = .writeBack []
  | _ => false

/-- The ticker fires between `earliest` and `latest`, and nothing is pushed that expires by `earliest`. -/
def Beat.Within (earliest latest : Nat) : Beat → Prop
  | .tick _ nowMs => earliest ≤ nowMs ∧ nowMs ≤ latest
  | .turn (.push msg) => earliest < msg.deadlineMs
  | .turn _ => True

section Progress

variable {limits} {earliest latest initial brought completed collected : Nat} {store : SledStore} {run : PurgeRun}

theorem Progress.tick (progress : Progress earliest latest initial brought completed collected ⟨store, run⟩)
    (order : HashOrder) {nowMs : Nat} (within : earliest ≤ nowMs ∧ nowMs ≤ latest) :
    Progress earliest latest initial brought completed collected
      (Collecting.beat limits ⟨store, run⟩ (.tick order nowMs)).2 := by
  obtain ⟨⟨seen, pool, sweeping, pooled, account⟩, clear⟩ := progress
  rw [Collecting.beat]
  split
  · rename_i removed ended
    have phase : run.phase = .finished removed := ended
    have nothing : run.charged = 0 := by rw [PurgeRun.charged, phase]
    refine ⟨⟨[], pool, ⟨rfl, fun _ => ⟨within.1, within.2, rfl⟩, ?_, ?_⟩, ⟨.nil, ?_⟩, ?_⟩, clear⟩
    · intro _ key msg _ _
      exact ⟨by simp, .inl rfl⟩
    · intro _ same
      cases same
    · intro key msg bound
      exact .inl (pooled.free (by simp [phase]) bound)
    · change pool.late latest + run.charged + collected ≤ _ at account
      change pool.late latest + 0 + collected ≤ _
      rwa [nothing] at account
  · exact ⟨⟨seen, pool, sweeping, pooled, account⟩, clear⟩

theorem Progress.push (progress : Progress earliest latest initial brought completed collected ⟨store, run⟩)
    {msg : InboundMessage} (within : earliest < msg.deadlineMs) :
    Progress earliest latest initial
      (brought + BeatEvent.brings latest (taken (Collecting.beat limits) ⟨store, run⟩ (.turn (.push msg))))
      completed collected
      ⟨(SledStore.push limits msg store).2, run⟩ := by
  obtain ⟨⟨seen, pool, sweeping, pooled, account⟩, clear⟩ := progress
  rcases push_after limits msg store with same | ⟨_, _, arrivalSeq, answer, _, stored, pushed⟩
  · rw [same]
    exact ⟨⟨seen, pool, sweeping, pooled,
      Nat.le_trans account (Nat.add_le_add_left (Nat.le_add_right brought _) initial)⟩, clear⟩
  · have old : ∀ (key : Bytes) (left : QueueMessage), (accept msg arrivalSeq store).messages[key]? = some left →
        left.deadlineMs ≤ earliest → store.messages[key]? = some left := by
      intro key left bound early
      rw [accept, OrderedMap.getElem?_insert] at bound
      split at bound
      · cases bound
        exact absurd early (Nat.not_le.mpr within)
      · exact bound
    have brings : BeatEvent.brings latest (taken (Collecting.beat limits) ⟨store, run⟩ (.turn (.push msg))) =
        due1 latest (msg.queued arrivalSeq) := by
      simp only [taken, Collecting.beat, Collecting.step, BeatEvent.brings, pushed, Outcome.stored, stored, if_true]
      rfl
    have grown := pool_insert latest pool ((msg.queued arrivalSeq).key, msg.queued arrivalSeq)
    rw [pushed, brings]
    refine ⟨⟨seen, _, sweeping.disturbed old, pooled.insert _ _ rfl, ?_⟩, clear.imp_left (fun clear => clear.mono old)⟩
    change pool.late latest + run.charged + collected ≤ _ at account
    change Pool.late latest _ + run.charged + collected ≤ _
    dsimp only at grown
    omega

theorem Progress.ack (progress : Progress earliest latest initial brought completed collected ⟨store, run⟩)
    (order : HashOrder) (recipient : String) (items : Vec AckItem) :
    Progress earliest latest initial brought completed collected
      ⟨(SledStore.ack order recipient items store).2, run⟩ := by
  obtain ⟨⟨seen, pool, sweeping, pooled, account⟩, clear⟩ := progress
  have old := @ack_erases _ (fun messages =>
      ∀ (key : Bytes) (msg : QueueMessage), messages[key]? = some msg → store.messages[key]? = some msg)
    (fun messages key holds other msg bound => by
      rw [OrderedMap.getElem?_erase] at bound
      split at bound
      · cases bound
      · exact holds other msg bound) store (fun _ _ bound => bound) order recipient items
  exact ⟨⟨seen, pool, sweeping.disturbed (fun key msg bound _ => old key msg bound), pooled.shrink old, account⟩,
    clear.imp_left (fun clear => clear.mono (fun key msg bound _ => old key msg bound))⟩

theorem Progress.purge (lawful : TreeIter.Lawful Bytes QueueMessage compare)
    (progress : Progress earliest latest initial brought completed collected ⟨store, run⟩) :
    Progress earliest latest initial brought (completed + if run.phase = .writeBack [] then 1 else 0)
      (collected + run.settles) ⟨(run.step store).2, (run.step store).1⟩ := by
  obtain ⟨⟨seen, pool, sweeping, pooled, account⟩, clear⟩ := progress
  obtain ⟨left, kept, same⟩ := pooled.purge lawful sweeping.cursor (fun unfinished => (sweeping.clock unfinished).2.1)
  have shrunk : ∀ (key : Bytes) (msg : QueueMessage), (run.step store).2.messages[key]? = some msg →
      msg.deadlineMs ≤ earliest → store.messages[key]? = some msg := fun _ _ bound _ => step_messages run store bound
  refine ⟨⟨_, left, sweeping.purge lawful, kept, ?_⟩, ?_⟩
  · change pool.late latest + run.charged + collected ≤ _ at account
    change left.late latest + (run.step store).1.charged + (collected + run.settles) ≤ _
    omega
  · rcases clear with none | full
    · exact .inl (none.mono shrunk)
    · by_cases ended : run.phase = .writeBack []
      · rcases sweeping.swept [] ended with none | batch
        · exact .inl (none.mono shrunk)
        · right
          change 1024 ≤ run.removed at batch
          rw [PurgeRun.settles, if_pos ended, if_pos ended]
          omega
      · right
        rw [PurgeRun.settles, if_neg ended, if_neg ended]
        exact full

end Progress

theorem Progress.beat (lawful : TreeIter.Lawful Bytes QueueMessage compare)
    {earliest latest initial brought completed collected : Nat} {state : Collecting}
    (progress : Progress earliest latest initial brought completed collected state) {beat : Beat}
    (within : beat.Within earliest latest) : ∃ more,
      Progress earliest latest initial (brought + BeatEvent.brings latest (taken (Collecting.beat limits) state beat))
        (completed + if BeatEvent.completes (taken (Collecting.beat limits) state beat) then 1 else 0) (collected + more)
        (state.beat limits beat).2 := by
  obtain ⟨store, run⟩ := state
  cases beat with
  | tick order nowMs => exact ⟨0, progress.tick order within⟩
  | turn turn =>
    cases turn with
    | push msg => exact ⟨0, progress.push within⟩
    | ack order recipient items => exact ⟨0, progress.ack order recipient items⟩
    | purge =>
      refine ⟨run.settles, ?_⟩
      have counted : (if BeatEvent.completes (taken (Collecting.beat limits) ⟨store, run⟩ (.turn .purge)) then 1 else 0) =
          if run.phase = .writeBack [] then 1 else 0 := by
        by_cases ended : run.phase = .writeBack [] <;> simp [BeatEvent.completes, taken, ended]
      rw [counted]
      exact progress.purge lawful

/-- Whatever handlers do between the operations of its purges, as long as they push nothing that expires by `earliest`:
    once the collector has completed so many batches that all messages which expire by `latest` fit in them, nothing is
    left that expires by `earliest`. -/
theorem collector_clears (lawful : TreeIter.Lawful Bytes QueueMessage compare) {earliest latest : Nat}
    (ordered : earliest ≤ latest) {store : SledStore} {beats : List Beat}
    (within : ∀ beat ∈ beats, beat.Within earliest latest)
    (enough : late latest store.messages +
        ((trace (Collecting.beat limits) (.idle store) beats).map (BeatEvent.brings latest)).sum ≤
      1024 * (trace (Collecting.beat limits) (.idle store) beats).countP BeatEvent.completes) :
    Clear earliest (final (Collecting.beat limits) (.idle store) beats).store := by
  have run : ∀ beats : List Beat, (∀ beat ∈ beats, beat.Within earliest latest) → ∃ collected,
      Progress earliest latest (late latest store.messages)
        ((trace (Collecting.beat limits) (.idle store) beats).map (BeatEvent.brings latest)).sum
        ((trace (Collecting.beat limits) (.idle store) beats).countP BeatEvent.completes) collected
        (final (Collecting.beat limits) (.idle store) beats) := by
    intro beats
    induction beats using List.reverseRecOn with
    | nil =>
      intro _
      exact ⟨0, .start earliest latest store⟩
    | append_singleton beats beat ih =>
      intro within
      obtain ⟨collected, progress⟩ := ih (fun other member => within other (List.mem_append_left _ member))
      obtain ⟨more, next⟩ := progress.beat limits lawful (within beat (by simp))
      refine ⟨collected + more, ?_⟩
      rw [final_snoc, trace_snoc, List.map_append, List.sum_append, List.countP_append, List.map_singleton,
        List.sum_singleton, List.countP_singleton]
      exact next
  obtain ⟨collected, ⟨seen, pool, _, pooled, account⟩, clear | full⟩ := run beats within
  · exact clear
  · -- the batches have taken as much as there was, so the pool holds nothing that expires by `latest`
    intro key msg bound
    rcases pooled.kept key msg bound with member | hand
    · exact Nat.lt_of_le_of_lt ordered (pool_empty (by omega) member)
    · have under : 1 ≤ (final (Collecting.beat limits) (.idle store) beats).purge.charged := by
        rw [PurgeRun.charged, hand]
        exact Nat.le_add_left _ _
      omega

end Loop

end Iteration

def sampleStart : SledStore := (push sampleLimits (sample "a" 1 0 5 3) new).2

def sampleBeats : List Beat :=
  [.tick .asListed 10, .turn .purge, .turn .purge, .turn (.push (sample "b" 2 8 20 4)), .turn .purge, .turn .purge,
    .turn .purge, .turn .purge, .turn .purge, .turn .purge]

theorem collector_clears_sample :
    late 10 (final (Collecting.beat sampleLimits) (.idle sampleStart) sampleBeats).store.messages = 0 :=
  late_eq_zero (collector_clears sampleLimits TreeIter.oneLeaf_lawful (Nat.le_refl 10) (fun beat member => by
    simp only [sampleBeats, List.mem_cons, List.not_mem_nil, or_false] at member
    rcases member with rfl | rfl | rfl | rfl | rfl | rfl | rfl | rfl | rfl | rfl
    all_goals first | exact ⟨le_rfl, le_rfl⟩ | exact (by decide : 10 < 20) | exact True.intro) (by decide +kernel))

end EnigmaRelay.SledStore
