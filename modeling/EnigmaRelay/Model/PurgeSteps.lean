import EnigmaRelay.Foundation.TreeIter
import EnigmaRelay.Model.SledStore

open Std

namespace EnigmaRelay.SledStore

/-- The iterator over the messages. How it reads a tree that others change is not the relay's. -/
abbrev MessageIter := TreeIter Bytes QueueMessage compare

/-- The tree operation that a purge does next. -/
inductive PurgePhase where
  | next
  | removeMessage (key : Bytes) (msg : QueueMessage)
  | removeIndex (msg : QueueMessage)
  | readQuota (msg : QueueMessage)
  | writeBack (pending : List (String × QuotaValue))
  | finished (removed : Nat)
  deriving DecidableEq

section Purge

variable [MessageIter]

/-- The locals of a purge between two of its tree operations. -/
structure PurgeRun where
  nowMs : Nat
  target : Nat
  order : HashOrder
  entries : TreeIter.Cursor QueueMessage (compare : Bytes → Bytes → Ordering) := TreeIter.iter
  removed : Nat := 0
  quotas : ExtTreeMap String QuotaValue compare := ∅
  phase : PurgePhase := .next

def PurgeRun.start (order : HashOrder) (nowMs max : Nat) : PurgeRun where
  nowMs := nowMs
  target := min max gcBatchLimit
  order := order

/-- The next operation of the purge stands behind a `?`, so that it may end the call with an error. -/
def PurgeRun.fallible (run : PurgeRun) : Bool :=
  match run.phase with
  -- the iterator read and the decoding; a full batch breaks out before it looks at what was read
  | .next => run.removed < run.target
  | .removeMessage _ _ => true
  | .removeIndex _ => true
  | .readQuota msg => (run.quotas[msg.recipient]?).isNone
  -- an insert, or the flushes behind the last one
  | .writeBack _ => true
  | .finished _ => false

variable [UuidText]

/-- One tree operation of `purge_expired`, with the local work up to the next one. -/
def PurgeRun.step (run : PurgeRun) (store : SledStore) : PurgeRun × SledStore :=
  match run.phase with
  | .next =>
    let (entry, entries) := TreeIter.next run.entries store.messages
    let run := { run with entries := entries }
    match entry with
    | none => ({ run with phase := .writeBack (writeBacks run.order run.quotas) }, store)
    | some (key, msg) =>
      if run.removed ≥ run.target then ({ run with phase := .writeBack (writeBacks run.order run.quotas) }, store)
      else if msg.deadlineMs > run.nowMs then (run, store)
      else ({ run with phase := .removeMessage key msg }, store)
  | .removeMessage key msg =>
    ({ run with phase := .removeIndex msg }, { store with messages := store.messages.erase key })
  | .removeIndex msg =>
    ({ run with phase := .readQuota msg },
      { store with index := store.index.erase (indexKey msg.recipient msg.messageId msg.messageMeta.chunkIndex) })
  | .readQuota msg =>
    -- only on first sight of the recipient is the tree read; later charges go to the cached value
    let quotaEntry := cachedQuota run.quotas store msg.recipient
    ({ run with
       quotas := run.quotas.insert msg.recipient (quotaEntry.refund msg)
       removed := run.removed + 1
       phase := .next }, store)
  | .writeBack [] => ({ run with phase := .finished run.removed }, store)
  | .writeBack ((recipient, quotaValue) :: rest) =>
    ({ run with phase := .writeBack rest },
      { store with quota := store.quota.insert (quotaKey recipient) quotaValue })
  | .finished _ => (run, store)

/-- What a read of the iterator leads to. -/
theorem PurgeRun.next_cases {run : PurgeRun} (phase : run.phase = .next) (store : SledStore) :
    let read := TreeIter.next run.entries store.messages
    ((read.1 = none ∨ run.target ≤ run.removed) ∧ run.step store =
      ({ run with entries := read.2, phase := .writeBack (writeBacks run.order run.quotas) }, store)) ∨
    ∃ key msg, read.1 = some (key, msg) ∧ run.removed < run.target ∧
      ((run.nowMs < msg.deadlineMs ∧ run.step store = ({ run with entries := read.2 }, store)) ∨
        (msg.deadlineMs ≤ run.nowMs ∧
          run.step store = ({ run with entries := read.2, phase := .removeMessage key msg }, store))) := by
  intro read
  rw [PurgeRun.step, phase]
  cases found : read.1 with
  | none =>
    left
    refine ⟨.inl rfl, ?_⟩
    simp only [show (TreeIter.next run.entries store.messages).1 = none from found]
    rfl
  | some entry =>
    obtain ⟨key, msg⟩ := entry
    simp only [show (TreeIter.next run.entries store.messages).1 = some (key, msg) from found]
    by_cases full : run.removed ≥ run.target
    · left
      refine ⟨.inr full, ?_⟩
      rw [if_pos full]
    · right
      refine ⟨key, msg, rfl, Nat.not_le.mp full, ?_⟩
      rw [if_neg full]
      by_cases fresh : msg.deadlineMs > run.nowMs
      · left
        rw [if_pos fresh]
        exact ⟨fresh, by rw [← phase]⟩
      · right
        rw [if_neg fresh]
        exact ⟨Nat.not_lt.mp fresh, rfl⟩

/-- A store with one purge under way. -/
structure Collecting where
  store : SledStore
  purge : PurgeRun

def Collecting.start (order : HashOrder) (nowMs max : Nat) (store : SledStore) : Collecting :=
  ⟨store, .start order nowMs max⟩

/-- Who goes next: a handler with its transaction, or the purge with one tree operation. -/
inductive Turn where
  | push (msg : InboundMessage)
  | ack (order : HashOrder) (recipient : String) (items : Vec AckItem)
  | purge

def Collecting.step (limits : RelayLimits) (state : Collecting) : Turn → Option Outcome × Collecting
  | .push msg =>
    let (result, store) := push limits msg state.store
    (some (.push result), { state with store := store })
  | .ack order recipient items =>
    let (result, store) := ack order recipient items state.store
    (some (.ack result), { state with store := store })
  | .purge =>
    let (purge, store) := state.purge.step state.store
    (none, ⟨store, purge⟩)

/-- What comes next while `run_gc` is running: its ticker fires, or somebody takes a turn. -/
inductive Beat where
  | tick (order : HashOrder) (nowMs : Nat)
  | turn (turn : Turn)

/-- Before the first tick. -/
def Collecting.idle (store : SledStore) : Collecting where
  store := store
  purge := { nowMs := 0, target := 0, order := .asListed, phase := .finished 0 }

/-- `run_gc` awaits its purge before it looks at the ticker again. -/
def Collecting.beat (limits : RelayLimits) (state : Collecting) : Beat → Option Outcome × Collecting
  | .tick order nowMs =>
    match state.purge.phase with
    | .finished _ => (none, .start order nowMs 1024 state.store)
    | _ => (none, state)
  | .turn turn => state.step limits turn

end Purge

end EnigmaRelay.SledStore
