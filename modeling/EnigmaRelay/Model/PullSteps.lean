import EnigmaRelay.Foundation.LiveScan
import EnigmaRelay.Model.PurgeSteps

namespace EnigmaRelay.SledStore

/-- The tree operation that a pull does next. -/
inductive PullPhase where
  | scan
  | readQuota (more : Bool)
  | finished (result : Result PullBatch)
  deriving DecidableEq

/-- The locals of a pull between two of its tree operations. -/
structure PullRun where
  recipient : String
  start : Option Nat
  limit : Nat
  nowMs : Nat
  last : Option Bytes := none
  items : List QueueMessage := []
  phase : PullPhase := .scan

section Pull

variable [Base64]

def PullRun.begin (recipient : String) (cursor : Option String) (limit nowMs : Nat) : PullRun :=
  match startSeq recipient cursor with
  | .error err =>
    { recipient := recipient, start := none, limit := limit, nowMs := nowMs, phase := .finished (.error err) }
  | .ok start => { recipient := recipient, start := start, limit := min limit u32Max, nowMs := nowMs }

/-- What the iterator yields: the first entry under the prefix behind the one before, as the tree is now. -/
def nextUnder (messages : Tree QueueMessage) (start : Bytes) (last : Option Bytes) : Option (Bytes × QueueMessage) :=
  LiveScan.next compare (scanPrefix messages start) last

/-- One tree operation of `pull`, with the local work up to the next one. -/
def PullRun.step (run : PullRun) (store : SledStore) : PullRun :=
  match run.phase with
  | .scan =>
    match nextUnder store.messages (messagePrefix run.recipient) run.last with
    | none => { run with phase := .readQuota false }
    | some (key, msg) =>
      match parseSeqFromKey key with
      | .error err => { run with phase := .finished (.error err) }
      | .ok none => { run with last := some key }
      | .ok (some seq) =>
        if run.start.any (seq ≤ ·) then { run with last := some key }
        else if msg.deadlineMs ≤ run.nowMs then { run with last := some key }
        else if run.items.length < run.limit then { run with last := some key, items := run.items ++ [msg] }
        else { run with phase := .readQuota true }
  | .readQuota more =>
    let nextCursor :=
      if more then run.items.getLast?.map (fun item => encodeCursor run.recipient item.arrivalSeq) else none
    let quotaValue := readQuota store.quota run.recipient
    { run with phase := .finished (.ok
        { items := run.items, nextCursor := nextCursor,
          remainingEstimate := saturatingSub quotaValue.count run.items.length }) }
  | .finished _ => run

end Pull

section Serving

variable [MessageIter]

/-- A store in use: at most one purge is under way, and a pull that is looked at. -/
structure Serving where
  store : SledStore
  purge : Option PurgeRun := none
  pull : Option PullRun := none

def Serving.new : Serving where
  store := SledStore.new

/-- Who goes next: a handler with its transaction, a purge that begins (also when the one before it
    was cut short) or does one tree operation, or the pull that is looked at likewise. -/
inductive Move where
  | push (msg : InboundMessage)
  | ack (order : HashOrder) (recipient : String) (items : Vec AckItem)
  | collect (order : HashOrder) (nowMs max : Nat)
  | purge
  | begin (recipient : String) (cursor : Option String) (limit nowMs : Nat)
  | pull

variable [Base64] [UuidText]

def Serving.step (limits : RelayLimits) (state : Serving) : Move → Option Outcome × Serving
  | .push msg =>
    let (result, store) := SledStore.push limits msg state.store
    (some (.push result), { state with store := store })
  | .ack order recipient items =>
    let (result, store) := SledStore.ack order recipient items state.store
    (some (.ack result), { state with store := store })
  | .collect order nowMs max => (none, { state with purge := some (.start order nowMs max) })
  | .purge =>
    match state.purge with
    | none => (none, state)
    | some run =>
      let (run, store) := run.step state.store
      (none, { state with store := store, purge := some run })
  | .begin recipient cursor limit nowMs => (none, { state with pull := some (.begin recipient cursor limit nowMs) })
  | .pull => (none, { state with pull := state.pull.map (fun run => run.step state.store) })

end Serving

end EnigmaRelay.SledStore
