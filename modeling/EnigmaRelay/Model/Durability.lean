import EnigmaRelay.Foundation.Durability
import EnigmaRelay.Foundation.Machine
import EnigmaRelay.Model.Attempt

open Std Durability

namespace EnigmaRelay

def Outcome.isOk : Outcome → Bool
  | .push result => result.isOk
  | .pull result => result.isOk
  | .ack result => result.isOk
  | .purgeExpired result => result.isOk

namespace SledStore

/-- A call whose transaction is over and whose flushes are under way, with the number of the state it has left. -/
structure Flushing where
  input : Try
  outcome : Outcome
  place : Nat

/-- The trees with their disk, and the calls between their transaction and their answer. -/
structure Persistent where
  disk : Disk SledStore
  flushing : ExtTreeMap Nat Flushing compare

inductive Incident where
  | commit (id : Nat) (input : Try)
  | answer (id number : Nat)
  | disconnect (id : Nat)
  | crash (number : Nat)

def Incident.input : Incident → Option Try
  | .commit _ input => some input
  | _ => none

def Persistent.start : Persistent := ⟨.fresh new, ∅⟩

/-- Shows the calls that are answered. -/
def Persistent.step [UuidText] (limits : RelayLimits) (state : Persistent) : Incident → Option Flushing × Persistent
  | .commit id input =>
    if id ∈ state.flushing then (none, state)
    else
      let (outcome, store) := tryStep limits state.disk.current input
      (none, ⟨state.disk.write store, state.flushing.insert id ⟨input, outcome, state.disk.last + 1⟩⟩)
  | .answer id number =>
    match state.flushing[id]? with
    | none => (none, state)
    | some call =>
      if call.outcome.isOk then
        -- `Ok` stands behind a flush of every tree that was written, each of them begun after the commit
        if call.place ≤ number ∧ number ≤ state.disk.last then
          (some call, ⟨state.disk.sync number, state.flushing.erase id⟩)
        else (none, state)
      else (some call, ⟨state.disk, state.flushing.erase id⟩)
  | .disconnect id => (none, { state with flushing := state.flushing.erase id })
  | .crash number => (none, ⟨state.disk.recover number, ∅⟩)

end SledStore

end EnigmaRelay
