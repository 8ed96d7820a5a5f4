import EnigmaRelay.Model.SledStore

namespace EnigmaRelay.SledStore

/-- What goes wrong with one call: nothing, its transaction, or one of the flushes behind it. -/
inductive Fault where
  | none
  | abort (err : EnigmaRelayError)
  | flush (err : EnigmaRelayError)
  deriving DecidableEq

def Fault.aborts : Fault → Bool
  | .abort _ => true
  | _ => false

/-- One attempt of a call: an aborted transaction leaves the trees as they were, and a flush that
    fails takes the answer away when the transaction is already committed. -/
def attempt {α : Type} (fault : Fault) (call : SledStore → Result α × SledStore) (store : SledStore) :
    Result α × SledStore :=
  match fault with
  | .none => call store
  | .abort err => (.error err, store)
  | .flush err =>
    match call store with
    | (.ok _, after) => (.error err, after)
    | (.error refused, after) => (.error refused, after)

theorem attempt_after {α : Type} (fault : Fault) (call : SledStore → Result α × SledStore) (store : SledStore) :
    (attempt fault call store).2 = if fault.aborts then store else (call store).2 := by
  cases fault with
  | none => rfl
  | abort err => rfl
  | flush err =>
    rw [attempt]
    cases called : call store with
    | mk result after => cases result <;> rfl

theorem attempt_answered {α : Type} {fault : Fault} {call : SledStore → Result α × SledStore} {store : SledStore}
    {result : α}
    (answered : (attempt fault call store).1 = .ok result) :
    fault.aborts = false ∧ (call store).1 = .ok result := by
  cases fault with
  | none => exact ⟨rfl, answered⟩
  | abort err => cases answered
  | flush err =>
    rw [attempt] at answered
    cases called : call store with
    | mk outcome after =>
      rw [called] at answered
      cases outcome <;> cases answered

/-- An attempt of a client. -/
inductive Try where
  | push (msg : InboundMessage) (fault : Fault)
  | ack (order : HashOrder) (recipient : String) (items : Vec AckItem) (fault : Fault)

def tryStep [UuidText] (limits : RelayLimits) (store : SledStore) : Try → Outcome × SledStore
  | .push msg fault =>
    let (result, store) := attempt fault (push limits msg) store
    (.push result, store)
  | .ack order recipient items fault =>
    let (result, store) := attempt fault (ack order recipient items) store
    (.ack result, store)

end EnigmaRelay.SledStore
