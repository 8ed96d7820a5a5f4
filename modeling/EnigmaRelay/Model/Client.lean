import EnigmaRelay.Model.Store

open Machine

namespace EnigmaRelay

/-- One pull of a client's traversal, and the calls of others before it. -/
structure Leg where
  between : List (Call × HashOrder)
  limit : Nat
  nowMs : Nat

def Leg.pull (recipient : String) (leg : Leg) (cursor : Option String) : Call × HashOrder :=
  (.pull recipient cursor leg.limit leg.nowMs, .asListed)

/-- What happened during one leg. -/
structure Page (σ : Type) where
  between : List (Event σ)
  pull : Event σ

variable {σ : Type}

namespace Page

def events (page : Page σ) : List (Event σ) := page.between ++ [page.pull]

def inputs (page : Page σ) : List (Call × HashOrder) := page.events.map Step.input

def batch (page : Page σ) : Option PullBatch :=
  match page.pull.output with
  | .pull (.ok batch) => some batch
  | _ => none

def items (page : Page σ) : List QueueMessage := (page.batch.map PullBatch.items).getD []

def nextCursor (page : Page σ) : Option String := page.batch.bind PullBatch.nextCursor

theorem of_answer {page : Page σ} {batch : PullBatch} (answered : page.pull.output = .pull (.ok batch)) :
    page.items = batch.items ∧ page.nextCursor = batch.nextCursor := by
  have kept : page.batch = some batch := by simp only [Page.batch, answered]
  rw [items, nextCursor, kept]
  exact ⟨rfl, rfl⟩

end Page

/-- The client was told that there is nothing more. -/
def Finished (pages : List (Page σ)) : Prop := ∃ page, pages.getLast? = some page ∧ page.nextCursor = none

theorem Finished.cons {pages : List (Page σ)} (finished : Finished pages) (page : Page σ) : Finished (page :: pages) := by
  obtain ⟨last, ends, none⟩ := finished
  exact ⟨last, by rw [List.getLast?_cons, ends]; rfl, none⟩

theorem Finished.tail {page : Page σ} {pages : List (Page σ)} (finished : Finished (page :: pages))
    (goesOn : page.nextCursor ≠ none) : Finished pages := by
  obtain ⟨last, ends, none⟩ := finished
  rw [List.getLast?_cons] at ends
  cases later : pages.getLast? with
  | none =>
    rw [later] at ends
    cases ends
    exact absurd none goesOn
  | some final =>
    rw [later] at ends
    cases ends
    exact ⟨final, later, none⟩

section Traversal

variable (store : RelayStore σ) (limits : RelayLimits) (recipient : String)

def Leg.page (leg : Leg) (cursor : Option String) (state : σ) : Page σ where
  between := trace (store.step limits) state leg.between
  pull := taken (store.step limits) (final (store.step limits) state leg.between) (leg.pull recipient cursor)

/-- A client pulls with the cursor it was given last, until it is given none. -/
def traverse : Option String → σ → List Leg → List (Page σ)
  | _, _, [] => []
  | cursor, state, leg :: rest =>
    let page := leg.page store limits recipient cursor state
    page :: match page.nextCursor with
      | none => []
      | some cursor => traverse (some cursor) page.pull.after rest

section Leg

variable (leg : Leg) (cursor : Option String) (state : σ)

theorem Leg.page_events : (leg.page store limits recipient cursor state).events =
    trace (store.step limits) state (leg.between ++ [leg.pull recipient cursor]) := by
  rw [trace_snoc]
  rfl

theorem Leg.page_inputs : (leg.page store limits recipient cursor state).inputs =
    leg.between ++ [leg.pull recipient cursor] := by
  rw [Page.inputs, Leg.page_events, trace_inputs]

theorem Leg.page_after : (leg.page store limits recipient cursor state).pull.after =
    final (store.step limits) state (leg.between ++ [leg.pull recipient cursor]) := by
  rw [final_snoc]
  rfl

end Leg

end Traversal

end EnigmaRelay
