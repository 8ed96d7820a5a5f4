import EnigmaRelay.Foundation.Paging
import EnigmaRelay.Memory.Traversal

open Std Machine

namespace EnigmaRelay

def beyondStart (start : Option Nat) (msgs : List QueueMessage) : List QueueMessage :=
  msgs.filter (fun msg => start.all (· < msg.arrivalSeq))

theorem beyondStart_last {start : Option Nat} {msgs : List QueueMessage} {last : QueueMessage}
    (member : last ∈ beyondStart start msgs) :
    beyondStart (some last.arrivalSeq) (beyondStart start msgs) = beyondStart (some last.arrivalSeq) msgs := by
  have floor := (List.mem_filter.mp member).2
  rw [beyondStart, beyondStart, beyondStart, List.filter_filter]
  apply List.filter_congr
  intro msg _
  cases start with
  | none => simp
  | some seq =>
    simp only [Option.all_some, decide_eq_true_eq] at floor
    rw [Option.all_some, Option.all_some, ← Bool.decide_and]
    exact decide_eq_decide.mpr ⟨fun both => both.1, fun above => ⟨above, Nat.lt_trans floor above⟩⟩

variable [Base64] {σ : Type}

/-- While its state is `steady`, a recipient's pulls at `nowMs` find the same messages again and again. -/
structure Still (store : RelayStore σ) (recipient : String) (nowMs : Nat) (steady : σ → Prop)
    (msgs : List QueueMessage) : Prop where
  sorted : msgs.Pairwise (fun a b => a.arrivalSeq < b.arrivalSeq)
  bound : ∀ msg ∈ msgs, msg.arrivalSeq < 2 ^ 64
  pull : ∀ state cursor start limit, steady state → startSeq recipient cursor = .ok start →
    ∃ batch, (store.pull recipient cursor limit nowMs state).1 = .ok batch ∧
      steady (store.pull recipient cursor limit nowMs state).2 ∧
      batch.items = (beyondStart start msgs).take (min limit u32Max) ∧
      batch.nextCursor = if min limit u32Max < (beyondStart start msgs).length then
        batch.items.getLast?.map (fun item => encodeCursor recipient item.arrivalSeq) else none

def Alone (nowMs : Nat) (legs : List Leg) : Prop := ∀ leg ∈ legs, leg.between = [] ∧ leg.nowMs = nowMs ∧ 1 ≤ leg.limit

/-- A client that is alone reads all that lies beyond its cursor, and is done when it has more legs
    than there are messages. -/
theorem Still.traverse {store : RelayStore σ} {limits : RelayLimits} {recipient : String} {nowMs : Nat}
    {steady : σ → Prop} {msgs : List QueueMessage} (still : Still store recipient nowMs steady msgs)
    (plain : ':' ∉ recipient.toList) {cursor : Option String} {start : Option Nat} {state : σ} (here : steady state)
    (started : startSeq recipient cursor = .ok start) {legs : List Leg} (alone : Alone nowMs legs) :
    let pages := EnigmaRelay.traverse store limits recipient cursor state legs
    (Finished pages → pages.flatMap Page.items = beyondStart start msgs) ∧
      ((beyondStart start msgs).length < legs.length → Finished pages) := by
  induction legs generalizing cursor start state with
  | nil =>
    constructor
    · rintro ⟨_, none, _⟩
      cases none
    · intro enough
      cases enough
  | cons leg rest ih =>
    obtain ⟨quiet, rfl, positive⟩ := alone leg List.mem_cons_self
    obtain ⟨batch, answered, after, items, next⟩ := still.pull state cursor start leg.limit here started
    let page := leg.page store limits recipient cursor state
    have pulled : page.pull = taken (store.step limits) state (leg.pull recipient cursor) := by
      change taken (store.step limits) (final (store.step limits) state leg.between) _ = _
      rw [quiet]
      rfl
    have output : page.pull.output = .pull (.ok batch) := by
      rw [pulled]
      exact congrArg Outcome.pull answered
    have left : page.pull.after = (store.pull recipient cursor leg.limit leg.nowMs state).2 := by
      rw [pulled]
      rfl
    obtain ⟨handed, told⟩ := Page.of_answer output
    have shown : page.items = (beyondStart start msgs).take (min leg.limit u32Max) := handed.trans items
    have sorted : (beyondStart start msgs).Pairwise (fun a b => a.arrivalSeq < b.arrivalSeq) := still.sorted.filter _
    rw [EnigmaRelay.traverse]
    by_cases full : min leg.limit u32Max < (beyondStart start msgs).length
    · have room : 0 < min leg.limit u32Max := Nat.lt_min.mpr ⟨positive, by decide⟩
      obtain ⟨last, ends, member⟩ := Paging.page_last room full
      have goesOn : page.nextCursor = some (encodeCursor recipient last.arrivalSeq) := by
        rw [told, next, if_pos full, items, ends]
        rfl
      have remaining :
          beyondStart (some last.arrivalSeq) msgs = (beyondStart start msgs).drop (min leg.limit u32Max) := by
        rw [← beyondStart_last member, ← Paging.beyond_last sorted ends]
        rfl
      obtain ⟨complete, stops⟩ := ih (left ▸ after)
        (startSeq_encodeCursor plain (still.bound last (List.mem_of_mem_filter member)))
        (fun other listed => alone other (List.mem_cons_of_mem _ listed))
      rw [show (leg.page store limits recipient cursor state).nextCursor = _ from goesOn]
      refine ⟨fun finished => ?_, fun enough => ?_⟩
      · have tail := complete (finished.tail (show page.nextCursor ≠ none by rw [goesOn]; exact Option.some_ne_none _))
        rw [List.flatMap_cons, show (leg.page store limits recipient cursor state).items = _ from shown]
        exact (congrArg _ (tail.trans remaining)).trans (List.take_append_drop _ _)
      · refine (stops ?_).cons page
        rw [remaining, List.length_drop]
        rw [List.length_cons] at enough
        omega
    · have ends : page.nextCursor = none := by rw [told, next, if_neg full]
      rw [show (leg.page store limits recipient cursor state).nextCursor = none from ends]
      refine ⟨fun _ => ?_, fun _ => ⟨page, rfl, ends⟩⟩
      rw [List.flatMap_singleton, show (leg.page store limits recipient cursor state).items = _ from shown]
      exact List.take_of_length_le (Nat.not_lt.mp full)

end EnigmaRelay
