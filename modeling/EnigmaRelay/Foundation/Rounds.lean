import EnigmaRelay.Foundation.Mailbox

/-! A reader that confirms each page in full before it reads the next one, always from the front of the box. -/

namespace Mailbox

open Parcel

variable {M K : Type} [Parcel M K]

/-- What happens before the reader's page, the page, what happens until it is confirmed. -/
structure Round (M K : Type) where
  before : List (Event M K)
  now : Nat
  size : Nat
  page : List M
  more : Bool
  between : List (Event M K)

def Round.events (round : Round M K) : List (Event M K) :=
  round.before ++ .read round.now none round.size round.page round.more ::
    (round.between ++ [.confirmed (round.page.map tag)])

def Passed (bound now : Nat) (box : Box M) : Prop := ∀ msg ∈ box.waiting, number msg < bound → deadline msg ≤ now

theorem Passed.later {bound now after : Nat} {box : Box M} (passed : Passed bound now box) (order : now ≤ after) :
    Passed bound after box :=
  fun msg member low => Nat.le_trans (passed msg member low) order

section Page

variable {box : Box M} {now size : Nat}

theorem mem_pending {start : Option Nat} {msg : M} :
    msg ∈ box.pending now start ↔ msg ∈ box.waiting ∧ now < deadline msg ∧ start.all (· < number msg) = true := by
  rw [Box.pending, List.mem_filter, Bool.and_eq_true, decide_eq_true_eq]

theorem pending_ordered (start : Option Nat) :
    (box.pending now start).Pairwise (fun a b => number a < number b) := box.ordered.filter _

theorem page_part {msg : M} (member : msg ∈ (box.pending now none).take size) :
    msg ∈ box.waiting ∧ now < deadline msg := by
  obtain ⟨waiting, alive, _⟩ := mem_pending.mp (List.mem_of_mem_take member)
  exact ⟨waiting, alive⟩

def reached (bound : Nat) (page : List M) : Nat := (page.getLast?.map (fun last => number last + 1)).getD bound

theorem reached_of_last {bound : Nat} {page : List M} {last : M} (ends : page.getLast? = some last) :
    reached bound page = number last + 1 := by
  rw [reached, ends]
  rfl

theorem reached_le {bound issued : Nat} (behind : bound ≤ issued) {page : List M}
    (below : ∀ msg ∈ page, number msg < issued) : reached bound page ≤ issued := by
  cases ends : page.getLast? with
  | none =>
    rw [reached, ends]
    exact behind
  | some last =>
    rw [reached_of_last ends]
    exact below last (List.mem_of_getLast? ends)

theorem le_reached {bound : Nat} {page : List M} (ahead : ∀ msg ∈ page, bound ≤ number msg) :
    bound ≤ reached bound page := by
  cases ends : page.getLast? with
  | none =>
    rw [reached, ends]
    exact Nat.le_refl _
  | some last =>
    rw [reached_of_last ends]
    exact Nat.le_succ_of_le (ahead last (List.mem_of_getLast? ends))

theorem lt_reached {bound : Nat} {page : List M} (ordered : page.Pairwise (fun a b => number a < number b)) {msg : M}
    (member : msg ∈ page) : number msg < reached bound page := by
  cases ends : page.getLast? with
  | none =>
    rw [List.getLast?_eq_none_iff.mp ends] at member
    cases member
  | some last =>
    obtain ⟨front, split⟩ := List.getLast?_eq_some_iff.mp ends
    rw [reached_of_last ends]
    rw [split, List.pairwise_append] at ordered
    rw [split, List.mem_append, List.mem_singleton] at member
    rcases member with earlier | rfl
    · exact Nat.lt_succ_of_lt (ordered.2.2 msg earlier last (List.mem_singleton_self last))
    · exact Nat.lt_succ_self _

theorem off_page {bound : Nat} (passed : Passed bound now box) {msg : M} (waiting : msg ∈ box.waiting)
    (low : number msg < reached bound ((box.pending now none).take size))
    (off : msg ∉ (box.pending now none).take size) : deadline msg ≤ now := by
  by_contra alive
  have pending : msg ∈ box.pending now none := mem_pending.mpr ⟨waiting, Nat.not_le.mp alive, rfl⟩
  have ordered : (box.pending now none).Pairwise (fun a b => number a < number b) := pending_ordered none
  rw [← List.take_append_drop size (box.pending now none), List.mem_append] at pending
  rw [← List.take_append_drop size (box.pending now none), List.pairwise_append] at ordered
  rcases pending with here | later
  · exact off here
  · cases ends : ((box.pending now none).take size).getLast? with
    | none =>
      rw [reached, ends] at low
      exact alive (passed msg waiting low)
    | some last =>
      rw [reached_of_last ends] at low
      have above := ordered.2.2 last (List.mem_of_getLast? ends) msg later
      omega

end Page

variable [DecidableEq K]

theorem Run.passed {bound now : Nat} {box last : Box M} {events : List (Event M K)} (run : Run box events last)
    (behind : bound ≤ box.issued) (passed : Passed bound now box) : Passed bound now last := by
  intro msg member low
  rcases run.source member with before | later
  · exact passed msg before low
  · omega

theorem Run.round {box last : Box M} {round : Round M K} (run : Run box round.events last) {bound now : Nat}
    (behind : bound ≤ box.issued) (passed : Passed bound now box) (order : now ≤ round.now) :
    (∀ msg ∈ round.page, bound ≤ number msg) ∧ round.page.Pairwise (fun a b => number a < number b) ∧
      reached bound round.page ≤ last.issued ∧ Passed (reached bound round.page) round.now last := by
  obtain ⟨front, first, rest⟩ := run.split
  cases rest with
  | cons step rest =>
    obtain ⟨back, second, confirm⟩ := rest.split
    cases confirm with
    | cons confirmed done =>
      cases done
      have here : Passed bound round.now front := (first.passed behind passed).later order
      have far : bound ≤ front.issued := Nat.le_trans behind first.issued_le
      generalize page : round.page = items at step confirmed ⊢
      generalize flag : round.more = more at step
      cases step with
      | read keep dead =>
        cases confirmed with
        | confirmed =>
          have ordered : ((front.pending round.now none).take round.size).Pairwise
              (fun a b => number a < number b) := (pending_ordered none).sublist (List.take_sublist _ _)
          have close : reached bound ((front.pending round.now none).take round.size) ≤ front.issued :=
            reached_le far (fun msg member => front.below msg (page_part member).1)
          have grown : front.issued ≤ back.issued := second.issued_le
          refine ⟨?_, ordered, Nat.le_trans close grown, ?_⟩
          · intro msg member
            obtain ⟨waiting, alive⟩ := page_part member
            by_contra low
            exact absurd (here msg waiting (Nat.not_le.mp low)) (Nat.not_le.mpr alive)
          · -- below the end of the page there are only lapsed messages and the page itself, which is confirmed
            have middle : ∀ msg ∈ back.waiting,
                number msg < reached bound ((front.pending round.now none).take round.size) →
                msg ∈ front.waiting := by
              intro msg member low
              rcases second.source member with before | later
              · exact List.mem_of_mem_filter before
              · change front.issued ≤ number msg at later
                omega
            intro msg member low
            obtain ⟨waiting, kept⟩ := List.mem_filter.mp member
            apply off_page here (middle msg waiting low) low
            intro onPage
            exact of_decide_eq_true kept (List.mem_map_of_mem onPage)

section Reader

variable {box last : Box M} {rounds : List (Round M K)}

theorem Run.rounds_ascending_from (run : Run box (rounds.flatMap Round.events) last) {bound now : Nat}
    (behind : bound ≤ box.issued) (passed : Passed bound now box) (order : ∀ round ∈ rounds, now ≤ round.now)
    (clocks : rounds.Pairwise (fun earlier later => earlier.now ≤ later.now)) :
    (∀ msg ∈ rounds.flatMap Round.page, bound ≤ number msg) ∧
      (rounds.flatMap Round.page).Pairwise (fun a b => number a < number b) := by
  induction rounds generalizing box bound now with
  | nil => simp
  | cons round rest ih =>
    rw [List.flatMap_cons] at run ⊢
    obtain ⟨middle, first, later⟩ := run.split
    obtain ⟨ahead, ordered, close, beyond⟩ := first.round behind passed (order round List.mem_cons_self)
    obtain ⟨onward, clocks⟩ := List.pairwise_cons.mp clocks
    obtain ⟨restAhead, restOrdered⟩ := ih later close beyond onward clocks
    constructor
    · intro msg member
      rcases List.mem_append.mp member with here | there
      · exact ahead msg here
      · exact Nat.le_trans (le_reached ahead) (restAhead msg there)
    · rw [List.pairwise_append]
      refine ⟨ordered, restOrdered, ?_⟩
      intro msg here other there
      exact Nat.lt_of_lt_of_le (lt_reached ordered here) (restAhead other there)

theorem Run.rounds_ascending (run : Run box (rounds.flatMap Round.events) last)
    (clocks : rounds.Pairwise (fun earlier later => earlier.now ≤ later.now)) :
    (rounds.flatMap Round.page).Pairwise (fun a b => number a < number b) := by
  have passed : Passed 0 0 box := fun msg _ low => absurd low (Nat.not_lt_zero _)
  exact (run.rounds_ascending_from (Nat.zero_le _) passed (fun _ _ => Nat.zero_le _) clocks).2

theorem Run.round_covers {round : Round M K} (run : Run box round.events last) {msg : M} (member : msg ∈ box.waiting)
    (alive : round.now < deadline msg)
    (held : ∀ event ∈ round.before ++ round.between, ¬ event.Releases msg) :
    msg ∈ round.page ∨ (msg ∈ last.waiting ∧ (1 ≤ round.size → round.page ≠ [])) := by
  obtain ⟨front, first, rest⟩ := run.split
  cases rest with
  | cons step rest =>
    obtain ⟨back, second, confirm⟩ := rest.split
    cases confirm with
    | cons confirmed done =>
      cases done
      have here : msg ∈ front.waiting :=
        first.kept member (fun event listed => held event (List.mem_append_left _ listed))
      have there : msg ∈ back.waiting := by
        apply second.kept (step.kept here (Nat.not_le.mpr alive))
        exact fun event listed => held event (List.mem_append_right _ listed)
      have shown : msg ∈ front.pending round.now none := mem_pending.mpr ⟨here, alive, rfl⟩
      have paged : round.page = (front.pending round.now none).take round.size := by
        generalize round.page = items at step
        generalize round.more = more at step
        cases step
        rfl
      by_cases onPage : msg ∈ round.page
      · exact .inl onPage
      · right
        constructor
        · apply confirmed.kept there
          intro named
          obtain ⟨twin, listed, same⟩ := List.mem_map.mp named
          rw [paged] at listed
          rw [Box.eq_of_tag (page_part listed).1 here same, ← paged] at listed
          exact onPage listed
        · intro positive empty
          rw [paged, List.take_eq_nil_iff] at empty
          rcases empty with none | nothing
          · omega
          · rw [nothing] at shown
            cases shown

/-- When a reader's last page is empty, it has read everything that waited and that nothing else let go. -/
theorem Run.rounds_cover (run : Run box (rounds.flatMap Round.events) last) {final : Round M K}
    (ends : rounds.getLast? = some final) (positive : 1 ≤ final.size) (empty : final.page = []) {msg : M}
    (member : msg ∈ box.waiting) (alive : ∀ round ∈ rounds, round.now < deadline msg)
    (held : ∀ round ∈ rounds, ∀ event ∈ round.before ++ round.between, ¬ event.Releases msg) :
    msg ∈ rounds.flatMap Round.page := by
  induction rounds generalizing box with
  | nil => cases ends
  | cons round rest ih =>
    rw [List.flatMap_cons] at run ⊢
    obtain ⟨middle, first, later⟩ := run.split
    rcases first.round_covers member (alive round List.mem_cons_self) (held round List.mem_cons_self) with
      here | ⟨waits, full⟩
    · exact List.mem_append_left _ here
    · apply List.mem_append_right
      cases rest with
      | nil =>
        cases ends
        exact absurd empty (full positive)
      | cons second others =>
        rw [List.getLast?_cons_cons] at ends
        exact ih later ends waits (fun round listed => alive round (List.mem_cons_of_mem _ listed))
          (fun round listed => held round (List.mem_cons_of_mem _ listed))

theorem Run.rounds_part (run : Run box (rounds.flatMap Round.events) last)
    (quiet : (rounds.flatMap Round.events).filterMap Event.arrival = []) :
    ∀ msg ∈ rounds.flatMap Round.page, msg ∈ box.waiting := by
  induction rounds generalizing box with
  | nil => simp
  | cons round rest ih =>
    rw [List.flatMap_cons] at run quiet ⊢
    rw [List.filterMap_append, List.append_eq_nil_iff] at quiet
    obtain ⟨middle, first, later⟩ := run.split
    have part : ∀ {start stop : Box M} {events : List (Event M K)}, Run start events stop →
        events.filterMap Event.arrival = [] → stop.waiting.Sublist start.waiting := by
      intro start stop events run none
      have kept := run.history.2.1
      rwa [none, List.append_nil] at kept
    have whole := part first quiet.1
    intro msg member
    rcases List.mem_append.mp member with here | there
    · rw [Round.events, List.filterMap_append, List.append_eq_nil_iff] at quiet
      obtain ⟨front, opening, rest⟩ := first.split
      cases rest with
      | cons step _ =>
        generalize round.page = items at step here
        generalize round.more = more at step
        cases step
        exact (part opening quiet.1.1).subset (page_part here).1
    · exact whole.subset (ih later quiet.2 msg there)

/-- A reader of a box that nothing comes into has its empty page after as many rounds as messages waited. -/
theorem Run.rounds_bounded (run : Run box (rounds.flatMap Round.events) last)
    (clocks : rounds.Pairwise (fun earlier later => earlier.now ≤ later.now))
    (quiet : (rounds.flatMap Round.events).filterMap Event.arrival = [])
    (full : ∀ round ∈ rounds, round.page ≠ []) : rounds.length ≤ box.waiting.length := by
  have distinct : (rounds.flatMap Round.page).Nodup :=
    (run.rounds_ascending clocks).imp (fun below same => absurd (congrArg number same) (Nat.ne_of_lt below))
  have shown : (rounds.flatMap Round.page).length ≤ box.waiting.length :=
    (distinct.subperm (run.rounds_part quiet)).length_le
  have each : ∀ listed : List (Round M K), (∀ round ∈ listed, round.page ≠ []) →
      listed.length ≤ (listed.flatMap Round.page).length := by
    intro listed nonempty
    induction listed with
    | nil => exact Nat.zero_le _
    | cons round rest ih =>
      have some := List.length_pos_iff.mpr (nonempty round List.mem_cons_self)
      have others := ih (fun other later => nonempty other (List.mem_cons_of_mem _ later))
      rw [List.flatMap_cons, List.length_append, List.length_cons]
      omega
  exact Nat.le_trans (each rounds full) shown

end Reader

end Mailbox
