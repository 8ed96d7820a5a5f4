import Mathlib

/-! The queue of one recipient as its clients see it: messages are numbered as they come in, are read in pages, and
leave when they are confirmed or have lapsed. -/

namespace Mailbox

class Parcel (M : Type) (K : outParam Type) where
  number : M → Nat
  tag : M → K
  deadline : M → Nat

open Parcel

structure Box (M : Type) {K : Type} [Parcel M K] where
  issued : Nat
  waiting : List M
  below : ∀ msg ∈ waiting, number msg < issued
  ordered : waiting.Pairwise (fun a b => number a < number b)
  distinct : waiting.Pairwise (fun a b => tag a ≠ tag b)

inductive Event (M K : Type) where
  | arrived (msg : M)
  | read (now : Nat) (start : Option Nat) (size : Nat) (page : List M) (more : Bool)
  | confirmed (tags : List K)
  | lapsed (now : Nat)
  | idle

variable {M K : Type} [Parcel M K]

namespace Box

def empty : Box M where
  issued := 0
  waiting := []
  below := by simp
  ordered := .nil
  distinct := .nil

def arrive (box : Box M) (msg : M) (numbered : number msg = box.issued)
    (fresh : ∀ other ∈ box.waiting, tag other ≠ tag msg) : Box M where
  issued := box.issued + 1
  waiting := box.waiting ++ [msg]
  below := by
    intro found member
    rcases List.mem_append.mp member with earlier | last
    · exact Nat.lt_succ_of_lt (box.below found earlier)
    · rw [List.mem_singleton.mp last, numbered]
      exact Nat.lt_succ_self _
  ordered := by
    rw [List.pairwise_append]
    refine ⟨box.ordered, List.pairwise_singleton _ _, ?_⟩
    intro found member other last
    rw [List.mem_singleton.mp last, numbered]
    exact box.below found member
  distinct := by
    rw [List.pairwise_append]
    refine ⟨box.distinct, List.pairwise_singleton _ _, ?_⟩
    intro found member other last
    rw [List.mem_singleton.mp last]
    exact fresh found member

def sift (box : Box M) (keep : M → Bool) : Box M where
  issued := box.issued
  waiting := box.waiting.filter keep
  below := fun msg member => box.below msg (List.mem_of_mem_filter member)
  ordered := box.ordered.filter keep
  distinct := box.distinct.filter keep

def pending (box : Box M) (now : Nat) (start : Option Nat) : List M :=
  box.waiting.filter (fun msg => decide (now < deadline msg) && start.all (· < number msg))

theorem eq_of_tag {box : Box M} {a b : M} (first : a ∈ box.waiting) (second : b ∈ box.waiting)
    (same : tag a = tag b) : a = b := by
  by_contra apart
  have symmetric : Std.Symm (fun a b : M => tag a ≠ tag b) := ⟨fun _ _ differ => Ne.symm differ⟩
  exact (List.Pairwise.forall box.distinct first second apart) same

end Box

variable [DecidableEq K]

/-- Everything that can happen to a box. Reading may drop some of what has lapsed. -/
inductive Step : Box M → Event M K → Box M → Prop where
  | arrived (box : Box M) (msg : M) (numbered : number msg = box.issued)
      (fresh : ∀ other ∈ box.waiting, tag other ≠ tag msg) : Step box (.arrived msg) (box.arrive msg numbered fresh)
  | read (box : Box M) (now : Nat) (start : Option Nat) (size : Nat) (keep : M → Bool)
      (dead : ∀ msg ∈ box.waiting, keep msg = false → deadline msg ≤ now) :
      Step box (.read now start size ((box.pending now start).take size) (decide (size < (box.pending now start).length)))
        (box.sift keep)
  | confirmed (box : Box M) (tags : List K) : Step box (.confirmed tags) (box.sift (fun msg => decide (tag msg ∉ tags)))
  | lapsed (box : Box M) (now : Nat) (keep : M → Bool)
      (dead : ∀ msg ∈ box.waiting, keep msg = false → deadline msg ≤ now) : Step box (.lapsed now) (box.sift keep)
  | idle (box : Box M) : Step box .idle box

/-- The events that may take a message out of its box. -/
def Event.Releases (msg : M) : Event M K → Prop
  | .arrived _ => False
  | .read now _ _ _ _ => deadline msg ≤ now
  | .confirmed tags => tag msg ∈ tags
  | .lapsed now => deadline msg ≤ now
  | .idle => False

def Event.arrival : Event M K → Option M
  | .arrived msg => some msg
  | _ => none

theorem Step.effect {box next : Box M} {event : Event M K} (step : Step box event next) :
    (∃ msg, event = .arrived msg ∧ number msg = box.issued ∧ next.issued = box.issued + 1 ∧
      next.waiting = box.waiting ++ [msg]) ∨
    (event.arrival = none ∧ next.issued = box.issued ∧ ∃ keep : M → Bool, next.waiting = box.waiting.filter keep ∧
      ∀ msg ∈ box.waiting, keep msg = false → event.Releases msg) := by
  cases step with
  | arrived msg numbered fresh => exact .inl ⟨msg, rfl, numbered, rfl, rfl⟩
  | read now start size keep dead => exact .inr ⟨rfl, rfl, keep, rfl, dead⟩
  | confirmed tags =>
    right
    refine ⟨rfl, rfl, _, rfl, ?_⟩
    intro msg _ gone
    have named : tag msg ∈ tags := by simpa using gone
    exact named
  | lapsed now keep dead => exact .inr ⟨rfl, rfl, keep, rfl, dead⟩
  | idle => exact .inr ⟨rfl, rfl, fun _ => true, by simp, by simp⟩

theorem Step.issued_le {box next : Box M} {event : Event M K} (step : Step box event next) :
    box.issued ≤ next.issued := by
  rcases step.effect with ⟨_, _, _, raised, _⟩ | ⟨_, same, _⟩ <;> omega

theorem Step.source {box next : Box M} {event : Event M K} (step : Step box event next) {msg : M}
    (member : msg ∈ next.waiting) : msg ∈ box.waiting ∨ number msg = box.issued := by
  rcases step.effect with ⟨arrived, _, numbered, _, waiting⟩ | ⟨_, _, keep, waiting, _⟩
  · rw [waiting, List.mem_append, List.mem_singleton] at member
    rcases member with earlier | rfl
    · exact .inl earlier
    · exact .inr numbered
  · rw [waiting] at member
    exact .inl (List.mem_of_mem_filter member)

theorem Step.kept {box next : Box M} {event : Event M K} (step : Step box event next) {msg : M}
    (member : msg ∈ box.waiting) (holds : ¬ event.Releases msg) : msg ∈ next.waiting := by
  rcases step.effect with ⟨arrived, _, _, _, waiting⟩ | ⟨_, _, keep, waiting, released⟩
  · rw [waiting]
    exact List.mem_append_left _ member
  · rw [waiting, List.mem_filter]
    refine ⟨member, ?_⟩
    by_contra gone
    exact holds (released msg member (Bool.eq_false_iff.mpr gone))

inductive Run : Box M → List (Event M K) → Box M → Prop where
  | nil (box : Box M) : Run box [] box
  | cons {box next last : Box M} {event : Event M K} {events : List (Event M K)} (step : Step box event next)
      (rest : Run next events last) : Run box (event :: events) last

namespace Run

variable {box last : Box M} {events : List (Event M K)}

theorem split {first second : List (Event M K)} (run : Run box (first ++ second) last) :
    ∃ middle, Run box first middle ∧ Run middle second last := by
  induction first generalizing box with
  | nil => exact ⟨box, .nil box, run⟩
  | cons event rest ih =>
    cases run with
    | cons step later =>
      obtain ⟨middle, front, back⟩ := ih later
      exact ⟨middle, .cons step front, back⟩

theorem issued_le (run : Run box events last) : box.issued ≤ last.issued := by
  induction run with
  | nil => exact Nat.le_refl _
  | cons step _ ih => exact Nat.le_trans step.issued_le ih

theorem source (run : Run box events last) {msg : M} (member : msg ∈ last.waiting) :
    msg ∈ box.waiting ∨ box.issued ≤ number msg := by
  induction run with
  | nil => exact .inl member
  | cons step _ ih =>
    rcases ih member with before | later
    · rcases step.source before with source | numbered
      · exact .inl source
      · exact .inr numbered.ge
    · exact .inr (Nat.le_trans step.issued_le later)

theorem kept (run : Run box events last) {msg : M} (member : msg ∈ box.waiting)
    (holds : ∀ event ∈ events, ¬ event.Releases msg) : msg ∈ last.waiting := by
  induction run with
  | nil => exact member
  | cons step _ ih =>
    apply ih (step.kept member (holds _ List.mem_cons_self))
    exact fun event later => holds event (List.mem_cons_of_mem _ later)

/-- A box holds a part of what has come in, in the order in which it came, numbered without gaps. -/
theorem history (run : Run box events last) :
    last.issued = box.issued + (events.filterMap Event.arrival).length ∧
      last.waiting.Sublist (box.waiting ++ events.filterMap Event.arrival) ∧
      (events.filterMap Event.arrival).map number =
        List.range' box.issued (events.filterMap Event.arrival).length := by
  induction run with
  | nil => simp
  | @cons box next last event events step _ ih =>
    obtain ⟨count, part, numbers⟩ := ih
    rcases step.effect with ⟨msg, rfl, numbered, raised, waiting⟩ | ⟨none, same, keep, waiting, _⟩
    · rw [raised] at count numbers
      rw [List.filterMap_cons_some (show Event.arrival (.arrived msg : Event M K) = some msg from rfl),
        List.length_cons, List.map_cons, List.range'_succ, numbered, numbers]
      refine ⟨by omega, ?_, rfl⟩
      rw [waiting, List.append_assoc] at part
      exact part
    · rw [same] at count numbers
      rw [List.filterMap_cons_none none]
      refine ⟨count, part.trans ?_, numbers⟩
      rw [waiting]
      exact List.filter_sublist.append_right _

end Run

end Mailbox
