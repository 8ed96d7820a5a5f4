import Mathlib

/-! Removing named items from a set, one by one, and counting the ones that were there. -/

namespace Removal

variable {α : Type} [DecidableEq α]

structure Tally (α : Type) where
  present : Finset α
  hits : Nat
  misses : Nat

def remove (tally : Tally α) (item : α) : Tally α :=
  if item ∈ tally.present then { tally with present := tally.present.erase item, hits := tally.hits + 1 }
  else { tally with misses := tally.misses + 1 }

theorem remove_of_mem {tally : Tally α} {item : α} (here : item ∈ tally.present) :
    remove tally item = { tally with present := tally.present.erase item, hits := tally.hits + 1 } := if_pos here

theorem remove_of_notMem {tally : Tally α} {item : α} (absent : item ∉ tally.present) :
    remove tally item = { tally with misses := tally.misses + 1 } := if_neg absent

theorem remove_counted (tally : Tally α) (item : α) :
    (remove tally item).hits + (remove tally item).misses = tally.hits + tally.misses + 1 := by
  unfold remove
  split
  · exact Nat.add_right_comm _ _ _
  · rfl

theorem foldl_remove {items : List α} (distinct : items.Nodup) (tally : Tally α) :
    items.foldl remove tally =
      { present := tally.present \ items.toFinset
        hits := tally.hits + (items.toFinset ∩ tally.present).card
        misses := tally.misses + (items.toFinset \ tally.present).card } := by
  induction items generalizing tally with
  | nil => simp
  | cons item rest ih =>
    obtain ⟨fresh, later⟩ := List.nodup_cons.mp distinct
    have absent : item ∉ rest.toFinset := by simpa using fresh
    rw [List.foldl_cons, ih later, List.toFinset_cons]
    by_cases here : item ∈ tally.present
    · have kept : rest.toFinset ∩ tally.present.erase item = rest.toFinset ∩ tally.present := by
        rw [Finset.inter_erase, Finset.erase_eq_of_notMem]
        exact fun both => absent (Finset.mem_inter.mp both).1
      have missed : rest.toFinset \ tally.present.erase item = rest.toFinset \ tally.present :=
        Finset.sdiff_eq_sdiff_iff_inter_eq_inter.mpr kept
      rw [remove_of_mem here, Finset.insert_inter_of_mem here, Finset.insert_sdiff_of_mem _ here,
        Finset.card_insert_of_notMem, kept, missed, Finset.erase_sdiff_comm, ← Finset.sdiff_insert]
      · simp only [Nat.add_assoc, Nat.add_comm 1]
      · exact fun both => absent (Finset.mem_inter.mp both).1
    · rw [remove_of_notMem here, Finset.insert_inter_of_notMem here, Finset.insert_sdiff_of_notMem _ here,
        Finset.card_insert_of_notMem, Finset.sdiff_insert, Finset.erase_eq_of_notMem]
      · simp only [Nat.add_assoc, Nat.add_comm 1]
      · exact fun both => here (Finset.mem_sdiff.mp both).1
      · exact fun both => absent (Finset.mem_sdiff.mp both).1

end Removal
