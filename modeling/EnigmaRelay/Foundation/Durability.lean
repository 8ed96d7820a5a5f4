import Mathlib.Logic.Function.Basic

/-! A state that is written to a disk: a sync brings everything written before it there, and a crash brings back what was
written at some moment since the last sync. -/

namespace Durability

/-- The states written so far, under consecutive numbers; `synced` is the first one that a crash can bring back. -/
structure Disk (σ : Type) where
  synced : Nat
  last : Nat
  ordered : synced ≤ last
  state : Nat → σ

namespace Disk

variable {σ : Type}

def fresh (state : σ) : Disk σ := ⟨0, 0, Nat.le_refl 0, fun _ => state⟩

def current (disk : Disk σ) : σ := disk.state disk.last

def write (disk : Disk σ) (state : σ) : Disk σ where
  synced := disk.synced
  last := disk.last + 1
  ordered := Nat.le_succ_of_le disk.ordered
  state := Function.update disk.state (disk.last + 1) state

/-- A sync that was asked for when `number` was the last state written. -/
def sync (disk : Disk σ) (number : Nat) : Disk σ where
  synced := max disk.synced (min number disk.last)
  last := disk.last
  ordered := by
    have ordered := disk.ordered
    omega
  state := disk.state

def recover (disk : Disk σ) (number : Nat) : Disk σ where
  synced := max disk.synced (min number disk.last)
  last := max disk.synced (min number disk.last)
  ordered := Nat.le_refl _
  state := disk.state

@[simp] theorem write_current (disk : Disk σ) (state : σ) : (disk.write state).current = state :=
  Function.update_self _ _ _

/-- Every state from `place` on that a crash can bring back has the property. -/
def Since (P : σ → Prop) (place : Nat) (disk : Disk σ) : Prop :=
  ∀ number, disk.synced ≤ number → place ≤ number → number ≤ disk.last → P (disk.state number)

variable {P : σ → Prop} {place : Nat} {disk : Disk σ}

theorem Since.fresh {state : σ} (here : P state) : (Disk.fresh state).Since P place := fun _ _ _ _ => here

theorem Since.current (since : disk.Since P place) (written : place ≤ disk.last) : P disk.current :=
  since disk.last disk.ordered written (Nat.le_refl _)

theorem Since.write (since : disk.Since P place) {state : σ} (here : P state) : (disk.write state).Since P place := by
  intro number synced from_ written
  change P (Function.update disk.state (disk.last + 1) state number)
  by_cases newest : number = disk.last + 1
  · rw [newest, Function.update_self]
    exact here
  · rw [Function.update_of_ne newest]
    change number ≤ disk.last + 1 at written
    exact since number synced from_ (by omega)

theorem since_write {state : σ} (here : P state) : (disk.write state).Since P (disk.last + 1) := by
  intro number _ from_ written
  change number ≤ disk.last + 1 at written
  have newest : number = disk.last + 1 := by omega
  rw [newest]
  change P (disk.write state).current
  rwa [write_current]

theorem Since.sync (since : disk.Since P place) (number : Nat) : (disk.sync number).Since P place := by
  intro other synced from_ written
  change max disk.synced _ ≤ other at synced
  exact since other (by omega) from_ written

theorem Since.synced (since : disk.Since P place) {number : Nat} (asked : place ≤ number)
    (written : number ≤ disk.last) : (disk.sync number).Since P 0 := by
  intro other synced _ last
  change max disk.synced (min number disk.last) ≤ other at synced
  exact since other (by omega) (by omega) last

theorem Since.recover (since : disk.Since P place) (number : Nat) : (disk.recover number).Since P place := by
  intro other synced from_ written
  change max disk.synced (min number disk.last) ≤ other at synced
  change other ≤ max disk.synced (min number disk.last) at written
  have ordered := disk.ordered
  exact since other (by omega) from_ (by omega)

end Disk

end Durability
