import Mathlib.Algebra.Order.BigOperators.Group.Finset
import Mathlib.Tactic.ByContra
import Ops.Lib.Update

/-!
# Semaphores

The value of an unnamed semaphore. `sem_wait` has no step while it is 0. What the semaphore has and
what its users hold is a constant sum: `Balanced` for users that are a finite type, with what one
of them holds given by its place in the code.
-/

namespace Ops.Posix

def semWait (v : Nat) : Option Nat := if 0 < v then some (v - 1) else none

def semPost (v : Nat) : Nat := v + 1

variable {v v' : Nat}

theorem semWait_some : semWait v = some v' ↔ v = v' + 1 := by
  unfold semWait
  split
  · rw [Option.some.injEq]
    omega
  · simp only [reduceCtorEq, false_iff]
    omega

theorem semWait_none : semWait v = none ↔ v = 0 := by
  unfold semWait
  split
  · simp only [reduceCtorEq, false_iff]
    omega
  · simp only [true_iff]
    omega

theorem semWait_pos (h : 0 < v) : semWait v = some (v - 1) := if_pos h

/-! ## Who holds it -/

variable {ι κ : Type} [Fintype ι]

/-- The semaphore and its users have `total` together. -/
def Balanced (total v : Nat) (held : κ → Nat) (pc : ι → κ) : Prop := v + ∑ p, held (pc p) = total

namespace Balanced

variable {total : Nat} {held : κ → Nat} {pc : ι → κ} {p q : ι} {c : κ}

theorem le (h : Balanced total v held pc) : v ≤ total := by
  unfold Balanced at h
  omega

theorem held_le (h : Balanced total v held pc) (p : ι) : v + held (pc p) ≤ total := by
  unfold Balanced at h
  have hle := Finset.single_le_sum (f := fun p => held (pc p)) (fun _ _ => Nat.zero_le _)
    (Finset.mem_univ p)
  omega

/-- When the value is 0 and something is missing, somebody holds it. -/
theorem holder (h : Balanced total v held pc) (hv : v < total) : ∃ p, 0 < held (pc p) := by
  by_contra hnone
  have hsum : ∑ p, held (pc p) = 0 := Finset.sum_eq_zero fun p _ => by
    by_contra hp
    exact hnone ⟨p, by omega⟩
  unfold Balanced at h
  omega

variable [DecidableEq ι]

theorem two_le (h : Balanced total v held pc) (hne : p ≠ q) :
    v + held (pc p) + held (pc q) ≤ total := by
  unfold Balanced at h
  have hp := Finset.add_sum_erase Finset.univ (fun p => held (pc p)) (Finset.mem_univ p)
  have hq := Finset.single_le_sum (s := Finset.univ.erase p) (f := fun p => held (pc p))
    (fun _ _ => Nat.zero_le _) (Finset.mem_erase.mpr ⟨hne.symm, Finset.mem_univ q⟩)
  omega

/-- A user goes on, and takes or gives back what it has more or less. -/
theorem step (h : Balanced total v held pc) (hc : v' + held c = v + held (pc p)) :
    Balanced total v' held (Function.update pc p c) := by
  unfold Balanced at *
  have hsum := sum_update held pc p c
  omega

theorem wait (h : Balanced total v held pc) (hv : semWait v = some v')
    (hc : held c = held (pc p) + 1) : Balanced total v' held (Function.update pc p c) := by
  have hval := semWait_some.mp hv
  exact h.step (by omega)

theorem post (h : Balanced total v held pc) (hc : held (pc p) = held c + 1) :
    Balanced total (semPost v) held (Function.update pc p c) := by
  unfold semPost
  exact h.step (by omega)

end Balanced

end Ops.Posix
