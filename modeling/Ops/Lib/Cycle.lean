import Mathlib.GroupTheory.Perm.Fin

/-!
# One cycle through all parties

`SingleCycle feeds` says that each party feeds one other and that following this comes
through all of them and back.
-/

namespace Ops

/-- The relation is a permutation that moves every party and has one cycle. -/
def SingleCycle {ι : Type} (feeds : ι → ι → Prop) : Prop :=
  ∃ σ : Equiv.Perm ι, σ.IsCycle ∧ (∀ i, σ i ≠ i) ∧ ∀ i k, feeds i k ↔ σ i = k

/-- What goes on along the cycle holds of every party when it holds of one. -/
theorem SingleCycle.all {ι : Type} [Finite ι] {feeds : ι → ι → Prop} (h : SingleCycle feeds)
    {P : ι → Prop} (hstep : ∀ i k, feeds i k → P i → P k) {i : ι} (hi : P i) (k : ι) : P k := by
  obtain ⟨σ, hcycle, hmoves, hfeeds⟩ := h
  obtain ⟨n, rfl⟩ := hcycle.exists_pow_eq (hmoves i) (hmoves k)
  induction n with
  | zero => exact hi
  | succ n ih =>
    rw [pow_succ', Equiv.Perm.mul_apply]
    exact hstep _ _ ((hfeeds _ _).mpr rfl) ih

theorem coe_rotate {q : Nat} (i : Fin q) : (finRotate q i : Nat) = (i + 1) % q := by
  cases q with
  | zero => exact i.elim0
  | succ q =>
    rw [coe_finRotate]
    split
    · rename_i hlast
      simp [hlast]
    · rename_i hlast
      have hne : i.val ≠ q := fun he => hlast (Fin.ext he)
      exact (Nat.mod_eq_of_lt (by omega)).symm

theorem singleCycle_rotate {q : Nat} (hq : 2 ≤ q) {feeds : Fin q → Fin q → Prop}
    (h : ∀ i k, feeds i k ↔ k.val = (i.val + 1) % q) : SingleCycle feeds := by
  refine ⟨finRotate q, isCycle_finRotate_of_le hq, fun i hi => ?_, fun i k => ?_⟩
  · have hval := congrArg Fin.val hi
    rw [coe_rotate] at hval
    by_cases hlast : i.val + 1 = q
    · rw [hlast, Nat.mod_self] at hval
      omega
    · rw [Nat.mod_eq_of_lt (by omega)] at hval
      omega
  · rw [h, Fin.ext_iff, coe_rotate, eq_comm]

end Ops
