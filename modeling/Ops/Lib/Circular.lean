import Mathlib.Logic.Function.Basic
import Mathlib.Order.Interval.Finset.Nat

/-!
# Circular buffers

An array of `N` places, with a sequence `v` that is stored one value after the other and read in
the same order: the value of number `k` goes to place `k % N`. `Circular N items v R S` says that
the values from `R` on and before `S` are there. The next one is stored while fewer than `N` are
there, and the oldest one is read while there is one.
-/

namespace Ops

variable {α : Type} {N R S : Nat} {items v : Nat → α}

def Circular (N : Nat) (items v : Nat → α) (R S : Nat) : Prop :=
  ∀ k, R ≤ k → k < S → items (k % N) = v k

namespace Circular

theorem nil : Circular N items v R R := fun _ hR hS => absurd hS (Nat.not_lt.mpr hR)

/-- The next value, at a place that no value has. -/
theorem store (h : Circular N items v R S) (hroom : S < R + N) :
    Circular N (Function.update items (S % N) (v S)) v R (S + 1) := by
  intro k hR hS
  by_cases hk : k = S
  · rw [hk, Function.update_self]
  · have hmem : ∀ j, R ≤ j → j < R + N → j ∈ Finset.Ico R (R + N) := fun j hlow hhigh =>
      Finset.mem_Ico.mpr ⟨hlow, hhigh⟩
    have hne : k % N ≠ S % N := fun heq =>
      hk (Nat.mod_injOn_Ico R N (hmem k hR (by omega)) (hmem S (by omega) hroom) heq)
    rw [Function.update_of_ne hne]
    exact h k hR (by omega)

theorem oldest (h : Circular N items v R S) (hsome : R < S) : items (R % N) = v R :=
  h R (Nat.le_refl R) hsome

theorem take (h : Circular N items v R S) : Circular N items v (R + 1) S :=
  fun k hR hS => h k (by omega) hS

/-- What is there, from the place of the oldest on. -/
theorem contents {n : Nat} (h : Circular N items v R (R + n)) :
    (List.range n).map (fun j => items ((R % N + j) % N)) =
      (List.range n).map fun j => v (R + j) := by
  refine List.map_congr_left fun j hj => ?_
  have hlt := List.mem_range.mp hj
  rw [Nat.mod_add_mod]
  exact h (R + j) (by omega) (by omega)

end Circular

/-- The place after a place. -/
theorem place_next (k N : Nat) : (k % N + 1) % N = (k + 1) % N := Nat.mod_add_mod k N 1

end Ops
