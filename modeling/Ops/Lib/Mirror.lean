import Mathlib.Logic.Function.Basic

/-!
# Reversing a segment in place

Two indexes move towards each other from the ends `lo` and `hi` of a segment and the
elements at them are exchanged. `mirrored` is the array when everything outside
`a..b` has been exchanged.
-/

namespace Ops

variable {α : Type} {f : Nat → α} {lo hi a b : Nat}

/-- The segment `lo..hi` of `f`, reversed up to the part `a..b`. -/
def mirrored (f : Nat → α) (lo hi a b : Nat) (i : Nat) : α :=
  if lo ≤ i ∧ i < a ∨ b < i ∧ i ≤ hi then f (lo + hi - i) else f i

/-- Nothing is exchanged. -/
theorem mirrored_whole (f : Nat → α) (lo hi : Nat) : mirrored f lo hi lo hi = f := by
  funext i
  exact if_neg (by omega)

/-- The elements at both ends of the part are those of `f`. -/
theorem mirrored_left (hab : a ≤ b) : mirrored f lo hi a b a = f a := if_neg (by omega)

theorem mirrored_right (hab : a ≤ b) : mirrored f lo hi a b b = f b := if_neg (by omega)

/-- The two ends of the part are exchanged. -/
theorem mirrored_exchange (ha : lo ≤ a) (hab : a < b) (hb : b ≤ hi) (hsum : a + b = lo + hi) :
    Function.update (Function.update (mirrored f lo hi a b) a (f b)) b (f a) =
      mirrored f lo hi (a + 1) (b - 1) := by
  funext i
  by_cases hib : i = b
  · subst hib
    rw [Function.update_self]
    unfold mirrored
    rw [if_pos (by omega), show lo + hi - i = a by omega]
  · rw [Function.update_of_ne hib]
    by_cases hia : i = a
    · subst hia
      rw [Function.update_self]
      unfold mirrored
      rw [if_pos (by omega), show lo + hi - i = b by omega]
    · rw [Function.update_of_ne hia]
      unfold mirrored
      by_cases hout : lo ≤ i ∧ i < a ∨ b < i ∧ i ≤ hi
      · rw [if_pos hout, if_pos (by omega)]
      · rw [if_neg hout, if_neg (by omega)]

/-- The indexes have met: the segment is reversed. -/
theorem mirrored_met (hmet : b ≤ a) (hsum : a + b = lo + hi) {i : Nat} (hlo : lo ≤ i)
    (hhi : i ≤ hi) : mirrored f lo hi a b i = f (lo + hi - i) := by
  unfold mirrored
  split
  · rfl
  · rw [show lo + hi - i = i by omega]

theorem mirrored_outside {i : Nat} (ha : a ≤ hi + 1) (hb : lo ≤ b + 1) (hi' : i < lo ∨ hi < i) :
    mirrored f lo hi a b i = f i := if_neg (by omega)

end Ops
