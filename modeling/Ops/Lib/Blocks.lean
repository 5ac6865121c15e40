import Mathlib.Data.List.Basic

/-!
# Cutting a sequence into blocks

`block P f i` is the `i`-th piece of `f` when it is cut into pieces of `P`
elements; it is short or empty past the end. `blocks P f` lists the complete
pieces.
-/

namespace Ops

variable {β : Type}

def block (P : Nat) (f : List β) (i : Nat) : List β := (f.drop (P * i)).take P

/-- The complete blocks, in order. -/
def blocks (P : Nat) (f : List β) : List (List β) := (List.range (f.length / P)).map (block P f)

theorem block_length (P : Nat) (f : List β) (i : Nat) :
    (block P f i).length = min P (f.length - P * i) := by
  simp [block]

/-- More elements at the end change no complete block. -/
theorem block_append {P : Nat} {f : List β} {i : Nat} (h : P * (i + 1) ≤ f.length) (g : List β) :
    block P (f ++ g) i = block P f i := by
  rw [Nat.mul_succ] at h
  rw [block, List.drop_append_of_le_length (by omega), List.take_append_of_le_length, block]
  rw [List.length_drop]; omega

/-- A complete block added to complete blocks. -/
theorem blocks_append_block {P : Nat} {f b : List β} {n : Nat} (hf : f.length = P * n)
    (hb : b.length = P) (hP : 0 < P) : blocks P (f ++ b) = blocks P f ++ [b] := by
  have h1 : f.length / P = n := by rw [hf, Nat.mul_div_cancel_left n hP]
  have h2 : (f ++ b).length / P = n + 1 := by
    rw [List.length_append, hf, hb, ← Nat.mul_succ, Nat.mul_div_cancel_left _ hP]
  simp only [blocks, h1, h2, List.range_succ, List.map_append, List.map_cons, List.map_nil]
  congr 1
  · refine List.map_congr_left fun i hi => block_append ?_ b
    rw [hf]
    exact Nat.mul_le_mul_left P (List.mem_range.mp hi)
  · rw [block, ← hf, List.drop_left, List.take_of_length_le (by omega)]

/-- More elements at the end only add complete blocks. -/
theorem blocks_mono (P : Nat) (f g : List β) : blocks P f <+: blocks P (f ++ g) := by
  have hle : f.length / P ≤ (f ++ g).length / P :=
    Nat.div_le_div_right (by rw [List.length_append]; omega)
  refine ⟨((List.range ((f ++ g).length / P)).map (block P (f ++ g))).drop (f.length / P), ?_⟩
  have h : blocks P f = ((List.range ((f ++ g).length / P)).map (block P (f ++ g))).take
      (f.length / P) := by
    rw [← List.map_take, List.take_range, Nat.min_eq_left hle]
    refine List.map_congr_left fun i hi => (block_append ?_ g).symm
    exact Nat.le_trans (Nat.mul_le_mul_left P (List.mem_range.mp hi)) (Nat.mul_div_le _ _)
  rw [h, List.take_append_drop, blocks]

end Ops
