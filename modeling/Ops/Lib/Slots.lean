import Mathlib.Algebra.Order.BigOperators.Group.List
import Mathlib.Algebra.Order.Ring.Nat

/-!
# A list changed at one place

The parties that a system makes while it runs are a list, and a step changes one of them.
-/

namespace Ops

variable {α : Type} {l : List α} {i : Nat} {x y : α}

theorem slot_split (h : l[i]? = some x) (y : α) :
    ∃ before after, l = before ++ x :: after ∧ l.set i y = before ++ y :: after := by
  obtain ⟨hi, rfl⟩ := List.getElem?_eq_some_iff.mp h
  obtain ⟨before, after, hl, -, hset⟩ : ∃ before after, l = before ++ l[i] :: after ∧
      before.length = i ∧ l.set i y = before ++ y :: after := List.exists_of_set hi
  exact ⟨before, after, hl, hset⟩

/-- What is added up may change at this place. -/
theorem sum_slot_of {f g : α → Nat} (h : l[i]? = some x)
    (hother : ∀ (j : Nat) z, j ≠ i → l[j]? = some z → f z = g z) (y : α) :
    ((l.set i y).map g).sum + f x = (l.map f).sum + g y := by
  induction l generalizing i with
  | nil => cases h
  | cons z l ih =>
    cases i with
    | zero =>
      cases h
      have hrest : l.map f = l.map g := List.map_congr_left fun w hw => by
        obtain ⟨j, hj⟩ := List.mem_iff_getElem?.mp hw
        exact hother (j + 1) w (Nat.succ_ne_zero j) hj
      rw [List.set_cons_zero, List.map_cons, List.map_cons, List.sum_cons, List.sum_cons, hrest]
      omega
    | succ i =>
      have hrest := ih (i := i) h fun j w hj hw =>
        hother (j + 1) w (fun heq => hj (Nat.succ.inj heq)) hw
      have hz := hother 0 z (Nat.succ_ne_zero i).symm rfl
      rw [List.set_cons_succ, List.map_cons, List.map_cons, List.sum_cons, List.sum_cons, hz]
      omega

/-- A sum over the list changes by what its place adds. -/
theorem sum_slot (f : α → Nat) (h : l[i]? = some x) (y : α) :
    ((l.set i y).map f).sum + f x = (l.map f).sum + f y :=
  sum_slot_of h (fun _ _ _ _ => rfl) y

theorem mem_slot (h : l[i]? = some x) (y : α) : y ∈ l.set i y := by
  obtain ⟨before, after, -, hset⟩ := slot_split h y
  rw [hset]
  exact List.mem_append_right _ List.mem_cons_self

/-- Who adds to the sum has a place. -/
theorem exists_of_sum {f : α → Nat} (h : 0 < (l.map f).sum) :
    ∃ (i : Nat) (x : α), l[i]? = some x ∧ 0 < f x := by
  by_contra hnone
  refine absurd h (Nat.not_lt.mpr (Nat.le_of_eq (List.sum_eq_zero fun v hv => ?_)))
  obtain ⟨x, hx, rfl⟩ := List.mem_map.mp hv
  obtain ⟨i, hi⟩ := List.mem_iff_getElem?.mp hx
  by_contra hpos
  exact hnone ⟨i, x, hi, Nat.pos_of_ne_zero hpos⟩

end Ops
