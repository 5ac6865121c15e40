import Mathlib.Algebra.BigOperators.Group.Finset.Basic
import Mathlib.Data.List.Nodup
import Mathlib.Logic.Function.Basic
import Mathlib.Tactic.Abel

/-!
# Functions updated at one point

The parties of a system are a function of their names, and a step updates it at
one name. What `f` says of a party after the step it says of the new value, or
it said of an unchanged one.
-/

namespace Ops

variable {ι β δ : Type} [DecidableEq ι] {g g' : ι → β} {p q : ι} {b : β}

theorem update_cases {f : β → δ} {v : δ} (hg : g' = Function.update g p b) (h : f (g' q) = v) :
    q = p ∧ f b = v ∨ q ≠ p ∧ f (g q) = v := by
  rw [hg] at h
  by_cases hq : q = p
  · subst hq
    rw [Function.update_self] at h
    exact .inl ⟨rfl, h⟩
  · rw [Function.update_of_ne hq] at h
    exact .inr ⟨hq, h⟩

/-- A value of which `f` says nothing new. -/
theorem update_sub {f : β → Option δ} {v : δ} (hg : g' = Function.update g p b)
    (hf : f b = none ∨ f b = f (g p)) (h : f (g' q) = some v) : f (g q) = some v := by
  rcases update_cases hg h with ⟨rfl, hb⟩ | ⟨-, h⟩
  · rcases hf with hf | hf
    · rw [hf] at hb; cases hb
    · rw [← hf, hb]
  · exact h

/-- A flag that the new value has only if the old one had it. -/
theorem update_flag {f : β → Bool} (hg : g' = Function.update g p b)
    (hf : f b = true → f (g p) = true) (h : f (g' q) = true) : f (g q) = true := by
  rcases update_cases hg h with ⟨rfl, hb⟩ | ⟨-, h⟩
  · exact hf hb
  · exact h

/-- A fact about a party that the update keeps. -/
theorem update_keeps {P : β → Prop} (hq : P (g q)) (hb : P (g p) → P b) :
    P (Function.update g p b q) := by
  by_cases hqp : q = p
  · subst hqp
    rw [Function.update_self]
    exact hb hq
  · rw [Function.update_of_ne hqp]
    exact hq

/-- `f` does not see the update. -/
theorem update_same {f : β → δ} (hb : f b = f (g p)) (q : ι) :
    f (Function.update g p b q) = f (g q) := by
  by_cases hqp : q = p
  · subst hqp
    rw [Function.update_self, hb]
  · rw [Function.update_of_ne hqp]

/-! ## Counting the parties with a flag -/

omit [DecidableEq ι] in
theorem countP_same {f f' : ι → Bool} {l : List ι} (h : ∀ q ∈ l, f' q = f q) :
    l.countP f' = l.countP f :=
  List.countP_congr fun q hq => by rw [h q hq]

/-- The flag of one party of the list falls. -/
theorem countP_fall {f k : ι → Bool} {l : List ι} (hl : l.Nodup) (hp : p ∈ l) (hf : f p = true)
    (hk : k p = false) (hothers : ∀ q, q ≠ p → k q = f q) : l.countP f = l.countP k + 1 := by
  have hperm := List.perm_cons_erase hp
  have hrest : (l.erase p).countP k = (l.erase p).countP f :=
    countP_same fun q hq => hothers q fun hqp => (hl.mem_erase_iff.mp hq).1 hqp
  have hnot : ¬ k p = true := Bool.eq_false_iff.mp hk
  rw [hperm.countP_eq f, hperm.countP_eq k, List.countP_cons_of_pos hf,
    List.countP_cons_of_neg hnot, hrest]

open Finset in
/-- A sum in which one term changes. -/
theorem sum_change {f k : ι → Nat} {s : Finset ι} (hp : p ∈ s)
    (hothers : ∀ q, q ≠ p → k q = f q) : ∑ q ∈ s, k q + f p = ∑ q ∈ s, f q + k p := by
  have hrest : ∑ q ∈ s.erase p, k q = ∑ q ∈ s.erase p, f q :=
    sum_congr rfl fun q hq => hothers q (ne_of_mem_erase hq)
  have hf := add_sum_erase s f hp
  have hk := add_sum_erase s k hp
  omega

/-- One party changes what it adds to a sum. -/
theorem sum_update [Fintype ι] (f : β → Nat) (g : ι → β) (p : ι) (b : β) :
    ∑ q, f (Function.update g p b q) + f (g p) = ∑ q, f (g q) + f b := by
  have hchange := sum_change (f := fun q => f (g q)) (k := fun q => f (Function.update g p b q))
    (Finset.mem_univ p) fun q hq => by rw [Function.update_of_ne hq]
  rwa [Function.update_self] at hchange

open Finset in
/-- A sum in a group, in which one term changes. -/
theorem sum_move [Fintype ι] {M : Type} [AddCommGroup M] {f k : ι → M} (p : ι)
    (hothers : ∀ q, q ≠ p → k q = f q) : ∑ q, k q = ∑ q, f q + (k p - f p) := by
  have hrest : ∑ q ∈ univ.erase p, k q = ∑ q ∈ univ.erase p, f q :=
    sum_congr rfl fun q hq => hothers q (ne_of_mem_erase hq)
  rw [← add_sum_erase univ k (mem_univ p), ← add_sum_erase univ f (mem_univ p), hrest]
  abel

end Ops
