import Mathlib.Logic.Function.Basic

/-!
# Changes that overlap

A counter that several parties change, each with a load and a store: `held` is what a party has
loaded and not yet stored, and `due` is what the counter would be if every change were one step.
Where only negative changes overlap, no value is below `due`, and a counter that is too large stays
so (`Drifts`). A store keeps the counter right if and only if nobody else holds a value of it
(`Drifts.store`).
-/

namespace Ops

variable {ι : Type} {count due d v : Int} {held : ι → Option Int} {x y : ι}

/-- No value is too small, and when the counter is too large, every loaded value is. -/
structure Drifts (count due : Int) (held : ι → Option Int) : Prop where
  low : due ≤ count
  values : ∀ x v, held x = some v → due ≤ v
  stale : due < count → ∀ x v, held x = some v → due < v

/-- The counter and every loaded value are right. -/
structure Exact (count due : Int) (held : ι → Option Int) : Prop where
  count : count = due
  values : ∀ x v, held x = some v → v = due

theorem Exact.drifts (h : Exact count due held) : Drifts count due held where
  low := Int.le_of_eq h.count.symm
  values x v hx := Int.le_of_eq (h.values x v hx).symm
  stale hlt := absurd h.count (by omega)

theorem Drifts.exact (h : Drifts count due held) (hx : held x = some v) (hv : v = due)
    (hothers : ∀ y, y ≠ x → held y = none) : Exact count due held := by
  refine ⟨?_, fun y w hy => ?_⟩
  · by_contra hne
    have hlow := h.low
    have hstale := h.stale (by omega) x v hx
    omega
  · by_cases hyx : y = x
    · rw [hyx, hx] at hy
      exact (Option.some.inj hy).symm.trans hv
    · rw [hothers y hyx] at hy
      cases hy

variable [DecidableEq ι]

theorem held_load (hy : Function.update held x (some count) y = some v) :
    v = count ∨ held y = some v := by
  by_cases hyx : y = x
  · rw [hyx, Function.update_self] at hy
    exact .inl (Option.some.inj hy).symm
  · rw [Function.update_of_ne hyx] at hy
    exact .inr hy

theorem held_store (hy : Function.update held x none y = some v) : y ≠ x ∧ held y = some v := by
  by_cases hyx : y = x
  · rw [hyx, Function.update_self] at hy
    cases hy
  · rw [Function.update_of_ne hyx] at hy
    exact ⟨hyx, hy⟩

theorem Drifts.load (h : Drifts count due held) (x : ι) :
    Drifts count due (Function.update held x (some count)) := by
  refine ⟨h.low, fun y v hy => ?_, fun hlt y v hy => ?_⟩
  · rcases held_load hy with rfl | hy
    · exact h.low
    · exact h.values y v hy
  · rcases held_load hy with rfl | hy
    · exact hlt
    · exact h.stale hlt y v hy

theorem exact_load (hx : held x = none) :
    Exact count due (Function.update held x (some count)) ↔ Exact count due held := by
  constructor
  · refine fun h => ⟨h.count, fun y v hy => h.values y v ?_⟩
    rw [Function.update_of_ne]
    · exact hy
    · rintro rfl
      rw [hx] at hy
      cases hy
  · refine fun h => ⟨h.count, fun y v hy => ?_⟩
    rcases held_load hy with rfl | hy
    · exact h.count
    · exact h.values y v hy

/-- The change is negative, or the only one. -/
theorem Drifts.store (h : Drifts count due held) (hx : held x = some v)
    (hd : d < 0 ∨ ∀ y, y ≠ x → held y = none) :
    Drifts (v + d) (due + d) (Function.update held x none) ∧
      (Exact (v + d) (due + d) (Function.update held x none) ↔
        Exact count due held ∧ ∀ y, y ≠ x → held y = none) := by
  have hv := h.values x v hx
  have hother : ∀ y w, Function.update held x none y = some w → due + d < w := by
    intro y w hy
    obtain ⟨hyx, hy⟩ := held_store hy
    rcases hd with hneg | halone
    · have hw := h.values y w hy
      omega
    · rw [halone y hyx] at hy
      cases hy
  refine ⟨⟨by omega, fun y w hy => Int.le_of_lt (hother y w hy), fun _ => hother⟩, ?_, ?_⟩
  · intro hexact
    have halone : ∀ y, y ≠ x → held y = none := by
      refine fun y hyx => Option.eq_none_iff_forall_ne_some.mpr fun w hy => ?_
      have hy' : Function.update held x none y = some w := by
        rw [Function.update_of_ne hyx]
        exact hy
      have hlt := hother y w hy'
      have heq := hexact.values y w hy'
      omega
    have hcount := hexact.count
    exact ⟨h.exact hx (by omega) halone, halone⟩
  · rintro ⟨hexact, halone⟩
    refine ⟨by rw [hexact.values x v hx], fun y w hy => ?_⟩
    obtain ⟨hyx, hy⟩ := held_store hy
    rw [halone y hyx] at hy
    cases hy

end Ops
