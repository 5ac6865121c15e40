import Ops.Lib.Transition

/-!
# Simulation

`L` refines `M` when a relation between their states holds initially and each step of `L` is
a step of `M` or none: then a reachable state of `L` is related to a reachable one of `M`.
-/

namespace Ops.LTS

variable {σ τ α β : Type} {L : LTS σ α} {M : LTS τ β} {R : σ → τ → Prop}

/-- A step of `L` may use that the state of `M` is reached. -/
theorem Reach.simulate (hinit : ∀ s, L.Init s → ∃ u, M.Init u ∧ R s u)
    (hstep : ∀ s a t u, M.Reach u → R s u → L.next s a = some t →
      R t u ∨ ∃ b v, M.next u b = some v ∧ R t v)
    {s : σ} (h : L.Reach s) : ∃ u, M.Reach u ∧ R s u := by
  induction h with
  | init h =>
    obtain ⟨u, hu, hR⟩ := hinit _ h
    exact ⟨u, .init hu, hR⟩
  | next _ _ hn ih =>
    obtain ⟨u, hu, hR⟩ := ih
    rcases hstep _ _ _ u hu hR hn with hR | ⟨b, v, hv, hR⟩
    · exact ⟨u, hu, hR⟩
    · exact ⟨v, hu.step hv, hR⟩

end Ops.LTS
