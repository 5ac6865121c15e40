import Mathlib.Logic.Relation
import Ops.Posix.Locks

/-!
# Deadlock

A party is blocked by the holder of the mutex that it waits for. If each party waits
for a mutex above all that it holds, then no chain of blocked parties comes back to
its start, and at its end is a party that can go on.
-/

namespace Ops.Posix

variable {μ π : Type}

/-- `p` waits for a mutex that `q` holds. -/
def Locks.Blocked (l : Locks μ π) (waits : π → Option μ) (p q : π) : Prop :=
  ∃ m, waits p = some m ∧ l m = some q

/-- No party waits for itself, directly or through others. -/
def Locks.DeadlockFree (l : Locks μ π) (waits : π → Option μ) : Prop :=
  ∀ p, ¬ Relation.TransGen (l.Blocked waits) p p

/-- Each party waits for a mutex above all that it holds. -/
def Locks.Ordered (l : Locks μ π) (waits : π → Option μ) (rank : μ → Nat) : Prop :=
  ∀ p m k, waits p = some m → l k = some p → rank k < rank m

/-- What the party waits for is free, if it waits. -/
def Locks.Ready (l : Locks μ π) (waits : π → Option μ) (p : π) : Prop :=
  ∀ m, waits p = some m → l m = none

variable {l : Locks μ π} {waits : π → Option μ} {rank : μ → Nat} {p q : π} {m : μ}

theorem Locks.DeadlockFree.self (h : l.DeadlockFree waits) (hw : waits p = some m) :
    l m ≠ some p :=
  fun hm => h p (.single ⟨m, hw, hm⟩)

namespace Locks.Ordered

theorem path (h : l.Ordered waits rank) (hp : Relation.TransGen (l.Blocked waits) p q) :
    ∃ m k, waits p = some m ∧ l k = some q ∧ rank m ≤ rank k := by
  induction hp with
  | single hb =>
    obtain ⟨m, hw, hm⟩ := hb
    exact ⟨m, m, hw, hm, Nat.le_refl _⟩
  | tail _ hb ih =>
    obtain ⟨m, k, hw, hk, hle⟩ := ih
    obtain ⟨m', hw', hm'⟩ := hb
    have hlt := h _ m' k hw' hk
    exact ⟨m, m', hw, hm', by omega⟩

theorem deadlockFree (h : l.Ordered waits rank) : l.DeadlockFree waits := by
  intro p hp
  obtain ⟨m, k, hw, hk, hle⟩ := h.path hp
  have hlt := h p m k hw hk
  omega

/-- At the end of a chain of blocked parties, a holder can go on. -/
theorem ready (h : l.Ordered waits rank) (bound : Nat) (hbound : ∀ m, l m ≠ none → rank m < bound)
    (hw : waits p = some m) (hm : l m ≠ none) : ∃ q k, l k = some q ∧ l.Ready waits q := by
  obtain ⟨d, hd⟩ : ∃ d, d = bound - rank m := ⟨_, rfl⟩
  induction d using Nat.strongRecOn generalizing p m with
  | _ d ih =>
    obtain ⟨q, hq⟩ := Option.ne_none_iff_exists'.mp hm
    by_cases hready : l.Ready waits q
    · exact ⟨q, m, hq, hready⟩
    · simp only [Locks.Ready, not_forall] at hready
      obtain ⟨m', hw', hm'⟩ := hready
      have hlt := h q m' m hw' hq
      have hb := hbound m' hm'
      exact ih (bound - rank m') (by omega) hw' hm' rfl

end Locks.Ordered

end Ops.Posix
