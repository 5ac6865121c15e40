import Mathlib.Logic.Function.Basic
import Mathlib.Tactic.Ring
import Ops.Lib.Transition

/-!
# Rounds of one thread

Threads that make rounds, each of which adds something to a value. A thread that can make a round
while the others do nothing can make all of its rounds so (`Rounds.ends`). `Calm` is what holds
between rounds.
-/

namespace Ops

variable {σ α ι κ : Type} [DecidableEq ι]

/-- What is read of a state, and the places of a thread before round `n` and at its end. -/
structure Rounds (σ ι κ : Type) where
  Calm : σ → Prop
  pc : σ → ι → κ
  value : σ → Int
  loop : Nat → κ
  done : κ

namespace Rounds

/-- Thread `i` alone comes from `s` to `c`, and adds `v`. -/
def Runs (R : Rounds σ ι κ) (L : LTS σ α) (s : σ) (i : ι) (c : κ) (v : Int) : Prop :=
  ∃ as t, L.exec s as = some t ∧ R.Calm t ∧ R.pc t = Function.update (R.pc s) i c ∧
    R.value t = R.value s + v

variable {R : Rounds σ ι κ} {L : LTS σ α} {s t : σ} {i j : ι} {N k n : Nat} {v : Int}

theorem Runs.trans {c c' : κ} {v w : Int} (h : R.Runs L s i c v)
    (h' : ∀ t, R.Calm t → R.pc t = Function.update (R.pc s) i c → R.Runs L t i c' w) :
    R.Runs L s i c' (v + w) := by
  obtain ⟨as, t, has, ht, hpc, hval⟩ := h
  obtain ⟨bs, u, hbs, hu, hpc', hval'⟩ := h' t ht hpc
  refine ⟨as ++ bs, u, by rw [LTS.exec_append, has]; exact hbs, hu, ?_, ?_⟩
  · rw [hpc', hpc, Function.update_idem]
  · rw [hval', hval, Int.add_assoc]

/-- `k` rounds. -/
theorem rounds (hround : ∀ s n, R.Calm s → R.pc s i = R.loop n → n < N →
      R.Runs L s i (R.loop (n + 1)) v) (hs : R.Calm s) (hpc : R.pc s i = R.loop n)
    (hk : n + k ≤ N) : R.Runs L s i (R.loop (n + k)) (k * v) := by
  induction k with
  | zero =>
    refine ⟨[], s, rfl, hs, ?_, by simp⟩
    rw [Nat.add_zero, ← hpc, Function.update_eq_self]
  | succ k ih =>
    have hrun := (ih (by omega)).trans fun t ht hpcs =>
      hround t (n + k) ht (by rw [hpcs, Function.update_self]) (by omega)
    have hval : (k : Int) * v + v = ((k + 1 : Nat) : Int) * v := by
      push_cast
      ring
    rwa [hval] at hrun

/-- All rounds that are left, and the end. -/
theorem ends (hround : ∀ s n, R.Calm s → R.pc s i = R.loop n → n < N →
      R.Runs L s i (R.loop (n + 1)) v)
    (hlast : ∀ s, R.Calm s → R.pc s i = R.loop N → R.Runs L s i R.done 0) (hs : R.Calm s)
    (hpc : R.pc s i = R.loop n) (hn : n ≤ N) : R.Runs L s i R.done ((N - n) * v) := by
  have hend : n + (N - n) = N := by omega
  have hrun := (rounds (k := N - n) hround hs hpc (by omega)).trans fun t ht hpcs =>
    hlast t ht (by rw [hpcs, Function.update_self, hend])
  rwa [Int.add_zero, Nat.cast_sub hn] at hrun

end Rounds

end Ops
