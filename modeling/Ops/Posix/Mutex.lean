import Mathlib.Tactic.ByContra

/-!
# Robust mutexes

A `PTHREAD_MUTEX_ROBUST` mutex of processes that can die. When the holder dies the
mutex is orphaned, and the next `pthread_mutex_lock` returns `EOWNERDEAD` and has it;
the callers mark it consistent at once. Locking a mutex that was never initialised,
or was destroyed, is undefined, and there is no step. `Guards` says that a mutex
keeps a critical section: a process inside holds it, unless it was destroyed
meanwhile, and there is one such process at most.
-/

namespace Ops.Posix

inductive Mutex (π : Type) where
  | raw
  | free
  | held (p : π)
  | orphaned
  | destroyed
  deriving DecidableEq

variable {π : Type}

/-- `pthread_mutex_lock`: no step while another process holds it. -/
def Mutex.lock (m : Mutex π) (p : π) : Option (Mutex π) :=
  match m with
  | .free | .orphaned => some (.held p)
  | .raw | .held _ | .destroyed => none

def Mutex.unlock [DecidableEq π] (m : Mutex π) (p : π) : Option (Mutex π) :=
  if m = .held p then some .free else none

/-- The end of a process. -/
def Mutex.die [DecidableEq π] (m : Mutex π) (p : π) : Mutex π :=
  if m = .held p then .orphaned else m

theorem Mutex.lock_some {m m' : Mutex π} {p : π} (h : m.lock p = some m') : m' = .held p := by
  cases m with
  | free | orphaned => cases h; rfl
  | raw | held _ | destroyed => cases h

theorem Mutex.unlock_some [DecidableEq π] {m m' : Mutex π} {p : π} (h : m.unlock p = some m') :
    m = .held p ∧ m' = .free := by
  unfold Mutex.unlock at h
  split at h
  · rename_i hheld; cases h; exact ⟨hheld, rfl⟩
  · cases h

/-- The mutex keeps the critical section of the processes that are `inside`. -/
structure Mutex.Guards (m : Mutex π) (inside : π → Bool) : Prop where
  held : ∀ p, m = .held p → inside p = true
  busy : ∀ p, inside p = true → m = .held p ∨ m = .destroyed
  one : ∀ p q, inside p = true → inside q = true → p = q

namespace Mutex.Guards

variable {m m' : Mutex π} {inside inside' : π → Bool} {p : π}

theorem congr (h : m.Guards inside) (hsame : ∀ q, inside' q = inside q) : m.Guards inside' := by
  obtain rfl : inside' = inside := funext hsame
  exact h

/-- Nobody is inside when the mutex is not held and not destroyed. -/
theorem empty (h : m.Guards inside) (hm : ∀ q, m ≠ .held q) (hd : m ≠ .destroyed) (q : π) :
    inside q = false := by
  cases hq : inside q with
  | false => rfl
  | true =>
    rcases h.busy q hq with hheld | hdes
    · exact absurd hheld (hm q)
    · exact absurd hdes hd

theorem lock (h : m.Guards inside) (hl : m.lock p = some m') (hp : inside' p = true)
    (hothers : ∀ q, q ≠ p → inside' q = inside q) : m'.Guards inside' := by
  have hfree : (∀ q, m ≠ .held q) ∧ m ≠ .destroyed := by
    cases m with
    | free | orphaned => exact ⟨fun _ => nofun, nofun⟩
    | raw | held _ | destroyed => cases hl
  obtain ⟨hheld, hd⟩ := hfree
  obtain rfl := Mutex.lock_some hl
  have honly : ∀ q, inside' q = true → q = p := fun q hq => by
    by_contra hne
    rw [hothers q hne, h.empty hheld hd q] at hq
    cases hq
  refine ⟨fun q hq => ?_, fun q hq => ?_, fun q r hq hr => (honly q hq).trans (honly r hr).symm⟩
  · cases hq; exact hp
  · rw [honly q hq]; exact .inl rfl

theorem leave (h : ∀ q, q ≠ p → inside q = false) (hm : ∀ q, m' ≠ .held q)
    (hp : inside' p = false) (hothers : ∀ q, q ≠ p → inside' q = inside q) : m'.Guards inside' := by
  have hnone : ∀ q, inside' q = false := fun q => by
    by_cases hq : q = p
    · rw [hq, hp]
    · rw [hothers q hq, h q hq]
  refine ⟨fun q hq => absurd hq (hm q), fun q hq => ?_, fun q r hq => ?_⟩
  · rw [hnone q] at hq; cases hq
  · rw [hnone q] at hq; cases hq

theorem alone (h : m.Guards inside) (hp : inside p = true) (q : π) (hq : q ≠ p) :
    inside q = false := by
  cases hin : inside q with
  | false => rfl
  | true => exact absurd (h.one q p hin hp) hq

theorem unlock [DecidableEq π] (h : m.Guards inside) (hu : m.unlock p = some m')
    (hp : inside' p = false) (hothers : ∀ q, q ≠ p → inside' q = inside q) : m'.Guards inside' := by
  obtain ⟨hheld, rfl⟩ := Mutex.unlock_some hu
  exact .leave (h.alone (h.held p hheld)) (fun _ => nofun) hp hothers

theorem die [DecidableEq π] (h : m.Guards inside) (hp : inside' p = false)
    (hothers : ∀ q, q ≠ p → inside' q = inside q) : (m.die p).Guards inside' := by
  unfold Mutex.die
  split
  · rename_i hheld
    exact .leave (h.alone (h.held p hheld)) (fun _ => nofun) hp hothers
  · rename_i hnot
    have hsub : ∀ q, inside' q = true → q ≠ p ∧ inside q = true := fun q hq => by
      have hne : q ≠ p := fun hqp => by rw [hqp, hp] at hq; cases hq
      exact ⟨hne, hothers q hne ▸ hq⟩
    refine ⟨fun q hq => ?_, fun q hq => h.busy q (hsub q hq).2,
      fun q r hq hr => h.one q r (hsub q hq).2 (hsub r hr).2⟩
    have hne : q ≠ p := fun hqp => hnot (hqp ▸ hq)
    rw [hothers q hne]
    exact h.held q hq

theorem destroy (h : m.Guards inside) (hsub : ∀ q, inside' q = true → inside q = true) :
    (Mutex.destroyed : Mutex π).Guards inside' :=
  ⟨fun _ => nofun, fun _ _ => .inr rfl, fun q r hq hr => h.one q r (hsub q hq) (hsub r hr)⟩

end Mutex.Guards

end Ops.Posix
