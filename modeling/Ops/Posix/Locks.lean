import Mathlib.Logic.Function.Basic

/-!
# Plain mutexes of one process

`PTHREAD_MUTEX_DEFAULT` mutexes of `main` and its threads: a lock of a mutex that is
held, also by the caller, has no step, and so has the unlock of a mutex that the
caller does not hold. `Owned` ties the mutexes to what each party holds by its place
in the code.
-/

namespace Ops.Posix

/-- The threads of a process. -/
inductive Party (τ : Type) where
  | main
  | thread (t : τ)
  deriving DecidableEq, Repr

/-- Who holds each mutex. -/
abbrev Locks (μ π : Type) := μ → Option π

variable {μ π : Type} [DecidableEq μ] [DecidableEq π] {l l' : Locks μ π} {m : μ} {p q : π}

def Locks.lock (l : Locks μ π) (m : μ) (p : π) : Option (Locks μ π) :=
  if l m = none then some (Function.update l m (some p)) else none

def Locks.unlock (l : Locks μ π) (m : μ) (p : π) : Option (Locks μ π) :=
  if l m = some p then some (Function.update l m none) else none

omit [DecidableEq π] in
theorem Locks.lock_map {σ : Type} {f : Locks μ π → σ} (h : l m = none) :
    (l.lock m p).map f = some (f (Function.update l m (some p))) := by
  simp [Locks.lock, h]

theorem Locks.unlock_map {σ : Type} {f : Locks μ π → σ} (h : l m = some p) :
    (l.unlock m p).map f = some (f (Function.update l m none)) := by
  simp [Locks.unlock, h]

omit [DecidableEq π] in
theorem Locks.lock_some (h : l.lock m p = some l') :
    l m = none ∧ l' = Function.update l m (some p) := by
  unfold Locks.lock at h
  split at h
  · rename_i hfree
    simp only [Option.some.injEq] at h
    exact ⟨hfree, h.symm⟩
  · cases h

theorem Locks.unlock_some (h : l.unlock m p = some l') :
    l m = some p ∧ l' = Function.update l m none := by
  unfold Locks.unlock at h
  split at h
  · rename_i hheld
    simp only [Option.some.injEq] at h
    exact ⟨hheld, h.symm⟩
  · cases h

/-- A party holds the mutexes that its place says. -/
def Locks.Owned (l : Locks μ π) (holds : π → μ → Prop) : Prop :=
  ∀ m p, l m = some p ↔ holds p m

namespace Locks.Owned

variable {holds holds' : π → μ → Prop}

omit [DecidableEq μ] [DecidableEq π]

theorem congr (h : l.Owned holds) (hsame : ∀ q k, holds' q k ↔ holds q k) : l.Owned holds' :=
  fun k q => (h k q).trans (hsame q k).symm

theorem one (h : l.Owned holds) (hp : holds p m) (hq : holds q m) : p = q := by
  have hpq : some p = some q := by rw [← (h m p).mpr hp, (h m q).mpr hq]
  exact Option.some.inj hpq

theorem free (h : l.Owned holds) (hm : l m = none) (q : π) : ¬ holds q m := by
  intro hq
  rw [(h m q).mpr hq] at hm
  cases hm

variable [DecidableEq μ]

theorem lock (h : l.Owned holds) (hl : l.lock m p = some l')
    (hp : ∀ k, holds' p k ↔ k = m ∨ holds p k)
    (hothers : ∀ q, q ≠ p → ∀ k, holds' q k ↔ holds q k) : l'.Owned holds' := by
  obtain ⟨hfree, rfl⟩ := Locks.lock_some hl
  intro k q
  by_cases hk : k = m
  · subst hk
    rw [Function.update_self]
    refine ⟨fun hq => ?_, fun hq => ?_⟩
    · cases hq
      exact (hp k).mpr (.inl rfl)
    · by_cases hqp : q = p
      · rw [hqp]
      · exact absurd ((hothers q hqp k).mp hq) (h.free hfree q)
  · rw [Function.update_of_ne hk, h k q]
    by_cases hqp : q = p
    · subst hqp
      rw [hp k]
      simp [hk]
    · exact (hothers q hqp k).symm

variable [DecidableEq π]

theorem unlock (h : l.Owned holds) (hl : l.unlock m p = some l')
    (hp : ∀ k, holds' p k ↔ k ≠ m ∧ holds p k)
    (hothers : ∀ q, q ≠ p → ∀ k, holds' q k ↔ holds q k) : l'.Owned holds' := by
  obtain ⟨hheld, rfl⟩ := Locks.unlock_some hl
  intro k q
  by_cases hk : k = m
  · subst hk
    rw [Function.update_self]
    refine ⟨fun hq => ?_, fun hq => ?_⟩
    · cases hq
    · by_cases hqp : q = p
      · subst hqp
        exact absurd rfl ((hp k).mp hq).1
      · exact absurd (h.one ((hothers q hqp k).mp hq) ((h k p).mp hheld)) hqp
  · rw [Function.update_of_ne hk, h k q]
    by_cases hqp : q = p
    · subst hqp
      rw [hp k]
      simp [hk]
    · exact (hothers q hqp k).symm

/-! ## Parties that hold one mutex at most -/

variable {κ : Type} {pc : π → κ} {held : κ → Option μ} {c : κ}

omit [DecidableEq μ] in
theorem move (h : l.Owned fun q m => held (pc q) = some m) (hc : held c = held (pc p)) :
    l.Owned fun q m => held (Function.update pc p c q) = some m := by
  refine h.congr fun q k => ?_
  by_cases hq : q = p
  · rw [hq, Function.update_self, hc]
  · rw [Function.update_of_ne hq]

theorem take (h : l.Owned fun q m => held (pc q) = some m) (hl : l.lock m p = some l')
    (hfree : held (pc p) = none) (hc : held c = some m) :
    l'.Owned fun q m => held (Function.update pc p c q) = some m := by
  refine h.lock hl (fun k => ?_) fun q hq k => ?_
  · simp [hfree, hc, eq_comm]
  · rw [Function.update_of_ne hq]

theorem drop (h : l.Owned fun q m => held (pc q) = some m) (hl : l.unlock m p = some l')
    (hheld : held (pc p) = some m) (hc : held c = none) :
    l'.Owned fun q m => held (Function.update pc p c q) = some m := by
  refine h.unlock hl (fun k => ?_) fun q hq k => ?_
  · simp only [Function.update_self, hc, hheld, Option.some.injEq, reduceCtorEq, false_iff, not_and]
    exact fun hne hk => hne hk.symm
  · rw [Function.update_of_ne hq]

end Locks.Owned

end Ops.Posix
