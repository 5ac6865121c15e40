import Mathlib.Data.Int.Notation
import Ops.Posix.Semaphore

/-!
# Locks by their operations

What a thread does between the call of `lock` and its return: `acquire` is one attempt, which has
no step while the thread is blocked, and gives back what the thread goes on with or, when it has
entered, nothing. `Excludes` is what a lock has to do, and `exchange`, `testAndSet`, `mutex` and
`semaphore` do it.
-/

namespace Ops.Posix

variable {ι κ μ : Type}

/-- `κ` is the state of the lock, and `μ` what a thread keeps between two attempts. -/
structure Lock (ι κ μ : Type) where
  start : κ
  entry : μ
  acquire : ι → κ → μ → Option (κ × Option μ)
  release : ι → κ → Option κ

namespace Lock

/-- A free lock is entered with the next attempt, a held one is left as it is, and its holder can
leave it. -/
structure Excludes (L : Lock ι κ μ) (Free : κ → Prop) (Held : κ → ι → Prop)
    (Trying : μ → Prop) : Prop where
  start : Free L.start
  entry : Trying L.entry
  enters : ∀ i k x, Free k → Trying x → ∃ k', L.acquire i k x = some (k', none) ∧ Held k' i
  waits : ∀ i j k x k' r, Held k j → Trying x → L.acquire i k x = some (k', r) →
    k' = k ∧ ∃ x', r = some x' ∧ Trying x'
  leaves : ∀ i k, Held k i → ∃ k', L.release i k = some k' ∧ Free k'

/-- `do { key = atomic_exchange (&lck, key); } while (key);` with `key = 1`, and `lck = 0` -/
def exchange : Lock ι Int Int where
  start := 0
  entry := 1
  acquire _ lck key := some (key, if lck = 0 then none else some lck)
  release _ _ := some 0

/-- `while (atomic_flag_test_and_set (&lck));` and `atomic_flag_clear` -/
def testAndSet : Lock ι Bool Unit where
  start := false
  entry := ()
  acquire _ lck _ := some (true, if lck then some () else none)
  release _ _ := some false

/-- `pthread_mutex_lock` and `pthread_mutex_unlock`, with the owner -/
def mutex [DecidableEq ι] : Lock ι (Option ι) Unit where
  start := none
  entry := ()
  acquire i owner _ := if owner = none then some (some i, none) else none
  release i owner := if owner = some i then some none else none

/-- `sem_wait` and `sem_post` on a semaphore with the value 1 -/
def semaphore : Lock ι Nat Unit where
  start := 1
  entry := ()
  acquire _ v _ := (semWait v).map fun v' => (v', none)
  release _ v := some (semPost v)

theorem exchange_excludes :
    (exchange : Lock ι Int Int).Excludes (· = 0) (fun lck _ => lck = 1) (· = 1) where
  start := rfl
  entry := rfl
  enters i k x hfree htry := by
    subst hfree htry
    exact ⟨1, rfl, rfl⟩
  waits i j k x k' r hheld htry h := by
    subst hheld htry
    cases h
    exact ⟨rfl, 1, rfl, rfl⟩
  leaves i k _ := ⟨0, rfl, rfl⟩

theorem testAndSet_excludes :
    (testAndSet : Lock ι Bool Unit).Excludes (· = false) (fun lck _ => lck = true)
      (fun _ => True) where
  start := rfl
  entry := trivial
  enters i k x hfree _ := by
    subst hfree
    exact ⟨true, rfl, rfl⟩
  waits i j k x k' r hheld _ h := by
    subst hheld
    cases h
    exact ⟨rfl, (), rfl, trivial⟩
  leaves i k _ := ⟨false, rfl, rfl⟩

theorem mutex_excludes [DecidableEq ι] :
    (mutex : Lock ι (Option ι) Unit).Excludes (· = none) (fun owner i => owner = some i)
      (fun _ => True) where
  start := rfl
  entry := trivial
  enters i k x hfree _ := ⟨some i, if_pos hfree, rfl⟩
  waits i j k x k' r hheld _ h := by
    subst hheld
    cases h
  leaves i k hheld := ⟨none, if_pos hheld, rfl⟩

theorem semaphore_excludes :
    (semaphore : Lock ι Nat Unit).Excludes (· = 1) (fun v _ => v = 0) (fun _ => True) where
  start := rfl
  entry := trivial
  enters i k x hfree _ := by
    subst hfree
    exact ⟨0, rfl, rfl⟩
  waits i j k x k' r hheld _ h := by
    subst hheld
    cases h
  leaves i k hheld := by
    subst hheld
    exact ⟨1, rfl, rfl⟩

end Lock

end Ops.Posix
