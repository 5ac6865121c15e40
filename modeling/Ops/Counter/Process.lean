import Mathlib.Data.Fin.Basic
import Mathlib.Logic.Function.Basic
import Ops.Lib.Transition
import Ops.Posix.Lock

/-!
# A shared counter behind a lock (`04` to `07` and `11_sem_open.c`)

`producer` and `consumer` change `counter` in a loop between `lock` and `unlock`. The programs
differ in the lock only, so it is a parameter; `04_atomic_swap.c`, `05_atomic_test_and_set.c`,
`06_mutex.c`, `07_semaphore.c` and `11_sem_open.c` are its five values. A change of `counter` is a
load and a store.
-/

namespace Ops.Counter

open Posix (Lock)

variable {ι κ μ : Type} [DecidableEq ι]

/-- The next step of a thread in round `n`. -/
inductive Pc (μ : Type) where
  | loop (n : Nat)
  | lock (n : Nat) (key : μ)
  | load (n : Nat)
  | store (n : Nat) (v : Int)
  | unlock (n : Nat)
  | done
  deriving DecidableEq, Repr

structure State (ι κ μ : Type) where
  lck : κ
  counter : Int
  pc : ι → Pc μ

def State.goto (s : State ι κ μ) (i : ι) (c : Pc μ) : State ι κ μ :=
  { s with pc := Function.update s.pc i c }

/-- The loop of thread `i`, which adds `change i` in each round. -/
def State.next (L : Lock ι κ μ) (ITERATIONS : ι → Nat) (change : ι → Int) (s : State ι κ μ)
    (i : ι) : Option (State ι κ μ) :=
  match s.pc i with
  | .loop n => some (s.goto i (if n < ITERATIONS i then .lock n L.entry else .done))
  | .lock n key =>
    (L.acquire i s.lck key).map fun r =>
      { s with lck := r.1 }.goto i (match r.2 with | some key => .lock n key | none => .load n)
  | .load n => some (s.goto i (.store n s.counter))
  | .store n v => some ({ s with counter := v + change i }.goto i (.unlock n))
  | .unlock n => (L.release i s.lck).map fun lck => { s with lck := lck }.goto i (.loop (n + 1))
  | .done => none

def State.start (L : Lock ι κ μ) : State ι κ μ := ⟨L.start, 0, fun _ => .loop 0⟩

def threads (L : Lock ι κ μ) (ITERATIONS : ι → Nat) (change : ι → Int) :
    LTS (State ι κ μ) ι where
  Init s := s = .start L
  next := State.next L ITERATIONS change

/-! ## The programs -/

/-- `(*counter)++` of the producer and `(*counter)--` of the consumer. -/
def change : Fin 2 → Int
  | 0 => 1
  | 1 => -1

/-- `04_atomic_swap.c` -/
def atomic_swap (ITERATIONS : Fin 2 → Nat) : LTS (State (Fin 2) Int Int) (Fin 2) :=
  threads .exchange ITERATIONS change

/-- `05_atomic_test_and_set.c` -/
def atomic_test_and_set (ITERATIONS : Fin 2 → Nat) : LTS (State (Fin 2) Bool Unit) (Fin 2) :=
  threads .testAndSet ITERATIONS change

/-- `06_mutex.c` -/
def mutex (ITERATIONS : Fin 2 → Nat) : LTS (State (Fin 2) (Option (Fin 2)) Unit) (Fin 2) :=
  threads .mutex ITERATIONS change

/-- `07_semaphore.c`, and `11_sem_open.c`, where the semaphore has a name. -/
def semaphore (ITERATIONS : Fin 2 → Nat) : LTS (State (Fin 2) Nat Unit) (Fin 2) :=
  threads .semaphore ITERATIONS change

end Ops.Counter
