import Mathlib.Logic.Function.Basic
import Ops.Lib.Transition
import Ops.Posix.Mutex

/-!
# The bounded buffer with condition variables (`15_cv.c`)

`producer` and `consumer`, with one step for each call, each test of `size` and each load and store
of the buffer. `pthread_cond_wait` gives the mutex back and sleeps in one step; who sleeps is woken
by a signal, or for no reason (`Act.wakeup`), and then waits for the mutex. The producer alone waits
for `empty` and the consumer alone for `nonempty`, so each signal reaches the one thread that it is
for, if that one sleeps. `made` and `taken` are not in the program: they have the items that were
stored and loaded.
-/

namespace Ops.Condvar

open Posix

inductive Party where
  | producer
  | consumer
  deriving DecidableEq, Repr

inductive ProducerPc where
  | loop (i : Nat)
  | nanosleep (i : Nat)
  | lock (i : Nat)
  | test (i : Nat)
  | waiting (i : Nat)
  | woken (i : Nat)
  | store (i : Nat)
  | advance (i : Nat)
  | grow (i : Nat)
  | growTo (i : Nat) (n : Int)
  | signal (i : Nat)
  | unlock (i : Nat)
  | done
  deriving DecidableEq, Repr

inductive ConsumerPc where
  | loop (i : Nat)
  | lock (i : Nat)
  | test (i : Nat)
  | waiting (i : Nat)
  | woken (i : Nat)
  | load (i : Nat)
  | advance (i : Nat)
  | shrink (i : Nat)
  | shrinkTo (i : Nat) (n : Int)
  | signal (i : Nat)
  | unlock (i : Nat)
  | done
  deriving DecidableEq, Repr

structure State where
  mtx : Mutex Party
  items : Nat → Int
  in_ : Nat
  out : Nat
  size : Int
  made : List Int
  taken : List Int
  producer : ProducerPc
  consumer : ConsumerPc

inductive Act where
  | run (p : Party)
  | wakeup (p : Party)
  deriving DecidableEq, Repr

/-- Of a thread that sleeps in `pthread_cond_wait`. -/
def ProducerPc.wake : ProducerPc → ProducerPc
  | waiting i => woken i
  | c => c

/-- Of a thread that sleeps in `pthread_cond_wait`. -/
def ConsumerPc.wake : ConsumerPc → ConsumerPc
  | waiting i => woken i
  | c => c

def State.produce (N ITERATIONS : Nat) (s : State) : Option State :=
  match s.producer with
  | .loop i => some { s with producer := if i < ITERATIONS then .nanosleep i else .done }
  | .nanosleep i => some { s with producer := .lock i }
  | .lock i | .woken i =>
    (s.mtx.lock .producer).map fun m => { s with mtx := m, producer := .test i }
  | .test i =>
    if (N : Int) ≤ s.size then
      (s.mtx.unlock .producer).map fun m => { s with mtx := m, producer := .waiting i }
    else some { s with producer := .store i }
  | .waiting _ => none
  | .store i =>
    some { s with
      items := Function.update s.items s.in_ i, made := s.made ++ [(i : Int)],
      producer := .advance i }
  | .advance i => some { s with in_ := (s.in_ + 1) % N, producer := .grow i }
  | .grow i => some { s with producer := .growTo i s.size }
  | .growTo i n => some { s with size := n + 1, producer := .signal i }
  | .signal i => some { s with consumer := s.consumer.wake, producer := .unlock i }
  | .unlock i =>
    (s.mtx.unlock .producer).map fun m => { s with mtx := m, producer := .loop (i + 1) }
  | .done => none

def State.consume (N ITERATIONS : Nat) (s : State) : Option State :=
  match s.consumer with
  | .loop i => some { s with consumer := if i < ITERATIONS then .lock i else .done }
  | .lock i | .woken i =>
    (s.mtx.lock .consumer).map fun m => { s with mtx := m, consumer := .test i }
  | .test i =>
    if s.size = 0 then
      (s.mtx.unlock .consumer).map fun m => { s with mtx := m, consumer := .waiting i }
    else some { s with consumer := .load i }
  | .waiting _ => none
  | .load i => some { s with taken := s.taken ++ [s.items s.out], consumer := .advance i }
  | .advance i => some { s with out := (s.out + 1) % N, consumer := .shrink i }
  | .shrink i => some { s with consumer := .shrinkTo i s.size }
  | .shrinkTo i n => some { s with size := n - 1, consumer := .signal i }
  | .signal i => some { s with producer := s.producer.wake, consumer := .unlock i }
  | .unlock i =>
    (s.mtx.unlock .consumer).map fun m => { s with mtx := m, consumer := .loop (i + 1) }
  | .done => none

/-- `pthread_cond_wait` returns without a signal. -/
def State.wakeup (s : State) : Party → Option State
  | .producer =>
    if s.producer.wake = s.producer then none else some { s with producer := s.producer.wake }
  | .consumer =>
    if s.consumer.wake = s.consumer then none else some { s with consumer := s.consumer.wake }

def State.next (N ITERATIONS : Nat) (s : State) : Act → Option State
  | .run .producer => s.produce N ITERATIONS
  | .run .consumer => s.consume N ITERATIONS
  | .wakeup p => s.wakeup p

/-- `main` has cleared the memory, initialised the mutex and the variables and started both. -/
def State.start : State where
  mtx := .free
  items _ := 0
  in_ := 0
  out := 0
  size := 0
  made := []
  taken := []
  producer := .loop 0
  consumer := .loop 0

def buffer (N ITERATIONS : Nat) : LTS State Act where
  Init s := s = .start
  next := State.next N ITERATIONS

end Ops.Condvar
