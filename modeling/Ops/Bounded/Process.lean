import Mathlib.Logic.Function.Basic
import Ops.Lib.Transition
import Ops.Posix.Semaphore

/-!
# The bounded buffer (`08_bounded_buffer.c`, `12_sem_in_shm.c`)

`producer` and `consumer`, which are the same in both programs: threads with the semaphores in
globals, and processes with the semaphores and the buffer in shared memory. There is one step for
each call and for each statement on the buffer. The buffer has `N` places, and its memory is 0 at
the start. `taken` is not in the programs: it has the items that the consumer took. `corruption`
counts the lines that the consumer prints about a wrong item.
-/

namespace Ops.Bounded

open Posix

inductive ProducerPc where
  | loop (i : Nat)
  | waitEmpty (i : Nat)
  | waitMtx (i : Nat)
  | store (i : Nat)
  | advance (i : Nat)
  | postMtx (i : Nat)
  | postNonempty (i : Nat)
  | done
  deriving DecidableEq, Repr

inductive ConsumerPc where
  | loop (i : Nat)
  | waitNonempty (i : Nat)
  | waitMtx (i : Nat)
  | load (i : Nat)
  | advance (i : Nat) (item : Int)
  | check (i : Nat) (item : Int)
  | postMtx (i : Nat)
  | postEmpty (i : Nat)
  | done
  deriving DecidableEq, Repr

structure State where
  mtx : Nat
  empty : Nat
  nonempty : Nat
  items : Nat → Int
  in_ : Nat
  out : Nat
  taken : List Int
  corruption : Nat
  producer : ProducerPc
  consumer : ConsumerPc

inductive Act where
  | producer
  | consumer
  deriving DecidableEq, Repr

def State.produce (N ITERATIONS : Nat) (s : State) : Option State :=
  match s.producer with
  | .loop i => some { s with producer := if i < ITERATIONS then .waitEmpty i else .done }
  | .waitEmpty i =>
    (semWait s.empty).map fun v => { s with empty := v, producer := .waitMtx i }
  | .waitMtx i => (semWait s.mtx).map fun v => { s with mtx := v, producer := .store i }
  | .store i =>
    some { s with items := Function.update s.items s.in_ i, producer := .advance i }
  | .advance i => some { s with in_ := (s.in_ + 1) % N, producer := .postMtx i }
  | .postMtx i => some { s with mtx := semPost s.mtx, producer := .postNonempty i }
  | .postNonempty i => some { s with nonempty := semPost s.nonempty, producer := .loop (i + 1) }
  | .done => none

def State.consume (N ITERATIONS : Nat) (s : State) : Option State :=
  match s.consumer with
  | .loop i => some { s with consumer := if i < ITERATIONS then .waitNonempty i else .done }
  | .waitNonempty i =>
    (semWait s.nonempty).map fun v => { s with nonempty := v, consumer := .waitMtx i }
  | .waitMtx i => (semWait s.mtx).map fun v => { s with mtx := v, consumer := .load i }
  | .load i =>
    some { s with
      taken := s.taken ++ [s.items s.out], consumer := .advance i (s.items s.out) }
  | .advance i item => some { s with out := (s.out + 1) % N, consumer := .check i item }
  | .check i item =>
    some { s with
      corruption := if item ≠ i then s.corruption + 1 else s.corruption, consumer := .postMtx i }
  | .postMtx i => some { s with mtx := semPost s.mtx, consumer := .postEmpty i }
  | .postEmpty i => some { s with empty := semPost s.empty, consumer := .loop (i + 1) }
  | .done => none

def State.next (N ITERATIONS : Nat) (s : State) : Act → Option State
  | .producer => s.produce N ITERATIONS
  | .consumer => s.consume N ITERATIONS

/-- `main` has initialised the semaphores and started both. -/
def State.start (N : Nat) : State where
  mtx := 1
  empty := N
  nonempty := 0
  items _ := 0
  in_ := 0
  out := 0
  taken := []
  corruption := 0
  producer := .loop 0
  consumer := .loop 0

def buffer (N ITERATIONS : Nat) : LTS State Act where
  Init s := s = .start N
  next := State.next N ITERATIONS

end Ops.Bounded
