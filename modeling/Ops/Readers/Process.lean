import Ops.Lib.Transition
import Ops.Posix.Semaphore

/-!
# Readers and writers (`09_reades_writers.c`)

`writer` and `reader`, with one step for each call and for each load and store of `readers_count`
and `counter`. The threads are the members of two finite types, and each has its own number of
rounds. What `main` does after `sem_init` is to create and to join them.
-/

namespace Ops.Readers

open Posix

variable {ω ρ : Type} [DecidableEq ω] [DecidableEq ρ]

inductive WriterPc where
  | loop (i : Nat)
  | wait (i : Nat)
  | load (i : Nat)
  | store (i : Nat) (n : Int)
  | post (i : Nat)
  | done
  deriving DecidableEq, Repr

inductive ReaderPc where
  | loop (i : Nat)
  | rand (i : Nat)
  | enter (i : Nat)
  | loadUp (i : Nat)
  | storeUp (i : Nat) (n : Int)
  | isFirst (i : Nat)
  | lock (i : Nat)
  | entered (i : Nat)
  | reading (i : Nat)
  | loadDown (i : Nat)
  | storeDown (i : Nat) (n : Int)
  | isLast (i : Nat)
  | unlock (i : Nat)
  | left (i : Nat)
  | done
  deriving DecidableEq, Repr

structure State (ω ρ : Type) where
  mtx : Nat
  rw_mtx : Nat
  readers_count : Int
  counter : Int
  writers : ω → WriterPc
  readers : ρ → ReaderPc

/-- `rand` is what `rand ()` returns. -/
inductive Act (ω ρ : Type) where
  | writer (w : ω)
  | reader (r : ρ) (rand : Nat)

def State.writerAt (s : State ω ρ) (w : ω) (c : WriterPc) : State ω ρ :=
  { s with writers := Function.update s.writers w c }

def State.readerAt (s : State ω ρ) (r : ρ) (c : ReaderPc) : State ω ρ :=
  { s with readers := Function.update s.readers r c }

def State.writer (ITERATIONS : ω ⊕ ρ → Nat) (s : State ω ρ) (w : ω) : Option (State ω ρ) :=
  match s.writers w with
  | .loop i => some (s.writerAt w (if i < ITERATIONS (.inl w) then .wait i else .done))
  | .wait i => (semWait s.rw_mtx).map fun v => { s with rw_mtx := v }.writerAt w (.load i)
  | .load i => some (s.writerAt w (.store i s.counter))
  | .store i n => some ({ s with counter := n + 1 }.writerAt w (.post i))
  | .post i => some ({ s with rw_mtx := semPost s.rw_mtx }.writerAt w (.loop (i + 1)))
  | .done => none

def State.reader (ITERATIONS : ω ⊕ ρ → Nat) (s : State ω ρ) (r : ρ) (rand : Nat) :
    Option (State ω ρ) :=
  match s.readers r with
  | .loop i => some (s.readerAt r (if i < ITERATIONS (.inr r) then .rand i else .done))
  | .rand i => some (s.readerAt r (if rand % 100 ≠ 0 then .rand i else .enter i))
  | .enter i => (semWait s.mtx).map fun v => { s with mtx := v }.readerAt r (.loadUp i)
  | .loadUp i => some (s.readerAt r (.storeUp i s.readers_count))
  | .storeUp i n => some ({ s with readers_count := n + 1 }.readerAt r (.isFirst i))
  | .isFirst i => some (s.readerAt r (if s.readers_count = 1 then .lock i else .entered i))
  | .lock i => (semWait s.rw_mtx).map fun v => { s with rw_mtx := v }.readerAt r (.entered i)
  | .entered i => some ({ s with mtx := semPost s.mtx }.readerAt r (.reading i))
  | .reading i => (semWait s.mtx).map fun v => { s with mtx := v }.readerAt r (.loadDown i)
  | .loadDown i => some (s.readerAt r (.storeDown i s.readers_count))
  | .storeDown i n => some ({ s with readers_count := n - 1 }.readerAt r (.isLast i))
  | .isLast i => some (s.readerAt r (if s.readers_count = 0 then .unlock i else .left i))
  | .unlock i => some ({ s with rw_mtx := semPost s.rw_mtx }.readerAt r (.left i))
  | .left i => some ({ s with mtx := semPost s.mtx }.readerAt r (.loop (i + 1)))
  | .done => none

def State.next (ITERATIONS : ω ⊕ ρ → Nat) (s : State ω ρ) : Act ω ρ → Option (State ω ρ)
  | .writer w => s.writer ITERATIONS w
  | .reader r rand => s.reader ITERATIONS r rand

/-- `main` has initialised the semaphores; the two numbers are 0 as globals are. -/
def State.start (ω ρ : Type) : State ω ρ where
  mtx := 1
  rw_mtx := 1
  readers_count := 0
  counter := 0
  writers _ := .loop 0
  readers _ := .loop 0

def threads (ITERATIONS : ω ⊕ ρ → Nat) : LTS (State ω ρ) (Act ω ρ) where
  Init s := s = .start ω ρ
  next := State.next ITERATIONS

end Ops.Readers
