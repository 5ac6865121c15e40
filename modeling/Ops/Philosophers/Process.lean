import Mathlib.Logic.Function.Basic
import Ops.Lib.Transition
import Ops.Posix.Semaphore

/-!
# Dining philosophers (`16_dining_philosophers.c`)

`philosopher`, with one step for each call. `main` gives philosopher `i` of `N` the chopsticks `i`
and `(i + 1) % N`, creates the threads and joins them. The two calls of `nanosleep` have more than
a second of nanoseconds, so they fail at once and have no effect.
-/

namespace Ops.Philosophers

open Posix

variable {N : Nat}

/-- The next step of a philosopher in round `n`. -/
inductive Pc where
  | loop (n : Nat)
  | waitLeft (n : Nat)
  | waitRight (n : Nat)
  | eat (n : Nat)
  | postRight (n : Nat)
  | postLeft (n : Nat)
  | think (n : Nat)
  | done
  deriving DecidableEq, Repr

structure State (N : Nat) where
  chopsticks : Fin N → Nat
  pc : Fin N → Pc

/-- `ctx->left` -/
def left (i : Fin N) : Fin N := i

/-- `ctx->right` -/
def right (i : Fin N) : Fin N := ⟨(i + 1) % N, Nat.mod_lt _ i.pos⟩

/-- Philosopher `i` is at `c`, and a chopstick has the value `v`. -/
def State.put (s : State N) (i k : Fin N) (v : Nat) (c : Pc) : State N where
  chopsticks := Function.update s.chopsticks k v
  pc := Function.update s.pc i c

/-- `philosopher` -/
def State.next (ITERATIONS : Nat) (s : State N) (i : Fin N) : Option (State N) :=
  match s.pc i with
  | .loop n =>
    some { s with pc := Function.update s.pc i (if n < ITERATIONS then .waitLeft n else .done) }
  | .waitLeft n =>
    (semWait (s.chopsticks (left i))).map fun v => s.put i (left i) v (.waitRight n)
  | .waitRight n =>
    (semWait (s.chopsticks (right i))).map fun v => s.put i (right i) v (.eat n)
  | .eat n => some { s with pc := Function.update s.pc i (.postRight n) }
  | .postRight n =>
    some (s.put i (right i) (semPost (s.chopsticks (right i))) (.postLeft n))
  | .postLeft n => some (s.put i (left i) (semPost (s.chopsticks (left i))) (.think n))
  | .think n => some { s with pc := Function.update s.pc i (.loop (n + 1)) }
  | .done => none

/-- `main` has initialised the chopsticks. -/
def State.start (N : Nat) : State N where
  chopsticks _ := 1
  pc _ := .loop 0

def table (N ITERATIONS : Nat) : LTS (State N) (Fin N) where
  Init s := s = .start N
  next := State.next ITERATIONS

end Ops.Philosophers
