import Mathlib.Logic.Function.Basic
import Ops.Lib.Transition

/-!
# Peterson's lock with atomics (`03_peterson_atomic.c`)

`producer` is thread 0 and `consumer` thread 1: their loops are the same but for what they do to
`counter`. There is one step for each load and each store of `flag`, `turn` and `counter`. Each
thread has its own number of rounds. What `main` does is to create and to join the threads.
-/

namespace Ops.Peterson

/-- The next step of a thread in round `n`. -/
inductive Pc where
  | loop (n : Nat)
  | flag (n : Nat)
  | turn (n : Nat)
  | testFlag (n : Nat)
  | testTurn (n : Nat)
  | load (n : Nat)
  | store (n : Nat) (v : Int)
  | unlock (n : Nat)
  | done
  deriving DecidableEq, Repr

structure State where
  flag : Fin 2 → Int
  turn : Fin 2
  counter : Int
  pc : Fin 2 → Pc

/-- `j` in `lock`. -/
def other (i : Fin 2) : Fin 2 := 1 - i

/-- `(*counter)++` of the producer and `(*counter)--` of the consumer. -/
def change : Fin 2 → Int
  | 0 => 1
  | 1 => -1

def State.setPc (s : State) (i : Fin 2) (c : Pc) : State :=
  { s with pc := Function.update s.pc i c }

/-- `producer`, `consumer`, `lock`, `unlock` -/
def State.next (ITERATIONS : Fin 2 → Nat) (s : State) (i : Fin 2) : Option State :=
  match s.pc i with
  | .loop n => some (s.setPc i (if n < ITERATIONS i then .flag n else .done))
  | .flag n => some ({ s with flag := Function.update s.flag i 1 }.setPc i (.turn n))
  | .turn n => some ({ s with turn := other i }.setPc i (.testFlag n))
  | .testFlag n => some (s.setPc i (if s.flag (other i) ≠ 0 then .testTurn n else .load n))
  | .testTurn n => some (s.setPc i (if s.turn = other i then .testFlag n else .load n))
  | .load n => some (s.setPc i (.store n s.counter))
  | .store n v => some ({ s with counter := v + change i }.setPc i (.unlock n))
  | .unlock n => some ({ s with flag := Function.update s.flag i 0 }.setPc i (.loop (n + 1)))
  | .done => none

def State.start : State where
  flag _ := 0
  turn := 0
  counter := 0
  pc _ := .loop 0

def threads (ITERATIONS : Fin 2 → Nat) : LTS State (Fin 2) where
  Init s := s = .start
  next := State.next ITERATIONS

end Ops.Peterson
