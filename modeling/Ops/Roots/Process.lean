import Mathlib.Logic.Function.Basic
import Ops.Lib.Transition
import Ops.Posix.Locks

/-!
# Parallel square roots (`example.c`)

`make_children` and the threads, with one step for each lock, unlock and access to
`calculatedCells` or `resultArray`. The roots themselves are left out: `computed` says
for each cell which threads have stored a root in it.
-/

namespace Ops.Roots

open Posix (Locks)

/-- `ReadArguments`, on what `atoi` returns for each argument; the number of threads first. -/
def ReadArguments : List Int → Int × Int
  | [NumberofThreads] => (NumberofThreads, 10)
  | [NumberofThreads, SizeofArray] => (NumberofThreads, SizeofArray)
  | _ => (3, 10)

/-- The next step of `child_thread`; `i` is the counter of its `for` loop. -/
inductive Pc where
  | off
  | draw
  | lock (index : Nat)
  | test (i index : Nat)
  | pass (i index : Nat)
  | relock (i index : Nat)
  | quit (index : Nat)
  | mark (index : Nat)
  | compute (index : Nat)
  | unlock (index : Nat)
  | done
  deriving DecidableEq, Repr

structure State (T : Nat) where
  created : Nat
  pc : Fin T → Pc
  calculatedCells : Nat → Int
  computed : Nat → List (Fin T)
  locks : Locks Nat (Fin T)

/-- `r` is what `rand_r` returns to a thread that draws. -/
inductive Act (T : Nat) where
  | create
  | thread (p : Fin T) (r : Nat)

variable {T : Nat}

def State.goto (s : State T) (p : Fin T) (c : Pc) : State T :=
  { s with pc := Function.update s.pc p c }

def State.lock (s : State T) (m : Nat) (p : Fin T) (c : Pc) : Option (State T) :=
  (s.locks.lock m p).map fun l => { s with locks := l }.goto p c

def State.unlock (s : State T) (m : Nat) (p : Fin T) (c : Pc) : Option (State T) :=
  (s.locks.unlock m p).map fun l => { s with locks := l }.goto p c

/-- `child_thread`; a remainder by 0 is undefined and has no step. -/
def State.child (SizeofArray : Nat) (s : State T) (p : Fin T) (r : Nat) : Option (State T) :=
  match s.pc p with
  | .off => none
  | .draw => if SizeofArray = 0 then none else some (s.goto p (.lock (r % SizeofArray)))
  | .lock index => s.lock index p (.test 0 index)
  | .test i index =>
    if i < SizeofArray then
      some (s.goto p (if s.calculatedCells index = 0 then .mark index else .pass i index))
    else some (s.goto p (.quit index))
  | .pass i index => s.unlock index p (.relock i ((index + i) % SizeofArray))
  | .relock i index => s.lock index p (.test (i + 1) index)
  | .quit index => s.unlock index p .done
  | .mark index =>
    some ({ s with
      calculatedCells := Function.update s.calculatedCells index (-1) }.goto p (.compute index))
  | .compute index =>
    some ({ s with
      computed := Function.update s.computed index (s.computed index ++ [p]) }.goto p (.unlock index))
  | .unlock index => s.unlock index p .draw
  | .done => none

def State.next (SizeofArray : Nat) (s : State T) : Act T → Option (State T)
  | .create =>
    if h : s.created < T then
      some { s.goto ⟨s.created, h⟩ .draw with created := s.created + 1 }
    else none
  | .thread p r => s.child SizeofArray p r

/-- `make_children` before the threads are created. -/
def start (T : Nat) : State T where
  created := 0
  pc _ := .off
  calculatedCells _ := 0
  computed _ := []
  locks _ := none

def roots (SizeofArray T : Nat) : LTS (State T) (Act T) where
  Init s := s = start T
  next := State.next SizeofArray

end Ops.Roots
