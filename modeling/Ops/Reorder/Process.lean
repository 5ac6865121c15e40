import Ops.Lib.StoreBuffer
import Ops.Lib.Transition
import Ops.Posix.Locks

/-!
# A store behind a load (`99_reordering.c`)

The threads `th1` and `th2` store to their own variable and load the other one's,
on a machine with store buffers. All three wait at one barrier, twice in an iteration: a wait
comes to its end for the three together (`Act.meet`), and what they have stored is in memory then.
`main` counts the iterations, and those in which both threads have loaded 0.
-/

namespace Ops.Reorder

open Posix (Party)

inductive Thread where
  | th1
  | th2
  deriving DecidableEq, Repr

/-- `store1`, `store2`, `load1` and `load2`. -/
inductive Var where
  | store (i : Thread)
  | load (i : Thread)
  deriving DecidableEq, Repr

/-- The next step of a thread. `v` is in a register. -/
inductive Pc where
  | first
  | store
  | load
  | save (v : Int)
  | second
  deriving DecidableEq, Repr

inductive MainPc where
  | clear2
  | clear1
  | first
  | second
  | test1
  | test2
  deriving DecidableEq, Repr

structure State where
  memory : Memory (Party (Thread)) Var
  pc : Thread → Pc
  main : MainPc
  iterations : Nat
  reorders : Nat

inductive Act where
  | thread (i : Thread)
  | main
  | flush (p : Party (Thread))
  | meet
  deriving DecidableEq, Repr

def Thread.other : Thread → Thread
  | th1 => th2
  | th2 => th1

def State.goto (s : State) (i : Thread) (c : Pc) : State :=
  { s with pc := Function.update s.pc i c }

/-- `th1` and `th2` between two barriers. -/
def State.thread (s : State) (i : Thread) : Option State :=
  match s.pc i with
  | .first | .second => none
  | .store => some ({ s with memory := s.memory.store (.thread i) (.store i) 1 }.goto i .load)
  | .load => some (s.goto i (.save (s.memory.load (.thread i) (.store i.other))))
  | .save v => some ({ s with memory := s.memory.store (.thread i) (.load i) v }.goto i .second)

/-- `main` between two barriers; `store1 = store2 = 0` stores to `store2` first. -/
def State.mainStep (s : State) : Option State :=
  match s.main with
  | .first | .second => none
  | .clear2 => some { s with memory := s.memory.store .main (.store .th2) 0, main := .clear1 }
  | .clear1 => some { s with memory := s.memory.store .main (.store .th1) 0, main := .first }
  | .test1 =>
    some { s with
      iterations := s.iterations + 1
      main := if s.memory.load .main (.load .th1) = 0 then .test2 else .clear2 }
  | .test2 =>
    some { s with
      reorders := s.reorders + if s.memory.load .main (.load .th2) = 0 then 1 else 0
      main := .clear2 }

/-- Behind `pthread_barrier_wait`. -/
def Pc.released : Pc → Option Pc
  | first => some store
  | second => some first
  | _ => none

def MainPc.released : MainPc → Option MainPc
  | first => some second
  | second => some test1
  | _ => none

/-- All three are at the barrier, and nothing waits in a buffer. -/
def State.meet (s : State) : Option State :=
  match (s.pc .th1).released, (s.pc .th2).released, s.main.released with
  | some c, some d, some e =>
    if s.memory.buf (.thread .th1) = [] ∧ s.memory.buf (.thread .th2) = [] ∧
        s.memory.buf .main = [] then
      some { s with pc := fun | .th1 => c | .th2 => d, main := e }
    else none
  | _, _, _ => none

def State.next (s : State) : Act → Option State
  | .thread i => s.thread i
  | .main => s.mainStep
  | .flush p => (s.memory.flush p).map fun m => { s with memory := m }
  | .meet => s.meet

def State.start : State := ⟨⟨fun _ => 0, fun _ => []⟩, fun _ => .first, .clear2, 0, 0⟩

def program : LTS State Act where
  Init s := s = .start
  next := State.next

/-- A thread loads when its store is in memory, as with a fence between the two. -/
def Fenced (s : State) : Act → Prop
  | .thread i => s.pc i = .load → s.memory.buf (.thread i) = []
  | _ => True

instance (s : State) : DecidablePred (Fenced s)
  | .thread i => inferInstanceAs (Decidable (s.pc i = .load → s.memory.buf (.thread i) = []))
  | .main | .flush _ | .meet => .isTrue trivial

end Ops.Reorder
