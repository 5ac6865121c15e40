import Mathlib.Algebra.Ring.Int.Defs
import Mathlib.Logic.Function.Basic
import Ops.Lib.Transition
import Ops.Posix.Mutex

/-!
# Monte Carlo pi on a shared segment (`secondexamp.c`)

`main` from `sem_trywait` on, as steps of any number of processes that have opened
the semaphore and mapped the segment: one step for each system call and each access
to the segment. Any process can be killed between two steps; the mutex is robust. A
signed overflow is undefined, and the model has no step there.

`inits`, `ready`, `joined` and `batches` are for the theorems: how often the body of
`TryInitSharedData` was entered, whether it was completed, who has incremented the
counter, and who added what to the totals. `printed` is the output of the final result.
-/

namespace Ops.Pi

open Posix (Mutex)

/-- `shared_data_t`. -/
structure Seg (π : Type) where
  intialised : Int
  counter : Int
  hits : Int
  samples : Int
  mutex : Mutex π

/-- The fields in the order `TryInitSharedData` stores them. -/
inductive Field where
  | intialised
  | counter
  | hits
  | samples
  | mutex
  deriving DecidableEq, Repr

/-- The next call or access of a process; `i` counts the rounds of `DoWork`. -/
inductive Pc where
  | tryWait
  | test
  | init (f : Field)
  | semPost
  | joinLock
  | joinLoad
  | joinStore (counter : Int)
  | joinUnlock
  | work (i : Nat)
  | workLock (i : Nat) (result : Int)
  | loadHits (i : Nat) (result : Int)
  | storeHits (i : Nat) (result hits : Int)
  | loadSamples (i : Nat) (result : Int)
  | storeSamples (i : Nat) (result samples : Int)
  | workUnlock (i : Nat)
  | leaveLock
  | leaveLoad
  | leaveStore (counter : Int)
  | leaveTest
  | leaveUnlock
  | report
  | reportSamples (hits : Int)
  | reportUnlock
  | destroy
  | unlinkSem
  | unlinkShm
  | done
  | dead
  deriving DecidableEq

structure State (π : Type) where
  pc : π → Pc
  sem : Nat
  semName : Bool
  shmName : Bool
  seg : Seg π
  inits : Nat
  ready : Bool
  joined : List π
  batches : List (π × Int × Int)
  printed : List (Int × Int)

/-- What the environment decides about a step: the result of `MonteCarlo`, whether
`SIGINT` has set `flag` when `DoWork` looks at it, and who is killed. -/
inductive Event where
  | step
  | points (result : Int)
  | interrupt
  | kill
  deriving DecidableEq, Repr

structure Act (π : Type) where
  proc : π
  event : Event

/-- An `int` result: no value when it overflows. -/
def int (n : Int) : Option Int := if -2 ^ 31 ≤ n ∧ n < 2 ^ 31 then some n else none

/-- The process has ended. -/
def Pc.over : Pc → Bool
  | .done | .dead => true
  | _ => false

variable {π : Type} [DecidableEq π]

def State.goto (s : State π) (p : π) (c : Pc) : State π :=
  { s with pc := Function.update s.pc p c }

theorem State.goto_self (s : State π) (p : π) (c : Pc) : (s.goto p c).pc p = c :=
  Function.update_self ..

/-- The stores of `TryInitSharedData`; the last one is `pthread_mutex_init`. -/
def State.store (s : State π) (p : π) : Field → State π
  | .intialised => { s with seg := { s.seg with intialised := 1 } }.goto p (.init .counter)
  | .counter => { s with seg := { s.seg with counter := 0 } }.goto p (.init .hits)
  | .hits => { s with seg := { s.seg with hits := 0 } }.goto p (.init .samples)
  | .samples => { s with seg := { s.seg with samples := 0 } }.goto p (.init .mutex)
  | .mutex => { s with seg := { s.seg with mutex := .free }, ready := true }.goto p .semPost

def State.lock (s : State π) (p : π) (c : Pc) : Option (State π) :=
  (s.seg.mutex.lock p).map fun m => { s with seg := { s.seg with mutex := m } }.goto p c

def State.unlock (s : State π) (p : π) (c : Pc) : Option (State π) :=
  (s.seg.mutex.unlock p).map fun m => { s with seg := { s.seg with mutex := m } }.goto p c

def State.kill (s : State π) (p : π) : State π :=
  { s with seg := { s.seg with mutex := s.seg.mutex.die p } }.goto p .dead

/-- A step of a living process; `N` is its argument. -/
def State.run (N : Int) (s : State π) (p : π) (event : Event) : Option (State π) :=
  match s.pc p, event with
  -- the guarded call of `TryInitSharedData`
  | .tryWait, .step =>
    if 0 < s.sem then some ({ s with sem := s.sem - 1 }.goto p .test) else some (s.goto p .semPost)
  | .test, .step =>
    if s.seg.intialised = 1 then some (s.goto p .semPost)
    else some ({ s with inits := s.inits + 1 }.goto p (.init .intialised))
  | .init f, .step => some (s.store p f)
  | .semPost, .step => some ({ s with sem := s.sem + 1 }.goto p .joinLock)
  -- join
  | .joinLock, .step => s.lock p .joinLoad
  | .joinLoad, .step => some (s.goto p (.joinStore s.seg.counter))
  | .joinStore counter, .step =>
    (int (counter + 1)).map fun n =>
      { s with seg := { s.seg with counter := n }, joined := s.joined ++ [p] }.goto p .joinUnlock
  | .joinUnlock, .step => s.unlock p (.work 0)
  -- `DoWork`
  | .work i, .points result => if i < 3 then some (s.goto p (.workLock i result)) else none
  | .work i, .interrupt => if i < 3 then some (s.goto p .leaveLock) else none
  | .work i, .step => if i < 3 then none else some (s.goto p .leaveLock)
  | .workLock i result, .step => s.lock p (.loadHits i result)
  | .loadHits i result, .step => some (s.goto p (.storeHits i result s.seg.hits))
  | .storeHits i result hits, .step =>
    (int (hits + result)).map fun n =>
      { s with seg := { s.seg with hits := n } }.goto p (.loadSamples i result)
  | .loadSamples i result, .step => some (s.goto p (.storeSamples i result s.seg.samples))
  | .storeSamples i result samples, .step =>
    (int (samples + N)).map fun n =>
      { s with
        seg := { s.seg with samples := n }
        batches := s.batches ++ [(p, result, N)] }.goto p (.workUnlock i)
  | .workUnlock i, .step => s.unlock p (.work (i + 1))
  -- leave
  | .leaveLock, .step => s.lock p .leaveLoad
  | .leaveLoad, .step => some (s.goto p (.leaveStore s.seg.counter))
  | .leaveStore counter, .step =>
    (int (counter - 1)).map fun n => { s with seg := { s.seg with counter := n } }.goto p .leaveTest
  | .leaveTest, .step =>
    some (s.goto p (if s.seg.counter = 0 then .report else .leaveUnlock))
  | .leaveUnlock, .step => s.unlock p .done
  | .report, .step => some (s.goto p (.reportSamples s.seg.hits))
  | .reportSamples hits, .step =>
    some ({ s with printed := s.printed ++ [(hits, s.seg.samples)] }.goto p .reportUnlock)
  | .reportUnlock, .step => s.unlock p .destroy
  | .destroy, .step => some ({ s with seg := { s.seg with mutex := .destroyed } }.goto p .unlinkSem)
  -- `CleanUp`
  | .unlinkSem, .step => some ({ s with semName := false }.goto p .unlinkShm)
  | .unlinkShm, .step => some ({ s with shmName := false }.goto p .done)
  | _, _ => none

def State.next (N : π → Int) (s : State π) (act : Act π) : Option (State π) :=
  match act.event with
  | .kill => if (s.pc act.proc).over then none else some (s.kill act.proc)
  | event => s.run (N act.proc) act.proc event

/-- A zero-filled segment, a semaphore with value 1, and every process before `sem_trywait`. -/
def fresh (π : Type) : State π where
  pc _ := .tryWait
  sem := 1
  semName := true
  shmName := true
  seg := ⟨0, 0, 0, 0, .raw⟩
  inits := 0
  ready := false
  joined := []
  batches := []
  printed := []

/-- An initialised segment, with any value of the semaphore. -/
def initialised (π : Type) (sem : Nat) : State π where
  pc _ := .tryWait
  sem := sem
  semName := true
  shmName := true
  seg := ⟨1, 0, 0, 0, .free⟩
  inits := 1
  ready := true
  joined := []
  batches := []
  printed := []

def starts (N : π → Int) : LTS (State π) (Act π) where
  Init s := s = fresh π
  next := State.next N

/-- Processes that have mapped an initialised segment. -/
def workers (N : π → Int) : LTS (State π) (Act π) where
  Init s := ∃ sem, s = initialised π sem
  next := State.next N

end Ops.Pi
