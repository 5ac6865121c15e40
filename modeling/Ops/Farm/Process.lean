import Mathlib.Logic.Function.Basic
import Ops.Lib.Transition
import Ops.Posix.Mqueue

/-!
# The task farm (`Lab - 6/example.c`)

The parent, its `SIGRTMIN` handler and the workers as steps, for tasks of any type and the
sum of a task as `add`. Worker `i` is the one with `pids[i]`, and `wq i` its result queue,
which both sides create when they open it; so opening is no step of its own, and neither is a
sleep. Signals are queued, and the handler is not nested and stops the main flow. Nothing
follows an undefined step.

`queued`, `received`, `sent` and `printed` keep the tasks and the results.
-/

namespace Ops.Farm

open Posix

def maxWorkers : Nat := 20

def maxMsgs : Nat := 10

def taskTodo : Nat := 5

/-- The next call of a worker, in iteration `i` of its loop. -/
inductive Worker (τ : Type) where
  | receive (i : Nat)
  | send (i : Nat) (t : τ)
  | exited

def Worker.ended {τ : Type} : Worker τ → Bool
  | .exited => true
  | _ => false

inductive Parent where
  | notify (i : Nat)
  | send (i : Nat)
  | pause (i : Nat)
  | wait
  | done
  | undefined
  deriving DecidableEq, Repr

/-- The next call of the handler, for the queue of the signal. -/
inductive Handler where
  | notify (i : Nat)
  | drain (i : Nat)
  deriving DecidableEq, Repr

structure State (τ ρ : Type) where
  worker : Nat → Worker τ
  parent : Parent
  handler : Option Handler
  pending : List Nat
  tq : Mqueue τ
  wq : Nat → Mqueue ρ
  killed : Bool
  queued : List τ
  received : List (Nat × τ)
  sent : Nat → List ρ
  printed : Nat → List ρ

/-- A step of the parent other than a send, with the value of `rand`; a send that succeeds, with
the task, or fails; the delivery of a signal; a step of the handler; a step of a worker. -/
inductive Act (τ : Type) where
  | parent (rand : Nat)
  | send (t : τ)
  | fail
  | signal
  | handler
  | worker (i : Nat)

variable {τ ρ : Type}

def State.setWorker (s : State τ ρ) (i : Nat) (w : Worker τ) : State τ ρ :=
  { s with worker := Function.update s.worker i w }

def State.setWq (s : State τ ρ) (i : Nat) (q : Mqueue ρ) : State τ ρ :=
  { s with wq := Function.update s.wq i q }

/-- `ERR` -/
def State.kill (s : State τ ρ) : State τ ρ := { s with killed := true }

/-! ## `child_work` -/

def workLoop (i : Nat) : Worker τ := if i < taskTodo then .receive i else .exited

/-- A step of a worker. Nobody waits in `mq_receive` on its result queue. -/
def State.childWork (add : τ → ρ) (s : State τ ρ) (i : Nat) : Option (State τ ρ) :=
  match s.worker i with
  | .receive k =>
    match s.tq.receive with
    | none => none
    | some ((t, _), tq) =>
      some { s.setWorker i (.send k t) with tq := tq, received := s.received ++ [(i, t)] }
  | .send k t =>
    if (s.wq i).msgs.length < maxMsgs then
      some { (s.setWorker i (workLoop (k + 1))).setWq i ((s.wq i).send (add t, 0) false) with
        pending := if (s.wq i).fires false then s.pending ++ [i] else s.pending
        sent := Function.update s.sent i (s.sent i ++ [add t]) }
    else none
  | .exited => none

/-! ## `mq_handler` -/

/-- `SIGRTMIN` is delivered. -/
def State.signal (s : State τ ρ) : Option (State τ ρ) :=
  match s.handler, s.pending with
  | none, i :: rest => some { s with handler := some (.notify i), pending := rest }
  | _, _ => none

/-- A step of the handler. `pids[i]` is 0 from `n` on. -/
def State.mqHandler (n : Nat) (s : State τ ρ) : Option (State τ ρ) :=
  match s.handler with
  | none => none
  | some (.notify i) =>
    match (s.wq i).notify with
    | none => some s.kill
    | some q => some { s.setWq i q with handler := some (.drain 0) }
  | some (.drain i) =>
    if i < maxWorkers ∧ i < n then
      match (s.wq i).receive with
      | none => some { s with handler := some (.drain (i + 1)) }
      | some ((res, _), q) =>
        some { s.setWq i q with printed := Function.update s.printed i (s.printed i ++ [res]) }
    else some { s with handler := none }

/-! ## `parent_work` -/

def sendLoop (n i : Nat) : Parent := if i < taskTodo * n then .send i else .wait

def notifyLoop (n i : Nat) : Parent := if i < n then .notify i else sendLoop n 0

/-- `millis`, which is undefined for `rand() % 0`. -/
def millis (T1 T2 rand : Nat) : Option Nat :=
  if T2 - T1 = 0 then none else some (T1 + rand % (T2 - T1))

def State.parentWork (n T1 T2 : Nat) (s : State τ ρ) (rand : Nat) : Option (State τ ρ) :=
  match s.parent with
  | .notify i =>
    match (s.wq i).notify with
    | none => some s.kill
    | some q => some { s.setWq i q with parent := notifyLoop n (i + 1) }
  | .pause i =>
    match millis T1 T2 rand with
    | none => some { s with parent := .undefined }
    | some _ => some { s with parent := sendLoop n i }
  | .wait =>
    if ∀ i < n, (s.worker i).ended = true then some { s with parent := .done } else none
  | .send _ | .done | .undefined => none

/-- `mq_timedsend`, whose time is always over, and `i++`. -/
def State.timedsend (s : State τ ρ) (t : τ) : Option (State τ ρ) :=
  match s.parent with
  | .send i =>
    if s.tq.msgs.length < maxMsgs then
      some { s with
        tq := s.tq.send (t, 1) false
        queued := s.queued ++ [t]
        parent := .pause (i + 1) }
    else none
  | _ => none

/-- `i--`, and `i++` of the loop. -/
def State.timedout (s : State τ ρ) : Option (State τ ρ) :=
  match s.parent with
  | .send i => some { s with parent := .pause i }
  | _ => none

/-- Somebody may do something: no check has failed, and nothing undefined was done. -/
def State.runs (s : State τ ρ) : Bool := !s.killed && s.parent != .undefined

def State.next (n T1 T2 : Nat) (add : τ → ρ) (s : State τ ρ) (act : Act τ) : Option (State τ ρ) :=
  if s.runs then
    match act with
    | .parent rand => if s.handler = none then s.parentWork n T1 T2 rand else none
    | .send t => if s.handler = none then s.timedsend t else none
    | .fail => if s.handler = none then s.timedout else none
    | .signal => s.signal
    | .handler => s.mqHandler n
    | .worker i => if i < n then s.childWork add i else none
  else none

/-- The workers are forked, and `parent_work` begins. -/
def begun (n : Nat) : State τ ρ where
  worker _ := workLoop 0
  parent := notifyLoop n 0
  handler := none
  pending := []
  tq := .fresh
  wq _ := .fresh
  killed := false
  queued := []
  received := []
  sent _ := []
  printed _ := []

/-- The farm of `n` workers, with the range of the pauses. -/
def farms (n T1 T2 : Nat) (add : τ → ρ) : LTS (State τ ρ) (Act τ) where
  Init s := s = begun n
  next := State.next n T1 T2 add

/-- What `main` checks. `usage` says `T1 < T2`. -/
structure Accepted (n T1 T2 : Nat) : Prop where
  workers : 2 ≤ n ∧ n ≤ maxWorkers
  low : 100 ≤ T1
  order : ¬ T2 < T1
  high : T2 ≤ 5000

end Ops.Farm
