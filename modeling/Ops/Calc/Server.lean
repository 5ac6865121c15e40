import Mathlib.Logic.Function.Basic
import Ops.Calc.Request
import Ops.Lib.Transition
import Ops.Posix.Mqueue

/-!
# The calculator server (`task_programs/server.c`)

`main`, the clients' requests and the threads in which the callbacks run. A thread has no
name: `notifying` and `receiving` count those of a queue before `mq_notify` and before
`mq_receive`, and `answering` holds what the others have received. A notified thread that
has not begun is one of `notifying`. The three callbacks differ in their arithmetic only.

`arrived` and `answered` keep the requests.
-/

namespace Ops.Calc

open Posix

/-- One of the three queues, and the threads of its callback. -/
structure Desk where
  queue : Mqueue (List Byte)
  notifying : Nat
  receiving : Nat
  answering : List (List Byte)
  arrived : List (List Byte)
  answered : List (List Byte)

inductive Main where
  | notifyS
  | notifyM
  | notifyD
  | loop
  | left
  deriving DecidableEq, Repr

/-- `smashed`: a message was stored over the end of `message`. -/
inductive Status where
  | running
  | exited
  | trapped
  | smashed
  deriving DecidableEq, Repr

structure State where
  desk : Op → Desk
  main : Main
  run : Bool
  status : Status

/-- A step of `main`, `SIGINT`, a request, which may find a thread waiting in `mq_receive`, or a
step of a thread of a queue. -/
inductive Act where
  | main
  | sigint
  | request (op : Op) (message : List Byte) (blocked : Bool)
  | notify (op : Op)
  | receive (op : Op)
  | answer (op : Op) (k : Nat) (f : Frame)

def State.setDesk (s : State) (op : Op) (d : Desk) : State :=
  { s with desk := Function.update s.desk op d }

/-- `exit(1)` -/
def State.exit (s : State) : State := { s with status := .exited }

/-- The default `mq_maxmsg` and `mq_msgsize`. -/
def maxmsg : Nat := 10

def msgsize : Nat := 8192

/-! ## `main` -/

/-- `mq_notify` of `main`. -/
def State.register (s : State) (op : Op) (next : Main) : State :=
  match (s.desk op).queue.notify with
  | none => s.exit
  | some q => { s.setDesk op { s.desk op with queue := q } with main := next }

def State.mainWork (s : State) : Option State :=
  match s.main with
  | .notifyS => some (s.register .sum .notifyM)
  | .notifyM => some (s.register .modulo .notifyD)
  | .notifyD => some (s.register .division .loop)
  | .loop => some (if s.run then s else { s with main := .left })
  | .left => none

/-! ## Requests and callbacks -/

/-- `mq_send` of a client. -/
def Desk.request (d : Desk) (message : List Byte) (blocked : Bool) : Option Desk :=
  if message.length ≤ msgsize ∧ d.queue.msgs.length < maxmsg ∧ (blocked = true → 0 < d.receiving) then
    some { d with
      queue := d.queue.send (message, 0) blocked
      notifying := d.notifying + (d.queue.fires blocked).toNat
      arrived := d.arrived ++ [message] }
  else none

def State.notify (s : State) (op : Op) : Option State :=
  if 0 < (s.desk op).notifying then
    some (match (s.desk op).queue.notify with
      | none => s.exit
      | some q => s.setDesk op { s.desk op with
          queue := q
          notifying := (s.desk op).notifying - 1
          receiving := (s.desk op).receiving + 1 })
  else none

def State.receive (s : State) (op : Op) : Option State :=
  if 0 < (s.desk op).receiving then
    (s.desk op).queue.receive.map fun ((message, _), q) =>
      { s.setDesk op { s.desk op with
          queue := q
          receiving := (s.desk op).receiving - 1
          answering := (s.desk op).answering ++ [message] } with
        status := if fits message then s.status else .smashed }
  else none

/-- The end of a callback. -/
def State.finish (s : State) (op : Op) (k : Nat) (message : List Byte) : Outcome → State
  | .answers _ _ => s.setDesk op { s.desk op with
      answering := (s.desk op).answering.eraseIdx k
      answered := (s.desk op).answered ++ [message] }
  | .exits => s.exit
  | .traps => { s with status := .trapped }

/-- The rest of a callback. -/
def State.answer (s : State) (w : World) (op : Op) (k : Nat) (f : Frame) : Option State :=
  (s.desk op).answering[k]?.map fun message =>
    s.finish op k message (Calc.answer op w f message)

def State.serves (s : State) : Prop := s.status = .running ∧ s.main ≠ .left

instance (s : State) : Decidable s.serves := inferInstanceAs (Decidable (_ ∧ _))

def State.next (w : World) (s : State) (act : Act) : Option State :=
  if s.serves then
    match act with
    | .main => s.mainWork
    -- the handler is set before the loop
    | .sigint => some (if s.main = .loop then { s with run := false } else s.exit)
    | .request op message blocked => ((s.desk op).request message blocked).map (s.setDesk op)
    | .notify op => s.notify op
    | .receive op => s.receive op
    | .answer op k f => s.answer w op k f
  else none

/-- The queues are created. -/
def start : State where
  desk _ :=
    { queue := .fresh
      notifying := 0
      receiving := 0
      answering := []
      arrived := []
      answered := [] }
  main := .notifyS
  run := true
  status := .running

def servers (w : World) : LTS State Act where
  Init s := s = start
  next := State.next w

end Ops.Calc
