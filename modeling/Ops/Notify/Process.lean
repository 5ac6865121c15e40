import Ops.Lib.Transition
import Ops.Posix.Mqueue

/-!
# Notification by a signal (`08_async_notification_signal.c`)

`main` from the fork on: the handlers are installed, the queue is empty and registered, and no
signal is blocked. The child sends five batches and then `SIGINT`; `mq_send` fails while the queue
has `MSG_MAX` messages. The parent blocks the two signals and waits for them in `sigsuspend`, which
returns after it has delivered some of those that are pending (`Act.wake`). Before that a pending
signal is delivered at any moment (`Act.deliver`).
-/

namespace Ops.Notify

open Posix

def MSG_MAX : Nat := 10

inductive Signal where
  | SIGUSR1
  | SIGINT
  deriving DecidableEq, Repr

/-- The next step of the child, in batch `i` of `n` messages. -/
inductive ChildPc where
  | batch (i : Nat)
  | send (i j n : Nat)
  | sleep (i : Nat)
  | kill
  | ended
  deriving DecidableEq, Repr

inductive ParentPc where
  | sigprocmask
  | sigsuspend
  | test
  | notify
  | receive
  | wait
  | returned
  | failed
  deriving DecidableEq, Repr

structure State where
  mq : Mqueue String
  /-- The signals that are pending for the parent. -/
  usr1 : Bool
  int : Bool
  should_exit : Bool
  parent : ParentPc
  child : ChildPc
  deriving DecidableEq, Repr

/-- `rand` is what `rand ()` returns. -/
inductive Act where
  | parent
  | child (rand : Nat)
  | deliver (sig : Signal)
  | wake (usr1 int : Bool)
  deriving DecidableEq, Repr

def State.childMain (s : State) (rand : Nat) : Option State :=
  match s.child with
  | .batch i => some { s with child := if i < 5 then .send i 0 (rand % 3 + 1) else .kill }
  | .send i j n =>
    if j < n then
      if s.mq.msgs.length < MSG_MAX then
        some { s with
          mq := s.mq.send ("text", 0) false, usr1 := s.usr1 || s.mq.fires false,
          child := .send i (j + 1) n }
      else some { s with child := .ended }
    else some { s with child := .sleep i }
  | .sleep i => some { s with child := .batch (i + 1) }
  | .kill => some { s with int := true, child := .ended }
  | .ended => none

/-- The parent; `sigsuspend` returns by `State.wake` only. -/
def State.parentMain (s : State) : Option State :=
  match s.parent with
  | .sigprocmask => some { s with parent := .sigsuspend }
  | .sigsuspend => none
  | .test => some { s with parent := if s.should_exit then .wait else .notify }
  | .notify =>
    match s.mq.notify with
    | none => some { s with parent := .failed }
    | some mq => some { s with mq := mq, parent := .receive }
  | .receive =>
    match s.mq.receive with
    | none => some { s with parent := .sigsuspend }
    | some (_, mq) => some { s with mq := mq }
  | .wait => if s.child = .ended then some { s with parent := .returned } else none
  | .returned | .failed => none

/-- `handler` and `sigint_handler`, before the signals are blocked. -/
def State.deliver (s : State) : Signal → Option State
  | .SIGUSR1 =>
    if s.parent = .sigprocmask ∧ s.usr1 = true then some { s with usr1 := false } else none
  | .SIGINT =>
    if s.parent = .sigprocmask ∧ s.int = true then
      some { s with int := false, should_exit := true }
    else none

/-- `sigsuspend` returns after the handlers of `usr1` and `int`, which are not both false. -/
def State.wake (s : State) (usr1 int : Bool) : Option State :=
  if s.parent = .sigsuspend ∧ (usr1 || int) = true ∧ (usr1 = true → s.usr1 = true) ∧
      (int = true → s.int = true) then
    some { s with
      usr1 := s.usr1 && !usr1, int := s.int && !int, should_exit := s.should_exit || int,
      parent := .test }
  else none

def State.next (s : State) : Act → Option State
  | .parent => s.parentMain
  | .child rand => s.childMain rand
  | .deliver sig => s.deliver sig
  | .wake usr1 int => s.wake usr1 int

/-- After `mq_notify` and `fork`. -/
def State.start : State where
  mq := ⟨[], true⟩
  usr1 := false
  int := false
  should_exit := false
  parent := .sigprocmask
  child := .batch 0

def program : LTS State Act where
  Init s := s = .start
  next := State.next

end Ops.Notify
