import Ops.Lib.Transition
import Ops.Posix.Mqueue

/-!
# Notification by a thread (`09_async_notification_thread.c`)

`main` from the fork on: the handler of `SIGINT` is installed, the queue is empty and registered,
and no signal is blocked. A notification starts a thread of `thread_routine`, which blocks no signal
and may take the `SIGINT`; `threads` are all that were started. All messages are "text" with
priority 0, so `sent` and `received` are their numbers. A thread that calls `exit` ends the process
(`exited`), and so does the end of `main`; between `mq_close` and that end the calls of a thread on
the queue fail with `EBADF`.
-/

namespace Ops.Notify.Threaded

open Posix

def MSG_MAX : Nat := 10

inductive ThreadPc where
  | notify
  | receive
  | ended
  deriving DecidableEq, Repr

/-- The next step of the child, in batch `i` of `n` messages. -/
inductive ChildPc where
  | batch (i : Nat)
  | send (i j n : Nat)
  | sleep (i : Nat)
  | kill
  | ended
  | failed
  deriving DecidableEq, Repr

inductive ParentPc where
  | sigprocmask
  | sigsuspend
  | test
  | wait
  | mq_close
  | closed
  | returned
  deriving DecidableEq, Repr

structure State where
  mq : Mqueue String
  /-- `SIGINT` is pending for the parent. -/
  int : Bool
  should_exit : Bool
  exited : Bool
  parent : ParentPc
  child : ChildPc
  threads : List ThreadPc
  sent : Nat
  received : Nat
  deriving DecidableEq, Repr

/-- `rand` is what `rand ()` returns. -/
inductive Act where
  | parent
  | child (rand : Nat)
  | deliver
  | wake
  | take (i : Nat)
  | thread (i : Nat)
  deriving DecidableEq, Repr

/-- The child; a message that fires the notification starts a thread. -/
def State.childMain (s : State) (rand : Nat) : Option State :=
  match s.child with
  | .batch i => some { s with child := if i < 5 then .send i 0 (rand % 3 + 1) else .kill }
  | .send i j n =>
    if j < n then
      if s.mq.msgs.length < MSG_MAX then
        some { s with
          mq := s.mq.send ("text", 0) false
          threads := if s.mq.fires false then s.threads ++ [.notify] else s.threads
          sent := s.sent + 1
          child := .send i (j + 1) n }
      else some { s with child := .failed }
    else some { s with child := .sleep i }
  | .sleep i => some { s with child := .batch (i + 1) }
  | .kill => some { s with int := true, child := .ended }
  | .ended | .failed => none

/-- The parent; `sigsuspend` returns by `State.wake` only. -/
def State.parentMain (s : State) : Option State :=
  match s.parent with
  | .sigprocmask => some { s with parent := .sigsuspend }
  | .sigsuspend => none
  | .test => some { s with parent := if s.should_exit then .wait else .sigsuspend }
  | .wait =>
    if s.child = .ended ∨ s.child = .failed then some { s with parent := .mq_close } else none
  | .mq_close => some { s with mq := { s.mq with registered := false }, parent := .closed }
  | .closed => some { s with parent := .returned }
  | .returned => none

/-- `mq_notify`, which fails also behind `mq_close`. -/
def State.notify (s : State) : Option (Mqueue String) :=
  if s.parent = .closed then none else s.mq.notify

def State.thread_routine (s : State) (i : Nat) : Option State :=
  match s.threads[i]? with
  | some .notify =>
    match s.notify with
    | none => some { s with exited := true }
    | some mq => some { s with mq := mq, threads := s.threads.set i .receive }
  | some .receive =>
    if s.parent = .closed then some { s with exited := true }
    else
      match s.mq.receive with
      | none => some { s with threads := s.threads.set i .ended }
      | some (_, mq) => some { s with mq := mq, received := s.received + 1 }
  | some .ended | none => none

/-- The process of the parent goes on. -/
def State.alive (s : State) : Bool := !s.exited && s.parent ≠ .returned

def State.next (s : State) : Act → Option State
  | .parent => if s.alive then s.parentMain else none
  | .child rand => s.childMain rand
  | .deliver =>
    if s.alive ∧ s.parent = .sigprocmask ∧ s.int = true then
      some { s with int := false, should_exit := true }
    else none
  | .wake =>
    if s.alive ∧ s.parent = .sigsuspend ∧ s.int = true then
      some { s with int := false, should_exit := true, parent := .test }
    else none
  | .take i =>
    if s.alive ∧ s.int = true ∧ ((s.threads[i]?).any (· ≠ .ended)) = true then
      some { s with int := false, should_exit := true }
    else none
  | .thread i => if s.alive then s.thread_routine i else none

/-- After `mq_notify` and `fork`. -/
def State.start : State where
  mq := ⟨[], true⟩
  int := false
  should_exit := false
  exited := false
  parent := .sigprocmask
  child := .batch 0
  threads := []
  sent := 0
  received := 0

def program : LTS State Act where
  Init s := s = .start
  next := State.next

end Ops.Notify.Threaded
