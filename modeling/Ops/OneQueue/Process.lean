import Ops.Calc.Wire
import Ops.Lib.Transition
import Ops.Posix.Mqueue

/-!
# One queue for request and reply (`Lab - 6/Example Task/task.c`)

The server is the parent of its only client. Both use the queue `mq_s`: the client sends its
request to it, and the server its reply, and each registers for the notification of a message. One
process can be registered at a time, and the notification takes the registration away. Nothing
orders the registrations and the messages of the two processes.

`sumHandler` and `handler` run when the notification has come (`receive`); the loops at the end of
the two processes wait for nothing else. `mq_send` does not wait: the queue has room.
-/

namespace Ops.OneQueue

open Posix
open Calc (bytes chars)

inductive Process where
  | server
  | client
  deriving DecidableEq, Repr

inductive ServerPc where
  | notify
  | loop
  | failed
  deriving DecidableEq, Repr

/-- `sumHandler` -/
inductive SumPc where
  | idle
  | receive
  | send (sum : Int)
  | done
  deriving DecidableEq, Repr

inductive ClientPc where
  | send
  | notify
  | loop
  | failed
  deriving DecidableEq, Repr

inductive HandlerPc where
  | idle
  | receive
  | done (printed : List Char)
  deriving DecidableEq, Repr

structure State where
  mq : Mqueue (List Byte)
  /-- Who has registered last. -/
  owner : Process
  server : ServerPc
  sumHandler : SumPc
  client : ClientPc
  handler : HandlerPc

/-- What the memory of the processes holds before they write to it is arbitrary. -/
inductive Act where
  | server
  | sumHandler (stack heap : List Byte) (a b : Int)
  | client (stack : List Byte)
  | handler (stack : List Byte)

/-- `"%d %d"` -/
def text (a b : Int) : List Char := decimalInt a ++ ' ' :: decimalInt b

/-- The `sizeof(message) + 1` bytes of `message` that are sent. -/
def request (stack : List Byte) (a b : Int) : List Byte :=
  (blit stack 0 (bytes (text a b) ++ [0])).take 6

/-- `msg` of `sumHandler` after `sscanf`. -/
def operands (stack : List Byte) (a b : Int) (message : List Byte) : Int × Int :=
  match scan [.int, .blank, .int] (chars (upToNul (blit stack 0 message))) with
  | [] => (a, b)
  | [a'] => (storeInt a', b)
  | a' :: b' :: _ => (storeInt a', storeInt b')

/-- The `sizeof(msg)` bytes of `sum_str` that are sent. -/
def reply (heap : List Byte) (sum : Int) : List Byte :=
  (blit heap 0 (bytes (decimalInt sum) ++ [0])).take 8

def printed (stack message : List Byte) : List Char := chars (upToNul (blit stack 0 message))

/-- `mq_send`, with the notification of who is registered. -/
def State.send (s : State) (message : List Byte) : State :=
  { s with
    mq := s.mq.send (message, 0) false
    sumHandler :=
      if s.mq.fires false = true ∧ s.owner = .server then .receive else s.sumHandler
    handler := if s.mq.fires false = true ∧ s.owner = .client then .receive else s.handler }

/-- `main` after the `fork`. -/
def State.stepServer (s : State) : Option State :=
  match s.server with
  | .notify =>
    match s.mq.notify with
    | none => some { s with server := .failed }
    | some mq => some { s with mq := mq, owner := .server, server := .loop }
  | .loop | .failed => none

def State.stepSumHandler (s : State) (stack heap : List Byte) (a b : Int) : Option State :=
  match s.sumHandler with
  | .receive =>
    s.mq.receive.map fun r =>
      let msg := operands stack a b r.1.1
      { s with mq := r.2, sumHandler := .send (add32 msg.1 msg.2) }
  | .send sum => some ({ s with sumHandler := .done }.send (reply heap sum))
  | .idle | .done => none

/-- `ClientWork`; the numbers are those that `scanf` has read. -/
def State.stepClient (a b : Int) (s : State) (stack : List Byte) : Option State :=
  match s.client with
  | .send => some ({ s with client := .notify }.send (request stack a b))
  | .notify =>
    match s.mq.notify with
    | none => some { s with client := .failed }
    | some mq => some { s with mq := mq, owner := .client, client := .loop }
  | .loop | .failed => none

def State.stepHandler (s : State) (stack : List Byte) : Option State :=
  match s.handler with
  | .receive =>
    s.mq.receive.map fun r => { s with mq := r.2, handler := .done (printed stack r.1.1) }
  | .idle | .done _ => none

def State.next (a b : Int) (s : State) : Act → Option State
  | .server => s.stepServer
  | .sumHandler stack heap a' b' => s.stepSumHandler stack heap a' b'
  | .client stack => s.stepClient a b stack
  | .handler stack => s.stepHandler stack

def State.start : State := ⟨.fresh, .server, .notify, .idle, .send, .idle⟩

def program (a b : Int) : LTS State Act where
  Init s := s = .start
  next := State.next a b

/-- `message` has five bytes. -/
def Fits (a b : Int) : Prop := (text a b).length + 1 ≤ 5

instance (a b : Int) : Decidable (Fits a b) := inferInstanceAs (Decidable (_ ≤ _))

end Ops.OneQueue
