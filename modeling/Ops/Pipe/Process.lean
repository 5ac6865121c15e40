import Ops.Lib.Bytes
import Ops.Lib.Transition

/-!
# Reads that cut a stream (`07_read_close.c`, `08_write_sticking.c`)

The parent writes `writes` times the same `message` to a pipe and closes it, the child reads with a
buffer of `size` bytes until there is nothing more to come. No message is longer than `PIPE_BUF`
(`Params.atomic`), so a `write` is one step; it waits as long as there is no room for all of it.
`chunks` is what the calls of `read` have put in the buffer.
-/

namespace Ops.Pipe

inductive ParentPc where
  | close0
  | write (i : Nat)
  | close1
  | wait
  | returned
  /-- `SIGPIPE` -/
  | killed
  deriving DecidableEq, Repr

inductive ChildPc where
  | close1
  | read
  | close0
  | exited
  deriving DecidableEq, Repr

structure State where
  pipe : List Byte
  parent : ParentPc
  child : ChildPc
  chunks : List (List Byte)

inductive Act where
  | parent
  | child
  deriving DecidableEq, Repr

/-- A `write` of so many bytes is not cut. -/
def PIPE_BUF : Nat := 4096

/-- What the program and the system fix. -/
structure Params where
  writes : Nat
  message : List Byte
  size : Nat
  capacity : Nat
  atomic : message.length ≤ PIPE_BUF

/-- Somebody has `fd[0]` open. -/
def State.hasReader (s : State) : Bool := s.parent = .close0 || s.child ≠ .exited

/-- The parent has `fd[1]` open. -/
def ParentPc.isWriter : ParentPc → Bool
  | close0 | write _ | close1 => true
  | wait | returned | killed => false

/-- Somebody has `fd[1]` open. -/
def State.hasWriter (s : State) : Bool := s.child = .close1 || s.parent.isWriter

def State.stepParent (P : Params) (s : State) : Option State :=
  match s.parent with
  | .close0 => some { s with parent := .write 0 }
  | .write i =>
    if i < P.writes then
      if s.hasReader = false then some { s with parent := .killed }
      else if s.pipe.length + P.message.length ≤ P.capacity then
        some { s with pipe := s.pipe ++ P.message, parent := .write (i + 1) }
      else none
    else some { s with parent := .close1 }
  | .close1 => some { s with parent := .wait }
  | .wait => if s.child = .exited then some { s with parent := .returned } else none
  | .returned | .killed => none

def State.stepChild (P : Params) (s : State) : Option State :=
  match s.child with
  | .close1 => some { s with child := .read }
  | .read =>
    if s.pipe = [] then
      if s.hasWriter then none else some { s with child := .close0 }
    else some { s with pipe := s.pipe.drop P.size, chunks := s.chunks ++ [s.pipe.take P.size] }
  | .close0 => some { s with child := .exited }
  | .exited => none

def State.next (P : Params) (s : State) : Act → Option State
  | .parent => s.stepParent P
  | .child => s.stepChild P

/-- After `pipe` and `fork`. -/
def State.start : State := ⟨[], .close0, .close1, []⟩

def program (P : Params) : LTS State Act where
  Init s := s = .start
  next := State.next P

/-- `"text"` with its end, five times. -/
def read_close : Params := ⟨5, [116, 101, 120, 116, 0], 16, 65536, by decide⟩

/-- Ten times ten bytes, for a buffer of `PIPE_BUF` bytes. -/
def write_sticking : Params := ⟨10, List.replicate 10 0, PIPE_BUF, 65536, by decide⟩

end Ops.Pipe
