import Mathlib.Data.Finset.Basic
import Mathlib.Logic.Function.Basic
import Ops.Lib.Bytes
import Ops.Lib.Transition

/-!
# Files through a FIFO (`prog21_c.c`, `prog21b_s.c`)

`write_to_fifo` of any number of writers and `read_from_fifo` of one reader, with the `open`
before them and the `close` behind. A writer goes by its process id. The `open` of the reader comes
back when a writer opens the FIFO, and a writer can open it until the reader closes it. A `read` of
the empty FIFO returns 0 when no writer has it open. A `write` of `PIPE_BUF` bytes is one step, and
`SIGPIPE` ends a writer when the reader has closed the FIFO.
-/

namespace Ops.Fifo

def PIPE_BUF : Nat := 4096

/-- `sizeof (pid_t)` -/
def sizeofPid : Nat := 4

def MSG_SIZE : Nat := PIPE_BUF - sizeofPid

/-- Of the FIFO. -/
def capacity : Nat := 65536

abbrev Pid := BitVec 32

/-- The next step of a writer; `count` is what its last `read` returned. -/
inductive WriterPc where
  | off
  | read
  | write (count : Nat)
  | broken
  | returned
  | closed
  deriving DecidableEq, Repr

/-- `file` is what is left of the file. -/
structure Writer where
  pc : WriterPc
  buffer : List Byte
  file : List Byte
  deriving DecidableEq

inductive ReaderPc where
  | open
  | read
  | returned
  | closed
  deriving DecidableEq, Repr

/-- `writers` are those that have the FIFO open; `printed` are the characters under each
`PID:` line. -/
structure State where
  writer : Pid → Writer
  writers : Finset Pid
  fifo : List Byte
  reader : ReaderPc
  buffer : List Byte
  printed : List (Pid × List Byte)

/-- `stack` is what `buffer` of `write_to_fifo` holds before. -/
inductive Act where
  | start (pid : Pid) (stack : List Byte)
  | writer (pid : Pid)
  | reader

/-- In the C locale. -/
def isalnum (b : Byte) : Bool :=
  ('0'.toNat ≤ b.toNat && b.toNat ≤ '9'.toNat) || ('A'.toNat ≤ b.toNat && b.toNat ≤ 'Z'.toNat) ||
    ('a'.toNat ≤ b.toNat && b.toNat ≤ 'z'.toNat)

def State.setWriter (s : State) (pid : Pid) (w : Writer) : State :=
  { s with writer := Function.update s.writer pid w }

/-- `while (count == MSG_SIZE)` -/
def again (count : Nat) : WriterPc := if count = MSG_SIZE then .read else .returned

/-- `open (argv[1], O_WRONLY)`, and the process id in front of `buffer`. -/
def State.start (s : State) (pid : Pid) (stack : List Byte) : Option State :=
  if s.reader ≠ .closed ∧ (s.writer pid).pc = .off ∧ stack.length = PIPE_BUF then
    some { s.setWriter pid { s.writer pid with
        pc := .read
        buffer := blit stack 0 (storeWord pid) } with
      writers := insert pid s.writers
      reader := if s.reader = .open then .read else s.reader }
  else none

/-- `read (file, buf, MSG_SIZE)`, and the zeros behind a short block. -/
def Writer.readFile (w : Writer) : Writer :=
  let count := min MSG_SIZE w.file.length
  let buffer := blit w.buffer sizeofPid (w.file.take MSG_SIZE)
  { pc := if count > 0 then .write count else again count
    buffer := if count < MSG_SIZE then
        blit buffer (sizeofPid + count) (List.replicate (MSG_SIZE - count) 0)
      else buffer
    file := w.file.drop MSG_SIZE }

def State.write_to_fifo (s : State) (pid : Pid) : Option State :=
  match (s.writer pid).pc with
  | .read => some (s.setWriter pid (s.writer pid).readFile)
  | .write count =>
    if s.reader = .closed then
      some { s.setWriter pid { s.writer pid with pc := .broken } with
        writers := s.writers.erase pid }
    else if s.fifo.length + PIPE_BUF ≤ capacity then
      some { s.setWriter pid { s.writer pid with pc := again count } with
        fifo := s.fifo ++ (s.writer pid).buffer.take PIPE_BUF }
    else none
  | .returned =>
    -- `close (fifo)` in `main`
    some { s.setWriter pid { s.writer pid with pc := .closed } with writers := s.writers.erase pid }
  | .off | .broken | .closed => none

def print (buffer : List Byte) : Pid × List Byte :=
  (loadWord buffer, ((buffer.drop sizeofPid).take MSG_SIZE).filter isalnum)

def State.read_from_fifo (s : State) : Option State :=
  match s.reader with
  | .read =>
    if s.fifo ≠ [] then
      let buffer := blit s.buffer 0 (s.fifo.take PIPE_BUF)
      some { s with
        fifo := s.fifo.drop PIPE_BUF
        buffer := buffer
        printed := s.printed ++ [print buffer] }
    else if s.writers = ∅ then some { s with reader := .returned }
    else none
  | .returned =>
    -- `close (fifo)` in `main`
    some { s with reader := .closed }
  | .open | .closed => none

def State.next (s : State) (act : Act) : Option State :=
  match act with
  | .start pid stack => s.start pid stack
  | .writer pid => s.write_to_fifo pid
  | .reader => s.read_from_fifo

/-- `file pid` is the file of process `pid`, whatever is in the buffers. -/
def Start (file : Pid → List Byte) (s : State) : Prop :=
  (∀ pid, (s.writer pid).pc = .off ∧ (s.writer pid).file = file pid) ∧ s.writers = ∅ ∧
    s.fifo = [] ∧ s.reader = .open ∧ s.buffer.length = PIPE_BUF ∧ s.printed = []

def fifos (file : Pid → List Byte) : LTS State Act where
  Init := Start file
  next := State.next

end Ops.Fifo
