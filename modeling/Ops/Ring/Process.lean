import Mathlib.Logic.Function.Basic
import Ops.Lib.Scan
import Ops.Lib.Transition
import Ops.Posix.Fds

/-!
# Process ring (`task60myself.c`)

`create_pipes_and_children` for `q` processes, and the processes that it creates: the
parent is process 0, and process `i` runs the child of that index. Each `pipe`, `fork`,
`close`, `read` and `write` is a step. A `read` or `write` on a descriptor that is not
open fails, and `ERR` ends the process; a `read` from an empty pipe that nobody can write
to returns 0; a `write` to a pipe that nobody can read from ends the process.

`sent` and `got` are for the theorems: what each process has written and what its reads
have returned.
-/

namespace Ops.Ring

open Posix (End Fds)

/-- The next step of a process; the arguments are the counters of its loops. -/
inductive Pc where
  | off
  | pipe (n : Nat)
  | fork (i : Nat)
  | closeReads (i : Nat)
  | closeWrites (i : Nat)
  | closeRead (j : Nat)
  | closeWrite (j : Nat)
  | draw
  | write (message : List Char)
  | read
  | exited
  deriving DecidableEq, Repr

structure State where
  pc : Nat → Pc
  fds : Nat → Fds
  pipe : Nat → List Char
  sent : Nat → List (List Char)
  got : Nat → List (List Char)

/-- `r` is what `rand` returns to a process that draws. -/
structure Act where
  proc : Nat
  r : Nat

/-- The pipe that `parent_work` or `child_work` reads from. -/
def readp (q p : Nat) : Nat := if p = 0 then q - 1 else (p + q - 1) % q

/-- The pipe that `parent_work` or `child_work` writes to. -/
def writep (p : Nat) : Nat := if p = 0 then 0 else p

/-- `PIPE_BUF` is smaller: a write of a message is not split. -/
def capacity : Nat := 65536

def State.goto (s : State) (p : Nat) (c : Pc) : State :=
  { s with pc := Function.update s.pc p c }

/-- `ERR`, or `SIGPIPE`. -/
def State.exit (s : State) (p : Nat) : State :=
  { s with fds := Function.update s.fds p Fds.none }.goto p .exited

def State.close (s : State) (p : Nat) (e : End) (j : Nat) (c : Pc) : State :=
  match (s.fds p).close e j with
  | some fds => { s with fds := Function.update s.fds p fds }.goto p c
  | none => s.exit p

def State.opened (q : Nat) (s : State) (e : End) (j : Nat) : Bool :=
  (List.range q).any fun p => s.fds p e j

/-- The `read` of up to 255 bytes. -/
def State.read (q : Nat) (s : State) (p : Nat) : Option State :=
  if s.fds p .read (readp q p) then
    match s.pipe (readp q p) with
    | [] =>
      if s.opened q .write (readp q p) then none
      else some ({ s with got := Function.update s.got p (s.got p ++ [[]]) }.goto p .draw)
    | c :: cs =>
      some ({ s with
        pipe := Function.update s.pipe (readp q p) ((c :: cs).drop 255)
        got := Function.update s.got p (s.got p ++ [(c :: cs).take 255]) }.goto p .draw)
  else some (s.exit p)

def State.write (q : Nat) (s : State) (p : Nat) (message : List Char) : Option State :=
  if s.fds p .write (writep p) then
    if s.opened q .read (writep p) then
      if (s.pipe (writep p)).length + message.length ≤ capacity then
        some ({ s with
          pipe := Function.update s.pipe (writep p) (s.pipe (writep p) ++ message)
          sent := Function.update s.sent p (s.sent p ++ [message]) }.goto p .read)
      else none
    else some (s.exit p)
  else some (s.exit p)

/-- `create_pipes_and_children(fds, q)`, `parent_work` and `child_work`. -/
def State.next (q : Nat) (s : State) (act : Act) : Option State :=
  let p := act.proc
  match s.pc p with
  | .off => none
  | .pipe 0 => some (s.goto p (.fork 1))
  | .pipe (n + 1) =>
    some ({ s with fds := Function.update s.fds p ((s.fds p).pipe n) }.goto p (.pipe n))
  | .fork i =>
    if i < q then
      some (({ s with fds := Function.update s.fds i (s.fds p) }.goto i (.closeRead 0)).goto p
        (.fork (i + 1)))
    else some (s.goto p (.closeReads 0))
  -- the parent
  | .closeReads i =>
    if i < q - 1 then some (s.close p .read i (.closeReads (i + 1)))
    else some (s.goto p (.closeWrites 1))
  | .closeWrites i =>
    if i < q then some (s.close p .write i (.closeWrites (i + 1))) else some (s.goto p .draw)
  -- child `p`
  | .closeRead j =>
    if j < q then
      if j ≠ p - 1 then some (s.close p .read j (.closeWrite j))
      else some (s.goto p (.closeWrite j))
    else some (s.goto p .read)
  | .closeWrite j =>
    if j ≠ p then some (s.close p .write j (.closeRead (j + 1)))
    else some (s.goto p (.closeRead (j + 1)))
  -- the loops of `parent_work` and `child_work`
  | .draw => some (s.goto p (.write (decimal (act.r % 100))))
  | .write message => s.write q p message
  | .read => s.read q p
  | .exited => none

/-- The parent before the first `pipe`. -/
def start (q : Nat) : State where
  pc p := if p = 0 then .pipe q else .off
  fds _ := Fds.none
  pipe _ := []
  sent _ := []
  got _ := []

def ring (q : Nat) : LTS State Act where
  Init s := s = start q
  next := State.next q

end Ops.Ring
