import Mathlib.Logic.Function.Basic
import Ops.Lib.Transition
import Ops.Posix.Mutex

/-!
# The board game (`Tutorial/server.c`, `Tutorial/client.c`)

The server and any number of clients as steps, one for each system call and each
access to the segment. The segment holds a robust mutex, the board size in one byte
and the cells row by row. `N_shared[0]` is a `char`, so neither an index nor a score
overflows. A reduction modulo 0, an access to an object of size 0 and the locking of
a mutex that is not initialised, or destroyed, are undefined, and the model has no
step there; a cell outside the segment is accessed all the same, and `cellOffset`
says where.

`score` keeps the score of a client that has ended, and `credits` says who was given
the points of which cell.
-/

namespace Ops.Board

open Posix (Mutex)

def SHM_SIZE : Nat := 1024

/-- The offset of a cell; `m` is `sizeof(pthread_mutex_t)`. -/
def cellOffset (m i : Nat) : Nat := m + 1 + i

inductive ServerPc where
  | shmOpen
  | truncate
  | mmap
  | writeN
  | fill (i : Nat)
  | initMutex
  | loop
  | lock
  | print (i : Nat)
  | unlock
  | destroy
  | unlink
  | done
  | failed
  deriving DecidableEq

/-- The next call or access of a client, with the board size that it read. -/
inductive ClientPc where
  | shmOpen
  | mmap
  | readN
  | lock (n : Nat)
  | draw (n : Nat)
  | target (n : Nat)
  | readCell (n i : Nat)
  | credit (n i : Nat) (p : Int)
  | clear (n i : Nat)
  | unlock (n : Nat)
  | gameOver
  | done
  | died
  | failed
  deriving DecidableEq

structure State (κ : Type) where
  server : ServerPc
  pc : κ → ClientPc
  named : Bool
  sized : Bool
  nShared : Nat
  board : Nat → Int
  mutex : Mutex (Option κ)
  score : κ → Int
  credits : List (κ × Nat × Int)

/-- What the environment decides about a step: whether a call succeeds, whether `SIGINT`
has stopped the server, and the values of `rand`. -/
inductive Outcome where
  | ok
  | fail
  | stop
  | rand (r : Nat)
  | rands (x y : Nat)
  deriving DecidableEq, Repr

/-- A step of the server (`none`) or of a client. -/
structure Act (κ : Type) where
  proc : Option κ
  outcome : Outcome

variable {κ : Type} [DecidableEq κ]

def State.goto (s : State κ) (c : κ) (pc : ClientPc) : State κ :=
  { s with pc := Function.update s.pc c pc }

def nextCell (N i : Nat) (body : Nat → ServerPc) (after : ServerPc) : ServerPc :=
  if i < N * N then body i else after

def State.serve (N : Nat) (s : State κ) (outcome : Outcome) : Option (State κ) :=
  match s.server, outcome with
  | .shmOpen, .ok => some { s with server := .truncate, named := true }
  | .shmOpen, .fail => some { s with server := .failed }
  | .truncate, .ok => some { s with server := .mmap, sized := true }
  | .truncate, .fail => some { s with server := .failed }
  | .mmap, .ok => some { s with server := .writeN }
  | .mmap, .fail => some { s with server := .failed }
  | .writeN, .ok => some { s with server := nextCell N 0 .fill .initMutex, nShared := N }
  | .fill i, .rand r =>
    some { s with
      server := nextCell N (i + 1) .fill .initMutex
      board := Function.update s.board i (1 + r % 9) }
  | .initMutex, .ok => some { s with server := .loop, mutex := .free }
  | .loop, .ok => some { s with server := .lock }
  | .loop, .stop => some { s with server := .destroy }
  | .lock, .ok =>
    (s.mutex.lock none).map fun m => { s with server := nextCell N 0 .print .unlock, mutex := m }
  | .print i, .ok => some { s with server := nextCell N (i + 1) .print .unlock }
  | .unlock, .ok => (s.mutex.unlock none).map fun m => { s with server := .loop, mutex := m }
  | .destroy, .ok => some { s with server := .unlink, mutex := .destroyed }
  | .unlink, .ok => some { s with server := .done, named := false }
  | _, _ => none

def State.play (s : State κ) (c : κ) (outcome : Outcome) : Option (State κ) :=
  match s.pc c, outcome with
  | .shmOpen, .ok => some (s.goto c (if s.named then .mmap else .failed))
  | .shmOpen, .fail => some (s.goto c .failed)
  | .mmap, .ok => some (s.goto c .readN)
  | .mmap, .fail => some (s.goto c .failed)
  | .readN, .ok => if s.sized then some (s.goto c (.lock s.nShared)) else none
  | .lock n, .ok => (s.mutex.lock (some c)).map fun m => { s with mutex := m }.goto c (.draw n)
  -- `D == 1` is an `exit` with the mutex held
  | .draw n, .rand r =>
    if 1 + r % 9 = 1 then some ({ s with mutex := s.mutex.die (some c) }.goto c .died)
    else some (s.goto c (.target n))
  | .target n, .rands x y =>
    if n = 0 then none else some (s.goto c (.readCell n (n * (y % n) + x % n)))
  | .readCell n i, .ok =>
    some (s.goto c (if s.board i = 0 then .gameOver else .credit n i (s.board i)))
  | .credit n i p, .ok =>
    some ({ s with
      score := Function.update s.score c (s.score c + p)
      credits := s.credits ++ [(c, i, p)] }.goto c (.clear n i))
  | .clear n i, .ok => some ({ s with board := Function.update s.board i 0 }.goto c (.unlock n))
  | .unlock n, .ok => (s.mutex.unlock (some c)).map fun m => { s with mutex := m }.goto c (.lock n)
  | .gameOver, .ok => (s.mutex.unlock (some c)).map fun m => { s with mutex := m }.goto c .done
  | _, _ => none

def State.next (N : Nat) (s : State κ) (act : Act κ) : Option (State κ) :=
  match act.proc with
  | none => s.serve N act.outcome
  | some c => s.play c act.outcome

/-- Nothing exists, and no client has opened the segment. -/
def fresh (κ : Type) : State κ where
  server := .shmOpen
  pc _ := .shmOpen
  named := false
  sized := false
  nShared := 0
  board _ := 0
  mutex := .raw
  score _ := 0
  credits := []

/-- The server has finished initialising the board `b`. -/
def ready (κ : Type) (N : Nat) (b : Nat → Int) : State κ where
  server := .loop
  pc _ := .shmOpen
  named := true
  sized := true
  nShared := N
  board := b
  mutex := .free
  score _ := 0
  credits := []

/-- A server with board size `N` that starts, and its clients. -/
def starts (κ : Type) [DecidableEq κ] (N : Nat) : LTS (State κ) (Act κ) where
  Init s := s = fresh κ
  next := State.next N

def games (κ : Type) [DecidableEq κ] (N : Nat) (b : Nat → Int) : LTS (State κ) (Act κ) where
  Init s := s = ready κ N b
  next := State.next N

end Ops.Board
