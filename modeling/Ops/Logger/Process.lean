import Ops.Lib.Transition
import Ops.Posix.Edge

/-!
# The logging echo server (`l4b.c`)

The loop of `main`. Each `read` is answered with a `write` of what it has read, without the first
byte. The log is a file that nothing reads.
-/

namespace Ops.Logger

open Posix

variable {κ : Type} [DecidableEq κ]

def maxEvents : Nat := 10

/-- `sizeof (buffer)` -/
def bufferSize : Nat := 1024

inductive Stop where
  | exited
  | sigpipe
  deriving DecidableEq, Repr

inductive Pc where
  | events (evs : List Int)
  | echo (fd : Int) (bytes : List Byte) (evs : List Int)
  | ended (why : Stop)
  deriving DecidableEq, Repr

structure State (κ : Type) where
  pc : Pc
  epoll : Epoll
  net : Net κ

inductive Act (κ : Type) where
  | peer (p : Peer κ)
  | wait (evs : List Int)
  | accept (o : AcceptOutcome)
  | read (fails : Bool)
  | echo (error : Option Errno)

def State.goto (s : State κ) (pc : Pc) : State κ := { s with pc := pc }

/-- `epoll_ctl (efd, EPOLL_CTL_ADD, cfd, &event)` -/
def State.add (s : State κ) (cfd : Int) (evs : List Int) : State κ :=
  match s.epoll.add s.net cfd with
  | none => s.goto (.ended .exited)
  | some epoll => { s with epoll := epoll }.goto (.events evs)

/-- An event of `sfd`, which blocks. -/
def State.accept (s : State κ) (sfd : Int) (evs : List Int) (o : AcceptOutcome) :
    Option (State κ) :=
  if o = .eagain then none
  else (s.net.addNewClient sfd o).map fun r =>
    match r with
    | (none, net) => { s with net := net }.goto (.ended .exited)
    | (some cfd, net) => State.add { s with net := net } cfd evs

/-- `read (fd, buffer, sizeof (buffer) - 1)` -/
def State.read (s : State κ) (fd : Int) (evs : List Int) (fails : Bool) : Option (State κ) :=
  (s.net.read fd (bufferSize - 1) fails).map fun r =>
    match r.1 with
    | .error _ | .ok [] => { s with net := r.2 }.goto (.events evs)
    | .ok bytes => { s with net := r.2 }.goto (.echo fd bytes evs)

/-- `write (fd, buffer + 1, n - 1)`, whose result nobody looks at. -/
def State.echo (s : State κ) (fd : Int) (bytes : List Byte) (evs : List Int) (error : Option Errno) :
    Option (State κ) :=
  (s.net.write fd (bytes.drop 1) error).map fun r =>
    { s with net := r.2 }.goto (if r.1 = some Errno.epipe then .ended .sigpipe else .events evs)

def State.next (sfd : Int) (s : State κ) (act : Act κ) : Option (State κ) :=
  match act, s.pc with
  | .peer p, _ => (s.net.peer p).map fun net =>
    { s with net := net, epoll := s.epoll.arrive s.net p }
  | .wait evs, .events [] => (s.epoll.wait s.net maxEvents evs).map fun epoll =>
    { s with epoll := epoll }.goto (.events evs)
  | .accept o, .events (fd :: evs) => if fd = sfd then s.accept sfd evs o else none
  | .read fails, .events (fd :: evs) => if fd = sfd then none else s.read fd evs fails
  | .echo error, .echo fd bytes evs => s.echo fd bytes evs error
  | _, _ => none

/-- `main` at its first `epoll_wait`. -/
structure Start (sfd : Int) (s : State κ) : Prop where
  pc : s.pc = .events []
  watched : s.epoll.watched = [sfd]
  net : s.net.Start
  listens : s.net.other sfd = true

def server (κ : Type) [DecidableEq κ] (sfd : Int) : LTS (State κ) (Act κ) where
  Init := Start sfd
  next := State.next sfd

/-- `sfd` is 3. -/
def State.idle (κ : Type) : State κ where
  pc := .events []
  epoll := ⟨[3], fun _ => false⟩
  net := Net.idle κ

omit [DecidableEq κ] in
theorem idle_start : Start 3 (State.idle κ) := ⟨rfl, rfl, Net.idle_start, rfl⟩

end Ops.Logger
