import Ops.Lib.Transition
import Ops.Posix.Sockets

/-!
# The digit-sum server (`website_server.c`)

The loop of `main`. A connection is accepted in one event and read, scored and closed in
another. All connections are read into one `buffer`, which nothing clears; `strlen` looks for
the first NUL, whatever was read. It runs past the end of `buffer` when there is none, which
is `undefined`.

`printed` are the sums, with the connection that each was printed for.
-/

namespace Ops.Digits

open Posix

variable {κ : Type} [DecidableEq κ]

def MAX_EVENTS : Nat := 10

/-- `sizeof (buffer)` -/
def bufferSize : Nat := 1024

inductive Stop where
  | interrupted
  | exited
  | undefined
  deriving DecidableEq, Repr

inductive Pc where
  | events (evs : List Int)
  | ended (why : Stop)
  deriving DecidableEq, Repr

structure State (κ : Type) where
  pc : Pc
  buffer : List Byte
  max_sum : Int
  epoll : List Int
  net : Net κ
  printed : List (κ × Int)

inductive Act (κ : Type) where
  | peer (p : Peer κ)
  | wait (evs : List Int)
  | sigint
  | accept (o : AcceptOutcome)
  | read (rs : List ReadOutcome)

/-- A number as an `int16_t`. -/
def wrap16 (v : Int) : Int := (BitVec.ofInt 16 v).toInt

/-- `buffer[i] - '0'` -/
def digit (b : Byte) : Int := b.toBitVec.toInt - '0'.toNat

/-- The loop over a string. -/
def sum (text : List Byte) : Int := text.foldl (fun sum b => wrap16 (sum + digit b)) 0

def State.goto (s : State κ) (pc : Pc) : State κ := { s with pc := pc }

/-- An event of `server_fd`. The socket blocks, so `EAGAIN` does not come. -/
def State.accept (s : State κ) (server_fd : Int) (evs : List Int) (o : AcceptOutcome) :
    Option (State κ) :=
  if o = .eagain then none
  else (s.net.addNewClient server_fd o).map fun r =>
    match r with
    | (none, net) => { s with net := net }.goto (.ended .exited)
    | (some client_fd, net) =>
      if client_fd < 0 ∨ client_fd ∈ s.epoll then { s with net := net }.goto (.ended .exited)
      else { s with net := net, epoll := client_fd :: s.epoll }.goto (.events evs)

/-- The sum of what stands in `buffer` is printed, and the connection is closed. -/
def State.score (s : State κ) (fd : Int) (evs : List Int) : State κ :=
  match cstr s.buffer with
  | none => s.goto (.ended .undefined)
  | some text =>
    let t := { s with
      max_sum := if sum text > s.max_sum then sum text else s.max_sum
      printed := s.printed ++ (s.net.fds fd).toList.map fun c => (c, sum text) }
    if fd ∈ s.epoll then
      { t with epoll := s.epoll.erase fd, net := s.net.close fd }.goto (.events evs)
    else t.goto (.ended .exited)

/-- An event of a client. -/
def State.read (s : State κ) (fd : Int) (evs : List Int) (rs : List ReadOutcome) :
    Option (State κ) :=
  (s.net.bulkRead fd rs s.buffer (bufferSize - 1)).map fun r =>
    match r with
    | (.error _, buffer, net) => { s with net := net, buffer := buffer }.goto (.ended .exited)
    | (.ok _, buffer, net) => State.score { s with net := net, buffer := buffer } fd evs

def State.next (server_fd : Int) (s : State κ) (act : Act κ) : Option (State κ) :=
  match act, s.pc with
  | .peer p, _ => (s.net.peer p).map fun net => { s with net := net }
  | .wait evs, .events [] =>
    if s.net.batch s.epoll MAX_EVENTS evs then some (s.goto (.events evs)) else none
  | .sigint, .events _ => some (s.goto (.ended .interrupted))
  | .accept o, .events (fd :: evs) => if fd = server_fd then s.accept server_fd evs o else none
  | .read rs, .events (fd :: evs) => if fd = server_fd then none else s.read fd evs rs
  | _, _ => none

/-- `main` at its first `epoll_wait`, whatever is in `buffer`. -/
structure Start (server_fd : Int) (s : State κ) : Prop where
  pc : s.pc = .events []
  buffer : s.buffer.length = bufferSize
  max_sum : s.max_sum = 0
  epoll : s.epoll = [server_fd]
  net : s.net.Start
  listens : s.net.other server_fd = true
  printed : s.printed = []

def server (κ : Type) [DecidableEq κ] (server_fd : Int) : LTS (State κ) (Act κ) where
  Init := Start server_fd
  next := State.next server_fd

end Ops.Digits
