import Ops.Lib.Transition
import Ops.Posix.Sockets
import Ops.SocketCalc.Process

/-!
# The calculator server and its clients (`1_server.c`)

`doServer` as a state machine, with one step for each call: `events evs` is the loop over what
is left of a batch, and the wait in `epoll_pwait` when nothing is left. `SIGINT` comes only
there, and `SIGPIPE` is ignored.

`accepted`, `closed` and `touched` are for the theorems: the connections that were accepted and
closed, and the connection behind each descriptor that was used.
-/

namespace Ops.SocketCalc

open Posix

variable {κ : Type} [DecidableEq κ]

inductive Stop where
  | interrupted
  | exited
  | trapped
  deriving DecidableEq, Repr

inductive Pc where
  | events (evs : List Int)
  | read (client_socket : Int) (evs : List Int)
  | write (client_socket : Int) (evs : List Int)
  | close (client_socket : Int) (evs : List Int)
  | ended (why : Stop)
  deriving DecidableEq, Repr

structure State (κ : Type) where
  pc : Pc
  data : List Byte
  net : Net κ
  accepted : List κ
  closed : List κ
  touched : List (Option κ)

/-- The arguments of `doServer`. -/
structure Args where
  local_listen_socket : Int
  tcp_listen_socket : Int

inductive Act (κ : Type) where
  | peer (p : Peer κ)
  | pwait (evs : List Int)
  | sigint
  | accept (o : AcceptOutcome)
  | read (rs : List ReadOutcome)
  | write (ws : List WriteOutcome)
  | close

def MAX_EVENTS : Nat := 16

def Args.epoll (a : Args) : List Int := [a.local_listen_socket, a.tcp_listen_socket]

def State.goto (s : State κ) (pc : Pc) : State κ := { s with pc := pc }

/-- `client_socket = add_new_client (events[n].data.fd)` -/
def State.accept (s : State κ) (l : Int) (evs : List Int) (o : AcceptOutcome) : Option (State κ) :=
  (s.net.addNewClient l o).map fun r =>
    match r with
    | (none, net) => { s with net := net }.goto (.ended .exited)
    | (some fd, net) =>
      { s with
        net := net
        accepted := s.accepted ++ (net.fds fd).toList }.goto (.read fd evs)

/-- The descriptor `fd` is used. -/
def State.touch (s : State κ) (fd : Int) : State κ :=
  { s with touched := s.touched ++ [s.net.fds fd] }

def State.read (s : State κ) (client_socket : Int) (evs : List Int) (rs : List ReadOutcome) :
    Option (State κ) :=
  (s.net.bulkRead client_socket rs s.data dataSize).map fun r =>
    match r with
    | (.error _, data, net) =>
      { s.touch client_socket with net := net, data := data }.goto (.ended .exited)
    | (.ok size, data, net) =>
      if size = dataSize then
        match calculate data with
        | none => { s.touch client_socket with net := net, data := data }.goto (.ended .trapped)
        | some data =>
          { s.touch client_socket with net := net, data := data }.goto (.write client_socket evs)
      else { s.touch client_socket with net := net, data := data }.goto (.close client_socket evs)

def State.write (s : State κ) (client_socket : Int) (evs : List Int) (ws : List WriteOutcome) :
    Option (State κ) :=
  (s.net.bulkWrite client_socket ws s.data dataSize).map fun r =>
    { s.touch client_socket with net := r.2 }.goto
      (match r.1 with
      | .ok _ | .error .epipe => .close client_socket evs
      | .error _ => .ended .exited)

def State.close (s : State κ) (client_socket : Int) (evs : List Int) : State κ :=
  match s.net.fds client_socket with
  | none => (s.touch client_socket).goto (.ended .exited)
  | some c =>
    { s.touch client_socket with
      net := s.net.close client_socket
      closed := s.closed ++ [c] }.goto (.events evs)

def State.next (a : Args) (s : State κ) (act : Act κ) : Option (State κ) :=
  match act, s.pc with
  | .peer p, _ => (s.net.peer p).map fun net => { s with net := net }
  | .pwait evs, .events [] =>
    if s.net.batch a.epoll MAX_EVENTS evs then some (s.goto (.events evs)) else none
  | .sigint, .events [] => some (s.goto (.ended .interrupted))
  | .accept o, .events (l :: evs) => s.accept l evs o
  | .read rs, .read client_socket evs => s.read client_socket evs rs
  | .write ws, .write client_socket evs => s.write client_socket evs ws
  | .close, .close client_socket evs => some (s.close client_socket evs)
  | _, _ => none

/-- `doServer` at its first `epoll_pwait`, whatever is in `data`. -/
structure Start (a : Args) (s : State κ) : Prop where
  pc : s.pc = .events []
  data : s.data.length = dataSize
  net : s.net.Start
  listens : ∀ l ∈ a.epoll, s.net.other l = true
  accepted : s.accepted = []
  closed : s.closed = []
  touched : s.touched = []

def server (κ : Type) [DecidableEq κ] (a : Args) : LTS (State κ) (Act κ) where
  Init := Start a
  next := State.next a

end Ops.SocketCalc
