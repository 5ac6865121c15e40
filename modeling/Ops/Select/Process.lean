import Ops.Lib.Bytes
import Ops.Lib.Transition
import Ops.Posix.Nonblock

/-!
# A server that waits with `select` (`10_select.c`)

`do_server`: a table of `MAX_CLIENTS` slots, each the descriptor of a client or -1. A turn asks
`select` which descriptors can be read, accepts one client, and reads once from each slot that is
in `rdset`. Who finds no free slot is sent `neat_reply` and closed.

`FD_ISSET` is defined for 0 to `FD_SETSIZE - 1`. Of -1 it may be anything; a greater descriptor is
beyond the end of the set, which is `undefined`. `SIGPIPE` kills.

`printed` are the texts behind `Client sent`, with the connection that each was read from.
-/

namespace Ops.Select

open Posix

variable {κ : Type} [DecidableEq κ]

def MAX_CLIENTS : Nat := 3

def FD_SETSIZE : Int := 1024

/-- `sizeof (buff)` -/
def buffSize : Nat := 16

def neat_reply : List Byte :=
  ("No space for you :(\n".toList.map fun c => UInt8.ofNat c.toNat) ++ [0]

inductive Stop where
  | exited
  | killed
  | undefined
  deriving DecidableEq, Repr

/-- The call that comes next; `slot` is the `FD_ISSET` of `clients[i]`. -/
inductive Pc where
  | select
  | accept (rdset : List Int)
  | send (rdset : List Int) (client : Int)
  | slot (rdset : List Int) (i : Nat)
  | recv (rdset : List Int) (i : Nat)
  | ended (why : Stop)
  deriving DecidableEq, Repr

structure State (κ : Type) where
  pc : Pc
  clients : List Int
  net : Net κ
  printed : List (κ × List Byte)

/-- `junk` is the outcome of `FD_ISSET` for -1. -/
inductive Act (κ : Type) where
  | peer (p : Peer κ)
  | select (fails : Bool)
  | accept (o : AcceptOutcome)
  | send (error : Option Errno)
  | slot (junk : Bool)
  | recv (o : RecvOutcome)

def State.goto (s : State κ) (pc : Pc) : State κ := { s with pc := pc }

/-- The loop over the slots, at `i`. -/
def Pc.scan (rdset : List Int) (i : Nat) : Pc := if i < MAX_CLIENTS then .slot rdset i else .select

/-- The loop that looks for a free slot; `none` is its last `else`. -/
def place (client : Int) : List Int → Option (List Int)
  | [] => none
  | fd :: clients =>
    if fd = -1 then some (client :: clients) else (place client clients).map (fd :: ·)

/-- The descriptors in `rdset` when `select` is called. -/
def State.watched (server_socket : Int) (s : State κ) : List Int :=
  server_socket :: s.clients.filter (· ≠ -1)

def State.maxfd (server_socket : Int) (s : State κ) : Int :=
  s.clients.foldl (fun maxfd fd => if fd ≠ -1 ∧ fd > maxfd then fd else maxfd) server_socket

/-- What `select (maxfd + 1, &rdset, ...)` leaves in the set. -/
def State.rdset (server_socket : Int) (s : State κ) : List Int :=
  (s.watched server_socket).filter fun fd => fd < s.maxfd server_socket + 1 && s.net.ready fd

def State.select (server_socket : Int) (s : State κ) : Option (State κ) :=
  if (s.watched server_socket).any (FD_SETSIZE ≤ ·) then some (s.goto (.ended .undefined))
  else if s.rdset server_socket = [] then none
  else if server_socket ∈ s.rdset server_socket then
    some (s.goto (.accept (s.rdset server_socket)))
  else some (s.goto (.scan (s.rdset server_socket) 0))

def State.accept (server_socket : Int) (s : State κ) (rdset : List Int) (o : AcceptOutcome) :
    Option (State κ) :=
  (s.net.addNewClient server_socket o).map fun r =>
    match r with
    | (none, net) => { s with net := net }.goto (.ended .exited)
    | (some client, net) =>
      if client < 0 then { s with net := net }.goto (.scan rdset 0)
      else
        match place client s.clients with
        | some clients => { s with net := net, clients := clients }.goto (.scan rdset 0)
        | none => { s with net := net }.goto (.send rdset client)

/-- What `send` returns is not looked at. -/
def State.send (s : State κ) (rdset : List Int) (client : Int) (error : Option Errno) :
    Option (State κ) :=
  (s.net.write client neat_reply error).map fun r =>
    match r with
    | (some .epipe, net) => { s with net := net }.goto (.ended .killed)
    | (_, net) => { s with net := net.close client }.goto (.scan rdset 0)

def State.slot (s : State κ) (rdset : List Int) (i : Nat) (junk : Bool) : Option (State κ) :=
  s.clients[i]?.map fun fd =>
    if fd ≥ FD_SETSIZE then s.goto (.ended .undefined)
    else if (if fd < 0 then junk else decide (fd ∈ rdset)) then s.goto (.recv rdset i)
    else s.goto (.scan rdset (i + 1))

def State.recv (s : State κ) (rdset : List Int) (i : Nat) (o : RecvOutcome) : Option (State κ) :=
  s.clients[i]?.bind fun fd => (s.net.recv fd buffSize o).map fun r =>
    match r with
    | (.ok [], net) =>
      { s with net := net.close fd, clients := s.clients.set i (-1) }.goto (.scan rdset (i + 1))
    | (.ok bytes, net) =>
      { s with
        net := net
        printed := s.printed ++ (s.net.fds fd).toList.map fun c => (c, upToNul bytes)
      }.goto (.scan rdset (i + 1))
    | (.error .eagain, net) => { s with net := net }.goto (.scan rdset (i + 1))
    | (.error _, net) => { s with net := net }.goto (.ended .exited)

def State.next (server_socket : Int) (s : State κ) (act : Act κ) : Option (State κ) :=
  match act, s.pc with
  | .peer p, _ => (s.net.peer p).map fun net => { s with net := net }
  | .select fails, .select =>
    if fails then some (s.goto (.ended .exited)) else s.select server_socket
  | .accept o, .accept rdset => s.accept server_socket rdset o
  | .send error, .send rdset client => s.send rdset client error
  | .slot junk, .slot rdset i => s.slot rdset i junk
  | .recv o, .recv rdset i => s.recv rdset i o
  | _, _ => none

/-- At the first `select`. The listening socket is the last descriptor that `main` has opened. -/
structure Start (server_socket : Int) (s : State κ) : Prop where
  pc : s.pc = .select
  clients : s.clients = List.replicate MAX_CLIENTS (-1)
  net : s.net.Start
  listens : s.net.other server_socket = true
  last : ∀ fd, s.net.other fd = true → fd ≤ server_socket
  printed : s.printed = []

def server (κ : Type) [DecidableEq κ] (server_socket : Int) : LTS (State κ) (Act κ) where
  Init := Start server_socket
  next := State.next server_socket

end Ops.Select
