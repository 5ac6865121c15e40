import Ops.Lib.Transition
import Ops.Posix.Sockets

/-!
# The city server (`anotherone.c`)

`doServer`, with one step for each call. An accepted client sends a frame of four bytes, which is
echoed before the client is registered; a frame that changes the owner of a city goes on to all
entries of `clients` but its sender's. All frames are read into one `data`, and the arrays start
with what is on the stack. `SIGPIPE` is ignored.

`early` to `deeds` are for the theorems: who connected to the TCP socket before a frame was read,
whose end of stream was read, the cities that a frame was for, and what the server has done.
-/

namespace Ops.Cities

open Posix

variable {κ : Type} [DecidableEq κ]

def MAX_EVENTS : Nat := 16

def MAX_CLIENTS : Nat := 4

def MAX_CITIES : Nat := 20

instance : @NeZero Nat Zero.ofOfNat0 MAX_CITIES := ⟨Nat.succ_ne_zero 19⟩

/-- `sizeof (int8_t[4])` -/
def dataSize : Nat := 4

/-- The arguments of `doServer`. -/
structure Args where
  local_listen_socket : Int
  tcp_listen_socket : Int

/-- `received` is what the client has sent in this event, `todo` the entries of `clients` that
the loop has not come to. -/
inductive Pc where
  | events (evs : List Int)
  | greet (client_socket : Int) (evs : List Int)
  | welcome (client_socket : Int) (received : List Byte) (evs : List Int)
  | echo (client_socket : Int) (received : List Byte) (evs : List Int)
  | broadcast (client_socket : Int) (received : List Byte) (todo evs : List Int)
  | ended
  deriving DecidableEq, Repr

inductive Effect where
  | change
  | echo
  | broadcast
  deriving DecidableEq, Repr

/-- Something that the server does in an event of `origin`, with the bytes in `data`. `gone` says
that the end of `target` was read before. -/
structure Deed (κ : Type) where
  effect : Effect
  origin : Option κ
  target : Option κ
  gone : Bool
  received : List Byte
  frame : List Byte
  deriving DecidableEq, Repr

structure State (κ : Type) where
  pc : Pc
  data : List Byte
  cities : Fin MAX_CITIES → Int
  clients : List Int
  clients_amount : Nat
  epoll : List Int
  net : Net κ
  started : Bool
  early : κ → Bool
  left : List κ
  assigned : Fin MAX_CITIES → Bool
  deeds : List (Deed κ)

inductive Act (κ : Type) where
  | peer (p : Peer κ)
  | pwait (evs : List Int)
  | accept (o : AcceptOutcome)
  | read (rs : List ReadOutcome)
  | write (ws : List WriteOutcome)

/-! ## Frames -/

/-- `data[i] - '0'` -/
def digit (data : List Byte) (i : Nat) : Int := (data.getD i 0).toBitVec.toInt - 48

def city (data : List Byte) : Int := digit data 1 * 10 + digit data 2 - 1

/-- The owner in a frame, or -1. -/
def owner (data : List Byte) : Int :=
  if data.getD 0 0 = 103 then 0 else if data.getD 0 0 = 112 then 1 else -1

/-- The entry of `cities` for a frame, if the index passes the test. -/
def place (data : List Byte) : Option (Fin MAX_CITIES) :=
  if h : 0 ≤ city data ∧ city data ≤ MAX_CITIES - 2 then
    some ⟨(city data).toNat, by have hpos := h.1; have hle := h.2; unfold MAX_CITIES at *; omega⟩
  else none

/-! ## Calls -/

def atPos (tab : List Int) (am : Nat) (el : Int) : Option Nat := (tab.take am).findIdx? (· = el)

def State.goto (s : State κ) (pc : Pc) : State κ := { s with pc := pc }

/-- The server does something for `client_socket` to `fd`. -/
def State.deed (s : State κ) (effect : Effect) (client_socket fd : Int) (received : List Byte) :
    State κ :=
  { s with deeds := s.deeds ++ [{
      effect := effect
      origin := s.net.fds client_socket
      target := s.net.fds fd
      gone := (s.net.fds fd).any (· ∈ s.left)
      received := received
      frame := s.data }] }

/-- An event of the TCP socket. -/
def State.accept (s : State κ) (l : Int) (evs : List Int) (o : AcceptOutcome) : Option (State κ) :=
  (s.net.addNewClient l o).map fun r =>
    match r with
    | (none, net) => { s with net := net }.goto .ended
    | (some client_socket, net) =>
      if s.clients_amount = MAX_CLIENTS then
        { s with net := net.close client_socket }.goto (.events evs)
      else { s with net := net }.goto (.greet client_socket evs)

/-- `size = bulk_read (client_socket, data, sizeof (int8_t[4]))` -/
def State.bulk_read (s : State κ) (client_socket : Int) (rs : List ReadOutcome)
    (next : State κ → Nat → List Byte → State κ) : Option (State κ) :=
  (s.net.bulkRead client_socket rs s.data dataSize).map fun r =>
    match r with
    | (.error _, data, net) => { s with data := data, net := net }.goto .ended
    | (.ok size, data, net) =>
      next { s with
        data := data
        net := net
        started := s.started || decide (size = dataSize)
        left := if size = dataSize then s.left else s.left ++ (s.net.fds client_socket).toList } size
        ((s.net.fds client_socket).elim [] fun c => (s.net.conn c).inbox.take size)

/-- `bulk_write (fd, data, sizeof (int8_t[4]))`, which may fail with `EPIPE`. -/
def State.bulk_write (s : State κ) (fd : Int) (ws : List WriteOutcome)
    (next : State κ → State κ) : Option (State κ) :=
  (s.net.bulkWrite fd ws s.data dataSize).map fun r =>
    match r.1 with
    | .ok _ | .error .epipe => next { s with net := r.2 }
    | .error _ => { s with net := r.2 }.goto .ended

/-- The loop over `clients`, up to its next `bulk_write`. -/
def State.broadcast (s : State κ) (client_socket : Int) (received : List Byte) (evs : List Int) :
    List Int → State κ
  | [] => s.goto (.events evs)
  | fd :: todo =>
    if fd = 0 ∨ fd = client_socket then s.broadcast client_socket received evs todo
    else s.goto (.broadcast client_socket received (fd :: todo) evs)

/-- What follows `if (recieved)`. -/
def State.process (s : State κ) (client_socket : Int) (received : List Byte) (evs : List Int) :
    State κ :=
  match place s.data with
  | none => s.goto (.events evs)
  | some k =>
    if owner s.data = -1 then s.goto (.events evs)
    else
      let t := { s with assigned := Function.update s.assigned k true }
      if s.cities k = owner s.data then t.goto (.events evs)
      else
        State.broadcast { t.deed .change client_socket client_socket received with
          cities := Function.update s.cities k (owner s.data) } client_socket received evs s.clients

def State.register (s : State κ) (client_socket : Int) (received : List Byte) (evs : List Int) :
    State κ :=
  if client_socket < 0 ∨ client_socket ∈ s.epoll then s.goto .ended
  else State.process { s with
    epoll := client_socket :: s.epoll
    clients := s.clients.set s.clients_amount client_socket
    clients_amount := s.clients_amount + 1 } client_socket received evs

/-- An event of a client. -/
def State.message (s : State κ) (fd : Int) (evs : List Int) (rs : List ReadOutcome) :
    Option (State κ) :=
  match atPos s.clients s.clients_amount fd with
  | none => some (s.goto .ended)
  | some pos =>
    let client_socket := s.clients.getD pos 0
    s.bulk_read client_socket rs fun s size received =>
      if size = dataSize then s.goto (.echo client_socket received evs) else s.goto (.events evs)

def State.next (a : Args) (s : State κ) (act : Act κ) : Option (State κ) :=
  match act, s.pc with
  | .peer p, _ => (s.net.peer p).map fun net => { s with
      net := net
      early := fun c => s.early c ||
        (!s.started && decide (p = .connect a.tcp_listen_socket c)) }
  | .pwait evs, .events [] =>
    if s.net.batch s.epoll MAX_EVENTS evs then some (s.goto (.events evs)) else none
  | .accept o, .events (fd :: evs) => if fd = a.tcp_listen_socket then s.accept fd evs o else none
  | .read rs, .events (fd :: evs) =>
    if fd = a.tcp_listen_socket then none else s.message fd evs rs
  | .read rs, .greet client_socket evs =>
    s.bulk_read client_socket rs fun s _ received => s.goto (.welcome client_socket received evs)
  | .write ws, .welcome client_socket received evs =>
    (s.deed .echo client_socket client_socket received).bulk_write client_socket ws fun s =>
      s.register client_socket received evs
  | .write ws, .echo client_socket received evs =>
    (s.deed .echo client_socket client_socket received).bulk_write client_socket ws fun s =>
      s.process client_socket received evs
  | .write ws, .broadcast client_socket received (fd :: todo) evs =>
    (s.deed .broadcast client_socket fd received).bulk_write fd ws fun s =>
      s.broadcast client_socket received evs todo
  | _, _ => none

/-- `doServer` at its first `epoll_pwait`, whatever is in `data`, `cities` and `clients`. -/
structure Start (a : Args) (s : State κ) : Prop where
  pc : s.pc = .events []
  data : s.data.length = dataSize
  clients : s.clients.length = MAX_CLIENTS
  clients_amount : s.clients_amount = 0
  epoll : s.epoll = [a.tcp_listen_socket, a.local_listen_socket]
  net : s.net.Start
  listens : ∀ l ∈ s.epoll, s.net.other l = true
  started : s.started = false
  early : ∀ c, s.early c = false
  left : s.left = []
  assigned : ∀ k, s.assigned k = false
  deeds : s.deeds = []

def server (κ : Type) [DecidableEq κ] (a : Args) : LTS (State κ) (Act κ) where
  Init := Start a
  next := State.next a

def sockets : Args := ⟨3, 4⟩

def State.idle (κ : Type) : State κ where
  pc := .events []
  data := [0, 0, 0, 0]
  cities _ := -1
  clients := [0, 0, 0, 0]
  clients_amount := 0
  epoll := [4, 3]
  net := Net.idle κ
  started := false
  early _ := false
  left := []
  assigned _ := false
  deeds := []

omit [DecidableEq κ] in
theorem idle_start : Start sockets (State.idle κ) :=
  ⟨rfl, rfl, rfl, rfl, rfl, Net.idle_start, by simp [State.idle, Net.idle], rfl, fun _ => rfl, rfl,
    fun _ => rfl, rfl⟩

end Ops.Cities
