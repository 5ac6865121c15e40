import Ops.Chat.Auth
import Ops.Lib.Transition

/-!
# The chat server (`sop-chat (1).c`) and its clients

`do_server` as a state machine: `events evs` is the loop over what is left of a
batch (the wait in `epoll_pwait` when nothing is left), `greet` the `bulk_read`
of a connection just accepted and what is decided from it, `refused` the `close`
of one that is turned away, and `echo` and `forward` are the two places where it
writes. Each connection has an identity; the descriptor it is accepted on is any
that is not open. A call that blocks is a step not taken; a `write` blocks while
the send buffer has no room for a whole message. A call fails only on a
connection that was reset, a `read` also with `EAGAIN`; a failed write with
`EPIPE` ends the process by `SIGPIPE`. What it prints is left out.

`hist` and `sent` and `out` of a connection are for the theorems: who joined,
left and said what, and the bytes that went in and out.
-/

namespace Ops.Chat

open Ops.Posix

variable {κ : Type} [DecidableEq κ]

/-- One connection: what its client has sent and the server not yet read, whether
that is all, whether it was reset, what the server has written, and how many bytes
its send buffer has room for. -/
structure Conn where
  opened : Bool
  sent : List Byte
  inbox : List Byte
  eof : Bool
  reset : Bool
  out : List Byte
  room : Nat
  deriving DecidableEq

inductive Stop where
  | interrupted
  | exited
  | sigpipe
  deriving DecidableEq, Repr

/-- A descriptor of a batch, and whether `EPOLLIN` is set. -/
abbrev Event : Type := Nat × Bool

inductive Pc where
  | events (evs : List Event)
  | greet (fd : Nat) (evs : List Event)
  | refused (fd : Nat) (evs : List Event)
  | echo (fd : Nat) (buf : List Byte) (evs : List Event)
  | forward (fd : Nat) (buf : List Byte) (todo : List (Fin maxClientCount)) (evs : List Event)
  | ended (why : Stop)
  deriving DecidableEq

/-- What has happened in the chat. -/
inductive Happening (κ : Type) where
  | join (c : κ) (buf : List Byte)
  | leave (c : κ)
  | say (c : κ) (buf : List Byte)
  deriving DecidableEq

/-- `do_server`'s variables, the descriptors it has open for connections, and the
connections; `hist` is newest first. -/
structure State (κ : Type) where
  pc : Pc
  clients : Clients
  epoll : List Nat
  fds : Nat → Option κ
  conn : κ → Conn
  backlog : List κ
  hist : List (Happening κ)

/-- `do_server`'s arguments, and the size of a send buffer. -/
structure Args where
  serverFd : Nat
  key : CString
  sndbuf : Nat

inductive Act (κ : Type) where
  | connect (c : κ)
  | send (c : κ) (bytes : List Byte)
  | recv (c : κ) (n : Nat)
  | close (c : κ)
  | reset (c : κ)
  | pwait (evs : List Event)
  | interrupt (sigint : Bool)
  | skip
  | accept (fd : Nat)
  | authorize (stack : List Byte) (rs : List ReadOutcome)
  | refuse
  | echo (ws : List WriteOutcome)
  | read (stack : List Byte) (rs : List ReadOutcome)
  | forward (ws : List WriteOutcome)

/-! ## The connections -/

def Conn.stream (k : Conn) : Stream := ⟨k.inbox, k.eof⟩

def Conn.reads (k : Conn) (rs : List ReadOutcome) : Bool :=
  rs.all fun
    | .error e => e = .eagain || k.reset
    | _ => true

def Conn.writes (k : Conn) (ws : List WriteOutcome) : Bool :=
  (k.reset || buffSize ≤ k.room) && ws.all fun
    | .error _ => k.reset
    | _ => true

def State.setConn (s : State κ) (c : κ) (k : Conn) : State κ :=
  { s with conn := Function.update s.conn c k }

/-- The server has read from `c`. -/
def State.took (s : State κ) (c : κ) (rest : List Byte) : State κ :=
  s.setConn c { s.conn c with inbox := rest }

/-- The server has written to `c`. -/
def State.wrote (s : State κ) (c : κ) (bytes : List Byte) : State κ :=
  s.setConn c { s.conn c with
    out := (s.conn c).out ++ bytes, room := (s.conn c).room - bytes.length }

/-- Whether `epoll_pwait` can report `EPOLLIN` for `fd`. -/
def State.ready (s : State κ) (a : Args) (fd : Nat) : Bool :=
  if fd = a.serverFd then !s.backlog.isEmpty
  else match s.fds fd with
    | some c => !(s.conn c).inbox.isEmpty || (s.conn c).eof || (s.conn c).reset
    | none => false

/-! ## The server's steps -/

/-- A `write` error at `bulk_write`: `SIGPIPE` comes before `ERR`. -/
def Stop.ofErrno : Errno → Stop
  | .epipe => .sigpipe
  | _ => .exited

/-- `add_new_client`: the connection at the head of the backlog is accepted on `fd`. -/
def State.accept (s : State κ) (a : Args) (evs : List Event) (fd : Nat) : Option (State κ) :=
  match s.backlog with
  | [] => none
  | c :: backlog =>
    if s.fds fd = none ∧ fd ≠ a.serverFd then
      some { s with
        pc := .greet fd evs
        fds := Function.update s.fds fd (some c)
        backlog := backlog }
    else none

/-- `add_authorized_user` from its `bulk_read` up to its echo, or the `close` it makes instead. -/
def State.authorize (s : State κ) (a : Args) (fd : Nat) (evs : List Event) (stack : List Byte)
    (rs : List ReadOutcome) : Option (State κ) :=
  match s.fds fd with
  | none => some { s with pc := .ended .exited }
  | some c =>
    if stack.length = buffSize ∧ (s.conn c).reads rs then
      match bulkRead rs (s.conn c).stream stack 0 0 buffSize with
      | none => none
      | some ⟨.error _, _, _⟩ => some { s with pc := .ended .exited }
      | some ⟨.ok _, buf, rest⟩ =>
        match addAuthorizedUser a.key s.clients fd buf with
        | none => some { s.took c rest with pc := .refused fd evs }
        | some clients =>
          some { s.took c rest with
            pc := .echo fd buf evs
            clients := clients
            hist := .join c buf :: s.hist }
    else none

/-- `close(client_fd)` where the key is wrong or the table is full. -/
def State.refuse (s : State κ) (fd : Nat) (evs : List Event) : State κ :=
  { s with pc := .events evs, fds := Function.update s.fds fd none }

/-- The echo of the greeting, and `epoll_ctl` for the new client. -/
def State.echo (s : State κ) (fd : Nat) (buf : List Byte) (evs : List Event)
    (ws : List WriteOutcome) : Option (State κ) :=
  match s.fds fd with
  | none => some { s with pc := .ended .exited }
  | some c =>
    if (s.conn c).writes ws then
      match bulkWrite ws buf 0 buffSize [] with
      | none => none
      | some (.error e, out) => some { s.wrote c out with pc := .ended (.ofErrno e) }
      | some (.ok _, out) =>
        if fd ∈ s.epoll then some { s.wrote c out with pc := .ended .exited }
        else some { s.wrote c out with pc := .events evs, epoll := fd :: s.epoll }
    else none

def State.slot (s : State κ) (fd : Nat) : Option (Fin maxClientCount) :=
  (List.finRange maxClientCount).find? fun i => (s.clients i).fd = some fd

/-- The branch of `ret == 0`. -/
def State.hangup (s : State κ) (c : κ) (fd : Nat) (evs : List Event) : State κ :=
  if fd ∈ s.epoll then
    let s := { s with pc := .events evs, epoll := s.epoll.erase fd }
    match s.slot fd with
    | none => s
    | some i => { s with
        clients := Function.update s.clients i { s.clients i with fd := none }
        fds := Function.update s.fds fd none
        hist := .leave c :: s.hist }
  else { s with pc := .ended .exited }

/-- An event of a client: `bulk_read` and the three branches on `ret`. -/
def State.read (s : State κ) (fd : Nat) (evs : List Event) (stack : List Byte)
    (rs : List ReadOutcome) : Option (State κ) :=
  match s.fds fd with
  | none => some { s with pc := .ended .exited }
  | some c =>
    if stack.length = buffSize ∧ (s.conn c).reads rs then
      match bulkRead rs (s.conn c).stream stack 0 0 buffSize with
      | none => none
      | some ⟨.ok ret, buf, rest⟩ =>
        if ret > 0 then
          some { s.took c rest with
            pc := .forward fd buf (List.finRange maxClientCount) evs
            hist := .say c buf :: s.hist }
        else some ((s.took c rest).hangup c fd evs)
      | some ⟨.error .eagain, _, rest⟩ => some { s.took c rest with pc := .events evs }
      | some ⟨.error _, _, _⟩ => some { s with pc := .ended .exited }
    else none

/-- One slot of the broadcast loop. -/
def State.forward (s : State κ) (fd : Nat) (buf : List Byte) (i : Fin maxClientCount)
    (todo : List (Fin maxClientCount)) (evs : List Event) (ws : List WriteOutcome) :
    Option (State κ) :=
  match (s.clients i).fd with
  | none => some { s with pc := .forward fd buf todo evs }
  | some t =>
    if t = fd then some { s with pc := .forward fd buf todo evs }
    else match s.fds t with
      | none => some { s with pc := .ended .exited }
      | some c =>
        if (s.conn c).writes ws then
          match bulkWrite ws buf 0 buffSize [] with
          | none => none
          | some (.error e, out) => some { s.wrote c out with pc := .ended (.ofErrno e) }
          | some (.ok _, out) => some { s.wrote c out with pc := .forward fd buf todo evs }
        else none

/-- `epoll_pwait` returns with `EINTR`: after `SIGINT` the clients are closed. -/
def State.interrupt (s : State κ) (sigint : Bool) : State κ :=
  if sigint then
    { s with
      pc := .ended .interrupted
      fds := fun fd => if (s.slot fd).isSome then none else s.fds fd }
  else { s with pc := .ended .exited }

def State.next (a : Args) (s : State κ) (act : Act κ) : Option (State κ) :=
  match act, s.pc with
  | .connect c, _ =>
    if (s.conn c).opened then none
    else some { s.setConn c { s.conn c with opened := true, room := a.sndbuf } with
      backlog := s.backlog ++ [c] }
  | .send c bytes, _ =>
    if (s.conn c).opened ∧ (s.conn c).eof = false then
      some (s.setConn c { s.conn c with
        sent := (s.conn c).sent ++ bytes, inbox := (s.conn c).inbox ++ bytes })
    else none
  | .recv c n, _ =>
    if (s.conn c).opened ∧ (s.conn c).room + n ≤ a.sndbuf then
      some (s.setConn c { s.conn c with room := (s.conn c).room + n })
    else none
  | .close c, _ =>
    if (s.conn c).opened then some (s.setConn c { s.conn c with eof := true }) else none
  | .reset c, _ =>
    if (s.conn c).opened then
      some (s.setConn c { s.conn c with eof := true, reset := true })
    else none
  | .pwait evs, .events [] =>
    if evs ≠ [] ∧ evs.length ≤ maxEvents ∧ (evs.map Prod.fst).Nodup ∧
        ∀ e ∈ evs, e.1 ∈ s.epoll ∧ (e.2 → s.ready a e.1) then
      some { s with pc := .events evs }
    else none
  | .interrupt sigint, .events [] => some (s.interrupt sigint)
  | .skip, .events ((_, false) :: evs) => some { s with pc := .events evs }
  | .accept fd, .events ((e, true) :: evs) =>
    if e = a.serverFd then s.accept a evs fd else none
  | .authorize stack rs, .greet fd evs => s.authorize a fd evs stack rs
  | .refuse, .refused fd evs => some (s.refuse fd evs)
  | .read stack rs, .events ((fd, true) :: evs) =>
    if fd = a.serverFd then none else s.read fd evs stack rs
  | .echo ws, .echo fd buf evs => s.echo fd buf evs ws
  | .forward _, .forward _ _ [] evs => some { s with pc := .events evs }
  | .forward ws, .forward fd buf (i :: todo) evs => s.forward fd buf i todo evs ws
  | _, _ => none

/-- `do_server` at its first `epoll_pwait`, and nobody connected. -/
def State.Start (a : Args) (s : State κ) : Prop :=
  s.pc = .events [] ∧ (∀ i, (s.clients i).fd = none) ∧ s.epoll = [a.serverFd] ∧
    (∀ fd, s.fds fd = none) ∧ (∀ c, s.conn c = ⟨false, [], [], false, false, [], 0⟩) ∧
    s.backlog = [] ∧ s.hist = []

def chat (κ : Type) [DecidableEq κ] (a : Args) : LTS (State κ) (Act κ) where
  Init := State.Start a
  next := State.next a

/-! ## A small chat -/

/-- Descriptor 3 to listen on, the key of one letter, and send buffers of two messages. -/
def lobby : Args := ⟨3, keyA, 1024⟩

def State.idle (κ : Type) : State κ where
  pc := .events []
  clients _ := ⟨none, []⟩
  epoll := [3]
  fds _ := none
  conn _ := ⟨false, [], [], false, false, [], 0⟩
  backlog := []
  hist := []

omit [DecidableEq κ] in
theorem idle_start : (State.idle κ).Start lobby :=
  ⟨rfl, fun _ => rfl, rfl, fun _ => rfl, fun _ => rfl, rfl, rfl⟩

/-- A greeting with the key. -/
def hello : List Byte := List.replicate 64 98 ++ 97 :: List.replicate 447 0

def zeros : List Byte := List.replicate buffSize 0

/-- `c` connects, greets and is let in on descriptor `fd`. -/
def joining (c : κ) (fd : Nat) : List (Act κ) :=
  [.connect c, .send c hello, .pwait [(3, true)], .accept fd,
    .authorize zeros [.data (buffSize - 1)], .echo [.wrote (buffSize - 1)]]

end Ops.Chat
