import Mathlib.Logic.Function.Basic
import Ops.Posix.Bulk

/-!
# Stream sockets at a server

`Net` is what the clients and the kernel hold: the connections, the queue of each listening
socket and the descriptors. A connection has a name; the descriptor it is accepted on is any
that is not open. `Peer` lists what the clients do, at any time. A call fails only on a
connection that was reset, a `write` also with `EPIPE` on one that the client has closed.

`got` and `out` of a connection are the bytes that the server has read and written.
-/

namespace Ops.Posix

/-- A connection: what the server has read, what it can read, whether that is all, whether
the connection was reset, and what the server has written. -/
structure Conn where
  opened : Bool
  got : List Byte
  inbox : List Byte
  eof : Bool
  reset : Bool
  out : List Byte
  deriving DecidableEq, Repr

/-- `fds` are the descriptors of connections, `other` those that are open for something else. -/
structure Net (κ : Type) where
  conn : κ → Conn
  backlog : Int → List κ
  fds : Int → Option κ
  other : Int → Bool

/-- What a client does; `l` is a listening socket. `abort` is the case that accept(2) documents: a
connection that was reported is removed by a network error before `accept`. Linux keeps it in the
queue and accepts it. -/
inductive Peer (κ : Type) where
  | connect (l : Int) (c : κ)
  | send (c : κ) (bytes : List Byte)
  | close (c : κ)
  | reset (c : κ)
  | abort (l : Int) (c : κ)
  deriving DecidableEq, Repr

inductive AcceptOutcome where
  | conn (fd : Int)
  | eagain
  | error
  deriving DecidableEq, Repr

def ReadOutcome.fails : ReadOutcome → Bool
  | .error _ => true
  | .eintr | .data _ => false

def WriteOutcome.fails : WriteOutcome → Bool
  | .error _ => true
  | .eintr | .wrote _ => false

namespace Conn

/-- Nobody has connected. -/
def unused : Conn := ⟨false, [], [], false, false, []⟩

def sent (k : Conn) : List Byte := k.got ++ k.inbox

def stream (k : Conn) : Stream := ⟨k.inbox, k.eof⟩

/-- The client has not left. -/
def connected (k : Conn) : Bool := k.opened && !k.eof && !k.reset

/-- `rest` is left of what the server can read. -/
def take (k : Conn) (rest : List Byte) : Conn :=
  { k with got := k.got ++ k.inbox.take (k.inbox.length - rest.length), inbox := rest }

def reads (k : Conn) (rs : List ReadOutcome) : Bool :=
  rs.all fun
    | .error e => k.reset && e = .other
    | _ => true

def writes (k : Conn) (ws : List WriteOutcome) : Bool :=
  ws.all fun
    | .error .epipe => k.eof || k.reset
    | .error .other => k.reset
    | .error .eagain => false
    | _ => true

end Conn

namespace Net

variable {κ : Type} [DecidableEq κ]

def isOpen (n : Net κ) (fd : Int) : Bool := (n.fds fd).isSome || n.other fd

def setConn (n : Net κ) (c : κ) (k : Conn) : Net κ :=
  { n with conn := Function.update n.conn c k }

/-! ## Clients -/

def peer (n : Net κ) : Peer κ → Option (Net κ)
  | .connect l c =>
    if (n.conn c).opened then none
    else some { n.setConn c { n.conn c with opened := true } with
      backlog := Function.update n.backlog l (n.backlog l ++ [c]) }
  | .send c bytes =>
    if (n.conn c).connected then
      some (n.setConn c { n.conn c with inbox := (n.conn c).inbox ++ bytes })
    else none
  | .close c =>
    if (n.conn c).opened then some (n.setConn c { n.conn c with eof := true }) else none
  | .reset c =>
    if (n.conn c).opened then
      some (n.setConn c { n.conn c with eof := true, reset := true })
    else none
  | .abort l c =>
    if c ∈ n.backlog l then
      some { n with backlog := Function.update n.backlog l ((n.backlog l).erase c) }
    else none

/-! ## Calls -/

/-- `add_new_client`: `some (-1)` after `EAGAIN`, `none` when it calls `ERR`. -/
def addNewClient (n : Net κ) (l : Int) (o : AcceptOutcome) : Option (Option Int × Net κ) :=
  match o, n.backlog l with
  | .conn fd, c :: rest =>
    if 0 ≤ fd ∧ n.isOpen fd = false then
      some (some fd, { n with
        backlog := Function.update n.backlog l rest
        fds := Function.update n.fds fd (some c) })
    else none
  | .eagain, [] => some (some (-1), n)
  | .error, c :: rest =>
    if (n.conn c).reset then
      some (none, { n with backlog := Function.update n.backlog l rest })
    else none
  | _, _ => none

/-- The server has read from `c` until `rest` was left. -/
def took (n : Net κ) (c : κ) (rest : List Byte) : Net κ := n.setConn c ((n.conn c).take rest)

/-- The server has written to `c`. -/
def wrote (n : Net κ) (c : κ) (bytes : List Byte) : Net κ :=
  n.setConn c { n.conn c with out := (n.conn c).out ++ bytes }

/-- `bulk_read (fd, buf, count)` fails with `EBADF` where there is no connection. -/
def bulkRead (n : Net κ) (fd : Int) (rs : List ReadOutcome) (buf : List Byte) (count : Nat) :
    Option (Except Errno Nat × List Byte × Net κ) :=
  match n.fds fd with
  | none => some (.error .other, buf, n)
  | some c =>
    if (n.conn c).reads rs then
      (Posix.bulkRead rs (n.conn c).stream buf 0 0 count).map fun r =>
        (r.ret, r.buf, n.took c r.rest)
    else none

/-- `bulk_write (fd, buf, count)`; what is not a connection may take the bytes or not. -/
def bulkWrite (n : Net κ) (fd : Int) (ws : List WriteOutcome) (buf : List Byte) (count : Nat) :
    Option (Except Errno Nat × Net κ) :=
  match n.fds fd with
  | none =>
    if n.other fd then (Posix.bulkWrite ws buf 0 count []).map fun r => (r.1, n)
    else some (.error .other, n)
  | some c =>
    if (n.conn c).writes ws then
      (Posix.bulkWrite ws buf 0 count []).map fun r => (r.1, n.wrote c r.2)
    else none

/-- `read (fd, buf, count)` of a socket that blocks hands over what has arrived. -/
def read (n : Net κ) (fd : Int) (count : Nat) (fails : Bool) :
    Option (Except Errno (List Byte) × Net κ) :=
  match n.fds fd with
  | none => if fails then some (.error .other, n) else none
  | some c =>
    if fails then if (n.conn c).reset then some (.error .other, n) else none
    else
      let bytes := (n.conn c).inbox.take count
      if bytes = [] then if (n.conn c).eof ∨ count = 0 then some (.ok [], n) else none
      else some (.ok bytes, n.took c ((n.conn c).inbox.drop count))

/-- `write (fd, bytes, n)` to a socket that blocks takes all, or fails. -/
def write (n : Net κ) (fd : Int) (bytes : List Byte) (error : Option Errno) :
    Option (Option Errno × Net κ) :=
  match n.fds fd, error with
  | none, none => none
  | none, some _ => some (some .other, n)
  | some c, none => some (none, n.wrote c bytes)
  | some c, some e => if (n.conn c).writes [.error e] then some (some e, n) else none

def close (n : Net κ) (fd : Int) : Net κ := { n with fds := Function.update n.fds fd none }

/-! ## `epoll` -/

/-- Whether `EPOLLIN` can be reported. -/
def ready (n : Net κ) (fd : Int) : Bool :=
  match n.fds fd with
  | some c => !(n.conn c).inbox.isEmpty || (n.conn c).eof || (n.conn c).reset
  | none => !(n.backlog fd).isEmpty

/-- What a call of `epoll_wait` with room for `max` events can report of the descriptors `epoll`. -/
def batch (n : Net κ) (epoll : List Int) (max : Nat) (evs : List Int) : Bool :=
  evs ≠ [] && evs.length ≤ max && decide evs.Nodup &&
    evs.all fun fd => decide (fd ∈ epoll) && n.ready fd

omit [DecidableEq κ] in
theorem batch_iff {n : Net κ} {epoll evs : List Int} {max : Nat} :
    n.batch epoll max evs = true ↔
      evs ≠ [] ∧ evs.length ≤ max ∧ evs.Nodup ∧ ∀ fd ∈ evs, fd ∈ epoll ∧ n.ready fd = true := by
  simp [batch, and_assoc]

/-- Before the first connection; the descriptor 0 is in use. -/
structure Start (n : Net κ) : Prop where
  conn : ∀ c, n.conn c = .unused
  backlog : ∀ l, n.backlog l = []
  fds : ∀ fd, n.fds fd = none
  other : ∀ fd, n.other fd = true → 0 ≤ fd
  zero : n.other 0 = true

/-- Nobody has connected; 0 to 4 are open. -/
def idle (κ : Type) : Net κ where
  conn _ := .unused
  backlog _ := []
  fds _ := none
  other fd := decide (0 ≤ fd ∧ fd ≤ 4)

omit [DecidableEq κ] in
theorem idle_start : (idle κ).Start := by
  refine ⟨fun _ => rfl, fun _ => rfl, fun _ => rfl, fun fd h => ?_, rfl⟩
  exact (of_decide_eq_true h).1

end Net

end Ops.Posix
