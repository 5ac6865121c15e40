import Ops.Lib.Transition
import Ops.Posix.Edge

/-!
# The addressed echo server (`l4a.c`)

The loop of `main` and `add_new_client`, with one step for each call that waits. A client's
first byte is its address. All sockets block, so `accept` and `read` wait when there is nothing.

There is no handler of `SIGPIPE`: a `write` to a client that has left may kill the server.
-/

namespace Ops.Echo

open Posix

variable {κ : Type} [DecidableEq κ]

def MAX_CLIENTS : Nat := 8

instance : @NeZero Nat Zero.ofOfNat0 MAX_CLIENTS := ⟨Nat.succ_ne_zero 7⟩

def MAX_EVENTS : Nat := 10

/-- `sizeof (buffer)` -/
def bufferSize : Nat := 1024

/-- `"Wrong address"` -/
def msg : List Byte :=
  ['W', 'r', 'o', 'n', 'g', ' ', 'a', 'd', 'd', 'r', 'e', 's', 's'].map fun ch => .ofNat ch.toNat

inductive Stop where
  | exited
  | sigpipe
  deriving DecidableEq, Repr

inductive Pc where
  | events (evs : List Int)
  | address (nfd : Int) (evs : List Int)
  | refuse (nfd : Int) (evs : List Int)
  | welcome (nfd : Int) (send_address : Byte) (evs : List Int)
  | echo (fd : Int) (bytes : List Byte) (evs : List Int)
  | ended (why : Stop)
  deriving DecidableEq, Repr

structure State (κ : Type) where
  pc : Pc
  clients : Fin MAX_CLIENTS → Int
  epoll : Epoll
  net : Net κ

inductive Act (κ : Type) where
  | peer (p : Peer κ)
  | wait (evs : List Int)
  | accept (o : AcceptOutcome)
  | address (rs : List ReadOutcome)
  | write (ws : List WriteOutcome)
  | read (fails : Bool)
  | echo (error : Option Errno)

/-- The `bulk_read` of this program, which also stops behind a `$`. -/
def bulk_read : List ReadOutcome → Stream → List Byte → Nat → Nat → Nat → Option ReadResult
  | [], _, _, _, _, _ => none
  | .eintr :: rs, s, buf, pos, len, count => bulk_read rs s buf pos len count
  | .error e :: _, s, buf, _, _, _ => some ⟨.error e, buf, s.bytes⟩
  | .data n :: rs, s, buf, pos, len, count =>
    let got := s.bytes.take (min (n + 1) count)
    if got = [] then if s.eof ∨ count = 0 then some ⟨.ok len, buf, s.bytes⟩ else none
    else
      let c := got.length
      if count - c > 0 ∧ got.getLast? ≠ some 36 then
        bulk_read rs ⟨s.bytes.drop c, s.eof⟩ (blit buf pos got) (pos + c) (len + c) (count - c)
      else some ⟨.ok (len + c), blit buf pos got, s.bytes.drop c⟩

theorem bulk_read_one (rs : List ReadOutcome) (s : Stream) (buf : List Byte) (pos len : Nat) :
    bulk_read rs s buf pos len 1 = bulkRead rs s buf pos len 1 := by
  induction rs with
  | nil => rfl
  | cons r rs ih =>
    cases r with
    | eintr => exact ih
    | error e => rfl
    | data n =>
      simp only [bulk_read, bulkRead]
      split
      · rfl
      · rename_i hgot
        have hlen : 0 < (s.bytes.take (min (n + 1) 1)).length := List.length_pos_iff.mpr hgot
        rw [if_neg (by omega), if_neg (by omega)]

/-- `address -= '0'`, where `char` is signed. -/
def address (b : Byte) : Int := (b - 48).toBitVec.toInt

/-- The entry of `clients` for an address. -/
def slot (b : Byte) : Option (Fin MAX_CLIENTS) :=
  if h : 1 ≤ address b ∧ address b ≤ MAX_CLIENTS then
    some ⟨(address b - 1).toNat, by have hpos := h.1; have hle := h.2; omega⟩
  else none

def State.goto (s : State κ) (pc : Pc) : State κ := { s with pc := pc }

def State.accept (s : State κ) (sfd : Int) (evs : List Int) (o : AcceptOutcome) :
    Option (State κ) :=
  if o = .eagain then none
  else (s.net.addNewClient sfd o).map fun r =>
    match r with
    | (none, net) => { s with net := net }.goto (.ended .exited)
    | (some nfd, net) => { s with net := net }.goto (.address nfd evs)

/-- The test of the address. -/
def State.assign (s : State κ) (nfd : Int) (evs : List Int) (b : Byte) : State κ :=
  match slot b with
  | none => s.goto (.refuse nfd evs)
  | some k =>
    if s.clients k ≠ 0 then s.goto (.refuse nfd evs)
    else { s with clients := Function.update s.clients k nfd }.goto (.welcome nfd b evs)

/-- `bulk_read (nfd, &address, 1)` -/
def State.introduce (s : State κ) (nfd : Int) (evs : List Int) (rs : List ReadOutcome) :
    Option (State κ) :=
  match s.net.fds nfd with
  | none => some (s.goto (.ended .exited))
  | some c =>
    if (s.net.conn c).reads rs then
      (bulk_read rs (s.net.conn c).stream [0] 0 0 1).map fun r =>
        match r.ret, r.buf with
        | .ok 1, b :: _ => State.assign { s with net := s.net.took c r.rest } nfd evs b
        | _, _ => { s with net := s.net.took c r.rest }.goto (.ended .exited)
    else none

/-- `main` goes on with what `add_new_client` has returned. -/
def State.add (s : State κ) (cfd : Int) (evs : List Int) : State κ :=
  match s.epoll.add s.net cfd with
  | none => s.goto (.ended .exited)
  | some epoll => { s with epoll := epoll }.goto (.events evs)

/-- `bulk_write` of `buf` in `add_new_client`, whose result nobody looks at. -/
def State.bulk_write (s : State κ) (nfd : Int) (buf : List Byte) (ws : List WriteOutcome)
    (next : State κ → State κ) : Option (State κ) :=
  (s.net.bulkWrite nfd ws buf buf.length).map fun r =>
    match r.1 with
    | .error .epipe => { s with net := r.2 }.goto (.ended .sigpipe)
    | _ => next { s with net := r.2 }

/-- `read (fd, buffer, sizeof (buffer) - 1)` -/
def State.read (s : State κ) (fd : Int) (evs : List Int) (fails : Bool) : Option (State κ) :=
  (s.net.read fd (bufferSize - 1) fails).map fun r =>
    match r.1 with
    | .error _ | .ok [] => { s with net := r.2 }.goto (.events evs)
    | .ok bytes => { s with net := r.2 }.goto (.echo fd bytes evs)

/-- `write (fd, buffer, n)`, whose result nobody looks at. -/
def State.echo (s : State κ) (fd : Int) (bytes : List Byte) (evs : List Int) (error : Option Errno) :
    Option (State κ) :=
  (s.net.write fd bytes error).map fun r =>
    { s with net := r.2 }.goto (if r.1 = some Errno.epipe then .ended .sigpipe else .events evs)

def State.next (sfd : Int) (s : State κ) (act : Act κ) : Option (State κ) :=
  match act, s.pc with
  | .peer p, _ => (s.net.peer p).map fun net =>
    { s with net := net, epoll := s.epoll.arrive s.net p }
  | .wait evs, .events [] => (s.epoll.wait s.net MAX_EVENTS evs).map fun epoll =>
    { s with epoll := epoll }.goto (.events evs)
  | .accept o, .events (fd :: evs) => if fd = sfd then s.accept sfd evs o else none
  | .address rs, .address nfd evs => s.introduce nfd evs rs
  | .write ws, .refuse nfd evs => s.bulk_write nfd msg ws fun s =>
    State.add { s with net := s.net.close nfd } (-1) evs
  | .write ws, .welcome nfd b evs => s.bulk_write nfd [b] ws fun s => s.add nfd evs
  | .read fails, .events (fd :: evs) => if fd = sfd then none else s.read fd evs fails
  | .echo error, .echo fd bytes evs => s.echo fd bytes evs error
  | _, _ => none

/-- `main` at its first `epoll_wait`. -/
structure Start (sfd : Int) (s : State κ) : Prop where
  pc : s.pc = .events []
  clients : ∀ k, s.clients k = 0
  watched : s.epoll.watched = [sfd]
  net : s.net.Start
  listens : s.net.other sfd = true

def server (κ : Type) [DecidableEq κ] (sfd : Int) : LTS (State κ) (Act κ) where
  Init := Start sfd
  next := State.next sfd

/-! ## Clients that join -/

/-- The listening socket is 3. -/
def State.idle (κ : Type) : State κ where
  pc := .events []
  clients _ := 0
  epoll := ⟨[3], fun _ => false⟩
  net := Net.idle κ

omit [DecidableEq κ] in
theorem idle_start : Start 3 (State.idle κ) :=
  ⟨rfl, fun _ => rfl, rfl, Net.idle_start, rfl⟩

/-- A client introduces itself with `b` and is accepted on descriptor `fd`. -/
def joins (c : Bool) (b : Byte) (fd : Int) : List (Act Bool) :=
  [.peer (.connect 3 c), .peer (.send c [b]), .wait [3], .accept (.conn fd), .address [.data 0],
    .write [.wrote 12]]

end Ops.Echo
