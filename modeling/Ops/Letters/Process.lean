import Mathlib.Logic.Function.Basic
import Ops.Lib.Bytes
import Ops.Lib.Transition

/-!
# Letters through a shared pipe (`prog22a.c`)

`parent_work` and `child_work`. The parent sends a letter to a child for a `SIGINT`; a
child answers a letter with a message on the pipe `R`. The parent has one step for each
test, `read`, `write` and store, so that a signal can come between any two of them.

A signal that comes while `read (R, &c, 1)` waits ends the call; `interrupted` is the
place between the call and the test of `errno`. `SIGCHLD` can come at any time, and its
handler leaves `ECHILD` in `errno` once all children are gone.

`log`, `sent` and `printed` are for the theorems.
-/

namespace Ops.Letters

def MAX_BUFF : Nat := 200

/-- Of every pipe. -/
def capacity : Nat := 65536

inductive Errno where
  | EINTR
  | ECHILD
  deriving DecidableEq, Repr

/-- What the parent sends. -/
structure Letter where
  byte : Byte
  isLetter : 'a'.toNat ≤ byte.toNat ∧ byte.toNat < 'z'.toNat
  deriving DecidableEq, Repr

/-- `'a' + rand() % ('z' - 'a')` -/
def Letter.rand (r : Nat) : Letter where
  byte := UInt8.ofNat ('a'.toNat + r % ('z'.toNat - 'a'.toNat))
  isLetter := by
    have hlt : r % ('z'.toNat - 'a'.toNat) < 25 := Nat.mod_lt _ (by decide)
    have hbyte : 'a'.toNat + r % ('z'.toNat - 'a'.toNat) < 256 := by
      have ha : 'a'.toNat = 97 := rfl
      omega
    rw [UInt8.toNat_ofNat_of_lt' hbyte]
    exact ⟨Nat.le_add_right _ _, Nat.add_lt_add_left hlt _⟩

/-- The next step of the parent; `i` and `c` are its variables. -/
inductive Pc where
  | test
  | seek (i : Nat)
  | write (i : Nat) (c : Letter)
  | clear
  | header
  | blocked
  | interrupted (errno : Errno)
  | payload (c : Nat)
  | terminate (c : Nat)
  | print
  | done
  | failed
  | undefined
  deriving DecidableEq, Repr

/-- `s` copies of a letter. -/
structure Message where
  letter : Letter
  s : Nat
  pos : 1 ≤ s
  fits : s ≤ MAX_BUFF
  deriving DecidableEq, Repr

namespace Message

def payload (m : Message) : List Byte := List.replicate m.s m.letter.byte

/-- What the child writes to `R`. -/
def bytes (m : Message) : List Byte := UInt8.ofNat m.s :: m.payload

end Message

inductive Child where
  | read
  | compose (c : Letter)
  | write (m : Message)
  | dead
  deriving DecidableEq, Repr

/-- A `SIGINT` of the parent, or a letter that it writes to child `i`. -/
inductive Event where
  | sigint
  | letter (i : Nat) (alive : Bool)
  deriving DecidableEq, Repr

/-- `last_signal` says that the variable is `SIGINT`, `fds i` that `fds[i]` is not 0. -/
structure State where
  parent : Pc
  last_signal : Bool
  fds : Nat → Bool
  buf : List Byte
  R : List Byte
  child : Nat → Child
  letters : Nat → List Letter
  sent : List Message
  printed : List (List Byte)
  log : List Event

/-- `r` is what `rand` returns; `eintr` chooses when a signal comes to a `read` that could
also return. -/
inductive Act where
  | parent (r : Nat)
  | sigint (eintr : Bool)
  | sigchld (eintr : Bool)
  | child (i r : Nat)
  | die (i : Nat)

def State.goto (s : State) (p : Pc) : State := { s with parent := p }

def State.setChild (s : State) (i : Nat) (c : Child) : State :=
  { s with child := Function.update s.child i c }

/-- Nobody can write to `R` any more. -/
def State.allDead (n : Nat) (s : State) : Bool := (List.range n).all fun i => s.child i = .dead

/-- `read (R, &c, 1)`; `wait` is what comes of an empty pipe. -/
def State.readHeader (n : Nat) (s : State) (wait : Option State) : Option State :=
  match s.R with
  | c :: R => some ({ s with R := R }.goto (.payload c.toNat))
  | [] => if s.allDead n then some (s.goto .done) else wait

/-- `read (R, buf, c)`, tried again after a signal. -/
def State.readPayload (n : Nat) (s : State) (c : Nat) : Option State :=
  if s.R = [] ∧ 0 < c ∧ ¬ s.allDead n then none
  else if MAX_BUFF < (s.R.take c).length then some (s.goto .undefined)
  else
    some ({ s with
      R := s.R.drop c
      buf := blit s.buf 0 (s.R.take c) }.goto
        (if (s.R.take c).length < c then .failed else .terminate c))

/-- `write (fds[i], &c, 1)`, and `close` when child `i` is gone. -/
def State.writeLetter (s : State) (i : Nat) (c : Letter) : Option State :=
  if s.child i = .dead then
    some ({ s with
      fds := Function.update s.fds i false
      log := s.log ++ [Event.letter i false] }.goto .clear)
  else if (s.letters i).length < capacity then
    some ({ s with
      letters := Function.update s.letters i (s.letters i ++ [c])
      log := s.log ++ [Event.letter i true] }.goto .clear)
  else none

def State.parent_work (n : Nat) (s : State) (r : Nat) : Option State :=
  match s.parent with
  | .test => some (s.goto (if s.last_signal then .seek (r % n) else .header))
  | .seek i =>
    some (s.goto (if s.fds (i % n) = false ∧ i < 2 * n then .seek (i + 1)
      else if s.fds (i % n) then .write (i % n) (Letter.rand r) else .clear))
  | .write i c => s.writeLetter i c
  | .clear => some ({ s with last_signal := false }.goto .header)
  | .header => s.readHeader n (some (s.goto .blocked))
  | .blocked => s.readHeader n none
  | .interrupted errno => some (s.goto (if errno = .EINTR then .test else .failed))
  | .payload c => s.readPayload n c
  | .terminate c =>
    if c < MAX_BUFF then some ({ s with buf := s.buf.set c 0 }.goto .print)
    else some (s.goto .undefined)
  | .print => some ({ s with printed := s.printed ++ [upToNul s.buf] }.goto .test)
  | .done | .failed | .undefined => none

def State.child_work (s : State) (i r : Nat) : Option State :=
  match s.child i with
  | .read =>
    match s.letters i with
    | [] => none
    | c :: cs => some ({ s with letters := Function.update s.letters i cs }.setChild i (.compose c))
  | .compose c =>
    have hpos : 1 ≤ 1 + r % MAX_BUFF := Nat.le_add_right 1 _
    have hfits : 1 + r % MAX_BUFF ≤ MAX_BUFF := by
      have hlt : r % MAX_BUFF < MAX_BUFF := Nat.mod_lt _ (by decide)
      omega
    some (s.setChild i (.write ⟨c, 1 + r % MAX_BUFF, hpos, hfits⟩))
  | .write m =>
    if s.R.length + m.bytes.length ≤ capacity then
      some ({ s with R := s.R ++ m.bytes, sent := s.sent ++ [m] }.setChild i .read)
    else none
  | .dead => none

/-- A handler has run; a `read` that waits returns. -/
def State.interrupt (n : Nat) (s : State) (eintr : Bool) : State :=
  if s.parent = .blocked ∧ (eintr ∨ s.R = [] ∧ ¬ s.allDead n) then s.goto (.interrupted .EINTR)
  else s

def State.sig_handler (n : Nat) (s : State) (eintr : Bool) : State :=
  { s with last_signal := true, log := s.log ++ [Event.sigint] }.interrupt n eintr

def State.sigchld_handler (n : Nat) (s : State) (eintr : Bool) : State :=
  match s.parent with
  | .interrupted _ => if s.allDead n then s.goto (.interrupted .ECHILD) else s
  | _ => s.interrupt n eintr

def State.sig_killme (s : State) (i : Nat) : Option State :=
  if s.child i = .dead then none else some (s.setChild i .dead)

/-- `ERR` kills all processes. -/
def State.next (n : Nat) (s : State) (act : Act) : Option State :=
  if s.parent = .failed ∨ s.parent = .undefined then none
  else
    match act with
    | .parent r => s.parent_work n r
    | .sigint eintr => some (s.sig_handler n eintr)
    | .sigchld eintr => some (s.sigchld_handler n eintr)
    | .child i r => s.child_work i r
    | .die i => s.sig_killme i

/-- The parent before its loop, whatever is in `buf`. -/
def start (n : Nat) (buf : List Byte) : State where
  parent := .test
  last_signal := false
  fds i := decide (i < n)
  buf := buf
  R := []
  child i := if i < n then .read else .dead
  letters _ := []
  sent := []
  printed := []
  log := []

def letters (n : Nat) : LTS State Act where
  Init s := ∃ buf, buf.length = MAX_BUFF ∧ s = start n buf
  next := State.next n

end Ops.Letters
