import Mathlib.Logic.Function.Basic
import Ops.Lib.Transition

/-!
# A hundred signals (`Lab - 2/Example Task Lab 2/Task.c`)

`main` with `n` children from the first fork on. A signal is pending once however often it is sent.
The default action of `SIGUSR1` and `SIGUSR2` ends a process that has not blocked them: the parent
in `create_children` and before its first `sigprocmask` (`Act.deliver`), a child before its own
(`Act.deliverChild`). Somebody else can send `SIGUSR2` to the parent (`Act.usr2`). When the parent
is gone, the `kill` of a child goes elsewhere; if it fails, `ERR` ends the whole group, and so does
the `ERR` of a `fork` that fails.
-/

namespace Ops.SigCount

inductive Signal where
  | SIGUSR1
  | SIGUSR2
  deriving DecidableEq, Repr

/-- The next step of a child, in round `i` of the inner loop. -/
inductive ChildPc where
  | unborn
  | sigprocmask
  | loop
  | nanosleep (i : Nat)
  | sigpending (i : Nat)
  | kill (i : Nat)
  | ended
  | reaped
  deriving DecidableEq, Repr

/-- `fork k` has `k` children still to create. -/
inductive ParentPc where
  | fork (k : Nat)
  | sigprocmask
  | sigwait
  | kill
  | wait
  | returned
  | killed
  deriving DecidableEq, Repr

structure State where
  /-- Pending for the parent, and whether it has blocked them. -/
  usr1 : Bool
  usr2 : Bool
  masked : Bool
  sigCount : Nat
  /-- Not in the program: `sigwait` has returned `SIGUSR2`. -/
  received2 : Bool
  parent : ParentPc
  child : Nat → ChildPc
  /-- `SIGUSR2`, pending for a child. -/
  pending : Nat → Bool

/-- `sig` is what `sigwait` takes, `c` the child that `wait` finds, and `err` is set when the `kill`
of a child fails that has lost its parent. -/
inductive Act where
  | parent (sig : Signal) (c : Nat)
  | child (i : Nat) (err : Bool)
  | forkFails
  | deliver
  | deliverChild (i : Nat)
  | usr2
  deriving DecidableEq, Repr

def State.setChild (s : State) (i : Nat) (c : ChildPc) : State :=
  { s with child := Function.update s.child i c }

def ParentPc.gone : ParentPc → Bool
  | returned | killed => true
  | _ => false

/-- `SIGKILL` -/
def ChildPc.die : ChildPc → ChildPc
  | unborn => unborn
  | reaped => reaped
  | _ => ended

def State.child_work (s : State) (i : Nat) (err : Bool) : Option State :=
  match s.child i with
  | .unborn => none
  | .sigprocmask => some (s.setChild i .loop)
  | .loop => some (s.setChild i (.nanosleep 0))
  | .nanosleep k => some (s.setChild i (if k < 30 then .sigpending k else .loop))
  | .sigpending k => some (s.setChild i (if s.pending i then .ended else .kill k))
  | .kill k =>
    if s.parent.gone then
      if err then some { s with child := fun j => (s.child j).die }
      else some (s.setChild i (.nanosleep (k + 1)))
    else some ({ s with usr1 := true }.setChild i (.nanosleep (k + 1)))
  | .ended | .reaped => none

/-- The `sigwait` and what follows it in the loop of `parent_work`. -/
def State.received (s : State) : Signal → Option State
  | .SIGUSR1 =>
    if s.usr1 then
      some { s with
        usr1 := false, sigCount := s.sigCount + 1,
        parent := if s.sigCount + 1 = 100 then .kill else .sigprocmask }
    else none
  | .SIGUSR2 =>
    if s.usr2 then some { s with usr2 := false, received2 := true, parent := .wait } else none

/-- The loop over `wait` ends when no child is left. -/
def State.reap (n : Nat) (s : State) (c : Nat) : Option State :=
  if (List.range n).all fun i => s.child i = .reaped then some { s with parent := .returned }
  else if c < n ∧ s.child c = .ended then some (s.setChild c .reaped) else none

def State.parentMain (n : Nat) (s : State) (sig : Signal) (c : Nat) : Option State :=
  match s.parent with
  | .fork 0 => some { s with parent := .sigprocmask }
  | .fork (k + 1) => some ({ s with parent := .fork k }.setChild k .sigprocmask)
  | .sigprocmask => some { s with masked := true, parent := .sigwait }
  | .sigwait => s.received sig
  | .kill => some { s with usr2 := true, pending := fun _ => true, parent := .wait }
  | .wait => s.reap n c
  | .returned | .killed => none

/-- `ERR ("Fork:")` -/
def State.forkFails (s : State) : Option State :=
  match s.parent with
  | .fork (_ + 1) => some { s with parent := .killed, child := fun j => (s.child j).die }
  | _ => none

def State.next (n : Nat) (s : State) : Act → Option State
  | .parent sig c => s.parentMain n sig c
  | .child i err => s.child_work i err
  | .forkFails => s.forkFails
  | .deliver =>
    if ¬ s.masked ∧ ¬ s.parent.gone ∧ (s.usr1 ∨ s.usr2) then some { s with parent := .killed }
    else none
  | .deliverChild i =>
    if s.child i = .sigprocmask ∧ s.pending i then some (s.setChild i .ended) else none
  | .usr2 => some { s with usr2 := true }

def State.start (n : Nat) : State where
  usr1 := false
  usr2 := false
  masked := false
  sigCount := 0
  received2 := false
  parent := .fork n
  child _ := .unborn
  pending _ := false

def program (n : Nat) : LTS State Act where
  Init s := s = .start n
  next := State.next n

end Ops.SigCount
