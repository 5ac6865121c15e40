import Mathlib.Logic.Function.Basic
import Ops.Lib.Transition

/-!
# The card game (`Example/task.c`)

The parent and the children as steps, one for each read and write of the segment, which
is filled with zeros and holds the indexes `0` to `N`. A read in a `while` loop that is
to be repeated leaves the state as it is.

`round` is the round that the parent has started last. `writes r` and `prints r` keep
the slots that were written and the numbers that were printed in round `r`, in order.
-/

namespace Ops.Cards

/-- The turn word tells the parent that a round has ended. -/
def roundOver : Nat := 999

/-- The next access of a child, in iteration `i` of its loop. -/
inductive ChildPc where
  | wait (i : Nat)
  | write (i : Nat)
  | notify (i : Nat)
  | finish (i : Nat)
  | exit
  deriving DecidableEq

inductive ParentPc where
  | start (round : Nat)
  | wait (round i : Nat)
  | print (round i : Nat)
  | done
  deriving DecidableEq

structure Game where
  shm : Nat → Nat
  child : Nat → ChildPc
  parent : ParentPc
  round : Nat
  writes : Nat → List (Nat × Nat)
  prints : Nat → List (Nat × Nat)

/-- A step of the child at a position, with the value of `rand`, or of the parent. -/
inductive Act where
  | child (position rand : Nat)
  | parent
  deriving DecidableEq, Repr

def number (M rand : Nat) : Nat := rand % M + 1

def childLoop (M i : Nat) : ChildPc := if i < M then .wait i else .exit

/-- The heads of the parent's loops over the rounds and over the children. -/
def roundLoop (M round : Nat) : ParentPc := if round ≤ M then .start round else .done

def printLoop (N M round i : Nat) : ParentPc :=
  if i ≤ N then .wait round i else roundLoop M (round + 1)

def Game.goto (g : Game) (position : Nat) (pc : ChildPc) : Game :=
  { g with child := Function.update g.child position pc }

def Game.store (g : Game) (index value : Nat) : Game :=
  { g with shm := Function.update g.shm index value }

/-- An entry in the record of the current round. -/
def note (log : Nat → List (Nat × Nat)) (round : Nat) (entry : Nat × Nat) :
    Nat → List (Nat × Nat) :=
  Function.update log round (log round ++ [entry])

def Game.writeSlot (g : Game) (position value : Nat) : Game :=
  { g.store position value with writes := note g.writes g.round (position, value) }

def Game.childwork (N M : Nat) (g : Game) (position rand : Nat) : Option Game :=
  match g.child position with
  | .wait i => some (if g.shm 0 = position then g.goto position (.write i) else g)
  | .write i =>
    some ((g.writeSlot position (number M rand)).goto position (.notify i))
  | .notify i =>
    some ((g.store 0 (position + 1)).goto position
      (if position = N then .finish i else childLoop M (i + 1)))
  | .finish i => some ((g.store 0 roundOver).goto position (childLoop M (i + 1)))
  | .exit => none

def Game.parentWork (N M : Nat) (g : Game) : Option Game :=
  match g.parent with
  | .start round => some { g.store 0 1 with parent := printLoop N M round 1, round := round }
  | .wait round i => some (if g.shm 0 = roundOver then { g with parent := .print round i } else g)
  | .print round i =>
    some { g with
      parent := printLoop N M round (i + 1)
      prints := note g.prints round (i, g.shm i) }
  | .done => none

def Game.next (N M : Nat) (g : Game) : Act → Option Game
  | .child position rand =>
    if 1 ≤ position ∧ position ≤ N then g.childwork N M position rand else none
  | .parent => g.parentWork N M

/-- The children are forked, and the segment is all zeros. -/
def dealt (M : Nat) : Game where
  shm _ := 0
  child _ := childLoop M 0
  parent := roundLoop M 1
  round := 0
  writes _ := []
  prints _ := []

def games (N M : Nat) : LTS Game Act where
  Init g := g = dealt M
  next := Game.next N M

end Ops.Cards
