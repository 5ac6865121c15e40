import Mathlib.Logic.Function.Basic
import Ops.Lib.Switch
import Ops.Lib.Transition
import Ops.Posix.Fds

/-!
# Creating the players (`Lab - 5/Example Tasks/task90myself.c`)

`create_children_and_pipes` as it stands, run by a process and by everything that the process
forks. Process 0 is the parent, and a `fork` gives the next number. A descriptor is written as
what it is open for: an end of a pipe, the pipes numbered in the order in which they are
made. `fork` does not fail; `pipe` may (`Act.fails`), and a `close` fails on what is not
open. `worked` is for the theorems: the calls of `child_work`.
-/

namespace Ops.Players

open Posix (End Fds)

/-- The expressions of the function. `pipe k` is `pipe(tmpfd[k])`, `closeTmp k e` and
`closeFds i` close `tmpfd[k][e]` and `fds[n][i]`. -/
inductive Expr where
  | n
  | nLtMax
  | fdsN
  | pipe (k : Nat)
  | fork
  | closeTmp (k : Nat) (e : End)
  | closeFds (i : Nat)
  | incN
  | free
  | child_work
  /-- `fds[--n][0] = tmpfd[0][1]` -/
  | store0
  /-- `fds[n][1] = tmpfd[1][0]` -/
  | store1
  | exit
  | ERR
  deriving DecidableEq, Repr

/-! ## The code -/

def child : Stmt Expr :=
  .seq (.while .nLtMax (.seq (.ifAll [.fdsN, .closeFds 0, .closeFds 1] (.expr .ERR)) (.expr .incN)))
    (.seq (.expr .free)
      (.seq (.ifOr (.closeTmp 0 .write) (.closeTmp 1 .read) (.expr .ERR))
        (.seq (.expr .child_work)
          (.seq (.ifOr (.closeTmp 0 .read) (.closeTmp 1 .write) (.expr .ERR)) (.expr .exit)))))

def outer : Stmt Expr :=
  .seq (.switch .fork (.seq (.case 0 child) (.case (-1) (.expr .ERR))))
    (.seq (.ifOr (.closeTmp 0 .read) (.closeTmp 1 .write) (.expr .ERR))
      (.seq (.expr .store0) (.expr .store1)))

/-- `if (pipe(tmpfd[0]) || pipe(tmpfd[1])) ERR("pipe")` -/
def pipes : Stmt Expr := .ifOr (.pipe 0) (.pipe 1) (.expr .ERR)

/-- `while (n)` -/
def create_children_and_pipes : Stmt Expr := .while .n (.seq pipes (.switch .fork outer))

/-! ## Processes -/

structure Proc where
  code : List (Stmt Expr)
  /-- by `exit` -/
  ended : Bool
  n : Int
  max : Int
  tmpfd : Nat → Nat
  fds : Int → Nat → End × Nat
  opened : Fds

/-- `count` processes, and the number of pipes that were made. -/
structure State where
  count : Nat
  proc : Nat → Proc
  made : Nat
  worked : List (Nat × (End × Nat) × (End × Nat))

/-- A step of process `p`, whose `pipe` may fail. -/
structure Act where
  p : Nat
  fails : Bool
  deriving DecidableEq, Repr

/-- Process `p` is now `c`, and goes on with `k`. -/
def State.resume (s : State) (p : Nat) (c : Proc) (k : List (Stmt Expr)) : State :=
  { s with proc := Function.update s.proc p { c with code := k } }

def State.close (s : State) (p : Nat) (d : End × Nat) (k : Int → List (Stmt Expr)) : State :=
  match (s.proc p).opened.close d.1 d.2 with
  | some fds => s.resume p { s.proc p with opened := fds } (k 0)
  | none => s.resume p (s.proc p) (k (-1))

/-- `fds[n][i] = d` -/
def Proc.store (c : Proc) (i : Nat) (d : End × Nat) : Proc :=
  { c with fds := Function.update c.fds c.n (Function.update (c.fds c.n) i d) }

/-- Process `p` evaluates an expression and goes on with `k`. -/
def State.eval (s : State) (p : Nat) (fails : Bool) (e : Expr) (k : Int → List (Stmt Expr)) :
    State :=
  let c := s.proc p
  match e with
  | .n => s.resume p c (k c.n)
  | .nLtMax => s.resume p c (k (if c.n < c.max then 1 else 0))
  | .fdsN => s.resume p c (k 1)
  | .pipe j =>
    if fails then s.resume p c (k (-1))
    else
      { s with made := s.made + 1 }.resume p
        { c with tmpfd := Function.update c.tmpfd j s.made, opened := c.opened.pipe s.made } (k 0)
  | .fork =>
    { s with
      count := s.count + 1
      proc := Function.update (Function.update s.proc p { c with code := k s.count }) s.count
        { c with code := k 0 } }
  | .closeTmp j e => s.close p (e, c.tmpfd j) k
  | .closeFds i => s.close p (c.fds c.n i) k
  | .incN => s.resume p { c with n := c.n + 1 } (k c.n)
  | .free => s.resume p c (k 0)
  | .child_work =>
    { s with worked := s.worked ++ [(p, (End.read, c.tmpfd 0), (End.write, c.tmpfd 1))] }.resume
      p c (k 0)
  | .store0 => s.resume p ({ c with n := c.n - 1 }.store 0 (.write, c.tmpfd 0)) (k 0)
  | .store1 => s.resume p (c.store 1 (.read, c.tmpfd 1)) (k 0)
  | .exit | .ERR => s.resume p { c with ended := true } (k 0)

def State.next (s : State) (a : Act) : Option State :=
  if a.p < s.count ∧ (s.proc a.p).ended = false then
    match view (s.proc a.p).code with
    | .done => none
    | .go k => some (s.resume a.p (s.proc a.p) k)
    | .eval e k => some (s.eval a.p a.fails e k)
  else none

/-- The parent is called, with anything in `fds` and `tmpfd` and anything open. -/
structure State.Start (N : Nat) (s : State) : Prop where
  count : s.count = 1
  code : (s.proc 0).code = [create_children_and_pipes]
  ended : (s.proc 0).ended = false
  n : (s.proc 0).n = N
  max : (s.proc 0).max = N
  worked : s.worked = []

/-- `create_children_and_pipes(N, fds)` -/
def creation (N : Nat) : LTS State Act where
  Init := State.Start N
  next := State.next

/-- **What the function is for**: the parent has returned, there are `n` children, and `fds[k]` has
the other ends of the two pipes with which child `player k` has called `child_work`. -/
structure Created (n : Nat) (s : State) : Prop where
  returned : (s.proc 0).code = [] ∧ (s.proc 0).ended = false
  count : s.count = n + 1
  players : ∃ player pipe0 pipe1 : Nat → Nat,
    (∀ k < n, 1 ≤ player k ∧ player k ≤ n) ∧
    (∀ j < n, ∀ k < n, player j = player k → j = k) ∧
    (∀ j < n, ∀ k < n, pipe0 j ≠ pipe1 k ∧ (pipe0 j = pipe0 k ∨ pipe1 j = pipe1 k → j = k)) ∧
    ∀ k < n, (player k, (.read, pipe0 k), (.write, pipe1 k)) ∈ s.worked ∧
      (s.proc 0).fds k 0 = (.write, pipe0 k) ∧ (s.proc 0).fds k 1 = (.read, pipe1 k)

end Ops.Players
