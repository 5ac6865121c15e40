import Mathlib.Logic.Function.Basic
import Ops.Lib.Transition
import Ops.Posix.Locks

/-!
# Array reverser (`sop-ca.c`)

`mainWork` and the threads that it starts, with one step for each lock, unlock, load
and store of an array element. `SIGUSR1` and `SIGUSR2` are blocked except in
`sigsuspend`, which delivers all that are pending and returns. The mutexes are
`PTHREAD_MUTEX_DEFAULT`: a second lock by the holder blocks.

`delivered1`, `delivered2` and `reversals` are for the theorems: how often each
signal was delivered, and how many reversals were completed.
-/

namespace Ops.Reverse

open Posix (Party Locks)

/-- `getarguments`, on what `atoi` returns; `none` where it exits. -/
def getarguments : List Int → Option (Int × Int)
  | [n, p] => if n < 8 ∨ n > 256 then none else if p < 1 ∨ p > 16 then none else some (n, p)
  | _ => none

theorem getarguments_range {args : List Int} {n p : Int} (h : getarguments args = some (n, p)) :
    8 ≤ n ∧ n ≤ 256 := by
  unfold getarguments at h
  split at h
  · split at h
    · cases h
    · split at h
      · cases h
      · cases h
        omega
  · cases h

/-- `prepareArray`, on any contents of the block that `malloc` returned. -/
def prepareArray (n : Nat) (array : Nat → Nat) : Nat → Nat :=
  (List.range n).foldl (fun array i => Function.update array i i) array

theorem prepareArray_succ (n : Nat) (array : Nat → Nat) :
    prepareArray (n + 1) array = Function.update (prepareArray n array) n n := by
  simp [prepareArray, List.range_succ]

theorem prepareArray_eq {n i : Nat} (array : Nat → Nat) (hi : i < n) :
    prepareArray n array i = i := by
  induction n with
  | zero => omega
  | succ n ih =>
    rw [prepareArray_succ]
    by_cases hin : i = n
    · simp [hin]
    · rw [Function.update_of_ne hin]
      exact ih (by omega)

/-- The next step of `printing`; `unlock i` has the mutexes below `i` to unlock. -/
inductive Pc where
  | off
  | lock (i : Nat)
  | read (i : Nat)
  | unlock (i : Nat)
  | done
  deriving DecidableEq, Repr

inductive MainPc where
  | suspend
  | test
  | draw
  | lockA (a b : Nat)
  | lockB (a b : Nat)
  | loadA (a b : Nat)
  | loadB (a b temp : Nat)
  | storeA (a b temp v : Nat)
  | storeB (a b temp : Nat)
  | unlockB (a b : Nat)
  | unlockA (a b : Nat)
  | narrow (a b : Nat)
  | clear1
  | create
  | clear2
  deriving DecidableEq, Repr

inductive Sig where
  | usr1
  | usr2
  deriving DecidableEq, Repr

structure State where
  main : MainPc
  pc : Nat → Pc
  created : Nat
  printed : Nat → List Nat
  array : Nat → Nat
  locks : Locks Nat (Party Nat)
  pending1 : Bool
  pending2 : Bool
  SigUsr1Received : Bool
  SigUsr2Received : Bool
  delivered1 : Nat
  delivered2 : Nat
  reversals : Nat

/-- `r` and `r'` are what `rand` returns to `mainWork`. -/
inductive Act where
  | kill (sig : Sig)
  | main (r r' : Nat)
  | printer (k : Nat)
  deriving DecidableEq, Repr

def State.goto (s : State) (k : Nat) (c : Pc) : State :=
  { s with pc := Function.update s.pc k c }

/-- The end of `sigsuspend`: the handlers of all pending signals have run. -/
def State.deliver (s : State) : State :=
  { s with
    main := .test
    pending1 := false
    pending2 := false
    SigUsr1Received := s.SigUsr1Received || s.pending1
    SigUsr2Received := s.SigUsr2Received || s.pending2
    delivered1 := s.delivered1 + s.pending1.toNat
    delivered2 := s.delivered2 + s.pending2.toNat }

def State.printing (n : Nat) (s : State) (k : Nat) : Option State :=
  match s.pc k with
  | .off => none
  | .lock i =>
    if i < n then
      (s.locks.lock i (.thread k)).map fun l => { s with locks := l }.goto k (.lock (i + 1))
    else some (s.goto k (.read 0))
  | .read i =>
    if i < n then
      some ({ s with
        printed := Function.update s.printed k (s.printed k ++ [s.array i]) }.goto k (.read (i + 1)))
    else some (s.goto k (.unlock n))
  | .unlock 0 => some (s.goto k .done)
  | .unlock (i + 1) =>
    (s.locks.unlock i (.thread k)).map fun l => { s with locks := l }.goto k (.unlock i)
  | .done => none

/-- `mainWork`. A remainder by 0 is undefined and has no step. -/
def State.mainWork (n : Nat) (s : State) (r r' : Nat) : Option State :=
  match s.main with
  | .suspend => if s.pending1 || s.pending2 then some s.deliver else none
  | .test =>
    if s.SigUsr1Received then some { s with main := .draw }
    else if s.SigUsr2Received then some { s with main := .create }
    else some { s with main := .suspend }
  | .draw =>
    if n ≤ 1 then none
    else
      let a := r % (n - 1)
      some { s with main := .lockA a (r' % (n - a) + a) }
  | .lockA a b => (s.locks.lock a .main).map fun l => { s with locks := l, main := .lockB a b }
  | .lockB a b => (s.locks.lock b .main).map fun l => { s with locks := l, main := .loadA a b }
  | .loadA a b => some { s with main := .loadB a b (s.array a) }
  | .loadB a b temp => some { s with main := .storeA a b temp (s.array b) }
  | .storeA a b temp v =>
    some { s with array := Function.update s.array a v, main := .storeB a b temp }
  | .storeB a b temp =>
    some { s with array := Function.update s.array b temp, main := .unlockB a b }
  | .unlockB a b => (s.locks.unlock b .main).map fun l => { s with locks := l, main := .unlockA a b }
  | .unlockA a b => (s.locks.unlock a .main).map fun l => { s with locks := l, main := .narrow a b }
  -- both mutexes were taken, so `a < b` and `b - 1` is not negative
  | .narrow a b =>
    if a + 1 ≥ b - 1 then some { s with main := .clear1, reversals := s.reversals + 1 }
    else some { s with main := .lockA (a + 1) (b - 1) }
  | .clear1 => some { s with SigUsr1Received := false, main := .suspend }
  | .create =>
    some { s.goto s.created (.lock 0) with created := s.created + 1, main := .clear2 }
  | .clear2 => some { s with SigUsr2Received := false, main := .suspend }

def State.next (n : Nat) (s : State) : Act → Option State
  | .kill .usr1 => some { s with pending1 := true }
  | .kill .usr2 => some { s with pending2 := true }
  | .main r r' => s.mainWork n r r'
  | .printer k => s.printing n k

/-- The first call of `sigsuspend`. -/
def start (n : Nat) (garbage : Nat → Nat) : State where
  main := .suspend
  pc _ := .off
  created := 0
  printed _ := []
  array := prepareArray n garbage
  locks _ := none
  pending1 := false
  pending2 := false
  SigUsr1Received := false
  SigUsr2Received := false
  delivered1 := 0
  delivered2 := 0
  reversals := 0

def reverser (n : Nat) : LTS State Act where
  Init s := ∃ garbage, s = start n garbage
  next := State.next n

end Ops.Reverse
