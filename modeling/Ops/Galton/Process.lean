import Mathlib.Algebra.Ring.Int.Defs
import Mathlib.Logic.Function.Basic
import Ops.Lib.Transition
import Ops.Posix.Locks

/-!
# Galton board (`prog18.c`)

`main` and its thrower threads, with one step for each lock, unlock, load and store
of the shared counters and bins. `main` creates the throwers one after the other,
polls `ballsThrown` under its mutex, and then reads the bins without a mutex. Its exit
ends the throwers. `bins` is memory at an index: nothing in the model keeps the index
below `BIN_COUNT`.
-/

namespace Ops.Galton

open Posix (Party Locks)

def BIN_COUNT : Nat := 11

def DEFAULT_N : Int := 1000

def DEFAULT_K : Int := 10

/-- `ReadArguments`, on what `atoi` returns for each argument; `none` where it exits. -/
def ReadArguments : List Int → Option (Int × Int)
  | [] => some (DEFAULT_N, DEFAULT_K)
  | [ballsCount] => if ballsCount ≤ 0 then none else some (ballsCount, DEFAULT_K)
  | ballsCount :: throwersCount :: _ =>
    if ballsCount ≤ 0 then none
    else if throwersCount ≤ 0 then none
    else some (ballsCount, throwersCount)

theorem ReadArguments_pos {args : List Int} {ballsCount throwersCount : Int}
    (h : ReadArguments args = some (ballsCount, throwersCount)) :
    1 ≤ ballsCount ∧ 1 ≤ throwersCount := by
  unfold ReadArguments at h
  split at h
  · cases h
    exact ⟨by decide, by decide⟩
  · split at h
    · cases h
    · cases h
      exact ⟨by omega, by decide⟩
  · split at h
    · cases h
    · split at h
      · cases h
      · cases h
        omega

/-- `throwBall`; `toss i` is whether `NEXT_DOUBLE` is above 0.5 in round `i`. -/
def throwBall (toss : Nat → Bool) : Nat :=
  (List.range (BIN_COUNT - 1)).foldl (fun result i => if toss i then result + 1 else result) 0

theorem throw_le (toss : Nat → Bool) (rounds : List Nat) (result : Nat) :
    rounds.foldl (fun result i => if toss i then result + 1 else result) result ≤
      result + rounds.length := by
  induction rounds generalizing result with
  | nil => simp
  | cons i rounds ih =>
    have hrest := ih (if toss i then result + 1 else result)
    have hround : (if toss i then result + 1 else result) ≤ result + 1 := by split <;> omega
    simp only [List.foldl_cons, List.length_cons]
    omega

theorem throwBall_lt (toss : Nat → Bool) : throwBall toss < BIN_COUNT := by
  have hle := throw_le toss (List.range (BIN_COUNT - 1)) 0
  rw [List.length_range] at hle
  unfold throwBall
  simp only [BIN_COUNT] at hle ⊢
  omega

inductive Lock where
  | ballsWaiting
  | bin (i : Nat)
  | ballsThrown
  deriving DecidableEq, Repr

/-- The next step of a thrower. -/
inductive Pc where
  | off
  | lockWaiting
  | test
  | loadWaiting
  | storeWaiting (n : Int)
  | unlockWaiting
  | leave
  | throwBall
  | lockBin (binno : Nat)
  | loadBin (binno : Nat)
  | storeBin (binno : Nat) (n : Int)
  | unlockBin (binno : Nat)
  | lockThrown
  | loadThrown
  | storeThrown (n : Int)
  | unlockThrown
  | done
  deriving DecidableEq, Repr

inductive MainPc where
  | create (i : Nat)
  | poll (bt : Int)
  | lock
  | load
  | unlock (bt : Int)
  | count (i : Nat) (realBallsCount : Int)
  | print (i : Nat) (realBallsCount : Int)
  | exited (realBallsCount : Int)
  deriving DecidableEq, Repr

structure State (T : Nat) where
  main : MainPc
  pc : Fin T → Pc
  ballsWaiting : Int
  ballsThrown : Int
  bins : Nat → Int
  locks : Locks Lock (Party (Fin T))
  printed : List Int

inductive Act (T : Nat) where
  | main
  | thrower (p : Fin T) (toss : Nat → Bool)

variable {T : Nat}

def State.goto (s : State T) (p : Fin T) (c : Pc) : State T :=
  { s with pc := Function.update s.pc p c }

def State.lock (s : State T) (m : Lock) (p : Fin T) (c : Pc) : Option (State T) :=
  (s.locks.lock m (.thread p)).map fun l => { s with locks := l }.goto p c

def State.unlock (s : State T) (m : Lock) (p : Fin T) (c : Pc) : Option (State T) :=
  (s.locks.unlock m (.thread p)).map fun l => { s with locks := l }.goto p c

def State.throwing (s : State T) (p : Fin T) (toss : Nat → Bool) : Option (State T) :=
  match s.pc p with
  | .off => none
  | .lockWaiting => s.lock .ballsWaiting p .test
  | .test => some (s.goto p (if 0 < s.ballsWaiting then .loadWaiting else .leave))
  | .loadWaiting => some (s.goto p (.storeWaiting s.ballsWaiting))
  | .storeWaiting n => some ({ s with ballsWaiting := n - 1 }.goto p .unlockWaiting)
  | .unlockWaiting => s.unlock .ballsWaiting p .throwBall
  | .leave => s.unlock .ballsWaiting p .done
  | .throwBall => some (s.goto p (.lockBin (throwBall toss)))
  | .lockBin binno => s.lock (.bin binno) p (.loadBin binno)
  | .loadBin binno => some (s.goto p (.storeBin binno (s.bins binno)))
  | .storeBin binno n =>
    some ({ s with bins := Function.update s.bins binno (n + 1) }.goto p (.unlockBin binno))
  | .unlockBin binno => s.unlock (.bin binno) p .lockThrown
  | .lockThrown => s.lock .ballsThrown p .loadThrown
  | .loadThrown => some (s.goto p (.storeThrown s.ballsThrown))
  | .storeThrown n => some ({ s with ballsThrown := n + 1 }.goto p .unlockThrown)
  | .unlockThrown => s.unlock .ballsThrown p .lockWaiting
  | .done => none

/-- `make_throwers`, the polling loop and the report of `main`. -/
def State.runMain (ballsCount : Int) (s : State T) : Option (State T) :=
  match s.main with
  | .create i =>
    if h : i < T then some { s.goto ⟨i, h⟩ .lockWaiting with main := .create (i + 1) }
    else some { s with main := .poll 0 }
  | .poll bt => some { s with main := if bt < ballsCount then .lock else .count 0 0 }
  | .lock => (s.locks.lock .ballsThrown .main).map fun l => { s with locks := l, main := .load }
  | .load => some { s with main := .unlock s.ballsThrown }
  | .unlock bt =>
    (s.locks.unlock .ballsThrown .main).map fun l => { s with locks := l, main := .poll bt }
  | .count i realBallsCount =>
    if i < BIN_COUNT then some { s with main := .count (i + 1) (realBallsCount + s.bins i) }
    else some { s with main := .print 0 realBallsCount }
  | .print i realBallsCount =>
    if i < BIN_COUNT then
      some { s with main := .print (i + 1) realBallsCount, printed := s.printed ++ [s.bins i] }
    else some { s with main := .exited realBallsCount }
  | .exited _ => none

/-- `main` has called `exit`. -/
def MainPc.over : MainPc → Bool
  | .exited _ => true
  | _ => false

def State.next (ballsCount : Int) (s : State T) : Act T → Option (State T)
  | .main => s.runMain ballsCount
  | .thrower p toss => if s.main.over then none else s.throwing p toss

/-- `main` before `make_throwers`. -/
def start (ballsCount : Int) (T : Nat) : State T where
  main := .create 0
  pc _ := .off
  ballsWaiting := ballsCount
  ballsThrown := 0
  bins _ := 0
  locks _ := none
  printed := []

def board (ballsCount : Int) (T : Nat) : LTS (State T) (Act T) where
  Init s := s = start ballsCount T
  next := State.next ballsCount

end Ops.Galton
