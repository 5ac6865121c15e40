import Mathlib.Algebra.Group.Nat.Defs
import Mathlib.Logic.Function.Basic
import Ops.Lib.Transition
import Ops.Posix.Locks

/-!
# Parallel file splitter (`task.c`)

`main` creates the threads one after the other; a thread claims chunks under the mutex
and reads each without it. A failing `malloc` or `pread` is decided by the label. A
division by 0 and an overflow of the `int` `next_chunk` are undefined: the run ends
there. `claimed` holds the start of every claimed range. The list that a thread prints behind
its loop is in `Split.Program`.
-/

namespace Ops.Split

open Posix (Locks)

/-- The next step of `thread_work`. -/
inductive Pc where
  | off
  | malloc
  | lock
  | test
  | start
  | increment (chunk_start : Nat)
  | unlock (chunk_start : Nat)
  | pread (chunk_start : Nat)
  | node (chunk_start : Nat)
  | leave
  | done
  | errorLock (line : Nat)
  | errorStore (line : Nat)
  | errorUnlock
  | failed
  deriving DecidableEq, Repr

/-- How far the process is. -/
inductive Phase where
  | running
  | undefined
  | exited
  deriving DecidableEq, Repr

structure State (n : Nat) where
  phase : Phase
  created : Nat
  pc : Fin n → Pc
  next_chunk : Nat
  error_line : Nat
  head : Fin n → List Nat
  locks : Locks Unit (Fin n)
  claimed : List Nat

/-- `ok` is whether the `malloc` or `pread` of the step succeeds. -/
inductive Act (n : Nat) where
  | create
  | thread (p : Fin n) (ok : Bool)
  deriving DecidableEq

variable {n : Nat}

def State.goto (s : State n) (p : Fin n) (c : Pc) : State n :=
  { s with pc := Function.update s.pc p c }

def State.lock (s : State n) (p : Fin n) (c : Pc) : Option (State n) :=
  (s.locks.lock () p).map fun l => { s with locks := l }.goto p c

def State.unlock (s : State n) (p : Fin n) (c : Pc) : Option (State n) :=
  (s.locks.unlock () p).map fun l => { s with locks := l }.goto p c

/-- `thread_work`, for a file of `size` bytes. -/
def State.thread_work (size chunk : Nat) (s : State n) (p : Fin n) (ok : Bool) :
    Option (State n) :=
  match s.pc p with
  | .off => none
  | .malloc => some (s.goto p (if ok then .lock else .errorLock 75))
  | .lock => s.lock p .test
  | .test =>
    if chunk = 0 then some { s with phase := .undefined }
    else some (s.goto p (if s.next_chunk ≥ size / chunk then .leave else .start))
  | .start => some (s.goto p (.increment (s.next_chunk * chunk)))
  | .increment chunk_start =>
    if s.next_chunk + 1 < 2 ^ 31 then
      some ({ s with
        next_chunk := s.next_chunk + 1
        claimed := s.claimed ++ [chunk_start] }.goto p (.unlock chunk_start))
    else some { s with phase := .undefined }
  | .unlock chunk_start => s.unlock p (.pread chunk_start)
  | .pread chunk_start => some (s.goto p (if ok then .node chunk_start else .errorLock 97))
  | .node chunk_start =>
    if ok then
      some ({ s with
        head := Function.update s.head p (chunk_start :: s.head p) }.goto p .lock)
    else some { s with phase := .exited }
  | .leave => s.unlock p .done
  | .errorLock line => s.lock p (.errorStore line)
  | .errorStore line => some ({ s with error_line := line }.goto p .errorUnlock)
  | .errorUnlock => s.unlock p .failed
  | .done | .failed => none

def State.next (size m : Nat) (s : State n) (act : Act n) : Option (State n) :=
  match s.phase, act with
  | .running, .create =>
    if h : s.created < n then
      some { s.goto ⟨s.created, h⟩ .malloc with created := s.created + 1 }
    else none
  | .running, .thread p ok => s.thread_work size (size / m) p ok
  | _, _ => none

/-- `main` before the loop that creates the threads. -/
def start (n : Nat) : State n where
  phase := .running
  created := 0
  pc _ := .off
  next_chunk := 0
  error_line := 0
  head _ := []
  locks _ := none
  claimed := []

/-- The runs for a file of `size` bytes and the arguments `n` and `m`. -/
def splitter (size m n : Nat) : LTS (State n) (Act n) where
  Init s := s = start n
  next := State.next size m

end Ops.Split
