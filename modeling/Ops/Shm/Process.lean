import Mathlib.Algebra.Ring.Int.Defs
import Mathlib.Logic.Function.Basic
import Ops.Lib.Transition

/-!
# Processes on one shared memory object (`examp.c`)

`mem_init`, `work` and `finish` as steps of any number of processes, one step for
each system call and each access to the shared object; `++`, `--` and `+=` on a
shared counter are a load and a store. A name (`semName`,
`shmName`) is bound to a semaphore or an object until it is unlinked; what was
opened stays usable, and the next `O_CREAT` makes a new one. `Args.a` and `Args.b`
are compared with `!=` only, so the floating-point type is a parameter. `ERR`
ends a process and releases nothing. Locking a mutex that was not initialised, or
was destroyed, is undefined, and the model has no step there.

`ready`, `joined`, `left`, `zeros` and `batches` of an object are for the theorems:
whether its creator has stored all its fields, who counts as a worker, who no
more, who saw the counter reach 0, and who added what to the totals.
-/

namespace Ops.Shm

inductive Mutex (π : Type) where
  | raw
  | free
  | held (p : π)
  | destroyed
  deriving DecidableEq

/-- `shared_mem`; the counters are `uint64_t`s. -/
structure Obj (π F : Type) where
  workers : Int
  tried : Int
  hit : Int
  lock : Mutex π
  a : F
  b : F
  ready : Bool
  joined : List π
  left : List π
  zeros : List π
  batches : List (π × Int × Int)

/-- What a process passes to `mem_init` and `work`. -/
structure Args (F : Type) where
  a : F
  b : F
  N : Int
  t : Nat

inductive Field where
  | workers
  | tried
  | hit
  | a
  | b
  | lock
  deriving DecidableEq, Repr

/-- The next call or access of a process, with the semaphore and the object it has
open. `mem_init` and `finish` open and take the semaphore in the same way;
`entry` is the object of a `finish`. -/
inductive Pc where
  | openSem (entry : Option Nat)
  | clock (sem : Nat) (entry : Option Nat)
  | wait (sem : Nat) (entry : Option Nat)
  | create (sem : Nat)
  | reopen (sem : Nat)
  | truncate (sem obj : Nat)
  | map (sem obj : Nat) (init : Bool)
  | store (sem obj : Nat) (f : Field)
  | check (sem obj : Nat)
  | joinLock (sem obj : Nat)
  | joinLoad (sem obj : Nat)
  | joinStore (sem obj : Nat) (workers : Int)
  | joinUnlock (sem obj : Nat)
  | abandon (sem obj : Nat)
  | failPost (sem : Nat)
  | post (sem obj : Nat)
  | closeSem (sem obj : Nat)
  | work (obj t : Nat)
  | workLock (obj t : Nat) (res : Int)
  | loadHit (obj t : Nat) (res : Int)
  | storeHit (obj t : Nat) (res hit : Int)
  | loadTried (obj t : Nat) (res : Int)
  | storeTried (obj t : Nat) (res tried : Int)
  | workUnlock (obj t : Nat)
  | leaveLoad (sem obj : Nat)
  | leaveStore (sem obj : Nat) (workers : Int)
  | reportLock (sem obj : Nat)
  | report (sem obj : Nat)
  | reportUnlock (sem obj : Nat)
  | destroyLock (sem obj : Nat)
  | unlinkShm (sem : Nat)
  | unlinkSem (sem : Nat)
  | finPost (sem : Nat)
  | finClose (sem : Nat)
  | returned
  | exited
  deriving DecidableEq

structure State (π F : Type) where
  pc : π → Pc
  sem : Nat → Nat
  sems : Nat
  semName : Option Nat
  obj : Nat → Obj π F
  objs : Nat
  shmName : Option Nat

/-- What the environment decides about a step: whether a call succeeds, and the
result of `randomize_points`. -/
inductive Outcome where
  | ok
  | fail
  | eintr
  | points (res : Int)
  deriving DecidableEq, Repr

structure Act (π : Type) where
  proc : π
  outcome : Outcome

/-- A `uint64_t` result. -/
def u64 (n : Int) : Int := n % 2 ^ 64

variable {π F : Type} [DecidableEq π]

def State.goto (s : State π F) (p : π) (c : Pc) : State π F :=
  { s with pc := Function.update s.pc p c }

theorem State.goto_self (s : State π F) (p : π) (c : Pc) : (s.goto p c).pc p = c :=
  Function.update_self ..

def State.setObj (s : State π F) (o : Nat) (k : Obj π F) : State π F :=
  { s with obj := Function.update s.obj o k }

def State.setSem (s : State π F) (x n : Nat) : State π F :=
  { s with sem := Function.update s.sem x n }

/-- `sem_open` with `O_CREAT` and the initial value 1. -/
def State.openSem (s : State π F) (p : π) (entry : Option Nat) : State π F :=
  match s.semName with
  | some x => s.goto p (.clock x entry)
  | none =>
    { s.setSem s.sems 1 with semName := some s.sems, sems := s.sems + 1 }.goto p (.clock s.sems entry)

def State.post (s : State π F) (x : Nat) : State π F := s.setSem x (s.sem x + 1)

/-- The object that `ftruncate` fills with zeros. -/
def Obj.zero [Zero F] : Obj π F := ⟨0, 0, 0, .raw, 0, 0, false, [], [], [], []⟩

/-- `shm_open` with `O_CREAT | O_EXCL`. -/
def State.create [Zero F] (s : State π F) (p : π) (x : Nat) : State π F :=
  match s.shmName with
  | some _ => s.goto p (.reopen x)
  | none =>
    { s.setObj s.objs .zero with shmName := some s.objs, objs := s.objs + 1 }.goto p
      (.truncate x s.objs)

/-- `shm_open` of the existing object. -/
def State.reopen (s : State π F) (p : π) (x : Nat) : State π F :=
  match s.shmName with
  | some o => s.goto p (.map x o false)
  | none => s.goto p (.failPost x)

/-- The stores of the creator; the last one is `pthread_mutex_init`. -/
def State.store (s : State π F) (args : Args F) (p : π) (x o : Nat) : Field → State π F
  | .workers => (s.setObj o { s.obj o with workers := 1 }).goto p (.store x o .tried)
  | .tried => (s.setObj o { s.obj o with tried := 0 }).goto p (.store x o .hit)
  | .hit => (s.setObj o { s.obj o with hit := 0 }).goto p (.store x o .a)
  | .a => (s.setObj o { s.obj o with a := args.a }).goto p (.store x o .b)
  | .b => (s.setObj o { s.obj o with b := args.b }).goto p (.store x o .lock)
  | .lock =>
    (s.setObj o { s.obj o with
      lock := .free, ready := true, joined := (s.obj o).joined ++ [p] }).goto p (.post x o)

/-- `pthread_mutex_lock`: no step while another process holds it. -/
def State.acquire (s : State π F) (p : π) (o : Nat) (c : Pc) : Option (State π F) :=
  if (s.obj o).lock = .free then some ((s.setObj o { s.obj o with lock := .held p }).goto p c)
  else none

/-- `pthread_mutex_unlock`. -/
def State.release (s : State π F) (p : π) (o : Nat) (c : Pc) : Option (State π F) :=
  if (s.obj o).lock = .held p then some ((s.setObj o { s.obj o with lock := .free }).goto p c)
  else none

/-- The store of `--shmem->workers`, which was `workers`, and the test for the last worker. -/
def State.leave (s : State π F) (p : π) (x o : Nat) (workers : Int) : State π F :=
  if u64 (workers - 1) = 0 then
    (s.setObj o { s.obj o with
      workers := u64 (workers - 1)
      left := (s.obj o).left ++ [p]
      zeros := (s.obj o).zeros ++ [p] }).goto p (.reportLock x o)
  else
    (s.setObj o { s.obj o with
      workers := u64 (workers - 1)
      left := (s.obj o).left ++ [p] }).goto p (.finPost x)

def State.next [Zero F] [BEq F] (args : π → Args F) (s : State π F) (act : Act π) :
    Option (State π F) :=
  let p := act.proc
  match s.pc p, act.outcome with
  -- `mem_init` and `finish` up to the guarded section
  | .openSem entry, .ok => some (s.openSem p entry)
  | .openSem _, .fail => some (s.goto p .exited)
  | .clock x entry, .ok => some (s.goto p (.wait x entry))
  | .clock _ _, .fail => some (s.goto p .exited)
  | .wait x entry, .ok =>
    if 0 < s.sem x then
      some ((s.setSem x (s.sem x - 1)).goto p
        (match entry with
          | none => .create x
          | some o => .leaveLoad x o))
    else none
  | .wait _ _, .eintr => some s
  | .wait _ _, .fail => some (s.goto p .exited)
  -- the guarded section of `mem_init`
  | .create x, .ok => some (s.create p x)
  | .create x, .fail => some (s.goto p (.failPost x))
  | .reopen x, .ok => some (s.reopen p x)
  | .reopen x, .fail => some (s.goto p (.failPost x))
  | .truncate x o, .ok => some (s.goto p (.map x o true))
  | .truncate x o, .fail => some (s.goto p (.abandon x o))
  | .map x o init, .ok =>
    some (s.goto p (if init then .store x o .workers else .check x o))
  | .map x o init, .fail =>
    some (s.goto p (if init then .abandon x o else .failPost x))
  | .store x o .lock, .fail => some (s.goto p (.abandon x o))
  | .store x o f, .ok => some (s.store (args p) p x o f)
  | .check x o, .ok =>
    if (args p).a != (s.obj o).a || (args p).b != (s.obj o).b then some (s.goto p .exited)
    else some (s.goto p (.joinLock x o))
  | .joinLock x o, .ok => s.acquire p o (.joinLoad x o)
  | .joinLoad x o, .ok => some (s.goto p (.joinStore x o (s.obj o).workers))
  | .joinStore x o workers, .ok =>
    some ((s.setObj o { s.obj o with
      workers := u64 (workers + 1), joined := (s.obj o).joined ++ [p] }).goto p (.joinUnlock x o))
  | .joinUnlock x o, .ok => s.release p o (.post x o)
  | .abandon x _, .ok => some ({ s with shmName := none }.goto p (.failPost x))
  | .failPost x, .ok => some ((s.post x).goto p .exited)
  | .post x o, .ok => some ((s.post x).goto p (.closeSem x o))
  | .closeSem _ o, .ok => some (s.goto p (.work o (args p).t))
  | .closeSem _ _, .fail => some (s.goto p .exited)
  -- `work`
  | .work o 0, .ok => some (s.goto p (.openSem (some o)))
  | .work o (t + 1), .points res => some (s.goto p (.workLock o t res))
  | .workLock o t res, .ok => s.acquire p o (.loadHit o t res)
  | .loadHit o t res, .ok => some (s.goto p (.storeHit o t res (s.obj o).hit))
  | .storeHit o t res hit, .ok =>
    some ((s.setObj o { s.obj o with hit := u64 (hit + res) }).goto p (.loadTried o t res))
  | .loadTried o t res, .ok => some (s.goto p (.storeTried o t res (s.obj o).tried))
  | .storeTried o t res tried, .ok =>
    some ((s.setObj o { s.obj o with
      tried := u64 (tried + (args p).N)
      batches := (s.obj o).batches ++ [(p, res, (args p).N)] }).goto p (.workUnlock o t))
  | .workUnlock o t, .ok => s.release p o (.work o t)
  -- the guarded section of `finish`
  | .leaveLoad x o, .ok => some (s.goto p (.leaveStore x o (s.obj o).workers))
  | .leaveStore x o workers, .ok => some (s.leave p x o workers)
  | .reportLock x o, .ok => s.acquire p o (.report x o)
  | .report x o, .ok => some (s.goto p (.reportUnlock x o))
  | .reportUnlock x o, .ok => s.release p o (.destroyLock x o)
  | .destroyLock x o, .ok =>
    some ((s.setObj o { s.obj o with lock := .destroyed }).goto p (.unlinkShm x))
  | .unlinkShm x, .ok =>
    if s.shmName = none then some (s.goto p .exited)
    else some ({ s with shmName := none }.goto p (.unlinkSem x))
  | .unlinkShm _, .fail => some (s.goto p .exited)
  | .unlinkSem x, .ok =>
    if s.semName = none then some (s.goto p .exited)
    else some ({ s with semName := none }.goto p (.finPost x))
  | .unlinkSem _, .fail => some (s.goto p .exited)
  | .finPost x, .ok => some ((s.post x).goto p (.finClose x))
  | .finClose _, .ok => some (s.goto p .returned)
  | _, _ => none

/-- Nothing exists, and every process is at the start of `mem_init`. -/
def State.Start (s : State π F) : Prop :=
  (∀ p, s.pc p = .openSem none) ∧ (∀ x, s.sem x = 0) ∧ s.sems = 0 ∧ s.semName = none ∧ s.objs = 0 ∧
    s.shmName = none

def processes [Zero F] [BEq F] (args : π → Args F) : LTS (State π F) (Act π) where
  Init := State.Start
  next := State.next args

end Ops.Shm
