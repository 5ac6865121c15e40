import Ops.Lib.StoreBuffer
import Ops.Peterson.Process

/-!
# Peterson's lock on x86 (`02_peterson.c`, `03_peterson_atomic.c`)

The two programs differ in the type of `flag` and `turn`: `int`, whose stores wait in the buffer
of the thread, or `atomic_int`, whose stores are an `xchg`. `counter` is an `int` in both. The
compiler keeps the order of the loads and stores.
-/

namespace Ops.Peterson.Buffered

/-- The shared variables. -/
inductive Var where
  | flag (i : Fin 2)
  | turn
  | counter
  deriving DecidableEq, Repr

structure State where
  memory : Memory (Fin 2) Var
  pc : Fin 2 → Pc

inductive Act where
  | thread (i : Fin 2)
  | flush (i : Fin 2)
  deriving DecidableEq, Repr

def State.setPc (s : State) (i : Fin 2) (c : Pc) : State :=
  { s with pc := Function.update s.pc i c }

def State.store (atomic : Bool) (s : State) (i : Fin 2) (x : Var) (v : Int) (c : Pc) :
    Option State :=
  if atomic then (s.memory.xchg i x v).map fun m => { s with memory := m }.setPc i c
  else some ({ s with memory := s.memory.store i x v }.setPc i c)

/-- `producer`, `consumer`, `lock`, `unlock` -/
def State.thread (atomic : Bool) (ITERATIONS : Fin 2 → Nat) (s : State) (i : Fin 2) :
    Option State :=
  match s.pc i with
  | .loop n => some (s.setPc i (if n < ITERATIONS i then .flag n else .done))
  | .flag n => s.store atomic i (.flag i) 1 (.turn n)
  | .turn n => s.store atomic i .turn (other i).val (.testFlag n)
  | .testFlag n =>
    some (s.setPc i (if s.memory.load i (.flag (other i)) ≠ 0 then .testTurn n else .load n))
  | .testTurn n =>
    some (s.setPc i (if s.memory.load i .turn = (other i).val then .testFlag n else .load n))
  | .load n => some (s.setPc i (.store n (s.memory.load i .counter)))
  | .store n v =>
    some ({ s with memory := s.memory.store i .counter (v + change i) }.setPc i (.unlock n))
  | .unlock n => s.store atomic i (.flag i) 0 (.loop (n + 1))
  | .done => none

def State.next (atomic : Bool) (ITERATIONS : Fin 2 → Nat) (s : State) : Act → Option State
  | .thread i => s.thread atomic ITERATIONS i
  | .flush i => (s.memory.flush i).map fun m => { s with memory := m }

def State.start : State := ⟨⟨fun _ => 0, fun _ => []⟩, fun _ => .loop 0⟩

/-- `03_peterson_atomic.c` if `atomic`, else `02_peterson.c`. -/
def threads (atomic : Bool) (ITERATIONS : Fin 2 → Nat) : LTS State Act where
  Init s := s = .start
  next := State.next atomic ITERATIONS

def State.Joined (s : State) : Prop := ∀ i, s.pc i = .done ∧ s.memory.buf i = []

end Ops.Peterson.Buffered
