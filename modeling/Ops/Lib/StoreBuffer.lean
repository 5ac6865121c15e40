import Mathlib.Data.Int.Notation
import Mathlib.Logic.Function.Basic

/-!
# Memory with store buffers

The memory model of x86: each thread has a queue of stores that are not in memory yet. A plain
`store` joins it, a `load` sees the newest own store of the variable and else the memory, `flush`
takes the oldest store to memory, and `xchg` waits until the own queue is empty and then stores to
memory. When all queues are empty, this is one memory (`load_drained`).
-/

namespace Ops

/-- `ν` are the variables. -/
structure Memory (ι ν : Type) where
  mem : ν → Int
  /-- The stores of each thread that wait, the oldest first. -/
  buf : ι → List (ν × Int)

namespace Memory

variable {ι ν : Type} [DecidableEq ι] [DecidableEq ν]

def store (m : Memory ι ν) (i : ι) (x : ν) (v : Int) : Memory ι ν :=
  { m with buf := Function.update m.buf i (m.buf i ++ [(x, v)]) }

/-- The newest store of `x` in a queue. -/
def newest (x : ν) : List (ν × Int) → Option Int
  | [] => none
  | (y, v) :: rest => (newest x rest).or (if y = x then some v else none)

def load (m : Memory ι ν) (i : ι) (x : ν) : Int := (newest x (m.buf i)).getD (m.mem x)

/-- The oldest store of `i` goes to memory. -/
def flush (m : Memory ι ν) (i : ι) : Option (Memory ι ν) :=
  match m.buf i with
  | [] => none
  | (x, v) :: rest =>
    some ⟨Function.update m.mem x v, Function.update m.buf i rest⟩

/-- A store with a full barrier, as for `atomic_int`. -/
def xchg (m : Memory ι ν) (i : ι) (x : ν) (v : Int) : Option (Memory ι ν) :=
  if m.buf i = [] then some { m with mem := Function.update m.mem x v } else none

variable {m m' : Memory ι ν} {i j : ι} {x y : ν} {v : Int}

omit [DecidableEq ν] in
@[simp] theorem store_mem (m : Memory ι ν) (i : ι) (x : ν) (v : Int) :
    (m.store i x v).mem = m.mem := rfl

omit [DecidableEq ν] in
@[simp] theorem store_buf (m : Memory ι ν) (i : ι) (x : ν) (v : Int) :
    (m.store i x v).buf = Function.update m.buf i (m.buf i ++ [(x, v)]) := rfl

omit [DecidableEq ι] in
/-- Without stores that wait, a load is of the memory. -/
theorem load_drained (h : m.buf i = []) (x : ν) : m.load i x = m.mem x := by
  rw [load, h]
  rfl

theorem newest_append (x : ν) (l l' : List (ν × Int)) :
    newest x (l ++ l') = (newest x l').or (newest x l) := by
  induction l with
  | nil => exact (Option.or_none).symm
  | cons e l ih => rw [List.cons_append, newest, newest, ih, Option.or_assoc]

/-- A thread sees its own store, whatever waits. -/
theorem load_own (m : Memory ι ν) (i : ι) (x : ν) (v : Int) : (m.store i x v).load i x = v := by
  rw [load, store_buf, Function.update_self, newest_append]
  simp [newest]

theorem flush_some (h : m.flush i = some m') :
    ∃ x v rest, m.buf i = (x, v) :: rest ∧ m'.mem = Function.update m.mem x v ∧
      m'.buf = Function.update m.buf i rest := by
  unfold flush at h
  cases hbuf : m.buf i with
  | nil => simp [hbuf] at h
  | cons e rest =>
    simp only [hbuf, Option.some.injEq] at h
    subst h
    exact ⟨e.1, e.2, rest, rfl, rfl, rfl⟩

/-- What a thread sees does not change when its stores come to memory. -/
theorem load_flush (h : m.flush i = some m') (x : ν) : m'.load i x = m.load i x := by
  obtain ⟨y, v, rest, hbuf, hmem, hbuf'⟩ := flush_some h
  rw [load, load, hbuf', hmem, hbuf, Function.update_self, newest]
  cases newest x rest with
  | some w => rfl
  | none =>
    rw [Option.none_or, Option.getD_none]
    by_cases hy : y = x
    · rw [if_pos hy, hy, Function.update_self]
      rfl
    · rw [if_neg hy, Function.update_of_ne fun hxy => hy hxy.symm]
      rfl

omit [DecidableEq ι] in
theorem xchg_some (h : m.xchg i x v = some m') :
    m.buf i = [] ∧ m'.mem = Function.update m.mem x v ∧ m'.buf = m.buf := by
  unfold xchg at h
  split at h
  · cases h
    exact ⟨‹_›, rfl, rfl⟩
  · cases h

end Memory

end Ops
