/-!
# Ends of pipes

The descriptors of a process, as the ends of an array of pipes that it has open:
`fds[j][0]` is the reading and `fds[j][1]` the writing end of pipe `j`.
-/

namespace Ops.Posix

inductive End where
  | read
  | write
  deriving DecidableEq, Repr

/-- Which ends are open. -/
abbrev Fds := End → Nat → Bool

namespace Fds

def none : Fds := fun _ _ => false

/-- `pipe(fds[j])`. -/
def pipe (fds : Fds) (j : Nat) : Fds := fun e k => decide (k = j) || fds e k

/-- What a `close` leaves. -/
def without (fds : Fds) (e : End) (j : Nat) : Fds := fun e' k => fds e' k && !decide (e' = e ∧ k = j)

/-- `close`, which fails on a descriptor that is not open. -/
def close (fds : Fds) (e : End) (j : Nat) : Option Fds :=
  if fds e j then some (fds.without e j) else .none

/-- A `close` whose failure the code does not look at. -/
def tryClose (fds : Fds) (e : End) (j : Nat) : Fds := (fds.close e j).getD fds

variable {fds : Fds} {e e' : End} {j k : Nat}

@[simp] theorem none_apply : none e j = false := rfl

@[simp] theorem pipe_iff : fds.pipe j e k = true ↔ k = j ∨ fds e k = true := by
  simp [pipe]

@[simp] theorem without_iff : fds.without e j e' k = true ↔ fds e' k = true ∧ ¬ (e' = e ∧ k = j) := by
  simp only [without, Bool.and_eq_true, Bool.not_eq_true', decide_eq_false_iff_not]

@[simp] theorem tryClose_iff :
    fds.tryClose e j e' k = true ↔ fds e' k = true ∧ ¬ (e' = e ∧ k = j) := by
  unfold tryClose close
  split
  · exact without_iff
  · rename_i hclosed
    refine ⟨fun h => ⟨h, ?_⟩, And.left⟩
    rintro ⟨rfl, rfl⟩
    exact hclosed h

theorem close_open (h : fds e j = true) : fds.close e j = some (fds.without e j) := if_pos h

/-- A loop of closes; `Drops k` are the ends that its pass `k` closes. -/
theorem foldl_drops {pass : Fds → Nat → Fds} {Drops : Nat → End → Nat → Prop}
    (h : ∀ fds k e j, pass fds k e j = true ↔ fds e j = true ∧ ¬ Drops k e j) (l : List Nat)
    (fds : Fds) : l.foldl pass fds e j = true ↔ fds e j = true ∧ ∀ k ∈ l, ¬ Drops k e j := by
  induction l generalizing fds with
  | nil => simp
  | cons k l ih => rw [List.foldl_cons, ih, h, List.forall_mem_cons, and_assoc]

theorem foldl_pipe (l : List Nat) (fds : Fds) :
    l.foldl pipe fds e j = true ↔ j ∈ l ∨ fds e j = true := by
  induction l generalizing fds with
  | nil => simp
  | cons k l ih =>
    rw [List.foldl_cons, ih, pipe_iff, List.mem_cons, or_left_comm, or_assoc]

end Fds

end Ops.Posix
