import Ops.Lib.Cycle
import Ops.Posix.Fds

/-!
# Second process ring (`task60smth.c`)

`create_pipes_and_children` closes ends by modular indices and does not look at what
`close` returns. A child keeps the writing end of the pipe before its own and passes that
of the pipe after it to `child_work`; the parent closes all ends and passes two of them to
`parent_work`. So for no number of children do the processes form a ring.
-/

namespace Ops.Ring.Modular

open Posix (End Fds)

/-- A process that calls `parent_work` or `child_work`, with the pipes of the two
descriptors that it passes. -/
structure Worker where
  fds : Fds
  readp : Nat
  writep : Nat

/-- The parent before its first `fork`. -/
def pipes (n : Nat) : Fds := (List.range n).foldl Fds.pipe Fds.none

def closeChild (n i : Nat) (fds : Fds) (j : Nat) : Fds :=
  let fds := if j ≠ i then fds.tryClose .read j else fds
  if (j + 1) % n ≠ i then fds.tryClose .write j else fds

def closeParent (fds : Fds) (i : Nat) : Fds := (fds.tryClose .read i).tryClose .write i

def child (n i : Nat) : Worker where
  fds := (List.range n).foldl (closeChild n i) (pipes n)
  readp := i
  writep := (i + 1) % n

def parent (n : Nat) : Worker where
  fds := (List.range n).foldl closeParent (pipes n)
  readp := 0
  writep := n - 1

/-- The parent is process 0. -/
def createPipesAndChildren (n : Nat) : Nat → Worker
  | 0 => parent n
  | i + 1 => child n i

namespace Worker

def Reads (w : Worker) (j : Nat) : Prop := j = w.readp ∧ w.fds .read j = true

def Writes (w : Worker) (j : Nat) : Prop := j = w.writep ∧ w.fds .write j = true

end Worker

/-- The descriptors that are used are open, each used pipe has one reader and one writer,
and the processes form one ring. -/
structure Consistent (n : Nat) : Prop where
  opened : ∀ p, p ≤ n → ((createPipesAndChildren n p).Reads (createPipesAndChildren n p).readp ∧
    (createPipesAndChildren n p).Writes (createPipesAndChildren n p).writep)
  one : ∀ p, p ≤ n → ∀ j, j = (createPipesAndChildren n p).readp ∨
    j = (createPipesAndChildren n p).writep →
    (∃! k, k ≤ n ∧ (createPipesAndChildren n k).Reads j) ∧
    ∃! k, k ≤ n ∧ (createPipesAndChildren n k).Writes j
  ring : SingleCycle fun p k : Fin (n + 1) =>
    ∃ j, (createPipesAndChildren n p).Writes j ∧ (createPipesAndChildren n k).Reads j

variable {n i j : Nat} {e : End}

theorem pipes_iff : pipes n e j = true ↔ j < n := by
  unfold pipes
  rw [Fds.foldl_pipe]
  simp

theorem closeParent_iff (fds : Fds) (k : Nat) (e : End) (j : Nat) :
    closeParent fds k e j = true ↔ fds e j = true ∧ ¬ j = k := by
  unfold closeParent
  rw [Fds.tryClose_iff, Fds.tryClose_iff]
  cases e <;> simp

theorem closeChild_iff (fds : Fds) (k : Nat) (e : End) (j : Nat) :
    closeChild n i fds k e j = true ↔
      fds e j = true ∧ ¬ (j = k ∧ (e = .read ∧ k ≠ i ∨ e = .write ∧ (k + 1) % n ≠ i)) := by
  unfold closeChild
  cases e <;> split <;> split <;> simp_all

theorem parent_fds : (parent n).fds e j = false := by
  refine Bool.eq_false_iff.mpr fun hopen => ?_
  have hfold := (Fds.foldl_drops closeParent_iff (List.range n) (pipes n)).mp hopen
  exact hfold.2 j (List.mem_range.mpr (pipes_iff.mp hfold.1)) rfl

theorem child_fds : (child n i).fds e j = true ↔
    j < n ∧ (e = .read → j = i) ∧ (e = .write → (j + 1) % n = i) := by
  refine (Fds.foldl_drops closeChild_iff (List.range n) (pipes n)).trans ?_
  rw [pipes_iff]
  constructor
  · rintro ⟨hj, hall⟩
    have hkept := hall j (List.mem_range.mpr hj)
    refine ⟨hj, fun he => ?_, fun he => ?_⟩
    · by_contra hne
      exact hkept ⟨rfl, .inl ⟨he, hne⟩⟩
    · by_contra hne
      exact hkept ⟨rfl, .inr ⟨he, hne⟩⟩
  · rintro ⟨hj, hread, hwrite⟩
    refine ⟨hj, ?_⟩
    rintro k - ⟨rfl, ⟨he, hne⟩ | ⟨he, hne⟩⟩
    · exact hne (hread he)
    · exact hne (hwrite he)

theorem parent_idle (j : Nat) : ¬ (parent n).Reads j ∧ ¬ (parent n).Writes j := by
  constructor
  · rintro ⟨-, hopen⟩
    rw [parent_fds] at hopen
    cases hopen
  · rintro ⟨-, hopen⟩
    rw [parent_fds] at hopen
    cases hopen

theorem not_consistent : ¬ Consistent n := fun h =>
  (parent_idle _).1 (h.opened 0 (Nat.zero_le n)).1

/-- The parent feeds no process, so there is no ring even where the children are right. -/
theorem not_ring : ¬ SingleCycle fun p k : Fin (n + 1) =>
    ∃ j, (createPipesAndChildren n p).Writes j ∧ (createPipesAndChildren n k).Reads j := by
  rintro ⟨σ, -, -, hfeeds⟩
  obtain ⟨j, hwrites, -⟩ := (hfeeds 0 (σ 0)).mpr rfl
  exact (parent_idle j).2 hwrites

theorem add_two_mod (hi : i < n) : (i + 2) % n = i ↔ n ≤ 2 := by
  by_cases hwrap : i + 2 < n
  · rw [Nat.mod_eq_of_lt hwrap]
    omega
  · by_cases hsmall : n ≤ 2
    · have hcases : n = 1 ∧ i = 0 ∨ n = 2 ∧ i = 0 ∨ n = 2 ∧ i = 1 := by omega
      rcases hcases with ⟨rfl, rfl⟩ | ⟨rfl, rfl⟩ | ⟨rfl, rfl⟩ <;> decide
    · rw [show i + 2 = i + 2 - n + n by omega, Nat.add_mod_right, Nat.mod_eq_of_lt (by omega)]
      omega

theorem child_writes (hi : i < n) : (child n i).Writes ((i + 1) % n) ↔ n ≤ 2 := by
  have hopen : (child n i).Writes ((i + 1) % n) ↔ ((i + 1) % n + 1) % n = i := by
    unfold Worker.Writes
    rw [child_fds]
    simp [child, Nat.mod_lt _ (show 0 < n by omega)]
  rw [hopen, Nat.mod_add_mod]
  exact add_two_mod hi

theorem child_reads (hi : i < n) : (child n i).Reads i := by
  refine ⟨rfl, child_fds.mpr ⟨hi, fun _ => rfl, nofun⟩⟩

/-- **Never a ring.** The parent has closed both ends that it uses, so no process feeds it
or is fed by it; a child can read, and has closed the end that it writes to as soon as
there are three children. -/
theorem never_consistent (n : Nat) :
    ¬ Consistent n ∧
    ((parent n).fds .read 0 = false ∧ (parent n).fds .write (n - 1) = false) ∧
    (∀ i, i < n → (child n i).Reads i ∧ ((child n i).Writes ((i + 1) % n) ↔ n ≤ 2)) ∧
    ¬ SingleCycle fun p k : Fin (n + 1) =>
      ∃ j, (createPipesAndChildren n p).Writes j ∧ (createPipesAndChildren n k).Reads j :=
  ⟨not_consistent, ⟨parent_fds, parent_fds⟩, fun _ hi => ⟨child_reads hi, child_writes hi⟩,
    not_ring⟩

/-- The five children of `main`. -/
theorem ring_of_five : (createPipesAndChildren 5 0).fds .read 0 = false ∧
    (createPipesAndChildren 5 1).fds .write 1 = false ∧ ¬ Consistent 5 := by
  have hparent : (createPipesAndChildren 5 0).fds .read 0 = false := by decide
  refine ⟨hparent, by decide, fun h => ?_⟩
  have hopen := (h.opened 0 (by decide)).1.2
  exact absurd (hparent.symm.trans hopen) (by decide)

end Ops.Ring.Modular
