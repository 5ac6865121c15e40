import Mathlib.Data.List.Nodup
import Mathlib.Logic.Function.Basic
import Ops.Lib.Transition

/-!
# Opening FIFOs in an order (`13_fifo_deadlock.c`)

The child opens the FIFOs for reading and the parent opens them for writing, each in its own order.
`open` comes back when the other process has called it for the same FIFO. So the two processes end
if and only if their orders are the same (`ends_iff`): each FIFO is a meeting point.
-/

namespace Ops.Fifo.Opening

inductive Process where
  | child
  | parent
  deriving DecidableEq, Repr

/-- `open i` has been called, and not come back. -/
inductive Pc where
  | call (i : Nat)
  | open (i : Nat)
  | closed
  | returned
  deriving DecidableEq, Repr

structure State where
  pc : Process → Pc

variable {φ : Type}

def Process.other : Process → Process
  | child => parent
  | parent => child

def State.goto (s : State) (p : Process) (c : Pc) : State := ⟨Function.update s.pc p c⟩

def Pc.calls (n : Nat) : Pc → Nat
  | call i => i
  | .open i => i + 1
  | closed | returned => n

/-- The FIFOs that a process has opened or is opening. -/
def State.begun (order : Process → List φ) (s : State) (p : Process) : List φ :=
  (order p).take ((s.pc p).calls (order p).length)

/-- `main`; the parent waits for the child. -/
def State.next [DecidableEq φ] (order : Process → List φ) (s : State) (p : Process) :
    Option State :=
  match s.pc p with
  | .call i => some (s.goto p (if i < (order p).length then .open i else .closed))
  | .open i =>
    match (order p)[i]? with
    | some fifo =>
      if fifo ∈ s.begun order p.other then some (s.goto p (.call (i + 1))) else none
    | none => none
  | .closed =>
    if p = .parent ∧ s.pc .child ≠ .returned then none else some (s.goto p .returned)
  | .returned => none

def State.start : State := ⟨fun _ => .call 0⟩

def program [DecidableEq φ] (order : Process → List φ) : LTS State Process where
  Init s := s = .start
  next := State.next order

def State.Ended (s : State) : Prop := ∀ p, s.pc p = .returned

variable {order : Process → List φ} {s t : State} {p q : Process} {n i : Nat}

theorem other_ne (p : Process) : p.other ≠ p := by cases p <;> exact nofun

theorem other_other (p : Process) : p.other.other = p := by cases p <;> rfl

def Pc.opened (n : Nat) : Pc → Nat
  | call i | .open i => i
  | closed | returned => n

/-- The steps to the end. -/
def Pc.weight (n : Nat) : Pc → Nat
  | call i => 2 * (n - i) + 2
  | .open i => 2 * (n - i) + 1
  | closed => 1
  | returned => 0

def Pc.Fits (n : Nat) : Pc → Prop
  | call i => i ≤ n
  | .open i => i < n
  | closed | returned => True

namespace Pc

theorem calls_le_opened (n : Nat) (c : Pc) : c.calls n ≤ c.opened n + 1 := by
  cases c with
  | call i | closed | returned => exact Nat.le_succ _
  | «open» i => exact Nat.le_refl _

end Pc

structure Inv (order : Process → List φ) (s : State) : Prop where
  fits : ∀ p, (s.pc p).Fits (order p).length
  /-- What has been opened, both have opened in the same order. -/
  agree : ∀ p, (order .child).take ((s.pc p).opened (order p).length) =
    (order .parent).take ((s.pc p).opened (order p).length)
  waits : s.pc .parent = .returned → s.pc .child = .returned

def State.weight (order : Process → List φ) (s : State) : Nat :=
  (s.pc .child).weight (order .child).length + (s.pc .parent).weight (order .parent).length

theorem weight_lt {c : Pc}
    (h : c.weight (order p).length < (s.pc p).weight (order p).length) :
    (s.goto p c).weight order < s.weight order := by
  cases p with
  | child =>
    simp only [State.weight, State.goto, Function.update_self]
    simpa [Process.other, Function.update_of_ne] using h
  | parent =>
    simp only [State.weight, State.goto, Function.update_self]
    simpa [Process.other, Function.update_of_ne] using h

theorem agree_iff (order : Process → List φ) (p : Process) (n : Nat) :
    (order .child).take n = (order .parent).take n ↔
      (order p).take n = (order p.other).take n := by
  cases p with
  | child => exact Iff.rfl
  | parent => exact eq_comm

theorem not_mem_take {l : List φ} {fifo : φ} (hl : l.Nodup) (hi : l[i]? = some fifo) :
    fifo ∉ l.take i := by
  have hnodup : (l.take (i + 1)).Nodup := hl.sublist (List.take_sublist ..)
  rw [List.take_add_one, hi] at hnodup
  exact fun hmem => (List.nodup_append.mp hnodup).2.2 fifo hmem fifo (by simp) rfl

theorem mem_take {l : List φ} {fifo : φ} (hi : l[i]? = some fifo) (hn : i < n) :
    fifo ∈ l.take n :=
  List.mem_of_getElem? ((List.getElem?_take_of_lt hn).trans hi)

namespace Inv

theorem start : Inv order .start where
  fits _ := Nat.zero_le _
  agree _ := rfl
  waits h := by cases h

theorem move {c : Pc} (h : Inv order s) (hfits : c.Fits (order p).length)
    (hagree : (order p).take (c.opened (order p).length) =
      (order p.other).take (c.opened (order p).length))
    (hp : s.pc p ≠ .returned) (hwaits : p = .parent → c = .returned → s.pc .child = .returned) :
    Inv order (s.goto p c) := by
  refine ⟨fun q => ?_, fun q => ?_, fun hreturned => ?_⟩
  · show (Function.update s.pc p c q).Fits _
    by_cases hq : q = p
    · rw [hq, Function.update_self]
      exact hfits
    · rw [Function.update_of_ne hq]
      exact h.fits q
  · show (order .child).take ((Function.update s.pc p c q).opened _) =
      (order .parent).take ((Function.update s.pc p c q).opened _)
    by_cases hq : q = p
    · rw [hq, Function.update_self]
      exact (agree_iff order p _).mpr hagree
    · rw [Function.update_of_ne hq]
      exact h.agree q
  · cases p with
    | child => exact absurd (h.waits hreturned) hp
    | parent => exact hwaits rfl (by simpa [State.goto] using hreturned)

/-- When `open` comes back, it was for the same FIFO in both orders. -/
theorem meet {fifo : φ} (h : Inv order s) (hnodup : (order p).Nodup) (hpc : s.pc p = .open i)
    (hfifo : (order p)[i]? = some fifo) (hmem : fifo ∈ s.begun order p.other) :
    (order p).take (i + 1) = (order p.other).take (i + 1) := by
  have hown : (order p).take i = (order p.other).take i := by
    have hagree := (agree_iff order p _).mp (h.agree p)
    rwa [hpc] at hagree
  by_cases hahead : i + 1 ≤ (s.pc p.other).opened (order p.other).length
  · have hagree := congrArg (List.take (i + 1)) ((agree_iff order p _).mp (h.agree p.other))
    rwa [List.take_take, List.take_take, Nat.min_eq_left hahead] at hagree
  · -- the other process has not come further than to this FIFO
    have hcalls := (s.pc p.other).calls_le_opened (order p.other).length
    have hmem' : fifo ∈ (order p.other).take (i + 1) :=
      List.take_subset_take_left _ (by omega) hmem
    rw [List.take_add_one, ← hown, List.mem_append] at hmem'
    have hlast := hmem'.resolve_left (not_mem_take hnodup hfifo)
    rw [Option.mem_toList] at hlast
    rw [List.take_add_one, List.take_add_one, hown, hfifo, hlast]

theorem same (h : Inv order s) (hended : s.Ended) : order .child = order .parent := by
  have hchild := h.agree .child
  have hparent := h.agree .parent
  rw [hended] at hchild hparent
  have hchild' : order .child = (order .parent).take (order .child).length := by
    rwa [Pc.opened, List.take_length] at hchild
  have hparent' : (order .child).take (order .parent).length = order .parent := by
    rwa [Pc.opened, List.take_length] at hparent
  rcases Nat.le_total (order .child).length (order .parent).length with hle | hle
  · rwa [List.take_of_length_le hle] at hparent'
  · rwa [List.take_of_length_le hle] at hchild'

variable [DecidableEq φ]

theorem step (h : Inv order s) (hnodup : ∀ p, (order p).Nodup) (hn : s.next order p = some t) :
    Inv order t ∧ t.weight order < s.weight order := by
  have hfits := h.fits p
  have hagree := (agree_iff order p _).mp (h.agree p)
  unfold State.next at hn
  cases hpc : s.pc p with
  | call i =>
    rw [hpc] at hfits hagree
    have hle : i ≤ (order p).length := hfits
    simp only [hpc, Option.some.injEq] at hn
    subst hn
    by_cases hi : i < (order p).length
    · rw [if_pos hi]
      exact ⟨h.move hi hagree (by rw [hpc]; nofun) nofun,
        weight_lt (by rw [hpc]; exact Nat.lt_succ_self _)⟩
    · rw [if_neg hi]
      have hall : (order p).length = i := by omega
      refine ⟨h.move trivial ?_ (by rw [hpc]; nofun) nofun, weight_lt ?_⟩
      · show (order p).take (order p).length = (order p.other).take (order p).length
        rw [hall]
        exact hagree
      · rw [hpc]
        simp only [Pc.weight]
        omega
  | «open» i =>
    rw [hpc] at hfits
    have hlt : i < (order p).length := hfits
    simp only [hpc] at hn
    cases hfifo : (order p)[i]? with
    | none => simp [hfifo] at hn
    | some fifo =>
      simp only [hfifo] at hn
      split at hn
      · rename_i hmem
        cases hn
        refine ⟨h.move hlt (h.meet (hnodup p) hpc hfifo hmem) (by rw [hpc]; nofun) nofun,
          weight_lt ?_⟩
        rw [hpc]
        simp only [Pc.weight]
        omega
      · cases hn
  | closed =>
    rw [hpc] at hagree
    simp only [hpc] at hn
    split at hn
    · cases hn
    · rename_i hwait
      cases hn
      refine ⟨h.move trivial hagree (by rw [hpc]; nofun) fun hp _ => ?_,
        weight_lt (by rw [hpc]; exact Nat.zero_lt_one)⟩
      exact Classical.not_not.mp fun hchild => hwait ⟨hp, hchild⟩
  | returned => simp [hpc] at hn

theorem reach (hnodup : ∀ p, (order p).Nodup) (hs : (program order).Reach s) : Inv order s := by
  refine hs.inv (I := Inv order) ?_ fun _ _ _ _ hi hn => (hi.step hnodup hn).1
  rintro _ rfl
  exact .start

/-- `open` comes back where the other process has come as far. -/
theorem opens (h : Inv order s) (hsame : order p = order p.other) (hpc : s.pc p = .open i)
    (hcalls : i < (s.pc p.other).calls (order p.other).length) :
    ∃ t, s.next order p = some t := by
  have hfits := h.fits p
  rw [hpc] at hfits
  have hlt : i < (order p).length := hfits
  have hfifo := List.getElem?_eq_getElem hlt
  have hmem : (order p)[i] ∈ s.begun order p.other := mem_take (hsame ▸ hfifo) hcalls
  exact ⟨s.goto p (.call (i + 1)), by simp [State.next, hpc, hfifo, hmem]⟩

theorem goes (h : Inv order s) (hsame : order .child = order .parent) (hended : ¬ s.Ended) :
    ∃ p t, s.next order p = some t := by
  cases hpc : s.pc .child with
  | call i => exact ⟨.child, by simp [State.next, hpc]⟩
  | closed => exact ⟨.child, by simp [State.next, hpc]⟩
  | returned =>
    cases hpc' : s.pc .parent with
    | call i => exact ⟨.parent, by simp [State.next, hpc']⟩
    | «open» j =>
      have hfits := h.fits .parent
      rw [hpc'] at hfits
      refine ⟨.parent, h.opens hsame.symm hpc' ?_⟩
      show j < (s.pc .child).calls (order .child).length
      rw [hpc, hsame]
      exact hfits
    | closed => exact ⟨.parent, by simp [State.next, hpc, hpc']⟩
    | returned =>
      refine absurd (fun p => ?_) hended
      cases p with
      | child => exact hpc
      | parent => exact hpc'
  | «open» i =>
    have hfits := h.fits .child
    rw [hpc] at hfits
    have hlt : i < (order .child).length := hfits
    cases hpc' : s.pc .parent with
    | call j => exact ⟨.parent, by simp [State.next, hpc']⟩
    | «open» j =>
      -- who is behind can go on
      rcases Nat.lt_or_ge j (i + 1) with hji | hij
      · refine ⟨.parent, h.opens hsame.symm hpc' ?_⟩
        show j < (s.pc .child).calls _
        rw [hpc]
        exact hji
      · refine ⟨.child, h.opens hsame hpc ?_⟩
        show i < (s.pc .parent).calls _
        rw [hpc']
        exact Nat.lt_succ_of_lt hij
    | closed | returned =>
      refine ⟨.child, h.opens hsame hpc ?_⟩
      show i < (s.pc .parent).calls (order .parent).length
      rw [hpc', ← hsame]
      exact hlt

end Inv

/-- **The order of opening decides**: every run is short, and the two processes can end if and only
if they open the FIFOs in the same order; then they end in every run. -/
theorem ends_iff [DecidableEq φ] (order : Process → List φ) (hnodup : ∀ p, (order p).Nodup) :
    ((∃ s, (program order).Reach s ∧ s.Ended) ↔ order .child = order .parent) ∧
      (order .child = order .parent → ∀ s, (program order).Reach s → ¬ s.Ended →
        ∃ p t, s.next order p = some t) ∧
      ∀ ps s, (program order).exec .start ps = some s →
        ps.length ≤ 2 * ((order .child).length + (order .parent).length) + 4 := by
  have hstep : ∀ s p t, Inv order s → (program order).next s p = some t →
      Inv order t ∧ t.weight order < s.weight order := fun _ _ _ hi hn => hi.step hnodup hn
  refine ⟨⟨?_, fun hsame => ?_⟩, fun hsame s hs hended => ?_, fun ps s hs => ?_⟩
  · rintro ⟨s, hs, hended⟩
    exact (Inv.reach hnodup hs).same hended
  · obtain ⟨ps, s, -, hs, -, hended⟩ := LTS.run_to (L := program order) (P := fun _ => True)
      (I := Inv order) (G := State.Ended) (State.weight order) (fun s hi => by
        refine (Classical.em s.Ended).imp id fun hended => ?_
        obtain ⟨p, t, hn⟩ := hi.goes hsame hended
        exact ⟨p, t, trivial, hn, hstep s p t hi hn⟩) Inv.start
    exact ⟨s, LTS.Reach.exec (.init rfl) hs, hended⟩
  · exact (Inv.reach hnodup hs).goes hsame hended
  · have hle := LTS.along_length (State.weight order) (fun s p t hi _ hn => hstep s p t hi hn)
      Inv.start (LTS.along_true _ ps) hs
    refine Nat.le_trans (Nat.le_of_add_right_le hle) (Nat.le_of_eq ?_)
    simp only [State.weight, State.start, Pc.weight]
    omega

/-- The orders of the program. -/
def fifo_deadlock : Process → List String
  | .child => ["my1.fifo", "my2.fifo"]
  | .parent => ["my2.fifo", "my1.fifo"]

/-- The program never ends. -/
theorem fifo_deadlock_stuck : ¬ ∃ s, (program fifo_deadlock).Reach s ∧ s.Ended :=
  fun hends => absurd ((ends_iff fifo_deadlock (by rintro (_ | _) <;> decide)).1.mp hends)
    (by decide)

end Ops.Fifo.Opening
