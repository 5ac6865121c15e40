import Ops.Lib.Cycle
import Ops.Philosophers.Process

/-!
# The only deadlock

Each chopstick lies on the table or is held by one of its two neighbours. When nobody can go on,
nobody has eaten with two chopsticks, and each one that waits for its right chopstick has a right
neighbour that holds it, and so does the same. Around the table that is everybody
(`philosophers`).
-/

namespace Ops.Philosophers

open Posix

variable {N ITERATIONS : Nat} {s t : State N} {i k : Fin N}

/-! ## Who holds a chopstick -/

namespace Pc

def holdsLeft : Pc → Nat
  | waitRight _ | eat _ | postRight _ | postLeft _ => 1
  | loop _ | waitLeft _ | think _ | done => 0

def holdsRight : Pc → Nat
  | eat _ | postRight _ => 1
  | loop _ | waitLeft _ | waitRight _ | postLeft _ | think _ | done => 0

def eats : Pc → Bool
  | eat _ => true
  | _ => false

def waitsRight : Pc → Bool
  | waitRight _ => true
  | _ => false

end Pc

theorem right_eq (i : Fin N) : right i = finRotate N i := Fin.ext (coe_rotate i).symm

theorem right_inj (h : right i = right k) : i = k := by
  rw [right_eq, right_eq] at h
  exact (finRotate N).injective h

theorem right_surj (i : Fin N) : ∃ k, right k = i :=
  ⟨(finRotate N).symm i, by rw [right_eq, Equiv.apply_symm_apply]⟩

theorem neighbours (hN : 2 ≤ N) : SingleCycle fun i k : Fin N => right i = k :=
  singleCycle_rotate hN fun _ _ => Fin.ext_iff.trans eq_comm

theorem right_ne (hN : 2 ≤ N) (i : Fin N) : right i ≠ i := by
  obtain ⟨σ, -, hmoves, hfeeds⟩ := neighbours hN
  exact fun hsame => hmoves i ((hfeeds i i).mp hsame)

/-! ## What should hold -/

/-- Everybody holds its left chopstick and waits for its right one. -/
def State.Deadlocked (s : State N) : Prop := ∀ i, (s.pc i).waitsRight = true

structure Correct (ITERATIONS : Nat) (s : State N) : Prop where
  apart : ∀ i, ¬ ((s.pc i).eats = true ∧ (s.pc (right i)).eats = true)
  chopsticks : ∀ i, s.chopsticks i ≤ 1
  stuck : (∃ i, s.pc i ≠ .done) ∧ (∀ i, s.next ITERATIONS i = none) ↔ s.Deadlocked

/-- The chopstick between `i` and its right neighbour has one place. -/
def Inv (s : State N) : Prop :=
  ∀ i, s.chopsticks (right i) + (s.pc (right i)).holdsLeft + (s.pc i).holdsRight = 1

namespace Inv

/-! ## Steps -/

/-- What a philosopher takes it holds, and the chopsticks of others stay where they are. -/
theorem move {c : Pc} {chopsticks : Fin N → Nat} (h : Inv s) (hN : 2 ≤ N)
    (hleft : chopsticks i + c.holdsLeft = s.chopsticks i + (s.pc i).holdsLeft)
    (hright : chopsticks (right i) + c.holdsRight =
      s.chopsticks (right i) + (s.pc i).holdsRight)
    (hothers : ∀ k, k ≠ i → k ≠ right i → chopsticks k = s.chopsticks k) :
    Inv { chopsticks := chopsticks, pc := Function.update s.pc i c } := by
  intro k
  have hk := h k
  show chopsticks (right k) + (Function.update s.pc i c (right k)).holdsLeft +
    (Function.update s.pc i c k).holdsRight = 1
  by_cases hself : k = i
  · subst hself
    rw [Function.update_of_ne (right_ne hN k), Function.update_self]
    omega
  · rw [Function.update_of_ne hself]
    by_cases hnext : right k = i
    · subst hnext
      rw [Function.update_self]
      omega
    · rw [Function.update_of_ne hnext, hothers (right k) hnext fun heq => hself (right_inj heq)]
      exact hk

theorem move_pc {c : Pc} (h : Inv s) (hN : 2 ≤ N) (hleft : c.holdsLeft = (s.pc i).holdsLeft)
    (hright : c.holdsRight = (s.pc i).holdsRight) :
    Inv { s with pc := Function.update s.pc i c } :=
  h.move hN (by rw [hleft]) (by rw [hright]) fun _ _ _ => rfl

theorem move_left {c : Pc} {v : Nat} (h : Inv s) (hN : 2 ≤ N)
    (hleft : v + c.holdsLeft = s.chopsticks i + (s.pc i).holdsLeft)
    (hright : c.holdsRight = (s.pc i).holdsRight) : Inv (s.put i (left i) v c) := by
  refine h.move hN ?_ ?_ fun k hk _ => Function.update_of_ne hk ..
  · unfold left
    rw [Function.update_self]
    exact hleft
  · unfold left
    rw [Function.update_of_ne (right_ne hN i), hright]

theorem move_right {c : Pc} {v : Nat} (h : Inv s) (hN : 2 ≤ N)
    (hleft : c.holdsLeft = (s.pc i).holdsLeft)
    (hright : v + c.holdsRight = s.chopsticks (right i) + (s.pc i).holdsRight) :
    Inv (s.put i (right i) v c) := by
  refine h.move hN ?_ ?_ fun k _ hk => Function.update_of_ne hk ..
  · rw [Function.update_of_ne (right_ne hN i).symm, hleft]
  · rw [Function.update_self]
    exact hright

theorem step (h : Inv s) (hN : 2 ≤ N) (hn : s.next ITERATIONS i = some t) : Inv t := by
  unfold State.next at hn
  split at hn
  all_goals rename_i hpc
  · cases hn
    refine h.move_pc hN ?_ ?_
    · rw [hpc]
      split <;> rfl
    · rw [hpc]
      split <;> rfl
  · obtain ⟨v, hv, rfl⟩ := Option.map_eq_some_iff.mp hn
    have hval : s.chopsticks i = v + 1 := semWait_some.mp hv
    exact h.move_left hN (by rw [hpc, hval]; rfl) (by rw [hpc]; rfl)
  · obtain ⟨v, hv, rfl⟩ := Option.map_eq_some_iff.mp hn
    exact h.move_right hN (by rw [hpc]; rfl) (by rw [hpc, semWait_some.mp hv]; rfl)
  · cases hn
    exact h.move_pc hN (by rw [hpc]; rfl) (by rw [hpc]; rfl)
  · cases hn
    exact h.move_right hN (by rw [hpc]; rfl) (by rw [hpc]; rfl)
  · cases hn
    exact h.move_left hN (by rw [hpc]; rfl) (by rw [hpc]; rfl)
  · cases hn
    exact h.move_pc hN (by rw [hpc]; rfl) (by rw [hpc]; rfl)
  · cases hn

theorem init : Inv (.start N) := fun _ => rfl

theorem reach (hN : 2 ≤ N) (hr : (table N ITERATIONS).Reach s) : Inv s :=
  LTS.Reach.inv (fun _ hs => hs ▸ init) (fun _ _ _ _ hi hn => hi.step hN hn) hr

/-! ## Stuck states -/

theorem holdsRight_of_stuck (hn : s.next ITERATIONS i = none) : (s.pc i).holdsRight = 0 := by
  unfold State.next at hn
  cases hpc : s.pc i with
  | eat | postRight => rw [hpc] at hn; cases hn
  | _ => rfl

/-- Nobody waits for its left chopstick, since no left neighbour has it. -/
theorem stuck_cases (h : Inv s) (hstuck : ∀ i, s.next ITERATIONS i = none)
    (i : Fin N) : s.pc i = .done ∨ (s.pc i).waitsRight = true ∧ s.chopsticks (right i) = 0 := by
  have hi := hstuck i
  unfold State.next at hi
  cases hpc : s.pc i with
  | done => exact .inl rfl
  | waitRight n =>
    rw [hpc] at hi
    exact .inr ⟨rfl, semWait_none.mp (Option.map_eq_none_iff.mp hi)⟩
  | waitLeft n =>
    rw [hpc] at hi
    have hzero : s.chopsticks i = 0 := semWait_none.mp (Option.map_eq_none_iff.mp hi)
    obtain ⟨k, rfl⟩ := right_surj i
    have hone := h k
    rw [hpc, holdsRight_of_stuck (hstuck k), hzero] at hone
    cases hone
  | _ => rw [hpc] at hi; cases hi

/-- Who waits for its right chopstick has a right neighbour that holds it. -/
theorem waits_next (h : Inv s) (hstuck : ∀ i, s.next ITERATIONS i = none)
    (hi : (s.pc i).waitsRight = true) : (s.pc (right i)).waitsRight = true := by
  have hone := h i
  rw [holdsRight_of_stuck (hstuck i)] at hone
  have hzero : s.chopsticks (right i) = 0 := by
    rcases h.stuck_cases hstuck i with hdone | ⟨-, hzero⟩
    · rw [hdone] at hi
      cases hi
    · exact hzero
  rcases h.stuck_cases hstuck (right i) with hdone | ⟨hwaits, -⟩
  · rw [hdone, hzero] at hone
    cases hone
  · exact hwaits

theorem deadlocked (h : Inv s) (hN : 2 ≤ N) (hsome : ∃ i, s.pc i ≠ .done)
    (hstuck : ∀ i, s.next ITERATIONS i = none) : s.Deadlocked := by
  obtain ⟨i, hi⟩ := hsome
  have hwaits := ((h.stuck_cases hstuck i).resolve_left hi).1
  exact (neighbours hN).all (fun i k hnext hw => hnext ▸ h.waits_next hstuck hw) hwaits

theorem stuck (h : Inv s) (hN : 2 ≤ N) (hdead : s.Deadlocked) :
    (∃ i, s.pc i ≠ .done) ∧ ∀ i, s.next ITERATIONS i = none := by
  have hpcs : ∀ i, ∃ n, s.pc i = .waitRight n := fun i => by
    have hi := hdead i
    cases hpc : s.pc i with
    | waitRight n => exact ⟨n, rfl⟩
    | _ => rw [hpc] at hi; cases hi
  refine ⟨⟨⟨0, by omega⟩, fun hdone => ?_⟩, fun i => ?_⟩
  · have hi := hdead ⟨0, by omega⟩
    rw [hdone] at hi
    cases hi
  · obtain ⟨n, hpc⟩ := hpcs i
    obtain ⟨m, hpc'⟩ := hpcs (right i)
    have hone := h i
    rw [hpc, hpc'] at hone
    have hzero : s.chopsticks (right i) = 0 := Nat.add_right_cancel (m := 1) hone
    unfold State.next
    rw [hpc]
    show (semWait (s.chopsticks (right i))).map _ = none
    rw [semWait_none.mpr hzero]
    rfl

theorem correct (h : Inv s) (hN : 2 ≤ N) : Correct ITERATIONS s where
  apart i := by
    rintro ⟨hi, hnext⟩
    have hone := h i
    cases hpc : s.pc i with
    | eat =>
      cases hpc' : s.pc (right i) with
      | eat =>
        rw [hpc, hpc'] at hone
        have htwo : s.chopsticks (right i) + 1 + 1 = 1 := hone
        omega
      | _ => rw [hpc'] at hnext; cases hnext
    | _ => rw [hpc] at hi; cases hi
  chopsticks i := by
    obtain ⟨k, rfl⟩ := right_surj i
    have hone := h k
    omega
  stuck := ⟨fun hs => h.deadlocked hN hs.1 hs.2, h.stuck hN⟩

end Inv

/-- **Dining philosophers.** Neighbours do not eat together, and the only deadlock is the one in
which everybody has its left chopstick. -/
theorem philosophers (N ITERATIONS : Nat) (hN : 2 ≤ N) :
    ∀ s, (table N ITERATIONS).Reach s → Correct ITERATIONS s :=
  fun _ hr => (Inv.reach hN hr).correct hN

/-- Two philosophers in the deadlock. -/
theorem philosophers_two :
    ∃ s, (table 2 1).Reach s ∧ s.Deadlocked ∧ Correct 1 s := by
  have hrun : ∃ s, (table 2 1).exec (.start 2) [0, 0, 1, 1] = some s ∧
      ∀ i, (s.pc i).waitsRight = true := ⟨_, rfl, by decide⟩
  obtain ⟨s, he, hdead⟩ := hrun
  have hr : (table 2 1).Reach s := LTS.Reach.exec (.init rfl) he
  exact ⟨s, hr, hdead, philosophers 2 1 (by decide) s hr⟩

end Ops.Philosophers
