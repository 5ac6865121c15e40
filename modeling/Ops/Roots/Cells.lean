import Ops.Lib.Update
import Ops.Roots.Process

/-!
# Every cell at most once

The mutex of a cell is held from the test to the store of its root, so a cell is
computed by one thread. A thread that returns has found a root in every cell of a
probe sequence.
-/

namespace Ops.Roots

open Posix (Locks)

def Pc.holds : Pc → Option Nat
  | .test _ index | .pass _ index | .quit index | .mark index | .compute index | .unlock index =>
    some index
  | _ => none

def Pc.unlocks : Pc → Option Nat
  | .pass _ index | .quit index | .unlock index => some index
  | _ => none

/-- The cell that the loop of `child_thread` tests in round `j`, from the draw `x` on. -/
def probe (SizeofArray x : Nat) : Nat → Nat
  | 0 => x % SizeofArray
  | j + 1 => (probe SizeofArray x j + j) % SizeofArray

variable {T SizeofArray : Nat} {s t : State T} {p : Fin T}

/-- What a thread knows by its place. -/
def State.Fits (SizeofArray : Nat) (s : State T) : Pc → Prop
  | .lock index => ∃ x, index = probe SizeofArray x 0
  | .test i index => ∃ x, index = probe SizeofArray x i ∧
      ∀ j, j < i → s.calculatedCells (probe SizeofArray x j) ≠ 0
  | .pass i index => ∃ x, index = probe SizeofArray x i ∧
      ∀ j, j < i + 1 → s.calculatedCells (probe SizeofArray x j) ≠ 0
  | .relock i index => ∃ x, index = probe SizeofArray x (i + 1) ∧
      ∀ j, j < i + 1 → s.calculatedCells (probe SizeofArray x j) ≠ 0
  | .quit _ | .done => ∃ x, ∀ j, j < SizeofArray → s.calculatedCells (probe SizeofArray x j) ≠ 0
  | .mark index => s.calculatedCells index = 0
  | .compute index => s.calculatedCells index ≠ 0 ∧ s.computed index = []
  | _ => True

/-- What a step of a thread can do. -/
inductive Deed (SizeofArray : Nat) (s : State T) (p : Fin T) : State T → Prop where
  | moved {c : Pc} : c.holds = (s.pc p).holds → (s.Fits SizeofArray (s.pc p) → s.Fits SizeofArray c) →
      (∀ index, s.pc p ≠ .compute index) → Deed SizeofArray s p (s.goto p c)
  | locked {m : Nat} {l : Locks Nat (Fin T)} {c : Pc} : s.locks.lock m p = some l →
      (s.pc p).holds = none → c.holds = some m →
      (s.Fits SizeofArray (s.pc p) → s.Fits SizeofArray c) →
      Deed SizeofArray s p ({ s with locks := l }.goto p c)
  | unlocked {m : Nat} {l : Locks Nat (Fin T)} {c : Pc} : s.locks.unlock m p = some l →
      (s.pc p).holds = some m → c.holds = none →
      (s.Fits SizeofArray (s.pc p) → s.Fits SizeofArray c) →
      (∀ index, s.pc p ≠ .compute index) → Deed SizeofArray s p ({ s with locks := l }.goto p c)
  | marked {index : Nat} : s.pc p = .mark index → Deed SizeofArray s p
      ({ s with calculatedCells := Function.update s.calculatedCells index (-1) }.goto p
        (.compute index))
  | computed {index : Nat} : s.pc p = .compute index → Deed SizeofArray s p
      ({ s with computed := Function.update s.computed index (s.computed index ++ [p]) }.goto p
        (.unlock index))

theorem moved_deed {c c' : Pc} (hpc : s.pc p = c) (hholds : c'.holds = c.holds)
    (hfits : s.Fits SizeofArray c → s.Fits SizeofArray c') (hc : ∀ index, c ≠ .compute index) :
    Deed SizeofArray s p (s.goto p c') := by
  subst hpc
  exact .moved hholds hfits hc

theorem lock_deed {m : Nat} {c c' : Pc} (h : s.lock m p c' = some t) (hpc : s.pc p = c)
    (hfree : c.holds = none) (hholds : c'.holds = some m)
    (hfits : s.Fits SizeofArray c → s.Fits SizeofArray c') : Deed SizeofArray s p t := by
  obtain ⟨l, hl, rfl⟩ := Option.map_eq_some_iff.mp h
  subst hpc
  exact .locked hl hfree hholds hfits

theorem unlock_deed {m : Nat} {c c' : Pc} (h : s.unlock m p c' = some t) (hpc : s.pc p = c)
    (hheld : c.holds = some m) (hholds : c'.holds = none)
    (hfits : s.Fits SizeofArray c → s.Fits SizeofArray c') (hc : ∀ index, c ≠ .compute index) :
    Deed SizeofArray s p t := by
  obtain ⟨l, hl, rfl⟩ := Option.map_eq_some_iff.mp h
  subst hpc
  exact .unlocked hl hheld hholds hfits hc

theorem child_deed {r : Nat} (h : s.child SizeofArray p r = some t) : Deed SizeofArray s p t := by
  unfold State.child at h
  cases hpc : s.pc p with
  | off | done => simp [hpc] at h
  | draw =>
    simp only [hpc] at h
    split at h
    · cases h
    · cases h
      exact moved_deed hpc rfl (fun _ => ⟨r, rfl⟩) (by simp)
  | lock index =>
    simp only [hpc] at h
    refine lock_deed h hpc rfl rfl fun ⟨x, hx⟩ => ⟨x, hx, ?_⟩
    omega
  | test i index =>
    simp only [hpc] at h
    split at h
    · cases h
      split
      · rename_i hzero
        exact moved_deed hpc rfl (fun _ => hzero) (by simp)
      · rename_i hdone
        refine moved_deed hpc rfl (fun ⟨x, hx, hseen⟩ => ⟨x, hx, fun j hj => ?_⟩) (by simp)
        by_cases hji : j = i
        · rw [hji, ← hx]
          exact hdone
        · exact hseen j (by omega)
    · rename_i hi
      cases h
      exact moved_deed hpc rfl (fun ⟨x, _, hseen⟩ => ⟨x, fun j hj => hseen j (by omega)⟩) (by simp)
  | pass i index =>
    simp only [hpc] at h
    refine unlock_deed h hpc rfl rfl (fun ⟨x, hx, hseen⟩ => ⟨x, ?_, hseen⟩) (by simp)
    rw [hx, probe]
  | relock i index =>
    simp only [hpc] at h
    exact lock_deed h hpc rfl rfl id
  | quit index =>
    simp only [hpc] at h
    exact unlock_deed h hpc rfl rfl id (by simp)
  | mark index =>
    simp only [hpc, Option.some.injEq] at h
    subst h
    exact .marked hpc
  | compute index =>
    simp only [hpc, Option.some.injEq] at h
    subst h
    exact .computed hpc
  | unlock index =>
    simp only [hpc] at h
    exact unlock_deed h hpc rfl rfl (fun _ => trivial) (by simp)

/-! ## The invariant -/

structure Inv (SizeofArray : Nat) (s : State T) : Prop where
  owned : s.locks.Owned fun q m => (s.pc q).holds = some m
  fits : ∀ q, s.Fits SizeofArray (s.pc q)
  once : ∀ c, (s.computed c).length ≤ 1
  unmarked : ∀ c, s.calculatedCells c = 0 → s.computed c = []
  marked : ∀ c, s.calculatedCells c ≠ 0 → s.computed c ≠ [] ∨ ∃ q, s.pc q = .compute c
  uncreated : ∀ q : Fin T, s.created ≤ q → s.pc q = .off

/-- A store of -1 keeps what a thread without that mutex knows. -/
theorem fits_mark {c : Pc} {index : Nat} (hc : c.holds ≠ some index) (h : s.Fits SizeofArray c) :
    State.Fits SizeofArray
      { s with calculatedCells := Function.update s.calculatedCells index (-1) } c := by
  have hkeep : ∀ k, s.calculatedCells k ≠ 0 →
      Function.update s.calculatedCells index (-1) k ≠ 0 := fun k hk => by
    by_cases hki : k = index
    · simp [hki]
    · rwa [Function.update_of_ne hki]
  cases c with
  | test i index' | pass i index' | relock i index' =>
    obtain ⟨x, hx, hseen⟩ := h
    exact ⟨x, hx, fun j hj => hkeep _ (hseen j hj)⟩
  | quit index' | done =>
    obtain ⟨x, hseen⟩ := h
    exact ⟨x, fun j hj => hkeep _ (hseen j hj)⟩
  | mark index' =>
    have hne : index' ≠ index := fun he => hc (by rw [he]; rfl)
    simpa [State.Fits, hne] using h
  | compute index' => exact ⟨hkeep _ h.1, h.2⟩
  | off | draw | lock _ | unlock _ => exact h

/-- A store of a root keeps what a thread without that mutex knows. -/
theorem fits_compute {c : Pc} {index : Nat} (hc : c.holds ≠ some index)
    (h : s.Fits SizeofArray c) (roots : List (Fin T)) :
    State.Fits SizeofArray { s with computed := Function.update s.computed index roots } c := by
  cases c with
  | compute index' =>
    have hne : index' ≠ index := fun he => hc (by rw [he]; rfl)
    simpa [State.Fits, hne] using h
  | _ => exact h

namespace Inv

theorem goto_uncreated (h : Inv SizeofArray s) (hon : s.pc p ≠ .off) (c : Pc) (q : Fin T)
    (hq : s.created ≤ q) : (s.goto p c).pc q = .off := by
  have hoff := h.uncreated q hq
  have hne : q ≠ p := fun hqp => hon (hqp ▸ hoff)
  simp [State.goto, hne, hoff]

/-- A step that stores nothing, and not from the place before the root is stored. -/
theorem step_frame (h : Inv SizeofArray s) (hon : s.pc p ≠ .off) {c : Pc} {l : Locks Nat (Fin T)}
    (howned : l.Owned fun q m => ((s.goto p c).pc q).holds = some m)
    (hfits : s.Fits SizeofArray (s.pc p) → s.Fits SizeofArray c)
    (hc : ∀ index, s.pc p ≠ .compute index) :
    Inv SizeofArray ({ s with locks := l }.goto p c) := by
  refine ⟨howned, fun q => update_keeps (P := s.Fits SizeofArray) (h.fits q) hfits, h.once,
    h.unmarked, fun k hk => (h.marked k hk).imp_right fun ⟨q, hq⟩ => ⟨q, ?_⟩,
    h.goto_uncreated hon c⟩
  have hne : q ≠ p := fun hqp => hc k (hqp ▸ hq)
  simp [State.goto, hne, hq]

theorem alone (h : Inv SizeofArray s) {m : Nat} (hp : (s.pc p).holds = some m) {q : Fin T}
    (hq : q ≠ p) : (s.pc q).holds ≠ some m :=
  fun hheld => hq (h.owned.one hheld hp)

theorem mark (h : Inv SizeofArray s) (hon : s.pc p ≠ .off) {index : Nat}
    (hpc : s.pc p = .mark index) :
    Inv SizeofArray ({ s with
      calculatedCells := Function.update s.calculatedCells index (-1) }.goto p (.compute index)) := by
  have hheld : (s.pc p).holds = some index := by rw [hpc]; rfl
  have hzero : s.calculatedCells index = 0 := by simpa [hpc, State.Fits] using h.fits p
  refine ⟨h.owned.move (by rw [hpc]; rfl), fun q => ?_, h.once, fun k hk => ?_, fun k hk => ?_,
    h.goto_uncreated hon _⟩
  · by_cases hq : q = p
    · simpa [hq, State.goto, State.Fits] using h.unmarked index hzero
    · simp only [State.goto, Function.update_of_ne hq]
      exact fits_mark (h.alone hheld hq) (h.fits q)
  · by_cases hki : k = index
    · simp [State.goto, hki] at hk
    · exact h.unmarked k (by simpa [State.goto, hki] using hk)
  · by_cases hki : k = index
    · exact .inr ⟨p, by simp [State.goto, hki]⟩
    · refine (h.marked k (by simpa [State.goto, hki] using hk)).imp_right fun ⟨q, hq⟩ => ⟨q, ?_⟩
      have hne : q ≠ p := fun hqp => by
        rw [hqp, hpc] at hq
        cases hq
      simp [State.goto, hne, hq]

theorem compute (h : Inv SizeofArray s) (hon : s.pc p ≠ .off) {index : Nat}
    (hpc : s.pc p = .compute index) :
    Inv SizeofArray ({ s with
      computed := Function.update s.computed index (s.computed index ++ [p]) }.goto p
        (.unlock index)) := by
  have hheld : (s.pc p).holds = some index := by rw [hpc]; rfl
  obtain ⟨hcell, hnone⟩ : s.calculatedCells index ≠ 0 ∧ s.computed index = [] := by
    simpa [hpc, State.Fits] using h.fits p
  refine ⟨h.owned.move (by rw [hpc]; rfl), fun q => ?_, fun k => ?_, fun k hk => ?_,
    fun k hk => ?_, h.goto_uncreated hon _⟩
  · by_cases hq : q = p
    · simp [hq, State.goto, State.Fits]
    · simp only [State.goto, Function.update_of_ne hq]
      exact fits_compute (h.alone hheld hq) (h.fits q) _
  · by_cases hki : k = index
    · simp [State.goto, hki, hnone]
    · simpa [State.goto, hki] using h.once k
  · have hki : k ≠ index := fun hki => hcell (by simpa [State.goto, hki] using hk)
    simpa [State.goto, hki] using h.unmarked k hk
  · by_cases hki : k = index
    · simp [State.goto, hki]
    · refine (h.marked k hk).imp (fun hroot => by simpa [State.goto, hki] using hroot)
        fun ⟨q, hq⟩ => ⟨q, ?_⟩
      have hne : q ≠ p := fun hqp => by
        rw [hqp, hpc] at hq
        cases hq
        exact hki rfl
      simp [State.goto, hne, hq]

theorem step {act : Act T} (h : Inv SizeofArray s) (hn : s.next SizeofArray act = some t) :
    Inv SizeofArray t := by
  cases act with
  | create =>
    simp only [State.next] at hn
    split at hn
    · rename_i hlt
      cases hn
      have hoff := h.uncreated ⟨s.created, hlt⟩ (Nat.le_refl _)
      refine ⟨h.owned.move (by rw [hoff]; rfl),
        fun q => update_keeps (P := s.Fits SizeofArray) (h.fits q) fun _ => trivial, h.once,
        h.unmarked, fun k hk => (h.marked k hk).imp_right fun ⟨q, hq⟩ => ⟨q, ?_⟩, fun q hq => ?_⟩
      · have hle : s.created + 1 ≤ q := hq
        have hne : q ≠ ⟨s.created, hlt⟩ := fun hqp => by
          rw [hqp] at hle
          exact absurd hle (by simp)
        simpa [State.goto, hne] using h.uncreated q (by omega)
      · have hne : q ≠ ⟨s.created, hlt⟩ := fun hqp => by
          rw [hqp, hoff] at hq
          cases hq
        simp [State.goto, hne, hq]
    · cases hn
  | thread p r =>
    simp only [State.next] at hn
    have hon : s.pc p ≠ .off := fun hoff => by simp [State.child, hoff] at hn
    cases child_deed hn with
    | moved hholds hfits hc => exact h.step_frame hon (h.owned.move hholds) hfits hc
    | locked hl hfree hholds hfits =>
      refine h.step_frame hon (h.owned.take hl hfree hholds) hfits fun index hpc => ?_
      rw [hpc] at hfree
      cases hfree
    | unlocked hl hheld hholds hfits hc =>
      exact h.step_frame hon (h.owned.drop hl hheld hholds) hfits hc
    | marked hpc => exact h.mark hon hpc
    | computed hpc => exact h.compute hon hpc

theorem start : Inv SizeofArray (Roots.start T) :=
  ⟨by simp [Locks.Owned, Roots.start, Pc.holds], fun _ => trivial, fun _ => Nat.zero_le 1,
    fun _ _ => rfl, fun _ hk => absurd rfl hk, fun _ _ => rfl⟩

theorem reach (h : (roots SizeofArray T).Reach s) : Inv SizeofArray s := by
  refine h.inv (I := Inv SizeofArray) ?_ fun _ _ _ _ hi hn => hi.step hn
  rintro _ rfl
  exact .start

/-- A thread unlocks the mutex that it holds, and it holds no other. -/
theorem unlocks (h : Inv SizeofArray s) {m : Nat} (hm : (s.pc p).unlocks = some m) :
    s.locks m = some p ∧ ∀ k, s.locks k = some p → k = m := by
  have hheld : (s.pc p).holds = some m := by
    cases hpc : s.pc p <;> simp_all [Pc.unlocks, Pc.holds]
  refine ⟨(h.owned m p).mpr hheld, fun k hk => ?_⟩
  have hk' := (h.owned k p).mp hk
  simpa [hheld, eq_comm] using hk'

/-- When all threads have returned, the cells of a probe sequence have their roots. -/
theorem returned (h : Inv SizeofArray s) (hall : ∀ q, s.pc q = .done) (p : Fin T) :
    ∃ x, ∀ j, j < SizeofArray → s.computed (probe SizeofArray x j) ≠ [] := by
  have hfits := h.fits p
  rw [hall p] at hfits
  obtain ⟨x, hseen⟩ := hfits
  refine ⟨x, fun j hj => ?_⟩
  rcases h.marked _ (hseen j hj) with hroot | ⟨q, hq⟩
  · exact hroot
  · rw [hall q] at hq
    cases hq

end Inv

end Ops.Roots
