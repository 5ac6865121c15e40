import Mathlib.Algebra.BigOperators.Fin
import Ops.Galton.Process
import Ops.Lib.Update

/-!
# Every ball is in one place

A ball waits, is in the hand of a thrower, or is in a bin; a ball in a bin is counted
in `ballsThrown` or its thrower is about to count it. So once `main` has seen
`ballsCount` balls thrown, no thrower has a ball and the bins no longer change.
-/

namespace Ops.Galton

open Posix (Party Locks)

def Pc.holds : Pc → Option Lock
  | .test | .loadWaiting | .storeWaiting _ | .unlockWaiting | .leave => some .ballsWaiting
  | .loadBin binno | .storeBin binno _ | .unlockBin binno => some (.bin binno)
  | .loadThrown | .storeThrown _ | .unlockThrown => some .ballsThrown
  | _ => none

def Pc.taken : Pc → Nat
  | .unlockWaiting | .throwBall | .lockBin _ | .loadBin _ | .storeBin _ _ => 1
  | _ => 0

/-- The thrower has put a ball in a bin and not counted it. -/
def Pc.binned : Pc → Nat
  | .unlockBin _ | .lockThrown | .loadThrown | .storeThrown _ => 1
  | _ => 0

/-- The bin that the thrower uses. -/
def Pc.binno : Pc → Option Nat
  | .lockBin binno | .loadBin binno | .storeBin binno _ | .unlockBin binno => some binno
  | _ => none

def MainPc.holds : MainPc → Option Lock
  | .load | .unlock _ => some .ballsThrown
  | _ => none

def MainPc.left : MainPc → Bool
  | .count _ _ | .print _ _ | .exited _ => true
  | _ => false

/-- The sum that `main` has read from the bins. -/
def MainPc.sum : MainPc → Option Int
  | .print _ realBallsCount | .exited realBallsCount => some realBallsCount
  | _ => none

variable {T : Nat} {ballsCount : Int} {s t : State T} {p : Fin T}

def State.holds (s : State T) : Party (Fin T) → Lock → Prop
  | .main, m => s.main.holds = some m
  | .thread p, m => (s.pc p).holds = some m

def State.taken (s : State T) : Nat := ∑ p, (s.pc p).taken

def State.binned (s : State T) : Nat := ∑ p, (s.pc p).binned

/-- The sum of the bins. -/
def State.total (s : State T) : Int := ∑ i ∈ Finset.range BIN_COUNT, s.bins i

/-- What a thrower knows by its place: the value it loaded is still there. -/
def State.Fits (s : State T) : Pc → Prop
  | .loadWaiting => 0 < s.ballsWaiting
  | .storeWaiting n => 0 < s.ballsWaiting ∧ n = s.ballsWaiting
  | .lockBin binno | .loadBin binno | .unlockBin binno => binno < BIN_COUNT
  | .storeBin binno n => binno < BIN_COUNT ∧ n = s.bins binno
  | .storeThrown n => n = s.ballsThrown
  | _ => True

/-- What a step of a thrower can do. -/
inductive Deed (s : State T) (p : Fin T) : State T → Prop where
  | moved {c : Pc} : c.holds = (s.pc p).holds → c.taken = (s.pc p).taken →
      c.binned = (s.pc p).binned → (s.Fits (s.pc p) → s.Fits c) → Deed s p (s.goto p c)
  | locked {m : Lock} {l : Locks Lock (Party (Fin T))} {c : Pc} :
      s.locks.lock m (.thread p) = some l → (s.pc p).holds = none → c.holds = some m →
      c.taken = (s.pc p).taken → c.binned = (s.pc p).binned → (s.Fits (s.pc p) → s.Fits c) →
      Deed s p ({ s with locks := l }.goto p c)
  | unlocked {m : Lock} {l : Locks Lock (Party (Fin T))} {c : Pc} :
      s.locks.unlock m (.thread p) = some l → (s.pc p).holds = some m → c.holds = none →
      c.taken = (s.pc p).taken → c.binned = (s.pc p).binned → s.Fits c →
      Deed s p ({ s with locks := l }.goto p c)
  | took {n : Int} : s.pc p = .storeWaiting n →
      Deed s p ({ s with ballsWaiting := n - 1 }.goto p .unlockWaiting)
  | put {binno : Nat} {n : Int} : s.pc p = .storeBin binno n →
      Deed s p ({ s with bins := Function.update s.bins binno (n + 1) }.goto p (.unlockBin binno))
  | counted {n : Int} : s.pc p = .storeThrown n →
      Deed s p ({ s with ballsThrown := n + 1 }.goto p .unlockThrown)

theorem lock_deed {m : Lock} {c c' : Pc} (h : s.lock m p c' = some t) (hpc : s.pc p = c)
    (hfree : c.holds = none) (hholds : c'.holds = some m) (htaken : c'.taken = c.taken)
    (hbinned : c'.binned = c.binned) (hfits : s.Fits c → s.Fits c') : Deed s p t := by
  obtain ⟨l, hl, rfl⟩ := Option.map_eq_some_iff.mp h
  subst hpc
  exact .locked hl hfree hholds htaken hbinned hfits

theorem unlock_deed {m : Lock} {c c' : Pc} (h : s.unlock m p c' = some t) (hpc : s.pc p = c)
    (hheld : c.holds = some m) (hholds : c'.holds = none) (htaken : c'.taken = c.taken)
    (hbinned : c'.binned = c.binned) (hfits : s.Fits c') : Deed s p t := by
  obtain ⟨l, hl, rfl⟩ := Option.map_eq_some_iff.mp h
  subst hpc
  exact .unlocked hl hheld hholds htaken hbinned hfits

theorem moved_deed {c c' : Pc} (hpc : s.pc p = c) (hholds : c'.holds = c.holds)
    (htaken : c'.taken = c.taken) (hbinned : c'.binned = c.binned)
    (hfits : s.Fits c → s.Fits c') : Deed s p (s.goto p c') := by
  subst hpc
  exact .moved hholds htaken hbinned hfits

theorem throwing_deed {toss : Nat → Bool} (h : s.throwing p toss = some t) : Deed s p t := by
  unfold State.throwing at h
  cases hpc : s.pc p with
  | off | done => simp [hpc] at h
  | lockWaiting =>
    simp only [hpc] at h
    exact lock_deed h hpc rfl rfl rfl rfl fun _ => trivial
  | test =>
    simp only [hpc, Option.some.injEq] at h
    subst h
    split
    · rename_i hpos
      exact moved_deed hpc rfl rfl rfl fun _ => hpos
    · exact moved_deed hpc rfl rfl rfl fun _ => trivial
  | loadWaiting =>
    simp only [hpc, Option.some.injEq] at h
    subst h
    exact moved_deed hpc rfl rfl rfl fun hpos => ⟨hpos, rfl⟩
  | storeWaiting n =>
    simp only [hpc, Option.some.injEq] at h
    subst h
    exact .took hpc
  | unlockWaiting =>
    simp only [hpc] at h
    exact unlock_deed h hpc rfl rfl rfl rfl trivial
  | leave =>
    simp only [hpc] at h
    exact unlock_deed h hpc rfl rfl rfl rfl trivial
  | throwBall =>
    simp only [hpc, Option.some.injEq] at h
    subst h
    exact moved_deed hpc rfl rfl rfl fun _ => throwBall_lt toss
  | lockBin binno =>
    simp only [hpc] at h
    exact lock_deed h hpc rfl rfl rfl rfl id
  | loadBin binno =>
    simp only [hpc, Option.some.injEq] at h
    subst h
    exact moved_deed hpc rfl rfl rfl fun hlt => ⟨hlt, rfl⟩
  | storeBin binno n =>
    simp only [hpc, Option.some.injEq] at h
    subst h
    exact .put hpc
  | unlockBin binno =>
    simp only [hpc] at h
    exact unlock_deed h hpc rfl rfl rfl rfl trivial
  | lockThrown =>
    simp only [hpc] at h
    exact lock_deed h hpc rfl rfl rfl rfl fun _ => trivial
  | loadThrown =>
    simp only [hpc, Option.some.injEq] at h
    subst h
    exact moved_deed hpc rfl rfl rfl fun _ => rfl
  | storeThrown n =>
    simp only [hpc, Option.some.injEq] at h
    subst h
    exact .counted hpc
  | unlockThrown =>
    simp only [hpc] at h
    exact unlock_deed h hpc rfl rfl rfl rfl trivial

/-! ## The sums over the throwers -/

theorem sum_goto (f : Pc → Nat) (s : State T) (p : Fin T) (c : Pc) :
    ∑ q, f ((s.goto p c).pc q) + f (s.pc p) = ∑ q, f (s.pc q) + f c := by
  have hsum := sum_change (f := fun q => f (s.pc q)) (k := fun q => f ((s.goto p c).pc q))
    (Finset.mem_univ p) fun q hq => by simp [State.goto, hq]
  simpa [State.goto] using hsum

theorem taken_goto (s : State T) (p : Fin T) (c : Pc) :
    (s.goto p c).taken + (s.pc p).taken = s.taken + c.taken :=
  sum_goto Pc.taken s p c

theorem binned_goto (s : State T) (p : Fin T) (c : Pc) :
    (s.goto p c).binned + (s.pc p).binned = s.binned + c.binned :=
  sum_goto Pc.binned s p c

theorem taken_pos (h : (s.pc p).taken = 1) : 1 ≤ s.taken := by
  have hsum := Finset.add_sum_erase Finset.univ (fun q => (s.pc q).taken) (Finset.mem_univ p)
  unfold State.taken
  omega

theorem total_put {binno : Nat} (h : binno < BIN_COUNT) (bins : Nat → Int) :
    ∑ i ∈ Finset.range BIN_COUNT, Function.update bins binno (bins binno + 1) i =
      ∑ i ∈ Finset.range BIN_COUNT, bins i + 1 := by
  have hmem : binno ∈ Finset.range BIN_COUNT := Finset.mem_range.mpr h
  have hrest := Finset.add_sum_erase _ bins hmem
  rw [Finset.sum_update_of_mem hmem, Finset.sdiff_singleton_eq_erase]
  omega

/-! ## What a store leaves to the other throwers -/

theorem fits_waiting {c : Pc} (hc : c.holds ≠ some .ballsWaiting) (h : s.Fits c) (n : Int) :
    State.Fits { s with ballsWaiting := n } c := by
  cases c <;> simp_all [State.Fits, Pc.holds]

theorem fits_thrown {c : Pc} (hc : c.holds ≠ some .ballsThrown) (h : s.Fits c) (n : Int) :
    State.Fits { s with ballsThrown := n } c := by
  cases c <;> simp_all [State.Fits, Pc.holds]

theorem fits_bin {c : Pc} {binno : Nat} (hc : c.holds ≠ some (.bin binno)) (h : s.Fits c)
    (n : Int) : State.Fits { s with bins := Function.update s.bins binno n } c := by
  cases c <;> simp_all [State.Fits, Pc.holds]

/-! ## The invariant -/

def State.MainFits (ballsCount : Int) (s : State T) : Prop :=
  match s.main with
  | .poll bt | .unlock bt => bt ≤ s.ballsThrown
  | .count i realBallsCount =>
    ballsCount ≤ s.ballsThrown ∧ i ≤ BIN_COUNT ∧
      realBallsCount = ∑ j ∈ Finset.range i, s.bins j
  | .print _ realBallsCount | .exited realBallsCount =>
    ballsCount ≤ s.ballsThrown ∧ realBallsCount = s.total
  | .create _ | .lock | .load => True

structure Inv (ballsCount : Int) (s : State T) : Prop where
  owned : s.locks.Owned s.holds
  fits : ∀ p, s.Fits (s.pc p)
  waiting : 0 ≤ s.ballsWaiting
  thrown : 0 ≤ s.ballsThrown
  balls : s.ballsWaiting + s.taken + s.total = ballsCount
  counted : s.ballsThrown + s.binned = s.total
  main : s.MainFits ballsCount
  uncreated : ∀ i (q : Fin T), s.main = .create i → i ≤ q → s.pc q = .off

namespace Inv

theorem settles (h : Inv ballsCount s) (hall : ballsCount ≤ s.ballsThrown) :
    s.taken = 0 ∧ s.ballsWaiting = 0 ∧ s.total = ballsCount := by
  have hballs := h.balls
  have hcounted := h.counted
  have hwaiting := h.waiting
  omega

theorem left_thrown (h : Inv ballsCount s) (hl : s.main.left = true) :
    ballsCount ≤ s.ballsThrown := by
  have hmain := h.main
  unfold State.MainFits at hmain
  split at hmain
  all_goals first
    | exact hmain.1
    | simp [MainPc.left, *] at hl

theorem goto_owned (h : Inv ballsCount s) {c : Pc} (hc : c.holds = (s.pc p).holds) :
    s.locks.Owned (s.goto p c).holds := by
  refine h.owned.congr fun q k => ?_
  cases q with
  | main => exact Iff.rfl
  | thread q =>
    simp only [State.holds, State.goto]
    rw [update_same hc q]

theorem lock_owned (h : Inv ballsCount s) {m : Lock} {l : Locks Lock (Party (Fin T))} {c : Pc}
    (hl : s.locks.lock m (.thread p) = some l) (hfree : (s.pc p).holds = none)
    (hc : c.holds = some m) : l.Owned (s.goto p c).holds := by
  refine h.owned.lock hl (fun k => ?_) fun q hq k => ?_
  · simp [State.holds, State.goto, hfree, hc, eq_comm]
  · cases q with
    | main => exact Iff.rfl
    | thread q =>
      have hne : q ≠ p := fun hqp => hq (hqp ▸ rfl)
      simp [State.holds, State.goto, hne]

theorem unlock_owned (h : Inv ballsCount s) {m : Lock} {l : Locks Lock (Party (Fin T))} {c : Pc}
    (hl : s.locks.unlock m (.thread p) = some l) (hheld : (s.pc p).holds = some m)
    (hc : c.holds = none) : l.Owned (s.goto p c).holds := by
  refine h.owned.unlock hl (fun k => ?_) fun q hq k => ?_
  · simp only [State.holds, State.goto, Function.update_self, hc, hheld, Option.some.injEq,
      reduceCtorEq, false_iff, not_and]
    exact fun hne hk => hne hk.symm
  · cases q with
    | main => exact Iff.rfl
    | thread q =>
      have hne : q ≠ p := fun hqp => hq (hqp ▸ rfl)
      simp [State.holds, State.goto, hne]

theorem goto_uncreated (h : Inv ballsCount s) (hon : s.pc p ≠ .off) (c : Pc) (i : Nat) (q : Fin T)
    (hi : s.main = .create i) (hq : i ≤ q) : (s.goto p c).pc q = .off := by
  have hoff := h.uncreated i q hi hq
  have hne : q ≠ p := fun hqp => hon (hqp ▸ hoff)
  simp [State.goto, hne, hoff]

theorem step_frame (h : Inv ballsCount s) (hon : s.pc p ≠ .off) {c : Pc}
    {l : Locks Lock (Party (Fin T))}
    (howned : l.Owned (s.goto p c).holds) (htaken : c.taken = (s.pc p).taken)
    (hbinned : c.binned = (s.pc p).binned) (hfits : s.Fits c) :
    Inv ballsCount ({ s with locks := l }.goto p c) := by
  have ht := taken_goto s p c
  have hb := binned_goto s p c
  have hballs := h.balls
  have hcounted := h.counted
  refine ⟨howned, fun q => update_keeps (P := s.Fits) (h.fits q) fun _ => hfits, h.waiting,
    h.thrown, ?_, ?_, h.main, h.goto_uncreated hon _⟩
  · show s.ballsWaiting + (s.goto p c).taken + s.total = ballsCount
    omega
  · show s.ballsThrown + (s.goto p c).binned = s.total
    omega

theorem alone (h : Inv ballsCount s) {m : Lock} (hp : (s.pc p).holds = some m) {q : Fin T}
    (hq : q ≠ p) : (s.pc q).holds ≠ some m := by
  intro hheld
  have hqp := h.owned.one (show s.holds (.thread q) m from hheld)
    (show s.holds (.thread p) m from hp)
  exact hq (by simpa using hqp)

theorem took (h : Inv ballsCount s) (hon : s.pc p ≠ .off) {n : Int}
    (hpc : s.pc p = .storeWaiting n) :
    Inv ballsCount ({ s with ballsWaiting := n - 1 }.goto p .unlockWaiting) := by
  obtain ⟨hpos, rfl⟩ : 0 < s.ballsWaiting ∧ n = s.ballsWaiting := by
    simpa [State.Fits, hpc] using h.fits p
  have hheld : (s.pc p).holds = some .ballsWaiting := by rw [hpc]; rfl
  have ht := taken_goto s p .unlockWaiting
  have hb := binned_goto s p .unlockWaiting
  simp only [hpc, Pc.taken, Pc.binned] at ht hb
  have hballs := h.balls
  have hcounted := h.counted
  refine ⟨h.goto_owned (by simp [hpc, Pc.holds]), fun q => ?_, ?_, h.thrown, ?_, ?_, h.main,
    h.goto_uncreated hon _⟩
  · by_cases hq : q = p
    · simp [hq, State.goto, State.Fits]
    · simp only [State.goto, Function.update_of_ne hq]
      exact fits_waiting (h.alone hheld hq) (h.fits q) _
  · show 0 ≤ s.ballsWaiting - 1
    omega
  · show s.ballsWaiting - 1 + (s.goto p .unlockWaiting).taken + s.total = ballsCount
    omega
  · show s.ballsThrown + (s.goto p .unlockWaiting).binned = s.total
    omega

theorem not_left (h : Inv ballsCount s) (hp : (s.pc p).taken = 1) : s.main.left = false := by
  cases hl : s.main.left with
  | false => rfl
  | true =>
    have hpos := taken_pos hp
    have hnone := (h.settles (h.left_thrown hl)).1
    omega

theorem put (h : Inv ballsCount s) (hon : s.pc p ≠ .off) {binno : Nat} {n : Int}
    (hpc : s.pc p = .storeBin binno n) :
    Inv ballsCount ({ s with bins := Function.update s.bins binno (n + 1) }.goto p
      (.unlockBin binno)) := by
  obtain ⟨hlt, rfl⟩ : binno < BIN_COUNT ∧ n = s.bins binno := by
    simpa [State.Fits, hpc] using h.fits p
  have hheld : (s.pc p).holds = some (.bin binno) := by rw [hpc]; rfl
  have ht := taken_goto s p (.unlockBin binno)
  have hb := binned_goto s p (.unlockBin binno)
  have htotal := total_put hlt s.bins
  have hloop := h.not_left (p := p) (by rw [hpc]; rfl)
  simp only [hpc, Pc.taken, Pc.binned] at ht hb
  have hballs := h.balls
  have hcounted := h.counted
  unfold State.total at hballs hcounted
  refine ⟨h.goto_owned (by simp [hpc, Pc.holds]), fun q => ?_, h.waiting, h.thrown, ?_, ?_, ?_,
    h.goto_uncreated hon _⟩
  · by_cases hq : q = p
    · simpa [hq, State.goto, State.Fits] using hlt
    · simp only [State.goto, Function.update_of_ne hq]
      exact fits_bin (h.alone hheld hq) (h.fits q) _
  · show s.ballsWaiting + (s.goto p (.unlockBin binno)).taken +
      ∑ i ∈ Finset.range BIN_COUNT, Function.update s.bins binno (s.bins binno + 1) i = ballsCount
    omega
  · show s.ballsThrown + (s.goto p (.unlockBin binno)).binned =
      ∑ i ∈ Finset.range BIN_COUNT, Function.update s.bins binno (s.bins binno + 1) i
    omega
  · have hmain := h.main
    unfold State.MainFits at hmain ⊢
    simp only [State.goto]
    cases hm : s.main <;> simp_all [MainPc.left]

theorem counts (h : Inv ballsCount s) (hon : s.pc p ≠ .off) {n : Int}
    (hpc : s.pc p = .storeThrown n) :
    Inv ballsCount ({ s with ballsThrown := n + 1 }.goto p .unlockThrown) := by
  obtain rfl : n = s.ballsThrown := by simpa [State.Fits, hpc] using h.fits p
  have hheld : (s.pc p).holds = some .ballsThrown := by rw [hpc]; rfl
  have ht := taken_goto s p .unlockThrown
  have hb := binned_goto s p .unlockThrown
  simp only [hpc, Pc.taken, Pc.binned] at ht hb
  have hballs := h.balls
  have hcounted := h.counted
  have hthrown := h.thrown
  refine ⟨h.goto_owned (by simp [hpc, Pc.holds]), fun q => ?_, h.waiting, ?_, ?_, ?_, ?_,
    h.goto_uncreated hon _⟩
  · by_cases hq : q = p
    · simp [hq, State.goto, State.Fits]
    · simp only [State.goto, Function.update_of_ne hq]
      exact fits_thrown (h.alone hheld hq) (h.fits q) _
  · show 0 ≤ s.ballsThrown + 1
    omega
  · show s.ballsWaiting + (s.goto p .unlockThrown).taken + s.total = ballsCount
    omega
  · show s.ballsThrown + 1 + (s.goto p .unlockThrown).binned = s.total
    omega
  · have hmain := h.main
    unfold State.MainFits at hmain ⊢
    simp only [State.goto]
    cases hm : s.main <;> simp_all [State.total] <;> omega

theorem thrower (h : Inv ballsCount s) (hon : s.pc p ≠ .off) (hd : Deed s p t) :
    Inv ballsCount t := by
  cases hd with
  | moved hholds htaken hbinned hfits =>
    exact h.step_frame hon (h.goto_owned hholds) htaken hbinned (hfits (h.fits p))
  | locked hl hfree hholds htaken hbinned hfits =>
    exact h.step_frame hon (h.lock_owned hl hfree hholds) htaken hbinned (hfits (h.fits p))
  | unlocked hl hheld hholds htaken hbinned hfits =>
    exact h.step_frame hon (h.unlock_owned hl hheld hholds) htaken hbinned hfits
  | took hpc => exact h.took hon hpc
  | put hpc => exact h.put hon hpc
  | counted hpc => exact h.counts hon hpc

/-! ## The steps of `main` -/

theorem main_owned (h : Inv ballsCount s) {c : MainPc} (hc : c.holds = s.main.holds) :
    s.locks.Owned (State.holds { s with main := c }) := by
  refine h.owned.congr fun q k => ?_
  cases q with
  | main => simp only [State.holds, hc]
  | thread q => exact Iff.rfl

theorem main_frame (h : Inv ballsCount s) {c : MainPc} {l : Locks Lock (Party (Fin T))}
    {out : List Int} (howned : l.Owned (State.holds { s with main := c }))
    (hmain : State.MainFits ballsCount { s with main := c }) (hnew : ∀ i, c ≠ .create i) :
    Inv ballsCount { s with main := c, locks := l, printed := out } :=
  ⟨howned, h.fits, h.waiting, h.thrown, h.balls, h.counted, hmain,
    fun i _ hi _ => absurd hi (hnew i)⟩

theorem create (h : Inv ballsCount s) {i : Nat} (hpc : s.main = .create i) (hi : i < T) :
    Inv ballsCount { s.goto ⟨i, hi⟩ .lockWaiting with main := .create (i + 1) } := by
  have hoff := h.uncreated i ⟨i, hi⟩ hpc (Nat.le_refl i)
  have ht := taken_goto s ⟨i, hi⟩ .lockWaiting
  have hb := binned_goto s ⟨i, hi⟩ .lockWaiting
  simp only [hoff, Pc.taken, Pc.binned] at ht hb
  have hballs := h.balls
  have hcounted := h.counted
  have howned := h.goto_owned (p := ⟨i, hi⟩) (c := .lockWaiting) (by rw [hoff]; rfl)
  refine ⟨howned.congr fun q k => ?_, fun q => ?_, h.waiting, h.thrown, ?_, ?_, trivial,
    fun j q hj hq => ?_⟩
  · cases q with
    | main => simp [State.holds, State.goto, hpc, MainPc.holds]
    | thread q => exact Iff.rfl
  · exact update_keeps (P := s.Fits) (h.fits q) fun _ => trivial
  · show s.ballsWaiting + (s.goto ⟨i, hi⟩ .lockWaiting).taken + s.total = ballsCount
    omega
  · show s.ballsThrown + (s.goto ⟨i, hi⟩ .lockWaiting).binned = s.total
    omega
  · obtain rfl : i + 1 = j := by simpa using hj
    have hne : q ≠ ⟨i, hi⟩ := fun hqi => by
      rw [hqi] at hq
      exact absurd hq (by simp)
    simpa [State.goto, hne] using h.uncreated i q hpc (by omega)

theorem mainStep (h : Inv ballsCount s) (hn : s.runMain ballsCount = some t) : Inv ballsCount t := by
  have hmain := h.main
  unfold State.runMain at hn
  unfold State.MainFits at hmain
  cases hpc : s.main with
  | create i =>
    simp only [hpc] at hn
    split at hn
    · rename_i hi
      cases hn
      exact h.create hpc hi
    · cases hn
      exact h.main_frame (h.main_owned (by simp [hpc, MainPc.holds])) h.thrown (by simp)
  | poll bt =>
    simp only [hpc, Option.some.injEq] at hn hmain
    subst hn
    split
    · exact h.main_frame (h.main_owned (by simp [hpc, MainPc.holds])) trivial (by simp)
    · have hall : ballsCount ≤ s.ballsThrown := by omega
      exact h.main_frame (h.main_owned (by simp [hpc, MainPc.holds])) ⟨hall, Nat.zero_le _, rfl⟩
        (by simp)
  | lock =>
    simp only [hpc] at hn
    obtain ⟨l, hl, rfl⟩ := Option.map_eq_some_iff.mp hn
    refine h.main_frame (h.owned.lock hl (fun k => ?_) fun q hq k => ?_) trivial (by simp)
    · simp [State.holds, hpc, MainPc.holds, eq_comm]
    · cases q with
      | main => exact absurd rfl hq
      | thread q => exact Iff.rfl
  | load =>
    simp only [hpc, Option.some.injEq] at hn hmain
    subst hn
    exact h.main_frame (h.main_owned (by simp [hpc, MainPc.holds])) (Int.le_refl _) (by simp)
  | unlock bt =>
    simp only [hpc] at hn hmain
    obtain ⟨l, hl, rfl⟩ := Option.map_eq_some_iff.mp hn
    refine h.main_frame (h.owned.unlock hl (fun k => ?_) fun q hq k => ?_) hmain (by simp)
    · simp only [State.holds, hpc, MainPc.holds, Option.some.injEq, reduceCtorEq, false_iff,
        not_and]
      exact fun hne hk => hne hk.symm
    · cases q with
      | main => exact absurd rfl hq
      | thread q => exact Iff.rfl
  | count i realBallsCount =>
    simp only [hpc] at hn hmain
    obtain ⟨hall, hle, hsum⟩ := hmain
    split at hn
    · rename_i hi
      cases hn
      refine h.main_frame (h.main_owned (by simp [hpc, MainPc.holds])) ⟨hall, hi, ?_⟩ (by simp)
      rw [Finset.sum_range_succ, hsum]
    · rename_i hi
      cases hn
      obtain rfl : i = BIN_COUNT := by omega
      exact h.main_frame (h.main_owned (by simp [hpc, MainPc.holds])) ⟨hall, hsum⟩ (by simp)
  | print i realBallsCount =>
    simp only [hpc] at hn hmain
    split at hn
    all_goals
      cases hn
      exact h.main_frame (h.main_owned (by simp [hpc, MainPc.holds])) hmain (by simp)
  | exited realBallsCount => simp [hpc] at hn

theorem start (hpos : 0 ≤ ballsCount) : Inv ballsCount (Galton.start ballsCount T) := by
  refine ⟨fun k q => ?_, fun _ => trivial, hpos, Int.le_refl 0, ?_, ?_, trivial, fun _ _ _ _ => rfl⟩
  · cases q <;> simp [Galton.start, State.holds, MainPc.holds, Pc.holds]
  · simp [Galton.start, State.taken, State.total, Pc.taken]
  · simp [Galton.start, State.binned, State.total, Pc.binned]

theorem step {act : Act T} (h : Inv ballsCount s) (hn : s.next ballsCount act = some t) :
    Inv ballsCount t := by
  cases act with
  | main => exact h.mainStep hn
  | thrower p toss =>
    simp only [State.next] at hn
    split at hn
    · cases hn
    · have hon : s.pc p ≠ .off := fun hoff => by simp [State.throwing, hoff] at hn
      exact h.thrower hon (throwing_deed hn)

theorem reach (hpos : 0 ≤ ballsCount) (h : (board ballsCount T).Reach s) : Inv ballsCount s := by
  refine h.inv (I := Inv ballsCount) ?_ fun _ _ _ _ hi hn => hi.step hn
  rintro _ rfl
  exact .start hpos

theorem binno_lt (h : Inv ballsCount s) {binno : Nat} (hb : (s.pc p).binno = some binno) :
    binno < BIN_COUNT := by
  have hfits := h.fits p
  cases hc : s.pc p <;> simp_all [Pc.binno, State.Fits]

theorem left_total (h : Inv ballsCount s) (hl : s.main.left = true) : s.total = ballsCount :=
  (h.settles (h.left_thrown hl)).2.2

theorem sum_eq (h : Inv ballsCount s) {n : Int} (hn : s.main.sum = some n) : n = ballsCount := by
  have hmain := h.main
  have htotal := h.left_total
  unfold State.MainFits at hmain
  cases hc : s.main <;> simp_all [MainPc.sum, MainPc.left]

theorem left_step {act : Act T} (h : Inv ballsCount s) (hl : s.main.left = true)
    (hn : s.next ballsCount act = some t) : t.main.left = true ∧ t.bins = s.bins := by
  cases act with
  | main =>
    simp only [State.next, State.runMain] at hn
    cases hc : s.main with
    | count i n | print i n =>
      simp only [hc] at hn
      split at hn <;> cases hn <;> exact ⟨rfl, rfl⟩
    | exited n => simp [hc] at hn
    | create _ | poll _ | lock | load | unlock _ => simp [hc, MainPc.left] at hl
  | thrower p toss =>
    simp only [State.next] at hn
    split at hn
    · cases hn
    · cases throwing_deed hn with
      | put hpc =>
        have hloop := h.not_left (p := p) (by rw [hpc]; rfl)
        simp [hloop] at hl
      | moved | locked | unlocked | took | counted => exact ⟨hl, rfl⟩

end Inv

theorem left_run {as : List (Act T)} (h : (board ballsCount T).Reach s) (hpos : 0 ≤ ballsCount)
    (hl : s.main.left = true) (he : (board ballsCount T).exec s as = some t) : t.bins = s.bins := by
  have hkept := LTS.exec_inv
    (I := fun u => (board ballsCount T).Reach u ∧ u.main.left = true ∧ u.bins = s.bins)
    (fun u _ v ⟨hr, hleft, hbins⟩ hn => by
      obtain ⟨hleft', hbins'⟩ := (Inv.reach hpos hr).left_step hleft hn
      exact ⟨hr.step hn, hleft', hbins'.trans hbins⟩)
    ⟨h, hl, rfl⟩ he
  exact hkept.2.2

/-- **Conservation of balls.** Every ball waits, is with a thrower or is in a bin, at
every moment; when `main` has left the polling loop all are in the bins, which stay as
they are, and that is the sum that `main` reads. -/
theorem balls_conserved (hpos : 1 ≤ ballsCount) (h : (board ballsCount T).Reach s) :
    s.ballsWaiting + s.taken + s.total = ballsCount ∧ s.ballsThrown ≤ s.total ∧
    0 ≤ s.ballsWaiting ∧
    (∀ p binno, (s.pc p).binno = some binno → binno < BIN_COUNT) ∧
    (s.main.left = true → s.total = ballsCount ∧
      ∀ as t, (board ballsCount T).exec s as = some t → t.bins = s.bins) ∧
    ∀ n, s.main.sum = some n → n = ballsCount := by
  have hnonneg : 0 ≤ ballsCount := by omega
  have hinv := Inv.reach hnonneg h
  refine ⟨hinv.balls, ?_, hinv.waiting, fun p binno => hinv.binno_lt, fun hl => ?_,
    fun n => hinv.sum_eq⟩
  · have hcounted := hinv.counted
    omega
  · exact ⟨hinv.left_total hl, fun as t he => left_run h hnonneg hl he⟩

/-- Two throwers, each with one ball: one in the last bin and one in the first, at the same time. -/
def twoThrowers (p q : Fin 2) : List (Act 2) :=
  List.replicate 3 .main ++ List.replicate 5 (.thrower p fun _ => true) ++
    List.replicate 5 (.thrower q fun _ => false) ++
    (List.replicate 5 [.thrower p fun _ => true, .thrower q fun _ => false]).flatten ++
    List.replicate 4 (.thrower q fun _ => false) ++ List.replicate 4 (.thrower p fun _ => true) ++
    List.replicate 17 .main

theorem balls_conserved_two : ∃ s, (board 2 2).exec (start 2 2) (twoThrowers 0 1) = some s ∧
    s.main = .print 0 2 ∧ s.bins 0 = 1 ∧ s.bins 10 = 1 ∧
    s.ballsWaiting + s.taken + s.total = 2 ∧ s.total = 2 := by
  have hrun : ((board 2 2).exec (start 2 2) (twoThrowers 0 1)).map
      (fun s => (s.main, s.bins 0, s.bins 10)) = some (.print 0 2, 1, 1) := by decide +kernel
  obtain ⟨s, hs, heq⟩ := Option.map_eq_some_iff.mp hrun
  simp only [Prod.mk.injEq] at heq
  obtain ⟨hmain, hfirst, hlast⟩ := heq
  have hall := balls_conserved (by decide) (LTS.Reach.exec (.init rfl) hs)
  exact ⟨s, hs, hmain, hfirst, hlast, hall.1, (hall.2.2.2.2.1 (by rw [hmain]; rfl)).1⟩

end Ops.Galton
