import Mathlib.Tactic.Ring
import Ops.Counter.Process
import Ops.Lib.Rounds
import Ops.Lib.Update

/-!
# A shared counter without a lock (`01_base.c`)

`producer` and `consumer` change `counter` with a load and a store, and a store overwrites what the
other thread has stored since the load. Which values the counter can have in the end is `Possible`:
all from minus the rounds of the consumer to the rounds of the producer, as soon as both make one.
-/

namespace Ops.Counter.Base

/-- The next step of a thread in round `n`. -/
inductive Pc where
  | loop (n : Nat)
  | load (n : Nat)
  | store (n : Nat) (v : Int)
  | done
  deriving DecidableEq, Repr

structure State where
  counter : Int
  pc : Fin 2 → Pc

def State.goto (s : State) (i : Fin 2) (c : Pc) : State :=
  { s with pc := Function.update s.pc i c }

/-- `producer`, `consumer` -/
def State.next (ITERATIONS : Fin 2 → Nat) (s : State) (i : Fin 2) : Option State :=
  match s.pc i with
  | .loop n => some (s.goto i (if n < ITERATIONS i then .load n else .done))
  | .load n => some (s.goto i (.store n s.counter))
  | .store n v => some ({ s with counter := v + change i }.goto i (.loop (n + 1)))
  | .done => none

def State.start : State := ⟨0, fun _ => .loop 0⟩

def threads (ITERATIONS : Fin 2 → Nat) : LTS State (Fin 2) where
  Init s := s = .start
  next := State.next ITERATIONS

def Prints (ITERATIONS : Fin 2 → Nat) (v : Int) : Prop :=
  ∃ s, (threads ITERATIONS).Reach s ∧ (∀ i, s.pc i = .done) ∧ s.counter = v

/-- Without a rival no update is lost, and with one all can be. -/
inductive Possible (ITERATIONS : Fin 2 → Nat) (v : Int) : Prop where
  | alone : ITERATIONS 0 = 0 ∨ ITERATIONS 1 = 0 → v = ITERATIONS 0 - ITERATIONS 1 → Possible _ v
  | rival : ITERATIONS 0 ≠ 0 → ITERATIONS 1 ≠ 0 → -ITERATIONS 1 ≤ v → v ≤ ITERATIONS 0 →
    Possible _ v

variable {ITERATIONS : Fin 2 → Nat} {s t : State} {i j : Fin 2}

/-! ## No other value -/

namespace Pc

def changes (ITERATIONS : Nat) : Pc → Nat
  | loop n | load n | store n _ => n
  | done => ITERATIONS

def loaded : Pc → Option Int
  | store _ v => some v
  | _ => none

def Fits (ITERATIONS : Nat) : Pc → Prop
  | loop n => n ≤ ITERATIONS
  | load n | store n _ => n < ITERATIONS
  | done => True

end Pc

structure Between (ITERATIONS : Fin 2 → Nat) (pc : Fin 2 → Pc) (v : Int) : Prop where
  low : -((pc 1).changes (ITERATIONS 1) : Int) ≤ v
  high : v ≤ (pc 0).changes (ITERATIONS 0)

structure Inv (ITERATIONS : Fin 2 → Nat) (s : State) : Prop where
  fits : ∀ i, (s.pc i).Fits (ITERATIONS i)
  counter : Between ITERATIONS s.pc s.counter
  loaded : ∀ i v, (s.pc i).loaded = some v → Between ITERATIONS s.pc v
  /-- Nobody disturbs a thread whose rival makes no round. -/
  alone : ITERATIONS 0 = 0 ∨ ITERATIONS 1 = 0 →
    s.counter = (s.pc 0).changes (ITERATIONS 0) - (s.pc 1).changes (ITERATIONS 1) ∧
      ∀ i v, (s.pc i).loaded = some v → v = s.counter

theorem between_mono {c : Pc} {v : Int}
    (hc : (s.pc i).changes (ITERATIONS i) ≤ c.changes (ITERATIONS i))
    (h : Between ITERATIONS s.pc v) : Between ITERATIONS (Function.update s.pc i c) v := by
  have hle : ∀ j, (s.pc j).changes (ITERATIONS j) ≤
      (Function.update s.pc i c j).changes (ITERATIONS j) := fun j => by
    by_cases hji : j = i
    · rw [hji, Function.update_self]
      exact hc
    · rw [Function.update_of_ne hji]
  have h0 := hle 0
  have h1 := hle 1
  obtain ⟨hlow, hhigh⟩ := h
  constructor <;> omega

theorem changes_store {n : Nat} {v : Int} (hpc : s.pc i = .store n v) (j : Fin 2) :
    (Function.update s.pc i (.loop (n + 1)) j).changes (ITERATIONS j) =
      (s.pc j).changes (ITERATIONS j) + if j = i then 1 else 0 := by
  by_cases hji : j = i
  · subst hji
    rw [Function.update_self, hpc, if_pos rfl]
    rfl
  · rw [Function.update_of_ne hji, if_neg hji, Nat.add_zero]

namespace Inv

theorem start : Inv ITERATIONS .start where
  fits _ := Nat.zero_le _
  counter := ⟨Int.le_refl 0, Int.le_refl 0⟩
  loaded i v h := by cases h
  alone _ := ⟨rfl, fun i v h => by cases h⟩

theorem move {c : Pc} (h : Inv ITERATIONS s) (hfits : c.Fits (ITERATIONS i))
    (hchanges : c.changes (ITERATIONS i) = (s.pc i).changes (ITERATIONS i))
    (hloaded : ∀ v, c.loaded = some v → v = s.counter) : Inv ITERATIONS (s.goto i c) := by
  have hsame : ∀ j, (Function.update s.pc i c j).changes (ITERATIONS j) =
      (s.pc j).changes (ITERATIONS j) := fun j => by
    by_cases hji : j = i
    · rw [hji, Function.update_self, hchanges]
    · rw [Function.update_of_ne hji]
  refine ⟨fun j => ?_, between_mono (Nat.le_of_eq hchanges.symm) h.counter, fun j v hv => ?_,
    fun hnone => ?_⟩
  · show (Function.update s.pc i c j).Fits (ITERATIONS j)
    by_cases hji : j = i
    · rw [hji, Function.update_self]
      exact hfits
    · rw [Function.update_of_ne hji]
      exact h.fits j
  · refine between_mono (Nat.le_of_eq hchanges.symm) ?_
    rcases update_cases rfl hv with ⟨-, hv⟩ | ⟨-, hv⟩
    · rw [hloaded v hv]
      exact h.counter
    · exact h.loaded j v hv
  · obtain ⟨hcounter, hvalues⟩ := h.alone hnone
    refine ⟨?_, fun j v hv => ?_⟩
    · show s.counter = _
      rw [hcounter]
      simp only [State.goto, hsame]
    · rcases update_cases rfl hv with ⟨-, hv⟩ | ⟨-, hv⟩
      · exact hloaded v hv
      · exact hvalues j v hv

theorem store {n : Nat} {v : Int} (h : Inv ITERATIONS s) (hpc : s.pc i = .store n v) :
    Inv ITERATIONS ({ s with counter := v + change i }.goto i (.loop (n + 1))) := by
  have hfits : n < ITERATIONS i := by
    have hfits := h.fits i
    rwa [hpc] at hfits
  have hv := h.loaded i v (by rw [hpc]; rfl)
  have hgrows : (s.pc i).changes (ITERATIONS i) ≤ n + 1 := by
    rw [hpc]
    exact Nat.le_succ n
  refine ⟨fun j => ?_, ?_, fun j w hw => ?_, fun hnone => ⟨?_, fun j w hw => ?_⟩⟩
  · show (Function.update s.pc i (.loop (n + 1)) j).Fits (ITERATIONS j)
    by_cases hji : j = i
    · rw [hji, Function.update_self]
      exact hfits
    · rw [Function.update_of_ne hji]
      exact h.fits j
  · show Between ITERATIONS (Function.update s.pc i (.loop (n + 1))) (v + change i)
    have hown : (s.pc i).changes (ITERATIONS i) = n := by rw [hpc]; rfl
    obtain ⟨hlow, hhigh⟩ := hv
    constructor <;> rw [changes_store hpc]
    · match i with
      | 0 =>
        simp only [change, Fin.isValue, Fin.reduceEq, if_false]
        omega
      | 1 =>
        simp only [change, Fin.isValue, if_true]
        omega
    · match i with
      | 0 =>
        simp only [change, Fin.isValue, if_true]
        omega
      | 1 =>
        simp only [change, Fin.isValue, Fin.reduceEq, if_false]
        omega
  · refine between_mono hgrows ?_
    rcases update_cases rfl hw with ⟨-, hw⟩ | ⟨-, hw⟩
    · cases hw
    · exact h.loaded j w hw
  · obtain ⟨hcounter, hvalues⟩ := h.alone hnone
    have hcurrent := hvalues i v (by rw [hpc]; rfl)
    show v + change i = ((Function.update s.pc i (.loop (n + 1)) 0).changes (ITERATIONS 0) : Int) -
      (Function.update s.pc i (.loop (n + 1)) 1).changes (ITERATIONS 1)
    rw [hcurrent, hcounter, changes_store hpc, changes_store hpc]
    match i with
    | 0 =>
      simp only [change, Fin.isValue, Fin.reduceEq, if_true, if_false]
      omega
    | 1 =>
      simp only [change, Fin.isValue, Fin.reduceEq, if_true, if_false]
      omega
  · -- both threads would make a round
    rcases update_cases rfl hw with ⟨-, hw⟩ | ⟨hji, hw⟩
    · cases hw
    · have hfits' := h.fits j
      cases hpc' : s.pc j with
      | store n' v' =>
        rw [hpc'] at hfits'
        have hlt : n' < ITERATIONS j := hfits'
        match i, j with
        | 0, 1 | 1, 0 => omega
        | 0, 0 | 1, 1 => exact absurd rfl hji
      | _ => rw [hpc'] at hw; cases hw

theorem step (h : Inv ITERATIONS s) (hn : s.next ITERATIONS i = some t) : Inv ITERATIONS t := by
  have hfits := h.fits i
  unfold State.next at hn
  cases hpc : s.pc i with
  | loop n =>
    simp only [hpc, Option.some.injEq] at hn
    rw [hpc] at hfits
    subst hn
    by_cases hlt : n < ITERATIONS i
    · rw [if_pos hlt]
      exact h.move hlt (by rw [hpc]; rfl) nofun
    · rw [if_neg hlt]
      refine h.move trivial ?_ nofun
      rw [hpc]
      exact Nat.le_antisymm (Nat.not_lt.mp hlt) hfits
  | load n =>
    simp only [hpc, Option.some.injEq] at hn
    rw [hpc] at hfits
    subst hn
    refine h.move hfits (by rw [hpc]; rfl) fun v hv => ?_
    cases hv
    rfl
  | store n v =>
    simp only [hpc, Option.some.injEq] at hn
    subst hn
    exact h.store hpc
  | done => simp [hpc] at hn

theorem reach (h : (threads ITERATIONS).Reach s) : Inv ITERATIONS s := by
  refine h.inv (I := Inv ITERATIONS) ?_ fun _ _ _ _ hi hn => hi.step hn
  rintro _ rfl
  exact .start

theorem possible (h : Inv ITERATIONS s) (hdone : ∀ i, s.pc i = .done) :
    Possible ITERATIONS s.counter := by
  by_cases hnone : ITERATIONS 0 = 0 ∨ ITERATIONS 1 = 0
  · refine .alone hnone ?_
    have hcounter := (h.alone hnone).1
    rwa [hdone 0, hdone 1] at hcounter
  · obtain ⟨h0, h1⟩ := not_or.mp hnone
    obtain ⟨hlow, hhigh⟩ := h.counter
    rw [hdone 1] at hlow
    rw [hdone 0] at hhigh
    exact .rival h0 h1 hlow hhigh

end Inv

/-! ## Every such value -/

def alone : Rounds State (Fin 2) Pc := ⟨fun _ => True, State.pc, State.counter, .loop, .done⟩

theorem round (ITERATIONS : Fin 2 → Nat) (i : Fin 2) (s : State) (n : Nat) (_ : True)
    (hpc : s.pc i = .loop n) (hn : n < ITERATIONS i) :
    alone.Runs (threads ITERATIONS) s i (.loop (n + 1)) (change i) := by
  refine ⟨[i, i, i], ?_⟩
  simp [LTS.exec, threads, State.next, State.goto, alone, hpc, hn]

theorem last (ITERATIONS : Fin 2 → Nat) (i : Fin 2) (s : State) (_ : True)
    (hpc : s.pc i = .loop (ITERATIONS i)) : alone.Runs (threads ITERATIONS) s i .done 0 := by
  refine ⟨[i], ?_⟩
  simp [LTS.exec, threads, State.next, State.goto, alone, hpc]

theorem both_end {n k : Nat} (hs : (threads ITERATIONS).Reach s) (hij : i ≠ j)
    (hi : s.pc i = .loop n) (hj : s.pc j = .loop k) (hn : n ≤ ITERATIONS i)
    (hk : k ≤ ITERATIONS j) :
    Prints ITERATIONS
      (s.counter + (ITERATIONS i - n) * change i + (ITERATIONS j - k) * change j) := by
  obtain ⟨as, t, has, -, hpcs, hcounter⟩ : alone.Runs (threads ITERATIONS) s i _ _ :=
    Rounds.ends (round ITERATIONS i) (last ITERATIONS i) trivial hi hn
  have hj' : t.pc j = .loop k :=
    (congrFun hpcs j).trans ((Function.update_of_ne hij.symm ..).trans hj)
  obtain ⟨bs, u, hbs, -, hpcs', hcounter'⟩ : alone.Runs (threads ITERATIONS) t j _ _ :=
    Rounds.ends (round ITERATIONS j) (last ITERATIONS j) trivial hj' hk
  dsimp only [alone] at hpcs hpcs' hcounter hcounter'
  refine ⟨u, (hs.exec has).exec hbs, fun l => ?_, by rw [hcounter', hcounter]⟩
  rw [hpcs', hpcs]
  by_cases hl : l = j
  · rw [hl, Function.update_self]
  · have hli : l = i := by
      match i, j, l with
      | 0, 1, 0 | 1, 0, 1 => rfl
      | 0, 1, 1 | 1, 0, 0 => exact absurd rfl hl
      | 0, 0, _ | 1, 1, _ => exact absurd rfl hij
    rw [Function.update_of_ne hl, hli, Function.update_self]

theorem lose (hij : i ≠ j) {k : Nat} (hi : 0 < ITERATIONS i) (hk : k ≤ ITERATIONS j) :
    Prints ITERATIONS (ITERATIONS i * change i + (ITERATIONS j - k) * change j) := by
  obtain ⟨s, hs, hpcs, hcounter⟩ : ∃ s, (threads ITERATIONS).exec .start [i, i] = some s ∧
      s.pc = Function.update (fun _ => .loop 0) i (.store 0 0) ∧ s.counter = 0 := by
    simp [LTS.exec, threads, State.next, State.goto, State.start, hi]
  have hj : s.pc j = .loop 0 := by rw [hpcs, Function.update_of_ne hij.symm]
  obtain ⟨as, t, has, -, hpcs', -⟩ : alone.Runs (threads ITERATIONS) s j _ _ :=
    Rounds.rounds (k := k) (round ITERATIONS j) trivial hj (by omega)
  dsimp only [alone] at hpcs'
  have hat : t.pc i = .store 0 0 := by
    rw [hpcs', Function.update_of_ne hij, hpcs, Function.update_self]
  have hother : t.pc j = .loop k := by rw [hpcs', Function.update_self, Nat.zero_add]
  obtain ⟨u, hu, hpcs'', hcounter'⟩ : ∃ u, (threads ITERATIONS).exec t [i] = some u ∧
      u.pc = Function.update t.pc i (.loop 1) ∧ u.counter = change i := by
    simp [LTS.exec, threads, State.next, State.goto, hat]
  have hreach : (threads ITERATIONS).Reach u :=
    ((LTS.Reach.exec (.init rfl) hs).exec has).exec hu
  have hprints := both_end (n := 1) (k := k) hreach hij (by rw [hpcs'', Function.update_self])
    (by rw [hpcs'', Function.update_of_ne hij.symm, hother]) hi hk
  rw [hcounter'] at hprints
  convert hprints using 1
  push_cast
  ring

/-- **The lost updates**: what `main` of the program without a lock can print is exactly the values
of `Possible`, for every two numbers of rounds. -/
theorem prints_iff (ITERATIONS : Fin 2 → Nat) (v : Int) :
    Prints ITERATIONS v ↔ Possible ITERATIONS v := by
  constructor
  · rintro ⟨s, hs, hdone, rfl⟩
    exact (Inv.reach hs).possible hdone
  · intro hv
    cases hv with
    | alone _ hv =>
      subst hv
      have hstart : (threads ITERATIONS).Reach .start := .init rfl
      have hprints := both_end (i := 0) (j := 1) (n := 0) (k := 0) hstart (by decide) rfl rfl
        (Nat.zero_le _) (Nat.zero_le _)
      convert hprints using 1
      simp only [State.start, change]
      ring
    | rival h0 h1 hlow hhigh =>
      by_cases hless : v ≤ ITERATIONS 0 - ITERATIONS 1
      · -- the consumer stores over the producer
        obtain ⟨k, hk⟩ := Int.eq_ofNat_of_zero_le (Int.sub_nonneg_of_le hless)
        have hprints := @lose ITERATIONS 1 0 (by decide) k (Nat.pos_of_ne_zero h1) (by omega)
        convert hprints using 1
        simp only [change]
        omega
      · obtain ⟨k, hk⟩ := Int.eq_ofNat_of_zero_le
          (Int.sub_nonneg_of_le (Int.le_of_lt (Int.not_le.mp hless)))
        have hprints := @lose ITERATIONS 0 1 (by decide) k (Nat.pos_of_ne_zero h0) (by omega)
        convert hprints using 1
        simp only [change]
        omega

end Ops.Counter.Base
