import Ops.Peterson.Process

/-!
# Exclusion and progress

A thread that is between `lock` and `unlock` while the other one has announced its turn has the
turn itself (`Inv.turn`). So one thread at most is inside, `counter` loses no update, and when
nobody but spinning threads is left, one of them enters with its next two steps (`peterson`).
-/

namespace Ops.Peterson

variable {ITERATIONS : Fin 2 → Nat} {s t : State} {i k : Fin 2}

/-! ## Where a thread is -/

namespace Pc

/-- Between the two stores of its flag. -/
def interested : Pc → Bool
  | turn _ | testFlag _ | testTurn _ | load _ | store _ _ | unlock _ => true
  | loop _ | flag _ | done => false

def turned : Pc → Bool
  | testFlag _ | testTurn _ | load _ | store _ _ | unlock _ => true
  | loop _ | flag _ | turn _ | done => false

def spins : Pc → Bool
  | testFlag _ | testTurn _ => true
  | _ => false

/-- Between `lock` and `unlock`. -/
def inside : Pc → Bool
  | load _ | store _ _ | unlock _ => true
  | loop _ | flag _ | turn _ | testFlag _ | testTurn _ | done => false

def changes (ITERATIONS : Nat) : Pc → Nat
  | loop n | flag n | turn n | testFlag n | testTurn n | load n | store n _ => n
  | unlock n => n + 1
  | done => ITERATIONS

/-- With `counter`. -/
def Fits (ITERATIONS : Nat) (counter : Int) : Pc → Prop
  | loop n => n ≤ ITERATIONS
  | flag n | turn n | testFlag n | testTurn n | load n | unlock n => n < ITERATIONS
  | store n v => n < ITERATIONS ∧ v = counter
  | done => True

variable {c : Pc}

theorem turned_of_spins (h : c.spins = true) : c.turned = true := by
  cases c with
  | testFlag | testTurn => rfl
  | _ => cases h

theorem turned_of_inside (h : c.inside = true) : c.turned = true := by
  cases c with
  | load | store | unlock => rfl
  | _ => cases h

theorem interested_of_turned (h : c.turned = true) : c.interested = true := by
  cases c with
  | loop | flag | turn | done => cases h
  | _ => rfl

theorem fits_of_out {n : Nat} {counter counter' : Int} (hout : c.inside = false)
    (h : c.Fits n counter) : c.Fits n counter' := by
  cases c with
  | store => cases hout
  | _ => exact h

theorem Fits.changes_le {n : Nat} {counter : Int} (h : c.Fits n counter) : c.changes n ≤ n := by
  cases c with
  | loop => exact h
  | store => exact Nat.le_of_lt h.1
  | unlock => exact h
  | done => exact Nat.le_refl n
  | _ => exact Nat.le_of_lt h

end Pc

theorem other_ne (i : Fin 2) : other i ≠ i := by decide +revert

theorem other_other (i : Fin 2) : other (other i) = i := by decide +revert

theorem eq_other (h : k ≠ i) : k = other i := by decide +revert

/-! ## What should hold -/

structure Correct (ITERATIONS : Fin 2 → Nat) (s : State) : Prop where
  exclusion : ¬ ((s.pc 0).inside = true ∧ (s.pc 1).inside = true)
  range : -ITERATIONS 1 ≤ s.counter ∧ s.counter ≤ ITERATIONS 0
  counter : (∀ i, s.pc i = .done) → s.counter = ITERATIONS 0 - ITERATIONS 1
  /-- Who only spins is let in by two steps of its own, whatever the other one does. -/
  enters : (∃ i, (s.pc i).spins = true) → (∀ i, (s.pc i).spins = true ∨ s.pc i = .done) →
    ∃ i, (s.pc i).spins = true ∧ ∀ as t, (threads ITERATIONS).exec s as = some t →
      2 ≤ as.count i → ∃ before after u, as = before ++ after ∧
        (threads ITERATIONS).exec s before = some u ∧ (u.pc i).inside = true

structure Inv (ITERATIONS : Fin 2 → Nat) (s : State) : Prop where
  flag : ∀ i, s.flag i = if (s.pc i).interested then 1 else 0
  turn : ∀ i, (s.pc i).inside = true → (s.pc (other i)).turned = true → s.turn = i
  counter : s.counter = (s.pc 0).changes (ITERATIONS 0) - (s.pc 1).changes (ITERATIONS 1)
  fits : ∀ i, (s.pc i).Fits (ITERATIONS i) s.counter

namespace Inv

variable {c₀ c : Pc}

theorem alone (h : Inv ITERATIONS s) (hi : (s.pc i).inside = true) :
    (s.pc (other i)).inside = false :=
  Bool.eq_false_iff.mpr fun hk => by
    have hturn := h.turn i hi (Pc.turned_of_inside hk)
    have hturn' := h.turn (other i) hk (by rw [other_other]; exact Pc.turned_of_inside hi)
    exact other_ne i (hturn'.symm.trans hturn)

/-! ## Steps -/

/-- A step of thread `i` from `c₀`, with the new values of what it writes. -/
theorem move {flag : Fin 2 → Int} {turn : Fin 2} {counter : Int} (h : Inv ITERATIONS s)
    (hpc : s.pc i = c₀)
    (hflag : flag = Function.update s.flag i (if c.interested then 1 else 0))
    (hturn : c.inside = true → (s.pc (other i)).turned = true → turn = i)
    (hturn' : (s.pc (other i)).inside = true → c.turned = true → turn = other i)
    (hcounter : counter = s.counter ∧ c.changes (ITERATIONS i) = c₀.changes (ITERATIONS i) ∨
      c₀.inside = true ∧ counter = s.counter + change i ∧
        c.changes (ITERATIONS i) = c₀.changes (ITERATIONS i) + 1)
    (hfits : c.Fits (ITERATIONS i) counter) :
    Inv ITERATIONS ({ s with flag := flag, turn := turn, counter := counter }.setPc i c) := by
  subst hpc
  refine ⟨fun k => ?_, fun k => ?_, ?_, fun k => ?_⟩
  · show flag k = if (Function.update s.pc i c k).interested then 1 else 0
    rw [hflag]
    by_cases hk : k = i
    · rw [hk, Function.update_self, Function.update_self]
    · rw [Function.update_of_ne hk, Function.update_of_ne hk]
      exact h.flag k
  · show (Function.update s.pc i c k).inside = true →
      (Function.update s.pc i c (other k)).turned = true → turn = k
    by_cases hk : k = i
    · rw [hk, Function.update_self, Function.update_of_ne (other_ne i)]
      exact hturn
    · rw [Function.update_of_ne hk, eq_other hk, other_other, Function.update_self]
      exact hturn'
  · have hbefore := h.counter
    show counter = ((Function.update s.pc i c 0).changes (ITERATIONS 0) : Int) -
      (Function.update s.pc i c 1).changes (ITERATIONS 1)
    match i with
    | 0 =>
      rw [Function.update_self, Function.update_of_ne (by decide)]
      rcases hcounter with ⟨rfl, hsame⟩ | ⟨-, rfl, hup⟩
      · omega
      · have hone : change 0 = 1 := rfl
        omega
    | 1 =>
      rw [Function.update_self, Function.update_of_ne (by decide)]
      rcases hcounter with ⟨rfl, hsame⟩ | ⟨-, rfl, hup⟩
      · omega
      · have hone : change 1 = -1 := rfl
        omega
  · show (Function.update s.pc i c k).Fits (ITERATIONS k) counter
    by_cases hk : k = i
    · rw [hk, Function.update_self]
      exact hfits
    · rw [Function.update_of_ne hk]
      rcases hcounter with ⟨rfl, -⟩ | ⟨hin, -⟩
      · exact h.fits k
      · exact Pc.fits_of_out (eq_other hk ▸ h.alone hin) (h.fits k)

theorem move_pc (h : Inv ITERATIONS s) (hpc : s.pc i = c₀)
    (hinterested : c.interested = c₀.interested)
    (hchanges : c.changes (ITERATIONS i) = c₀.changes (ITERATIONS i))
    (hturn : c.inside = true → (s.pc (other i)).turned = true → s.turn = i)
    (hturned : c.turned = c₀.turned) (hfits : c.Fits (ITERATIONS i) s.counter) :
    Inv ITERATIONS (s.setPc i c) := by
  refine h.move hpc ?_ hturn (fun hin hc => ?_) (.inl ⟨rfl, hchanges⟩) hfits
  · rw [hinterested, ← hpc, ← h.flag i, Function.update_eq_self]
  · exact h.turn (other i) hin (by rw [other_other, hpc, ← hturned]; exact hc)

theorem flag_kept (h : Inv ITERATIONS s) (hpc : s.pc i = c₀)
    (hinterested : c₀.interested = true) : s.flag = Function.update s.flag i 1 := by
  have hflag := h.flag i
  rw [hpc, if_pos hinterested] at hflag
  exact (Function.update_eq_self_iff.mpr hflag.symm).symm

theorem step (h : Inv ITERATIONS s) (hn : s.next ITERATIONS i = some t) : Inv ITERATIONS t := by
  have hfits := h.fits i
  have hturn := h.turn i
  have hturn' := h.turn (other i)
  rw [other_other] at hturn'
  unfold State.next at hn
  obtain ⟨c, hpc⟩ : ∃ c, s.pc i = c := ⟨_, rfl⟩
  rw [hpc] at hfits hturn hturn' hn
  cases c with
  | loop n =>
    cases hn
    split
    · rename_i hi
      exact h.move_pc hpc rfl rfl (by rintro ⟨⟩) rfl hi
    · rename_i hi
      have hlast : n = ITERATIONS i := Nat.le_antisymm hfits (Nat.not_lt.mp hi)
      exact h.move_pc hpc rfl hlast.symm (by rintro ⟨⟩) rfl trivial
  | flag n =>
    cases hn
    exact h.move hpc rfl (by rintro ⟨⟩) (by rintro _ ⟨⟩) (.inl ⟨rfl, rfl⟩) hfits
  | turn n =>
    cases hn
    exact h.move hpc (h.flag_kept hpc rfl) (by rintro ⟨⟩) (fun _ _ => rfl) (.inl ⟨rfl, rfl⟩) hfits
  | testFlag n =>
    cases hn
    have hk := h.flag (other i)
    split
    · exact h.move_pc hpc rfl rfl (by rintro ⟨⟩) rfl hfits
    · rename_i hzero
      -- the other one is not interested
      refine h.move_pc hpc rfl rfl (fun _ hturned => ?_) rfl hfits
      rw [if_pos (Pc.interested_of_turned hturned)] at hk
      exact absurd hk (by rw [not_not.mp hzero]; decide)
  | testTurn n =>
    cases hn
    split
    · exact h.move_pc hpc rfl rfl (by rintro ⟨⟩) rfl hfits
    · rename_i hgiven
      refine h.move_pc hpc rfl rfl (fun _ _ => ?_) rfl hfits
      by_contra hne
      exact hgiven (eq_other hne)
  | load n =>
    cases hn
    exact h.move_pc hpc rfl rfl (fun _ => hturn rfl) rfl ⟨hfits, rfl⟩
  | store n v =>
    cases hn
    obtain ⟨hlt, rfl⟩ := hfits
    exact h.move hpc (h.flag_kept hpc rfl) (fun _ => hturn rfl) (fun hin _ => hturn' hin rfl)
      (.inr ⟨rfl, rfl, rfl⟩) hlt
  | unlock n =>
    cases hn
    exact h.move hpc rfl (by rintro ⟨⟩) (by rintro _ ⟨⟩) (.inl ⟨rfl, rfl⟩) hfits
  | done => cases hn

theorem init : Inv ITERATIONS .start where
  flag _ := rfl
  turn := by rintro _ ⟨⟩
  counter := rfl
  fits _ := Nat.zero_le _

theorem reach (hr : (threads ITERATIONS).Reach s) : Inv ITERATIONS s :=
  LTS.Reach.inv (fun _ hs => hs ▸ init) (fun _ _ _ _ hi hn => hi.step hn) hr

end Inv

/-! ## Progress -/

/-- Thread `i` is about to enter: the other one spins and has given its turn away, or is done. -/
structure Favoured (ITERATIONS : Fin 2 → Nat) (i : Fin 2) (s : State) : Prop where
  inv : Inv ITERATIONS s
  spins : (s.pc i).spins = true
  rival : (s.pc (other i)).spins = true ∧ s.turn = i ∨ s.pc (other i) = .done

/-- How many steps a thread needs that spins, alone or while the other one spins. -/
def Pc.distance (alone : Bool) : Pc → Nat
  | testFlag _ => if alone then 1 else 2
  | testTurn _ => if alone then 2 else 1
  | _ => 0

theorem Pc.distance_range {c : Pc} (h : c.spins = true) (alone : Bool) :
    0 < c.distance alone ∧ c.distance alone ≤ 2 := by
  cases c with
  | testFlag | testTurn => cases alone <;> simp [distance]
  | _ => cases h

def State.distance (s : State) (i : Fin 2) : Nat :=
  (s.pc i).distance (decide (s.pc (other i) = .done))

@[simp] theorem State.setPc_self (s : State) (i : Fin 2) (c : Pc) : (s.setPc i c).pc i = c := by
  simp only [State.setPc, Function.update_self]

@[simp] theorem State.setPc_other (s : State) (i : Fin 2) (c : Pc) :
    (s.setPc i c).pc (other i) = s.pc (other i) := by
  simp only [State.setPc, Function.update_of_ne (other_ne i)]

@[simp] theorem State.setPc_rival (s : State) (i : Fin 2) (c : Pc) :
    (s.setPc (other i) c).pc i = s.pc i := by
  simp only [State.setPc, Function.update_of_ne (other_ne i).symm]

namespace Favoured

theorem flag (h : Favoured ITERATIONS i s) : s.flag i = 1 := by
  rw [h.inv.flag i, if_pos (Pc.interested_of_turned (Pc.turned_of_spins h.spins))]

theorem own (h : Favoured ITERATIONS i s) (hn : s.next ITERATIONS i = some t) :
    (t.pc i).inside = true ∨ Favoured ITERATIONS i t ∧ t.distance i + 1 ≤ s.distance i := by
  have hinv := h.inv.step hn
  have hflag := h.inv.flag (other i)
  have hspins := h.spins
  unfold State.next at hn
  cases hpc : s.pc i with
  | testFlag n =>
    rw [hpc] at hn
    cases hn
    rcases h.rival with ⟨hrival, hturn⟩ | hdone
    · rw [if_pos (Pc.interested_of_turned (Pc.turned_of_spins hrival))] at hflag
      have htest : s.flag (other i) ≠ 0 := by rw [hflag]; decide
      have hne : s.pc (other i) ≠ .done := fun hdone => by rw [hdone] at hrival; cases hrival
      rw [if_pos htest] at hinv ⊢
      refine .inr ⟨⟨hinv, by simp [Pc.spins], .inl ⟨by simpa using hrival, hturn⟩⟩, ?_⟩
      simp [State.distance, Pc.distance, hpc, hne]
    · rw [hdone] at hflag
      have htest : ¬ s.flag (other i) ≠ 0 := not_not.mpr hflag
      rw [if_neg htest]
      exact .inl (by simp [Pc.inside])
  | testTurn n =>
    rw [hpc] at hn
    cases hn
    rcases h.rival with ⟨hrival, hturn⟩ | hdone
    · have htest : ¬ s.turn = other i := by
        rw [hturn]
        exact (other_ne i).symm
      rw [if_neg htest]
      exact .inl (by simp [Pc.inside])
    · by_cases htest : s.turn = other i
      · rw [if_pos htest] at hinv ⊢
        refine .inr ⟨⟨hinv, by simp [Pc.spins], .inr (by simpa using hdone)⟩, ?_⟩
        simp [State.distance, Pc.distance, hpc, hdone]
      · rw [if_neg htest]
        exact .inl (by simp [Pc.inside])
  | _ => rw [hpc] at hspins; cases hspins

theorem rival_step (h : Favoured ITERATIONS i s) (hn : s.next ITERATIONS (other i) = some t) :
    Favoured ITERATIONS i t ∧ t.distance i ≤ s.distance i := by
  have hinv := h.inv.step hn
  have hflag := h.flag
  unfold State.next at hn
  rcases h.rival with ⟨hrival, hturn⟩ | hdone
  · have hne : s.pc (other i) ≠ .done := fun hdone => by rw [hdone] at hrival; cases hrival
    cases hpc : s.pc (other i) with
    | testFlag n =>
      rw [hpc] at hn
      cases hn
      have htest : s.flag (other (other i)) ≠ 0 := by
        rw [other_other, hflag]
        decide
      rw [if_pos htest] at hinv ⊢
      exact ⟨⟨hinv, by simpa using h.spins, .inl ⟨by simp [Pc.spins], hturn⟩⟩,
        by simp [State.distance, hpc]⟩
    | testTurn n =>
      rw [hpc] at hn
      cases hn
      have htest : s.turn = other (other i) := by rw [other_other, hturn]
      rw [if_pos htest] at hinv ⊢
      exact ⟨⟨hinv, by simpa using h.spins, .inl ⟨by simp [Pc.spins], hturn⟩⟩,
        by simp [State.distance, hpc]⟩
    | _ => rw [hpc] at hrival; cases hrival
  · rw [hdone] at hn
    cases hn

theorem enters (h : Favoured ITERATIONS i s) {as : List (Fin 2)}
    (he : (threads ITERATIONS).exec s as = some t) (hcount : 2 ≤ as.count i) :
    ∃ before after u, as = before ++ after ∧ (threads ITERATIONS).exec s before = some u ∧
      (u.pc i).inside = true := by
  have hpos : ∀ s, Favoured ITERATIONS i s → 0 < s.distance i := fun s hs =>
    (Pc.distance_range hs.spins _).1
  have hle : s.distance i ≤ as.count i := Nat.le_trans (Pc.distance_range h.spins _).2 hcount
  refine LTS.exec_hits (P := fun k => k == i) (fun s => s.distance i) hpos
    (fun s k t hs hn => ?_) h he hle
  by_cases hk : k = i
  · subst hk
    rw [beq_self_eq_true]
    exact hs.own hn
  · rw [beq_eq_false_iff_ne.mpr hk]
    rw [eq_other hk] at hn
    exact .inr (hs.rival_step hn)

end Favoured

namespace Inv

theorem enters (h : Inv ITERATIONS s) (hsome : ∃ i, (s.pc i).spins = true)
    (hall : ∀ i, (s.pc i).spins = true ∨ s.pc i = .done) :
    ∃ i, Favoured ITERATIONS i s := by
  obtain ⟨i, hi⟩ := hsome
  rcases hall (other i) with hrival | hdone
  · by_cases hturn : s.turn = i
    · exact ⟨i, h, hi, .inl ⟨hrival, hturn⟩⟩
    · exact ⟨other i, h, hrival, .inl ⟨by rw [other_other]; exact hi, eq_other hturn⟩⟩
  · exact ⟨i, h, hi, .inr hdone⟩

theorem correct (h : Inv ITERATIONS s) : Correct ITERATIONS s where
  exclusion := by
    rintro ⟨hzero, hone⟩
    have hout : (s.pc 1).inside = false := h.alone (i := 0) hzero
    rw [hone] at hout
    cases hout
  range := by
    have hcounter := h.counter
    have hup := (h.fits 0).changes_le
    have hdown := (h.fits 1).changes_le
    omega
  counter hdone := by
    rw [h.counter, hdone 0, hdone 1]
    rfl
  enters hsome hall := by
    obtain ⟨i, hi⟩ := h.enters hsome hall
    exact ⟨i, hi.spins, fun _ _ he hcount => hi.enters he hcount⟩

end Inv

/-- **Peterson's lock.** In every state, for every number of rounds of each thread. -/
theorem peterson (ITERATIONS : Fin 2 → Nat) :
    ∀ s, (threads ITERATIONS).Reach s → Correct ITERATIONS s :=
  fun _ hr => (Inv.reach hr).correct

/-- The producer is inside while the consumer spins. -/
theorem peterson_one : ∃ s, (threads fun _ => 1).Reach s ∧ (s.pc 0).inside = true ∧
    (s.pc 1).spins = true ∧ Correct (fun _ => 1) s := by
  have hrun : ∃ s, (threads fun _ => 1).exec .start [0, 0, 0, 0, 1, 1, 1] = some s ∧
      (s.pc 0).inside = true ∧ (s.pc 1).spins = true := ⟨_, rfl, rfl, rfl⟩
  obtain ⟨s, he, hin, hspins⟩ := hrun
  have hr : (threads fun _ => 1).Reach s := LTS.Reach.exec (.init rfl) he
  exact ⟨s, hr, hin, hspins, peterson (fun _ => 1) s hr⟩

end Ops.Peterson
