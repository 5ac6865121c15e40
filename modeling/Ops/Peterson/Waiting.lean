import Ops.Peterson.Exclusion

/-!
# Nobody is locked out (`03_peterson_atomic.c`)

A rival that comes through `turn = j` again gives the turn to the thread that waits, and then it
spins. So while thread `i` spins, the rival enters at most in the round it is in (`once`), and with
eight steps it is spinning itself or done (`Favoured`): then two steps let `i` in.
-/

namespace Ops.Peterson

variable {ITERATIONS : Fin 2 → Nat} {s t : State} {i : Fin 2}

namespace Pc

def round (ITERATIONS : Nat) : Pc → Nat
  | loop n | flag n | turn n | testFlag n | testTurn n | load n | store n _ | unlock n => n
  | done => ITERATIONS

/-- The rival's steps until it has given the turn away, or until it is done. -/
def approach : Pc → Nat
  | testFlag _ => 8
  | testTurn _ => 7
  | load _ => 6
  | store _ _ => 5
  | unlock _ => 4
  | loop _ => 3
  | flag _ => 2
  | turn _ => 1
  | done => 0

end Pc

/-! ## The rival's steps -/

/-- Thread `i` spins, and is not favoured yet. -/
structure Waits (ITERATIONS : Fin 2 → Nat) (i : Fin 2) (s : State) : Prop where
  inv : Inv ITERATIONS s
  spins : (s.pc i).spins = true
  early : ¬ ((s.pc (other i)).spins = true ∧ s.turn = i ∨ s.pc (other i) = .done)

theorem favoured_or_waits (h : Inv ITERATIONS s) (hspins : (s.pc i).spins = true) :
    Favoured ITERATIONS i s ∨ Waits ITERATIONS i s := by
  by_cases hearly : (s.pc (other i)).spins = true ∧ s.turn = i ∨ s.pc (other i) = .done
  · exact .inl ⟨h, hspins, hearly⟩
  · exact .inr ⟨h, hspins, hearly⟩

namespace Waits

theorem pos (h : Waits ITERATIONS i s) : 0 < (s.pc (other i)).approach := by
  have hearly := h.early
  cases hpc : s.pc (other i) with
  | done => exact absurd (.inr hpc) hearly
  | _ => exact Nat.succ_pos _

theorem turn (h : Waits ITERATIONS i s) (hrival : (s.pc (other i)).spins = true) :
    s.turn = other i :=
  eq_other fun hturn => h.early (.inl ⟨hrival, hturn⟩)

/-- A step of the rival brings it nearer to the place where it gives the turn away. -/
theorem rival_step (h : Waits ITERATIONS i s) (hn : s.next ITERATIONS (other i) = some t) :
    (t.pc (other i)).approach + 1 ≤ (s.pc (other i)).approach ∨ Favoured ITERATIONS i t := by
  have hinv := h.inv.step hn
  have hflag := h.inv.flag i
  rw [if_pos (Pc.interested_of_turned (Pc.turned_of_spins h.spins))] at hflag
  unfold State.next at hn
  cases hpc : s.pc (other i) with
  | loop n =>
    rw [hpc] at hn
    cases hn
    split at hinv
    · rename_i hlt
      refine .inl ?_
      rw [if_pos hlt, State.setPc_self]
      exact Nat.le_refl 3
    · rename_i hge
      refine .inr ?_
      rw [if_neg hge]
      exact ⟨hinv, by simpa using h.spins, .inr (State.setPc_self ..)⟩
  | turn n =>
    rw [hpc] at hn
    cases hn
    refine .inr ⟨hinv, by simpa using h.spins, .inl ⟨?_, other_other i⟩⟩
    rw [State.setPc_self]
    rfl
  | testFlag n =>
    rw [hpc] at hn
    cases hn
    refine .inl ?_
    rw [State.setPc_self]
    split
    · exact Nat.le_refl 8
    · exact Nat.le_succ 7
  | testTurn n =>
    rw [hpc] at hn
    cases hn
    have hturn := h.turn (by rw [hpc]; rfl)
    have htest : ¬ s.turn = other (other i) := by
      rw [hturn, other_other]
      exact other_ne i
    refine .inl ?_
    rw [if_neg htest, State.setPc_self]
    exact Nat.le_refl 7
  | flag n | load n | store n v | unlock n =>
    rw [hpc] at hn
    cases hn
    refine .inl ?_
    rw [State.setPc_self]
    exact Nat.le_refl _
  | done =>
    rw [hpc] at hn
    cases hn

theorem rival_spins (h : Waits ITERATIONS i s) (hn : s.next ITERATIONS (other i) = some t) :
    (t.pc i).spins = true := by
  have hspins := h.spins
  unfold State.next at hn
  split at hn <;> cases hn <;> simpa using hspins

theorem own_step (h : Waits ITERATIONS i s) (hn : s.next ITERATIONS i = some t) :
    (t.pc i).inside = true ∨ (t.pc i).spins = true ∧ t.pc (other i) = s.pc (other i) := by
  have hspins := h.spins
  unfold State.next at hn
  cases hpc : s.pc i with
  | testFlag n | testTurn n =>
    rw [hpc] at hn
    cases hn
    rw [State.setPc_self, State.setPc_other]
    split
    · exact .inr ⟨rfl, rfl⟩
    · exact .inl rfl
  | _ => rw [hpc] at hspins; cases hspins

end Waits

/-! ## Bounded waiting -/

/-- Thread `i` is inside, or it will be with two steps of its own. -/
def Served (ITERATIONS : Fin 2 → Nat) (i : Fin 2) (s : State) : Prop :=
  (s.pc i).inside = true ∨ Favoured ITERATIONS i s

theorem Waits.step {k : Fin 2} (h : Waits ITERATIONS i s) (hn : s.next ITERATIONS k = some t) :
    Served ITERATIONS i t ∨ Waits ITERATIONS i t ∧
      (t.pc (other i)).approach + (k == other i).toNat ≤ (s.pc (other i)).approach := by
  by_cases hk : k = i
  · subst hk
    rw [beq_eq_false_iff_ne.mpr (other_ne k).symm]
    rcases h.own_step hn with hin | ⟨hspins, hsame⟩
    · exact .inl (.inl hin)
    · rcases favoured_or_waits (h.inv.step hn) hspins with hfav | hwaits
      · exact .inl (.inr hfav)
      · exact .inr ⟨hwaits, by rw [hsame]; exact Nat.le_refl _⟩
  · obtain rfl := eq_other hk
    rw [beq_self_eq_true]
    rcases h.rival_step hn with hlower | hfav
    · rcases favoured_or_waits (h.inv.step hn) (h.rival_spins hn) with hfav | hwaits
      · exact .inl (.inr hfav)
      · exact .inr ⟨hwaits, hlower⟩
    · exact .inl (.inr hfav)

theorem approach_le (c : Pc) : c.approach ≤ 8 := by
  cases c <;> simp [Pc.approach]

/-- With eight steps of the rival, or when it is done, thread `i` has been served. -/
theorem Waits.served {as : List (Fin 2)} (h : Waits ITERATIONS i s)
    (he : (threads ITERATIONS).exec s as = some t)
    (hcount : 8 ≤ as.count (other i) ∨ t.pc (other i) = .done) :
    ∃ before after u, as = before ++ after ∧ (threads ITERATIONS).exec s before = some u ∧
      Served ITERATIONS i u := by
  rcases hcount with hcount | hdone
  · exact LTS.exec_hits (P := fun k => k == other i) (fun s => (s.pc (other i)).approach)
      (fun _ hs => hs.pos) (fun _ _ _ hs hn => hs.step hn) h he
      (Nat.le_trans (approach_le _) hcount)
  · refine (LTS.exec_until (I := Waits ITERATIONS i) (fun _ _ _ hs hn => ?_) h he).resolve_left
      fun hwaits => hwaits.early (.inr hdone)
    exact (hs.step hn).symm.imp_left And.left

theorem Served.enters {as : List (Fin 2)} (h : Served ITERATIONS i s)
    (he : (threads ITERATIONS).exec s as = some t) (hcount : 2 ≤ as.count i) :
    ∃ before after u, as = before ++ after ∧ (threads ITERATIONS).exec s before = some u ∧
      (u.pc i).inside = true := by
  rcases h with hin | hfav
  · exact ⟨[], as, s, rfl, rfl, hin⟩
  · exact hfav.enters he hcount

/-- While thread `i` spins, the rival comes inside in the round that it is in, or not at all. -/
structure Once (ITERATIONS : Fin 2 → Nat) (i : Fin 2) (round : Nat) (s : State) : Prop where
  inv : Inv ITERATIONS s
  spins : (s.pc i).spins = true
  once : (s.pc (other i)).round (ITERATIONS (other i)) = round ∨
    (s.pc (other i)).turned = false ∨ (s.pc (other i)).spins = true ∧ s.turn = i

theorem Once.rival_step {round : Nat} (h : Once ITERATIONS i round s)
    (hn : s.next ITERATIONS (other i) = some t) :
    (t.pc (other i)).round (ITERATIONS (other i)) = round ∨
      (t.pc (other i)).turned = false ∨ (t.pc (other i)).spins = true ∧ t.turn = i := by
  have honce := h.once
  have hflag := h.inv.flag i
  rw [if_pos (Pc.interested_of_turned (Pc.turned_of_spins h.spins))] at hflag
  unfold State.next at hn
  cases hpc : s.pc (other i) with
  | loop n =>
    rw [hpc] at hn
    cases hn
    rw [State.setPc_self]
    split <;> exact .inr (.inl rfl)
  | flag n | unlock n =>
    rw [hpc] at hn
    cases hn
    rw [State.setPc_self]
    exact .inr (.inl rfl)
  | turn n =>
    rw [hpc] at hn
    cases hn
    rw [State.setPc_self]
    exact .inr (.inr ⟨rfl, other_other i⟩)
  | testFlag n =>
    rw [hpc] at hn honce
    cases hn
    have htest : s.flag (other (other i)) ≠ 0 := by
      rw [other_other, hflag]
      decide
    rw [if_pos htest, State.setPc_self]
    exact honce
  | testTurn n =>
    rw [hpc] at hn honce
    cases hn
    rw [State.setPc_self]
    rcases honce with hround | hnot | ⟨-, hturn⟩
    · refine .inl ?_
      split <;> exact hround
    · cases hnot
    · have htest : s.turn = other (other i) := by rw [other_other, hturn]
      rw [if_pos htest]
      exact .inr (.inr ⟨rfl, hturn⟩)
  | load n | store n v =>
    rw [hpc] at hn honce
    cases hn
    rw [State.setPc_self]
    rcases honce with hround | hnot | ⟨hnot, -⟩
    · exact .inl hround
    · cases hnot
    · cases hnot
  | done =>
    rw [hpc] at hn
    cases hn

theorem Once.step {round : Nat} {k : Fin 2} (h : Once ITERATIONS i round s)
    (hn : s.next ITERATIONS k = some t) (hspins : (t.pc i).spins = true) :
    Once ITERATIONS i round t := by
  refine ⟨h.inv.step hn, hspins, ?_⟩
  by_cases hk : k = i
  · subst hk
    have hsame : t.pc (other k) = s.pc (other k) ∧ t.turn = s.turn := by
      have hspins' := h.spins
      unfold State.next at hn
      cases hpc : s.pc k with
      | testFlag n | testTurn n =>
        rw [hpc] at hn
        cases hn
        exact ⟨State.setPc_other .., rfl⟩
      | _ => rw [hpc] at hspins'; cases hspins'
    rw [hsame.1, hsame.2]
    exact h.once
  · obtain rfl := eq_other hk
    exact h.rival_step hn

/-- In every state of the run from `s` on `as` thread `i` spins. -/
def Spins (ITERATIONS : Fin 2 → Nat) (i : Fin 2) (s : State) (as : List (Fin 2)) : Prop :=
  ∀ before after u, as = before ++ after → (threads ITERATIONS).exec s before = some u →
    (u.pc i).spins = true

theorem Once.exec {round : Nat} {as : List (Fin 2)} (h : Once ITERATIONS i round s)
    (he : (threads ITERATIONS).exec s as = some t) (hall : Spins ITERATIONS i s as) :
    Once ITERATIONS i round t := by
  induction as generalizing s with
  | nil =>
    cases he
    exact h
  | cons k as ih =>
    obtain ⟨u, hu, hrest⟩ := LTS.exec_cons_some.mp he
    have hspins : (u.pc i).spins = true := hall [k] as u rfl (LTS.exec_cons hu [])
    refine ih (h.step hu hspins) hrest fun before after v hsplit hv => ?_
    exact hall (k :: before) after v (congrArg _ hsplit) ((LTS.exec_cons hu before).trans hv)

/-- **Nobody is locked out**: while a thread spins, the other one is inside only in the round in
which it was when the thread began to spin, and a run with eight steps of the other one, or after
which it is done, and then with two steps of the thread comes through a state in which the thread
is inside. -/
theorem bounded_waiting (hs : (threads ITERATIONS).Reach s) (hspins : (s.pc i).spins = true) :
    (∀ as t, (threads ITERATIONS).exec s as = some t → Spins ITERATIONS i s as →
      (t.pc (other i)).inside = true →
        (t.pc (other i)).round (ITERATIONS (other i)) =
          (s.pc (other i)).round (ITERATIONS (other i))) ∧
    ∀ as bs t u, (threads ITERATIONS).exec s as = some t →
      (threads ITERATIONS).exec t bs = some u →
      8 ≤ as.count (other i) ∨ t.pc (other i) = .done → 2 ≤ bs.count i →
      ∃ before after v, as ++ bs = before ++ after ∧
        (threads ITERATIONS).exec s before = some v ∧ (v.pc i).inside = true := by
  have hinv := Inv.reach hs
  refine ⟨fun as t he hall hin => ?_, fun as bs t u he he' hcount htwo => ?_⟩
  · have honce : Once ITERATIONS i _ t := Once.exec ⟨hinv, hspins, .inl rfl⟩ he hall
    rcases honce.once with hround | hnot | ⟨hnot, -⟩
    · exact hround
    · rw [Pc.turned_of_inside hin] at hnot
      cases hnot
    · cases hpc : t.pc (other i) with
      | testFlag | testTurn => rw [hpc] at hin; cases hin
      | _ => rw [hpc] at hnot; cases hnot
  · obtain ⟨before, after, v, hsplit, hv, hserved⟩ : ∃ before after v, as = before ++ after ∧
        (threads ITERATIONS).exec s before = some v ∧ Served ITERATIONS i v := by
      rcases favoured_or_waits hinv hspins with hfav | hwaits
      · exact ⟨[], as, s, rfl, rfl, .inr hfav⟩
      · exact hwaits.served he hcount
    -- the rest of the run has the two steps
    have hrest : (threads ITERATIONS).exec v (after ++ bs) = some u := by
      rw [hsplit, LTS.exec_append, hv] at he
      rw [LTS.exec_append]
      exact (congrArg (Option.bind · _) he).trans he'
    have htwo' : 2 ≤ (after ++ bs).count i := by
      rw [List.count_append]
      exact Nat.le_trans htwo (Nat.le_add_left ..)
    obtain ⟨mid, last, w, hsplit', hw, hin⟩ := hserved.enters hrest htwo'
    refine ⟨before ++ mid, last, w, ?_, by rw [LTS.exec_append, hv]; exact hw, hin⟩
    rw [hsplit, List.append_assoc, hsplit', List.append_assoc]

/-- The consumer spins while the producer is inside, and comes in after eight steps of it. -/
theorem bounded_waiting_two : ∃ s, (threads fun _ => 2).Reach s ∧ (s.pc 1).spins = true ∧
    (s.pc 0).inside = true ∧ ∃ before after v,
      [0, 0, 0, 0, 0, 0, 0, 0] ++ [1, 1] = before ++ after ∧
      (threads fun _ => 2).exec s before = some v ∧ (v.pc 1).inside = true := by
  obtain ⟨s, hs, hspins, hin, t, u, ht, hu⟩ : ∃ s, (threads fun _ => 2).exec .start
      [0, 0, 0, 0, 1, 1, 1] = some s ∧ (s.pc 1).spins = true ∧ (s.pc 0).inside = true ∧
      ∃ t u, (threads fun _ => 2).exec s [0, 0, 0, 0, 0, 0, 0, 0] = some t ∧
        (threads fun _ => 2).exec t [1, 1] = some u :=
    ⟨_, rfl, rfl, rfl, _, _, rfl, rfl⟩
  have hreach : (threads fun _ => 2).Reach s := LTS.Reach.exec (.init rfl) hs
  exact ⟨s, hreach, hspins, hin,
    (bounded_waiting hreach hspins).2 _ [1, 1] t u ht hu (.inl (by decide)) (by decide)⟩

end Ops.Peterson
