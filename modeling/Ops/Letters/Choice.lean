import Ops.Letters.Steps

/-!
# The child that gets the letter

For a `SIGINT` the parent looks from a random index on for a child whose descriptor is
not closed. The index runs unreduced up to `2 * n`, so that the search comes round once
from any start; signals and steps of the children in between do not disturb it.
-/

namespace Ops.Letters

variable {n i j : Nat} {s t : State}

def Act.isParent : Act → Bool
  | .parent _ => true
  | _ => false

def Event.isLetter : Event → Bool
  | .letter _ _ => true
  | .sigint => false

/-- The search from `i` in the state `s` has passed over the indices before `j`. -/
structure Searching (n : Nat) (s : State) (i j : Nat) (t : State) : Prop where
  parent : t.parent = .seek j
  ge : i ≤ j
  le : j ≤ 2 * n
  dead : ∀ k, i ≤ k → k < j → s.fds (k % n) = false
  fds : t.fds = s.fds
  letters : t.log.filter Event.isLetter = s.log.filter Event.isLetter

/-- **The search has ended** at `j`. `live`: if there is a child that is not closed, a letter
is written to the first one from `i` on, and the search has not come round. `none`: if there
is none, no letter is written. -/
structure Scanned (n : Nat) (s : State) (i j : Nat) (t : State) : Prop where
  range : j % n < n
  ge : i ≤ j
  le : j ≤ 2 * n
  dead : ∀ k, i ≤ k → k < j → s.fds (k % n) = false
  live : (∃ k < n, s.fds k = true) →
    j < i + n ∧ s.fds (j % n) = true ∧ ∃ c, t.parent = .write (j % n) c
  none : (∀ k < n, s.fds k = false) → t.parent = .clear
  fds : t.fds = s.fds
  letters : t.log.filter Event.isLetter = s.log.filter Event.isLetter

theorem exists_window {k : Nat} (hi : i < n) (hk : k < n) : ∃ m, i ≤ m ∧ m < i + n ∧ m % n = k := by
  by_cases hki : i ≤ k
  · exact ⟨k, hki, by omega, Nat.mod_eq_of_lt hk⟩
  · refine ⟨k + n, by omega, by omega, ?_⟩
    rw [Nat.add_mod_right, Nat.mod_eq_of_lt hk]

theorem Searching.nobody (h : Searching n s i j t) (hi : i < n) (hj : i + n ≤ j) :
    ∀ k < n, s.fds k = false := by
  intro k hk
  obtain ⟨m, him, hmn, rfl⟩ := exists_window hi hk
  exact h.dead m him (Nat.lt_of_lt_of_le hmn hj)

theorem Searching.skip (h : Searching n s i j t) (hdead : t.fds (j % n) = false)
    (hj : j < 2 * n) : Searching n s i (j + 1) (t.goto (.seek (j + 1))) where
  parent := rfl
  ge := Nat.le_succ_of_le h.ge
  le := hj
  dead k hik hk := by
    rcases Nat.lt_succ_iff_lt_or_eq.mp hk with hlt | rfl
    · exact h.dead k hik hlt
    · rw [← h.fds, hdead]
  fds := h.fds
  letters := h.letters

theorem Searching.pick (h : Searching n s i j t) (hi : i < n) (hlive : t.fds (j % n) = true)
    (c : Letter) : Scanned n s i j (t.goto (.write (j % n) c)) := by
  have hn : 0 < n := Nat.lt_of_le_of_lt (Nat.zero_le i) hi
  have hmod : j % n < n := Nat.mod_lt j hn
  rw [h.fds] at hlive
  have hround : j < i + n := by
    by_contra hge
    have hnone := h.nobody hi (Nat.not_lt.mp hge) (j % n) hmod
    rw [hnone] at hlive
    cases hlive
  refine ⟨hmod, h.ge, h.le, h.dead, fun _ => ⟨hround, hlive, c, rfl⟩, fun hnone => ?_, h.fds,
    h.letters⟩
  rw [hnone (j % n) hmod] at hlive
  cases hlive

theorem Searching.stop (h : Searching n s i j t) (hi : i < n) (hj : 2 * n ≤ j) :
    Scanned n s i j (t.goto .clear) := by
  have hn : 0 < n := Nat.lt_of_le_of_lt (Nat.zero_le i) hi
  refine ⟨Nat.mod_lt j hn, h.ge, h.le, h.dead, ?_, fun _ => rfl, h.fds, h.letters⟩
  rintro ⟨k, hk, hlive⟩
  rw [h.nobody hi (by omega) k hk] at hlive
  cases hlive

theorem Searching.parent_step {r : Nat} (h : Searching n s i j t) (hi : i < n) :
    ∃ u, t.next n (.parent r) = some u ∧
      (Searching n s i (j + 1) u ∨ Scanned n s i j u) := by
  have hnext : ∀ p, t.parent_work n r = some p → t.next n (.parent r) = some p := fun p hp => by
    unfold State.next
    rw [h.parent, if_neg (by simp)]
    exact hp
  have hwork : t.parent_work n r = some (t.goto (if t.fds (j % n) = false ∧ j < 2 * n then
      .seek (j + 1) else if t.fds (j % n) then .write (j % n) (Letter.rand r) else .clear)) := by
    unfold State.parent_work
    rw [h.parent]
  refine ⟨_, hnext _ hwork, ?_⟩
  split
  · rename_i hdead
    exact .inl (h.skip hdead.1 hdead.2)
  · rename_i hstop
    split
    · rename_i hlive
      exact .inr (h.pick hi hlive _)
    · rename_i hclosed
      exact .inr (h.stop hi (Nat.not_lt.mp fun hlt => hstop ⟨Bool.eq_false_iff.mpr hclosed, hlt⟩))

theorem Searching.other {act : Act} {u : State} (h : Searching n s i j t)
    (hact : act.isParent = false) (hn : t.next n act = some u) : Searching n s i j u := by
  have haside : ∀ u, Aside t u → Searching n s i j u := fun u ha =>
    ⟨ha.parent.trans h.parent, h.ge, h.le, h.dead, ha.fds.trans h.fds, ha.log ▸ h.letters⟩
  have hstays : ∀ p, Handled t p → p = .seek j := by
    intro p hp
    cases hp with
    | stays => exact h.parent
    | ends errno hwaits =>
      rw [h.parent] at hwaits
      cases hwaits
  cases (next_step hn).2.2 with
  | parent r hwork => cases hact
  | sigint eintr hp hblocked =>
    refine ⟨hstays _ hp, h.ge, h.le, h.dead, h.fds, ?_⟩
    show (t.log ++ [Event.sigint]).filter Event.isLetter = _
    rw [List.filter_append, h.letters]
    exact List.append_nil _
  | sigchld eintr hp => exact ⟨hstays _ hp, h.ge, h.le, h.dead, h.fds, h.letters⟩
  | child hn => exact haside _ (child_step hn).2.2
  | die hn => exact haside _ (die_step hn).2.2

/-- How many indices the search has to come. -/
def State.ahead (n : Nat) (s : State) : Nat :=
  match s.parent with
  | .seek j => 2 * n + 1 - j
  | _ => 0

theorem Searching.ahead (h : Searching n s i j t) : t.ahead n = 2 * n + 1 - j := by
  unfold State.ahead
  rw [h.parent]

theorem Scanned.ahead (h : Scanned n s i j t) : t.ahead n = 0 := by
  unfold State.ahead
  by_cases hlive : ∃ k < n, s.fds k = true
  · obtain ⟨-, -, c, hp⟩ := h.live hlive
    rw [hp]
  · rw [h.none fun k hk => Bool.eq_false_iff.mpr fun hk' => hlive ⟨k, hk, hk'⟩]

theorem Searching.step {act : Act} {u : State} (h : Searching n s i j t) (hi : i < n)
    (hn : t.next n act = some u) :
    (∃ j, Scanned n s i j u) ∨
      (∃ j, Searching n s i j u) ∧ u.ahead n + act.isParent.toNat ≤ t.ahead n := by
  cases hact : act.isParent with
  | true =>
    cases act with
    | parent r =>
      obtain ⟨u', hu', hsearch⟩ := h.parent_step (r := r) hi
      obtain rfl : u = u' := Option.some.inj (hn.symm.trans hu')
      rcases hsearch with hgoes | hends
      · refine .inr ⟨⟨j + 1, hgoes⟩, ?_⟩
        rw [h.ahead, hgoes.ahead]
        have hle := hgoes.le
        simp only [Bool.toNat_true]
        omega
      · exact .inl ⟨j, hends⟩
    | sigint | sigchld | child | die => cases hact
  | false =>
    have hstays := h.other hact hn
    refine .inr ⟨⟨j, hstays⟩, ?_⟩
    rw [h.ahead, hstays.ahead]
    exact Nat.le_refl _

/-- **The search ends, and takes the first child from its start on that is not closed.** It
ends in every run in which the parent makes more than `2 * n` steps, whatever the others do
meanwhile, and the parent can always make them. -/
theorem live_child_chosen (hn : 1 ≤ n) (hi : i < n) (hp : s.parent = .seek i) :
    (∀ as t, (letters n).exec s as = some t → 2 * n < as.countP Act.isParent →
      ∃ before after u j, as = before ++ after ∧ (letters n).exec s before = some u ∧
        Scanned n s i j u) ∧
    ∃ as t j, (∀ a ∈ as, a.isParent = true) ∧ (letters n).exec s as = some t ∧
      Scanned n s i j t := by
  have hbegin : Searching n s i i s :=
    ⟨hp, Nat.le_refl i, by omega, fun k hik hk => absurd hik (Nat.not_le.mpr hk), rfl, rfl⟩
  refine ⟨fun as t he hcount => ?_, ?_⟩
  · have hhits := LTS.exec_hits (I := fun u => ∃ j, Searching n s i j u)
      (G := fun u => ∃ j, Scanned n s i j u) (P := Act.isParent) (State.ahead n) ?_ ?_
      ⟨i, hbegin⟩ he ?_
    · obtain ⟨before, after, u, hsplit, hu, j, hj⟩ := hhits
      exact ⟨before, after, u, j, hsplit, hu, hj⟩
    · rintro u ⟨j, hj⟩
      rw [hj.ahead]
      have hle := hj.le
      omega
    · rintro u act v ⟨j, hj⟩ hn
      exact hj.step hi hn
    · rw [hbegin.ahead]
      omega
  · have hrun := LTS.run_to (L := letters n)
      (I := fun u => ∃ j, Searching n s i j u ∨ Scanned n s i j u)
      (G := fun u => ∃ j, Scanned n s i j u) (P := fun a => a.isParent = true) (State.ahead n) ?_
      ⟨i, .inl hbegin⟩
    · obtain ⟨as, t, has, he, -, j, hj⟩ := hrun
      exact ⟨as, t, j, has, he, hj⟩
    · rintro u ⟨j, hj | hj⟩
      · obtain ⟨v, hv, hnext⟩ := hj.parent_step (r := 0) hi
        have hle := hj.le
        refine .inr ⟨.parent 0, v, rfl, hv, ?_⟩
        rcases hnext with hgoes | hends
        · refine ⟨⟨j + 1, .inl hgoes⟩, ?_⟩
          rw [hj.ahead, hgoes.ahead]
          omega
        · refine ⟨⟨j, .inr hends⟩, ?_⟩
          rw [hj.ahead, hends.ahead]
          omega
      · exact .inl ⟨j, hj⟩

/-- Only the first of three children is left, and the search begins behind it. -/
def oneLeft : State := { start 3 [] with parent := .seek 1, fds := fun i => i = 0 }

theorem live_child_chosen_one : ∃ as t j, (∀ a ∈ as, a.isParent = true) ∧
    (letters 3).exec oneLeft as = some t ∧ Scanned 3 oneLeft 1 j t :=
  (live_child_chosen (s := oneLeft) (by decide) (by decide) rfl).2

end Ops.Letters
