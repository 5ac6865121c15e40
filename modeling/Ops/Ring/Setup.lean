import Ops.Lib.Update
import Ops.Ring.Steps

/-!
# Who has which end

The closing loops leave process `p` with the reading end of the pipe of its predecessor
and the writing end of its own pipe, whatever the order in which the processes run them.
-/

namespace Ops.Ring

open Posix (End Fds)

/-- The ends that process `p` has open, by its place in the code. -/
def Pc.Has (q p : Nat) : Pc → End → Nat → Prop
  | .off, _, _ | .exited, _, _ => False
  | .pipe n, _, j => n ≤ j ∧ j < q
  | .fork _, _, j => j < q
  | .closeReads i, .read, j => min i (q - 1) ≤ j ∧ j < q
  | .closeReads _, .write, j => j < q
  | .closeWrites _, .read, j => j = q - 1
  | .closeWrites i, .write, j => j = 0 ∨ i ≤ j ∧ j < q
  | .closeRead k, .read, j => j = p - 1 ∨ k ≤ j ∧ j < q
  | .closeRead k, .write, j => j = p ∨ k ≤ j ∧ j < q
  | .closeWrite k, .read, j => j = p - 1 ∨ k < j ∧ j < q
  | .closeWrite k, .write, j => j = p ∨ k ≤ j ∧ j < q
  | .draw, .read, j | .write _, .read, j | .read, .read, j => j = readp q p
  | .draw, .write, j | .write _, .write, j | .read, .write, j => j = writep p

/-- The process has run its closing loops. -/
def Pc.works : Pc → Bool
  | .draw | .write _ | .read => true
  | _ => false

/-- The places that process `p` can be in. -/
def Pc.Role (q p : Nat) : Pc → Prop
  | .off => p ≠ 0
  | .pipe n => p = 0 ∧ n ≤ q
  | .fork i | .closeWrites i => p = 0 ∧ 1 ≤ i
  | .closeReads _ => p = 0
  | .closeRead _ => p ≠ 0 ∧ p < q
  | .closeWrite j => p ≠ 0 ∧ p < q ∧ j < q
  | .draw | .write _ | .read => p < q
  | .exited => False

/-- The parent has created child `i`. -/
def Pc.Forked : Pc → Nat → Prop
  | .pipe _, _ => False
  | .fork k, i => i < k
  | _, _ => True

variable {q p : Nat} {s t : State}

/-! ## Places of a working process -/

namespace Pc

variable {c : Pc}

theorem role_of_works (hc : c.works = true) : c.Role q p ↔ p < q := by
  cases c with
  | draw | write | read => exact Iff.rfl
  | _ => cases hc

theorem has_of_works (hc : c.works = true) (e : End) (j : Nat) :
    c.Has q p e j ↔ Pc.Has q p .draw e j := by
  cases c with
  | draw | write | read => cases e <;> exact Iff.rfl
  | _ => cases hc

theorem forked_of_works (hc : c.works = true) (i : Nat) : c.Forked i := by
  cases c with
  | draw | write | read => trivial
  | _ => cases hc

end Pc

theorem readp_child (hp : p ≠ 0) (hq : p < q) : readp q p = p - 1 := by
  have hmod : (p + q - 1) % q = p - 1 := by
    rw [show p + q - 1 = p - 1 + q by omega, Nat.add_mod_right]
    exact Nat.mod_eq_of_lt (by omega)
  simp [readp, hp, hmod]

theorem readp_cases (hq : p < q) :
    p = 0 ∧ readp q p = q - 1 ∨ p ≠ 0 ∧ readp q p = p - 1 := by
  by_cases hp : p = 0
  · exact .inl ⟨hp, by simp [readp, hp]⟩
  · exact .inr ⟨hp, readp_child hp hq⟩

theorem writep_eq (p : Nat) : writep p = p := by
  unfold writep
  split
  · rename_i hp
    exact hp.symm
  · rfl

structure Setup (q : Nat) (s : State) : Prop where
  pos : 1 ≤ q
  role : ∀ p, (s.pc p).Role q p
  has : ∀ p e j, s.fds p e j = true ↔ (s.pc p).Has q p e j
  forked : ∀ p, p ≠ 0 → p < q → (s.pc p = .off ↔ ¬ (s.pc 0).Forked p)

namespace Setup

theorem goto (h : Setup q s) {c : Pc} {fds : Fds} (hpc : t.pc = Function.update s.pc p c)
    (hfds : t.fds = Function.update s.fds p fds) (hrole : c.Role q p)
    (hhas : ∀ e j, fds e j = true ↔ c.Has q p e j) (hon : s.pc p ≠ .off) (hon' : c ≠ .off)
    (hforks : p = 0 → ∀ i, i ≠ 0 → i < q → (c.Forked i ↔ (s.pc p).Forked i)) : Setup q t := by
  refine ⟨h.pos, fun k => ?_, fun k e j => ?_, fun k hk hkq => ?_⟩
  · rw [hpc]
    by_cases hkp : k = p
    · simpa [hkp] using hrole
    · simpa [hkp] using h.role k
  · rw [hpc, hfds]
    by_cases hkp : k = p
    · simpa [hkp] using hhas e j
    · simpa [hkp] using h.has k e j
  · have hparent : (t.pc 0).Forked k ↔ (s.pc 0).Forked k := by
      rw [hpc]
      by_cases hp : (0 : Nat) = p
      · subst hp
        simpa using hforks rfl k hk hkq
      · simp [Function.update_of_ne hp]
    rw [hparent, ← h.forked k hk hkq, hpc]
    by_cases hkp : k = p
    · subst hkp
      simp [hon, hon']
    · simp [hkp]

theorem moved (h : Setup q s) {c : Pc} (hpc : t.pc = Function.update s.pc p c)
    (hfds : t.fds = s.fds) (hrole : c.Role q p)
    (hhas : ∀ e j, (s.pc p).Has q p e j ↔ c.Has q p e j) (hon : s.pc p ≠ .off) (hon' : c ≠ .off)
    (hforks : p = 0 → ∀ i, i ≠ 0 → i < q → (c.Forked i ↔ (s.pc p).Forked i)) : Setup q t :=
  h.goto hpc (hfds.trans (Function.update_eq_self p s.fds).symm) hrole
    (fun e j => (h.has p e j).trans (hhas e j)) hon hon' hforks

theorem closed (h : Setup q s) {c : Pc} {e : End} {j : Nat} (hopen : (s.pc p).Has q p e j)
    (hrole : c.Role q p)
    (hhas : ∀ e' k, (s.pc p).Has q p e' k ∧ ¬ (e' = e ∧ k = j) ↔ c.Has q p e' k)
    (hon : s.pc p ≠ .off) (hon' : c ≠ .off)
    (hforks : p = 0 → ∀ i, i ≠ 0 → i < q → (c.Forked i ↔ (s.pc p).Forked i)) :
    Setup q (s.close p e j c) := by
  unfold State.close
  rw [Fds.close_open ((h.has p e j).mpr hopen)]
  refine h.goto rfl rfl hrole (fun e' k => ?_) hon hon' hforks
  rw [Fds.without_iff, h.has]
  exact hhas e' k

theorem piped (h : Setup q s) (hp : (s.pc p).works = true) (n : Nat) : s.pc 0 ≠ .pipe n := by
  intro hpipe
  by_cases hp0 : p = 0
  · subst hp0
    simp [hpipe, Pc.works] at hp
  · have hrole := h.role p
    have hpq : p < q := (Pc.role_of_works hp).mp hrole
    have hoff := (h.forked p hp0 hpq).mpr (by simp [hpipe, Pc.Forked])
    simp [hoff, Pc.works] at hp

/-- The process that will keep an end has it, or the parent still has all. -/
theorem opened (h : Setup q s) (hpiped : ∀ n, s.pc 0 ≠ .pipe n) {k j : Nat} {e : End} (hk : k < q)
    (hj : j < q) (he : e = .read ∧ j = readp q k ∨ e = .write ∧ j = k) :
    s.opened q e j = true := by
  refine List.any_eq_true.mpr ?_
  by_cases hoff : s.pc k = .off
  · have hk0 : k ≠ 0 := by
      rintro rfl
      have hrole := h.role 0
      simp [hoff, Pc.Role] at hrole
    have hnot := (h.forked k hk0 hk).mp hoff
    refine ⟨0, List.mem_range.mpr (by omega), (h.has 0 e j).mpr ?_⟩
    cases hpc : s.pc 0 with
    | fork i => exact hj
    | pipe n => exact absurd hpc (hpiped n)
    | _ => simp [hpc, Pc.Forked] at hnot
  · refine ⟨k, List.mem_range.mpr hk, (h.has k e j).mpr ?_⟩
    have hrole := h.role k
    have hread := readp_cases hk
    cases hpc : s.pc k with
    | off => exact absurd hpc hoff
    | pipe n =>
      simp only [hpc, Pc.Role] at hrole
      exact absurd (hrole.1 ▸ hpc) (hpiped n)
    | exited => simp [hpc, Pc.Role] at hrole
    | _ =>
      simp only [hpc, Pc.Role] at hrole
      rcases he with ⟨rfl, rfl⟩ | ⟨rfl, rfl⟩ <;> simp only [Pc.Has, writep_eq, true_or] <;> omega

theorem worked (h : Setup q s) {c : Pc} (hpc : t.pc = Function.update s.pc p c)
    (hfds : t.fds = s.fds) (hs : (s.pc p).works = true) (hc : c.works = true) : Setup q t := by
  have hrole := h.role p
  refine h.moved hpc hfds ?_ (fun e j => ?_) ?_ ?_ fun _ i _ _ => ?_
  · exact (Pc.role_of_works hc).mpr ((Pc.role_of_works hs).mp hrole)
  · exact (Pc.has_of_works hs e j).trans (Pc.has_of_works hc e j).symm
  · rintro hoff
    simp [hoff, Pc.works] at hs
  · rintro rfl
    simp [Pc.works] at hc
  · exact iff_of_true (Pc.forked_of_works hc i) (Pc.forked_of_works hs i)

theorem lt_of_works (h : Setup q s) (hp : (s.pc p).works = true) : p < q :=
  (Pc.role_of_works hp).mp (h.role p)

theorem uses (h : Setup q s) (hp : (s.pc p).works = true) :
    s.fds p .read (readp q p) = true ∧ s.fds p .write (writep p) = true := by
  rw [h.has, h.has, Pc.has_of_works hp, Pc.has_of_works hp]
  exact ⟨rfl, rfl⟩

/-- Process `p` is not the last to have an end of its two pipes. -/
theorem peers (h : Setup q s) (hp : (s.pc p).works = true) :
    s.opened q .write (readp q p) = true ∧ s.opened q .read (writep p) = true := by
  have hpq := h.lt_of_works hp
  have hpiped := h.piped hp
  have hread := readp_cases hpq
  have hpos := h.pos
  refine ⟨h.opened hpiped (k := readp q p) (by omega) (by omega) (.inr ⟨rfl, rfl⟩), ?_⟩
  rw [writep_eq]
  by_cases hlast : p + 1 = q
  · have hnext := readp_cases (p := 0) (q := q) (by omega)
    exact h.opened hpiped (k := 0) (by omega) hpq (.inl ⟨rfl, by omega⟩)
  · have hnext := readp_cases (p := p + 1) (q := q) (by omega)
    exact h.opened hpiped (k := p + 1) (by omega) hpq (.inl ⟨rfl, by omega⟩)

theorem fork (h : Setup q s) {i : Nat} (hp : p = 0) (hi : 1 ≤ i) (hiq : i < q)
    (hpc : s.pc p = .fork i) :
    Setup q (({ s with fds := Function.update s.fds i (s.fds p) }.goto i (.closeRead 0)).goto p
      (.fork (i + 1))) := by
  subst hp
  refine ⟨h.pos, fun k => ?_, fun k e j => ?_, fun k hk hkq => ?_⟩
  · by_cases hk0 : k = 0
    · simp [State.goto, hk0, Pc.Role]
    · by_cases hki : k = i
      · simp only [State.goto, hki, Function.update_of_ne (show i ≠ 0 by omega),
          Function.update_self, Pc.Role]
        omega
      · simpa [State.goto, hk0, hki] using h.role k
  · by_cases hk0 : k = 0
    · subst hk0
      have hne : (0 : Nat) ≠ i := by omega
      simpa [State.goto, hne, hpc, Pc.Has] using h.has 0 e j
    · by_cases hki : k = i
      · subst hki
        have hhas := h.has 0 e j
        rw [hpc] at hhas
        simp only [State.goto, Function.update_self, Function.update_of_ne hk0, hhas]
        cases e <;> simp only [Pc.Has] <;> omega
      · simpa [State.goto, hk0, hki] using h.has k e j
  · have hforked := h.forked k hk hkq
    rw [hpc] at hforked
    simp only [Pc.Forked] at hforked
    by_cases hki : k = i
    · subst hki
      simp [State.goto, hk, Pc.Forked]
    · simp only [State.goto, Function.update_of_ne hk, Function.update_of_ne hki,
        Function.update_self, Pc.Forked]
      rw [hforked]
      omega

theorem wrote (h : Setup q s) {message : List Char} (hpc : s.pc p = .write message)
    (hn : s.write q p message = some t) : Setup q t := by
  have hworks : (s.pc p).works = true := by rw [hpc]; rfl
  unfold State.write at hn
  rw [if_pos (h.uses hworks).2, if_pos (h.peers hworks).2] at hn
  split at hn
  · cases hn
    exact h.worked rfl rfl hworks rfl
  · cases hn

theorem readStep (h : Setup q s) (hpc : s.pc p = .read) (hn : s.read q p = some t) :
    Setup q t := by
  have hworks : (s.pc p).works = true := by rw [hpc]; rfl
  unfold State.read at hn
  rw [if_pos (h.uses hworks).1] at hn
  split at hn
  · rw [if_pos (h.peers hworks).1] at hn
    cases hn
  · cases hn
    exact h.worked rfl rfl hworks rfl

/-- A step that only goes on in the code keeps the ends that the place says. -/
theorem turns (h : Setup q s) {c : Pc} (ht : (s.pc p).Turns q p c) : Setup q (s.goto p c) := by
  have hrole := h.role p
  have hpos := h.pos
  have hmoved : ∀ {d : Pc}, s.pc p = d → d ≠ .off → c ≠ .off → c.Role q p →
      (∀ e j, d.Has q p e j ↔ c.Has q p e j) →
      (p = 0 → ∀ i, i ≠ 0 → i < q → (c.Forked i ↔ d.Forked i)) → Setup q (s.goto p c) := by
    rintro d rfl hon hon' hc hhas hforks
    exact h.moved rfl rfl hc hhas hon hon' hforks
  generalize hpc : s.pc p = d at ht hrole
  cases ht with
  | piped =>
    refine hmoved hpc nofun nofun ⟨hrole.1, Nat.le_refl 1⟩ (fun e j => ?_) fun _ i hi _ => ?_
    · simp [Pc.Has]
    · simp only [Pc.Forked, iff_false]
      omega
  | forked hi =>
    refine hmoved hpc nofun nofun hrole.1 (fun e j => ?_) fun _ k _ hk => ?_
    · cases e with
      | read =>
        simp only [Pc.Has]
        omega
      | write => rfl
    · simp only [Pc.Forked, true_iff]
      omega
  | readsClosed hi =>
    refine hmoved hpc nofun nofun ⟨hrole, Nat.le_refl 1⟩ (fun e j => ?_) fun _ _ _ _ => Iff.rfl
    cases e <;> simp only [Pc.Has] <;> omega
  | writesClosed hi =>
    obtain ⟨rfl, -⟩ := hrole
    have hread := readp_cases (p := 0) (q := q) (by omega)
    refine hmoved hpc nofun nofun hpos (fun e j => ?_) fun _ _ _ _ => Iff.rfl
    cases e <;> simp only [Pc.Has, writep_eq] <;> omega
  | readKept hj =>
    refine hmoved hpc nofun nofun ⟨hrole.1, hrole.2, hj⟩ (fun e j => ?_) fun _ _ _ _ => Iff.rfl
    cases e with
    | read =>
      simp only [Pc.Has]
      omega
    | write => rfl
  | closed hj =>
    obtain ⟨hp0, hpq⟩ : p ≠ 0 ∧ p < q := hrole
    have hread := readp_cases hpq
    refine hmoved hpc nofun nofun hpq (fun e j => ?_) fun _ _ _ _ => Iff.rfl
    cases e <;> simp only [Pc.Has, writep_eq] <;> omega
  | writeKept =>
    refine hmoved hpc nofun nofun ⟨hrole.1, hrole.2.1⟩ (fun e j => ?_) fun _ _ _ _ => Iff.rfl
    cases e <;> simp only [Pc.Has] <;> omega
  | drawn r =>
    exact hmoved hpc nofun nofun hrole (fun e j => by cases e <;> rfl) fun _ _ _ _ => Iff.rfl

theorem closes (h : Setup q s) {c : Pc} {e : End} {j : Nat} (hc : (s.pc p).Closes q p e j c) :
    Setup q (s.close p e j c) := by
  have hrole := h.role p
  have hclosed : ∀ {d : Pc}, s.pc p = d → d ≠ .off → c ≠ .off → d.Has q p e j → c.Role q p →
      (∀ e' k, d.Has q p e' k ∧ ¬ (e' = e ∧ k = j) ↔ c.Has q p e' k) →
      (p = 0 → ∀ i, i ≠ 0 → i < q → (c.Forked i ↔ d.Forked i)) → Setup q (s.close p e j c) := by
    rintro d rfl hon hon' hopen hcr hhas hforks
    exact h.closed hopen hcr hhas hon hon' hforks
  generalize hpc : s.pc p = d at hc hrole
  cases hc with
  | reads hi =>
    refine hclosed hpc nofun nofun ?_ hrole (fun e k => ?_) fun _ _ _ _ => Iff.rfl
    · simp only [Pc.Has]
      omega
    · cases e with
      | read =>
        simp only [Pc.Has, true_and]
        omega
      | write => simp [Pc.Has]
  | writes hi =>
    obtain ⟨hp0, hi1⟩ : p = 0 ∧ 1 ≤ j := hrole
    refine hclosed hpc nofun nofun (.inr ⟨Nat.le_refl j, hi⟩) ⟨hp0, by omega⟩ (fun e k => ?_)
      fun _ _ _ _ => Iff.rfl
    cases e with
    | read => simp [Pc.Has]
    | write =>
      simp only [Pc.Has, true_and]
      omega
  | read hj hne =>
    refine hclosed hpc nofun nofun (.inr ⟨Nat.le_refl _, hj⟩) ⟨hrole.1, hrole.2, hj⟩
      (fun e k => ?_) fun _ _ _ _ => Iff.rfl
    cases e with
    | read =>
      simp only [Pc.Has, true_and]
      omega
    | write => simp [Pc.Has]
  | write hne =>
    refine hclosed hpc nofun nofun (.inr ⟨Nat.le_refl _, hrole.2.2⟩) ⟨hrole.1, hrole.2.1⟩
      (fun e k => ?_) fun _ _ _ _ => Iff.rfl
    cases e with
    | read =>
      simp only [Pc.Has, reduceCtorEq, false_and, not_false_eq_true, and_true]
      omega
    | write =>
      simp only [Pc.Has, true_and]
      omega

theorem opens (h : Setup q s) {n : Nat} (hpc : s.pc p = .pipe (n + 1)) :
    Setup q ({ s with fds := Function.update s.fds p ((s.fds p).pipe n) }.goto p (.pipe n)) := by
  have hrole := h.role p
  rw [hpc] at hrole
  have hn : n + 1 ≤ q := hrole.2
  refine h.goto rfl rfl ⟨hrole.1, by omega⟩ (fun e j => ?_) (by rw [hpc]; nofun) nofun
    fun _ i _ _ => by rw [hpc]; rfl
  rw [Fds.pipe_iff, h.has, hpc]
  simp only [Pc.Has]
  omega

theorem step {act : Act} (h : Setup q s) (hn : s.next q act = some t) : Setup q t := by
  cases next_step hn with
  | turns ht => exact h.turns ht
  | closes hc => exact h.closes hc
  | pipe hpc => exact h.opens hpc
  | @fork p i hpc hi =>
    have hrole := h.role p
    rw [hpc] at hrole
    exact h.fork hrole.1 hrole.2 hi hpc
  | write hpc hn => exact h.wrote hpc hn
  | read hpc hn => exact h.readStep hpc hn

theorem start (hq : 1 ≤ q) : Setup q (Ring.start q) := by
  refine ⟨hq, fun p => ?_, fun p e j => ?_, fun p hp hpq => ?_⟩
  · by_cases hp : p = 0
    · simp [Ring.start, hp, Pc.Role]
    · simp [Ring.start, hp, Pc.Role]
  · by_cases hp : p = 0
    · simp [Ring.start, hp, Pc.Has]
    · simp [Ring.start, hp, Pc.Has]
  · simp [Ring.start, hp, Pc.Forked]

theorem reach (hq : 1 ≤ q) (h : (ring q).Reach s) : Setup q s := by
  refine h.inv (I := Setup q) ?_ fun _ _ _ _ hi hn => hi.step hn
  rintro _ rfl
  exact .start hq

end Setup

end Ops.Ring
