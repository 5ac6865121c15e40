import Ops.Lib.Logs
import Ops.Letters.Lines

/-!
# No `SIGINT` is lost

A `SIGINT` sets `last_signal`; the parent tests it before a blocking `read`, sends a letter
and clears it. A signal is lost when it comes behind the test and the `read` then waits,
when it comes behind the letter and the parent then clears the flag, or when its letter
goes to a child that is dead.
-/

namespace Ops.Letters

variable {n : Nat} {s t : State}

def Event.isSigint : Event → Bool
  | .sigint => true
  | .letter _ _ => false

/-- The letter goes to a child that lives. -/
def Event.reaches : Event → Bool
  | .sigint => false
  | .letter _ alive => alive

/-- Every `SIGINT` has been followed by an attempt to send a letter to a child that lives. -/
def State.Served (s : State) : Prop := Answered Event.isSigint Event.reaches s.log

/-- The parent waits in `read (R, &c, 1)`. With no child left the call returns. -/
structure Blocked (n : Nat) (s : State) : Prop where
  read : s.parent = .blocked
  empty : s.R = []
  alive : s.allDead n = false

/-- The letter that the parent is about to write goes to a child that lives. -/
def State.aims (s : State) : Bool :=
  match s.parent with
  | .write i _ => s.child i ≠ .dead
  | _ => true

/-- As long as a child lives: no `SIGINT` comes between the letter and `last_signal = 0`, the
child that the letter goes to lives, and no `SIGINT` has come behind the test when the
parent begins to wait. -/
def Timely (n : Nat) (s : State) : Act → Prop
  | .sigint _ => s.allDead n = false → s.parent ≠ .clear
  | .parent _ => s.allDead n = false →
    s.aims = true ∧ (s.parent = .header → s.R = [] → s.last_signal = false)
  | _ => True

instance (n : Nat) (s : State) : (act : Act) → Decidable (Timely n s act)
  | .sigint _ => inferInstanceAs (Decidable (s.allDead n = false → s.parent ≠ .clear))
  | .parent _ => inferInstanceAs (Decidable (s.allDead n = false →
      s.aims = true ∧ (s.parent = .header → s.R = [] → s.last_signal = false)))
  | .sigchld _ | .child _ _ | .die _ => isTrue trivial

/-! ## The invariant -/

/-- The parent neither searches nor waits, and does not clear the flag next. -/
def Pc.plain : Pc → Bool
  | .seek _ | .clear | .blocked => false
  | _ => true

structure Signals (n : Nat) (s : State) : Prop where
  closed : ∀ i, i < n → s.fds i = false → s.child i = .dead
  visited : ∀ i, s.parent = .seek i → 0 < n → ∃ k, k < n ∧ k ≤ i ∧
    ∀ j, k ≤ j → j < i → s.fds (j % n) = false
  owing : s.allDead n = false → s.Served ∨ s.last_signal = true ∧ s.parent ≠ .clear
  asleep : s.allDead n = false → s.parent = .blocked → s.R = [] → s.last_signal = false

namespace Signals

theorem served (h : Signals n s) (hb : Blocked n s) : s.Served := by
  rcases h.owing hb.alive with hserved | ⟨hflag, -⟩
  · exact hserved
  · rw [h.asleep hb.alive hb.read hb.empty] at hflag
    cases hflag

theorem goes (h : Signals n s) (hchild : t.child = s.child) (hfds : t.fds = s.fds)
    (hlog : t.log = s.log) (hflag : t.last_signal = s.last_signal)
    (hp : t.parent.plain = true) : Signals n t := by
  have hclear : t.parent ≠ .clear := fun hc => by simp [hc, Pc.plain] at hp
  refine ⟨?_, fun i hi => ?_, fun hall => ?_, fun _ hb => ?_⟩
  · rw [hchild, hfds]
    exact h.closed
  · simp [hi, Pc.plain] at hp
  · have hall' : s.allDead n = false := by
      unfold State.allDead at hall ⊢
      rwa [← hchild]
    unfold State.Served
    rw [hlog, hflag]
    rcases h.owing hall' with hserved | ⟨htrue, -⟩
    · exact .inl hserved
    · exact .inr ⟨htrue, hclear⟩
  · simp [hb, Pc.plain] at hp

/-- A search that has come round has found all children dead. -/
theorem round (h : Signals n s) {i : Nat} (hp : s.parent = .seek i) (hi : 2 * n ≤ i) :
    s.allDead n = true := by
  refine State.allDead_iff.mpr fun m hm => h.closed m hm ?_
  obtain ⟨k, hk, -, hvisited⟩ := h.visited i hp (by omega)
  by_cases hkm : k ≤ m
  · have hfds := hvisited m hkm (by omega)
    rwa [Nat.mod_eq_of_lt hm] at hfds
  · have hfds := hvisited (m + n) (by omega) (by omega)
    rwa [Nat.add_mod_right, Nat.mod_eq_of_lt hm] at hfds

/-- A step of the parent, as long as its signals come in time. -/
theorem work (h : Signals n s) {r : Nat} (hw : Work n s t) (ht : Timely n s (.parent r)) :
    Signals n t := by
  have hlive : t.allDead n = false → s.allDead n = false := fun hall => by
    unfold State.allDead at hall ⊢
    rwa [← hw.child]
  cases hw with
  | pass hp | begin hp hR | eof hp hR | again hp | fail hp | terminate hp hc | overrun hp hc
  | print hp | pick r hp =>
    exact h.goes rfl rfl rfl rfl rfl
  | serve r hp hflag =>
    refine ⟨h.closed, fun i hi hpos => ?_, fun _ => .inr ⟨hflag, by rintro ⟨⟩⟩, by rintro _ ⟨⟩⟩
    simp only [State.goto, Pc.seek.injEq] at hi
    exact ⟨i, hi ▸ Nat.mod_lt r hpos, Nat.le_refl i, fun j hj hji => absurd hji (by omega)⟩
  | @skip i hp hfds =>
    refine ⟨h.closed, fun m hm hpos => ?_, fun hall => ?_, by rintro _ ⟨⟩⟩
    · simp only [State.goto, Pc.seek.injEq] at hm
      subst hm
      obtain ⟨k, hk, hki, hvisited⟩ := h.visited i hp hpos
      refine ⟨k, hk, by omega, fun j hj hji => ?_⟩
      by_cases hlast : j = i
      · rw [hlast]
        exact hfds
      · exact hvisited j hj (by omega)
    · rcases h.owing (hlive hall) with hserved | ⟨hflag, -⟩
      · exact .inl hserved
      · exact .inr ⟨hflag, by rintro ⟨⟩⟩
  | none hp hfds hi =>
    have hdead := h.round hp hi
    refine ⟨h.closed, by rintro _ ⟨⟩, fun hall => ?_, by rintro _ ⟨⟩⟩
    rw [hlive hall] at hdead
    cases hdead
  | broken hp hdead =>
    refine ⟨fun i hi hfds => ?_, by rintro _ ⟨⟩, fun hall => ?_, by rintro _ ⟨⟩⟩
    · rename_i k c
      by_cases hik : i = k
      · rw [hik]
        exact hdead
      · exact h.closed i hi (by simpa [State.goto, hik] using hfds)
    · have haims := (ht (hlive hall)).1
      simp [State.aims, hp, hdead] at haims
  | sent hp => exact ⟨h.closed, by rintro _ ⟨⟩, fun _ => .inl (.of_response rfl rfl),
      by rintro _ ⟨⟩⟩
  | clear hp =>
    refine ⟨h.closed, by rintro _ ⟨⟩, fun hall => ?_, by rintro _ ⟨⟩⟩
    rcases h.owing (hlive hall) with hserved | ⟨-, hne⟩
    · exact .inl hserved
    · exact absurd hp hne
  | wait hp hR hall =>
    refine ⟨h.closed, by rintro _ ⟨⟩, fun hall => ?_, fun hall _ _ => (ht hall).2 hp hR⟩
    rcases h.owing hall with hserved | ⟨hflag, -⟩
    · exact .inl hserved
    · exact .inr ⟨hflag, by rintro ⟨⟩⟩
  | payload hp hn =>
    unfold State.readPayload at hn
    split at hn
    · cases hn
    · split at hn
      · cases hn
        exact h.goes rfl rfl rfl rfl rfl
      · cases hn
        simp only [State.goto]
        split <;> exact h.goes rfl rfl rfl rfl rfl

theorem aside (h : Signals n s) (ha : Aside s t)
    (hdead : ∀ i, s.child i = .dead → t.child i = .dead)
    (hlive : t.allDead n = false → s.allDead n = false) : Signals n t := by
  refine ⟨fun i hi hfds => ?_, ?_, fun hall => ?_, fun hall hp hR => ?_⟩
  · rw [ha.fds] at hfds
    exact hdead i (h.closed i hi hfds)
  · rw [ha.parent, ha.fds]
    exact h.visited
  · unfold State.Served
    rw [ha.log, ha.last_signal, ha.parent]
    exact h.owing (hlive hall)
  · rw [ha.parent] at hp
    rw [ha.last_signal]
    exact h.asleep (hlive hall) hp (ha.R hR)

theorem step {act : Act} (h : Signals n s) (ht : Timely n s act)
    (hn : s.next n act = some t) : Signals n t := by
  have hlive := alive_step hn
  have hdead : ∀ i, s.child i = .dead → t.child i = .dead := fun i => dead_step hn
  cases (next_step hn).2.2 with
  | parent r hwork => exact h.work hwork ht
  | sigint eintr hp hblocked =>
    refine ⟨h.closed, ?_, fun hall => .inr ⟨rfl, ?_⟩, fun hall hb hR => ?_⟩
    · cases hp with
      | stays => exact h.visited
      | ends errno => exact nofun
    · cases hp with
      | stays => exact ht (hlive hall)
      | ends errno => exact nofun
    · have hdead := hblocked hb hR
      rw [hlive hall] at hdead
      cases hdead
  | sigchld eintr hp =>
    cases hp with
    | stays => exact h
    | ends errno => exact h.goes rfl rfl rfl rfl rfl
  | child hn => exact h.aside (child_step hn).2.2 hdead hlive
  | die hn => exact h.aside (die_step hn).2.2 hdead hlive

theorem start {buf : List Byte} : Signals n (Letters.start n buf) := by
  refine ⟨fun i hi hfds => ?_, nofun, fun _ => .inl trivial, nofun⟩
  simp [Letters.start, hi] at hfds

end Signals

/-! ## The law -/

/-- **No `SIGINT` is lost** in a run whose steps are all timely: whenever the parent waits, every
`SIGINT` so far has been followed by an attempt to send a letter to a child that lives. -/
theorem sigint_served (h : (letters n).ReachIf (Timely n) s) (hb : Blocked n s) : s.Served := by
  have hsignals : Signals n s := by
    refine h.inv (I := Signals n) ?_ fun _ _ _ _ hi hc hn => hi.step hc hn
    rintro _ ⟨buf, -, rfl⟩
    exact .start
  exact hsignals.served hb

/-- A `SIGINT` ends the `read`; the child is sent a letter, and the parent waits again. -/
theorem sigint_served_one : ∃ s, (letters 1).ReachIf (Timely 1) s ∧
    s.log = [.sigint, .letter 0 true] ∧ s.Served := by
  have hrun : ((letters 1).execIf (Timely 1) (start 1 (List.replicate 200 7))
      (List.replicate 2 (.parent 0) ++ [.sigint false] ++ List.replicate 6 (.parent 0))).map
      (fun s => (s.parent, s.R, s.allDead 1, s.log)) =
      some (.blocked, [], false, [.sigint, .letter 0 true]) := by decide
  obtain ⟨s, hs, heq⟩ := Option.map_eq_some_iff.mp hrun
  simp only [Prod.mk.injEq] at heq
  have hreach : (letters 1).ReachIf (Timely 1) s :=
    LTS.ReachIf.execIf (.init ⟨_, List.length_replicate, rfl⟩) hs
  exact ⟨s, hreach, heq.2.2.2, sigint_served hreach ⟨heq.1, heq.2.1, heq.2.2.1⟩⟩

/-- The three ways to lose a `SIGINT`: it comes behind the test, it comes behind the letter, and its
letter goes to child 0, which is dead while child 1 lives. -/
theorem sigint_lost :
    (∃ s, (letters 1).Reach s ∧ Blocked 1 s ∧ s.log = [.sigint] ∧ ¬ s.Served) ∧
    (∃ s, (letters 1).Reach s ∧ Blocked 1 s ∧ s.log = [.sigint, .letter 0 true, .sigint] ∧
      ¬ s.Served) ∧
    ∃ s, (letters 2).Reach s ∧ Blocked 2 s ∧ s.log = [.sigint, .letter 0 false] ∧
      ¬ s.Served := by
  have hlost : ∀ (n : Nat) (as : List Act) (log : List Event),
      ((letters n).exec (start n (List.replicate 200 7)) as).map
        (fun s => (s.parent, s.R, s.allDead n, s.log)) = some (.blocked, [], false, log) →
      ¬ Answered Event.isSigint Event.reaches log →
      ∃ s, (letters n).Reach s ∧ Blocked n s ∧ s.log = log ∧ ¬ s.Served := by
    intro n as log hrun hnot
    obtain ⟨s, hs, heq⟩ := Option.map_eq_some_iff.mp hrun
    simp only [Prod.mk.injEq] at heq
    obtain ⟨hp, hR, hall, hlog⟩ := heq
    refine ⟨s, LTS.Reach.exec (.init ⟨_, List.length_replicate, rfl⟩) hs, ⟨hp, hR, hall⟩, hlog, ?_⟩
    unfold State.Served
    rwa [hlog]
  refine ⟨?_, ?_, ?_⟩
  · exact hlost 1 [.parent 0, .sigint false, .parent 0] _ (by decide)
      (not_answered_of_request (l := ([] : List Event)) rfl)
  · exact hlost 1 ([.sigint false] ++ List.replicate 3 (.parent 0) ++ [.sigint false] ++
      List.replicate 2 (.parent 0)) _ (by decide)
      (not_answered_of_request (l := [Event.sigint, .letter 0 true]) rfl)
  · exact hlost 2 ([.sigint false, .die 0] ++ List.replicate 5 (.parent 0)) _ (by decide)
      (fun h => by simp [Answered, Event.isSigint, Event.reaches] at h)

end Ops.Letters
