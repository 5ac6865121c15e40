import Ops.Letters.Process

/-!
# What a step does

`Work` lists the steps of the parent, `Aside` what the steps of the children leave alone.
-/

namespace Ops.Letters

variable {n : Nat} {s t : State}

/-! ## Steps of the parent -/

inductive Work (n : Nat) (s : State) : State → Prop where
  | serve (r : Nat) : s.parent = .test → s.last_signal = true → Work n s (s.goto (.seek (r % n)))
  | pass : s.parent = .test → s.last_signal = false → Work n s (s.goto .header)
  | skip {i : Nat} : s.parent = .seek i → s.fds (i % n) = false → Work n s (s.goto (.seek (i + 1)))
  | pick {i : Nat} (r : Nat) : s.parent = .seek i →
      Work n s (s.goto (.write (i % n) (Letter.rand r)))
  | none {i : Nat} : s.parent = .seek i → s.fds (i % n) = false → 2 * n ≤ i →
      Work n s (s.goto .clear)
  | broken {i : Nat} {c : Letter} : s.parent = .write i c → s.child i = .dead →
      Work n s ({ s with
        fds := Function.update s.fds i false
        log := s.log ++ [Event.letter i false] }.goto .clear)
  | sent {i : Nat} {c : Letter} : s.parent = .write i c → s.child i ≠ .dead →
      Work n s ({ s with
        letters := Function.update s.letters i (s.letters i ++ [c])
        log := s.log ++ [Event.letter i true] }.goto .clear)
  | clear : s.parent = .clear → Work n s ({ s with last_signal := false }.goto .header)
  | begin {b : Byte} {R : List Byte} : s.parent = .header ∨ s.parent = .blocked → s.R = b :: R →
      Work n s ({ s with R := R }.goto (.payload b.toNat))
  | eof : s.parent = .header ∨ s.parent = .blocked → s.R = [] → s.allDead n = true →
      Work n s (s.goto .done)
  | wait : s.parent = .header → s.R = [] → s.allDead n = false → Work n s (s.goto .blocked)
  | again : s.parent = .interrupted .EINTR → Work n s (s.goto .test)
  | fail : s.parent = .interrupted .ECHILD → Work n s (s.goto .failed)
  | payload {c : Nat} {t : State} : s.parent = .payload c → s.readPayload n c = some t → Work n s t
  | terminate {c : Nat} : s.parent = .terminate c → c < MAX_BUFF →
      Work n s ({ s with buf := s.buf.set c 0 }.goto .print)
  | overrun {c : Nat} : s.parent = .terminate c → ¬ c < MAX_BUFF → Work n s (s.goto .undefined)
  | print : s.parent = .print →
      Work n s ({ s with printed := s.printed ++ [upToNul s.buf] }.goto .test)

theorem readHeader_work {wait : Option State} (hp : s.parent = .header ∨ s.parent = .blocked)
    (hwait : ∀ u, s.R = [] → s.allDead n = false → wait = some u → Work n s u)
    (hn : s.readHeader n wait = some t) : Work n s t := by
  unfold State.readHeader at hn
  split at hn
  · rename_i hR
    cases hn
    exact .begin hp hR
  · rename_i hR
    split at hn
    · rename_i hall
      cases hn
      exact .eof hp hR hall
    · rename_i hall
      exact hwait t hR (Bool.eq_false_iff.mpr hall) hn

theorem parent_work_work {r : Nat} (hn : s.parent_work n r = some t) : Work n s t := by
  unfold State.parent_work at hn
  cases hp : s.parent with
  | test =>
    simp only [hp, Option.some.injEq] at hn
    subst hn
    split
    · rename_i hflag
      exact .serve r hp hflag
    · rename_i hflag
      exact .pass hp (Bool.eq_false_iff.mpr hflag)
  | seek i =>
    simp only [hp, Option.some.injEq] at hn
    subst hn
    split
    · rename_i hskip
      exact .skip hp hskip.1
    · rename_i hstop
      split
      · exact .pick r hp
      · rename_i hclosed
        have hfds : s.fds (i % n) = false := Bool.eq_false_iff.mpr hclosed
        exact .none hp hfds (Nat.not_lt.mp fun hlt => hstop ⟨hfds, hlt⟩)
  | write i c =>
    simp only [hp, State.writeLetter] at hn
    split at hn
    · rename_i hdead
      cases hn
      exact .broken hp hdead
    · rename_i halive
      split at hn
      · cases hn
        exact .sent hp halive
      · cases hn
  | clear =>
    simp only [hp, Option.some.injEq] at hn
    subst hn
    exact .clear hp
  | header =>
    simp only [hp] at hn
    refine readHeader_work (.inl hp) (fun u hR hall hu => ?_) hn
    cases hu
    exact .wait hp hR hall
  | blocked =>
    simp only [hp] at hn
    exact readHeader_work (.inr hp) (fun u _ _ hu => by cases hu) hn
  | interrupted errno =>
    simp only [hp, Option.some.injEq] at hn
    subst hn
    cases errno with
    | EINTR => exact .again hp
    | ECHILD => exact .fail hp
  | payload c =>
    simp only [hp] at hn
    exact .payload hp hn
  | terminate c =>
    simp only [hp] at hn
    split at hn
    · rename_i hc
      cases hn
      exact .terminate hp hc
    · rename_i hc
      cases hn
      exact .overrun hp hc
  | print =>
    simp only [hp, Option.some.injEq] at hn
    subst hn
    exact .print hp
  | done | failed | undefined => simp [hp] at hn

/-! ## Steps of the children -/

/-- The parent and its signals stay as they are, and nothing is taken from `R`. -/
structure Aside (s t : State) : Prop where
  parent : t.parent = s.parent
  last_signal : t.last_signal = s.last_signal
  fds : t.fds = s.fds
  log : t.log = s.log
  R : t.R = [] → s.R = []

theorem child_step {i r : Nat} (hn : s.child_work i r = some t) :
    s.child i ≠ .dead ∧ (∃ c, t.child = Function.update s.child i c) ∧ Aside s t := by
  unfold State.child_work at hn
  cases hp : s.child i with
  | read =>
    simp only [hp] at hn
    split at hn
    · cases hn
    · cases hn
      exact ⟨nofun, ⟨_, rfl⟩, rfl, rfl, rfl, rfl, id⟩
  | compose c =>
    simp only [hp, Option.some.injEq] at hn
    subst hn
    exact ⟨nofun, ⟨_, rfl⟩, rfl, rfl, rfl, rfl, id⟩
  | write m =>
    simp only [hp] at hn
    split at hn
    · cases hn
      exact ⟨nofun, ⟨_, rfl⟩, rfl, rfl, rfl, rfl, fun hR => (List.append_eq_nil_iff.mp hR).1⟩
    · cases hn
  | dead => simp [hp] at hn

theorem die_step {i : Nat} (hn : s.sig_killme i = some t) :
    s.child i ≠ .dead ∧ (∃ c, t.child = Function.update s.child i c) ∧ Aside s t := by
  unfold State.sig_killme at hn
  split at hn
  · cases hn
  · rename_i halive
    cases hn
    exact ⟨halive, ⟨_, rfl⟩, rfl, rfl, rfl, rfl, id⟩

/-! ## All steps -/

/-- The parent is in `read (R, &c, 1)` or behind one that a signal has ended. -/
def Pc.waits : Pc → Bool
  | .blocked | .interrupted _ => true
  | _ => false

inductive Handled (s : State) : Pc → Prop where
  | stays : Handled s s.parent
  | ends (errno : Errno) : s.parent.waits = true → Handled s (.interrupted errno)

/-- The steps of the system; a handler changes nothing else than the place of a parent that
waits. -/
inductive Step (n : Nat) (s : State) : Act → State → Prop where
  | parent (r : Nat) {t : State} : Work n s t → Step n s (.parent r) t
  | sigint (eintr : Bool) {p : Pc} : Handled s p →
      (p = .blocked → s.R = [] → s.allDead n = true) →
      Step n s (.sigint eintr) ({ s with
        last_signal := true
        log := s.log ++ [Event.sigint] }.goto p)
  | sigchld (eintr : Bool) {p : Pc} : Handled s p → Step n s (.sigchld eintr) (s.goto p)
  | child {i r : Nat} {t : State} : s.child_work i r = some t → Step n s (.child i r) t
  | die {i : Nat} {t : State} : s.sig_killme i = some t → Step n s (.die i) t

theorem interrupt_step (n : Nat) (s : State) (eintr : Bool) : ∃ p,
    s.interrupt n eintr = s.goto p ∧ Handled s p ∧
      (p = .blocked → s.R = [] → s.allDead n = true) := by
  unfold State.interrupt
  split
  · rename_i hp
    exact ⟨.interrupted .EINTR, rfl, .ends _ (by rw [hp.1]; rfl), nofun⟩
  · rename_i hp
    refine ⟨s.parent, rfl, .stays, fun hblocked hR => ?_⟩
    by_contra hall
    exact hp ⟨hblocked, .inr ⟨hR, hall⟩⟩

theorem next_step {act : Act} (hn : s.next n act = some t) :
    s.parent ≠ .failed ∧ s.parent ≠ .undefined ∧ Step n s act t := by
  unfold State.next at hn
  split at hn
  · cases hn
  · rename_i hp
    rw [not_or] at hp
    refine ⟨hp.1, hp.2, ?_⟩
    cases act with
    | parent r => exact .parent r (parent_work_work hn)
    | sigint eintr =>
      obtain ⟨p, heq, hhandled, hblocked⟩ := interrupt_step n { s with
        last_signal := true
        log := s.log ++ [Event.sigint] } eintr
      cases hn
      unfold State.sig_handler
      rw [heq]
      refine .sigint eintr ?_ hblocked
      cases hhandled with
      | stays => exact .stays
      | ends errno hwaits => exact .ends errno hwaits
    | sigchld eintr =>
      cases hn
      unfold State.sigchld_handler
      split
      · rename_i hwaits
        split
        · exact .sigchld eintr (.ends _ (by rw [hwaits]; rfl))
        · exact .sigchld eintr .stays
      · obtain ⟨p, heq, hhandled, -⟩ := interrupt_step n s eintr
        rw [heq]
        exact .sigchld eintr hhandled
    | child i r => exact .child hn
    | die i => exact .die hn

/-! ## Children that are dead -/

theorem State.allDead_iff : s.allDead n = true ↔ ∀ i, i < n → s.child i = .dead := by
  simp [State.allDead]

theorem Work.child (h : Work n s t) : t.child = s.child := by
  cases h with
  | payload hp hn =>
    unfold State.readPayload at hn
    split at hn
    · cases hn
    · split at hn <;> cases hn <;> rfl
  | _ => rfl

theorem dead_step {act : Act} (hn : s.next n act = some t) {i : Nat} (hi : s.child i = .dead) :
    t.child i = .dead := by
  have hmoved : ∀ k c, s.child k ≠ .dead → t.child = Function.update s.child k c →
      t.child i = .dead := by
    intro k c halive hchild
    have hik : i ≠ k := by
      rintro rfl
      exact halive hi
    rw [hchild, Function.update_of_ne hik, hi]
  cases (next_step hn).2.2 with
  | parent r hwork => rw [hwork.child, hi]
  | sigint | sigchld => exact hi
  | child hn =>
    obtain ⟨halive, ⟨c, hchild⟩, -⟩ := child_step hn
    exact hmoved _ c halive hchild
  | die hn =>
    obtain ⟨halive, ⟨c, hchild⟩, -⟩ := die_step hn
    exact hmoved _ c halive hchild

theorem alive_step {act : Act} (hn : s.next n act = some t) (ht : t.allDead n = false) :
    s.allDead n = false := by
  refine Bool.eq_false_iff.mpr fun hall => ?_
  have hdead := State.allDead_iff.mp hall
  rw [State.allDead_iff.mpr fun i hi => dead_step hn (hdead i hi)] at ht
  cases ht

end Ops.Letters
