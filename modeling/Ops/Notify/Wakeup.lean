import Ops.Notify.Process

/-!
# The first notification

The parent registers again after each `SIGUSR1` that ends `sigsuspend`, so the registration and
the pending signal are one between them (`Kept`). A signal that is delivered before it is blocked
ends no `sigsuspend`: the registration is gone, and the parent sleeps until `SIGINT` (`Lost`).
-/

namespace Ops.Notify

open Posix

variable {s t : State} {act : Act}

/-- The condition: `SIGUSR1` is not delivered while it is not blocked. -/
def Blocked (_ : State) (act : Act) : Prop := act ≠ .deliver .SIGUSR1

instance : ∀ s act, Decidable (Blocked s act) := fun _ act =>
  inferInstanceAs (Decidable (act ≠ .deliver .SIGUSR1))

/-- One of the registration and the pending signal. -/
def State.Token (s : State) : Prop := s.mq.registered = !s.usr1

/-- Neither of them. -/
def State.Gone (s : State) : Prop := s.mq.registered = false ∧ s.usr1 = false

/-- No notification was lost. -/
def State.Kept (s : State) : Prop :=
  match s.parent with
  | .sigprocmask | .sigsuspend => s.Token ∧ (s.mq.registered = true → s.mq.msgs = [])
  | .test => s.should_exit = true ∨ s.Gone
  | .notify => s.Gone
  | .receive => s.Token
  | .wait | .returned => True
  | .failed => False

def State.Lost (s : State) : Prop :=
  s.Gone ∧
    match s.parent with
    | .sigprocmask | .sigsuspend | .wait | .returned => True
    | .test => s.should_exit = true
    | .notify | .receive | .failed => False

/-! ## Sending -/

/-- A message that the child sends. -/
def State.sent (s : State) : State :=
  { s with mq := s.mq.send ("text", 0) false, usr1 := s.usr1 || s.mq.fires false }

theorem sent_token (h : s.Token) : s.sent.Token := by
  have hbefore : s.mq.registered = !s.usr1 := h
  show (s.mq.registered && !s.mq.fires false) = !(s.usr1 || s.mq.fires false)
  rw [hbefore, Bool.not_or]

theorem sent_gone (h : s.Gone) : s.sent.Gone := by
  obtain ⟨hreg, husr1⟩ := h
  simp [State.Gone, State.sent, Mqueue.send, Mqueue.fires, hreg, husr1]

/-- A message that finds the queue empty takes the registration away. -/
theorem sent_empty (h : s.mq.registered = true → s.mq.msgs = []) :
    s.sent.mq.registered = true → s.sent.mq.msgs = [] := by
  intro hreg
  obtain ⟨hbefore, hfires⟩ : s.mq.registered = true ∧ s.mq.fires false = false := by
    simpa [State.sent, Mqueue.send] using hreg
  rw [Mqueue.fires_iff.mpr ⟨hbefore, h hbefore, rfl⟩] at hfires
  cases hfires

theorem sent_kept (h : s.Kept) (c : ChildPc) : State.Kept { s.sent with child := c } := by
  unfold State.Kept at h ⊢
  have hparent : s.sent.parent = s.parent := rfl
  cases hp : s.parent with
  | sigprocmask | sigsuspend =>
    simp only [hparent, hp] at h ⊢
    exact ⟨sent_token h.1, sent_empty h.2⟩
  | test =>
    simp only [hparent, hp] at h ⊢
    exact h.imp_right sent_gone
  | notify =>
    simp only [hparent, hp] at h ⊢
    exact sent_gone h
  | receive =>
    simp only [hparent, hp] at h ⊢
    exact sent_token h
  | wait | returned => simp only [hparent, hp]
  | failed => simp only [hp] at h

theorem sent_lost (h : s.Lost) (c : ChildPc) : State.Lost { s.sent with child := c } :=
  ⟨sent_gone h.1, h.2⟩

/-! ## Steps -/

/-- A step of the child sends a message or leaves the queue, `SIGUSR1` and the parent alone. -/
theorem child_cases {rand : Nat} (hn : s.childMain rand = some t) :
    (∃ c, t = { s with child := c }) ∨ (∃ c, t = { s.sent with child := c }) ∨
      ∃ c, t = { s with int := true, child := c } := by
  unfold State.childMain at hn
  split at hn
  · cases hn
    exact .inl ⟨_, rfl⟩
  · split at hn
    · split at hn
      · cases hn
        exact .inr (.inl ⟨_, rfl⟩)
      · cases hn
        exact .inl ⟨_, rfl⟩
    · cases hn
      exact .inl ⟨_, rfl⟩
  · cases hn
    exact .inl ⟨_, rfl⟩
  · cases hn
    exact .inr (.inr ⟨_, rfl⟩)
  · cases hn

theorem child_kept {rand : Nat} (h : s.Kept) (hn : s.childMain rand = some t) : t.Kept := by
  obtain ⟨c, rfl⟩ | ⟨c, rfl⟩ | ⟨c, rfl⟩ := child_cases hn
  · exact h
  · exact sent_kept h c
  · exact h

theorem child_lost {rand : Nat} (h : s.Lost) (hn : s.childMain rand = some t) : t.Lost := by
  obtain ⟨c, rfl⟩ | ⟨c, rfl⟩ | ⟨c, rfl⟩ := child_cases hn
  · exact h
  · exact sent_lost h c
  · exact h

theorem parent_kept (h : s.Kept) (hn : s.parentMain = some t) : t.Kept := by
  unfold State.parentMain at hn
  unfold State.Kept at h
  cases hp : s.parent with
  | sigprocmask =>
    simp only [hp] at h hn
    cases hn
    exact h
  | test =>
    simp only [hp] at h hn
    cases hn
    cases hexit : s.should_exit with
    | true => trivial
    | false =>
      rw [hexit] at h
      exact h.resolve_left (by decide)
  | notify =>
    simp only [hp] at h hn
    rw [Mqueue.notify_some.mpr ⟨h.1, rfl⟩] at hn
    cases hn
    show true = !s.usr1
    rw [h.2]
    rfl
  | receive =>
    simp only [hp] at h hn
    split at hn
    · rename_i hnone
      cases hn
      exact ⟨h, fun _ => Mqueue.receive_none.mp hnone⟩
    · rename_i mq hsome
      cases hn
      have hsame := (Mqueue.receive_some.mp hsome).2
      show mq.registered = !s.usr1
      rw [hsame]
      exact h
  | wait =>
    simp only [hp] at hn
    split at hn
    · cases hn
      trivial
    · cases hn
  | sigsuspend | returned | failed =>
    simp only [hp] at hn
    cases hn

theorem parent_lost (h : s.Lost) (hn : s.parentMain = some t) : t.Lost := by
  obtain ⟨hgone, hp'⟩ := h
  unfold State.parentMain at hn
  cases hp : s.parent with
  | sigprocmask =>
    simp only [hp] at hn
    cases hn
    exact ⟨hgone, trivial⟩
  | test =>
    simp only [hp] at hn hp'
    cases hn
    rw [hp']
    exact ⟨hgone, trivial⟩
  | wait =>
    simp only [hp] at hn
    split at hn
    · cases hn
      exact ⟨hgone, trivial⟩
    · cases hn
  | notify | receive | failed =>
    simp only [hp] at hp'
  | sigsuspend | returned =>
    simp only [hp] at hn
    cases hn

theorem wake_kept {usr1 int : Bool} (h : s.Kept) (hn : s.wake usr1 int = some t) : t.Kept := by
  unfold State.wake at hn
  split at hn
  · rename_i hwake
    obtain ⟨hp, hsome, husr1, hint⟩ := hwake
    cases hn
    unfold State.Kept at h
    simp only [hp] at h
    show (s.should_exit || int) = true ∨ s.mq.registered = false ∧ (s.usr1 && !usr1) = false
    cases usr1 with
    | true =>
      have htoken : s.mq.registered = !s.usr1 := h.1
      rw [husr1 rfl] at htoken
      exact .inr ⟨htoken, Bool.and_false _⟩
    | false =>
      have hint' : int = true := hsome
      rw [hint', Bool.or_true]
      exact .inl rfl
  · cases hn

theorem wake_lost {usr1 int : Bool} (h : s.Lost) (hn : s.wake usr1 int = some t) : t.Lost := by
  unfold State.wake at hn
  split at hn
  · rename_i hwake
    obtain ⟨hp, hsome, husr1, hint⟩ := hwake
    cases hn
    obtain ⟨⟨hreg, hnone⟩, -⟩ := h
    cases usr1 with
    | true =>
      rw [hnone] at husr1
      cases husr1 rfl
    | false =>
      have hint' : int = true := hsome
      refine ⟨⟨hreg, ?_⟩, ?_⟩
      · rw [hnone]
        rfl
      · show (s.should_exit || int) = true
        rw [hint', Bool.or_true]
  · cases hn

theorem deliver_int (hn : s.deliver .SIGINT = some t) :
    s.parent = .sigprocmask ∧ t = { s with int := false, should_exit := true } := by
  unfold State.deliver at hn
  simp only at hn
  split at hn
  · rename_i hp
    cases hn
    exact ⟨hp.1, rfl⟩
  · cases hn

theorem deliver_usr1 (hn : s.deliver .SIGUSR1 = some t) :
    s.parent = .sigprocmask ∧ s.usr1 = true ∧ t = { s with usr1 := false } := by
  unfold State.deliver at hn
  simp only at hn
  split at hn
  · rename_i hp
    cases hn
    exact ⟨hp.1, hp.2, rfl⟩
  · cases hn

theorem step_kept (h : s.Kept) (hC : Blocked s act) (hn : s.next act = some t) : t.Kept := by
  cases act with
  | parent => exact parent_kept h hn
  | child rand => exact child_kept h hn
  | deliver sig =>
    cases sig with
    | SIGUSR1 => exact absurd rfl hC
    | SIGINT =>
      obtain ⟨hp, rfl⟩ := deliver_int hn
      unfold State.Kept at h ⊢
      simp only [hp] at h ⊢
      exact h
  | wake usr1 int => exact wake_kept h hn

theorem step_lost (h : s.Lost) (hn : s.next act = some t) : t.Lost := by
  cases act with
  | parent => exact parent_lost h hn
  | child rand => exact child_lost h hn
  | deliver sig =>
    cases sig with
    | SIGUSR1 =>
      obtain ⟨-, husr1, rfl⟩ := deliver_usr1 hn
      rw [h.1.2] at husr1
      cases husr1
    | SIGINT =>
      obtain ⟨hp, rfl⟩ := deliver_int hn
      refine ⟨h.1, ?_⟩
      simp only [hp]
  | wake usr1 int => exact wake_lost h hn

/-- The signal is gone, and the registration was gone before. -/
theorem step_loses (h : s.Kept) (hC : ¬ Blocked s act) (hn : s.next act = some t) : t.Lost := by
  obtain rfl : act = .deliver .SIGUSR1 := not_not.mp hC
  obtain ⟨hp, husr1, rfl⟩ := deliver_usr1 hn
  unfold State.Kept at h
  simp only [hp] at h
  have htoken : s.mq.registered = !s.usr1 := h.1
  rw [husr1] at htoken
  refine ⟨⟨htoken, rfl⟩, ?_⟩
  simp only [hp]

theorem start_kept : State.start.Kept := ⟨rfl, fun _ => rfl⟩

theorem kept_or_lost {as : List Act} (he : program.exec .start as = some t) :
    program.Along Blocked .start as ∧ t.Kept ∨ ¬ program.Along Blocked .start as ∧ t.Lost :=
  LTS.along_split (K := State.Kept) (J := State.Lost) (fun _ _ _ h hC hn => step_kept h hC hn)
    (fun _ _ _ h hC hn => step_loses h hC hn) (fun _ _ _ h hn => step_lost h hn) start_kept he

/-! ## What should hold -/

/-- In `sigsuspend`, with no `SIGUSR1` to end it. -/
def State.Asleep (s : State) : Prop := s.parent = .sigsuspend ∧ s.usr1 = false

/-- **No lost wake-up.** The parent never registers a queue that is registered, and sleeps on an
empty and registered queue if and only if no `SIGUSR1` was delivered before it was blocked. -/
theorem no_lost_wakeup (as : List Act) (s : State) (he : program.exec .start as = some s) :
    (s.parent = .notify → s.mq.registered = false) ∧
      (s.Asleep → (s.mq.msgs = [] ∧ s.mq.registered = true ↔
        program.Along Blocked .start as)) := by
  rcases kept_or_lost he with ⟨hall, hkept⟩ | ⟨hnot, hgone, hlost⟩
  · unfold State.Kept at hkept
    refine ⟨fun hp => ?_, fun hasleep => iff_of_true ?_ hall⟩
    · simp only [hp] at hkept
      exact hkept.1
    · obtain ⟨hp, husr1⟩ := hasleep
      simp only [hp] at hkept
      have htoken : s.mq.registered = !s.usr1 := hkept.1
      rw [husr1] at htoken
      exact ⟨hkept.2 htoken, htoken⟩
  · refine ⟨fun hp => ?_, fun _ => iff_of_false (fun hgood => ?_) hnot⟩
    · simp only [hp] at hlost
    · rw [hgone.1] at hgood
      cases hgood.2

/-- The first message is notified, and the parent sleeps again. -/
theorem no_lost_wakeup_one : ∃ as s, program.exec .start as = some s ∧ s.Asleep ∧
    s.mq.msgs = [] ∧ s.mq.registered = true := by
  have hrun : ∃ s, program.execIf Blocked .start
      [.child 0, .child 0, .parent, .wake true false, .parent, .parent, .parent, .parent] =
        some s ∧ s.Asleep := ⟨_, rfl, rfl, rfl⟩
  obtain ⟨s, hif, hasleep⟩ := hrun
  obtain ⟨he, hall⟩ := LTS.along_of_execIf hif
  exact ⟨_, s, he, hasleep, ((no_lost_wakeup _ s he).2 hasleep).mpr hall⟩

/-- The child sends its first message and the signal is delivered before the parent blocks it. -/
theorem lost_wakeup : ¬ ∀ s, program.Reach s →
    s.Asleep → s.mq.msgs = [] ∧ s.mq.registered = true := by
  intro h
  have hrun : ∃ s, program.exec .start [.child 0, .child 0, .deliver .SIGUSR1, .parent] = some s ∧
      s.Asleep ∧ s.mq.msgs = [("text", 0)] := ⟨_, rfl, ⟨rfl, rfl⟩, rfl⟩
  obtain ⟨s, he, hasleep, hmsgs⟩ := hrun
  have hgood := h s (LTS.Reach.exec (.init rfl) he) hasleep
  rw [hmsgs] at hgood
  cases hgood.1

end Ops.Notify
