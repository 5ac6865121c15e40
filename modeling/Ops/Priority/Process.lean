import Ops.Lib.Transition
import Ops.Posix.Priority

/-!
# Message priorities (`07_priority.c`)

One process that sends `MSG_MAX` messages with random priorities to itself and then receives as
many. `mq_send` has no step while the queue has `MSG_MAX` messages, and `mq_receive` has none while
it is empty. `sent` and `received` are what was sent and received, in order.
-/

namespace Ops.Priority

open Posix Posix.Mqueue

def MQ_PRIO_MAX : Nat := 32768

/-- The next step of `main`. -/
inductive Pc where
  | send (i : Nat)
  | receive (i : Nat)
  | returned
  deriving DecidableEq, Repr

structure State where
  pc : Pc
  mq : Mqueue String
  sent : List (String × Nat)
  received : List (String × Nat)
  deriving DecidableEq, Repr

def text (i : Nat) : String := "text" ++ toString i

/-- `main`; `rand` is what `rand ()` returns. -/
def State.main (MSG_MAX : Nat) (s : State) (rand : Nat) : Option State :=
  match s.pc with
  | .send i =>
    if i < MSG_MAX then
      if s.mq.msgs.length < MSG_MAX then
        some { s with
          mq := s.mq.send (text i, rand % MQ_PRIO_MAX) false
          sent := s.sent ++ [(text i, rand % MQ_PRIO_MAX)]
          pc := .send (i + 1) }
      else none
    else some { s with pc := .receive 0 }
  | .receive i =>
    if i < MSG_MAX then
      s.mq.receive.map fun r =>
        { s with mq := r.2, received := s.received ++ [r.1], pc := .receive (i + 1) }
    else some { s with pc := .returned }
  | .returned => none

/-- After `mq_open` and `srand`. -/
def State.start : State := ⟨.send 0, .fresh, [], []⟩

def program (MSG_MAX : Nat) : LTS State Nat where
  Init s := s = .start
  next := State.main MSG_MAX

variable {MSG_MAX : Nat} {s t : State}

/-! ## What is in the queue -/

/-- What was received and what is in the queue is what was sent, in its order. -/
structure Inv (MSG_MAX : Nat) (s : State) : Prop where
  ordered : Ordered s.sent (s.received ++ s.mq.msgs)
  texts : s.sent.map Prod.fst = (List.range s.sent.length).map text
  sending : ∀ i, s.pc = .send i → i ≤ MSG_MAX ∧ s.sent.length = i ∧ s.received = []
  receiving : ∀ i, s.pc = .receive i →
    i ≤ MSG_MAX ∧ s.received.length = i ∧ s.sent.length = MSG_MAX
  returned : s.pc = .returned → s.mq.msgs = [] ∧ s.sent.length = MSG_MAX

namespace Inv

theorem start : Inv MSG_MAX .start where
  ordered := .nil
  texts := rfl
  sending i h := by
    cases h
    exact ⟨Nat.zero_le _, rfl, rfl⟩
  receiving i h := by cases h
  returned h := by cases h

theorem length (h : Inv MSG_MAX s) : s.sent.length = s.received.length + s.mq.msgs.length := by
  rw [← h.ordered.perm.length_eq, List.length_append]

theorem send {i : Nat} (h : Inv MSG_MAX s) (hpc : s.pc = .send i) (hi : i < MSG_MAX) (rand : Nat) :
    Inv MSG_MAX { s with
      mq := s.mq.send (text i, rand % MQ_PRIO_MAX) false
      sent := s.sent ++ [(text i, rand % MQ_PRIO_MAX)]
      pc := .send (i + 1) } := by
  obtain ⟨-, hlength, hnone⟩ := h.sending i hpc
  refine ⟨?_, ?_, fun k hk => ?_, fun k hk => (by cases hk), fun hk => (by cases hk)⟩
  · have hordered := h.ordered
    rw [hnone, List.nil_append] at hordered
    show Ordered _ (s.received ++ _)
    rw [hnone, List.nil_append]
    exact hordered.insert
  · show (s.sent ++ _).map Prod.fst = (List.range (s.sent ++ _).length).map text
    rw [List.map_append, List.length_append, List.length_singleton, List.range_succ,
      List.map_append, h.texts, hlength]
    rfl
  · cases hk
    exact ⟨hi, by rw [List.length_append, hlength]; rfl, hnone⟩

theorem receive {i : Nat} {m : String × Nat} {mq : Mqueue String} (h : Inv MSG_MAX s)
    (hpc : s.pc = .receive i) (hi : i < MSG_MAX) (hr : s.mq.receive = some (m, mq)) :
    Inv MSG_MAX
      { s with mq := mq, received := s.received ++ [m], pc := .receive (i + 1) } := by
  obtain ⟨-, hlength, hsent⟩ := h.receiving i hpc
  refine ⟨?_, h.texts, fun k hk => (by cases hk), fun k hk => ?_, fun hk => (by cases hk)⟩
  · have hordered := h.ordered
    rw [(receive_some.mp hr).1] at hordered
    rwa [List.append_assoc]
  · cases hk
    exact ⟨hi, by rw [List.length_append, hlength]; rfl, hsent⟩

theorem step {rand : Nat} (h : Inv MSG_MAX s) (hn : s.main MSG_MAX rand = some t) :
    Inv MSG_MAX t := by
  unfold State.main at hn
  cases hpc : s.pc with
  | send i =>
    simp only [hpc] at hn
    obtain ⟨hi, hlength, hnone⟩ := h.sending i hpc
    split at hn
    · split at hn
      · cases hn
        exact h.send hpc ‹_› rand
      · cases hn
    · cases hn
      refine ⟨h.ordered, h.texts, fun k hk => (by cases hk), fun k hk => ?_,
        fun hk => (by cases hk)⟩
      cases hk
      exact ⟨Nat.zero_le _, by rw [hnone]; rfl, show s.sent.length = MSG_MAX by omega⟩
  | receive i =>
    simp only [hpc] at hn
    obtain ⟨hi, hlength, hsent⟩ := h.receiving i hpc
    split at hn
    · obtain ⟨r, hr, rfl⟩ := Option.map_eq_some_iff.mp hn
      exact h.receive hpc ‹_› hr
    · cases hn
      refine ⟨h.ordered, h.texts, fun k hk => (by cases hk), fun k hk => (by cases hk),
        fun _ => ⟨?_, hsent⟩⟩
      have hall := h.length
      refine List.eq_nil_of_length_eq_zero (show s.mq.msgs.length = 0 from ?_)
      omega
  | returned => simp [hpc] at hn

theorem reach (h : (program MSG_MAX).Reach s) : Inv MSG_MAX s := by
  refine h.inv (I := Inv MSG_MAX) ?_ fun _ _ _ _ hi hn => hi.step hn
  rintro _ rfl
  exact .start

/-! ## No call blocks -/

/-- The steps to the end. -/
def rest (MSG_MAX : Nat) : Pc → Nat
  | .send i => 2 * MSG_MAX + 2 - i
  | .receive i => MSG_MAX + 1 - i
  | .returned => 0

theorem goes (h : Inv MSG_MAX s) (hpc : s.pc ≠ .returned) (rand : Nat) :
    ∃ t, s.main MSG_MAX rand = some t ∧ rest MSG_MAX t.pc + 1 = rest MSG_MAX s.pc := by
  have hall := h.length
  unfold State.main
  cases hpc' : s.pc with
  | send i =>
    obtain ⟨hi, hlength, hnone⟩ := h.sending i hpc'
    rw [hnone, List.length_nil] at hall
    by_cases hlt : i < MSG_MAX
    · simp only [if_pos hlt, if_pos (show s.mq.msgs.length < MSG_MAX by omega)]
      refine ⟨_, rfl, ?_⟩
      simp only [rest]
      omega
    · simp only [if_neg hlt]
      refine ⟨_, rfl, ?_⟩
      simp only [rest]
      omega
  | receive i =>
    obtain ⟨hi, hlength, hsent⟩ := h.receiving i hpc'
    by_cases hlt : i < MSG_MAX
    · obtain ⟨r, hr⟩ : ∃ r, s.mq.receive = some r := by
        refine Option.ne_none_iff_exists'.mp fun hnone => ?_
        rw [receive_none.mp hnone, List.length_nil] at hall
        omega
      simp only [if_pos hlt, hr, Option.map_some]
      refine ⟨_, rfl, ?_⟩
      simp only [rest]
      omega
    · simp only [if_neg hlt]
      refine ⟨_, rfl, ?_⟩
      simp only [rest]
      omega
  | returned => exact absurd hpc' hpc

/-- With a random number for each step, `main` comes to its end. -/
theorem ends {rands : List Nat} (h : Inv MSG_MAX s) (hrest : rest MSG_MAX s.pc = rands.length) :
    ∃ t, (program MSG_MAX).exec s rands = some t ∧ t.pc = .returned ∧ Inv MSG_MAX t := by
  induction rands generalizing s with
  | nil =>
    refine ⟨s, rfl, ?_, h⟩
    cases hpc : s.pc with
    | send i =>
      have hi := (h.sending i hpc).1
      rw [hpc] at hrest
      simp only [rest, List.length_nil] at hrest
      omega
    | receive i =>
      have hi := (h.receiving i hpc).1
      rw [hpc] at hrest
      simp only [rest, List.length_nil] at hrest
      omega
    | returned => rfl
  | cons rand rands ih =>
    have hne : s.pc ≠ .returned := fun hpc => by
      rw [hpc] at hrest
      cases hrest
    obtain ⟨t, hn, hlower⟩ := h.goes hne rand
    rw [List.length_cons] at hrest
    obtain ⟨u, hu, hpc, hinv⟩ := ih (h.step hn) (by omega)
    exact ⟨u, (LTS.exec_cons hn rands).trans hu, hpc, hinv⟩

end Inv

/-- **By descending priority, and stable**: whatever `rand` returns, no call blocks and `main`
comes to its end; then what was received is the messages sent, each once, by descending priority
and in the order of sending within one. -/
theorem received_ordered (MSG_MAX : Nat) (rands : List Nat)
    (h : rands.length = 2 * MSG_MAX + 2) :
    ∃ s, (program MSG_MAX).exec .start rands = some s ∧ s.pc = .returned ∧
      s.sent.map Prod.fst = (List.range MSG_MAX).map text ∧ Ordered s.sent s.received ∧
      s.received.Perm s.sent := by
  obtain ⟨s, hs, hpc, hinv⟩ := Inv.start.ends h.symm
  obtain ⟨hempty, hlength⟩ := hinv.returned hpc
  have hordered := hinv.ordered
  rw [hempty, List.append_nil] at hordered
  exact ⟨s, hs, hpc, hlength ▸ hinv.texts, hordered, hordered.perm⟩

/-- Three messages with the priorities 1, 5 and 1. -/
theorem received_ordered_three : ∃ s, (program 3).exec .start [1, 5, 32769, 0, 0, 0, 0, 0] =
    some s ∧ s.received = [("text1", 5), ("text0", 1), ("text2", 1)] ∧
    Ordered s.sent s.received := by
  obtain ⟨s, hs, -, -, hordered, -⟩ := received_ordered 3 [1, 5, 32769, 0, 0, 0, 0, 0] rfl
  have hrun : ((program 3).exec .start [1, 5, 32769, 0, 0, 0, 0, 0]).map State.received =
      some [("text1", 5), ("text0", 1), ("text2", 1)] := by decide
  rw [hs] at hrun
  exact ⟨s, hs, Option.some.inj hrun, hordered⟩

end Ops.Priority
