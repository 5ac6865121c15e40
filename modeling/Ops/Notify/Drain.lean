import Ops.Lib.Slots
import Ops.Notify.Threads

/-!
# Every notification is followed by a drain

Up to `mq_close` the registration is there or one thread owes it (`Inv.token`), so `mq_notify` never
finds somebody registered, although any number of threads may be receiving. While there is a
message, a thread has not come to its end (`Inv.drained`), and alone the threads receive everything,
in whatever order they go on (`Inv.drains`). A thread that is not at its end when the parent closes
the queue may end the process with 1. A message that finds the queue full ends the child, and then
nobody sends the `SIGINT` for which the parent waits.
-/

namespace Ops.Notify.Threaded

open Posix

variable {s t : State} {i : Nat}

/-- The thread has to register again. -/
def ThreadPc.owes : ThreadPc → Nat
  | notify => 1
  | receive | ended => 0

/-- The steps to the end, if the queue is empty. -/
def ThreadPc.rank : ThreadPc → Nat
  | notify => 2
  | receive => 1
  | ended => 0

def State.owed (s : State) : Nat := (s.threads.map ThreadPc.owes).sum

/-- The parent has not closed the queue. -/
def State.isOpen (s : State) : Bool := s.parent ≠ .closed && s.parent ≠ .returned

structure Inv (s : State) : Prop where
  goes : s.exited = true → s.parent = .closed
  token : s.isOpen = true → s.mq.registered.toNat + s.owed = 1
  count : s.sent = s.received + s.mq.msgs.length
  drained : s.mq.msgs ≠ [] → ∃ c ∈ s.threads, c ≠ .ended
  few : s.threads.length ≤ s.received + if s.mq.msgs = [] then 0 else 1
  /-- Only the child that has done its work interrupts the parent. -/
  signalled : s.int = true ∨ s.should_exit = true → s.child = .ended
  asked : s.parent ≠ .sigprocmask ∧ s.parent ≠ .sigsuspend → s.should_exit = true

/-! ## Steps of a thread -/

/-- What `thread_routine` does with its next step. -/
inductive Work (s : State) (i : Nat) (t : State) : Prop where
  | exits : s.parent = .closed ∨ s.mq.notify = none ∧ s.threads[i]? = some .notify →
      t = { s with exited := true } → Work s i t
  | registered (mq : Mqueue String) : s.parent ≠ .closed → s.threads[i]? = some .notify →
      s.mq.notify = some mq → t = { s with mq := mq, threads := s.threads.set i .receive } →
      Work s i t
  | received (m : String × Nat) (mq : Mqueue String) : s.threads[i]? = some .receive →
      s.mq.receive = some (m, mq) → t = { s with mq := mq, received := s.received + 1 } →
      Work s i t
  | drained : s.threads[i]? = some .receive → s.mq.receive = none →
      t = { s with threads := s.threads.set i .ended } → Work s i t

theorem work (hn : s.thread_routine i = some t) : Work s i t := by
  unfold State.thread_routine at hn
  cases hpc : s.threads[i]? with
  | none => simp [hpc] at hn
  | some c =>
    cases c with
    | notify =>
      simp only [hpc] at hn
      by_cases hclosed : s.parent = .closed
      · simp only [State.notify, if_pos hclosed] at hn
        cases hn
        exact .exits (.inl hclosed) rfl
      · simp only [State.notify, if_neg hclosed] at hn
        split at hn
        · cases hn
          exact .exits (.inr ⟨‹_›, hpc⟩) rfl
        · cases hn
          exact .registered _ hclosed hpc ‹_› rfl
    | receive =>
      simp only [hpc] at hn
      split at hn
      · rename_i hclosed
        cases hn
        exact .exits (.inl hclosed) rfl
      · split at hn
        · cases hn
          exact .drained hpc ‹_› rfl
        · cases hn
          exact .received _ _ hpc ‹_› rfl
    | ended => simp [hpc] at hn

theorem alive_iff : s.alive = true ↔ s.exited = false ∧ s.parent ≠ .returned := by
  simp [State.alive]

theorem isOpen_iff : s.isOpen = true ↔ s.parent ≠ .closed ∧ s.parent ≠ .returned := by
  simp [State.isOpen]

namespace Inv

theorem start : Inv .start where
  goes := nofun
  token _ := rfl
  count := rfl
  drained h := absurd rfl h
  few := Nat.le_refl 0
  signalled := by rintro (h | h) <;> cases h
  asked h := absurd rfl h.1

theorem notify_ok (h : Inv s) (hopen : s.isOpen = true) (hpc : s.threads[i]? = some .notify) :
    s.mq.notify = some ⟨s.mq.msgs, true⟩ := by
  refine Mqueue.notify_ok ?_
  have hsum := sum_slot ThreadPc.owes hpc .ended
  have htoken := h.token hopen
  unfold State.owed at htoken
  simp only [ThreadPc.owes] at hsum
  omega

theorem thread (h : Inv s) (halive : s.alive = true) (hn : s.thread_routine i = some t) :
    Inv t := by
  have hreturned := (alive_iff.mp halive).2
  cases work hn with
  | exits hwhy ht =>
    subst ht
    have hclosed : s.parent = .closed := by
      by_contra hne
      obtain ⟨hnone, hpc⟩ := hwhy.resolve_left hne
      rw [h.notify_ok (isOpen_iff.mpr ⟨hne, hreturned⟩) hpc] at hnone
      cases hnone
    exact { h with goes := fun _ => hclosed }
  | registered mq hclosed hpc hmq ht =>
    subst ht
    obtain ⟨hfree, rfl⟩ := Mqueue.notify_some.mp hmq
    have hsum := sum_slot ThreadPc.owes hpc .receive
    have htoken := h.token (isOpen_iff.mpr ⟨hclosed, hreturned⟩)
    unfold State.owed at htoken
    simp only [ThreadPc.owes] at hsum
    rw [hfree, Bool.toNat_false] at htoken
    refine ⟨h.goes, fun _ => ?_, h.count, fun _ => ⟨.receive, mem_slot hpc _, nofun⟩, ?_,
      h.signalled, h.asked⟩
    · show 1 + ((s.threads.set i .receive).map ThreadPc.owes).sum = 1
      omega
    · rw [List.length_set]
      exact h.few
  | received m mq hpc hmq ht =>
    subst ht
    obtain ⟨hmsgs, hreg⟩ := Mqueue.receive_some.mp hmq
    have hcount := h.count
    have hfew := h.few
    rw [hmsgs, List.length_cons] at hcount
    rw [hmsgs, if_neg (List.cons_ne_nil _ _)] at hfew
    refine ⟨h.goes, fun hopen => hreg ▸ h.token hopen, ?_, fun _ => ?_, ?_, h.signalled, h.asked⟩
    · show s.sent = s.received + 1 + mq.msgs.length
      omega
    · exact ⟨.receive, List.mem_of_getElem? hpc, nofun⟩
    · exact Nat.le_trans hfew (Nat.le_add_right _ _)
  | drained hpc hmq ht =>
    subst ht
    have hempty := Mqueue.receive_none.mp hmq
    have hsum := sum_slot ThreadPc.owes hpc .ended
    simp only [ThreadPc.owes] at hsum
    refine ⟨h.goes, fun hopen => ?_, h.count, fun hsome => absurd hempty hsome, ?_, h.signalled,
      h.asked⟩
    · have htoken := h.token hopen
      unfold State.owed at htoken
      show s.mq.registered.toNat + ((s.threads.set i .ended).map ThreadPc.owes).sum = 1
      omega
    · rw [List.length_set]
      exact h.few

/-! ## The child -/

theorem send {j k n : Nat} (h : Inv s) (hpc : s.child = .send j k n) :
    Inv { s with
      mq := s.mq.send ("text", 0) false
      threads := if s.mq.fires false then s.threads ++ [.notify] else s.threads
      sent := s.sent + 1
      child := .send j (k + 1) n } := by
  have hcount := h.count
  have hquiet : ¬ (s.int = true ∨ s.should_exit = true) := fun hint => by
    rw [h.signalled hint] at hpc
    cases hpc
  have hopen : s.isOpen = true := isOpen_iff.mpr (by
    constructor
    · intro hclosed
      exact hquiet (.inr (h.asked (by rw [hclosed]; exact ⟨nofun, nofun⟩)))
    · intro hreturned
      exact hquiet (.inr (h.asked (by rw [hreturned]; exact ⟨nofun, nofun⟩))))
  have hlength : (s.mq.send ("text", 0) false).msgs.length = s.mq.msgs.length + 1 := by
    rw [Mqueue.send_msgs, Mqueue.insert_length]
  refine ⟨h.goes, fun _ => ?_, ?_, fun _ => ?_, ?_, fun hint => absurd hint hquiet, h.asked⟩
  · have htoken := Mqueue.send_token s.mq ("text", 0) false s.owed
    show _ + ((if s.mq.fires false then s.threads ++ [.notify] else s.threads).map
      ThreadPc.owes).sum = 1
    rw [← h.token hopen, ← htoken]
    cases hfires : s.mq.fires false with
    | true =>
      rw [if_pos rfl, List.map_append, List.sum_append]
      rfl
    | false => rfl
  · show s.sent + 1 = s.received + (s.mq.send ("text", 0) false).msgs.length
    omega
  · cases hfires : s.mq.fires false with
    | true => exact ⟨.notify, by simp, nofun⟩
    | false =>
      -- somebody owes the registration, or there was a message already
      by_cases hempty : s.mq.msgs = []
      · have hreg : s.mq.registered = false := by
          rw [Mqueue.fires, hempty] at hfires
          simpa using hfires
        have htoken := h.token hopen
        rw [hreg, Bool.toNat_false, Nat.zero_add] at htoken
        obtain ⟨k, c, hc, hpos⟩ := exists_of_sum (f := ThreadPc.owes) (l := s.threads) (by
          unfold State.owed at htoken
          omega)
        refine ⟨c, by simpa using List.mem_of_getElem? hc, ?_⟩
        rintro rfl
        exact absurd hpos (Nat.lt_irrefl 0)
      · obtain ⟨c, hc, hlive⟩ := h.drained hempty
        exact ⟨c, by simpa using hc, hlive⟩
  · have hfew := h.few
    have hne : (s.mq.send ("text", 0) false).msgs ≠ [] := Mqueue.insert_ne_nil _ _
    show (if s.mq.fires false then s.threads ++ [.notify] else s.threads).length ≤ _
    rw [if_neg hne]
    cases hfires : s.mq.fires false with
    | true =>
      rw [if_pos (Mqueue.fires_iff.mp hfires).2.1] at hfew
      rw [if_pos rfl, List.length_append]
      exact Nat.add_le_add_right hfew 1
    | false =>
      refine Nat.le_trans hfew (Nat.add_le_add_left ?_ _)
      split <;> decide

theorem childMain {rand : Nat} (h : Inv s) (hn : s.childMain rand = some t) : Inv t := by
  have hquiet : s.child ≠ .ended → ¬ (s.int = true ∨ s.should_exit = true) := fun hne hint =>
    hne (h.signalled hint)
  unfold State.childMain at hn
  cases hpc : s.child with
  | batch j | sleep j =>
    simp only [hpc, Option.some.injEq] at hn
    subst hn
    exact { h with signalled := fun hint => absurd hint (hquiet (by rw [hpc]; exact nofun)) }
  | send j k n =>
    simp only [hpc] at hn
    have hnot := hquiet (by rw [hpc]; exact nofun)
    split at hn
    · split at hn
      · cases hn
        exact h.send hpc
      · cases hn
        exact { h with signalled := fun hint => absurd hint hnot }
    · cases hn
      exact { h with signalled := fun hint => absurd hint hnot }
  | kill =>
    simp only [hpc, Option.some.injEq] at hn
    subst hn
    exact { h with signalled := fun _ => rfl }
  | ended | failed => simp [hpc] at hn

theorem goto {pc : ParentPc} (h : Inv s) (hgoes : s.exited = false) (hopen : s.isOpen = true)
    (hasked : pc ≠ .sigprocmask ∧ pc ≠ .sigsuspend → s.should_exit = true) :
    Inv { s with parent := pc } where
  goes hexited := absurd (hgoes.symm.trans hexited) nofun
  token _ := h.token hopen
  count := h.count
  drained := h.drained
  few := h.few
  signalled := h.signalled
  asked := hasked

theorem parentMain (h : Inv s) (halive : s.alive = true) (hn : s.parentMain = some t) : Inv t := by
  have hgoes := (alive_iff.mp halive).1
  unfold State.parentMain at hn
  cases hpc : s.parent with
  | sigprocmask =>
    simp only [hpc, Option.some.injEq] at hn
    subst hn
    exact h.goto hgoes (by simp [State.isOpen, hpc]) fun hne => absurd rfl hne.2
  | sigsuspend | returned => simp [hpc] at hn
  | test =>
    simp only [hpc, Option.some.injEq] at hn
    subst hn
    exact h.goto hgoes (by simp [State.isOpen, hpc]) fun _ =>
      h.asked (by rw [hpc]; exact ⟨nofun, nofun⟩)
  | wait =>
    simp only [hpc] at hn
    split at hn
    · cases hn
      exact h.goto hgoes (by simp [State.isOpen, hpc]) fun _ =>
        h.asked (by rw [hpc]; exact ⟨nofun, nofun⟩)
    · cases hn
  | mq_close =>
    simp only [hpc, Option.some.injEq] at hn
    subst hn
    exact ⟨fun _ => rfl, nofun, h.count, h.drained, h.few, h.signalled, fun _ =>
      h.asked (by rw [hpc]; exact ⟨nofun, nofun⟩)⟩
  | closed =>
    simp only [hpc, Option.some.injEq] at hn
    subst hn
    exact ⟨fun hexited => absurd (hgoes.symm.trans hexited) nofun, nofun, h.count, h.drained, h.few,
      h.signalled, fun _ => h.asked (by rw [hpc]; exact ⟨nofun, nofun⟩)⟩

theorem interrupt (h : Inv s) (hint : s.int = true) :
    Inv { s with int := false, should_exit := true } :=
  { h with
    signalled := fun _ => h.signalled (.inl hint)
    asked := fun _ => rfl }

theorem step {act : Act} (h : Inv s) (hn : s.next act = some t) : Inv t := by
  cases act with
  | child rand => exact h.childMain hn
  | parent =>
    simp only [State.next] at hn
    split at hn
    · exact h.parentMain ‹_› hn
    · cases hn
  | thread i =>
    simp only [State.next] at hn
    split at hn
    · exact h.thread ‹_› hn
    · cases hn
  | deliver | take i =>
    simp only [State.next] at hn
    split at hn
    · rename_i hcond
      cases hn
      first
      | exact h.interrupt hcond.2.2
      | exact h.interrupt hcond.2.1
    · cases hn
  | wake =>
    simp only [State.next] at hn
    split at hn
    · rename_i hcond
      obtain ⟨halive, hpc, hint⟩ := hcond
      cases hn
      exact (h.interrupt hint).goto (alive_iff.mp halive).1 (by simp [State.isOpen, hpc])
        fun _ => rfl
    · cases hn

theorem reach (h : program.Reach s) : Inv s := by
  refine h.inv (I := Inv) ?_ fun _ _ _ _ hi hn => hi.step hn
  rintro _ rfl
  exact .start

/-! ## The threads alone -/

def weight (s : State) : Nat := s.mq.msgs.length + (s.threads.map ThreadPc.rank).sum

theorem lowers (h : Inv s) (hopen : s.isOpen = true) (hn : s.thread_routine i = some t) :
    t.sent = s.sent ∧ t.parent = s.parent ∧ weight t < weight s := by
  unfold weight
  cases work hn with
  | exits hwhy ht =>
    obtain ⟨hnone, hpc⟩ := hwhy.resolve_left (isOpen_iff.mp hopen).1
    rw [h.notify_ok hopen hpc] at hnone
    cases hnone
  | registered mq _ hpc hmq ht =>
    subst ht
    obtain ⟨-, rfl⟩ := Mqueue.notify_some.mp hmq
    have hsum := sum_slot ThreadPc.rank hpc .receive
    simp only [ThreadPc.rank] at hsum
    refine ⟨rfl, rfl, ?_⟩
    dsimp only
    omega
  | received m mq hpc hmq ht =>
    subst ht
    have hmsgs := congrArg List.length (Mqueue.receive_some.mp hmq).1
    rw [List.length_cons] at hmsgs
    refine ⟨rfl, rfl, ?_⟩
    dsimp only
    omega
  | drained hpc hmq ht =>
    subst ht
    have hsum := sum_slot ThreadPc.rank hpc .ended
    simp only [ThreadPc.rank] at hsum
    refine ⟨rfl, rfl, ?_⟩
    dsimp only
    omega

theorem goes_on {c : ThreadPc} (hc : s.threads[i]? = some c) (hlive : c ≠ .ended) :
    ∃ t, s.thread_routine i = some t := by
  unfold State.thread_routine
  rw [hc]
  cases c with
  | notify =>
    simp only
    split
    · exact ⟨_, rfl⟩
    · exact ⟨_, rfl⟩
  | receive =>
    simp only
    split
    · exact ⟨_, rfl⟩
    · split
      · exact ⟨_, rfl⟩
      · exact ⟨_, rfl⟩
  | ended => exact absurd rfl hlive

end Inv

/-- The threads have received everything, and the next message is notified again. -/
structure Drained (s t : State) : Prop where
  msgs : t.mq.msgs = []
  registered : t.mq.registered = true
  received : t.received = s.sent
  threads : ∀ c ∈ t.threads, c = .ended

namespace Inv

theorem drained_of_ended (h : Inv t) (hopen : t.isOpen = true) (hsent : t.sent = s.sent)
    (hended : ∀ c ∈ t.threads, c = .ended) : Drained s t := by
  have hempty : t.mq.msgs = [] := by
    by_contra hne
    obtain ⟨c, hc, hlive⟩ := h.drained hne
    exact hlive (hended c hc)
  have howed : t.owed = 0 := List.sum_eq_zero fun v hv => by
    obtain ⟨c, hc, rfl⟩ := List.mem_map.mp hv
    rw [hended c hc]
    rfl
  refine ⟨hempty, Mqueue.registered_of_token ?_, ?_, hended⟩
  · rw [← h.token hopen, howed]
  · have hcount := h.count
    rw [hempty, hsent] at hcount
    exact hcount.symm

theorem next_thread (h : Inv s) (hopen : s.isOpen = true) (i : Nat) :
    s.next (.thread i) = s.thread_routine i := by
  obtain ⟨hclosed, hreturned⟩ := isOpen_iff.mp hopen
  have hgoes : s.exited = false := Bool.eq_false_iff.mpr fun hexited => hclosed (h.goes hexited)
  exact if_pos (alive_iff.mpr ⟨hgoes, hreturned⟩)

structure Alone (s u : State) : Prop where
  inv : Inv u
  isOpen : u.isOpen = true
  sent : u.sent = s.sent

theorem Alone.step {u v : State} (h : Alone s u) (hn : u.next (.thread i) = some v) :
    Alone s v ∧ weight v < weight u := by
  have hwork := hn
  rw [h.inv.next_thread h.isOpen] at hwork
  obtain ⟨hsent, hparent, hlt⟩ := h.inv.lowers h.isOpen hwork
  refine ⟨⟨h.inv.step hn, ?_, hsent.trans h.sent⟩, hlt⟩
  have hopen := h.isOpen
  unfold State.isOpen at hopen ⊢
  rwa [hparent]

theorem Alone.advances {u : State} (h : Alone s u) :
    Drained s u ∨ ∃ i v, u.next (.thread i) = some v := by
  by_cases hall : ∀ c ∈ u.threads, c = .ended
  · exact .inl (h.inv.drained_of_ended h.isOpen h.sent hall)
  · push Not at hall
    obtain ⟨c, hc, hlive⟩ := hall
    obtain ⟨i, hi⟩ := List.mem_iff_getElem?.mp hc
    obtain ⟨v, hv⟩ := goes_on hi hlive
    exact .inr ⟨i, v, (h.inv.next_thread h.isOpen i).trans hv⟩

theorem drains (h : Inv s) (hopen : s.isOpen = true) :
    ∃ as t, (∀ a ∈ as, ∃ i, a = .thread i) ∧ program.exec s as = some t ∧ Drained s t := by
  obtain ⟨as, t, has, he, -, hdrained⟩ := LTS.run_to (L := program)
    (P := fun a => ∃ i, a = .thread i) (I := Alone s) (G := Drained s) weight (fun u hu => by
      refine hu.advances.imp_right fun ⟨i, v, hv⟩ => ?_
      obtain ⟨hv', hlt⟩ := hu.step hv
      exact ⟨_, v, ⟨i, rfl⟩, hv, hv', hlt⟩)
    ⟨h, hopen, rfl⟩
  exact ⟨as, t, has, he, hdrained⟩

/-- In whatever order they go on, the threads come to their ends, with everything received. -/
theorem drains_all {as : List Act} (h : Inv s) (hopen : s.isOpen = true)
    (has : ∀ a ∈ as, ∃ i, a = .thread i) (he : program.exec s as = some t) :
    as.length ≤ weight s ∧ ((∀ i, t.next (.thread i) = none) → Drained s t) := by
  have hlower : ∀ u (a : Act) v, Alone s u → (∃ i, a = .thread i) → program.next u a = some v →
      Alone s v ∧ weight v < weight u := by
    rintro u _ v hu ⟨i, rfl⟩ hn
    exact hu.step hn
  have halong : program.Along (fun _ a => ∃ i, a = .thread i) s as := LTS.along_of_mem has
  have halone : Alone s s := ⟨h, hopen, rfl⟩
  refine ⟨(Nat.le_add_right _ _).trans (LTS.along_length weight hlower halone halong he), ?_⟩
  intro hstuck
  have ht : Alone s t := LTS.along_inv (fun u a v hu ha hn => (hlower u a v hu ha hn).1) halone
    halong he
  refine ht.advances.resolve_right ?_
  rintro ⟨i, v, hv⟩
  rw [hstuck i] at hv
  cases hv

end Inv

/-- **Notification threads never collide**: in every run, until the parent closes the queue,
`mq_notify` finds nobody registered; each message is received or in the queue, and while one is in
the queue a thread has not come to its end; there are never more threads than received messages and
one, and alone, in whatever order they go on, they empty the queue. A child that finds the queue
full leaves a parent that never returns. -/
theorem threads_drain (hs : program.Reach s) :
    (s.isOpen = true → s.exited = false) ∧ s.sent = s.received + s.mq.msgs.length ∧
      (s.mq.msgs ≠ [] → ∃ c ∈ s.threads, c ≠ .ended) ∧ s.threads.length ≤ s.received + 1 ∧
      (s.child = .failed → s.parent = .sigprocmask ∨ s.parent = .sigsuspend) ∧
      (s.isOpen = true →
        (∃ as t, (∀ a ∈ as, ∃ i, a = .thread i) ∧ program.exec s as = some t ∧ Drained s t) ∧
        ∃ bound, ∀ as t, (∀ a ∈ as, ∃ i, a = .thread i) → program.exec s as = some t →
          as.length ≤ bound ∧ ((∀ i, t.next (.thread i) = none) → Drained s t)) := by
  have h := Inv.reach hs
  refine ⟨fun hopen => ?_, h.count, h.drained, ?_, fun hfailed => ?_, fun hopen =>
    ⟨h.drains hopen, Inv.weight s, fun as t has he => h.drains_all hopen has he⟩⟩
  · exact Bool.eq_false_iff.mpr fun hexited => (isOpen_iff.mp hopen).1 (h.goes hexited)
  · refine Nat.le_trans h.few (Nat.add_le_add_left ?_ _)
    split <;> decide
  · by_contra hnot
    push Not at hnot
    rw [h.signalled (.inr (h.asked hnot))] at hfailed
    cases hfailed

/-- Two threads at once: the second message is fired while the first thread receives. -/
theorem threads_drain_two : ∃ s, program.Reach s ∧ s.threads = [.receive, .notify] ∧
    s.sent = s.received + s.mq.msgs.length := by
  have hrun : (program.exec .start [.child 0, .child 1, .thread 0, .thread 0, .child 1, .child 1,
      .child 1, .child 1]).map (fun s => (s.threads, s.sent)) = some ([.receive, .notify], 2) := by
    decide
  obtain ⟨s, hs, heq⟩ := Option.map_eq_some_iff.mp hrun
  have hreach : program.Reach s := LTS.Reach.exec (.init rfl) hs
  exact ⟨s, hreach, (Prod.mk.inj heq).1, (threads_drain hreach).2.1⟩

end Ops.Notify.Threaded
