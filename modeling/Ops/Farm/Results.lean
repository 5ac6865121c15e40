import Ops.Farm.Process
import Ops.Lib.Update

/-!
# Every result is printed

One run of the handler registers one queue again and empties all of them. A queue that is not
registered has its signal pending, or the handler is about to register it; a queue that is
not empty has its signal pending, or the handler is still to come to it (`Queues`).
-/

namespace Ops.Farm

open Posix

variable {τ ρ : Type} {n T1 T2 rand i q : Nat} {add : τ → ρ} {s s' : State τ ρ} {act : Act τ}

/-- The parent has registered queue `q`. -/
def Parent.begun : Parent → Nat → Bool
  | .notify i, q => decide (q < i)
  | _, _ => true

/-- The handler is about to register queue `q` again. -/
def Handler.owes (q : Nat) : Option Handler → Nat
  | some (.notify i) => if i = q then 1 else 0
  | _ => 0

/-- The handler is still to come to queue `q`. -/
def Handler.sees (q : Nat) : Option Handler → Prop
  | some (.notify _) => True
  | some (.drain i) => i ≤ q
  | none => False

/-- The registrations of queue `q` that are still to be made. -/
def State.owed (s : State τ ρ) (q : Nat) : Nat := s.pending.count q + Handler.owes q s.handler

/-- A queue, with what was sent to it and printed of it. -/
structure Wq (s : State τ ρ) (q : Nat) : Prop where
  token : (s.wq q).registered.toNat + s.owed q = (s.parent.begun q).toNat
  seen : (s.wq q).msgs ≠ [] → q ∈ s.pending ∨ Handler.sees q s.handler
  log : s.sent q = s.printed q ++ (s.wq q).msgs.map Prod.fst

/-- Until all queues are registered the workers have nothing to do. -/
structure Early (n : Nat) (s : State τ ρ) : Prop where
  tq : s.tq.msgs = []
  workers : ∀ i < n, s.worker i = .receive 0
  wq : ∀ i < n, (s.wq i).msgs = []

structure Queues (n : Nat) (s : State τ ρ) : Prop where
  queue : ∀ q < n, Wq s q
  pending : ∀ q ∈ s.pending, q < n
  handler : ∀ q, s.handler = some (.notify q) → q < n
  early : ∀ i, s.parent = .notify i → i < n ∧ Early n s
  alive : s.killed = false

theorem Wq.congr (h : Wq s q) (hwq : s'.wq q = s.wq q) (hpending : s'.pending = s.pending)
    (hhandler : s'.handler = s.handler) (hsent : s'.sent q = s.sent q)
    (hprinted : s'.printed q = s.printed q) (hbegun : s'.parent.begun q = s.parent.begun q) :
    Wq s' q := by
  obtain ⟨htoken, hseen, hlog⟩ := h
  unfold State.owed at htoken
  refine ⟨?_, ?_, ?_⟩
  · rw [State.owed, hwq, hpending, hhandler, hbegun]; exact htoken
  · rw [hwq, hpending, hhandler]; exact hseen
  · rw [hwq, hsent, hprinted]; exact hlog

/-! ## The parent -/

theorem sendLoop_cases (n i : Nat) :
    sendLoop n i = .send i ∧ i < taskTodo * n ∨ sendLoop n i = .wait ∧ taskTodo * n ≤ i := by
  unfold sendLoop
  split
  · exact .inl ⟨rfl, ‹_›⟩
  · exact .inr ⟨rfl, Nat.not_lt.mp ‹_›⟩

theorem notifyLoop_cases (n i : Nat) :
    notifyLoop n i = .notify i ∧ i < n ∨ notifyLoop n i = sendLoop n 0 ∧ n ≤ i := by
  unfold notifyLoop
  split
  · exact .inl ⟨rfl, ‹_›⟩
  · exact .inr ⟨rfl, Nat.not_lt.mp ‹_›⟩

theorem sendLoop_begun (n i q : Nat) : (sendLoop n i).begun q = true := by
  rcases sendLoop_cases n i with ⟨h, -⟩ | ⟨h, -⟩
  · rw [h]; rfl
  · rw [h]; rfl

/-- The loops of the parent lead to its sends, its registrations and `wait`, and nowhere else. -/
theorem sendLoop_ne {p : Parent} (hsend : ∀ i, p ≠ .send i) (hwait : p ≠ .wait) (n i : Nat) :
    sendLoop n i ≠ p := by
  rcases sendLoop_cases n i with ⟨h, -⟩ | ⟨h, -⟩
  · rw [h]; exact (hsend i).symm
  · rw [h]; exact hwait.symm

theorem notifyLoop_ne {p : Parent} (hnotify : ∀ i, p ≠ .notify i) (hsend : ∀ i, p ≠ .send i)
    (hwait : p ≠ .wait) (n i : Nat) : notifyLoop n i ≠ p := by
  rcases notifyLoop_cases n i with ⟨h, -⟩ | ⟨h, -⟩
  · rw [h]; exact (hnotify i).symm
  · rw [h]; exact sendLoop_ne hsend hwait n 0

theorem sendLoop_notify (n i l : Nat) : sendLoop n i ≠ .notify l :=
  sendLoop_ne (by nofun) (by nofun) n i

theorem notifyLoop_begun (hq : q < n) (i : Nat) : (notifyLoop n i).begun q = decide (q < i) := by
  rcases notifyLoop_cases n i with ⟨h, -⟩ | ⟨h, hle⟩
  · rw [h]; rfl
  · rw [h, sendLoop_begun]
    exact (decide_eq_true (by omega)).symm

theorem Queues.parent_moved (h : Queues n s) (hwq : s'.wq = s.wq)
    (hpending : s'.pending = s.pending) (hhandler : s'.handler = s.handler) (hsent : s'.sent = s.sent)
    (hprinted : s'.printed = s.printed) (hkilled : s'.killed = s.killed)
    (hbegun : ∀ q, s'.parent.begun q = s.parent.begun q) (hnotify : ∀ i, s'.parent ≠ .notify i) :
    Queues n s' :=
  ⟨fun q hq => (h.queue q hq).congr (by rw [hwq]) hpending hhandler (by rw [hsent])
      (by rw [hprinted]) (hbegun q),
    hpending ▸ h.pending, hhandler ▸ h.handler, fun i hi => absurd hi (hnotify i),
    hkilled.trans h.alive⟩

theorem registered_msgs (wq : Nat → Mqueue ρ) (i l : Nat) :
    (Function.update wq i ⟨(wq i).msgs, true⟩ l).msgs = (wq l).msgs := by
  by_cases hl : l = i
  · rw [hl, Function.update_self]
  · rw [Function.update_of_ne hl]

theorem Queues.register (h : Queues n s) (hparent : s.parent = .notify i) {q' : Mqueue ρ}
    (hnotify : (s.wq i).notify = some q') :
    Queues n { s.setWq i q' with parent := notifyLoop n (i + 1) } := by
  obtain ⟨hi, hearly⟩ := h.early i hparent
  obtain ⟨hreg, rfl⟩ := Mqueue.notify_some.mp hnotify
  have hmsgs := registered_msgs s.wq i
  refine ⟨fun q hq => ?_, h.pending, h.handler, fun l hl => ?_, h.alive⟩
  · obtain ⟨htoken, hseen, hlog⟩ := h.queue q hq
    refine ⟨?_, ?_, ?_⟩
    · show (Function.update s.wq i _ q).registered.toNat + s.owed q =
        ((notifyLoop n (i + 1)).begun q).toNat
      rw [hparent] at htoken
      rw [notifyLoop_begun hq]
      by_cases hqi : q = i
      · subst hqi
        rw [hreg] at htoken
        have hnone : 0 + s.owed q = (decide (q < q)).toNat := htoken
        rw [decide_eq_false (Nat.lt_irrefl q)] at hnone
        rw [Function.update_self, decide_eq_true (Nat.lt_succ_self q)]
        show 1 + s.owed q = 1
        have hzero : 0 + s.owed q = 0 := hnone
        omega
      · rw [Function.update_of_ne hqi, htoken]
        have hsame : decide (q < i) = decide (q < i + 1) := by
          rw [decide_eq_decide]
          omega
        show (decide (q < i)).toNat = _
        rw [hsame]
    · show (Function.update s.wq i _ q).msgs ≠ [] → _
      rw [hmsgs]
      exact hseen
    · show s.sent q = s.printed q ++ (Function.update s.wq i _ q).msgs.map Prod.fst
      rw [hmsgs]
      exact hlog
  · rcases notifyLoop_cases n (i + 1) with ⟨hloop, hlt⟩ | ⟨hloop, -⟩
    · obtain rfl : i + 1 = l := Parent.notify.inj (hloop.symm.trans hl)
      refine ⟨hlt, hearly.tq, hearly.workers, fun j hj => ?_⟩
      show (Function.update s.wq i _ j).msgs = []
      rw [hmsgs]
      exact hearly.wq j hj
    · exact absurd (hloop.symm.trans hl) (sendLoop_notify n 0 l)

theorem Queues.parent_step (h : Queues n s) (hstep : s.parentWork n T1 T2 rand = some s') :
    Queues n s' := by
  unfold State.parentWork at hstep
  split at hstep
  · rename_i i hparent
    obtain ⟨hi, -⟩ := h.early i hparent
    obtain ⟨htoken, -⟩ := h.queue i hi
    rw [hparent] at htoken
    have hnone : (s.wq i).registered.toNat + s.owed i = (decide (i < i)).toNat := htoken
    rw [decide_eq_false (Nat.lt_irrefl i), Bool.toNat_false] at hnone
    have hnotify := Mqueue.notify_ok (q := s.wq i) (by omega)
    rw [hnotify] at hstep
    cases hstep
    exact h.register hparent hnotify
  · rename_i i hparent
    split at hstep
    · cases hstep
      exact h.parent_moved rfl rfl rfl rfl rfl rfl (fun q => by rw [hparent]; rfl) nofun
    · cases hstep
      exact h.parent_moved rfl rfl rfl rfl rfl rfl
        (fun q => by rw [hparent, sendLoop_begun]; rfl) (sendLoop_notify n _)
  · rename_i hparent
    split at hstep
    · cases hstep
      exact h.parent_moved rfl rfl rfl rfl rfl rfl (fun q => by rw [hparent]; rfl) nofun
    · cases hstep
  · cases hstep
  · cases hstep
  · cases hstep

theorem Queues.send_step (h : Queues n s) {t : τ} (hstep : s.timedsend t = some s') :
    Queues n s' := by
  unfold State.timedsend at hstep
  split at hstep
  · rename_i i hparent
    split at hstep
    · cases hstep
      exact h.parent_moved rfl rfl rfl rfl rfl rfl (fun q => by rw [hparent]; rfl) nofun
    · cases hstep
  · cases hstep

theorem Queues.fail_step (h : Queues n s) (hstep : s.timedout = some s') : Queues n s' := by
  unfold State.timedout at hstep
  split at hstep
  · rename_i i hparent
    cases hstep
    exact h.parent_moved rfl rfl rfl rfl rfl rfl (fun q => by rw [hparent]; rfl) nofun
  · cases hstep

/-! ## The handler -/

theorem Early.congr (h : Early n s) (htq : s'.tq = s.tq) (hworker : s'.worker = s.worker)
    (hwq : ∀ i, (s'.wq i).msgs = (s.wq i).msgs) : Early n s' :=
  ⟨htq ▸ h.tq, hworker ▸ h.workers, fun i hi => (hwq i).trans (h.wq i hi)⟩

theorem Queues.signal_step (h : Queues n s) (hstep : s.signal = some s') : Queues n s' := by
  unfold State.signal at hstep
  split at hstep
  · rename_i i rest hhandler hpending
    cases hstep
    have hi : i < n := h.pending i (by rw [hpending]; exact List.mem_cons_self)
    refine ⟨fun q hq => ?_, fun q hq => ?_, fun q hq => ?_, fun j hj => ?_, h.alive⟩
    · obtain ⟨htoken, hseen, hlog⟩ := h.queue q hq
      refine ⟨?_, fun _ => .inr trivial, hlog⟩
      unfold State.owed at htoken ⊢
      rw [hpending, hhandler, List.count_cons] at htoken
      dsimp only
      unfold Handler.owes at htoken ⊢
      simp only [beq_iff_eq, Nat.add_zero] at htoken
      exact htoken
    · exact h.pending q (by rw [hpending]; exact List.mem_cons_of_mem i hq)
    · cases hq
      exact hi
    · obtain ⟨hj', hearly⟩ := h.early j hj
      exact ⟨hj', hearly.congr rfl rfl fun _ => rfl⟩
  · cases hstep

/-- The handler registers queue `i` again, which nobody has done. -/
theorem Queues.again (h : Queues n s) (hhandler : s.handler = some (.notify i)) :
    (s.wq i).registered = false ∧ Queues n
      { s.setWq i ⟨(s.wq i).msgs, true⟩ with handler := some (.drain 0) } := by
  have hi := h.handler i hhandler
  have howes : Handler.owes i s.handler = 1 := by
    rw [hhandler]
    exact if_pos rfl
  have hfree : (s.wq i).registered = false := by
    have htoken := (h.queue i hi).token
    have hle := (s.parent.begun i).toNat_le
    unfold State.owed at htoken
    rw [howes] at htoken
    cases hreg : (s.wq i).registered with
    | false => rfl
    | true => rw [hreg, Bool.toNat_true] at htoken; omega
  have hmsgs := registered_msgs s.wq i
  refine ⟨hfree, fun q hq => ?_, h.pending, nofun, fun l hl => ?_, h.alive⟩
  · obtain ⟨htoken, hseen, hlog⟩ := h.queue q hq
    unfold State.owed at htoken
    refine ⟨?_, fun _ => .inr (Nat.zero_le q), ?_⟩
    · show (Function.update s.wq i _ q).registered.toNat + (s.pending.count q + 0) = _
      by_cases hqi : q = i
      · subst hqi
        rw [howes, hfree] at htoken
        rw [Function.update_self]
        show 1 + (s.pending.count q + 0) = (s.parent.begun q).toNat
        have hone : 0 + (s.pending.count q + 1) = (s.parent.begun q).toNat := htoken
        omega
      · have hother : Handler.owes q s.handler = 0 := by
          rw [hhandler]
          exact if_neg (Ne.symm hqi)
        rw [hother] at htoken
        rw [Function.update_of_ne hqi]
        exact htoken
    · show s.sent q = s.printed q ++ (Function.update s.wq i _ q).msgs.map Prod.fst
      rw [hmsgs]
      exact hlog
  · obtain ⟨hl', hearly⟩ := h.early l hl
    exact ⟨hl', hearly.congr rfl rfl hmsgs⟩

theorem Queues.emptied (h : Queues n s) (hhandler : s.handler = some (.drain i))
    (hempty : (s.wq i).msgs = []) : Queues n { s with handler := some (.drain (i + 1)) } := by
  refine ⟨fun q hq => ?_, h.pending, nofun, fun l hl => ?_, h.alive⟩
  · obtain ⟨htoken, hseen, hlog⟩ := h.queue q hq
    unfold State.owed at htoken
    rw [hhandler] at htoken hseen
    refine ⟨htoken, fun hne => (hseen hne).imp id fun hsees => ?_, hlog⟩
    have hle : i ≤ q := hsees
    have hne' : i ≠ q := fun hiq => hne (hiq ▸ hempty)
    show i + 1 ≤ q
    omega
  · obtain ⟨hl', hearly⟩ := h.early l hl
    exact ⟨hl', hearly.congr rfl rfl fun _ => rfl⟩

theorem Queues.print (h : Queues n s) {res : ρ} {prio : Nat} {q' : Mqueue ρ}
    (hi : i < n) (hhandler : s.handler = some (.drain i))
    (hreceive : (s.wq i).receive = some ((res, prio), q')) : Queues n { s.setWq i q' with
      printed := Function.update s.printed i (s.printed i ++ [res]) } := by
  obtain ⟨hmsgs, hreg⟩ := Mqueue.receive_some.mp hreceive
  refine ⟨fun q hq => ?_, h.pending, h.handler, fun l hl => ?_, h.alive⟩
  · have hw := h.queue q hq
    by_cases hqi : q = i
    · subst hqi
      obtain ⟨htoken, hseen, hlog⟩ := hw
      rw [hhandler] at hseen
      refine ⟨?_, fun _ => .inr ?_, ?_⟩
      · show (Function.update s.wq q q' q).registered.toNat + s.owed q = _
        rw [Function.update_self, hreg]
        exact htoken
      · show Handler.sees q s.handler
        rw [hhandler]
        exact Nat.le_refl q
      · show s.sent q =
          Function.update s.printed q _ q ++ (Function.update s.wq q q' q).msgs.map Prod.fst
        rw [Function.update_self, Function.update_self, hlog, hmsgs, List.append_assoc]
        rfl
    · exact hw.congr (Function.update_of_ne hqi ..) rfl rfl rfl (Function.update_of_ne hqi ..) rfl
  · have hempty := (h.early l hl).2.wq i hi
    rw [hmsgs] at hempty
    cases hempty

theorem Queues.handler_step (hn : n ≤ maxWorkers) (h : Queues n s)
    (hstep : s.mqHandler n = some s') : Queues n s' := by
  unfold State.mqHandler at hstep
  split at hstep
  · cases hstep
  · rename_i i hhandler
    obtain ⟨hfree, hagain⟩ := h.again hhandler
    rw [Mqueue.notify_some.mpr ⟨hfree, rfl⟩] at hstep
    cases hstep
    exact hagain
  · rename_i i hhandler
    split at hstep
    · split at hstep
      · rename_i hreceive
        cases hstep
        exact h.emptied hhandler (Mqueue.receive_none.mp hreceive)
      · rename_i res prio q' hreceive
        cases hstep
        exact h.print (by omega) hhandler hreceive
    · rename_i hlast
      cases hstep
      refine ⟨fun q hq => ?_, h.pending, nofun, fun l hl => ?_, h.alive⟩
      · obtain ⟨htoken, hseen, hlog⟩ := h.queue q hq
        unfold State.owed at htoken
        rw [hhandler] at htoken hseen
        refine ⟨htoken, fun hne => .inl ((hseen hne).resolve_right fun hsees => ?_), hlog⟩
        have hle : i ≤ q := hsees
        omega
      · obtain ⟨hl', hearly⟩ := h.early l hl
        exact ⟨hl', hearly.congr rfl rfl fun _ => rfl⟩

/-! ## The workers -/

/-- A queue that is not registered has its signal pending, or the handler is about to register
it. -/
theorem Wq.free (h : Wq s i) (hbegun : s.parent.begun i = true)
    (hfree : (s.wq i).registered = false) : i ∈ s.pending ∨ Handler.sees i s.handler := by
  have htoken := h.token
  rw [hfree, hbegun] at htoken
  have howed : 0 + (s.pending.count i + Handler.owes i s.handler) = 1 := htoken
  by_cases hmem : i ∈ s.pending
  · exact .inl hmem
  · right
    rw [List.count_eq_zero_of_not_mem hmem] at howed
    generalize s.handler = handler at howed
    match handler with
    | some (.notify l) => trivial
    | some (.drain l) => cases howed
    | none => cases howed

/-- The signals that are pending, when worker `i` has sent a result. -/
theorem pending_count (q : Nat) :
    (if (s.wq i).fires false then s.pending ++ [i] else s.pending).count q =
      s.pending.count q + if i = q then ((s.wq i).fires false).toNat else 0 := by
  cases (s.wq i).fires false with
  | true => rw [if_pos rfl, List.count_append, List.count_singleton]; simp
  | false => simp

theorem pending_mem (hq : q ∈ s.pending) :
    q ∈ if (s.wq i).fires false then s.pending ++ [i] else s.pending := by
  split
  · exact List.mem_append_left _ hq
  · exact hq

/-- A message arrives. It is notified, or the queue is not empty, or not registered. -/
theorem Wq.arrival_seen (h : Wq s i) (hbegun : s.parent.begun i = true) :
    i ∈ (if (s.wq i).fires false then s.pending ++ [i] else s.pending) ∨
      Handler.sees i s.handler := by
  cases hfires : (s.wq i).fires false with
  | true =>
    rw [if_pos rfl]
    exact .inl (List.mem_append_right _ (List.mem_singleton_self i))
  | false =>
    rw [if_neg nofun]
    by_cases hempty : (s.wq i).msgs = []
    · refine h.free hbegun (Bool.eq_false_iff.mpr fun hreg => ?_)
      rw [Mqueue.fires_iff.mpr ⟨hreg, hempty, rfl⟩] at hfires
      cases hfires
    · exact h.seen hempty

theorem Queues.sent (h : Queues n s) (hi : i < n) {k : Nat} {t : τ}
    (hworker : s.worker i = .send k t) : Queues n
    { (s.setWorker i (workLoop (k + 1))).setWq i ((s.wq i).send (add t, 0) false) with
      pending := if (s.wq i).fires false then s.pending ++ [i] else s.pending
      sent := Function.update s.sent i (s.sent i ++ [add t]) } := by
  have hbegun : s.parent.begun i = true := by
    cases hparent : s.parent with
    | notify l =>
      have hwaits := (h.early l hparent).2.workers i hi
      rw [hworker] at hwaits
      cases hwaits
    | _ => rfl
  refine ⟨fun q hq => ?_, fun q hq => ?_, h.handler, fun l hl => ?_, h.alive⟩
  · obtain ⟨htoken, hseen, hlog⟩ := h.queue q hq
    unfold State.owed at htoken
    by_cases hqi : q = i
    · subst hqi
      have hsend := Mqueue.send_token (s.wq q) (add t, 0) false (s.owed q)
      refine ⟨?_, fun _ => (h.queue q hq).arrival_seen hbegun, ?_⟩
      · show (Function.update s.wq q _ q).registered.toNat +
          (List.count q _ + Handler.owes q s.handler) = (s.parent.begun q).toNat
        rw [Function.update_self, pending_count, if_pos rfl]
        unfold State.owed at hsend
        omega
      · show Function.update s.sent q _ q =
          s.printed q ++ (Function.update s.wq q _ q).msgs.map Prod.fst
        rw [Function.update_self, Function.update_self, Mqueue.send_msgs,
          Mqueue.insert_last fun m' _ => Nat.zero_le _, List.map_append, hlog, List.append_assoc]
        rfl
    · refine ⟨?_, ?_, ?_⟩
      · show (Function.update s.wq i _ q).registered.toNat +
          (List.count q _ + Handler.owes q s.handler) = (s.parent.begun q).toNat
        rw [Function.update_of_ne hqi, pending_count, if_neg (Ne.symm hqi)]
        exact htoken
      · show (Function.update s.wq i _ q).msgs ≠ [] → _
        rw [Function.update_of_ne hqi]
        exact fun hne => (hseen hne).imp pending_mem id
      · show Function.update s.sent i _ q =
          s.printed q ++ (Function.update s.wq i _ q).msgs.map Prod.fst
        rw [Function.update_of_ne hqi, Function.update_of_ne hqi]
        exact hlog
  · dsimp only at hq
    split at hq
    · rcases List.mem_append.mp hq with hq | hq
      · exact h.pending q hq
      · exact List.mem_singleton.mp hq ▸ hi
    · exact h.pending q hq
  · have hwaits := (h.early l hl).2.workers i hi
    rw [hworker] at hwaits
    cases hwaits

theorem Queues.worker_step (h : Queues n s) (hi : i < n) (hstep : s.childWork add i = some s') :
    Queues n s' := by
  unfold State.childWork at hstep
  split at hstep
  · rename_i k hworker
    split at hstep
    · cases hstep
    · rename_i t prio tq hreceive
      cases hstep
      have hlate : ∀ l, s.parent ≠ .notify l := fun l hl => by
        have hempty := (h.early l hl).2.tq
        rw [(Mqueue.receive_some.mp hreceive).1] at hempty
        cases hempty
      exact h.parent_moved rfl rfl rfl rfl rfl rfl (fun _ => rfl) hlate
  · rename_i k t hworker
    split at hstep
    · cases hstep
      exact h.sent hi hworker
    · cases hstep
  · cases hstep

/-! ## Every run -/

theorem begun_queues (n : Nat) : Queues n (begun n : State τ ρ) := by
  refine ⟨fun q hq => ⟨?_, fun hne => absurd rfl hne, rfl⟩, nofun, nofun, fun i hi => ?_, rfl⟩
  · show 0 + 0 = ((notifyLoop n 0).begun q).toNat
    rw [notifyLoop_begun hq]
    rfl
  · rcases notifyLoop_cases n 0 with ⟨hloop, hlt⟩ | ⟨hloop, -⟩
    · obtain rfl : 0 = i := Parent.notify.inj (hloop.symm.trans hi)
      exact ⟨hlt, rfl, fun _ _ => rfl, fun _ _ => rfl⟩
    · exact absurd (hloop.symm.trans hi) (sendLoop_notify n 0 i)

/-- A step is one of the parent, of its sends, of the handler or of a worker. -/
theorem next_cases (h : (farms n T1 T2 add).next s act = some s') :
    (∃ rand, s.parentWork n T1 T2 rand = some s') ∨ (∃ t, s.timedsend t = some s') ∨
      s.timedout = some s' ∨ s.signal = some s' ∨ s.mqHandler n = some s' ∨
      ∃ i < n, s.childWork add i = some s' := by
  unfold farms State.next at h
  dsimp only at h
  split at h
  · cases act with
    | parent rand => exact .inl ⟨rand, (Option.ite_none_right_eq_some.mp h).2⟩
    | send t => exact .inr (.inl ⟨t, (Option.ite_none_right_eq_some.mp h).2⟩)
    | fail => exact .inr (.inr (.inl (Option.ite_none_right_eq_some.mp h).2))
    | signal => exact .inr (.inr (.inr (.inl h)))
    | handler => exact .inr (.inr (.inr (.inr (.inl h))))
    | worker i =>
      obtain ⟨hi, hwork⟩ := Option.ite_none_right_eq_some.mp h
      exact .inr (.inr (.inr (.inr (.inr ⟨i, hi, hwork⟩))))
  · cases h

theorem queues_reach (hn : n ≤ maxWorkers) (h : (farms n T1 T2 add).Reach s) : Queues n s := by
  refine h.inv (I := Queues n) (fun s hs => ?_) ?_
  · obtain rfl : s = begun n := hs
    exact begun_queues n
  · intro s act s' _ hq hstep
    rcases next_cases hstep with ⟨rand, h⟩ | ⟨t, h⟩ | h | h | h | ⟨i, hi, h⟩
    · exact hq.parent_step h
    · exact hq.send_step h
    · exact hq.fail_step h
    · exact hq.signal_step h
    · exact hq.handler_step hn h
    · exact hq.worker_step hi h

end Ops.Farm
