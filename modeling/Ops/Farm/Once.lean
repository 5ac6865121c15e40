import Mathlib.Algebra.Order.BigOperators.Group.Finset
import Ops.Farm.Tasks

/-!
# Every task is done once

When all workers have ended, they have received `5 * n` tasks, so nothing is left in the queue.
Before that a worker waits only for a task that is still to be queued, and the parent only for
a worker. The pause between two sends is undefined when the range of the pauses is empty, which
`main` accepts (`tasks_once_iff`).
-/

namespace Ops.Farm

open Posix

variable {τ ρ : Type} {n T1 T2 rand i : Nat} {add : τ → ρ} {s s' : State τ ρ} {act : Act τ}

/-- A step that is not a send that fails. -/
def Act.productive : Act τ → Bool
  | .fail => false
  | _ => true

/-- `once`: the task `k` of all that were queued goes to the worker that `received` names at `k`, and
to no other one. `results`: a worker that has ended has sent the results of its five tasks.
`progress`: until all have ended somebody can go on, and not only with a send that fails;
`bounded`: nobody goes on forever without such sends. -/
structure TasksOnce (n T1 T2 : Nat) (add : τ → ρ) (s : State τ ρ) : Prop where
  defined : s.parent ≠ .undefined
  total : s.queued.length ≤ taskTodo * n ∧
    (s.parent = .wait ∨ s.parent = .done → s.queued.length = taskTodo * n)
  once : s.queued = s.received.map Prod.snd ++ s.tq.msgs.map Prod.fst
  results : ∀ i < n, (s.worker i).ended = true →
    (s.sent i).length = taskTodo ∧ s.sent i = (s.receivedBy i).map add
  progress : (s.parent = .done ∧ ∀ i < n, (s.worker i).ended = true) ∨
    ∃ act t, act.productive = true ∧ (farms n T1 T2 add).next s act = some t
  bounded : ∃ b, ∀ as t,
    (farms n T1 T2 add).execIf (fun _ act => act.productive = true) s as = some t → as.length ≤ b
  empty : (∀ i < n, (s.worker i).ended = true) → s.tq.msgs = []

/-! ## Who goes on -/

theorem taken_le {w : Worker τ} (h : w.loops) : w.taken ≤ taskTodo := by
  cases w with
  | receive k => exact Nat.le_of_lt h
  | send k t => exact h
  | exited => exact Nat.le_refl _

theorem ended_exited {w : Worker τ} (h : w.ended = true) : w = .exited := by
  cases w with
  | exited => rfl
  | _ => cases h

theorem Tasks.all_taken (h : Tasks n add s) (hended : ∀ i < n, (s.worker i).ended = true) :
    s.received.length = taskTodo * n := by
  have hall : ∀ i ∈ Finset.range n, (s.worker i).taken = taskTodo := fun i hi => by
    rw [ended_exited (hended i (Finset.mem_range.mp hi))]
    rfl
  rw [h.taken, Finset.sum_congr rfl hall, Finset.sum_const, Finset.card_range, Nat.nsmul_eq_mul,
    Nat.mul_comm]

/-- A worker that is still to receive a task has taken fewer. -/
theorem Tasks.more_to_take (h : Tasks n add s) (hi : i < n) {k : Nat}
    (hworker : s.worker i = .receive k) : s.received.length < taskTodo * n := by
  have hlt : ∑ l ∈ Finset.range n, (s.worker l).taken < ∑ l ∈ Finset.range n, taskTodo := by
    refine Finset.sum_lt_sum (fun l hl => taken_le (h.loops l (Finset.mem_range.mp hl)))
      ⟨i, Finset.mem_range.mpr hi, ?_⟩
    have hk := h.loops i hi
    rw [hworker] at hk ⊢
    exact hk
  rw [Finset.sum_const, Finset.card_range, Nat.nsmul_eq_mul, Nat.mul_comm] at hlt
  rw [h.taken]
  exact hlt

theorem Tasks.balance (h : Tasks n add s) :
    s.queued.length = s.received.length + s.tq.msgs.length := by
  rw [h.once, List.length_append, List.length_map, List.length_map]

theorem worker_goes (h : Tasks n add s) (hqueues : Queues n s) (hi : i < n)
    (hended : (s.worker i).ended = false) (htq : ∀ k, s.worker i = .receive k → s.tq.msgs ≠ []) :
    ∃ s', s.childWork add i = some s' := by
  unfold State.childWork
  cases hworker : s.worker i with
  | receive k =>
    cases hreceive : s.tq.receive with
    | none => exact absurd (Mqueue.receive_none.mp hreceive) (htq k hworker)
    | some m => exact ⟨_, rfl⟩
  | send k t =>
    have hroom : (s.wq i).msgs.length < maxMsgs := by
      have hsent := h.sent i hi
      have hk := h.loops i hi
      rw [hworker] at hsent hk
      have hlog := congrArg List.length (hqueues.queue i hi).log
      rw [List.length_append, List.length_map, hsent] at hlog
      have hlt : k < 5 := hk
      have hsum : k = (s.printed i).length + (s.wq i).msgs.length := hlog
      unfold maxMsgs
      omega
    simp only [if_pos hroom]
    exact ⟨_, rfl⟩
  | exited => rw [hworker] at hended; cases hended


theorem Place.le {p : Parent} {k : Nat} (h : Place n p k) : k ≤ taskTodo * n := by
  cases h with
  | notify i => exact Nat.zero_le _
  | send i hi => exact Nat.le_of_lt hi
  | pause i hi => exact hi
  | wait => exact Nat.le_refl _
  | done => exact Nat.le_refl _
  | undefined k hk => exact hk

theorem Tasks.all_sent (h : Tasks n add s) (hparent : s.parent = .wait ∨ s.parent = .done) :
    s.queued.length = taskTodo * n := by
  have hplace := h.place
  generalize hk : s.queued.length = k at hplace
  rcases hparent with hparent | hparent
  · rw [hparent] at hplace
    cases hplace
    rfl
  · rw [hparent] at hplace
    cases hplace
    rfl

theorem Tasks.emptied (h : Tasks n add s) (hended : ∀ i < n, (s.worker i).ended = true) :
    s.tq.msgs = [] := by
  have hall := h.all_taken hended
  have hle := h.place.le
  have hbalance := h.balance
  exact List.length_eq_zero_iff.mp (by omega)

/-- Some worker goes on, when the queue is full or all tasks are sent. -/
theorem some_worker_goes (h : Tasks n add s) (hqueues : Queues n s)
    (htq : maxMsgs ≤ s.tq.msgs.length ∨ s.queued.length = taskTodo * n)
    (hmore : ¬ ∀ i < n, (s.worker i).ended = true) :
    ∃ i < n, ∃ s', s.childWork add i = some s' := by
  obtain ⟨i, hi, hended⟩ : ∃ i < n, (s.worker i).ended = false := by
    simpa using hmore
  refine ⟨i, hi, worker_goes h hqueues hi hended fun k hworker hempty => ?_⟩
  have hlt := h.more_to_take hi hworker
  have hbalance := h.balance
  rw [hempty, List.length_nil] at hbalance htq
  rcases htq with hfull | hall
  · exact absurd hfull (by decide)
  · omega

theorem handler_goes (hhandler : s.handler ≠ none) :
    ∃ s', s.mqHandler n = some s' := by
  unfold State.mqHandler
  split
  · rename_i hnone
    exact absurd hnone hhandler
  · split
    · exact ⟨_, rfl⟩
    · exact ⟨_, rfl⟩
  · split
    · split
      · exact ⟨_, rfl⟩
      · exact ⟨_, rfl⟩
    · exact ⟨_, rfl⟩

theorem parent_goes (hrange : T1 < T2) (hparent : (∃ i, s.parent = .notify i) ∨
    (∃ i, s.parent = .pause i) ∨ s.parent = .wait ∧ ∀ i < n, (s.worker i).ended = true) :
    ∃ s', s.parentWork n T1 T2 0 = some s' := by
  unfold State.parentWork
  rcases hparent with ⟨i, hparent⟩ | ⟨i, hparent⟩ | ⟨hparent, hended⟩
  · rw [hparent]
    dsimp only
    split
    · exact ⟨_, rfl⟩
    · exact ⟨_, rfl⟩
  · obtain ⟨m, hm⟩ := millis_some hrange 0
    rw [hparent]
    dsimp only
    rw [hm]
    exact ⟨_, rfl⟩
  · rw [hparent]
    exact ⟨_, if_pos hended⟩

theorem send_goes (hparent : s.parent = .send i) (hroom : s.tq.msgs.length < maxMsgs) (t : τ) :
    ∃ s', s.timedsend t = some s' := by
  unfold State.timedsend
  rw [hparent]
  exact ⟨_, if_pos hroom⟩

theorem Tasks.goes [Inhabited τ] (hrange : T1 < T2) (h : Tasks n add s) (hqueues : Queues n s)
    (hdefined : s.parent ≠ .undefined)
    (hmore : ¬ (s.parent = .done ∧ ∀ i < n, (s.worker i).ended = true)) :
    ∃ act t, act.productive = true ∧ (farms n T1 T2 add).next s act = some t := by
  have hruns : s.runs = true := by simp [State.runs, hqueues.alive, hdefined]
  by_cases hhandler : s.handler = none
  · have hparent : (∃ s', s.parentWork n T1 T2 0 = some s') →
        ∃ act t, Act.productive act = true ∧ (farms n T1 T2 add).next s act = some t :=
      fun ⟨s', hs'⟩ => ⟨.parent 0, s', rfl, by simp [farms, State.next, hruns, hhandler, hs']⟩
    have hworker : (∃ i < n, ∃ s', s.childWork add i = some s') →
        ∃ act t, Act.productive act = true ∧ (farms n T1 T2 add).next s act = some t :=
      fun ⟨i, hi, s', hs'⟩ => ⟨.worker i, s', rfl, by simp [farms, State.next, hruns, hi, hs']⟩
    cases hp : s.parent with
    | notify i => exact hparent (parent_goes hrange (.inl ⟨i, hp⟩))
    | send i =>
      by_cases hroom : s.tq.msgs.length < maxMsgs
      · obtain ⟨s', hs'⟩ := send_goes hp hroom default
        exact ⟨.send default, s', rfl, by simp [farms, State.next, hruns, hhandler, hs']⟩
      · refine hworker (some_worker_goes h hqueues (.inl (Nat.not_lt.mp hroom)) fun hended => ?_)
        rw [h.emptied hended] at hroom
        exact hroom (Nat.succ_pos 9)
    | pause i => exact hparent (parent_goes hrange (.inr (.inl ⟨i, hp⟩)))
    | wait =>
      by_cases hended : ∀ i < n, (s.worker i).ended = true
      · exact hparent (parent_goes hrange (.inr (.inr ⟨hp, hended⟩)))
      · exact hworker (some_worker_goes h hqueues (.inr (h.all_sent (.inl hp))) hended)
    | done => exact absurd ⟨hp, h.finished hp⟩ hmore
    | undefined => exact absurd hp hdefined
  · obtain ⟨s', hs'⟩ := handler_goes (n := n) hhandler
    exact ⟨.handler, s', rfl, by simp [farms, State.next, hruns, hs']⟩

/-! ## How long they go on -/

/-- The steps that are still to come, in the weights of their kinds. -/
def Parent.weight (n : Nat) : Parent → Nat
  | .notify i => (n - i) + 2 * (taskTodo * n) + 3
  | .pause i => 2 * (taskTodo * n - i) + 3
  | .send i => 2 * (taskTodo * n - i) + 2
  | .wait => 1
  | .done | .undefined => 0

def Handler.weight : Option Handler → Nat
  | some (.notify _) => maxWorkers + 2
  | some (.drain i) => maxWorkers - i + 1
  | none => 0

def Worker.weight : Worker τ → Nat
  | .receive i => (taskTodo - i) * (maxWorkers + 6)
  | .send i _ => (taskTodo - i) * (maxWorkers + 6) - 1
  | .exited => 0

theorem workLoop_weight (k : Nat) :
    (workLoop (k + 1) : Worker τ).weight ≤ (taskTodo - (k + 1)) * (maxWorkers + 6) := by
  rcases workLoop_cases (τ := τ) (k + 1) with ⟨h, -⟩ | ⟨h, -⟩
  · rw [h]; exact Nat.le_refl _
  · rw [h]; exact Nat.zero_le _

/-- The results of a queue are still to be printed. -/
def State.toDo (s : State τ ρ) (i : Nat) : Nat := (s.wq i).msgs.length + (s.worker i).weight

open Finset in
def State.weight (n : Nat) (s : State τ ρ) : Nat :=
  s.parent.weight n + (maxWorkers + 3) * s.pending.length + Handler.weight s.handler +
    ∑ i ∈ range n, s.toDo i

theorem toDo_same {t : State τ ρ} (hwq : ∀ i, (t.wq i).msgs = (s.wq i).msgs)
    (hworker : t.worker = s.worker) :
    ∑ i ∈ Finset.range n, t.toDo i = ∑ i ∈ Finset.range n, s.toDo i :=
  Finset.sum_congr rfl fun i _ => by rw [State.toDo, hwq, hworker]; rfl

theorem toDo_change {t : State τ ρ} (hi : i < n) (hwq : ∀ l, l ≠ i → t.wq l = s.wq l)
    (hworker : ∀ l, l ≠ i → t.worker l = s.worker l) :
    ∑ l ∈ Finset.range n, t.toDo l + s.toDo i = ∑ l ∈ Finset.range n, s.toDo l + t.toDo i :=
  sum_change (Finset.mem_range.mpr hi) fun l hl => by
    rw [State.toDo, hwq l hl, hworker l hl]
    rfl

theorem sendLoop_weight (n i : Nat) :
    (sendLoop n i).weight n < 2 * (taskTodo * n - i) + 3 := by
  rcases sendLoop_cases n i with ⟨h, -⟩ | ⟨h, -⟩
  · rw [h]; exact Nat.lt_succ_self _
  · rw [h]; exact Nat.succ_lt_succ (by omega)

theorem notifyLoop_weight (n i : Nat) :
    (notifyLoop n (i + 1)).weight n < (Parent.notify i).weight n := by
  rcases notifyLoop_cases n (i + 1) with ⟨h, hlt⟩ | ⟨h, -⟩
  · rw [h]
    show n - (i + 1) + 2 * (taskTodo * n) + 3 < n - i + 2 * (taskTodo * n) + 3
    omega
  · rw [h]
    have hlt := sendLoop_weight n 0
    show _ < n - i + 2 * (taskTodo * n) + 3
    omega

theorem weight_lt {t : State τ ρ} (hparent : t.parent.weight n < s.parent.weight n)
    (hpending : t.pending = s.pending) (hhandler : t.handler = s.handler)
    (hwq : ∀ i, (t.wq i).msgs = (s.wq i).msgs) (hworker : t.worker = s.worker) :
    t.weight n < s.weight n := by
  unfold State.weight
  rw [toDo_same hwq hworker, hpending, hhandler]
  omega

theorem parent_lowers (halive : s'.killed = false)
    (hstep : s.parentWork n T1 T2 rand = some s') : s'.weight n < s.weight n := by
  unfold State.parentWork at hstep
  split at hstep
  · rename_i i hparent
    split at hstep
    · cases hstep
      cases halive
    · rename_i q hnotify
      cases hstep
      obtain ⟨-, rfl⟩ := Mqueue.notify_some.mp hnotify
      refine weight_lt ?_ rfl rfl (registered_msgs s.wq i) rfl
      rw [hparent]
      exact notifyLoop_weight n i
  · rename_i i hparent
    split at hstep
    · cases hstep
      exact weight_lt (by rw [hparent]; exact Nat.succ_pos _) rfl rfl (fun _ => rfl) rfl
    · cases hstep
      exact weight_lt (by rw [hparent]; exact sendLoop_weight n i) rfl rfl (fun _ => rfl) rfl
  · rename_i hparent
    split at hstep
    · cases hstep
      exact weight_lt (by rw [hparent]; exact Nat.succ_pos _) rfl rfl (fun _ => rfl) rfl
    · cases hstep
  · cases hstep
  · cases hstep
  · cases hstep

theorem send_lowers (h : Tasks n add s) {t : τ} (hstep : s.timedsend t = some s') :
    s'.weight n < s.weight n := by
  have hplace := h.place
  unfold State.timedsend at hstep
  split at hstep
  · rename_i i hparent
    rw [hparent] at hplace
    generalize hk : s.queued.length = k at hplace
    cases hplace with
    | send i hi =>
      split at hstep
      · cases hstep
        refine weight_lt ?_ rfl rfl (fun _ => rfl) rfl
        rw [hparent]
        show 2 * (taskTodo * n - (i + 1)) + 3 < 2 * (taskTodo * n - i) + 2
        omega
      · cases hstep
  · cases hstep

theorem signal_lowers (hstep : s.signal = some s') : s'.weight n < s.weight n := by
  unfold State.weight
  unfold State.signal at hstep
  split at hstep
  · rename_i i rest hhandler hpending
    cases hstep
    rw [hhandler, hpending, List.length_cons]
    refine Nat.add_lt_add_right ?_ _
    show s.parent.weight n + (maxWorkers + 3) * rest.length + (maxWorkers + 2) <
      s.parent.weight n + (maxWorkers + 3) * (rest.length + 1) + 0
    rw [Nat.mul_add]
    omega
  · cases hstep

theorem handler_lowers (halive : s'.killed = false) (hstep : s.mqHandler n = some s') :
    s'.weight n < s.weight n := by
  unfold State.weight
  unfold State.mqHandler at hstep
  split at hstep
  · cases hstep
  · rename_i i hhandler
    split at hstep
    · cases hstep
      cases halive
    · rename_i q hnotify
      cases hstep
      obtain ⟨-, rfl⟩ := Mqueue.notify_some.mp hnotify
      have hsame := toDo_same (n := n) (s := s) (t := { s.setWq i ⟨(s.wq i).msgs, true⟩ with
        handler := some (.drain 0) }) (registered_msgs s.wq i) rfl
      rw [hsame, hhandler]
      exact Nat.add_lt_add_right (Nat.add_lt_add_left (Nat.lt_succ_self _) _) _
  · rename_i i hhandler
    split at hstep
    · split at hstep
      · cases hstep
        rw [hhandler]
        refine Nat.add_lt_add_right (Nat.add_lt_add_left ?_ _) _
        show maxWorkers - (i + 1) + 1 < maxWorkers - i + 1
        omega
      · rename_i res prio q hreceive
        cases hstep
        obtain ⟨hmsgs, -⟩ := Mqueue.receive_some.mp hreceive
        have hchange := toDo_change (s := s) (t := { s.setWq i q with
          printed := Function.update s.printed i (s.printed i ++ [res]) }) (i := i) (n := n)
          (by omega) (fun l hl => Function.update_of_ne hl ..) fun _ _ => rfl
        refine Nat.add_lt_add_left ?_ _
        simp only [State.toDo, State.setWq, Function.update_self, hmsgs, List.length_cons]
          at hchange ⊢
        omega
    · cases hstep
      rw [hhandler]
      exact Nat.add_lt_add_right (Nat.add_lt_add_left (Nat.succ_pos _) _) _

theorem worker_lowers (h : Tasks n add s) (hi : i < n) (hstep : s.childWork add i = some s') :
    s'.weight n < s.weight n := by
  have hloops := h.loops i hi
  unfold State.weight
  unfold State.childWork at hstep
  split at hstep
  · rename_i k hworker
    rw [hworker] at hloops
    have hk : k < 5 := hloops
    split at hstep
    · cases hstep
    · rename_i t prio tq hreceive
      cases hstep
      have hchange := toDo_change (s := s) (t := { s.setWorker i (.send k t) with
        tq := tq, received := s.received ++ [(i, t)] }) (i := i) (n := n) hi (fun _ _ => rfl)
        fun l hl => Function.update_of_ne hl ..
      refine Nat.add_lt_add_left ?_ _
      simp only [State.toDo, State.setWorker, Function.update_self, hworker, Worker.weight,
        taskTodo, maxWorkers] at hchange ⊢
      omega
  · rename_i k t hworker
    rw [hworker] at hloops
    have hk : k < 5 := hloops
    split at hstep
    · cases hstep
      have hchange := toDo_change (s := s)
        (t := { (s.setWorker i (workLoop (k + 1))).setWq i ((s.wq i).send (add t, 0) false) with
          pending := if (s.wq i).fires false then s.pending ++ [i] else s.pending
          sent := Function.update s.sent i (s.sent i ++ [add t]) }) (i := i) (n := n) hi
        (fun l hl => Function.update_of_ne hl ..) fun l hl => Function.update_of_ne hl ..
      have hpending : (if (s.wq i).fires false then s.pending ++ [i] else s.pending).length ≤
          s.pending.length + 1 := by
        split
        · exact Nat.le_of_eq List.length_append
        · exact Nat.le_succ _
      have hloop := workLoop_weight (τ := τ) k
      simp only [State.toDo, State.setWorker, State.setWq, Function.update_self, hworker,
        Mqueue.send_msgs, Mqueue.insert_length, Worker.weight, taskTodo, maxWorkers]
        at hchange hloop ⊢
      omega
    · cases hstep
  · cases hstep

theorem next_lowers (h : Tasks n add s) (halive : s'.killed = false)
    (hact : act.productive = true) (hstep : (farms n T1 T2 add).next s act = some s') :
    s'.weight n < s.weight n := by
  unfold farms State.next at hstep
  dsimp only at hstep
  split at hstep
  · cases act with
    | parent rand => exact parent_lowers halive (Option.ite_none_right_eq_some.mp hstep).2
    | send t => exact send_lowers h (Option.ite_none_right_eq_some.mp hstep).2
    | fail => cases hact
    | signal => exact signal_lowers hstep
    | handler => exact handler_lowers halive hstep
    | worker i =>
      obtain ⟨hi, hwork⟩ := Option.ite_none_right_eq_some.mp hstep
      exact worker_lowers h hi hwork
  · cases hstep

theorem tasks_once [Inhabited τ] (hn : n ≤ maxWorkers) (hrange : T1 < T2)
    (h : (farms n T1 T2 add).Reach s) : TasksOnce n T1 T2 add s := by
  have htasks := tasks_reach h
  have hqueues := queues_reach hn h
  have hdefined := defined_reach hrange h
  refine ⟨hdefined, ⟨htasks.place.le, htasks.all_sent⟩, htasks.once, fun i hi hended => ?_, ?_, ?_,
    htasks.emptied⟩
  · have hresults := htasks.results i hi
    have hlength := htasks.sent i hi
    rw [ended_exited hended] at hresults hlength
    exact ⟨hlength, (hresults.trans (List.append_nil _)).symm⟩
  · by_cases hmore : s.parent = .done ∧ ∀ i < n, (s.worker i).ended = true
    · exact .inl hmore
    · exact .inr (htasks.goes hrange hqueues hdefined hmore)
  · refine ⟨s.weight n, fun as t hrun => ?_⟩
    have hlength := LTS.execIf_length (State.weight n) (I := (farms n T1 T2 add).Reach)
      (fun u a v hu hc hn' => ⟨hu.step hn',
        next_lowers (tasks_reach hu) (queues_reach hn (hu.step hn')).alive hc hn'⟩) h hrun
    exact Nat.le_trans (Nat.le_add_right _ _) hlength

/-! ## The range of the pauses -/

/-- Without a pause the parent registers the first `k` queues. -/
theorem register_all (hn : n ≤ maxWorkers) (T1 T2 : Nat) (add : τ → ρ) {k : Nat} (hk : k ≤ n) :
    ∃ s, (farms n T1 T2 add).Reach s ∧ s.parent = notifyLoop n k ∧ s.handler = none ∧
      s.tq.msgs = [] := by
  induction k with
  | zero => exact ⟨begun n, .init rfl, rfl, rfl, rfl⟩
  | succ k ih =>
    obtain ⟨s, hs, hparent, hhandler, htq⟩ := ih (Nat.le_of_succ_le hk)
    have hqueues := queues_reach hn hs
    rw [notifyLoop, if_pos (Nat.lt_of_succ_le hk)] at hparent
    have htoken := (hqueues.queue k hk).token
    rw [hparent] at htoken
    have hnone : (s.wq k).registered.toNat + s.owed k = (decide (k < k)).toNat := htoken
    rw [decide_eq_false (Nat.lt_irrefl k), Bool.toNat_false] at hnone
    have hnotify := Mqueue.notify_ok (q := s.wq k) (by omega)
    have hstep : (farms n T1 T2 add).next s (.parent 0) =
        some { s.setWq k ⟨(s.wq k).msgs, true⟩ with parent := notifyLoop n (k + 1) } := by
      simp [farms, State.next, State.runs, State.parentWork, hqueues.alive, hparent, hhandler,
        hnotify]
    exact ⟨_, hs.step hstep, rfl, hhandler, htq⟩

theorem undefined_reach (hpos : 0 < n) (hn : n ≤ maxWorkers) (hrange : ¬ T1 < T2) (add : τ → ρ)
    (t : τ) : ∃ s, (farms n T1 T2 add).Reach s ∧ s.parent = .undefined := by
  obtain ⟨s, hs, hparent, hhandler, htq⟩ := register_all hn T1 T2 add (Nat.le_refl n)
  have hqueues := queues_reach hn hs
  have hsend : s.parent = .send 0 := by
    rw [hparent, notifyLoop, if_neg (Nat.lt_irrefl n), sendLoop, if_pos (by unfold taskTodo; omega)]
  have hstep : (farms n T1 T2 add).next s (.send t) = some { s with
      tq := s.tq.send (t, 1) false, queued := s.queued ++ [t], parent := .pause (0 + 1) } := by
    simp [farms, State.next, State.runs, State.timedsend, hqueues.alive, hsend, hhandler, htq,
      maxMsgs]
  have hpause : (farms n T1 T2 add).next { s with
        tq := s.tq.send (t, 1) false, queued := s.queued ++ [t], parent := .pause (0 + 1) }
      (.parent 0) = some { s with
        tq := s.tq.send (t, 1) false, queued := s.queued ++ [t], parent := .undefined } := by
    have hmillis : millis T1 T2 0 = none := if_pos (by omega)
    simp [farms, State.next, State.runs, State.parentWork, hqueues.alive, hhandler, hmillis]
  exact ⟨_, (hs.step hstep).step hpause, rfl⟩

/-- **Every task is done once**, for every number of workers and range that `main` accepts, if and
only if the range of the pauses is not empty. -/
theorem tasks_once_iff [Inhabited τ] (haccepted : Accepted n T1 T2) (add : τ → ρ) :
    (∀ s, (farms n T1 T2 add).Reach s → TasksOnce n T1 T2 add s) ↔ T1 < T2 := by
  obtain ⟨⟨hlow, hn⟩, -, -, -⟩ := haccepted
  constructor
  · intro hall
    by_contra hrange
    obtain ⟨s, hs, hundefined⟩ := undefined_reach (by omega) hn hrange add default
    exact (hall s hs).defined hundefined
  · exact fun hrange s hs => tasks_once hn hrange hs

theorem tasks_once_two : ∃ s, (farms 2 100 200 (id : Nat → Nat)).Reach s ∧ s.queued = [7] ∧
    TasksOnce 2 100 200 id s := by
  have haccepted : Accepted 2 100 200 := ⟨by decide, by decide, by decide, by decide⟩
  have hrun : ((farms 2 100 200 (id : Nat → Nat)).exec (begun 2)
      [.parent 0, .parent 0, .send 7, .worker 0, .parent 0]).map (·.queued) = some [7] := by decide
  obtain ⟨s, hs, hqueued⟩ := Option.map_eq_some_iff.mp hrun
  have hreach := LTS.Reach.exec (.init rfl) hs
  exact ⟨s, hreach, hqueued, (tasks_once_iff haccepted id).mpr (by decide) s hreach⟩

/-- `main` accepts 2 100 100, and the parent computes `rand() % 0`. -/
theorem tasks_undefined : Accepted 2 100 100 ∧ ∃ s, (farms 2 100 100 (id : Nat → Nat)).Reach s ∧
    ¬ TasksOnce 2 100 100 id s := by
  refine ⟨⟨by decide, by decide, by decide, by decide⟩, ?_⟩
  have hrun : ((farms 2 100 100 (id : Nat → Nat)).exec (begun 2)
      [.parent 0, .parent 0, .send 7, .parent 0]).map (·.parent) = some .undefined := by decide
  obtain ⟨s, hs, hparent⟩ := Option.map_eq_some_iff.mp hrun
  exact ⟨s, LTS.Reach.exec (.init rfl) hs, fun h => h.defined hparent⟩

end Ops.Farm
