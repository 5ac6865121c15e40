import Mathlib.Algebra.Order.BigOperators.Group.Finset
import Ops.Farm.Results

/-!
# The tasks

The parent counts the tasks that it has queued, and a worker those that it has done; a send
that fails is not counted (`Place`). So the tasks are with the workers or in the queue, and a
worker has sent the results of what it received, but for the task at hand (`Tasks`).
-/

namespace Ops.Farm

open Posix

variable {τ ρ : Type} {n T1 T2 rand i : Nat} {add : τ → ρ} {s s' : State τ ρ} {act : Act τ}

def State.receivedBy (s : State τ ρ) (i : Nat) : List τ :=
  (s.received.filter fun p => p.1 == i).map Prod.snd

/-- The place of the parent, when it has queued `k` tasks. -/
inductive Place (n : Nat) : Parent → Nat → Prop where
  | notify (i : Nat) : Place n (.notify i) 0
  | send (i : Nat) (hi : i < taskTodo * n) : Place n (.send i) i
  | pause (i : Nat) (hi : i ≤ taskTodo * n) : Place n (.pause i) i
  | wait : Place n .wait (taskTodo * n)
  | done : Place n .done (taskTodo * n)
  | undefined (k : Nat) (hk : k ≤ taskTodo * n) : Place n .undefined k

/-- The tasks that a worker has received, and the results that it has sent. -/
def Worker.taken : Worker τ → Nat
  | .receive i => i
  | .send i _ => i + 1
  | .exited => taskTodo

def Worker.results : Worker τ → Nat
  | .receive i | .send i _ => i
  | .exited => taskTodo

/-- The result that is still to be sent. -/
def Worker.owes (add : τ → ρ) : Worker τ → List ρ
  | .send _ t => [add t]
  | _ => []

def Worker.loops : Worker τ → Prop
  | .receive i | .send i _ => i < taskTodo
  | .exited => True

open Finset in
structure Tasks (n : Nat) (add : τ → ρ) (s : State τ ρ) : Prop where
  once : s.queued = s.received.map Prod.snd ++ s.tq.msgs.map Prod.fst
  prio : ∀ m ∈ s.tq.msgs, 1 ≤ m.2
  place : Place n s.parent s.queued.length
  loops : ∀ i < n, (s.worker i).loops
  results : ∀ i < n, (s.receivedBy i).map add = s.sent i ++ (s.worker i).owes add
  sent : ∀ i < n, (s.sent i).length = (s.worker i).results
  taken : s.received.length = ∑ i ∈ range n, (s.worker i).taken
  finished : s.parent = .done → ∀ i < n, (s.worker i).ended = true

theorem Tasks.congr (h : Tasks n add s) (hqueued : s'.queued = s.queued)
    (hreceived : s'.received = s.received) (htq : s'.tq = s.tq) (hworker : s'.worker = s.worker)
    (hsent : s'.sent = s.sent) (hplace : Place n s'.parent s'.queued.length)
    (hfinished : s'.parent = .done → ∀ i < n, (s'.worker i).ended = true) : Tasks n add s' := by
  obtain ⟨honce, hprio, -, hloops, hresults, hlength, htaken, -⟩ := h
  unfold State.receivedBy at hresults
  refine ⟨?_, ?_, hplace, ?_, ?_, ?_, ?_, hfinished⟩
  · rw [hqueued, hreceived, htq]; exact honce
  · rw [htq]; exact hprio
  · rw [hworker]; exact hloops
  · unfold State.receivedBy
    rw [hreceived, hsent, hworker]; exact hresults
  · rw [hsent, hworker]; exact hlength
  · rw [hreceived, hworker]; exact htaken

/-! ## The parent -/

theorem sendLoop_place (hi : i ≤ taskTodo * n) : Place n (sendLoop n i) i := by
  rcases sendLoop_cases n i with ⟨h, hlt⟩ | ⟨h, hle⟩
  · rw [h]; exact .send i hlt
  · obtain rfl : i = taskTodo * n := Nat.le_antisymm hi hle
    rw [h]; exact .wait

theorem notifyLoop_place (n i : Nat) : Place n (notifyLoop n i) 0 := by
  rcases notifyLoop_cases n i with ⟨h, -⟩ | ⟨h, -⟩
  · rw [h]; exact .notify i
  · rw [h]; exact sendLoop_place (Nat.zero_le _)

theorem sendLoop_done (n i : Nat) : sendLoop n i ≠ .done :=
  sendLoop_ne (by nofun) (by nofun) n i

theorem notifyLoop_done (n i : Nat) : notifyLoop n i ≠ .done :=
  notifyLoop_ne (by nofun) (by nofun) (by nofun) n i

theorem Tasks.parent_step (h : Tasks n add s) (hstep : s.parentWork n T1 T2 rand = some s') :
    Tasks n add s' := by
  have hplace := h.place
  unfold State.parentWork at hstep
  split at hstep
  · rename_i i hparent
    split at hstep
    · cases hstep
      exact h.congr rfl rfl rfl rfl rfl h.place h.finished
    · cases hstep
      rw [hparent] at hplace
      generalize hk : s.queued.length = k at hplace
      cases hplace
      refine h.congr rfl rfl rfl rfl rfl ?_ fun hdone => ?_
      · show Place n _ s.queued.length
        rw [hk]
        exact notifyLoop_place n (i + 1)
      · exact absurd hdone (notifyLoop_done n (i + 1))
  · rename_i i hparent
    rw [hparent] at hplace
    generalize hk : s.queued.length = k at hplace
    cases hplace with
    | pause i hi =>
      split at hstep
      · cases hstep
        refine h.congr rfl rfl rfl rfl rfl ?_ nofun
        show Place n .undefined s.queued.length
        rw [hk]
        exact .undefined i hi
      · cases hstep
        refine h.congr rfl rfl rfl rfl rfl ?_ fun hdone => ?_
        · show Place n _ s.queued.length
          rw [hk]
          exact sendLoop_place hi
        · exact absurd hdone (sendLoop_done n i)
  · rename_i hparent
    rw [hparent] at hplace
    generalize hk : s.queued.length = k at hplace
    cases hplace
    split at hstep
    · rename_i hended
      cases hstep
      refine h.congr rfl rfl rfl rfl rfl ?_ fun _ => hended
      show Place n .done s.queued.length
      rw [hk]
      exact .done
    · cases hstep
  · cases hstep
  · cases hstep
  · cases hstep

theorem Tasks.send_step (h : Tasks n add s) {t : τ} (hstep : s.timedsend t = some s') :
    Tasks n add s' := by
  have hplace := h.place
  unfold State.timedsend at hstep
  split at hstep
  · rename_i i hparent
    rw [hparent] at hplace
    generalize hk : s.queued.length = k at hplace
    cases hplace with
    | send i hi =>
      split at hstep
      · cases hstep
        have hinsert : Mqueue.insert (t, 1) s.tq.msgs = s.tq.msgs ++ [(t, 1)] :=
          Mqueue.insert_last fun m hm => h.prio m hm
        refine ⟨?_, ?_, ?_, h.loops, h.results, h.sent, h.taken, nofun⟩
        · show s.queued ++ [t] = _ ++ (Mqueue.insert (t, 1) s.tq.msgs).map Prod.fst
          rw [hinsert, h.once, List.map_append, List.append_assoc]
          rfl
        · show ∀ m ∈ Mqueue.insert (t, 1) s.tq.msgs, 1 ≤ m.2
          rw [hinsert]
          intro m hm
          rcases List.mem_append.mp hm with hm | hm
          · exact h.prio m hm
          · cases List.mem_singleton.mp hm
            exact Nat.le_refl 1
        · show Place n (.pause (i + 1)) (s.queued ++ [t]).length
          rw [List.length_append, hk]
          exact .pause (i + 1) hi
      · cases hstep
  · cases hstep

theorem Tasks.fail_step (h : Tasks n add s) (hstep : s.timedout = some s') : Tasks n add s' := by
  have hplace := h.place
  unfold State.timedout at hstep
  split at hstep
  · rename_i i hparent
    rw [hparent] at hplace
    generalize hk : s.queued.length = k at hplace
    cases hplace with
    | send i hi =>
      cases hstep
      refine h.congr rfl rfl rfl rfl rfl ?_ nofun
      show Place n (.pause i) s.queued.length
      rw [hk]
      exact .pause i (Nat.le_of_lt hi)
  · cases hstep

theorem Tasks.signal_step (h : Tasks n add s) (hstep : s.signal = some s') : Tasks n add s' := by
  unfold State.signal at hstep
  split at hstep
  · cases hstep
    exact h.congr rfl rfl rfl rfl rfl h.place h.finished
  · cases hstep

theorem Tasks.handler_step (h : Tasks n add s) (hstep : s.mqHandler n = some s') :
    Tasks n add s' := by
  unfold State.mqHandler at hstep
  split at hstep
  · cases hstep
  · split at hstep
    · cases hstep
      exact h.congr rfl rfl rfl rfl rfl h.place h.finished
    · cases hstep
      exact h.congr rfl rfl rfl rfl rfl h.place h.finished
  · split at hstep
    · split at hstep
      · cases hstep
        exact h.congr rfl rfl rfl rfl rfl h.place h.finished
      · cases hstep
        exact h.congr rfl rfl rfl rfl rfl h.place h.finished
    · cases hstep
      exact h.congr rfl rfl rfl rfl rfl h.place h.finished

/-! ## The workers -/

theorem receivedBy_self (l : List (Nat × τ)) (i : Nat) (t : τ) :
    ((l ++ [(i, t)]).filter fun p => p.1 == i).map Prod.snd =
      (l.filter fun p => p.1 == i).map Prod.snd ++ [t] := by
  simp

theorem receivedBy_other {l : List (Nat × τ)} {i j : Nat} (hij : i ≠ j) (t : τ) :
    ((l ++ [(i, t)]).filter fun p => p.1 == j).map Prod.snd =
      (l.filter fun p => p.1 == j).map Prod.snd := by
  simp [hij]

/-- What a worker changes of the sum of the tasks that are taken. -/
theorem taken_change (hi : i < n) (w : Worker τ) :
    ∑ l ∈ Finset.range n, (Function.update s.worker i w l).taken + (s.worker i).taken =
      ∑ l ∈ Finset.range n, (s.worker l).taken + w.taken := by
  have hothers : ∀ l, l ≠ i → (fun l => (Function.update s.worker i w l).taken) l =
      (fun l => (s.worker l).taken) l := fun l hl => by
    dsimp only
    rw [Function.update_of_ne hl]
  have hchange := sum_change (Finset.mem_range.mpr hi) hothers
  simp only [Function.update_self] at hchange
  exact hchange

theorem workLoop_cases (k : Nat) : (workLoop k : Worker τ) = .receive k ∧ k < taskTodo ∨
    (workLoop k : Worker τ) = .exited ∧ taskTodo ≤ k := by
  unfold workLoop
  split
  · exact .inl ⟨rfl, ‹_›⟩
  · exact .inr ⟨rfl, Nat.not_lt.mp ‹_›⟩

theorem Tasks.receive_step (h : Tasks n add s) (hi : i < n) {k : Nat} {t : τ} {prio : Nat}
    {tq : Mqueue τ} (hworker : s.worker i = .receive k)
    (hreceive : s.tq.receive = some ((t, prio), tq)) :
    Tasks n add { s.setWorker i (.send k t) with
      tq := tq, received := s.received ++ [(i, t)] } := by
  obtain ⟨hmsgs, -⟩ := Mqueue.receive_some.mp hreceive
  have hk := h.loops i hi
  rw [hworker] at hk
  refine ⟨?_, fun m hm => h.prio m ?_, h.place, fun j hj => ?_, fun j hj => ?_, fun j hj => ?_, ?_,
    fun hdone => ?_⟩
  · show s.queued = (s.received ++ [(i, t)]).map Prod.snd ++ tq.msgs.map Prod.fst
    rw [h.once, hmsgs, List.map_append, List.append_assoc]
    rfl
  · rw [hmsgs]
    exact List.mem_cons_of_mem _ hm
  · exact update_keeps (P := Worker.loops) (h.loops j hj) fun _ => hk
  · have hresults := h.results j hj
    unfold State.receivedBy at hresults ⊢
    show List.map add (((s.received ++ [(i, t)]).filter fun p => p.1 == j).map Prod.snd) =
      s.sent j ++ (Function.update s.worker i _ j).owes add
    by_cases hji : j = i
    · subst hji
      rw [hworker] at hresults
      rw [Function.update_self, receivedBy_self, List.map_append, hresults]
      exact congrArg (· ++ [add t]) (List.append_nil _)
    · rw [Function.update_of_ne hji, receivedBy_other (Ne.symm hji)]
      exact hresults
  · have hlength := h.sent j hj
    show (s.sent j).length = (Function.update s.worker i _ j).results
    by_cases hji : j = i
    · subst hji
      rw [hworker] at hlength
      rw [Function.update_self]
      exact hlength
    · rw [Function.update_of_ne hji]
      exact hlength
  · have hchange := taken_change (s := s) hi (.send k t)
    rw [hworker] at hchange
    have hone : ∑ l ∈ Finset.range n, (Function.update s.worker i (.send k t) l).taken + k =
      ∑ l ∈ Finset.range n, (s.worker l).taken + (k + 1) := hchange
    have hlength := h.taken
    show (s.received ++ [(i, t)]).length =
      ∑ l ∈ Finset.range n, (Function.update s.worker i (.send k t) l).taken
    rw [List.length_append, List.length_singleton]
    omega
  · have hended := h.finished hdone i hi
    rw [hworker] at hended
    cases hended

theorem Tasks.sent_step (h : Tasks n add s) (hi : i < n) {k : Nat} {t : τ}
    (hworker : s.worker i = .send k t) {q : Mqueue ρ} {pending : List Nat} :
    Tasks n add { (s.setWorker i (workLoop (k + 1))).setWq i q with
      pending := pending, sent := Function.update s.sent i (s.sent i ++ [add t]) } := by
  have hk := h.loops i hi
  rw [hworker] at hk
  have hlt : k < taskTodo := hk
  have hloop : (workLoop (k + 1) : Worker τ).loops ∧ (workLoop (k + 1) : Worker τ).taken = k + 1 ∧
      (workLoop (k + 1) : Worker τ).results = k + 1 ∧
      (workLoop (k + 1) : Worker τ).owes add = [] := by
    rcases workLoop_cases (τ := τ) (k + 1) with ⟨hw, hmore⟩ | ⟨hw, hle⟩
    · rw [hw]; exact ⟨hmore, rfl, rfl, rfl⟩
    · obtain hlast : taskTodo = k + 1 := by omega
      rw [hw]; exact ⟨trivial, hlast, hlast, rfl⟩
  obtain ⟨hloops, htaken, hresults', howes⟩ := hloop
  refine ⟨h.once, h.prio, h.place, fun j hj => ?_, fun j hj => ?_, fun j hj => ?_, ?_,
    fun hdone => ?_⟩
  · exact update_keeps (P := Worker.loops) (h.loops j hj) fun _ => hloops
  · have hresults := h.results j hj
    show List.map add (s.receivedBy j) =
      Function.update s.sent i _ j ++ (Function.update s.worker i _ j).owes add
    by_cases hji : j = i
    · subst hji
      rw [hworker] at hresults
      rw [Function.update_self, Function.update_self, howes, List.append_nil]
      exact hresults
    · rw [Function.update_of_ne hji, Function.update_of_ne hji]
      exact hresults
  · have hlength := h.sent j hj
    show (Function.update s.sent i _ j).length = (Function.update s.worker i _ j).results
    by_cases hji : j = i
    · subst hji
      rw [hworker] at hlength
      rw [Function.update_self, Function.update_self, hresults', List.length_append, hlength]
      rfl
    · rw [Function.update_of_ne hji, Function.update_of_ne hji]
      exact hlength
  · have hchange := taken_change (s := s) hi (workLoop (k + 1))
    rw [hworker, htaken] at hchange
    have hsame : ∑ l ∈ Finset.range n, (Function.update s.worker i (workLoop (k + 1)) l).taken +
      (k + 1) = ∑ l ∈ Finset.range n, (s.worker l).taken + (k + 1) := hchange
    exact h.taken.trans (Nat.add_right_cancel hsame).symm
  · have hended := h.finished hdone i hi
    rw [hworker] at hended
    cases hended

theorem Tasks.worker_step (h : Tasks n add s) (hi : i < n) (hstep : s.childWork add i = some s') :
    Tasks n add s' := by
  unfold State.childWork at hstep
  split at hstep
  · rename_i k hworker
    split at hstep
    · cases hstep
    · rename_i t prio tq hreceive
      cases hstep
      exact h.receive_step hi hworker hreceive
  · rename_i k t hworker
    split at hstep
    · cases hstep
      exact h.sent_step hi hworker
    · cases hstep
  · cases hstep

/-! ## Every run -/

theorem begun_tasks (n : Nat) (add : τ → ρ) : Tasks n add (begun n : State τ ρ) := by
  refine ⟨rfl, nofun, notifyLoop_place n 0, fun _ _ => Nat.succ_pos 4, fun _ _ => rfl,
    fun _ _ => rfl, ?_, fun hdone => absurd hdone (notifyLoop_done n 0)⟩
  have hzero : ∀ i, ((begun n : State τ ρ).worker i).taken = 0 := fun _ => rfl
  rw [Finset.sum_congr rfl fun i _ => hzero i, Finset.sum_const_zero]
  rfl

theorem tasks_reach (h : (farms n T1 T2 add).Reach s) : Tasks n add s := by
  refine h.inv (I := Tasks n add) (fun s hs => ?_) ?_
  · obtain rfl : s = begun n := hs
    exact begun_tasks n add
  · intro s act s' _ hq hstep
    rcases next_cases hstep with ⟨rand, h⟩ | ⟨t, h⟩ | h | h | h | ⟨i, hi, h⟩
    · exact hq.parent_step h
    · exact hq.send_step h
    · exact hq.fail_step h
    · exact hq.signal_step h
    · exact hq.handler_step h
    · exact hq.worker_step hi h

theorem millis_some (hrange : T1 < T2) (rand : Nat) : ∃ m, millis T1 T2 rand = some m :=
  ⟨_, if_neg (by omega)⟩

theorem sendLoop_defined (n i : Nat) : sendLoop n i ≠ .undefined :=
  sendLoop_ne (by nofun) (by nofun) n i

theorem notifyLoop_defined (n i : Nat) : notifyLoop n i ≠ .undefined :=
  notifyLoop_ne (by nofun) (by nofun) (by nofun) n i

theorem parent_defined (hrange : T1 < T2) (hdefined : s.parent ≠ .undefined)
    (hstep : s.parentWork n T1 T2 rand = some s') : s'.parent ≠ .undefined := by
  unfold State.parentWork at hstep
  split at hstep
  · split at hstep
    · cases hstep
      exact hdefined
    · cases hstep
      exact notifyLoop_defined n _
  · obtain ⟨m, hm⟩ := millis_some hrange rand
    rw [hm] at hstep
    cases hstep
    exact sendLoop_defined n _
  · split at hstep
    · cases hstep
      nofun
    · cases hstep
  · cases hstep
  · cases hstep
  · cases hstep

theorem handler_parent (hstep : s.mqHandler n = some s') : s'.parent = s.parent := by
  unfold State.mqHandler at hstep
  split at hstep
  · cases hstep
  · split at hstep
    · cases hstep; rfl
    · cases hstep; rfl
  · split at hstep
    · split at hstep
      · cases hstep; rfl
      · cases hstep; rfl
    · cases hstep; rfl

theorem worker_parent (hstep : s.childWork add i = some s') : s'.parent = s.parent := by
  unfold State.childWork at hstep
  split at hstep
  · split at hstep
    · cases hstep
    · cases hstep; rfl
  · split at hstep
    · cases hstep; rfl
    · cases hstep
  · cases hstep

theorem defined_reach (hrange : T1 < T2) (h : (farms n T1 T2 add).Reach s) :
    s.parent ≠ .undefined := by
  refine h.inv (I := fun s => s.parent ≠ .undefined) (fun s hs => ?_) ?_
  · obtain rfl : s = begun n := hs
    exact notifyLoop_defined n 0
  · intro s act s' _ hq hstep
    rcases next_cases hstep with ⟨rand, h⟩ | ⟨t, h⟩ | h | h | h | ⟨i, hi, h⟩
    · exact parent_defined hrange hq h
    · unfold State.timedsend at h
      split at h
      · split at h
        · cases h; nofun
        · cases h
      · cases h
    · unfold State.timedout at h
      split at h
      · cases h; nofun
      · cases h
    · unfold State.signal at h
      split at h
      · cases h; exact hq
      · cases h
    · rw [handler_parent h]; exact hq
    · rw [worker_parent h]; exact hq

end Ops.Farm
