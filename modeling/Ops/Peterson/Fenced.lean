import Ops.Lib.Simulation
import Ops.Peterson.Buffered
import Ops.Peterson.Exclusion

/-!
# Atomic flags are enough on x86 (`03_peterson_atomic.c`)

With `atomic_int` only stores of `counter` wait in a buffer, and only between the store and the
`xchg` that resets the flag of its thread. So the program refines the one without buffers
(`Refines`): nobody else is inside to see the old counter.
-/

namespace Ops.Peterson.Buffered

variable {ITERATIONS : Fin 2 → Nat} {s t : State} {u v : Peterson.State} {i k : Fin 2}

structure Refines (s : State) (u : Peterson.State) : Prop where
  pc : s.pc = u.pc
  flag : ∀ i, s.memory.mem (.flag i) = u.flag i
  turn : s.memory.mem .turn = u.turn.val
  /-- Before `unlock` the counter may wait in the buffer. -/
  waits : ∀ i, s.memory.buf i = [] ∨
    (∃ n, s.pc i = .unlock n) ∧ s.memory.buf i = [(.counter, u.counter)]
  counter : (∀ i, s.memory.buf i = []) → s.memory.mem .counter = u.counter

namespace Refines

theorem start : Refines .start .start where
  pc := rfl
  flag _ := rfl
  turn := rfl
  waits _ := .inl rfl
  counter _ := rfl

theorem drained (h : Refines s u) (hpc : ∀ n, s.pc i ≠ .unlock n) : s.memory.buf i = [] :=
  (h.waits i).resolve_right fun ⟨⟨n, hn⟩, _⟩ => hpc n hn

/-- While one thread is inside, the other one has nothing that waits. -/
theorem rival_drained (h : Refines s u) (hu : (Peterson.threads ITERATIONS).Reach u)
    (hin : (s.pc i).inside = true) : s.memory.buf (other i) = [] := by
  refine h.drained fun n hn => ?_
  have hout := (Peterson.Inv.reach hu).alone (i := i) (h.pc ▸ hin)
  rw [← h.pc, hn] at hout
  cases hout

theorem move {c : Pc} (h : Refines s u) (hpc : ∀ n, s.pc i ≠ .unlock n) :
    Refines (s.setPc i c) (u.setPc i c) := by
  refine ⟨?_, h.flag, h.turn, fun k => ?_, h.counter⟩
  · show Function.update s.pc i c = Function.update u.pc i c
    rw [h.pc]
  · rcases h.waits k with hempty | ⟨⟨n, hn⟩, hbuf⟩
    · exact .inl hempty
    · have hki : k ≠ i := fun hki => hpc n (hki ▸ hn)
      exact .inr ⟨⟨n, (Function.update_of_ne hki ..).trans hn⟩, hbuf⟩

theorem flag_set (h : Refines s u) (i : Fin 2) (w : Int) (k : Fin 2) :
    Function.update s.memory.mem (.flag i) w (.flag k) = Function.update u.flag i w k := by
  by_cases hk : k = i
  · rw [hk, Function.update_self, Function.update_self]
  · have hne : Var.flag k ≠ .flag i := fun he => hk (Var.flag.inj he)
    rw [Function.update_of_ne hne, Function.update_of_ne hk, h.flag]

/-- An `xchg` of `flag` or `turn`, with the same store of the other program. -/
theorem xchg {c : Pc} {x : Var} {w : Int} (h : Refines s u)
    (hn : s.store true i x w c = some t) (hx : x ≠ .counter) (hpc : v.pc = u.pc)
    (hcounter : v.counter = u.counter)
    (hflag : ∀ k, Function.update s.memory.mem x w (.flag k) = v.flag k)
    (hturn : Function.update s.memory.mem x w .turn = v.turn.val) : Refines t (v.setPc i c) := by
  obtain ⟨m, hm, rfl⟩ := Option.map_eq_some_iff.mp hn
  obtain ⟨hempty, hmem, hbuf⟩ := Memory.xchg_some hm
  refine ⟨?_, fun k => ?_, ?_, fun k => ?_, fun hall => ?_⟩
  · show Function.update s.pc i c = Function.update v.pc i c
    rw [h.pc, hpc]
  · exact (congrFun hmem _).trans (hflag k)
  · exact (congrFun hmem _).trans hturn
  · show m.buf k = [] ∨ (∃ n, Function.update s.pc i c k = .unlock n) ∧
      m.buf k = [(.counter, v.counter)]
    rw [hbuf, hcounter]
    rcases h.waits k with hk | ⟨⟨n, hn⟩, hk⟩
    · exact .inl hk
    · have hki : k ≠ i := fun hki => by
        rw [hki, hempty] at hk
        cases hk
      exact .inr ⟨⟨n, (Function.update_of_ne hki ..).trans hn⟩, hk⟩
  · show m.mem .counter = v.counter
    rw [hmem, Function.update_of_ne hx.symm, hcounter]
    exact h.counter fun k => by rw [← hbuf]; exact hall k

end Refines

theorem refines_thread (hu : (Peterson.threads ITERATIONS).Reach u) (h : Refines s u)
    (hn : s.thread true ITERATIONS i = some t) :
    ∃ v, u.next ITERATIONS i = some v ∧ Refines t v := by
  have hpcs := congrFun h.pc i
  unfold State.thread at hn
  unfold Peterson.State.next
  obtain ⟨c, hpc⟩ : ∃ c, s.pc i = c := ⟨_, rfl⟩
  rw [hpc] at hn hpcs
  rw [← hpcs]
  cases c with
  | loop n =>
    cases hn
    exact ⟨_, rfl, h.move (by rw [hpc]; exact nofun)⟩
  | flag n =>
    refine ⟨_, rfl, h.xchg hn nofun rfl rfl (h.flag_set i _) ?_⟩
    rw [Function.update_of_ne (by exact nofun), h.turn]
  | turn n =>
    refine ⟨_, rfl, h.xchg hn nofun rfl rfl (fun k => ?_) ?_⟩
    · rw [Function.update_of_ne (by exact nofun), h.flag]
    · rw [Function.update_self]
  | testFlag n =>
    cases hn
    have hdrained := h.drained (i := i) (by rw [hpc]; exact nofun)
    rw [Memory.load_drained hdrained, h.flag]
    exact ⟨_, rfl, h.move (by rw [hpc]; exact nofun)⟩
  | testTurn n =>
    cases hn
    have hdrained := h.drained (i := i) (by rw [hpc]; exact nofun)
    have hiff : s.memory.mem .turn = ((other i).val : Int) ↔ u.turn = other i := by
      rw [h.turn, Fin.ext_iff]
      exact Int.natCast_inj
    rw [Memory.load_drained hdrained]
    simp only [hiff]
    exact ⟨_, rfl, h.move (by rw [hpc]; exact nofun)⟩
  | load n =>
    cases hn
    -- nobody's store of the counter waits
    have hdrained := h.drained (i := i) (by rw [hpc]; exact nofun)
    have hrival := h.rival_drained hu (i := i) (by rw [hpc]; rfl)
    have hall : ∀ k, s.memory.buf k = [] := fun k => by
      by_cases hk : k = i
      · rw [hk, hdrained]
      · rw [eq_other hk, hrival]
    rw [Memory.load_drained hdrained, h.counter hall]
    exact ⟨_, rfl, h.move (by rw [hpc]; exact nofun)⟩
  | store n w =>
    cases hn
    have hdrained := h.drained (i := i) (by rw [hpc]; exact nofun)
    have hrival := h.rival_drained hu (i := i) (by rw [hpc]; rfl)
    refine ⟨_, rfl, ?_, h.flag, h.turn, fun k => ?_, fun hall => ?_⟩
    · show Function.update s.pc i _ = Function.update u.pc i _
      rw [h.pc]
    · show (Function.update s.memory.buf i _) k = [] ∨
        (∃ n', Function.update s.pc i (.unlock n) k = .unlock n') ∧
          (Function.update s.memory.buf i _) k = [(.counter, w + change i)]
      by_cases hk : k = i
      · subst hk
        refine .inr ⟨⟨n, Function.update_self ..⟩, ?_⟩
        rw [Function.update_self, hdrained, List.nil_append]
      · rw [Function.update_of_ne hk, eq_other hk]
        exact .inl hrival
    · have hnone := hall i
      simp [State.setPc] at hnone
  | unlock n =>
    refine ⟨_, rfl, h.xchg hn nofun rfl rfl (h.flag_set i _) ?_⟩
    rw [Function.update_of_ne (by exact nofun), h.turn]
  | done => cases hn

theorem refines_flush (hu : (Peterson.threads ITERATIONS).Reach u) (h : Refines s u)
    {m : Memory (Fin 2) Var} (hm : s.memory.flush i = some m) :
    Refines { s with memory := m } u := by
  obtain ⟨x, w, rest, hbuf, hmem, hbuf'⟩ := Memory.flush_some hm
  rcases h.waits i with hempty | ⟨⟨n, hn⟩, hone⟩
  · rw [hempty] at hbuf
    cases hbuf
  · rw [hone] at hbuf
    cases hbuf
    have hrival := h.rival_drained hu (i := i) (by rw [hn]; rfl)
    refine ⟨h.pc, fun k => ?_, ?_, fun k => .inl ?_, fun _ => ?_⟩
    · rw [hmem, Function.update_of_ne (by exact nofun), h.flag]
    · rw [hmem, Function.update_of_ne (by exact nofun), h.turn]
    · rw [hbuf']
      by_cases hk : k = i
      · rw [hk, Function.update_self]
      · rw [Function.update_of_ne hk, eq_other hk, hrival]
    · rw [hmem, Function.update_self]

theorem refines (hs : (threads true ITERATIONS).Reach s) :
    ∃ u, (Peterson.threads ITERATIONS).Reach u ∧ Refines s u := by
  refine LTS.Reach.simulate (R := Refines) ?_ (fun s a t u hu h hn => ?_) hs
  · rintro _ rfl
    exact ⟨_, rfl, .start⟩
  · cases a with
    | thread i =>
      obtain ⟨v, hv, hR⟩ := refines_thread hu h hn
      exact .inr ⟨i, v, hv, hR⟩
    | flush i =>
      obtain ⟨m, hm, rfl⟩ := Option.map_eq_some_iff.mp hn
      exact .inl (refines_flush hu h hm)

/-- As long as something waits or a thread has not returned, there is a step. -/
theorem goes (h : ¬ s.Joined) : ∃ a t, (threads true ITERATIONS).next s a = some t := by
  by_cases hall : ∀ i, s.memory.buf i = []
  · obtain ⟨i, hi⟩ := not_forall.mp h
    have hpc : s.pc i ≠ .done := fun hdone => hi ⟨hdone, hall i⟩
    have hstore : ∀ x w c, ∃ t, s.store true i x w c = some t := fun x w c =>
      ⟨_, congrArg (Option.map _) (if_pos (hall i))⟩
    refine ⟨.thread i, ?_⟩
    show ∃ t, s.thread true ITERATIONS i = some t
    unfold State.thread
    cases hc : s.pc i with
    | done => exact absurd hc hpc
    | flag n | turn n | unlock n => exact hstore _ _ _
    | _ => exact ⟨_, rfl⟩
  · obtain ⟨i, hi⟩ := not_forall.mp hall
    obtain ⟨e, rest, hbuf⟩ := List.exists_cons_of_ne_nil hi
    refine ⟨.flush i, ?_⟩
    simp only [threads, State.next, Memory.flush, hbuf, Option.map_some]
    exact ⟨_, rfl⟩

/-- **Peterson's lock with atomics on x86**: every state that the program reaches with store
buffers, it reaches without. So one thread at most is inside, the counter that `main` prints is
exact, and until it prints there is always a step. -/
theorem fenced (ITERATIONS : Fin 2 → Nat) (hs : (threads true ITERATIONS).Reach s) :
    (∃ u, (Peterson.threads ITERATIONS).Reach u ∧ Refines s u) ∧
      ¬ ((s.pc 0).inside = true ∧ (s.pc 1).inside = true) ∧
      (s.Joined → s.memory.mem .counter = ITERATIONS 0 - ITERATIONS 1) ∧
      (¬ s.Joined → ∃ a t, (threads true ITERATIONS).next s a = some t) := by
  obtain ⟨u, hu, h⟩ := refines hs
  have hcorrect := (Peterson.Inv.reach hu).correct
  refine ⟨⟨u, hu, h⟩, ?_, fun hjoined => ?_, goes⟩
  · rw [h.pc]
    exact hcorrect.exclusion
  · rw [h.counter fun i => (hjoined i).2]
    exact hcorrect.counter fun i => by rw [← h.pc]; exact (hjoined i).1

/-- The producer's store of the counter waits while the consumer spins. -/
theorem fenced_one : ∃ s, (threads true fun _ => 1).Reach s ∧
    s.memory.buf 0 = [(.counter, 1)] ∧ (s.pc 1).spins = true ∧
    ¬ ((s.pc 0).inside = true ∧ (s.pc 1).inside = true) := by
  obtain ⟨s, hs, hbuf, hspins⟩ : ∃ s, (threads true fun _ => 1).exec .start
      ([0, 0, 0, 0, 0, 0, 1, 1, 1, 1].map Act.thread) = some s ∧
      s.memory.buf 0 = [(.counter, 1)] ∧ (s.pc 1).spins = true := ⟨_, rfl, rfl, rfl⟩
  have hreach : (threads true fun _ => 1).Reach s := LTS.Reach.exec (.init rfl) hs
  exact ⟨s, hreach, hbuf, hspins, (fenced (fun _ => 1) hreach).2.1⟩

end Ops.Peterson.Buffered
