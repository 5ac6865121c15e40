import Ops.Lib.Rounds
import Ops.Peterson.Buffered
import Ops.Peterson.Exclusion

/-!
# Plain flags are not enough on x86 (`02_peterson.c`)

Each thread tests the other one's flag while its own waits in the buffer, so both enter
(`both_enter`). Both then change the counter that they have loaded before, and one change is lost
whatever happens afterwards: from there each thread can make its other rounds alone (`both_end`).
-/

namespace Ops.Peterson.Buffered

variable {ITERATIONS : Fin 2 → Nat} {s t : State} {i k : Fin 2}

/-- Nothing waits, and nobody is interested. -/
structure Quiet (s : State) : Prop where
  buf : ∀ i, s.memory.buf i = []
  flag : ∀ i, s.memory.mem (.flag i) = 0

def alone : Rounds State (Fin 2) Pc :=
  ⟨Quiet, State.pc, fun s => s.memory.mem .counter, .loop, .done⟩

/-- Thread `i` makes a round, with its flag and the counter in memory at the end. -/
theorem round (ITERATIONS : Fin 2 → Nat) (i : Fin 2) (s : State) (n : Nat) (h : Quiet s)
    (hpc : s.pc i = .loop n) (hn : n < ITERATIONS i) :
    alone.Runs (threads false ITERATIONS) s i (.loop (n + 1)) (change i) := by
  have hother := other_ne i
  have hbuf := h.buf i
  have hflag := h.flag (other i)
  refine ⟨[.thread i, .thread i, .thread i, .flush i, .flush i, .thread i, .thread i, .thread i,
    .thread i, .flush i, .flush i], ?_⟩
  simp [LTS.exec, threads, State.next, State.thread, State.store, State.setPc, Memory.store,
    Memory.flush, Memory.load, Memory.newest, alone, hpc, hn, hbuf, hflag, hother]
  refine ⟨fun k => ?_, fun k => ?_⟩
  · show Function.update s.memory.buf i [] k = []
    by_cases hk : k = i
    · rw [hk, Function.update_self]
    · rw [Function.update_of_ne hk, h.buf]
  · by_cases hk : k = i
    · simp [hk]
    · have hne : Var.flag k ≠ .flag i := fun he => hk (Var.flag.inj he)
      simp [hne, h.flag]

theorem last (ITERATIONS : Fin 2 → Nat) (i : Fin 2) (s : State) (h : Quiet s)
    (hpc : s.pc i = .loop (ITERATIONS i)) :
    alone.Runs (threads false ITERATIONS) s i .done 0 := by
  refine ⟨[.thread i], ?_⟩
  simp [LTS.exec, threads, State.next, State.thread, State.setPc, alone, hpc]
  exact ⟨h.buf, h.flag⟩

/-- From a quiet state both make their last rounds, one after the other. -/
theorem both_end {n m : Nat} (h : Quiet s) (hi : s.pc 0 = .loop n) (hj : s.pc 1 = .loop m)
    (hn : n ≤ ITERATIONS 0) (hm : m ≤ ITERATIONS 1) :
    ∃ as t, (threads false ITERATIONS).exec s as = some t ∧ t.Joined ∧
      t.memory.mem .counter =
        s.memory.mem .counter + (ITERATIONS 0 - n) - (ITERATIONS 1 - m) := by
  obtain ⟨as, t, has, ht, hpcs, hcounter⟩ : alone.Runs (threads false ITERATIONS) s 0 _ _ :=
    Rounds.ends (round ITERATIONS 0) (last ITERATIONS 0) h hi hn
  have hj' : t.pc 1 = .loop m :=
    (congrFun hpcs 1).trans ((Function.update_of_ne (by decide) ..).trans hj)
  obtain ⟨bs, u, hbs, hu, hpcs', hcounter'⟩ : alone.Runs (threads false ITERATIONS) t 1 _ _ :=
    Rounds.ends (round ITERATIONS 1) (last ITERATIONS 1) ht hj' hm
  dsimp only [alone] at hpcs hpcs' hcounter hcounter'
  refine ⟨as ++ bs, u, by rw [LTS.exec_append, has]; exact hbs, fun k => ⟨?_, hu.buf k⟩, ?_⟩
  · rw [hpcs', hpcs]
    match k with
    | 0 => rw [Function.update_of_ne (by decide), Function.update_self]
    | 1 => rw [Function.update_self]
  · have hone : change 0 = 1 := rfl
    have hminus : change 1 = -1 := rfl
    rw [hcounter', hcounter, hone, hminus]
    ring

/-- Both threads come to their first load of the counter, with their flags in the buffers. -/
theorem both_enter (h0 : 0 < ITERATIONS 0) (h1 : 0 < ITERATIONS 1) :
    ∃ as t, (threads false ITERATIONS).exec .start as = some t ∧
      t.memory.mem = (fun _ => 0) ∧ t.memory.buf 0 = [(.flag 0, 1), (.turn, 1)] ∧
      t.memory.buf 1 = [(.flag 1, 1), (.turn, 0)] ∧ t.pc 0 = .load 0 ∧ t.pc 1 = .load 0 := by
  refine ⟨[.thread 0, .thread 0, .thread 0, .thread 1, .thread 1, .thread 1, .thread 0,
    .thread 1], ?_⟩
  simp [LTS.exec, threads, State.next, State.thread, State.store, State.setPc, State.start,
    Memory.store, Memory.load, Memory.newest, other, h0, h1]

theorem overwrites (hmem : s.memory.mem = fun _ => 0)
    (hb0 : s.memory.buf 0 = [(.flag 0, 1), (.turn, 1)])
    (hb1 : s.memory.buf 1 = [(.flag 1, 1), (.turn, 0)]) (hp0 : s.pc 0 = .load 0)
    (hp1 : s.pc 1 = .load 0) :
    ∃ as t, (threads false ITERATIONS).exec s as = some t ∧ Quiet t ∧
      t.pc 0 = .loop 1 ∧ t.pc 1 = .loop 1 ∧ t.memory.mem .counter = -1 := by
  refine ⟨[.thread 0, .thread 1, .thread 0, .thread 1, .flush 0, .flush 0, .flush 0, .flush 1,
    .flush 1, .flush 1, .thread 0, .thread 1, .flush 0, .flush 1], ?_⟩
  simp [LTS.exec, threads, State.next, State.thread, State.store, State.setPc, Memory.store,
    Memory.flush, Memory.load, Memory.newest, change, hmem, hb0, hb1, hp0, hp1]
  exact ⟨Fin.forall_fin_two.mpr ⟨by simp, by simp⟩, Fin.forall_fin_two.mpr ⟨by simp, by simp⟩⟩

/-- **Peterson's lock with plain flags fails on x86**: for all numbers of rounds but none, both
threads can be between `lock` and `unlock`, and `main` can print a counter that is one too low. -/
theorem broken (ITERATIONS : Fin 2 → Nat) (h : ∀ i, 0 < ITERATIONS i) :
    (∃ s, (threads false ITERATIONS).Reach s ∧ (s.pc 0).inside = true ∧
      (s.pc 1).inside = true) ∧
    ∃ s, (threads false ITERATIONS).Reach s ∧ s.Joined ∧
      s.memory.mem .counter = ITERATIONS 0 - ITERATIONS 1 - 1 := by
  obtain ⟨as, s, has, hmem, hb0, hb1, hp0, hp1⟩ := both_enter (h 0) (h 1)
  have hs : (threads false ITERATIONS).Reach s := LTS.Reach.exec (.init rfl) has
  refine ⟨⟨s, hs, by rw [hp0]; rfl, by rw [hp1]; rfl⟩, ?_⟩
  obtain ⟨bs, t, hbs, hquiet, hq0, hq1, hcounter⟩ : ∃ bs t,
      (threads false ITERATIONS).exec s bs = some t ∧ _ := overwrites hmem hb0 hb1 hp0 hp1
  obtain ⟨cs, u, hcs, hjoined, hcounter'⟩ := both_end hquiet hq0 hq1 (h 0) (h 1)
  refine ⟨u, (hs.exec hbs).exec hcs, hjoined, ?_⟩
  rw [hcounter', hcounter]
  push_cast
  ring

theorem broken_once : ∃ s, (threads false fun _ => 1).Reach s ∧ s.Joined ∧
    s.memory.mem .counter = -1 :=
  (broken (fun _ => 1) fun _ => Nat.one_pos).2

end Ops.Peterson.Buffered
