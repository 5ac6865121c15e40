import Ops.Reorder.Process

/-!
# Which counts there are

With store buffers any number of the iterations can show the reordering (`Calm.iteration`). When a
thread loads with its own store in memory, none does (`Inv`): who loads second sees the store of
the other one (`Work.pairs`).
-/

namespace Ops.Reorder

open Posix (Party)

variable {s t : State} {i j : Thread}

theorem other_ne (i : Thread) : i.other ≠ i := by cases i <;> exact nofun

theorem other_other (i : Thread) : i.other.other = i := by cases i <;> rfl

theorem forall_thread {P : Thread → Prop} (i : Thread) (h : P i) (h' : P i.other) (j : Thread) :
    P j := by
  cases i <;> cases j <;> assumption

/-! ## Every count -/

/-- Nothing waits, and `main` begins an iteration. -/
structure Calm (s : State) : Prop where
  pc : s.pc = fun _ => .first
  main : s.main = .clear2
  buf : ∀ p, s.memory.buf p = []

/-- The threads are to work, and their variables are 0. -/
structure Begun (s : State) : Prop where
  pc : s.pc = fun _ => .store
  main : s.main = .second
  buf : ∀ p, s.memory.buf p = []
  zero : ∀ i, s.memory.mem (.store i) = 0

structure Worked (v w : Int) (s : State) : Prop where
  pc : s.pc = fun _ => .second
  main : s.main = .second
  buf : ∀ p, s.memory.buf p = []
  load0 : s.memory.mem (.load .th1) = v
  load1 : s.memory.mem (.load .th2) = w

/-- A run from `s` to a state with `P`, whose steps meet `C` and count no iteration. -/
def Leads (C : State → Act → Prop) (s : State) (P : State → Prop) : Prop :=
  ∃ as t, program.exec s as = some t ∧ program.Along C s as ∧ P t ∧
    t.iterations = s.iterations ∧ t.reorders = s.reorders

theorem leads_fenced {P : State → Prop} (h : ∃ as t, program.execIf Fenced s as = some t ∧ P t ∧
    t.iterations = s.iterations ∧ t.reorders = s.reorders) : Leads Fenced s P := by
  obtain ⟨as, t, has, ht⟩ := h
  obtain ⟨hexec, halong⟩ := LTS.along_of_execIf has
  exact ⟨as, t, hexec, halong, ht⟩

theorem Leads.mono {C D : State → Act → Prop} {P : State → Prop} (hCD : ∀ s a, C s a → D s a)
    (h : Leads C s P) : Leads D s P := by
  obtain ⟨as, t, has, hC, ht⟩ := h
  exact ⟨as, t, has, hC.mono hCD, ht⟩

theorem Calm.begins (h : Calm s) : Leads Fenced s Begun := by
  refine leads_fenced ⟨[.main, .main, .flush .main, .flush .main, .meet], ?_⟩
  simp [LTS.execIf, Fenced, program, State.next, State.mainStep, State.meet, Pc.released,
    MainPc.released, Memory.store, Memory.flush, h.pc, h.main, h.buf]
  refine ⟨funext fun i => by cases i <;> rfl, rfl, fun p => ?_, fun i => ?_⟩
  · show Function.update s.memory.buf .main [] p = []
    by_cases hp : p = .main
    · rw [hp, Function.update_self]
    · rw [Function.update_of_ne hp, h.buf]
  · cases i <;> simp

/-- Nothing waits when the buffers of both threads have been emptied. -/
theorem drained {buf : Party (Thread) → List (Var × Int)} (hmain : buf .main = [])
    (h : ∀ i, buf (.thread i) = []) (p : Party (Thread)) : buf p = [] := by
  cases p with
  | main => exact hmain
  | thread i => exact h i

theorem Begun.reorders (h : Begun s) : Leads (fun _ _ => True) s (Worked 0 0) := by
  have hexec : ∃ as t, program.exec s as = some t ∧ Worked 0 0 t ∧
      t.iterations = s.iterations ∧ t.reorders = s.reorders := by
    refine ⟨[.thread .th1, .thread .th2, .thread .th1, .thread .th2, .thread .th1, .thread .th2,
      .flush (.thread .th1), .flush (.thread .th1), .flush (.thread .th2), .flush (.thread .th2)],
      ?_⟩
    simp [LTS.exec, program, State.next, State.thread, State.goto, Memory.store, Memory.flush,
      Memory.load, Memory.newest, Thread.other, h.pc, h.buf, h.zero]
    refine ⟨?_, h.main, drained (by simp [h.buf]) fun i => ?_, by simp, by simp⟩
    · funext i
      cases i <;> simp
    · cases i <;> simp
  obtain ⟨as, t, has, ht⟩ := hexec
  exact ⟨as, t, has, LTS.along_true s as, ht⟩

/-- The second thread works when the first has, and both with a fence. -/
theorem Begun.ordered (h : Begun s) : Leads Fenced s (Worked 0 1) := by
  refine leads_fenced ⟨[.thread .th1, .flush (.thread .th1), .thread .th1, .thread .th1,
    .flush (.thread .th1), .thread .th2, .flush (.thread .th2), .thread .th2, .thread .th2,
    .flush (.thread .th2)], ?_⟩
  simp [LTS.execIf, Fenced, program, State.next, State.thread, State.goto, Memory.store,
    Memory.flush, Memory.load, Memory.newest, Thread.other, h.pc, h.buf, h.zero]
  refine ⟨?_, h.main, drained (by simp [h.buf]) fun i => ?_, by simp, by simp⟩
  · funext i
    cases i <;> simp
  · cases i <;> simp

theorem Worked.counted {w : Int} (h : Worked 0 w s) : ∃ as t,
    program.execIf Fenced s as = some t ∧ Calm t ∧ t.iterations = s.iterations + 1 ∧
      t.reorders = s.reorders + if w = 0 then 1 else 0 := by
  refine ⟨[.meet, .main, .main], ?_⟩
  simp [LTS.execIf, Fenced, program, State.next, State.mainStep, State.meet, Pc.released,
    MainPc.released, Memory.load, Memory.newest, h.pc, h.main, h.buf, h.load0, h.load1]
  exact ⟨funext fun i => by cases i <;> rfl, rfl, h.buf⟩

theorem Calm.iteration {C : State → Act → Prop} {w : Int} (hC : ∀ s a, Fenced s a → C s a)
    (hwork : ∀ t, Begun t → Leads C t (Worked 0 w)) (hs : program.ReachIf C s) (h : Calm s) :
    ∃ t, program.ReachIf C t ∧ Calm t ∧ t.iterations = s.iterations + 1 ∧
      t.reorders = s.reorders + if w = 0 then 1 else 0 := by
  obtain ⟨as, t, has, hasC, ht, hit, hre⟩ := h.begins.mono hC
  obtain ⟨bs, u, hbs, hbsC, hu, hit', hre'⟩ := hwork t ht
  obtain ⟨cs, v, hcs, hv, hit'', hre''⟩ := hu.counted
  obtain ⟨hcs, hcsC⟩ := LTS.along_of_execIf hcs
  exact ⟨v, ((hs.along hasC has).along hbsC hbs).along (hcsC.mono hC) hcs, hv, by omega, by omega⟩

theorem calm_start : Calm .start := ⟨rfl, rfl, fun _ => rfl⟩

theorem counts {n k : Nat} (hk : k ≤ n) :
    ∃ s, program.Reach s ∧ Calm s ∧ s.iterations = n ∧ s.reorders = k := by
  induction n generalizing k with
  | zero => exact ⟨.start, .init rfl, calm_start, rfl, (Nat.le_zero.mp hk).symm⟩
  | succ n ih =>
    by_cases hkn : k ≤ n
    · obtain ⟨s, hs, hcalm, hit, hre⟩ := ih hkn
      obtain ⟨t, ht, hcalm', hit', hre'⟩ := hcalm.iteration (fun _ _ _ => trivial)
        (fun t ht => ht.ordered.mono fun _ _ _ => trivial) hs
      exact ⟨t, ht, hcalm', by omega, hre'.trans hre⟩
    · obtain ⟨s, hs, hcalm, hit, hre⟩ := ih (Nat.le_refl n)
      obtain ⟨t, ht, hcalm', hit', hre'⟩ := hcalm.iteration (fun _ _ _ => trivial)
        (fun t ht => ht.reorders) hs
      rw [if_pos rfl] at hre'
      exact ⟨t, ht, hcalm', by omega, by omega⟩

theorem counts_fenced (n : Nat) :
    ∃ s, program.ReachIf Fenced s ∧ Calm s ∧ s.iterations = n ∧ s.reorders = 0 := by
  induction n with
  | zero => exact ⟨.start, .init rfl, calm_start, rfl, rfl⟩
  | succ n ih =>
    obtain ⟨s, hs, hcalm, hit, hre⟩ := ih
    obtain ⟨t, ht, hcalm', hit', hre'⟩ := hcalm.iteration (fun _ _ h => h)
      (fun t ht => ht.ordered) hs
    exact ⟨t, ht, hcalm', by omega, hre'.trans hre⟩

/-! ## No other count -/

/-- Where `load2` is to be tested, an iteration is counted that is no reordering yet. -/
def MainPc.tested : MainPc → Nat
  | test2 => 1
  | _ => 0

theorem released_tested {e e' : MainPc} (h : e.released = some e') : e'.tested = 0 := by
  cases e <;> cases h <;> rfl

def State.Bounded (s : State) : Prop := s.reorders + s.main.tested ≤ s.iterations

theorem bounded_step {a : Act} (h : s.Bounded) (hn : s.next a = some t) : t.Bounded := by
  unfold State.Bounded at *
  cases a with
  | thread i =>
    simp only [State.next, State.thread] at hn
    split at hn <;> cases hn <;> exact h
  | main =>
    simp only [State.next, State.mainStep] at hn
    split at hn <;> cases hn
    · rw [‹s.main = _›] at h
      exact h
    · rw [‹s.main = _›] at h
      exact h
    · have hle : s.reorders ≤ s.iterations := Nat.le_trans (Nat.le_add_right ..) h
      dsimp only
      split
      · exact Nat.add_le_add_right hle 1
      · exact Nat.le_succ_of_le hle
    · rw [‹s.main = _›] at h
      refine Nat.le_trans (m := s.reorders + 1) (Nat.add_le_add_left (k := s.reorders) ?_) h
      split <;> decide
  | flush p =>
    obtain ⟨m, -, rfl⟩ := Option.map_eq_some_iff.mp hn
    exact h
  | meet =>
    simp only [State.next, State.meet] at hn
    split at hn
    · rename_i c d e hc hd he
      split at hn
      · cases hn
        dsimp only
        rw [released_tested he]
        exact Nat.le_trans (Nat.le_add_right _ _) h
      · cases hn
    · cases hn

theorem bounded (hs : program.Reach s) : s.Bounded := by
  refine hs.inv (I := State.Bounded) ?_ fun _ _ _ _ hi hn => bounded_step hi hn
  rintro _ rfl
  exact Nat.le_refl 0

/-! ## With a fence -/

def State.loaded (s : State) (i : Thread) : Option Int :=
  match s.pc i with
  | .save v => some v
  | .second => some (s.memory.load (.thread i) (.load i))
  | _ => none

/-- The threads are at the barrier, and `main` has counted or is about to. -/
structure Rest (s : State) : Prop where
  first : ∀ i, s.pc i = .first
  drained : ∀ i, s.memory.buf (.thread i) = []
  clean : s.main = .clear2 ∨ s.main = .test1 ∨ s.main = .test2 → s.memory.buf .main = []
  test1 : s.main = .test1 → s.memory.mem (.load .th1) = 0 → s.memory.mem (.load .th2) ≠ 0
  test2 : s.main = .test2 → s.memory.mem (.load .th2) ≠ 0
  away : s.main ≠ .second
  none : s.reorders = 0

def Stored (s : State) (i : Thread) : Pc → Prop
  | .first => False
  | .store => s.memory.buf (.thread i) = []
  | .load => s.memory.load (.thread i) (.store i) = 1
  | .save _ | .second => s.memory.mem (.store i) = 1

structure Work (s : State) : Prop where
  main : s.main = .second
  drained : s.memory.buf .main = []
  stored : ∀ i, Stored s i (s.pc i)
  own : ∀ i, ∀ e ∈ s.memory.buf (.thread i), e = (.store i, 1) ∨ e.1 = .load i
  /-- Not both have loaded 0. -/
  pairs : ∀ i v w, s.loaded i = some v → s.loaded i.other = some w → v = 0 → w ≠ 0
  none : s.reorders = 0

def Inv (s : State) : Prop := Rest s ∨ Work s

namespace Work

/-- A step of thread `i` that leaves what the other one sees. -/
theorem step {m : Memory (Party (Thread)) Var} {c : Pc} (h : Work s)
    (hmain : m.buf .main = []) (hmem : m.mem = s.memory.mem)
    (hbuf : m.buf (.thread i.other) = s.memory.buf (.thread i.other))
    (hstored : Stored ({ s with memory := m }.goto i c) i c)
    (hown : ∀ e ∈ m.buf (.thread i), e = (.store i, 1) ∨ e.1 = .load i)
    (hpairs : ∀ v w, ({ s with memory := m }.goto i c).loaded i = some v →
      s.loaded i.other = some w → ¬ (v = 0 ∧ w = 0)) :
    Work ({ s with memory := m }.goto i c) := by
  have hpc : ∀ j, j ≠ i → Function.update s.pc i c j = s.pc j := fun j hj =>
    Function.update_of_ne hj ..
  have hload : ∀ x, m.load (.thread i.other) x = s.memory.load (.thread i.other) x := by
    intro x
    rw [Memory.load, Memory.load, hmem, hbuf]
  have hother : ({ s with memory := m }.goto i c).loaded i.other = s.loaded i.other := by
    unfold State.loaded
    simp only [State.goto, hpc _ (other_ne i), hload]
  refine ⟨h.main, hmain, forall_thread i ?_ ?_, forall_thread i hown ?_, ?_, h.none⟩
  · show Stored _ i (Function.update s.pc i c i)
    rw [Function.update_self]
    exact hstored
  · show Stored _ i.other (Function.update s.pc i c i.other)
    rw [hpc _ (other_ne i)]
    have hold := h.stored i.other
    cases hc : s.pc i.other with
    | first => rw [hc] at hold; exact hold
    | store => rw [hc] at hold; exact hbuf.trans hold
    | load => rw [hc] at hold; exact (hload _).trans hold
    | save v | second => rw [hc] at hold; exact (congrFun hmem _).trans hold
  · intro e he
    exact h.own i.other e (hbuf ▸ he)
  · refine forall_thread i (fun v w hv hw hv0 hw0 => ?_) (fun v w hv hw hv0 hw0 => ?_)
    · rw [hother] at hw
      exact hpairs v w hv hw ⟨hv0, hw0⟩
    · rw [other_other] at hw
      rw [hother] at hv
      exact hpairs w v hw hv ⟨hw0, hv0⟩

theorem thread (h : Work s) (hfenced : Fenced s (.thread i)) (hn : s.thread i = some t) :
    Work t := by
  have hstored := h.stored i
  unfold State.thread at hn
  cases hpc : s.pc i with
  | first => rw [hpc] at hstored; exact hstored.elim
  | second => rw [hpc] at hn; cases hn
  | store =>
    rw [hpc] at hn hstored
    cases hn
    have hempty : s.memory.buf (.thread i) = [] := hstored
    refine h.step ?_ rfl ?_ (Memory.load_own ..) ?_ ?_
    · rw [Memory.store_buf, Function.update_of_ne (by exact nofun), h.drained]
    · rw [Memory.store_buf, Function.update_of_ne fun he => other_ne i (Party.thread.inj he)]
    · rw [Memory.store_buf, Function.update_self, hempty]
      intro e he
      exact .inl (List.mem_singleton.mp he)
    · intro v w hv
      simp [State.loaded, State.goto] at hv
  | load =>
    rw [hpc] at hn hstored
    cases hn
    have hempty := hfenced hpc
    have hone : s.memory.mem (.store i) = 1 := by
      rw [← Memory.load_drained hempty]
      exact hstored
    refine h.step h.drained rfl rfl hone (h.own i) fun v w hv hw hzero => ?_
    -- the store of the other one, which has loaded, is in memory
    have hv' : s.memory.mem (.store i.other) = v := by
      rw [← Memory.load_drained hempty]
      simpa [State.loaded, State.goto] using hv
    have hrival := h.stored i.other
    cases hc : s.pc i.other with
    | save w' | second =>
      rw [hc] at hrival
      rw [hrival] at hv'
      rw [← hv'] at hzero
      exact absurd hzero.1 (by decide)
    | first | store | load => simp [State.loaded, hc] at hw
  | save v =>
    rw [hpc] at hn hstored
    cases hn
    have hne : ∀ e : Var × Int, e = (.load i, v) → e.1 = .load i := fun e he => congrArg Prod.fst he
    refine h.step ?_ rfl ?_ hstored ?_ ?_
    · rw [Memory.store_buf, Function.update_of_ne (by exact nofun), h.drained]
    · rw [Memory.store_buf, Function.update_of_ne fun he => other_ne i (Party.thread.inj he)]
    · rw [Memory.store_buf, Function.update_self]
      intro e he
      rcases List.mem_append.mp he with he | he
      · exact h.own i e he
      · exact .inr (hne e (List.mem_singleton.mp he))
    · intro v' w hv hw hzero
      have hv' : v' = v := by
        simp only [State.loaded, State.goto, Function.update_self, Option.some.injEq] at hv
        rw [← hv, Memory.load_own]
      exact h.pairs i v w (by simp [State.loaded, hpc]) hw (hv' ▸ hzero.1) hzero.2

/-- Stores of thread `k` come to memory: a thread sees its own variables as before. -/
theorem load_flush (h : Work s) {k : Thread} {m : Memory (Party (Thread)) Var}
    (hm : s.memory.flush (.thread k) = some m) {x : Var} (hx : x = .store i ∨ x = .load i) :
    m.load (.thread i) x = s.memory.load (.thread i) x := by
  by_cases hik : i = k
  · rw [hik]
    exact Memory.load_flush hm x
  · obtain ⟨y, v, rest, hbuf, hmem, hbuf'⟩ := Memory.flush_some hm
    have hown := h.own k (y, v) (by rw [hbuf]; exact List.mem_cons_self)
    have hxy : x ≠ y := by
      rintro rfl
      rcases hown with hown | hown
      · obtain ⟨rfl, -⟩ := Prod.mk.inj hown
        exact hx.elim (fun he => hik (Var.store.inj he).symm) nofun
      · rw [show x = .load k from hown] at hx
        exact hx.elim nofun fun he => hik (Var.load.inj he).symm
    rw [Memory.load, Memory.load, hmem, hbuf', Function.update_of_ne hxy,
      Function.update_of_ne fun he => hik (Party.thread.inj he)]

theorem flush {k : Thread} {m : Memory (Party (Thread)) Var} (h : Work s)
    (hm : s.memory.flush (.thread k) = some m) : Work { s with memory := m } := by
  obtain ⟨x, v, rest, hbuf, hmem, hbuf'⟩ := Memory.flush_some hm
  have hhead := h.own k (x, v) (by rw [hbuf]; exact List.mem_cons_self)
  have hstay : ∀ i, s.memory.mem (.store i) = 1 → m.mem (.store i) = 1 := fun i hi => by
    rw [hmem]
    by_cases hx : Var.store i = x
    · rcases hhead with hhead | hhead
      · rw [hx, Function.update_self]
        exact (Prod.mk.inj hhead).2
      · rw [← hx] at hhead
        cases hhead
    · rw [Function.update_of_ne hx, hi]
  have hloaded : ∀ i, ({ s with memory := m } : State).loaded i = s.loaded i := fun i => by
    unfold State.loaded
    cases hc : s.pc i <;> simp [h.load_flush hm (.inr rfl)]
  refine ⟨h.main, ?_, fun i => ?_, fun i e he => ?_, fun i a b ha hb => ?_, h.none⟩
  · rw [hbuf', Function.update_of_ne (by exact nofun), h.drained]
  · show Stored _ i (s.pc i)
    have hold := h.stored i
    cases hc : s.pc i with
    | first => rw [hc] at hold; exact hold
    | store =>
      rw [hc] at hold
      have hempty : s.memory.buf (.thread i) = [] := hold
      have hik : i ≠ k := fun hik => by
        rw [hik, hbuf] at hempty
        cases hempty
      show m.buf (.thread i) = []
      rw [hbuf', Function.update_of_ne fun he => hik (Party.thread.inj he), hempty]
    | load => rw [hc] at hold; exact (h.load_flush hm (.inl rfl)).trans hold
    | save v | second => rw [hc] at hold; exact hstay i hold
  · rw [hbuf'] at he
    by_cases hik : i = k
    · rw [hik] at he ⊢
      rw [Function.update_self] at he
      exact h.own k e (by rw [hbuf]; exact List.mem_cons_of_mem _ he)
    · rw [Function.update_of_ne fun he => hik (Party.thread.inj he)] at he
      exact h.own i e he
  · rw [hloaded] at ha hb
    exact h.pairs i a b ha hb

end Work

theorem released_of {a b : Pc} (h : a.released = some b) : a = .first ∧ b = .store ∨
    a = .second ∧ b = .first := by
  cases a <;> cases h
  · exact .inl ⟨rfl, rfl⟩
  · exact .inr ⟨rfl, rfl⟩

theorem meet_some (hn : s.meet = some t) : ∃ e, s.main.released = some e ∧
    (∀ p, s.memory.buf p = []) ∧ (∀ i, (s.pc i).released = some (t.pc i)) ∧ t.main = e ∧
    t.memory = s.memory ∧ t.reorders = s.reorders := by
  unfold State.meet at hn
  split at hn
  · rename_i c d e hc hd he
    split at hn
    · rename_i hbuf
      cases hn
      refine ⟨e, he, drained hbuf.2.2 fun i => ?_, fun i => ?_, rfl, rfl, rfl⟩
      · cases i
        · exact hbuf.1
        · exact hbuf.2.1
      · cases i
        · exact hc
        · exact hd
    · cases hn
  · cases hn

/-- The threads have worked: at most one of them has loaded 0. -/
theorem Work.meet (h : Work s) (hn : s.meet = some t) : Rest t := by
  obtain ⟨e, he, hbuf, hpc, hmain, hmem, hre⟩ := meet_some hn
  rw [h.main] at he
  cases he
  have hsecond : ∀ i, s.pc i = .second ∧ t.pc i = .first := fun i => by
    refine (released_of (hpc i)).resolve_left fun ⟨hfirst, _⟩ => ?_
    have hold := h.stored i
    rw [hfirst] at hold
    exact hold
  have hloaded : ∀ i, s.loaded i = some (t.memory.mem (.load i)) := fun i => by
    rw [State.loaded, (hsecond i).1, hmem]
    exact congrArg some (Memory.load_drained (hbuf _) _)
  refine ⟨fun i => (hsecond i).2, fun i => ?_, fun _ => ?_, fun _ hzero => ?_, fun hm => ?_, ?_,
    hre.trans h.none⟩
  · rw [hmem, hbuf]
  · rw [hmem, hbuf]
  · exact h.pairs .th1 _ _ (hloaded .th1) (hloaded .th2) hzero
  · rw [hmain] at hm
    cases hm
  · rw [hmain]
    exact nofun

namespace Rest

theorem meet (h : Rest s) (hn : s.meet = some t) : Work t := by
  obtain ⟨e, he, hbuf, hpc, hmain, hmem, hre⟩ := meet_some hn
  have hfirst : ∀ i, t.pc i = .store := fun i => by
    rcases released_of (hpc i) with ⟨-, hi⟩ | ⟨hi, -⟩
    · exact hi
    · rw [h.first] at hi
      cases hi
  have hmain' : t.main = .second := by
    rw [hmain]
    cases hm : s.main with
    | first => rw [hm] at he; exact (Option.some.inj he).symm
    | second => exact absurd hm h.away
    | clear2 | clear1 | test1 | test2 => rw [hm] at he; cases he
  refine ⟨hmain', ?_, fun i => ?_, fun i e he => ?_, fun i v w hv => ?_, hre.trans h.none⟩
  · rw [hmem, hbuf]
  · rw [hfirst]
    show t.memory.buf _ = []
    rw [hmem, hbuf]
  · rw [hmem, hbuf] at he
    cases he
  · simp [State.loaded, hfirst] at hv

theorem main (h : Rest s) (hn : s.mainStep = some t) : Rest t := by
  have hdrained : ∀ x v i, (s.memory.store .main x v).buf (.thread i) = [] := fun x v i => by
    rw [Memory.store_buf, Function.update_of_ne (by exact nofun), h.drained]
  unfold State.mainStep at hn
  cases hm : s.main with
  | first => rw [hm] at hn; cases hn
  | second => exact absurd hm h.away
  | clear2 | clear1 =>
    rw [hm] at hn
    cases hn
    exact ⟨h.first, hdrained _ _, by simp, nofun, nofun, nofun, h.none⟩
  | test1 =>
    rw [hm] at hn
    cases hn
    have hempty := h.clean (.inr (.inl hm))
    rw [Memory.load_drained hempty]
    refine ⟨h.first, h.drained, fun _ => hempty, fun ht => ?_, fun ht => ?_, ?_, h.none⟩
    · dsimp only at ht
      split at ht <;> cases ht
    · dsimp only at ht
      split at ht
      · exact h.test1 hm ‹_›
      · cases ht
    · dsimp only
      split <;> exact nofun
  | test2 =>
    rw [hm] at hn
    cases hn
    have hempty := h.clean (.inr (.inr hm))
    rw [Memory.load_drained hempty, if_neg (h.test2 hm)]
    exact ⟨h.first, h.drained, fun _ => hempty, nofun, nofun, nofun, h.none⟩

theorem flush {p : Party (Thread)} {m : Memory (Party (Thread)) Var} (h : Rest s)
    (hm : s.memory.flush p = some m) : Rest { s with memory := m } := by
  obtain ⟨x, v, rest, hbuf, hmem, hbuf'⟩ := Memory.flush_some hm
  have hp : p = .main := by
    cases p with
    | main => rfl
    | thread i =>
      rw [h.drained] at hbuf
      cases hbuf
  subst hp
  have hdirty : ¬ (s.main = .clear2 ∨ s.main = .test1 ∨ s.main = .test2) := fun hc => by
    rw [h.clean hc] at hbuf
    cases hbuf
  refine ⟨h.first, fun i => ?_, fun hc => absurd hc hdirty,
    fun hc => absurd (.inr (.inl hc)) hdirty, fun hc => absurd (.inr (.inr hc)) hdirty,
    h.away, h.none⟩
  rw [hbuf', Function.update_of_ne (by exact nofun), h.drained]

end Rest

theorem Inv.step {a : Act} (h : Inv s) (hfenced : Fenced s a) (hn : s.next a = some t) :
    Inv t := by
  rcases h with h | h
  · cases a with
    | thread i =>
      simp only [State.next, State.thread, h.first] at hn
      cases hn
    | main => exact .inl (h.main hn)
    | flush p =>
      obtain ⟨m, hm, rfl⟩ := Option.map_eq_some_iff.mp hn
      exact .inl (h.flush hm)
    | meet => exact .inr (h.meet hn)
  · cases a with
    | thread i => exact .inr (h.thread hfenced hn)
    | main =>
      simp only [State.next, State.mainStep, h.main] at hn
      cases hn
    | flush p =>
      obtain ⟨m, hm, rfl⟩ := Option.map_eq_some_iff.mp hn
      cases p with
      | main =>
        obtain ⟨x, v, rest, hbuf, -⟩ := Memory.flush_some hm
        rw [h.drained] at hbuf
        cases hbuf
      | thread k => exact .inr (h.flush hm)
    | meet => exact .inl (h.meet hn)

theorem Inv.reach (hs : program.ReachIf Fenced s) : Inv s := by
  refine hs.inv (I := Inv) ?_ fun _ _ _ _ hi hC hn => Inv.step hi hC hn
  rintro _ rfl
  exact .inl ⟨fun _ => rfl, fun _ => rfl, fun _ => rfl, nofun, nofun, nofun, rfl⟩

/-- **Any number of the iterations can be reorderings, and with a fence none is.** -/
theorem reorder_counts :
    (∀ n k, (∃ s, program.Reach s ∧ s.iterations = n ∧ s.reorders = k) ↔ k ≤ n) ∧
      ∀ n k, (∃ s, program.ReachIf Fenced s ∧ s.iterations = n ∧ s.reorders = k) ↔ k = 0 := by
  refine ⟨fun n k => ⟨?_, fun hk => ?_⟩, fun n k => ⟨?_, ?_⟩⟩
  · rintro ⟨s, hs, rfl, rfl⟩
    exact Nat.le_trans (Nat.le_add_right ..) (bounded hs)
  · obtain ⟨s, hs, -, hit, hre⟩ := counts hk
    exact ⟨s, hs, hit, hre⟩
  · rintro ⟨s, hs, -, rfl⟩
    exact (Inv.reach hs).elim (·.none) (·.none)
  · rintro rfl
    obtain ⟨s, hs, -, hit, hre⟩ := counts_fenced n
    exact ⟨s, hs, hit, hre⟩

end Ops.Reorder
