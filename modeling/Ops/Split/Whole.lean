import Ops.Split.Claims

/-!
# When the chunks make up the file

The file is covered when `chunk` divides its size. A size below `m` makes `chunk` 0, a
remainder is never claimed, and `next_chunk` overflows from 2^31 chunks on.
-/

namespace Ops.Split

open Posix (Locks)

variable {n size chunk m : Nat} {s t : State n} {p : Fin n}

/-- No undefined step, disjoint ranges inside the file, and every byte in one range when all
threads have left their loops. -/
structure Covers (size chunk : Nat) (s : State n) : Prop where
  defined : s.phase ≠ .undefined
  disjoint : s.claimed.Pairwise fun x y => x + chunk ≤ y ∨ y + chunk ≤ x
  inside : ∀ x ∈ s.claimed, x + chunk ≤ size
  covered : (∀ q, s.pc q = .done) → ∀ b, b < size →
    s.claimed.countP (fun x => x ≤ b ∧ b < x + chunk) = 1

/-- What the chunks of a file have to meet. -/
structure Fair (size m : Nat) : Prop where
  few : m ≤ size
  exact : size / m ∣ size
  small : size / (size / m) < 2 ^ 31

/-! ## The condition is enough -/

theorem defined_step {act : Act n} (hinv : Inv size (size / m) s) (hchunk : size / m ≠ 0)
    (hsmall : size / (size / m) < 2 ^ 31) (h : s.phase ≠ .undefined)
    (hn : s.next size m act = some t) : t.phase ≠ .undefined := by
  unfold State.next at hn
  split at hn
  · split at hn
    · cases hn
      exact h
    · cases hn
  · rename_i p ok _
    unfold State.thread_work at hn
    cases hpc : s.pc p with
    | off | done | failed => simp [hpc] at hn
    | malloc | start | pread chunk_start | errorStore line =>
      simp only [hpc, Option.some.injEq] at hn
      subst hn
      exact h
    | lock | unlock chunk_start | leave | errorLock line | errorUnlock =>
      simp only [hpc] at hn
      obtain ⟨l, hl, rfl⟩ := Option.map_eq_some_iff.mp hn
      exact h
    | test =>
      simp only [hpc, if_neg hchunk, Option.some.injEq] at hn
      subst hn
      exact h
    | increment chunk_start =>
      obtain ⟨hlt, -⟩ :
          s.next_chunk < size / (size / m) ∧ chunk_start = s.next_chunk * (size / m) := by
        simpa [hpc, Pc.Fits] using hinv.fits p
      simp only [hpc, if_pos (show s.next_chunk + 1 < 2 ^ 31 by omega), Option.some.injEq] at hn
      subst hn
      exact h
    | node chunk_start =>
      simp only [hpc] at hn
      split at hn
      · cases hn
        exact h
      · cases hn
        simp
  · cases hn

theorem Fair.covers (h : Fair size m) (hm : 1 ≤ m) (hn : 1 ≤ n)
    (hs : (splitter size m n).Reach s) : Covers size (size / m) s := by
  have hinv := Inv.reach hs
  have hchunk : size / m ≠ 0 := Nat.ne_of_gt (Nat.div_pos h.few hm)
  have hexact : size / (size / m) * (size / m) = size := Nat.div_mul_cancel h.exact
  refine ⟨?_, hinv.disjoint, fun x hx => ?_, fun hall b hb => ?_⟩
  · refine hs.inv (I := fun s => s.phase ≠ .undefined) ?_ fun s act t hr hi hstep =>
      defined_step (.reach hr) hchunk h.small hi hstep
    rintro _ rfl
    nofun
  · exact (hinv.inside hx).trans_eq hexact
  · exact hinv.covered (hall ⟨0, hn⟩) (by rw [hexact]; exact hb)

/-! ## Runs in which nothing fails -/

/-- All threads are before their next claim, with `k` chunks claimed. -/
structure Calm (size m k : Nat) (s : State n) : Prop where
  reach : (splitter size m n).Reach s
  running : s.phase = .running
  locks : ∀ q, s.pc q = .lock
  free : s.locks = fun _ => none
  next_chunk : s.next_chunk = k

theorem created (size m k : Nat) (hk : k ≤ n) : ∃ s : State n, (splitter size m n).Reach s ∧
    s.phase = .running ∧ s.created = k ∧ (∀ q : Fin n, q < k → s.pc q = .lock) ∧
    (s.locks = fun _ => none) ∧ s.next_chunk = 0 := by
  induction k with
  | zero => exact ⟨start n, .init rfl, rfl, rfl, by simp, rfl, rfl⟩
  | succ k ih =>
    obtain ⟨s, hs, hrun, hcreated, hlock, hfree, hnext⟩ := ih (by omega)
    have hlt : s.created < n := by omega
    obtain ⟨t, he, hrun', hcreated', hpcs, hfree', hnext'⟩ : ∃ t, (splitter size m n).exec s
        [.create, .thread ⟨s.created, hlt⟩ true] = some t ∧ t.phase = .running ∧
        t.created = s.created + 1 ∧ t.pc = Function.update s.pc ⟨s.created, hlt⟩ .lock ∧
        t.locks = s.locks ∧ t.next_chunk = s.next_chunk := by
      simp [LTS.exec, splitter, State.next, hrun, hlt, State.thread_work, State.goto]
    refine ⟨t, hs.exec he, hrun', by omega, fun q hq => ?_, hfree'.trans hfree, by omega⟩
    rw [hpcs]
    by_cases hqk : q = ⟨s.created, hlt⟩
    · simp [hqk]
    · have hne : q.val ≠ s.created := fun he => hqk (Fin.ext he)
      simpa [hqk] using hlock q (by omega)

theorem Calm.claim {k : Nat} (h : Calm size m k s) (p : Fin n) (hk : k < size / (size / m))
    (hint : k + 1 < 2 ^ 31) : ∃ t : State n, Calm size m (k + 1) t := by
  have hpc := h.locks p
  have hchunk : size / m ≠ 0 := fun hzero => by simp [hzero] at hk
  have hmore : ¬ size / (size / m) ≤ k := by omega
  have hint' : k + 1 < 2147483648 := hint
  obtain ⟨u, hu, hrun, hpcs, hheld, hnext⟩ : ∃ u,
      (splitter size m n).exec s (List.replicate 4 (.thread p true)) = some u ∧
      u.phase = .running ∧ u.pc = Function.update s.pc p (.unlock (k * (size / m))) ∧
      u.locks = Function.update (fun _ => none) () (some p) ∧ u.next_chunk = k + 1 := by
    simp [LTS.exec, splitter, State.next, h.running, State.thread_work, State.lock, State.goto,
      hpc, h.free, h.next_chunk, hchunk, hmore, hint', Locks.lock]
  have hat : u.pc p = .unlock (k * (size / m)) := by simp [hpcs]
  obtain ⟨t, ht, hrun', hpcs', hfree, hnext'⟩ : ∃ t,
      (splitter size m n).exec u (List.replicate 3 (.thread p true)) = some t ∧
      t.phase = .running ∧ t.pc = Function.update u.pc p .lock ∧ (t.locks = fun _ => none) ∧
      t.next_chunk = u.next_chunk := by
    simp [LTS.exec, splitter, State.next, hrun, State.thread_work, State.unlock, State.goto, hat,
      hheld, Locks.unlock]
  refine ⟨t, (h.reach.exec hu).exec ht, hrun', fun q => ?_, hfree, hnext'.trans hnext⟩
  rw [hpcs', hpcs, Function.update_idem]
  exact update_keeps (P := fun c : Pc => c = .lock) (h.locks q) fun _ => rfl

theorem calm (size m : Nat) (hn : 1 ≤ n) {k : Nat} (hk : k ≤ size / (size / m)) (hint : k < 2 ^ 31) :
    ∃ s : State n, Calm size m k s := by
  induction k with
  | zero =>
    obtain ⟨s, hs, hrun, -, hlock, hfree, hnext⟩ :=
      created size m n (Nat.le_refl n)
    exact ⟨s, hs, hrun, fun q => hlock q q.isLt, hfree, hnext⟩
  | succ k ih =>
    obtain ⟨s, hs⟩ := ih (by omega) (by omega)
    exact hs.claim ⟨0, hn⟩ (by omega) hint

theorem leaves (hr : (splitter size m n).Reach s) (hrun : s.phase = .running)
    (hpc : s.pc p = .lock) (hfree : s.locks = fun _ => none) (hchunk : size / m ≠ 0)
    (hnext : size / (size / m) ≤ s.next_chunk) :
    (splitter size m n).Reach (s.goto p .done) := by
  have he : (splitter size m n).exec s (List.replicate 3 (.thread p true)) =
      some (s.goto p .done) := by
    simp [LTS.exec, splitter, State.next, hrun, State.thread_work, State.lock, State.unlock,
      State.goto, hpc, hfree, hnext, hchunk, Locks.lock, Locks.unlock]
  exact hr.exec he

theorem all_leave (h : Calm size m (size / (size / m)) s) (hchunk : size / m ≠ 0)
    (ps : List (Fin n)) (hps : ps.Nodup) : ∃ t, (splitter size m n).Reach t ∧
      t.phase = .running ∧ (∀ q, q ∈ ps → t.pc q = .done) ∧ (∀ q, q ∉ ps → t.pc q = .lock) ∧
      (t.locks = fun _ => none) ∧ t.next_chunk = size / (size / m) := by
  induction ps with
  | nil => exact ⟨s, h.reach, h.running, by simp, fun q _ => h.locks q, h.free, h.next_chunk⟩
  | cons p ps ih =>
    obtain ⟨hp, hrest⟩ := List.nodup_cons.mp hps
    obtain ⟨t, ht, hrun, hdone, hlock, hfree, hnext⟩ := ih hrest
    refine ⟨t.goto p .done, leaves ht hrun (hlock p hp) hfree hchunk hnext.ge, hrun,
      fun q hq => ?_, fun q hq => ?_, hfree, hnext⟩
    · by_cases hqp : q = p
      · simp [State.goto, hqp]
      · rw [List.mem_cons] at hq
        simpa [State.goto, hqp] using hdone q (hq.resolve_left hqp)
    · rw [List.mem_cons, not_or] at hq
      simpa [State.goto, hq.1] using hlock q hq.2

/-! ## The condition is needed -/

theorem divides_by_zero (hn : 1 ≤ n) (hchunk : size / m = 0) :
    ∃ s : State n, (splitter size m n).Reach s ∧ s.phase = .undefined := by
  obtain ⟨s, hs⟩ := calm size m hn (Nat.zero_le _) (by decide)
  have hpc := hs.locks ⟨0, hn⟩
  obtain ⟨t, he, hphase⟩ : ∃ t,
      (splitter size m n).exec s (List.replicate 2 (.thread ⟨0, hn⟩ true)) = some t ∧
      t.phase = .undefined := by
    simp [LTS.exec, splitter, State.next, hs.running, State.thread_work, State.lock, State.goto,
      hpc, hs.free, hchunk, Locks.lock]
  exact ⟨t, hs.reach.exec he, hphase⟩

theorem overflows (hn : 1 ≤ n) (hlarge : 2 ^ 31 ≤ size / (size / m)) :
    ∃ s : State n, (splitter size m n).Reach s ∧ s.phase = .undefined := by
  obtain ⟨s, hs⟩ := calm size m (k := 2 ^ 31 - 1) hn (by omega) (by decide)
  have hpc := hs.locks ⟨0, hn⟩
  have hchunk : size / m ≠ 0 := fun hzero => by simp [hzero] at hlarge
  have hmore : ¬ size / (size / m) ≤ 2147483647 := by omega
  have hnext : s.next_chunk = 2147483647 := hs.next_chunk
  obtain ⟨t, he, hphase⟩ : ∃ t,
      (splitter size m n).exec s (List.replicate 4 (.thread ⟨0, hn⟩ true)) = some t ∧
      t.phase = .undefined := by
    simp [LTS.exec, splitter, State.next, hs.running, State.thread_work, State.lock, State.goto,
      hpc, hs.free, hnext, hchunk, hmore, Locks.lock]
  exact ⟨t, hs.reach.exec he, hphase⟩

/-- A remainder is in no range, also when all threads have left their loops. -/
theorem remainder_lost (hn : 1 ≤ n) (hchunk : size / m ≠ 0)
    (hsmall : size / (size / m) < 2 ^ 31) : ∃ s : State n, (splitter size m n).Reach s ∧
      (∀ q, s.pc q = .done) ∧ ∀ x ∈ s.claimed, x + size / m ≤ size / (size / m) * (size / m) := by
  obtain ⟨s, hs⟩ := calm size m hn (Nat.le_refl _) hsmall
  obtain ⟨t, ht, -, hdone, -⟩ := all_leave hs hchunk (List.finRange n) (List.nodup_finRange n)
  exact ⟨t, ht, fun q => hdone q (List.mem_finRange q), fun x hx => (Inv.reach ht).inside hx⟩

theorem Fair.of_covers (hn : 1 ≤ n)
    (hall : ∀ s : State n, (splitter size m n).Reach s → Covers size (size / m) s) :
    Fair size m := by
  have hchunk : size / m ≠ 0 := fun hzero => by
    obtain ⟨s, hs, hphase⟩ := divides_by_zero hn hzero
    exact (hall s hs).defined hphase
  have hsmall : size / (size / m) < 2 ^ 31 := by
    by_contra hlarge
    obtain ⟨s, hs, hphase⟩ := overflows hn (Nat.not_lt.mp hlarge)
    exact (hall s hs).defined hphase
  refine ⟨?_, ?_, hsmall⟩
  · by_contra hlt
    exact hchunk (Nat.div_eq_of_lt (Nat.not_le.mp hlt))
  · -- the byte after the last whole chunk would be in a range
    obtain ⟨s, hs, hdone, hinside⟩ := remainder_lost hn hchunk hsmall
    have hle : size / (size / m) * (size / m) ≤ size := Nat.div_mul_le_self _ _
    by_contra hrest
    have hlt : size / (size / m) * (size / m) < size :=
      Nat.lt_of_le_of_ne hle fun he => hrest ⟨_, he.symm.trans (Nat.mul_comm _ _)⟩
    have hone := (hall s hs).covered hdone _ hlt
    have hzero : s.claimed.countP (fun x => x ≤ size / (size / m) * (size / m) ∧
        size / (size / m) * (size / m) < x + size / m) = 0 := by
      refine List.countP_eq_zero.mpr fun x hx => ?_
      have hx' := hinside x hx
      simp only [decide_eq_true_eq]
      omega
    omega

/-- **The chunks cover the file**, in every run for a size, `m` and a number of threads: exactly
when `m` is not above the size, `chunk` divides the size, and `next_chunk` does not overflow. The
claimed ranges are disjoint and inside the file for every size and `m`. -/
theorem covers_iff (hn : 1 ≤ n) (hm : 1 ≤ m) :
    (∀ s : State n, (splitter size m n).Reach s →
      (s.claimed.Pairwise fun x y => x + size / m ≤ y ∨ y + size / m ≤ x) ∧
      ∀ x ∈ s.claimed, x + size / m ≤ size) ∧
    ((∀ s : State n, (splitter size m n).Reach s → Covers size (size / m) s) ↔ Fair size m) :=
  ⟨fun _ hs => ⟨(Inv.reach hs).disjoint, fun _ hx =>
      ((Inv.reach hs).inside hx).trans (Nat.div_mul_le_self _ _)⟩,
    Fair.of_covers hn, fun h _ hs => h.covers hm hn hs⟩

/-- Four bytes in two chunks, claimed by two threads. -/
theorem covers_iff_four : ∃ s, (splitter 4 2 2).Reach s ∧ s.claimed = [0, 2] ∧
    s.claimed.countP (fun x => x ≤ 3 ∧ 3 < x + 2) = 1 := by
  have hrun : ((splitter 4 2 2).exec (start 2) ([Act.create, .create, .thread 0 true,
      .thread 1 true] ++ List.replicate 7 (Act.thread 0 true) ++
      List.replicate 7 (Act.thread 1 true) ++ List.replicate 3 (Act.thread 0 true) ++
      List.replicate 3 (Act.thread 1 true))).map
      (fun s => ((s.pc 0, s.pc 1), s.claimed)) = some ((.done, .done), [0, 2]) := by decide
  obtain ⟨s, hs, heq⟩ := Option.map_eq_some_iff.mp hrun
  simp only [Prod.mk.injEq] at heq
  obtain ⟨⟨h0, h1⟩, hclaimed⟩ := heq
  have hreach : (splitter 4 2 2).Reach s := LTS.Reach.exec (.init rfl) hs
  have hdone : ∀ q, s.pc q = .done := fun q => by
    match q with
    | 0 => exact h0
    | 1 => exact h1
  have hfair : Fair 4 2 := ⟨by decide, by decide, by decide⟩
  exact ⟨s, hreach, hclaimed,
    ((covers_iff (by decide) (by decide)).2.mpr hfair s hreach).covered hdone 3 (by decide)⟩

/-- Five bytes and `m` = 2: the only thread reads bytes 0 to 3 and leaves its loop. -/
theorem last_byte_lost : ∃ s, (splitter 5 2 1).Reach s ∧ (∀ q, s.pc q = .done) ∧
    s.claimed = [0, 2] ∧ ¬ Covers 5 (5 / 2) s := by
  have hrun : ((splitter 5 2 1).exec (start 1) (.create :: List.replicate 18 (.thread 0 true))).map
      (fun s => (s.pc 0, s.claimed)) = some (.done, [0, 2]) := by decide
  obtain ⟨s, hs, heq⟩ := Option.map_eq_some_iff.mp hrun
  simp only [Prod.mk.injEq] at heq
  have hdone : ∀ q, s.pc q = .done := fun q => by
    rw [Subsingleton.elim q 0]
    exact heq.1
  have hreach : (splitter 5 2 1).Reach s := LTS.Reach.exec (.init rfl) hs
  refine ⟨s, hreach, hdone, heq.2, fun hcovers => ?_⟩
  have hone := hcovers.covered hdone 4 (by decide)
  rw [heq.2] at hone
  revert hone
  decide

end Ops.Split
