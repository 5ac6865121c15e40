import Ops.LastYear.Process

/-!
# What the exit status keeps

`decoded_iff`: `main` decodes what the child has encoded just if `k` is a decimal digit and
the code fits in eight bits. With `k = 10` it never does.
-/

namespace Ops.LastYear

variable {n j k count status : Nat} {s t : State}

/-! ## Statuses -/

@[simp] theorem WIFEXITED_exitStatus (ex : Nat) : WIFEXITED (exitStatus ex) = true := by
  unfold WIFEXITED exitStatus
  rw [beq_iff_eq]
  omega

@[simp] theorem WIFEXITED_stopStatus (sig : Nat) : WIFEXITED (stopStatus sig) = false := by
  unfold WIFEXITED stopStatus
  rw [beq_eq_false_iff_ne]
  omega

@[simp] theorem WEXITSTATUS_exitStatus (ex : Nat) : WEXITSTATUS (exitStatus ex) = ex % 256 := by
  unfold WEXITSTATUS exitStatus
  omega

theorem decode_encode_iff (k count : Nat) :
    decode (exitStatus (encode k count)) = (k, count) ↔ k ≤ 9 ∧ encode k count < 256 := by
  unfold decode encode
  rw [WEXITSTATUS_exitStatus, Prod.mk.injEq]
  constructor
  · rintro ⟨hk, hcount⟩
    omega
  · rintro ⟨hk, hfits⟩
    rw [Nat.mod_eq_of_lt hfits]
    omega

/-! ## Exits -/

/-- An exit that `waitpid` has returned is that of a child that is gone. -/
structure Exits (n : Nat) (s : State) : Prop where
  ahead : ∀ m, s.main.pc = .fork m → m ≤ n ∧ ∀ j < m, s.child j = .unborn
  drawn : ∀ j, (s.child j).drawn = true
  exit : ∀ j status, (j, status) ∈ s.main.reports → WIFEXITED status →
    ∃ k count, s.child j = .reaped k count ∧ status = exitStatus (encode k count)

theorem Exits.start (n : Nat) : Exits n (.start n) where
  ahead m hpc := by
    cases hpc
    exact ⟨Nat.le_refl n, fun _ _ => rfl⟩
  drawn _ := rfl
  exit _ _ hr := by cases hr

/-- Nothing that `Exits` is about changes, behind the last `fork`. -/
theorem Exits.main (h : Exits n s) (hchild : t.child = s.child)
    (hreports : t.main.reports = s.main.reports) (hpc : ∀ m, t.main.pc ≠ .fork m) : Exits n t where
  ahead m hm := absurd hm (hpc m)
  drawn := by rw [hchild]; exact h.drawn
  exit := by rw [hchild, hreports]; exact h.exit

theorem Exits.update {c : ChildPc} (h : Exits n s) (hj : ∀ k count, s.child j ≠ .reaped k count)
    (hc : c.drawn = true) (ht : t.child = Function.update s.child j c)
    (hreports : t.main.reports = s.main.reports)
    (ahead : ∀ m, t.main.pc = .fork m → m ≤ n ∧ ∀ i < m, i ≠ j ∧ s.child i = .unborn) :
    Exits n t where
  ahead m hpc := by
    obtain ⟨hm, hborn⟩ := ahead m hpc
    refine ⟨hm, fun i hi => ?_⟩
    rw [ht, Function.update_of_ne (hborn i hi).1]
    exact (hborn i hi).2
  drawn i := by
    rw [ht, Function.update_apply]
    split
    · exact hc
    · exact h.drawn i
  exit i status hr hx := by
    rw [hreports] at hr
    obtain ⟨k, count, hi, hstatus⟩ := h.exit i status hr hx
    have hij : i ≠ j := by
      rintro rfl
      exact hj k count hi
    exact ⟨k, count, by rw [ht, Function.update_of_ne hij, hi], hstatus⟩

theorem Exits.fork {m : Nat} (h : Exits n s) (hpc : s.main.pc = .fork (m + 1))
    (hmain : t.main = { s.main with pc := .fork m })
    (hchild : t.child = s.child ∨ t.child = Function.update s.child m .sethandler) : Exits n t := by
  obtain ⟨hm, hborn⟩ := h.ahead (m + 1) hpc
  have hahead : ∀ m', t.main.pc = .fork m' →
      m' ≤ n ∧ ∀ i < m', i ≠ m ∧ s.child i = .unborn := by
    intro m' hpc'
    rw [hmain] at hpc'
    cases hpc'
    exact ⟨Nat.le_of_succ_le hm, fun i hi => ⟨Nat.ne_of_lt hi, hborn i (Nat.lt_succ_of_lt hi)⟩⟩
  rcases hchild with hchild | hchild
  · refine ⟨fun m' hpc' => ?_, ?_, ?_⟩
    · obtain ⟨hm', hborn'⟩ := hahead m' hpc'
      rw [hchild]
      exact ⟨hm', fun i hi => (hborn' i hi).2⟩
    · rw [hchild]; exact h.drawn
    · rw [hmain, hchild]; exact h.exit
  · refine h.update ?_ rfl hchild (by rw [hmain]) hahead
    rw [hborn m (Nat.lt_succ_self m)]
    rintro _ _ ⟨⟩

theorem collect_pc {m : Main} {size : Nat} (hpc : m.pc = .wait) (j status : Nat) :
    (m.collect size j status).pc = .wait ∨ (m.collect size j status).pc = .undefined := by
  unfold Main.collect
  dsimp only
  split
  · exact .inl hpc
  · exact .inr rfl

theorem collect_not_fork {m : Main} {size : Nat} (hpc : m.pc = .wait) (j status k : Nat) :
    (m.collect size j status).pc ≠ .fork k := by
  intro h
  rcases collect_pc hpc j status with hw | hw <;> cases hw.symm.trans h

theorem mem_collect {m : Main} {size i i' status status' : Nat}
    (h : (i, status) ∈ (m.collect size i' status').reports) :
    (i, status) ∈ m.reports ∨ i = i' ∧ status = status' := by
  rcases List.mem_append.mp h with h | h
  · exact .inl h
  · cases List.mem_singleton.mp h
    exact .inr ⟨rfl, rfl⟩

theorem Exits.exited (h : Exits n s) (hpc : s.main.pc = .wait) (hc : s.child j = .exited k count)
    (hmain : t.main = s.main.collect n j (exitStatus (encode k count)))
    (hchild : t.child = Function.update s.child j (.reaped k count)) : Exits n t := by
  have hj : ∀ k count, s.child j ≠ .reaped k count := by
    rw [hc]
    rintro _ _ ⟨⟩
  have hk : (ChildPc.reaped k count).drawn = true := by
    have hdrawn := h.drawn j
    rwa [hc] at hdrawn
  -- the reports before this one
  have hold : Exits n { t with main := s.main } := by
    refine h.update hj hk hchild rfl fun m hm => ?_
    cases hpc.symm.trans hm
  refine ⟨fun m hm => ?_, hold.drawn, fun i status hr hx => ?_⟩
  · rw [hmain] at hm
    exact (collect_not_fork hpc _ _ m hm).elim
  · rw [hmain] at hr
    rcases mem_collect hr with hr | ⟨rfl, rfl⟩
    · exact hold.exit i status hr hx
    · exact ⟨k, count, by rw [hchild, Function.update_self], rfl⟩

theorem Exits.stopped {sig : Nat} (h : Exits n s) (hpc : s.main.pc = .wait)
    (hmain : t.main = s.main.collect n j (stopStatus sig)) (hchild : t.child = s.child) :
    Exits n t where
  ahead m hm := by
    rw [hmain] at hm
    exact (collect_not_fork hpc _ _ m hm).elim
  drawn := by rw [hchild]; exact h.drawn
  exit i status hr hx := by
    rw [hmain] at hr
    rcases mem_collect hr with hr | ⟨rfl, rfl⟩
    · rw [hchild]
      exact h.exit i status hr hx
    · rw [WIFEXITED_stopStatus] at hx
      cases hx

theorem Exits.change (h : Exits n s) (hn : Change n s t) : Exits n t := by
  cases hn with
  | quiet hmain hchild =>
    refine ⟨?_, ?_, ?_⟩
    · rw [hmain, hchild]; exact h.ahead
    · rw [hchild]; exact h.drawn
    · rw [hmain, hchild]; exact h.exit
  | work j c halive _ hdrawn hmain hchild =>
    refine h.update (fun k count hc => ?_) (hdrawn (h.drawn j)) hchild (by rw [hmain])
      fun m hpc => ?_
    · rw [hc] at halive
      cases halive
    · rw [hmain] at hpc
      obtain ⟨hm, hborn⟩ := h.ahead m hpc
      refine ⟨hm, fun i hi => ⟨?_, hborn i hi⟩⟩
      rintro rfl
      rw [hborn i hi] at halive
      cases halive
  | fork m hpc hmain hchild => exact h.fork hpc hmain hchild
  | forked _ hmain hchild | ended _ _ hmain hchild =>
    refine h.main hchild (by rw [hmain]) fun m => ?_
    rw [hmain]
    exact nofun
  | exit j k count hpc hc hmain hchild => exact h.exited hpc hc hmain hchild
  | stop j sig hpc _ hmain hchild => exact h.stopped hpc hmain hchild

theorem Exits.exec {as : List Act} (he : (program n).exec (.start n) as = some s) : Exits n s :=
  LTS.exec_inv (fun _ _ _ h hn => h.change (next_change hn)) (Exits.start n) he

/-- **What `main` decodes** from the exit status of a child is what the child has encoded if
and only if `k` is at most 9 and the code fits in eight bits. -/
theorem decoded_iff (n : Nat) (as : List Act) (he : (program n).exec (.start n) as = some s)
    (hr : (j, status) ∈ s.main.reports) (hx : WIFEXITED status) :
    ∃ k count, s.child j = .reaped k count ∧ k ≤ 10 ∧
      (decode status = (k, count) ↔ k ≤ 9 ∧ encode k count < 256) := by
  have h := Exits.exec he
  obtain ⟨k, count, hc, rfl⟩ := h.exit j status hr hx
  have hk := h.drawn j
  rw [hc] at hk
  exact ⟨k, count, hc, of_decide_eq_true hk, decode_encode_iff k count⟩

/-- One child that draws `k` and handles each of its own signals. -/
def alone (k : Nat) : List Act :=
  [.fork false, .fork false, .child 0 0, .child 0 k] ++
    (List.replicate k [.child 0 0, .deliver 0, .child 0 0, .child 0 0, .child 0 0,
      .child 0 0]).flatten ++
    [.child 0 0, .waitpid (some 0)]

theorem decoded_iff_three :
    ∃ t, (program 1).exec (.start 1) (alone 3) = some t ∧ ∃ k count, t.child 0 = .reaped k count ∧
      k ≤ 10 ∧ (decode (exitStatus 33) = (k, count) ↔ k ≤ 9 ∧ encode k count < 256) :=
  ⟨_, rfl, decoded_iff 1 (alone 3) rfl (List.mem_singleton_self (0, exitStatus 33)) rfl⟩

/-- With `k = 10`, `main` takes the ten for a further signal. -/
theorem ten_not_decoded :
    ∃ t, (program 1).exec (.start 1) (alone 10) = some t ∧ t.child 0 = .reaped 10 10 ∧
      t.main.reports = [(0, exitStatus 110)] ∧ decode (exitStatus 110) = (0, 11) :=
  ⟨_, rfl, rfl, rfl, rfl⟩

end Ops.LastYear
