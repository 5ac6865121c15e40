import Ops.Shm.Exclusive

/-!
# What becomes of the semaphore

A process that leaves `mem_init` or `finish` has given back the semaphore it took,
unless it took one of the exits that do not post (`given_back_iff`). The runs are
of any processes, from any state; the value is compared with the one before, less
what the others did with the semaphore meanwhile.
-/

namespace Ops.Shm

variable {π F : Type} [DecidableEq π] {s t : State π F} {act : Act π} {p : π} {x : Nat}

/-- 1 if a process has taken `x` and not posted it. -/
def Pc.hold (x : Nat) (c : Pc) : Int := if c.holds = some x then 1 else 0

variable [Zero F] [BEq F] {args : π → Args F}

theorem abandons_next (ha : Abandons args s act) (h : s.next args act = some t) :
    t = s.goto act.proc .exited := by
  unfold Abandons at ha
  split at ha <;> first
    | cases ha; done
    | rename_i hpc hout
      simp only [State.next, hpc, hout, ha, if_true, Option.some.injEq] at h
      exact h.symm

theorem next_other {q : π} (h : s.next args act = some t) (hq : q ≠ act.proc) : t.pc q = s.pc q := by
  cases next_effect h with
  | move hpc _ _ _ _ _ _ => rw [hpc, Function.update_of_ne hq]
  | abandoned _ | opened _ _ | taken _ _ _ _ _ _ | posted _ _ _ _ _ | created _ _ _ _
  | reopened _ _ | published _ _ | joined _ _ => exact Function.update_of_ne hq ..

theorem sems_le (h : s.next args act = some t) : s.sems ≤ t.sems := by
  cases next_effect h with
  | move _ _ _ _ hsems _ _ => exact Nat.le_of_eq hsems.symm
  | opened _ _ => exact Nat.le_succ _
  | abandoned _ | taken _ _ _ _ _ _ | posted _ _ _ _ _ | created _ _ _ _ | reopened _ _
  | published _ _ | joined _ _ => exact Nat.le_refl _

/-- A step that is no such exit moves `x` between the process and the value. -/
theorem hold_next (h : s.next args act = some t) (hx : x < s.sems)
    (ha : (s.pc act.proc).holds = some x → ¬ Abandons args s act) :
    t.sem x + (t.pc act.proc).hold x = s.sem x + (s.pc act.proc).hold x := by
  have hsame : ∀ {c : Pc}, t.pc = Function.update s.pc act.proc c →
      c.holds = (s.pc act.proc).holds → t.sem x = s.sem x →
      t.sem x + (t.pc act.proc).hold x = s.sem x + (s.pc act.proc).hold x := by
    intro c hpc hholds hsem
    rw [hpc, Function.update_self, hsem, Pc.hold, Pc.hold, hholds]
  cases next_effect h with
  | move hpc hstill _ hsem _ _ _ => exact hsame hpc hstill.holds (by rw [hsem])
  | abandoned hab =>
    have hnot : (s.pc act.proc).holds ≠ some x := fun hh => ha hh hab
    rw [State.goto_self, Pc.hold, Pc.hold, if_neg hnot]
    rfl
  | opened hpc _ =>
    refine hsame rfl (by rw [hpc]; rfl) ?_
    exact Function.update_of_ne (Nat.ne_of_lt hx) ..
  | @taken y _ c hpc _ hpos hholds _ _ =>
    rw [State.goto_self, hpc]
    by_cases hxy : x = y
    · subst hxy
      have hsem : ((s.setSem x (s.sem x - 1)).goto act.proc c).sem x = s.sem x - 1 :=
        Function.update_self ..
      rw [hsem, Pc.hold, if_pos hholds]
      simp only [Pc.hold, Pc.holds, Pc.inside, reduceCtorEq, if_false]
      omega
    · have hsem : ((s.setSem y (s.sem y - 1)).goto act.proc c).sem x = s.sem x :=
        Function.update_of_ne hxy ..
      rw [hsem, Pc.hold, hholds, if_neg (by simp only [Option.some.injEq]; exact Ne.symm hxy)]
      rfl
  | @posted y c hheld hholds _ _ _ =>
    rw [State.goto_self, Pc.hold, Pc.hold, hheld, hholds]
    by_cases hxy : x = y
    · subst hxy
      have hsem : ((s.post x).goto act.proc c).sem x = s.sem x + 1 := Function.update_self ..
      rw [hsem]
      simp only [reduceCtorEq, if_false, if_true]
      omega
    · have hsem : ((s.post y).goto act.proc c).sem x = s.sem x := Function.update_of_ne hxy ..
      rw [hsem, if_neg (by simp), if_neg (by simp only [Option.some.injEq]; exact Ne.symm hxy)]
  | created hpc _ _ _ | reopened hpc _ | published hpc _ | joined hpc _ =>
    exact hsame rfl (by rw [hpc]; rfl) rfl

/-! ## Runs -/

/-- What the steps of the other processes add to the value of `x`. -/
def others (args : π → Args F) (p : π) (x : Nat) (s : State π F) : List (Act π) → Int
  | [] => 0
  | act :: as =>
    match s.next args act with
    | none => 0
    | some t => (if act.proc = p then 0 else (t.sem x : Int) - s.sem x) + others args p x t as

/-- The process does not leave without posting `x` in the step. -/
def Posts (args : π → Args F) (p : π) (x : Nat) (s : State π F) (act : Act π) : Prop :=
  act.proc = p → (s.pc p).holds = some x → ¬ Abandons args s act

theorem exited_along {as : List (Act π)} (hp : s.pc p = .exited) :
    (processes args).Along (Posts args p x) s as := by
  induction as generalizing s with
  | nil => trivial
  | cons act as ih =>
    refine ⟨fun _ hholds => ?_, fun t hn => ih ?_⟩
    · rw [hp] at hholds; cases hholds
    · by_cases ha : act.proc = p
      · subst ha
        simp only [processes, State.next, hp] at hn
        cases hn
      · rw [next_other hn (Ne.symm ha), hp]

/-- The value that a run leaves, with the semaphore that the process may hold at its start. -/
theorem balance {as : List (Act π)} (he : (processes args).exec s as = some t) (hx : x < s.sems)
    (ht : (t.pc p).holds ≠ some x) :
    (t.sem x : Int) = s.sem x + (s.pc p).hold x + others args p x s as ↔
      (processes args).Along (Posts args p x) s as := by
  induction as generalizing s with
  | nil =>
    cases he
    rw [Pc.hold, if_neg ht, others, Int.add_zero, Int.add_zero]
    exact ⟨fun _ => trivial, fun _ => rfl⟩
  | cons act as ih =>
    obtain ⟨u, hn, he⟩ := LTS.exec_cons_some.mp he
    have hih := ih he (Nat.lt_of_lt_of_le hx (sems_le hn))
    have hothers : others args p x s (act :: as) =
        (if act.proc = p then 0 else (u.sem x : Int) - s.sem x) + others args p x u as := by
      have hn' : s.next args act = some u := hn
      rw [others, hn']
    rw [hothers, LTS.along_cons hn]
    by_cases hp : act.proc = p
    · subst hp
      rw [if_pos rfl, Int.zero_add]
      by_cases hposts : Posts args act.proc x s act
      · have hhold := hold_next hn hx (hposts rfl)
        rw [← hhold, hih]
        exact ⟨fun h => ⟨hposts, h⟩, fun h => h.2⟩
      · -- the exit keeps the semaphore, and the process does nothing any more
        simp only [Posts, forall_const, not_forall, not_not] at hposts
        obtain ⟨hholds, hab⟩ := hposts
        have hu := abandons_next hab hn
        have hpc : u.pc act.proc = .exited := by rw [hu, State.goto_self]
        have hvalue := hih.mpr (exited_along hpc)
        have hsem : u.sem x = s.sem x := by rw [hu]; rfl
        have hone : (s.pc act.proc).hold x = 1 := by rw [Pc.hold, if_pos hholds]
        have hzero : (u.pc act.proc).hold x = 0 := by rw [hpc]; rfl
        rw [hsem, hzero] at hvalue
        refine ⟨fun h => ?_, fun h => absurd hab (h.1 rfl hholds)⟩
        rw [hone] at h
        omega
    · have hpc := next_other hn (Ne.symm hp)
      have hposts : Posts args p x s act := fun h => absurd h hp
      rw [if_neg hp, ← hpc]
      refine ⟨fun h => ⟨hposts, hih.mp (by omega)⟩, fun h => ?_⟩
      have hvalue := hih.mpr h.2
      omega

/-- **The semaphore is given back**, unless the process leaves by one of the exits that do
not post: the value is again the one before, with what the other processes did to it. -/
theorem given_back_iff {as : List (Act π)} (he : (processes args).exec s as = some t)
    (hx : x < s.sems) (hs : (s.pc p).holds ≠ some x) (ht : (t.pc p).holds ≠ some x) :
    (t.sem x : Int) = s.sem x + others args p x s as ↔
      (processes args).Along (Posts args p x) s as := by
  have hzero : (s.pc p).hold x = 0 := if_neg hs
  have hbalance := balance he hx ht
  rwa [hzero, Int.add_zero] at hbalance

/-- The creator takes the semaphore of a fresh system and posts it. -/
theorem given_back_created : ∃ s t : State Bool Int,
    (processes fun _ => defaults).exec s (succeeds true 12) = some t ∧
      ((t.sem 0 : Int) = s.sem 0 + others (fun _ => defaults) true 0 s (succeeds true 12) ↔
        (processes fun _ => defaults).Along (Posts (fun _ => defaults) true 0) s
          (succeeds true 12)) := by
  have hrun : ((processes fun _ => defaults).exec (fresh Bool) (succeeds true 2)).bind (fun s =>
      ((processes fun _ => defaults).exec s (succeeds true 12)).map
        fun t => (s.sems, (s.pc true).holds, (t.pc true).holds)) = some (1, none, none) := by
    decide +kernel
  obtain ⟨s, -, hs⟩ := Option.bind_eq_some_iff.mp hrun
  obtain ⟨t, ht, heq⟩ := Option.map_eq_some_iff.mp hs
  simp only [Prod.mk.injEq] at heq
  obtain ⟨hsems, hs0, ht0⟩ := heq
  exact ⟨s, t, ht, given_back_iff ht (hsems ▸ Nat.one_pos) (by rw [hs0]; exact nofun)
    (by rw [ht0]; exact nofun)⟩

/-- **The semaphore is not given back** by a process that finds an object with another
range: the value is 1 before it takes the semaphore and 0 when it has exited. -/
theorem range_kept : ∃ s t : State Bool Int,
    (processes fun p => if p then defaults else { defaults with b := 2 }).Reach s ∧
      (processes fun p => if p then defaults else { defaults with b := 2 }).exec s
        (succeeds false 5) = some t ∧
      t.pc false = .exited ∧ s.sem 0 = 1 ∧ t.sem 0 = 0 ∧
      others (fun p => if p then defaults else { defaults with b := 2 }) false 0 s
        (succeeds false 5) = 0 := by
  have hrun : ((processes fun p => if p then defaults else { defaults with b := 2 }).exec
      (fresh Bool) (succeeds true 14 ++ succeeds false 2)).bind (fun s =>
        ((processes fun p => if p then defaults else { defaults with b := 2 }).exec s
          (succeeds false 5)).map fun t =>
            (t.pc false, s.sem 0, t.sem 0,
              others (fun p => if p then defaults else { defaults with b := 2 }) false 0 s
                (succeeds false 5))) = some (.exited, 1, 0, 0) := by decide +kernel
  obtain ⟨s, hs, hrest⟩ := Option.bind_eq_some_iff.mp hrun
  obtain ⟨t, ht, heq⟩ := Option.map_eq_some_iff.mp hrest
  simp only [Prod.mk.injEq] at heq
  exact ⟨s, t, LTS.Reach.exec (.init fresh_start) hs, ht, heq⟩

end Ops.Shm
