import Ops.Posix.Deadlock
import Ops.Reverse.Locking

/-!
# Who waits for whom

A printing thread locks upwards and `mainWork` locks the smaller index of its pair
first, so no chain of waiting threads is closed and every run can be completed; except
that `mainWork` waits for itself when it draws one index twice.
-/

namespace Ops.Reverse

open Posix (Party Locks)

def Pc.waits (n : Nat) : Pc → Option Nat
  | .lock i => if i < n then some i else none
  | _ => none

def MainPc.waits : MainPc → Option Nat
  | .lockA a _ => some a
  | .lockB _ b => some b
  | _ => none

/-- The mutex that a thread is about to lock. -/
def State.waits (n : Nat) (s : State) : Party Nat → Option Nat
  | .main => s.main.waits
  | .thread k => (s.pc k).waits n

/-- `mainWork` has to lock one mutex twice. -/
def MainPc.Stuck (c : MainPc) : Prop := ∃ a, c = .lockA a a ∨ c = .lockB a a

def DistinctDraw (n : Nat) (s : State) : Act → Prop
  | .main r r' => s.main = .draw → r' % (n - r % (n - 1)) ≠ 0
  | _ => True

/-- `main` waits in `sigsuspend`, no signal is pending, and every printing thread has ended. A flag
of a signal that came together with another one may still be set. -/
structure Idle (s : State) : Prop where
  main : s.main = .suspend
  pending1 : s.pending1 = false
  pending2 : s.pending2 = false
  threads : ∀ k, s.pc k = .off ∨ s.pc k = .done

/-- Without another signal, all that is begun can be completed. -/
def Completes (n : Nat) (s : State) : Prop :=
  ∃ as t, (∀ act ∈ as, ∀ sig, act ≠ .kill sig) ∧ (reverser n).exec s as = some t ∧ Idle t

variable {n : Nat} {s t : State}

theorem Locking.ordered (h : Locking n s) (hs : ¬ s.main.Stuck) :
    s.locks.Ordered (s.waits n) id := by
  intro p m k hw hk
  have hholds := (h.owned k p).mp hk
  cases p with
  | main =>
    cases hpc : s.main with
    | lockB a b =>
      obtain ⟨hle, -⟩ := h.pair a b (by simp [hpc, MainPc.pair])
      have hne : a ≠ b := by
        rintro rfl
        exact hs ⟨a, .inr hpc⟩
      simp only [State.holds, State.waits, hpc, MainPc.holds, MainPc.waits,
        Option.some.injEq] at hholds hw
      simp only [id]
      omega
    | _ => simp_all [State.holds, State.waits, MainPc.holds, MainPc.waits]
  | thread j =>
    cases hpc : s.pc j with
    | lock i =>
      simp only [State.holds, State.waits, hpc, Pc.holds, Pc.waits] at hholds hw
      split at hw
      · simp only [Option.some.injEq] at hw
        simp only [id]
        omega
      · cases hw
    | _ => simp_all [State.waits, Pc.waits]

theorem Locking.bound (h : Locking n s) (m : Nat) (hm : s.locks m ≠ none) : m < n := by
  obtain ⟨p, hp⟩ := Option.ne_none_iff_exists'.mp hm
  have hholds := (h.owned m p).mp hp
  cases p with
  | main =>
    obtain ⟨a, b, hab, hmem⟩ : ∃ a b, s.main.pair = some (a, b) ∧ (m = b ∨ m = a) := by
      cases hpc : s.main <;> simp_all [State.holds, MainPc.pair, MainPc.holds]
    have hle := h.pair a b hab
    omega
  | thread k =>
    cases hpc : s.pc k <;> simp only [State.holds, hpc, Pc.holds] at hholds <;> omega

/-! ## What is left to do -/

def Pc.weight (n : Nat) : Pc → Nat
  | .off | .done => 0
  | .lock i => (n - i) + 2 * n + 4
  | .read i => (n - i) + n + 3
  | .unlock i => i + 1

def MainPc.weight (n : Nat) : MainPc → Nat
  | .suspend => 0
  | .test => 13 * n + 20
  | .draw => 10 * n + 12
  | .lockA a b => 10 * (b - a) + 10
  | .lockB a b => 10 * (b - a) + 9
  | .loadA a b => 10 * (b - a) + 8
  | .loadB a b _ => 10 * (b - a) + 7
  | .storeA a b _ _ => 10 * (b - a) + 6
  | .storeB a b _ => 10 * (b - a) + 5
  | .unlockB a b => 10 * (b - a) + 4
  | .unlockA a b => 10 * (b - a) + 3
  | .narrow a b => 10 * (b - a) + 2
  | .clear1 | .clear2 => 1
  | .create => 3 * n + 6

/-- The steps that are left, at most. -/
def State.weight (n : Nat) (s : State) : Nat :=
  s.main.weight n + (s.pending1.toNat + s.pending2.toNat) * (13 * n + 30) +
    ∑ k ∈ Finset.range s.created, (s.pc k).weight n

theorem weight_main (hpc : t.pc = s.pc) (hcreated : t.created = s.created)
    (h1 : t.pending1 = s.pending1) (h2 : t.pending2 = s.pending2)
    (hlt : t.main.weight n < s.main.weight n) : t.weight n < s.weight n := by
  unfold State.weight
  rw [hpc, hcreated, h1, h2]
  omega

theorem weight_goto {k : Nat} {c : Pc} {l : Locks Nat (Party Nat)} {out : Nat → List Nat}
    (hk : k < s.created) (hlt : c.weight n < (s.pc k).weight n) :
    State.weight n ({ s with locks := l, printed := out }.goto k c) < s.weight n := by
  have hsum := sum_change (f := fun j => (s.pc j).weight n)
    (k := fun j => ((s.goto k c).pc j).weight n) (Finset.mem_range.mpr hk)
    fun j hj => by simp [State.goto, hj]
  simp only [State.goto, Function.update_self] at hsum
  simp only [State.weight, State.goto]
  omega

/-! ## Somebody can go on -/

/-- `mainWork` can go on, and draws two different indices if it draws. -/
theorem main_ready (h : Locking n s) (hn : 2 ≤ n) (hs : ¬ s.main.Stuck)
    (hne : s.main = .suspend → (s.pending1 || s.pending2) = true)
    (hready : s.locks.Ready (s.waits n) .main) :
    ∃ t, s.mainWork n 0 (n - 1) = some t ∧ ¬ t.main.Stuck ∧ t.weight n < s.weight n := by
  have hheld : ∀ m, s.main.holds m → s.locks m = some .main := fun m hm => (h.owned m .main).mpr hm
  unfold State.mainWork
  cases hpc : s.main with
  | suspend =>
    have hpending := hne hpc
    refine ⟨s.deliver, by simp [hpending], by simp [State.deliver, MainPc.Stuck], ?_⟩
    cases h1 : s.pending1 <;> cases h2 : s.pending2 <;>
      simp [State.weight, State.deliver, MainPc.weight, hpc, h1, h2] at hpending ⊢
    all_goals omega
  | test =>
    by_cases h1 : s.SigUsr1Received = true
    · refine ⟨{ s with main := .draw }, if_pos h1, by simp [MainPc.Stuck],
        weight_main rfl rfl rfl rfl ?_⟩
      simp only [hpc, MainPc.weight]
      omega
    · by_cases h2 : s.SigUsr2Received = true
      · refine ⟨{ s with main := .create }, (if_neg h1).trans (if_pos h2), by simp [MainPc.Stuck],
          weight_main rfl rfl rfl rfl ?_⟩
        simp only [hpc, MainPc.weight]
        omega
      · refine ⟨{ s with main := .suspend }, (if_neg h1).trans (if_neg h2), by simp [MainPc.Stuck],
          weight_main rfl rfl rfl rfl ?_⟩
        simp only [hpc, MainPc.weight]
        omega
  | draw =>
    have hlarge : ¬ n ≤ 1 := by omega
    have hmod : (n - 1) % n = n - 1 := Nat.mod_eq_of_lt (by omega)
    refine ⟨_, if_neg hlarge, ?_, weight_main rfl rfl rfl rfl ?_⟩
    · simp only [Nat.zero_mod, Nat.sub_zero, hmod, MainPc.Stuck]
      simp
      omega
    · simp only [hpc, MainPc.weight, Nat.zero_mod, Nat.sub_zero, hmod]
      omega
  | lockA a b =>
    have hfree := hready a (by simp [State.waits, hpc, MainPc.waits])
    have hne : a ≠ b := by
      rintro rfl
      exact hs ⟨a, .inl hpc⟩
    refine ⟨_, Locks.lock_map hfree, by simp [MainPc.Stuck, hne.symm],
      weight_main rfl rfl rfl rfl ?_⟩
    simp only [hpc, MainPc.weight]
    omega
  | lockB a b =>
    have hfree := hready b (by simp [State.waits, hpc, MainPc.waits])
    refine ⟨_, Locks.lock_map hfree, by simp [MainPc.Stuck],
      weight_main rfl rfl rfl rfl ?_⟩
    simp only [hpc, MainPc.weight]
    omega
  | loadA a b | loadB a b temp | storeA a b temp v | storeB a b temp | clear1 | clear2 =>
    refine ⟨_, rfl, by simp [MainPc.Stuck], weight_main rfl rfl rfl rfl ?_⟩
    simp only [hpc, MainPc.weight]
    omega
  | unlockB a b =>
    have hb := hheld b (by simp [hpc, MainPc.holds])
    refine ⟨_, Locks.unlock_map hb, by simp [MainPc.Stuck],
      weight_main rfl rfl rfl rfl ?_⟩
    simp only [hpc, MainPc.weight]
    omega
  | unlockA a b =>
    have ha := hheld a (by simp [hpc, MainPc.holds])
    refine ⟨_, Locks.unlock_map ha, by simp [MainPc.Stuck],
      weight_main rfl rfl rfl rfl ?_⟩
    simp only [hpc, MainPc.weight]
    omega
  | narrow a b =>
    by_cases hend : a + 1 ≥ b - 1
    · refine ⟨_, if_pos hend, by simp [MainPc.Stuck],
        weight_main rfl rfl rfl rfl ?_⟩
      simp only [hpc, MainPc.weight]
      omega
    · refine ⟨_, if_neg hend, ?_, weight_main rfl rfl rfl rfl ?_⟩
      · simp [MainPc.Stuck]
        omega
      · simp only [hpc, MainPc.weight]
        omega
  | create =>
    refine ⟨_, rfl, by simp [MainPc.Stuck], ?_⟩
    have hsum : ∑ k ∈ Finset.range s.created, ((s.goto s.created (.lock 0)).pc k).weight n =
        ∑ k ∈ Finset.range s.created, (s.pc k).weight n :=
      Finset.sum_congr rfl fun k hk => by
        have hne := Nat.ne_of_lt (Finset.mem_range.mp hk)
        simp [State.goto, hne]
    have hnew : ((s.goto s.created (.lock 0)).pc s.created).weight n = 3 * n + 4 := by
      simp only [State.goto, Function.update_self, Pc.weight]
      omega
    simp only [State.weight, hpc, MainPc.weight]
    rw [Finset.sum_range_succ, hsum, hnew]
    simp only [State.goto]
    omega

theorem thread_ready (h : Locking n s) {k : Nat} (hk : (s.pc k).weight n ≠ 0)
    (hready : s.locks.Ready (s.waits n) (.thread k)) :
    ∃ t, s.printing n k = some t ∧ t.main = s.main ∧ t.weight n < s.weight n := by
  have hcreated : k < s.created := by
    by_contra hge
    simp [h.uncreated k (by omega), Pc.weight] at hk
  unfold State.printing
  cases hpc : s.pc k with
  | off | done => simp [hpc, Pc.weight] at hk
  | lock i =>
    by_cases hi : i < n
    · have hfree := hready i (by simp [State.waits, hpc, Pc.waits, hi])
      refine ⟨_, (if_pos hi).trans (Locks.lock_map hfree), rfl,
        weight_goto hcreated ?_⟩
      simp only [hpc, Pc.weight]
      omega
    · refine ⟨_, if_neg hi, rfl, weight_goto hcreated ?_⟩
      simp only [hpc, Pc.weight]
      omega
  | read i =>
    by_cases hi : i < n
    · refine ⟨_, if_pos hi, rfl, weight_goto hcreated ?_⟩
      simp only [hpc, Pc.weight]
      omega
    · refine ⟨_, if_neg hi, rfl, weight_goto hcreated ?_⟩
      simp only [hpc, Pc.weight]
      omega
  | unlock i =>
    cases i with
    | zero =>
      refine ⟨_, rfl, rfl, weight_goto hcreated ?_⟩
      simp only [hpc, Pc.weight]
      omega
    | succ i =>
      by_cases hi : i < n
      · have hheld : s.locks i = some (.thread k) := by
          refine (h.owned i _).mpr ?_
          simp only [State.holds, hpc, Pc.holds]
          omega
        refine ⟨_, Locks.unlock_map hheld, rfl, weight_goto hcreated ?_⟩
        simp only [hpc, Pc.weight]
        omega
      · exact absurd (h.unlocking k _ hpc) (by omega)

theorem weight_zero {c : Pc} : c.weight n = 0 ↔ c = .off ∨ c = .done := by
  cases c <;> simp [Pc.weight]

/-- As long as something is left to do, somebody can do a step of it. -/
theorem somebody_ready (h : Locking n s) (hn : 2 ≤ n) (hs : ¬ s.main.Stuck) : Idle s ∨
    ∃ act t, (∀ sig, act ≠ .kill sig) ∧ (reverser n).next s act = some t ∧
      (Locking n t ∧ ¬ t.main.Stuck) ∧ t.weight n < s.weight n := by
  have hmain : (s.main = .suspend → (s.pending1 || s.pending2) = true) →
      s.locks.Ready (s.waits n) .main → ∃ act t, (∀ sig, act ≠ .kill sig) ∧
        (reverser n).next s act = some t ∧ (Locking n t ∧ ¬ t.main.Stuck) ∧
        t.weight n < s.weight n := fun hne hready => by
    obtain ⟨t, ht, hst, hlt⟩ := main_ready h hn hs hne hready
    have hnext : s.next n (.main 0 (n - 1)) = some t := ht
    exact ⟨.main 0 (n - 1), t, nofun, ht, ⟨h.step hnext, hst⟩, hlt⟩
  have hthread : ∀ k, (s.pc k).weight n ≠ 0 → s.locks.Ready (s.waits n) (.thread k) →
      ∃ act t, (∀ sig, act ≠ .kill sig) ∧ (reverser n).next s act = some t ∧
        (Locking n t ∧ ¬ t.main.Stuck) ∧ t.weight n < s.weight n := fun k hk hready => by
    obtain ⟨t, ht, hst, hlt⟩ := thread_ready h hk hready
    have hnext : s.next n (.printer k) = some t := ht
    exact ⟨.printer k, t, nofun, ht, ⟨h.step hnext, hst ▸ hs⟩, hlt⟩
  by_cases hblocked : ∃ p m, s.waits n p = some m ∧ s.locks m ≠ none
  · -- the holder at the end of the chain goes on
    obtain ⟨p, m, hw, hm⟩ := hblocked
    obtain ⟨q, k, hk, hready⟩ := (h.ordered hs).ready n h.bound hw hm
    have hholds := (h.owned k q).mp hk
    cases q with
    | main =>
      refine .inr (hmain (fun hpc => ?_) hready)
      simp [State.holds, hpc, MainPc.holds] at hholds
    | thread j =>
      refine .inr (hthread j (fun hzero => ?_) hready)
      rcases weight_zero.mp hzero with hpc | hpc <;> simp [State.holds, hpc, Pc.holds] at hholds
  · have hready : ∀ p, s.locks.Ready (s.waits n) p := fun p m hw => by
      by_contra hm
      exact hblocked ⟨p, m, hw, hm⟩
    by_cases hall : ∀ k, (s.pc k).weight n = 0
    · by_cases hmore : s.main = .suspend → (s.pending1 || s.pending2) = true
      · exact .inr (hmain hmore (hready .main))
      · simp only [Classical.not_imp, Bool.not_eq_true, Bool.or_eq_false_iff] at hmore
        exact .inl ⟨hmore.1, hmore.2.1, hmore.2.2, fun k => weight_zero.mp (hall k)⟩
    · obtain ⟨k, hk⟩ := not_forall.mp hall
      exact .inr (hthread k hk (hready (.thread k)))

theorem Locking.completes (h : Locking n s) (hn : 2 ≤ n) (hs : ¬ s.main.Stuck) :
    Completes n s := by
  obtain ⟨as, t, has, he, -, hidle⟩ := LTS.run_to (L := reverser n)
    (I := fun s => Locking n s ∧ ¬ s.main.Stuck) (G := Idle) (P := fun act => ∀ sig, act ≠ .kill sig)
    (State.weight n) (fun s hs => somebody_ready hs.1 hn hs.2) ⟨h, hs⟩
  exact ⟨as, t, has, he, hidle⟩

/-! ## One index drawn twice -/

theorem stuck_step {act : Act} (h : Locking n s) (hs : s.main.Stuck) (hn : s.next n act = some t) :
    t.main.Stuck := by
  cases act with
  | kill sig => cases sig <;> cases hn <;> exact hs
  | main r r' =>
    obtain ⟨a, hpc⟩ := hs
    cases mainWork_step hn with
    | @lockedA b c l ha =>
      obtain ⟨rfl, rfl⟩ : b = a ∧ c = a := by simpa [ha] using hpc
      exact ⟨_, .inr rfl⟩
    | @lockedB b c l ha hl =>
      obtain ⟨rfl, rfl⟩ : b = a ∧ c = a := by simpa [ha] using hpc
      exact absurd rfl (h.lock_ne hl (k := c) (by simp [ha, MainPc.holds]))
    | _ => simp_all
  | printer k =>
    obtain ⟨c, l, line, rfl⟩ := printing_goto hn
    exact hs

theorem stuck_run {as : List Act} (h : Locking n s) (hs : s.main.Stuck)
    (he : (reverser n).exec s as = some t) : t.main.Stuck :=
  (LTS.exec_inv (I := fun u => Locking n u ∧ u.main.Stuck)
    (fun _ _ _ hu hn => ⟨hu.1.step hn, stuck_step hu.1 hu.2 hn⟩) ⟨h, hs⟩ he).2

theorem Locking.free_iff (h : Locking n s) (hn : 2 ≤ n) :
    s.locks.DeadlockFree (s.waits n) ∧ Completes n s ↔ ¬ s.main.Stuck := by
  refine ⟨fun ⟨_, as, t, _, he, hidle⟩ hs => ?_, fun hs =>
    ⟨(h.ordered hs).deadlockFree, h.completes hn hs⟩⟩
  obtain ⟨a, ha | ha⟩ := stuck_run h hs he <;> simp [hidle.main] at ha

/-- `mainWork` comes to a pair of equal indices by its draw only. -/
theorem stuck_iff {act : Act} (h : Locking n s) (hn : s.next n act = some t) :
    ¬ t.main.Stuck ↔ ¬ s.main.Stuck ∧ DistinctDraw n s act := by
  refine ⟨fun ht => ⟨fun hs => ht (stuck_step h hs hn), ?_⟩, fun ⟨hs, hdraw⟩ => ?_⟩
  · cases act with
    | main r r' =>
      intro hpc hzero
      cases mainWork_step hn with
      | drawn => exact ht ⟨r % (n - 1), .inl (by simp [hzero])⟩
      | _ => simp_all
    | kill sig => trivial
    | printer k => trivial
  · cases act with
    | kill sig => cases sig <;> cases hn <;> exact hs
    | printer k =>
      obtain ⟨c, l, line, rfl⟩ := printing_goto hn
      exact hs
    | main r r' =>
      cases mainWork_step hn with
      | drawn hpc =>
        have hne := hdraw hpc
        simp only [MainPc.Stuck]
        simp
        omega
      | @lockedA a b l hpc =>
        have hne : a ≠ b := by
          rintro rfl
          exact hs ⟨a, .inl hpc⟩
        simp [MainPc.Stuck, hne.symm]
      | narrowed hpc hwide =>
        simp [MainPc.Stuck]
        omega
      | _ => simp [State.deliver, MainPc.Stuck]

/-- **Deadlock freedom.** For every number of elements and of printing threads: no chain of
waiting threads is closed and all that is begun can be completed, in exactly the runs in which
`mainWork` has drawn two different indices each time. -/
theorem deadlock_free_iff (hn : 2 ≤ n) {garbage : Nat → Nat} {as : List Act}
    (he : (reverser n).exec (start n garbage) as = some s) :
    s.locks.DeadlockFree (s.waits n) ∧ Completes n s ↔
      (reverser n).Along (DistinctDraw n) (start n garbage) as := by
  have hlock : Locking n s := .reach (LTS.Reach.exec (.init ⟨garbage, rfl⟩) he)
  have hrun := LTS.along_iff (L := reverser n) (I := Locking n) (G := fun s => ¬ s.main.Stuck)
    (P := DistinctDraw n) (fun s act t h hn => h.step hn) (fun s act t h hn => stuck_iff h hn)
    Locking.start he
  rw [hlock.free_iff hn, hrun]
  exact and_iff_right (by simp [start, MainPc.Stuck])

/-- The pair 6, 7 of eight elements is drawn and both mutexes are taken. -/
theorem deadlock_free_eight : ∃ s,
    (reverser 8).exec (start 8 id) (.kill .usr1 :: List.replicate 5 (.main 6 1)) = some s ∧
    s.main = .loadA 6 7 ∧ (reverser 8).Along (DistinctDraw 8) (start 8 id)
      (.kill .usr1 :: List.replicate 5 (.main 6 1)) := by
  have hrun : ((reverser 8).exec (start 8 id)
      (.kill .usr1 :: List.replicate 5 (.main 6 1))).map (·.main) = some (.loadA 6 7) := by decide
  obtain ⟨s, hs, hmain⟩ := Option.map_eq_some_iff.mp hrun
  have hlock : Locking 8 s := .reach (LTS.Reach.exec (.init ⟨_, rfl⟩) hs)
  have hfree : ¬ s.main.Stuck := by simp [hmain, MainPc.Stuck]
  exact ⟨s, hs, hmain, (deadlock_free_iff (by decide) hs).mp
    ⟨(hlock.ordered hfree).deadlockFree, hlock.completes (by decide) hfree⟩⟩

/-- `mainWork` draws 0 and 0, and waits for the mutex that it holds. -/
theorem drawn_twice_waits : ∃ s, (reverser 8).Reach s ∧ s.waits 8 .main = some 0 ∧
    s.locks 0 = some .main ∧ ¬ s.locks.DeadlockFree (s.waits 8) := by
  have hrun : ((reverser 8).exec (start 8 id)
      (.kill .usr1 :: List.replicate 4 (.main 0 0))).map
      (fun s => (s.main.waits, s.locks 0)) = some (some 0, some .main) := by decide
  obtain ⟨s, hs, heq⟩ := Option.map_eq_some_iff.mp hrun
  simp only [Prod.mk.injEq] at heq
  have hreach : (reverser 8).Reach s := LTS.Reach.exec (.init ⟨_, rfl⟩) hs
  have hwaits : s.waits 8 .main = some 0 := heq.1
  exact ⟨s, hreach, heq.1, heq.2, fun hfree => hfree.self hwaits heq.2⟩

end Ops.Reverse
