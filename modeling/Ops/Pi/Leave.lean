import Ops.Pi.Account
import Ops.Pi.Start

/-!
# The last process out

The process that takes the counter to 0 prints the result, destroys the mutex and
removes the names. If all processes that mapped the segment have joined by then
(`Gathered`), it is the last one (`last_process_out`). A process that has mapped the
segment and not joined is not counted, and locks a mutex that is destroyed
(`left_behind`).
-/

namespace Ops.Pi

open Posix (Mutex)

variable {π : Type} [DecidableEq π] {N : π → Int} {s t : State π} {act : Act π} {p : π} {c : Pc}

/-- Nobody is killed, and the counter is taken to 0 only when every process has joined. -/
def Gathered (s : State π) (act : Act π) : Prop :=
  act.event ≠ .kill ∧ (s.pc act.proc = .leaveStore 1 → ∀ q, (s.pc q).outside = false)

instance {n : Nat} (s : State (Fin n)) (act : Act (Fin n)) : Decidable (Gathered s act) :=
  inferInstanceAs (Decidable (_ ∧ _))

def State.totals (s : State π) : Int × Int :=
  ((s.batches.map fun b => b.2.1).sum, (s.batches.map fun b => b.2.2).sum)

/-- All that have joined have left. -/
def Finished (s : State π) : Prop := s.seg.counter = 0 ∧ s.joined ≠ []

structure Close (s : State π) : Prop where
  inside : ∀ p, (s.pc p).outside = false → p ∈ s.joined
  gathered : Finished s → ∀ p, (s.pc p).outside = false
  last : ∀ p, (s.pc p).last = true → Finished s
  only : ∀ p q, (s.pc p).last = true → q ≠ p → (s.pc q).over = true
  destroyed : s.seg.mutex = .destroyed → Finished s
  names : s.semName = false ∨ s.shmName = false →
    Finished s ∧ ∀ q, (s.pc q).over = true ∨ (s.pc q).unlinks = true
  printed : ∀ r ∈ s.printed, Finished s ∧ r = s.totals

omit [DecidableEq π] in
theorem Close.open_of (hc : Close s) (ha : Account N s)
    (hp : (s.pc p).outside = true ∨ (s.pc p).counted = true) : ¬ Finished s := fun hf => by
  rcases hp with hout | hcounted
  · rw [hc.gathered hf p] at hout; cases hout
  · have hcounter := ha.counts.counter
    rw [hf.1] at hcounter
    have hpos : 0 < s.members := List.countP_pos_iff.mpr ⟨p, ha.counts.counted p hcounted, hcounted⟩
    omega

theorem Close.frame (hs : Close s) (hpc : t.pc = Function.update s.pc p c)
    (hover : (s.pc p).over = false) (hunlinks : (s.pc p).unlinks = false)
    (hout : c.outside = (s.pc p).outside) (hlast : c.last = true → (s.pc p).last = true)
    (hfinished : Finished t ↔ Finished s) (hjoined : t.joined = s.joined)
    (hmutex : t.seg.mutex = .destroyed → Finished s)
    (hnames : t.semName = s.semName ∧ t.shmName = s.shmName)
    (hprinted : ∀ r ∈ t.printed, Finished t ∧ r = t.totals) : Close t := by
  have hsame := flag_frame (f := Pc.outside) hpc hout
  have hother : ∀ q, q ≠ p → t.pc q = s.pc q := fun q hq => by rw [hpc, Function.update_of_ne hq]
  have hl : ∀ q, (t.pc q).last = true → (s.pc q).last = true := fun q hq =>
    update_flag (f := Pc.last) hpc hlast hq
  refine ⟨fun q hq => ?_, fun hf q => ?_, fun q hq => ?_, fun q r hq hr => ?_, fun hd => ?_,
    fun hn => ?_, hprinted⟩
  · rw [hjoined]; exact hs.inside q (hsame q ▸ hq)
  · rw [hsame]; exact hs.gathered (hfinished.mp hf) q
  · exact hfinished.mpr (hs.last q (hl q hq))
  · have hr' := hs.only q r (hl q hq) hr
    have hne : r ≠ p := fun hrp => by rw [hrp, hover] at hr'; cases hr'
    rw [hother r hne]
    exact hr'
  · exact hfinished.mpr (hmutex hd)
  · rw [hnames.1, hnames.2] at hn
    rcases (hs.names hn).2 p with h | h
    · rw [hover] at h; cases h
    · rw [hunlinks] at h; cases h

theorem Close.early (hs : Close s) (hopen : ¬ Finished s) (hpc : t.pc = Function.update s.pc p c)
    (hlast : c.last = false) (hinside : ∀ q, (t.pc q).outside = false → q ∈ t.joined)
    (hgathered : Finished t → ∀ q, (t.pc q).outside = false)
    (hmutex : t.seg.mutex = s.seg.mutex)
    (hnames : t.semName = s.semName ∧ t.shmName = s.shmName) (hprinted : t.printed = s.printed) :
    Close t := by
  have hl : ∀ q, (t.pc q).last ≠ true := fun q hq => by
    rcases update_cases hpc hq with ⟨-, hc⟩ | ⟨-, hold⟩
    · rw [hlast] at hc; cases hc
    · exact hopen (hs.last q hold)
  refine ⟨hinside, hgathered, fun q hq => absurd hq (hl q), fun q _ hq => absurd hq (hl q),
    fun hd => ?_, fun hn => ?_, fun r hr => ?_⟩
  · exact absurd (hs.destroyed (hmutex ▸ hd)) hopen
  · rw [hnames.1, hnames.2] at hn
    exact absurd (hs.names hn).1 hopen
  · rw [hprinted] at hr
    exact absurd (hs.printed r hr).1 hopen

/-- The process finds the counter at 0: the others have ended. -/
theorem Close.tested (hs : Close s) (ha : Account N s) (hpc : s.pc p = .leaveTest)
    (hzero : s.seg.counter = 0) : Close (s.goto p .report) := by
  have hmem : p ∈ s.joined := hs.inside p (by rw [hpc]; rfl)
  have hfinished : Finished s := ⟨hzero, List.ne_nil_of_mem hmem⟩
  have hlive : (s.pc p).over = false := by rw [hpc]; rfl
  have hnolast : ∀ q, q ≠ p → (s.pc q).last ≠ true := fun q hq hl => by
    rw [hs.only q p hl (Ne.symm hq)] at hlive
    cases hlive
  have hover : ∀ q, q ≠ p → (s.pc q).over = true := fun q hq => by
    have hcount : (s.pc q).counted = false := Bool.eq_false_iff.mpr fun h =>
      hs.open_of ha (.inr h) hfinished
    have hcritical := (ha.alone (p := p) (by rw [hpc]; rfl) q hq).1
    exact (Pc.over_cases (hs.gathered hfinished q) hcount hcritical).resolve_right (hnolast q hq)
  have hsame := flag_frame (f := Pc.outside) (s := s) (t := s.goto p .report) rfl (by rw [hpc]; rfl)
  have hother : ∀ q, q ≠ p → (s.goto p .report).pc q = s.pc q := fun q hq =>
    Function.update_of_ne hq ..
  refine ⟨fun q hq => hs.inside q (hsame q ▸ hq), fun _ q => ?_, fun _ _ => hfinished,
    fun q r hq hr => ?_, fun _ => hfinished, fun hn => ?_, hs.printed⟩
  · rw [hsame]; exact hs.gathered hfinished q
  · by_cases hqp : q = p
    · rw [hqp] at hr
      rw [hother r hr]
      exact hover r hr
    · rw [hother q hqp] at hq
      exact absurd hq (hnolast q hqp)
  · rcases (hs.names hn).2 p with h | h <;> rw [hpc] at h <;> cases h

theorem Close.unlinked (hs : Close s) (hpc : t.pc = Function.update s.pc p c)
    (hlast : (s.pc p).last = true) (hc : c.over = true ∨ c.unlinks = true) (hout : c.outside = false)
    (hseg : t.seg = s.seg) (hjoined : t.joined = s.joined) (hprinted : t.printed = s.printed)
    (hbatches : t.batches = s.batches) : Close t := by
  have hfinished := hs.last p hlast
  have hpout := hs.gathered hfinished p
  have hsame := flag_frame (f := Pc.outside) hpc (hout.trans hpout.symm)
  have hother : ∀ q, q ≠ p → t.pc q = s.pc q := fun q hq => by rw [hpc, Function.update_of_ne hq]
  have ht : Finished t := by rw [Finished, hseg, hjoined]; exact hfinished
  refine ⟨fun q hq => ?_, fun _ q => ?_, fun _ _ => ht, fun q r hq hr => ?_, fun _ => ht,
    fun _ => ⟨ht, fun q => ?_⟩, fun r hr => ⟨ht, ?_⟩⟩
  · rw [hjoined]; exact hs.inside q (hsame q ▸ hq)
  · rw [hsame]; exact hs.gathered hfinished q
  · by_cases hqp : q = p
    · rw [hqp] at hr
      rw [hother r hr]
      exact hs.only p r hlast hr
    · have hover := hs.only p q hlast hqp
      rw [hother q hqp] at hq
      cases hpc' : s.pc q <;> rw [hpc'] at hover hq <;> first | cases hover; done | cases hq
  · by_cases hqp : q = p
    · rw [hqp, hpc, Function.update_self]; exact hc
    · rw [hother q hqp]; exact .inl (hs.only p q hlast hqp)
  · rw [hprinted] at hr
    rw [State.totals, hbatches]
    exact (hs.printed r hr).2

theorem Close.next (hs : Close s) (ha : Account N s) (hg : Gathered s act)
    (hlive : (s.pc act.proc).over = false) (hd : Deed N s act t) : Close t := by
  have hopen : (s.pc act.proc).outside = true ∨ (s.pc act.proc).counted = true → ¬ Finished s :=
    hs.open_of ha
  have hself : ∀ {c : Pc} {q}, (Function.update s.pc act.proc c q).outside = false →
      q ≠ act.proc → q ∈ s.joined := fun hq hne => by
    rw [Function.update_of_ne hne] at hq
    exact hs.inside _ hq
  cases hd with
  | took hpc _ | missed hpc _ _ | skipped hpc _ | posted hpc =>
    exact hs.frame rfl hlive (by rw [hpc]; rfl) (by rw [hpc]; rfl) nofun Iff.rfl rfl hs.destroyed
      ⟨rfl, rfl⟩ hs.printed
  | entered hpc hset => exact absurd ha.set hset
  | stored hpc => exact absurd hpc (ha.started _ _)
  | moved halike _ _ =>
    exact hs.frame rfl hlive halike.unlinks halike.outside (fun h => halike.last ▸ h) Iff.rfl rfl
      hs.destroyed ⟨rfl, rfl⟩ hs.printed
  | @locked c m halike _ hm _ _ =>
    refine hs.frame rfl hlive halike.unlinks halike.outside (fun h => halike.last ▸ h) Iff.rfl rfl
      (fun hd => ?_) ⟨rfl, rfl⟩ hs.printed
    obtain rfl : m = .destroyed := hd
    cases Mutex.lock_some hm
  | @unlocked c m halike hm _ _ =>
    refine hs.frame rfl hlive halike.unlinks halike.outside (fun h => halike.last ▸ h) Iff.rfl rfl
      (fun hd => ?_) ⟨rfl, rfl⟩ hs.printed
    obtain rfl : m = .destroyed := hd
    cases (Mutex.unlock_some hm).2
  | @joined n hpc =>
    have hn : n = s.members := (ha.loaded _ .counter n (by rw [hpc]; rfl)).trans ha.counts.counter
    refine hs.early (hopen (.inl (by rw [hpc]; rfl))) rfl rfl (fun q hq => ?_) (fun hf => ?_) rfl
      ⟨rfl, rfl⟩ rfl
    · by_cases hqp : q = act.proc
      · exact List.mem_append_right _ (List.mem_singleton.mpr hqp)
      · exact List.mem_append_left _ (hself hq hqp)
    · have hzero : n + 1 = 0 := hf.1
      omega
  | hit hpc =>
    exact hs.frame rfl hlive (by rw [hpc]; rfl) (by rw [hpc]; rfl) nofun Iff.rfl rfl hs.destroyed
      ⟨rfl, rfl⟩ hs.printed
  | sampled hpc =>
    have hnot := hopen (.inr (by rw [hpc]; rfl))
    exact hs.frame rfl hlive (by rw [hpc]; rfl) (by rw [hpc]; rfl) nofun Iff.rfl rfl hs.destroyed
      ⟨rfl, rfl⟩ fun r hr => absurd (hs.printed r hr).1 hnot
  | @left n hpc =>
    have hnot := hopen (.inr (by rw [hpc]; rfl))
    have hmem : act.proc ∈ s.joined := hs.inside _ (by rw [hpc]; rfl)
    refine hs.early (p := act.proc) (c := .leaveTest) hnot rfl rfl (fun q hq => ?_) (fun hf q => ?_)
      rfl ⟨rfl, rfl⟩ rfl
    · by_cases hqp : q = act.proc
      · exact hqp ▸ hmem
      · exact hself hq hqp
    · have hzero : n - 1 = 0 := hf.1
      obtain rfl : n = 1 := by omega
      show (Function.update s.pc act.proc Pc.leaveTest q).outside = false
      by_cases hqp : q = act.proc
      · rw [hqp, Function.update_self]; rfl
      · rw [Function.update_of_ne hqp]; exact hg.2 hpc q
  | tested hpc =>
    split
    · rename_i hzero
      exact hs.tested ha hpc hzero
    · exact hs.frame rfl hlive (by rw [hpc]; rfl) (by rw [hpc]; rfl) nofun Iff.rfl rfl hs.destroyed
        ⟨rfl, rfl⟩ hs.printed
  | @printed n hpc =>
    have hfinished := hs.last act.proc (by rw [hpc]; rfl)
    have hn : n = s.seg.hits := ha.loaded _ .hits n (by rw [hpc]; rfl)
    have hhits := ha.sums.hits act.proc fun q hq => (ha.alone (by rw [hpc]; rfl) q hq).2.1
    have hpend : (s.pc act.proc).pend = 0 := by rw [hpc]; rfl
    rw [hpend, Int.add_zero] at hhits
    refine hs.frame rfl hlive (by rw [hpc]; rfl) (by rw [hpc]; rfl) (fun _ => by rw [hpc]; rfl) Iff.rfl
      rfl hs.destroyed ⟨rfl, rfl⟩ fun r hr => ?_
    rcases List.mem_append.mp hr with hr | hr
    · exact hs.printed r hr
    · refine ⟨hfinished, ?_⟩
      rw [List.mem_singleton.mp hr, hn, hhits, ha.sums.samples]
      rfl
  | destroyed hpc =>
    have hfinished := hs.last act.proc (by rw [hpc]; rfl)
    exact hs.frame rfl hlive (by rw [hpc]; rfl) (by rw [hpc]; rfl) (fun _ => by rw [hpc]; rfl) Iff.rfl
      rfl (fun _ => hfinished) ⟨rfl, rfl⟩ hs.printed
  | unlinkedSem hpc =>
    exact hs.unlinked rfl (by rw [hpc]; rfl) (.inr rfl) rfl rfl rfl rfl rfl
  | unlinkedShm hpc =>
    exact hs.unlinked rfl (by rw [hpc]; rfl) (.inl rfl) rfl rfl rfl rfl rfl
  | killed hkill _ => exact absurd hkill hg.1

omit [DecidableEq π] in
theorem initialised_close (sem : Nat) : Close (initialised π sem) where
  inside _ := nofun
  gathered h := absurd rfl h.2
  last _ := nofun
  only _ _ := nofun
  destroyed := nofun
  names h := h.elim nofun nofun
  printed _ := nofun

theorem close_reach (h : (workers N).ReachIf Gathered s) : Account N s ∧ Close s := by
  refine h.inv (I := fun s => Account N s ∧ Close s) (fun s hs => ?_) fun s act t _ hs hg hn => ?_
  · obtain ⟨sem, rfl⟩ := hs
    exact ⟨initialised_account sem, initialised_close sem⟩
  · have hd := next_deed hn
    exact ⟨hs.1.next (fun hkill => absurd hkill hg.1) hd, hs.2.next hs.1 hg (next_alive hn) hd⟩

/-- **The last process out**, if the counter goes to 0 only when every process that mapped
the segment has joined: nobody locks the mutex after it was destroyed, the names are removed
when all the other processes have ended, and the result is printed from the totals when
every process has joined and left. -/
theorem last_process_out (h : (workers N).ReachIf Gathered s) :
    (∀ p, (s.pc p).locks = true → s.seg.mutex ≠ .destroyed) ∧
    (∀ p, (s.pc p).unlinks = true → ∀ q, q ≠ p → (s.pc q).over = true) ∧
    (s.semName = false ∨ s.shmName = false →
      ∀ q, (s.pc q).over = true ∨ (s.pc q).unlinks = true) ∧
    ∀ r ∈ s.printed, r = s.totals ∧
      ∀ q, q ∈ s.joined ∧ (s.pc q).outside = false ∧ (s.pc q).counted = false := by
  obtain ⟨ha, hs⟩ := close_reach h
  refine ⟨fun p hp hd => ?_, fun p hp q hq => hs.only p q (Pc.unlinks_last hp) hq,
    fun hn => (hs.names hn).2, fun r hr => ?_⟩
  · exact hs.open_of ha (Pc.locks_cases hp) (hs.destroyed hd)
  · obtain ⟨hfinished, htotals⟩ := hs.printed r hr
    refine ⟨htotals, fun q => ?_⟩
    have hout := hs.gathered hfinished q
    exact ⟨hs.inside q hout, hout,
      Bool.eq_false_iff.mpr fun hcount => hs.open_of ha (.inr hcount) hfinished⟩

def adds (p : π) (result : Int) : List (Act π) := ⟨p, .points result⟩ :: steps p 6

/-- `p` leaves `DoWork` early and executes the next `n` steps. -/
def leaves (p : π) (n : Nat) : List (Act π) := ⟨p, .interrupt⟩ :: steps p n

/-- Both processes join before the first leaves. -/
theorem last_process_out_two : ∃ s : State (Fin 2), (workers fun _ => 1000).ReachIf Gathered s ∧
    s.shmName = false ∧ s.printed = [(1500, 2000)] ∧ (1500, 2000) = s.totals := by
  have hrun : ((workers fun _ => 1000).execIf Gathered (initialised (Fin 2) 1)
      (steps 0 7 ++ steps 1 7 ++ adds 0 700 ++ adds 1 800 ++ leaves 0 5 ++ leaves 1 10)).map
        (fun s => (s.shmName, s.printed)) = some (false, [(1500, 2000)]) := by decide +kernel
  obtain ⟨s, hs, heq⟩ := Option.map_eq_some_iff.mp hrun
  simp only [Prod.mk.injEq] at heq
  obtain ⟨hname, hprinted⟩ := heq
  have hr : (workers fun _ => 1000).ReachIf Gathered s := LTS.ReachIf.execIf (.init ⟨1, rfl⟩) hs
  obtain ⟨-, -, -, htotals⟩ := last_process_out hr
  have hmem : (1500, 2000) ∈ s.printed := by rw [hprinted]; exact List.mem_singleton_self _
  exact ⟨s, hr, hname, hprinted, (htotals _ hmem).1⟩

/-- **Left behind.** The first process leaves while the second has mapped the segment and
not joined: the mutex that it is about to lock is destroyed, and the names are gone. -/
theorem left_behind : ∃ s : State (Fin 2), (workers fun _ => 1000).Reach s ∧
    (s.pc 1).locks = true ∧ s.seg.mutex = .destroyed ∧ s.shmName = false ∧
    s.printed = [(700, 1000)] := by
  have hrun : ((workers fun _ => 1000).exec (initialised (Fin 2) 1)
      (steps 0 7 ++ steps 1 3 ++ adds 0 700 ++ leaves 0 10)).map (fun s =>
        ((s.pc 1).locks, s.seg.mutex, s.shmName, s.printed)) =
          some (true, .destroyed, false, [(700, 1000)]) := by decide +kernel
  obtain ⟨s, hs, heq⟩ := Option.map_eq_some_iff.mp hrun
  simp only [Prod.mk.injEq] at heq
  exact ⟨s, LTS.Reach.exec (.init ⟨1, rfl⟩) hs, heq⟩

end Ops.Pi
