import Mathlib.Algebra.Order.BigOperators.Group.List
import Ops.Pi.Account
import Ops.Pi.Start

/-!
# Recovery after a killed process

`MutexLock` marks the mutex consistent without a look at the data. As long as nobody
is killed between its two stores to the counter, who has just got the mutex finds the
totals of whole batches and the number of processes at work (`recovered_whole`). A
process killed between the two stores of one batch leaves half of it
(`recovered_half`).
-/

namespace Ops.Pi

variable {π : Type} [DecidableEq π] {N : π → Int} {s : State π} {p : π}

/-- **What the next locker finds**, if nobody was killed between its stores to the
counter: `hits` and `samples` are the sums over the same batches, and the counter is the
number of joined processes that are alive and have not left. -/
theorem recovered_whole (h : (workers N).ReachIf Spared s) (hp : (s.pc p).acquired = true) :
    (s.seg.hits = (s.batches.map fun b => b.2.1).sum ∧
      s.seg.samples = (s.batches.map fun b => b.2.2).sum ∧ ∀ b ∈ s.batches, b.2.2 = N b.1) ∧
    s.seg.counter = s.joined.countP (fun q => (s.pc q).counted) ∧ s.joined.Nodup ∧
    ∀ q, (s.pc q).counted = true → q ∈ s.joined := by
  have hacct := account_reach h
  obtain ⟨hcritical, hpend⟩ := Pc.acquired_critical hp
  have hhits := hacct.sums.hits p fun q hq => (hacct.alone hcritical q hq).2.1
  rw [hpend, Int.add_zero] at hhits
  exact ⟨⟨hhits, hacct.sums.samples, hacct.sums.batch⟩, hacct.counts.counter, hacct.counts.nodup,
    hacct.counts.counted⟩

def joins (p : π) : List (Act π) := steps p 7

def gets (p : π) (result : Int) : List (Act π) := ⟨p, .points result⟩ :: steps p 1

/-- One process is killed when it has left and holds the mutex, and another one gets it. -/
theorem recovered_whole_left : ∃ s : State Bool, (workers fun _ => 1000).ReachIf Spared s ∧
    s.pc false = .loadHits 0 800 ∧ s.joined = [true, false] ∧ s.seg.counter = 1 ∧
    s.seg.hits = (s.batches.map fun b => b.2.1).sum := by
  have hrun : ((workers fun _ => 1000).execIf Spared (initialised Bool 1)
      (joins true ++ joins false ++ gets true 700 ++ steps true 5 ++ [⟨true, .interrupt⟩] ++
        steps true 3 ++ [⟨true, .kill⟩] ++ gets false 800)).map
        (fun s => (s.pc false, s.joined, s.seg.counter)) =
          some (.loadHits 0 800, [true, false], 1) := by decide +kernel
  obtain ⟨s, hs, heq⟩ := Option.map_eq_some_iff.mp hrun
  simp only [Prod.mk.injEq] at heq
  obtain ⟨hpc, hjoined, hcounter⟩ := heq
  have hr : (workers fun _ => 1000).ReachIf Spared s := LTS.ReachIf.execIf (.init ⟨1, rfl⟩) hs
  obtain ⟨⟨hhits, -⟩, -⟩ := recovered_whole (p := false) hr (by rw [hpc]; rfl)
  exact ⟨s, hr, hpc, hjoined, hcounter, hhits⟩

/-- **Half a batch.** A process is killed between its stores to `hits` and `samples`.
The next one to get the mutex finds 700 hits in no sample, and two processes at work,
where it is the only one. -/
theorem recovered_half : ∃ s : State Bool, (workers fun _ => 1000).Reach s ∧
    s.pc false = .loadHits 0 800 ∧ s.seg.counter = 2 ∧
    (s.joined.countP fun q => (s.pc q).counted) = 1 ∧
    ∀ bs : List (Bool × Int × Int), (∀ b ∈ bs, b.2.2 = 1000) →
      s.seg.hits = (bs.map fun b => b.2.1).sum → s.seg.samples ≠ (bs.map fun b => b.2.2).sum := by
  have hrun : ((workers fun _ => 1000).exec (initialised Bool 1)
      (joins true ++ joins false ++ gets true 700 ++ steps true 2 ++ [⟨true, .kill⟩] ++
        gets false 800)).map (fun s => (s.pc false, s.seg.counter,
          s.joined.countP fun q => (s.pc q).counted, s.seg.hits, s.seg.samples)) =
        some (.loadHits 0 800, 2, 1, 700, 0) := by decide +kernel
  obtain ⟨s, hs, heq⟩ := Option.map_eq_some_iff.mp hrun
  simp only [Prod.mk.injEq] at heq
  obtain ⟨hpc, hcounter, hmembers, hhits, hsamples⟩ := heq
  refine ⟨s, LTS.Reach.exec (.init ⟨1, rfl⟩) hs, hpc, hcounter, hmembers, fun bs hN hsum htotal => ?_⟩
  cases bs with
  | nil => rw [hhits] at hsum; cases hsum
  | cons b bs =>
    have hrest : 0 ≤ (bs.map fun b => b.2.2).sum := by
      refine List.sum_nonneg fun n hn => ?_
      obtain ⟨b', hb', rfl⟩ := List.mem_map.mp hn
      rw [hN b' (List.mem_cons_of_mem _ hb')]
      decide
    rw [hsamples, List.map_cons, List.sum_cons, hN b List.mem_cons_self] at htotal
    omega

end Ops.Pi
