import Mathlib.Data.Fintype.BigOperators
import Ops.Split.Claims

/-!
# Where the claimed chunks are

A claimed chunk is pending in a thread, it is in the thread's list, or a failed `pread` has lost
it, and then the thread has failed. The list of a thread has its newest chunk first, so it is
descending. `error_line` is set exactly when a thread has failed.
-/

namespace Ops.Split

variable {n size chunk m : Nat} {s t : State n} {p : Fin n}

namespace Pc

/-- The chunk that has been claimed and is not in the list yet. -/
def pending : Pc → List Nat
  | unlock c | pread c | node c => [c]
  | _ => []

/-- On the way to return after a failure. -/
def failing : Pc → Bool
  | errorLock _ | errorStore _ | errorUnlock | failed => true
  | _ => false

/-- The failure is in `error_line`. -/
def reported : Pc → Bool
  | errorUnlock | failed => true
  | _ => false

def failure : Pc → Nat
  | errorLock line | errorStore line => line
  | _ => 1

end Pc

/-- What thread `p` has of the claimed chunks. -/
def State.load (s : State n) (p : Fin n) : List Nat := (s.pc p).pending ++ s.head p

def State.failing (s : State n) (p : Fin n) : Nat := (s.pc p).failing.toNat

/-! ## What a step of a thread does with the chunks -/

/-- A step of thread `p`. -/
inductive Moves (chunk : Nat) (s : State n) (p : Fin n) (t : State n) : Prop where
  | quiet : (∀ q, t.load q = s.load q) → (∀ q, t.failing q = s.failing q) →
      t.claimed = s.claimed → t.next_chunk = s.next_chunk → Moves chunk s p t
  | claim : (∀ q, q ≠ p → t.load q = s.load q) →
      t.load p = (s.next_chunk * chunk) :: s.load p →
      (∀ q, t.failing q = s.failing q) → t.claimed = s.claimed ++ [s.next_chunk * chunk] →
      t.next_chunk = s.next_chunk + 1 → Moves chunk s p t
  | fail (lost : List Nat) : (∀ q, q ≠ p → t.load q = s.load q) →
      s.load p = lost ++ t.load p → lost.length ≤ 1 →
      (∀ q, q ≠ p → t.failing q = s.failing q) → t.failing p = s.failing p + 1 →
      t.claimed = s.claimed → t.next_chunk = s.next_chunk → Moves chunk s p t

theorem load_goto {c : Pc} (hc : c.pending = (s.pc p).pending) (q : Fin n) :
    (s.goto p c).load q = s.load q := by
  show (Function.update s.pc p c q).pending ++ s.head q = (s.pc q).pending ++ s.head q
  rw [update_same (f := Pc.pending) hc]

theorem failing_goto {c : Pc} (hc : c.failing = (s.pc p).failing) (q : Fin n) :
    (s.goto p c).failing q = s.failing q := by
  show (Function.update s.pc p c q).failing.toNat = (s.pc q).failing.toNat
  rw [update_same (f := Pc.failing) hc]

theorem Moves.goto {c : Pc} (hpending : c.pending = (s.pc p).pending)
    (hfailing : c.failing = (s.pc p).failing) : Moves chunk s p (s.goto p c) :=
  .quiet (load_goto hpending) (failing_goto hfailing) rfl rfl

theorem Moves.same {u : State n} (h : Moves chunk s p t) (hpc : u.pc = t.pc)
    (hhead : u.head = t.head) (hclaimed : u.claimed = t.claimed)
    (hnext : u.next_chunk = t.next_chunk) : Moves chunk s p u := by
  have hload : u.load = t.load := by
    unfold State.load
    rw [hpc, hhead]
  have hfailing : u.failing = t.failing := by
    unfold State.failing
    rw [hpc]
  cases h with
  | quiet h₁ h₂ h₃ h₄ =>
    exact .quiet (hload ▸ h₁) (hfailing ▸ h₂) (hclaimed.trans h₃) (hnext.trans h₄)
  | claim h₁ h₂ h₃ h₄ h₅ =>
    exact .claim (hload ▸ h₁) (hload ▸ h₂) (hfailing ▸ h₃) (hclaimed.trans h₄) (hnext.trans h₅)
  | fail lost h₁ h₂ h₃ h₄ h₅ h₆ h₇ =>
    exact .fail lost (hload ▸ h₁) (hload ▸ h₂) h₃ (hfailing ▸ h₄) (hfailing ▸ h₅)
      (hclaimed.trans h₆) (hnext.trans h₇)

theorem Moves.failed {line : Nat} (hpc : (s.pc p).failing = false)
    (hpending : (s.pc p).pending.length ≤ 1) : Moves chunk s p (s.goto p (.errorLock line)) := by
  refine .fail (s.pc p).pending (fun q hq => ?_) ?_ hpending (fun q hq => ?_) ?_ rfl rfl
  · simp only [State.load, State.goto, Function.update_of_ne hq]
  · simp only [State.load, State.goto, Function.update_self, Pc.pending, List.nil_append]
  · simp only [State.failing, State.goto, Function.update_of_ne hq]
  · simp only [State.failing, State.goto, Function.update_self, hpc]
    rfl

theorem moves {ok : Bool} (hinv : Inv size chunk s)
    (hn : s.thread_work size chunk p ok = some t) : Moves chunk s p t := by
  unfold State.thread_work at hn
  cases hpc : s.pc p with
  | off | done | failed => simp [hpc] at hn
  | malloc =>
    simp only [hpc, Option.some.injEq] at hn
    subst hn
    cases ok
    · exact .failed (by rw [hpc]; rfl) (by rw [hpc]; decide)
    · exact .goto (by rw [hpc]; rfl) (by rw [hpc]; rfl)
  | lock | unlock chunk_start | leave | errorLock line | errorUnlock =>
    simp only [hpc] at hn
    obtain ⟨l, hl, rfl⟩ := Option.map_eq_some_iff.mp hn
    exact .same (.goto (by rw [hpc]; rfl) (by rw [hpc]; rfl)) rfl rfl rfl rfl
  | test =>
    simp only [hpc] at hn
    split at hn
    · cases hn
      exact .quiet (fun _ => rfl) (fun _ => rfl) rfl rfl
    · cases hn
      split
      · exact .goto (by rw [hpc]; rfl) (by rw [hpc]; rfl)
      · exact .goto (by rw [hpc]; rfl) (by rw [hpc]; rfl)
  | start | errorStore line =>
    simp only [hpc, Option.some.injEq] at hn
    subst hn
    exact .same (.goto (by rw [hpc]; rfl) (by rw [hpc]; rfl)) rfl rfl rfl rfl
  | increment chunk_start =>
    obtain ⟨-, rfl⟩ : s.next_chunk < size / chunk ∧ chunk_start = s.next_chunk * chunk := by
      simpa [hpc, Pc.Fits] using hinv.fits p
    simp only [hpc] at hn
    split at hn
    · cases hn
      refine .claim (fun q hq => ?_) ?_ (fun q => ?_) rfl rfl
      · simp only [State.load, State.goto, Function.update_of_ne hq]
      · simp only [State.load, State.goto, Function.update_self, hpc, Pc.pending, List.nil_append,
          List.cons_append]
      · exact failing_goto (s := s) (by rw [hpc]; rfl) q
    · cases hn
      exact .quiet (fun _ => rfl) (fun _ => rfl) rfl rfl
  | pread chunk_start =>
    simp only [hpc, Option.some.injEq] at hn
    subst hn
    cases ok
    · exact .failed (by rw [hpc]; rfl) (by rw [hpc]; exact Nat.le_refl 1)
    · exact .goto (by rw [hpc]; rfl) (by rw [hpc]; rfl)
  | node chunk_start =>
    simp only [hpc] at hn
    split at hn
    · cases hn
      refine .quiet (fun q => ?_) (fun q => ?_) rfl rfl
      · by_cases hq : q = p
        · subst hq
          simp only [State.load, State.goto, Function.update_self, hpc, Pc.pending,
            List.nil_append, List.cons_append]
        · simp only [State.load, State.goto, Function.update_of_ne hq]
      · exact failing_goto (s := s) (by rw [hpc]; rfl) q
    · cases hn
      exact .quiet (fun _ => rfl) (fun _ => rfl) rfl rfl

/-! ## The account -/

open Finset in
structure Account (chunk : Nat) (s : State n) : Prop where
  descending : ∀ p, (s.load p).Pairwise (· > ·)
  below : ∀ p, ∀ x ∈ s.load p, x < s.next_chunk * chunk
  /-- No chunk is with two threads, or twice with one. -/
  once : ∀ x, ∑ p, (s.load p).count x ≤ s.claimed.count x
  /-- A failed thread has lost one chunk at most. -/
  lost : s.claimed.length ≤ ∑ p, ((s.load p).length + s.failing p)

namespace Account

open Finset in
theorem start : Account chunk (Split.start n) := by
  have hload : ∀ p, (Split.start n).load p = [] := fun _ => rfl
  refine ⟨fun p => ?_, fun p x hx => ?_, fun x => ?_, Nat.zero_le _⟩
  · rw [hload]
    exact .nil
  · rw [hload] at hx
    cases hx
  · refine Nat.le_of_eq (sum_eq_zero fun p _ => ?_)
    rw [hload]
    rfl

open Finset in
theorem of_moves (h : Account chunk s) (hchunk : 0 < chunk) (hm : Moves chunk s p t) :
    Account chunk t := by
  cases hm with
  | quiet hload hfailing hclaimed hnext =>
    refine ⟨fun q => ?_, fun q => ?_, fun x => ?_, ?_⟩
    · rw [hload]
      exact h.descending q
    · rw [hload, hnext]
      exact h.below q
    · simp only [hload, hclaimed]
      exact h.once x
    · simp only [hload, hfailing, hclaimed]
      exact h.lost
  | claim hothers hload hfailing hclaimed hnext =>
    have hle : s.next_chunk * chunk < t.next_chunk * chunk :=
      Nat.mul_lt_mul_of_pos_right (by omega) hchunk
    refine ⟨fun q => ?_, fun q x hx => ?_, fun x => ?_, ?_⟩
    · by_cases hq : q = p
      · rw [hq, hload]
        exact .cons (h.below p) (h.descending p)
      · rw [hothers q hq]
        exact h.descending q
    · by_cases hq : q = p
      · rw [hq, hload] at hx
        rcases List.mem_cons.mp hx with rfl | hx
        · exact hle
        · exact Nat.lt_trans (h.below p x hx) hle
      · rw [hothers q hq] at hx
        exact Nat.lt_trans (h.below q x hx) hle
    · have hsum := sum_change (f := fun q => (s.load q).count x)
        (k := fun q => (t.load q).count x) (mem_univ p) fun q hq => by rw [hothers q hq]
      have honce := h.once x
      rw [hload, List.count_cons] at hsum
      rw [hclaimed, List.count_append, List.count_singleton]
      omega
    · have hsum := sum_change (f := fun q => (s.load q).length + s.failing q)
        (k := fun q => (t.load q).length + t.failing q) (mem_univ p)
        fun q hq => by rw [hothers q hq, hfailing]
      have hlost := h.lost
      rw [hload, hfailing, List.length_cons] at hsum
      rw [hclaimed, List.length_append, List.length_singleton]
      omega
  | fail lost hothers hload hone hfailing hp hclaimed hnext =>
    refine ⟨fun q => ?_, fun q x hx => ?_, fun x => ?_, ?_⟩
    · by_cases hq : q = p
      · have hdesc := h.descending p
        rw [hload] at hdesc
        rw [hq]
        exact (List.pairwise_append.mp hdesc).2.1
      · rw [hothers q hq]
        exact h.descending q
    · rw [hnext]
      by_cases hq : q = p
      · rw [hq] at hx
        exact h.below p x (by rw [hload]; exact List.mem_append_right _ hx)
      · rw [hothers q hq] at hx
        exact h.below q x hx
    · have hsum := sum_change (f := fun q => (s.load q).count x)
        (k := fun q => (t.load q).count x) (mem_univ p) fun q hq => by rw [hothers q hq]
      have honce := h.once x
      rw [hload, List.count_append] at hsum
      rw [hclaimed]
      omega
    · have hsum := sum_change (f := fun q => (s.load q).length + s.failing q)
        (k := fun q => (t.load q).length + t.failing q) (mem_univ p)
        fun q hq => by rw [hothers q hq, hfailing q hq]
      have hlost := h.lost
      rw [hload, hp, List.length_append] at hsum
      rw [hclaimed]
      omega

end Account

/-! ## The line of the error -/

/-- A failure has its line, and it is in `error_line` from the store on. -/
structure Reports (s : State n) : Prop where
  failure : ∀ p, (s.pc p).failure ≠ 0
  set : s.error_line ≠ 0 ↔ ∃ p, (s.pc p).reported = true

namespace Reports

theorem goto {c : Pc} (h : Reports s) (hpc : t.pc = Function.update s.pc p c)
    (hfailure : c.failure ≠ 0) (hreported : c.reported = (s.pc p).reported)
    (herror : t.error_line = s.error_line) : Reports t := by
  refine ⟨fun q => ?_, ?_⟩
  · rw [hpc]
    exact update_keeps (P := fun c => Pc.failure c ≠ 0) (h.failure q) fun _ => hfailure
  · rw [herror, h.set, hpc]
    simp only [update_same (f := Pc.reported) hreported]

theorem store {line : Nat} (h : Reports s) (hpc : s.pc p = .errorStore line) :
    Reports ({ s with error_line := line }.goto p .errorUnlock) := by
  have hline : line ≠ 0 := by
    have hfailure := h.failure p
    rwa [hpc] at hfailure
  refine ⟨fun q => ?_, iff_of_true hline ⟨p, ?_⟩⟩
  · exact update_keeps (P := fun c => Pc.failure c ≠ 0) (h.failure q) fun _ => Nat.one_ne_zero
  · simp only [State.goto, Function.update_self]
    rfl

theorem thread_work {ok : Bool} (h : Reports s)
    (hn : s.thread_work size chunk p ok = some t) : Reports t := by
  unfold State.thread_work at hn
  have hone : (1 : Nat) ≠ 0 := Nat.one_ne_zero
  cases hpc : s.pc p with
  | off | done | failed => simp [hpc] at hn
  | malloc | pread chunk_start =>
    simp only [hpc, Option.some.injEq] at hn
    subst hn
    cases ok
    · exact h.goto rfl (by simp [Pc.failure]) (by rw [hpc]; rfl) rfl
    · exact h.goto rfl hone (by rw [hpc]; rfl) rfl
  | lock | unlock chunk_start | leave | errorUnlock =>
    simp only [hpc] at hn
    obtain ⟨l, hl, rfl⟩ := Option.map_eq_some_iff.mp hn
    exact h.goto rfl hone (by rw [hpc]; rfl) rfl
  | errorLock line =>
    simp only [hpc] at hn
    obtain ⟨l, hl, rfl⟩ := Option.map_eq_some_iff.mp hn
    have hline := h.failure p
    rw [hpc] at hline
    exact h.goto rfl hline (by rw [hpc]; rfl) rfl
  | test =>
    simp only [hpc] at hn
    split at hn
    · cases hn
      exact ⟨h.failure, h.set⟩
    · cases hn
      split
      · exact h.goto rfl hone (by rw [hpc]; rfl) rfl
      · exact h.goto rfl hone (by rw [hpc]; rfl) rfl
  | start =>
    simp only [hpc, Option.some.injEq] at hn
    subst hn
    exact h.goto rfl hone (by rw [hpc]; rfl) rfl
  | increment chunk_start | node chunk_start =>
    simp only [hpc] at hn
    split at hn
    · cases hn
      exact h.goto rfl hone (by rw [hpc]; rfl) rfl
    · cases hn
      exact ⟨h.failure, h.set⟩
  | errorStore line =>
    simp only [hpc, Option.some.injEq] at hn
    subst hn
    exact h.store hpc

end Reports

/-! ## Every run -/

/-- What the runs keep, also of the chunks. -/
structure Accounted (size chunk : Nat) (s : State n) : Prop where
  inv : Inv size chunk s
  account : 0 < chunk → Account chunk s
  reports : Reports s

theorem Accounted.step {act : Act n} (h : Accounted size (size / m) s)
    (hn : s.next size m act = some t) : Accounted size (size / m) t := by
  refine ⟨h.inv.step hn, fun hchunk => ?_, ?_⟩
  · unfold State.next at hn
    split at hn
    · split at hn
      · rename_i hlt
        cases hn
        have hoff := h.inv.uncreated ⟨s.created, hlt⟩ (Nat.le_refl _)
        refine (h.account hchunk).of_moves hchunk (p := ⟨s.created, hlt⟩) ?_
        exact .same (.goto (c := .malloc) (by rw [hoff]; rfl) (by rw [hoff]; rfl)) rfl rfl rfl rfl
      · cases hn
    · exact (h.account hchunk).of_moves hchunk (moves h.inv hn)
    · cases hn
  · unfold State.next at hn
    split at hn
    · split at hn
      · rename_i hlt
        cases hn
        have hoff := h.inv.uncreated ⟨s.created, hlt⟩ (Nat.le_refl _)
        exact h.reports.goto (p := ⟨s.created, hlt⟩) (c := .malloc) rfl Nat.one_ne_zero
          (by rw [hoff]; rfl) rfl
      · cases hn
    · exact h.reports.thread_work hn
    · cases hn

theorem Accounted.undefined (h : Accounted size chunk s) :
    Accounted size chunk { s with phase := .undefined } where
  inv := h.inv.ended _
  account hchunk :=
    have haccount := h.account hchunk
    ⟨haccount.descending, haccount.below, haccount.once, haccount.lost⟩
  reports := ⟨h.reports.failure, h.reports.set⟩

theorem Accounted.start : Accounted size chunk (Split.start n) := by
  refine ⟨.start, fun _ => .start, fun _ => Nat.one_ne_zero, ?_⟩
  refine iff_of_false (fun h => h rfl) ?_
  rintro ⟨p, hp⟩
  cases hp

end Ops.Split
