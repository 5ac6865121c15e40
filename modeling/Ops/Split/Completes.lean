import Mathlib.Algebra.Order.BigOperators.Group.Finset
import Mathlib.Data.Set.Finite.Lattice
import Ops.Split.Printed
import Ops.Split.Whole

/-!
# The splitter comes to its end

As long as a thread has not left its loop, the holder of the mutex can go on, or everybody who
waits for it can (`Going.advances`); each such step lowers `weight`. Then the threads print their
lists, each on its own, and at last `concat_and_print` runs alone.
-/

namespace Ops.Split

open Posix (Locks)

variable {n size chunk m : Nat} {A : Type} [DecidableEq A] {file : List Byte}
variable {s t : Program n A} {u v : State n} {p q : Fin n}

/-! ## The measure -/

/-- The steps to the end, if no chunk is left. -/
def Pc.rank : Pc → Nat
  | off => 13
  | malloc => 12
  | lock => 5
  | test => 4
  | start => 3
  | increment _ => 2
  | unlock _ => 9
  | pread _ => 8
  | node _ => 7
  | leave => 3
  | errorLock _ => 3
  | errorStore _ => 2
  | errorUnlock => 1
  | done | failed => 0

def Pc.waits : Pc → Bool
  | lock | errorLock _ => true
  | _ => false

open Finset in
def State.weight (size chunk : Nat) (u : State n) : Nat :=
  8 * (size / chunk - u.next_chunk) + ∑ p, (u.pc p).rank

open Finset in
theorem weight_lt {c : Pc} (hpc : v.pc = Function.update u.pc p c)
    (h : v.next_chunk = u.next_chunk ∧ c.rank < (u.pc p).rank ∨
      v.next_chunk = u.next_chunk + 1 ∧ u.next_chunk < size / chunk ∧
        c.rank < (u.pc p).rank + 8) : v.weight size chunk < u.weight size chunk := by
  have hsum := sum_update Pc.rank u.pc p c
  unfold State.weight
  rw [hpc]
  rcases h with ⟨hnext, hlt⟩ | ⟨hnext, hmore, hlt⟩ <;> rw [hnext] <;> omega

/-! ## Who can go on -/

/-- A thread that has begun, has not ended and does not wait for a held mutex takes a step. -/
theorem thread_advances (hinv : Inv size chunk u) (hchunk : chunk ≠ 0)
    (hsmall : size / chunk < 2 ^ 31) (hbegun : u.pc p ≠ .off) (hended : (u.pc p).ended = false)
    (hfree : (u.pc p).waits = true → u.locks () = none) :
    ∃ v, u.thread_work size chunk p true = some v ∧ v.phase = u.phase ∧
      v.weight size chunk < u.weight size chunk := by
  have hunlock : (u.pc p).holds = some () → ∀ c, u.unlock p c = some
      ({ u with locks := Function.update u.locks () none }.goto p c) := fun hheld c =>
    Locks.unlock_map ((hinv.owned () p).mpr hheld)
  have hlock : (u.pc p).waits = true → ∀ c, u.lock p c = some
      ({ u with locks := Function.update u.locks () (some p) }.goto p c) := fun hwaits c =>
    Locks.lock_map (hfree hwaits)
  unfold State.thread_work
  cases hpc : u.pc p with
  | off => exact absurd hpc hbegun
  | done | failed => rw [hpc] at hended; cases hended
  | malloc | start | pread c | errorStore line =>
    exact ⟨_, rfl, rfl, weight_lt rfl (.inl ⟨rfl, by simp [hpc, Pc.rank]⟩)⟩
  | lock | errorLock line =>
    exact ⟨_, hlock (by rw [hpc]; rfl) _, rfl, weight_lt rfl (.inl ⟨rfl, by simp [hpc, Pc.rank]⟩)⟩
  | unlock c | leave | errorUnlock =>
    exact ⟨_, hunlock (by rw [hpc]; rfl) _, rfl, weight_lt rfl (.inl ⟨rfl, by simp [hpc, Pc.rank]⟩)⟩
  | test =>
    refine ⟨_, if_neg hchunk, rfl, weight_lt rfl (.inl ⟨rfl, ?_⟩)⟩
    rw [hpc]
    split <;> simp [Pc.rank]
  | increment c =>
    have hfits := hinv.fits p
    rw [hpc] at hfits
    have hlt : u.next_chunk < size / chunk := hfits.1
    refine ⟨_, if_pos (by omega), rfl, weight_lt rfl (.inr ⟨rfl, hlt, ?_⟩)⟩
    simp [hpc, Pc.rank]
  | node c => exact ⟨_, if_pos rfl, rfl, weight_lt rfl (.inl ⟨rfl, by simp [hpc, Pc.rank]⟩)⟩

/-! ## Who has begun -/

structure Begun (u : State n) : Prop where
  le : u.created ≤ n
  on : ∀ q : Fin n, q < u.created → u.pc q ≠ .off

theorem thread_on {ok : Bool} (h : u.thread_work size chunk p ok = some v) :
    v.pc p ≠ .off ∧ v.created = u.created := by
  unfold State.thread_work at h
  cases hpc : u.pc p with
  | off | done | failed => simp [hpc] at h
  | malloc | pread c =>
    simp only [hpc, Option.some.injEq] at h
    subst h
    cases ok <;> simp [State.goto]
  | start | errorStore line =>
    simp only [hpc, Option.some.injEq] at h
    subst h
    simp [State.goto]
  | lock | unlock c | leave | errorLock line | errorUnlock =>
    simp only [hpc] at h
    obtain ⟨l, -, rfl⟩ := Option.map_eq_some_iff.mp h
    simp [State.goto]
  | test =>
    simp only [hpc] at h
    split at h
    · cases h
      exact ⟨by simp [hpc], rfl⟩
    · cases h
      refine ⟨?_, rfl⟩
      simp only [State.goto, Function.update_self]
      split <;> simp
  | increment c | node c =>
    simp only [hpc] at h
    split at h
    · cases h
      simp [State.goto]
    · cases h
      exact ⟨by simp [hpc], rfl⟩

theorem Begun.step {act : Act n} (h : Begun u) (hn : u.next size m act = some v) : Begun v := by
  unfold State.next at hn
  split at hn
  · split at hn
    · rename_i hlt
      cases hn
      refine ⟨hlt, fun q hq => ?_⟩
      show Function.update u.pc ⟨u.created, hlt⟩ .malloc q ≠ .off
      by_cases hqc : q = ⟨u.created, hlt⟩
      · rw [hqc, Function.update_self]
        exact nofun
      · have hne : q.val ≠ u.created := fun he => hqc (Fin.ext he)
        have hq' : q.val < u.created + 1 := hq
        rw [Function.update_of_ne hqc]
        exact h.on q (by omega)
    · cases hn
  · rename_i p ok _
    obtain ⟨hon, hcreated⟩ := thread_on hn
    refine ⟨hcreated ▸ h.le, fun q hq => ?_⟩
    by_cases hqp : q = p
    · rw [hqp]
      exact hon
    · rw [thread_others hn hqp]
      exact h.on q (hcreated ▸ hq)
  · cases hn

/-- All threads are created, and have left their loops. -/
def State.over (u : State n) : Prop := u.created = n ∧ ∀ p, (u.pc p).ended = true

theorem someone (hinv : Inv size chunk u) (hbegun : Begun u) (hnot : ¬ u.over) :
    u.created < n ∨ ∃ p, u.pc p ≠ .off ∧ (u.pc p).ended = false ∧
      ((u.pc p).waits = true → u.locks () = none) := by
  by_cases hcreated : u.created < n
  · exact .inl hcreated
  · have hall : u.created = n := Nat.le_antisymm hbegun.le (Nat.not_lt.mp hcreated)
    have hon : ∀ p : Fin n, u.pc p ≠ .off := fun p => hbegun.on p (by rw [hall]; exact p.isLt)
    refine .inr ?_
    cases hlock : u.locks () with
    | some p =>
      -- the holder goes on
      have hheld : (u.pc p).holds = some () := (hinv.owned () p).mp hlock
      refine ⟨p, hon p, ?_, fun hwaits => ?_⟩
      · cases hpc : u.pc p with
        | done | failed => rw [hpc] at hheld; cases hheld
        | _ => rfl
      · cases hpc : u.pc p with
        | lock | errorLock => rw [hpc] at hheld; cases hheld
        | _ => rw [hpc] at hwaits; cases hwaits
    | none =>
      by_contra hnobody
      refine hnot ⟨hall, fun p => ?_⟩
      by_contra hp
      exact hnobody ⟨p, hon p, Bool.eq_false_iff.mpr hp, fun _ => rfl⟩

/-! ## Addresses that are free -/

def FiniteHeap (mem : A → Option (Join.Cell A)) : Prop := {a | mem a ≠ none}.Finite

namespace FiniteHeap

variable {mem : A → Option (Join.Cell A)}

theorem update {c : Option (Join.Cell A)} {a : A} (h : FiniteHeap mem) :
    FiniteHeap (Function.update mem a c) := by
  refine (Set.Finite.insert a h).subset fun b hb => ?_
  by_cases hba : b = a
  · exact .inl hba
  · refine .inr ?_
    rwa [Set.mem_ofPred_eq, Function.update_of_ne hba] at hb

omit [DecidableEq A] in
theorem fresh [Infinite A] (h : FiniteHeap mem) : ∃ a b, mem a = none ∧ mem b = none ∧ a ≠ b := by
  obtain ⟨a, ha⟩ := Set.Finite.exists_notMem h
  obtain ⟨b, hb⟩ := (Set.Finite.insert a h).exists_notMem
  rw [Set.mem_insert_iff, not_or] at hb
  exact ⟨a, b, not_not.mp ha, not_not.mp hb.2, fun hab => hb.1 hab.symm⟩

variable {j k : Join.State A}

theorem link {tail p : Option A} {c : Join.Pc A} (h : FiniteHeap j.mem) :
    FiniteHeap (j.link tail p c).mem := by
  unfold Join.State.link
  split
  · exact h
  · split
    · exact h.update
    · exact h

theorem concat (h : FiniteHeap j.mem) (hn : j.concat_and_print n = some k) : FiniteHeap k.mem := by
  unfold Join.State.concat_and_print at hn
  split at hn <;> cases hn <;> try exact h
  · unfold Join.State.test
    split
    · exact h
    · split
      · exact h
      · exact h.link
  · unfold Join.State.walk
    split <;> exact h
  · unfold Join.State.print
    split
    · split <;> exact h
    · exact h
  · unfold Join.State.free
    split
    · split
      · exact h.update.update
      · exact h
    · exact h

theorem next {act : Join.Act A} (h : FiniteHeap j.mem) (hn : j.next n act = some k) :
    FiniteHeap k.mem := by
  cases act with
  | concat => exact h.concat hn
  | push i a b text =>
    simp only [Join.State.next, Join.State.push] at hn
    split at hn
    · cases hn
      exact h.update.update
    · cases hn

end FiniteHeap

/-! ## The run to the end -/

/-- What the runs keep, for the run to the end. -/
structure Going (file : List Byte) (m : Nat) (s : Program n A) : Prop where
  whole : Whole file m s
  begun : Begun s.split
  heap : FiniteHeap s.join.mem

omit [DecidableEq A] in
theorem Going.start : Going file m (.start n A) := by
  refine ⟨.start, ⟨Nat.zero_le n, fun q hq => absurd hq (Nat.not_lt_zero _)⟩, ?_⟩
  have hnone : {a : A | (Program.start n A).join.mem a ≠ none} = ∅ :=
    Set.eq_empty_iff_forall_notMem.mpr fun a ha => ha rfl
  unfold FiniteHeap
  rw [hnone]
  exact Set.finite_empty

theorem Going.next {move : Move n A} (h : Going file m s) (hn : s.next file m move = some t) :
    Going file m t := by
  obtain ⟨hsplit, hjoin⟩ := parts hn
  refine ⟨h.whole.next hn, ?_, ?_⟩
  · rcases hsplit with hsame | ⟨hsame, -⟩ | ⟨act, hact⟩
    · rw [hsame]
      exact h.begun
    · rw [hsame]
      exact ⟨h.begun.le, h.begun.on⟩
    · exact h.begun.step hact
  · rcases hjoin with hsame | ⟨act, hact⟩
    · rw [hsame]
      exact h.heap
    · exact h.heap.next hact

theorem Going.reach (h : (program file m n A).Reach s) : Going file m s := by
  refine h.inv (I := Going file m) ?_ fun _ _ _ _ hi hn => hi.next hn
  rintro _ rfl
  exact .start

/-- A thread whose step is enabled makes it, with addresses for its node. -/
theorem Going.thread [Infinite A] (h : Going file m s) (hrun : s.split.phase = .running)
    (hstep : s.split.thread_work file.length (file.length / m) p true = some u) :
    ∃ move t, s.next file m move = some t ∧ t.split = u := by
  have hnext : s.split.next file.length m (.thread p true) = some u := by
    unfold State.next
    rw [hrun]
    exact hstep
  by_cases hnode : ∃ c, s.split.pc p = .node c
  · obtain ⟨c, hc⟩ := hnode
    obtain ⟨a, b, ha, hb, hab⟩ := h.heap.fresh
    have hruns : s.join.pc.runs p = true := by
      by_contra hnot
      have hended := returned_ended (h.whole.returned p (Bool.eq_false_iff.mpr hnot))
      rw [hc] at hended
      cases hended
    obtain ⟨j, hpush⟩ : ∃ j, s.join.push n p a b (line file (file.length / m) c) = some j :=
      ⟨_, if_pos ⟨p.isLt, hruns, ha, hb, hab⟩⟩
    refine ⟨.push p a (some b), { s with split := u, join := j }, ?_, rfl⟩
    simp only [Program.next, Program.push, hc, hnext, Option.bind_some, hpush, Option.map_some]
  · refine ⟨.thread p true, { s with split := u }, ?_, rfl⟩
    simp only [Program.next, Program.thread_work]
    split
    · rename_i c hc _
      exact absurd ⟨c, hc⟩ hnode
    · rw [hnext]
      rfl

theorem Going.advances [Infinite A] (h : Going file m s) (hrun : s.split.phase = .running)
    (hchunk : file.length / m ≠ 0) (hsmall : file.length / (file.length / m) < 2 ^ 31) :
    s.split.over ∨ ∃ move t, s.next file m move = some t ∧
      (Going file m t ∧ t.split.phase = .running) ∧
      t.split.weight file.length (file.length / m) <
        s.split.weight file.length (file.length / m) := by
  by_cases hover : s.split.over
  · exact .inl hover
  · refine .inr ?_
    rcases someone h.whole.split.inv h.begun hover with hlt | ⟨p, hon, hended, hfree⟩
    · have hoff := h.whole.split.inv.uncreated ⟨s.split.created, hlt⟩ (Nat.le_refl _)
      obtain ⟨u, hu, hpc, hchunks, hphase⟩ : ∃ u, s.split.next file.length m .create = some u ∧
          u.pc = Function.update s.split.pc ⟨s.split.created, hlt⟩ .malloc ∧
          u.next_chunk = s.split.next_chunk ∧ u.phase = .running := by
        unfold State.next
        rw [hrun]
        exact ⟨_, dif_pos hlt, rfl, rfl, hrun⟩
      have hnext : s.next file m .create = some { s with split := u } := by
        simp only [Program.next, hu, Option.map_some]
      refine ⟨.create, _, hnext, ⟨h.next hnext, hphase⟩, weight_lt hpc (.inl ⟨hchunks, ?_⟩)⟩
      simp [hoff, Pc.rank]
    · obtain ⟨u, hu, hphase, hweight⟩ :=
        thread_advances h.whole.split.inv hchunk hsmall hon hended hfree
      obtain ⟨move, t, hn, rfl⟩ := h.thread hrun hu
      exact ⟨move, t, hn, ⟨h.next hn, hphase.trans hrun⟩, hweight⟩

/-! ## The lists of the threads -/

omit [DecidableEq A] in
/-- A thread that has left its loop and has not returned goes on with its `print_list`. -/
theorem exists_print (h : Told s p) (hrun : s.split.phase = .running) (hdone : s.split.pc p = .done)
    (hown : (s.own p).finished = false) : ∃ t, s.print_list p = some t := by
  have hdefined := h.defined
  unfold Program.print_list
  rw [hrun, hdone]
  cases hpc : s.own p with
  | waiting => exact ⟨_, rfl⟩
  | printing tmp =>
    cases tmp with
    | none => exact ⟨_, rfl⟩
    | some a => exact ⟨_, rfl⟩
  | returned =>
    rw [hpc] at hown
    cases hown
  | undefined => exact absurd hpc hdefined

open Finset in
theorem Going.prints (h : Going file m s) (hrun : s.split.phase = .running) (hover : s.split.over) :
    (∀ p, s.returned p = true) ∨ ∃ move t, s.next file m move = some t ∧
      (Going file m t ∧ t.split = s.split) ∧ ∑ p, t.left p < ∑ p, s.left p := by
  by_cases hall : ∀ p, s.returned p = true
  · exact .inl hall
  · obtain ⟨p, hp⟩ := not_forall.mp hall
    have hended := hover.2 p
    unfold Program.returned at hp
    obtain ⟨hdone, hown⟩ : s.split.pc p = .done ∧ (s.own p).finished = false := by
      cases hpc : s.split.pc p with
      | done =>
        rw [hpc] at hp
        exact ⟨rfl, Bool.eq_false_iff.mpr hp⟩
      | failed =>
        rw [hpc] at hp
        exact absurd rfl hp
      | _ =>
        rw [hpc] at hended
        cases hended
    obtain ⟨t, hn⟩ := exists_print (h.whole.told p) hrun hdone hown
    have hprints := Split.prints hn
    have hruns := h.whole.unjoined hdone hown
    have hleft := ((h.whole.told p).print h.whole.join hruns hn).2
    have hnext : s.next file m (.print p) = some t := hn
    refine .inr ⟨.print p, t, hnext, ⟨h.next hnext, hprints.split⟩, ?_⟩
    refine sum_lt_sum (fun q _ => ?_) ⟨p, mem_univ p, hleft⟩
    by_cases hqp : q = p
    · exact hqp ▸ Nat.le_of_lt hleft
    · unfold Program.left
      rw [hprints.own q hqp, hprints.said q hqp, hprints.join]

/-! ## The end -/

/-- When all threads have returned, `concat_and_print` runs alone. -/
theorem concat_alone {as : List (Join.Act A)} {j : Join.State A} (hrun : s.split.phase = .running)
    (hcreated : s.split.created = n) (hall : ∀ p, s.returned p = true) (has : ∀ a ∈ as, a = .concat)
    (he : (Join.joins n).exec s.join as = some j) :
    ∃ moves, (program file m n A).exec s moves = some { s with join := j } := by
  induction as generalizing s with
  | nil =>
    cases he
    exact ⟨[], rfl⟩
  | cons a as ih =>
    obtain ⟨rfl, hrest'⟩ := List.forall_mem_cons.mp has
    obtain ⟨k, hk, hrest⟩ := LTS.exec_cons_some.mp he
    obtain ⟨moves, hmoves⟩ := ih (s := { s with join := k }) hrun hcreated hall hrest' hrest
    have hjoinable : s.joinable = true := by
      unfold Program.joinable
      split
      · exact decide_eq_true fun p _ => hall p
      · rfl
    have hnext : (program file m n A).next s .concat = some { s with join := k } := by
      show s.concat_and_print = _
      unfold Program.concat_and_print
      rw [if_pos ⟨hrun, hcreated, hjoinable⟩]
      exact (congrArg _ hk).trans rfl
    exact ⟨.concat :: moves, (LTS.exec_cons hnext moves).trans hmoves⟩

/-- From every state of a running process, `concat_and_print` comes to its end. -/
theorem Going.completes [Infinite A] (h : Going file m s) (hrun : s.split.phase = .running)
    (hchunk : file.length / m ≠ 0) (hsmall : file.length / (file.length / m) < 2 ^ 31) :
    ∃ moves t, (program file m n A).exec s moves = some t ∧ t.join.pc = .returned := by
  obtain ⟨moves, t, -, he, ⟨ht, hrun'⟩, hover⟩ := LTS.run_to (L := program file m n A)
    (P := fun _ => True) (I := fun s => Going file m s ∧ s.split.phase = .running)
    (G := fun s => s.split.over) (fun s => s.split.weight file.length (file.length / m))
    (fun s hs => (hs.1.advances hs.2 hchunk hsmall).imp_right
      fun ⟨move, t, hn, hI, hlt⟩ => ⟨move, t, trivial, hn, hI, hlt⟩) ⟨h, hrun⟩
  obtain ⟨moves', u, -, he', ⟨hu, hsplit⟩, hall⟩ := LTS.run_to (L := program file m n A)
    (P := fun _ => True) (I := fun u => Going file m u ∧ u.split = t.split)
    (G := fun u => ∀ p, u.returned p = true) (fun u => ∑ p, u.left p)
    (fun u hs => (hs.1.prints (hs.2 ▸ hrun') (hs.2 ▸ hover)).imp_right
      fun ⟨move, v, hn, hI, hlt⟩ => ⟨move, v, trivial, hn, ⟨hI.1, hI.2.trans hs.2⟩, hlt⟩) ⟨ht, rfl⟩
  obtain ⟨as, j, has, hj, hpc⟩ := hu.whole.join.leads
  obtain ⟨moves'', hmoves⟩ : ∃ moves'', (program file m n A).exec u moves'' = _ :=
    concat_alone (hsplit ▸ hrun') (hsplit ▸ hover.1) hall has hj
  refine ⟨moves ++ (moves' ++ moves''), { u with join := j }, ?_, hpc⟩
  rw [LTS.exec_append, he, Option.bind_some, LTS.exec_append, he', Option.bind_some]
  exact hmoves

theorem defined_reach (hchunk : file.length / m ≠ 0)
    (hsmall : file.length / (file.length / m) < 2 ^ 31)
    (h : (program file m n A).ReachIf (fun _ move => move.allocates = true) s) :
    s.split.phase ≠ .undefined := by
  refine h.inv (I := fun s => s.split.phase ≠ .undefined) ?_ fun s move t hr hs hallocates hn => ?_
  · rintro _ rfl
    exact nofun
  · rcases (parts hn).1 with hsame | ⟨-, hfails⟩ | ⟨act, hact⟩
    · rwa [hsame]
    · cases hallocates.symm.trans hfails
    · exact defined_step (Whole.reach hr.reach).split.inv hchunk hsmall hs hact

end Ops.Split
