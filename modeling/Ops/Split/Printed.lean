import Mathlib.Algebra.BigOperators.Fin
import Mathlib.Data.Finset.Card
import Ops.Split.Account
import Ops.Split.Own

/-!
# What the splitter prints

A step of the whole program is one of the threads, one of `concat_and_print`, or one of both that
adds a node (`Whole`): so the list that `concat_and_print` has of a thread is the text of the
chunks the thread has taken. When it returns, it has printed every chunk once, but for one at most
of each thread that has failed, the other threads have printed their own chunks, and `main` reports
a failure exactly when there is one (`Printed`).
-/

namespace Ops.Split

variable {n size chunk m : Nat} {A : Type} {file : List Byte}
variable {s t : Program n A} {u v : State n} {p q : Fin n}

/-! ## Steps of a thread -/

theorem Pc.ended_pending {c : Pc} (h : c.ended = true) : c.pending = [] := by
  cases c with
  | done | failed => rfl
  | _ => cases h

theorem thread_others {ok : Bool} (h : u.thread_work size chunk p ok = some v) (hq : q ≠ p) :
    v.pc q = u.pc q := by
  unfold State.thread_work at h
  cases hpc : u.pc p with
  | off | done | failed => simp [hpc] at h
  | malloc | start | pread c | errorStore line =>
    simp only [hpc, Option.some.injEq] at h
    subst h
    exact Function.update_of_ne hq ..
  | lock | unlock c | leave | errorLock line | errorUnlock =>
    simp only [hpc] at h
    obtain ⟨l, -, rfl⟩ := Option.map_eq_some_iff.mp h
    exact Function.update_of_ne hq ..
  | test =>
    simp only [hpc] at h
    split at h
    · cases h
      rfl
    · cases h
      exact Function.update_of_ne hq ..
  | increment c | node c =>
    simp only [hpc] at h
    split at h
    · cases h
      exact Function.update_of_ne hq ..
    · cases h
      rfl

theorem thread_head {ok : Bool} (h : u.thread_work size chunk p ok = some v)
    (hnode : ∀ c, u.pc p = .node c → ok = false) : v.head = u.head := by
  unfold State.thread_work at h
  cases hpc : u.pc p with
  | off | done | failed => simp [hpc] at h
  | malloc | start | pread c | errorStore line =>
    simp only [hpc, Option.some.injEq] at h
    subst h
    rfl
  | lock | unlock c | leave | errorLock line | errorUnlock =>
    simp only [hpc] at h
    obtain ⟨l, -, rfl⟩ := Option.map_eq_some_iff.mp h
    rfl
  | test | increment c =>
    simp only [hpc] at h
    split at h <;> cases h <;> rfl
  | node c =>
    simp only [hpc, hnode c hpc] at h
    cases h
    rfl

theorem thread_ended {ok : Bool} (h : u.thread_work size chunk p ok = some v) :
    (u.pc p).ended = false := by
  cases hpc : u.pc p with
  | done | failed =>
    unfold State.thread_work at h
    simp [hpc] at h
  | _ => rfl

/-! ## Steps of `concat_and_print` -/

section
variable {j k : Join.State A}

theorem link_pc [DecidableEq A] (j : Join.State A) (tail p : Option A) (c : Join.Pc A) :
    (j.link tail p c).pc = .undefined ∨ (j.link tail p c).pc = c := by
  unfold Join.State.link
  split
  · exact .inl rfl
  · split
    · exact .inr rfl
    · exact .inl rfl

theorem test_runs [DecidableEq A] (j : Join.State A) (i : Nat) (head tail : Option A) (q : Nat) :
    (j.test i head tail).pc = .undefined ∨ (j.test i head tail).pc.runs q = decide (i < q) := by
  unfold Join.State.test
  split
  · exact .inr rfl
  · split
    · exact .inr rfl
    · rcases link_pc j tail _ (.walk i _ _) with hpc | hpc
      · exact .inl hpc
      · exact .inr (by rw [hpc]; rfl)

theorem walk_runs (j : Join.State A) (i : Nat) (head : Option A) (tmp : A) (q : Nat) :
    (j.walk i head tmp).pc = .undefined ∨ (j.walk i head tmp).pc.runs q = decide (i < q) := by
  unfold Join.State.walk
  split
  · exact .inr rfl
  · exact .inr rfl
  · exact .inl rfl

/-- A thread that is joined with this step is the one that the step waits for. -/
theorem concat_runs [DecidableEq A] (h : j.concat_and_print n = some k)
    (hdefined : k.pc ≠ .undefined) {i : Nat} (hi : i < n) (hruns : k.pc.runs i = false) :
    j.pc.runs i = false ∨ ∃ head tail, j.pc = .join i head tail := by
  unfold Join.State.concat_and_print at h
  split at h
  · rename_i i' head tail hpc
    cases h
    by_cases hn : i' < n
    · simp only [if_pos hn, Join.Pc.runs, decide_eq_false_iff_not] at hruns
      by_cases hii : i = i'
      · exact .inr ⟨head, tail, hii ▸ hpc⟩
      · exact .inl (by rw [hpc]; exact decide_eq_false (by omega))
    · exact .inl (by rw [hpc]; exact decide_eq_false (by omega))
  · rename_i i' head tail hpc
    cases h
    have hrest := (test_runs j i' head tail i).resolve_left hdefined
    exact .inl (by rw [hpc]; exact hrest.symm.trans hruns)
  · rename_i i' head tmp hpc
    cases h
    have hrest := (walk_runs j i' head tmp i).resolve_left hdefined
    exact .inl (by rw [hpc]; exact hrest.symm.trans hruns)
  · exact .inl (by rw [‹j.pc = _›]; rfl)
  · exact .inl (by rw [‹j.pc = _›]; rfl)
  · exact .inl (by rw [‹j.pc = _›]; rfl)
  · exact .inl (by rw [‹j.pc = _›]; rfl)
  · cases h
  · cases h

end

/-! ## The whole program -/

structure Whole (file : List Byte) (m : Nat) (s : Program n A) : Prop where
  split : Accounted file.length (file.length / m) s.split
  join : Join.Inv n s.join
  /-- The list of a thread is the text of its chunks. -/
  lists : ∀ p : Fin n, (s.join.lists p).map Join.Entry.text =
    (s.split.head p).map (line file (file.length / m))
  told : ∀ p, Told s p
  /-- Who is joined has returned. -/
  returned : ∀ p : Fin n, s.join.pc.runs p = false → s.returned p = true

/-- A step of the program is a step of its parts, or `my_strdup` without memory. -/
theorem parts [DecidableEq A] {move : Move n A} (hn : s.next file m move = some t) :
    (t.split = s.split ∨ t.split = { s.split with phase := .undefined } ∧ move.allocates = false ∨
        ∃ act, s.split.next file.length m act = some t.split) ∧
      (t.join = s.join ∨ ∃ act, s.join.next n act = some t.join) := by
  cases move with
  | create =>
    obtain ⟨u, hu, rfl⟩ := Option.map_eq_some_iff.mp hn
    exact ⟨.inr (.inr ⟨_, hu⟩), .inl rfl⟩
  | thread p ok =>
    simp only [Program.next, Program.thread_work] at hn
    split at hn
    · cases hn
    · obtain ⟨u, hu, rfl⟩ := Option.map_eq_some_iff.mp hn
      exact ⟨.inr (.inr ⟨_, hu⟩), .inl rfl⟩
  | push p a b =>
    simp only [Program.next, Program.push] at hn
    split at hn
    · obtain ⟨u, hu, hn⟩ := Option.bind_eq_some_iff.mp hn
      obtain ⟨j, hj, rfl⟩ := Option.map_eq_some_iff.mp hn
      exact ⟨.inr (.inr ⟨_, hu⟩), .inr ⟨.push p a _ _, hj⟩⟩
    · split at hn
      · cases hn
        exact ⟨.inr (.inl ⟨rfl, rfl⟩), .inl rfl⟩
      · cases hn
    · cases hn
  | print p =>
    have hprints := prints hn
    exact ⟨.inl hprints.split, .inl hprints.join⟩
  | concat =>
    simp only [Program.next, Program.concat_and_print] at hn
    split at hn
    · obtain ⟨j, hj, rfl⟩ := Option.map_eq_some_iff.mp hn
      exact ⟨.inl rfl, .inr ⟨.concat, hj⟩⟩
    · cases hn

namespace Whole

theorem start : Whole file m (.start n A) := by
  refine ⟨.start, Join.State.Start.inv ?_, fun _ => rfl, fun _ => rfl, fun p hp => ?_⟩
  · exact ⟨rfl, fun _ _ => rfl, ⟨fun _ _ => .nil, fun _ _ _ _ _ _ ha => (by cases ha)⟩, rfl, rfl, rfl⟩
  · exact absurd hp (by simp [Program.start, Join.Pc.runs])

/-- A step that prints nothing, and leaves the threads as they are that have left their loops. -/
theorem frame (h : Whole file m s) (hsplit : Accounted file.length (file.length / m) t.split)
    (hjoin : Join.Inv n t.join) (hlists : ∀ p : Fin n, (t.join.lists p).map Join.Entry.text =
      (t.split.head p).map (line file (file.length / m)))
    (hown : t.own = s.own) (hsaid : t.said = s.said)
    (hkeep : ∀ q, (s.split.pc q).ended = true →
      t.split.pc q = s.split.pc q ∧ t.join.lists q = s.join.lists q)
    (hruns : ∀ q : Fin n, t.join.pc.runs q = false → s.returned q = true) : Whole file m t := by
  refine ⟨hsplit, hjoin, hlists, fun q => (h.told q).frame hown hsaid (hkeep q), fun q hq => ?_⟩
  have hreturned := hruns q hq
  have hpc := (hkeep q (returned_ended hreturned)).1
  unfold Program.returned at hreturned ⊢
  rwa [hpc, hown]

theorem thread {ok : Bool} (h : Whole file m s)
    (hn : s.split.next file.length m (.thread p ok) = some u)
    (hnode : ∀ c, s.split.pc p = .node c → ok = false) : Whole file m { s with split := u } := by
  have hwork : s.split.thread_work file.length (file.length / m) p ok = some u := by
    unfold State.next at hn
    split at hn
    · cases ‹Act.thread p ok = .create›
    · cases ‹Act.thread p ok = .thread _ _›
      exact hn
    · cases hn
  refine h.frame (h.split.step hn) h.join (fun q => ?_) rfl rfl (fun q hq => ⟨?_, rfl⟩) h.returned
  · show _ = (u.head q).map _
    rw [thread_head hwork hnode]
    exact h.lists q
  · have hqp : q ≠ p := fun hqp => by
      rw [hqp, thread_ended hwork] at hq
      cases hq
    exact thread_others hwork hqp

theorem create (h : Whole file m s) (hn : s.split.next file.length m .create = some u) :
    Whole file m { s with split := u } := by
  have hstep := h.split.step hn
  unfold State.next at hn
  split at hn
  · split at hn
    · rename_i hlt
      cases hn
      refine h.frame hstep h.join h.lists rfl rfl (fun q hq => ⟨?_, rfl⟩) h.returned
      have hne : q ≠ ⟨s.split.created, hlt⟩ := fun hqc => by
        rw [hqc, h.split.inv.uncreated _ (Nat.le_refl _)] at hq
        cases hq
      exact Function.update_of_ne hne ..
    · cases hn
  · cases ‹Act.create = .thread _ _›
  · cases hn

theorem push [DecidableEq A] {a : A} {b : Option A} (h : Whole file m s)
    (hn : s.push file m p a b = some t) : Whole file m t := by
  unfold Program.push at hn
  split at hn
  · rename_i chunk_start b hpc
    obtain ⟨u, hu, hn⟩ := Option.bind_eq_some_iff.mp hn
    obtain ⟨j, hj, rfl⟩ := Option.map_eq_some_iff.mp hn
    have hwork : u = { s.split with
        head := Function.update s.split.head p (chunk_start :: s.split.head p) }.goto p .lock := by
      unfold State.next at hu
      split at hu
      · cases ‹Act.thread p true = .create›
      · cases ‹Act.thread p true = .thread _ _›
        simp only [State.thread_work, hpc, if_true, Option.some.injEq] at hu
        exact hu.symm
      · cases hu
    have hne : ∀ q, (s.split.pc q).ended = true → q ≠ p := fun q hq hqp => by
      rw [hqp, hpc] at hq
      cases hq
    have hjoin : Join.Inv n j := h.join.next (a := .push p a b _) hj
    unfold Join.State.push at hj
    split at hj
    · cases hj
      refine h.frame (h.split.step hu) hjoin (fun q => ?_) rfl rfl (fun q hq => ⟨?_, ?_⟩) h.returned
      · rw [hwork]
        by_cases hqp : q = p
        · subst hqp
          simp only [State.goto, Function.update_self, List.map_cons, h.lists q]
        · have hval : q.val ≠ p.val := fun he => hqp (Fin.ext he)
          simp only [State.goto, Function.update_of_ne hqp, Function.update_of_ne hval, h.lists q]
      · rw [hwork]
        exact Function.update_of_ne (hne q hq) ..
      · exact Function.update_of_ne (fun he => hne q hq (Fin.ext he)) ..
    · cases hj
  · split at hn
    · cases hn
      exact h.frame h.split.undefined h.join h.lists rfl rfl (fun _ _ => ⟨rfl, rfl⟩) h.returned
    · cases hn
  · cases hn

theorem unjoined (h : Whole file m s) (hdone : s.split.pc p = .done)
    (hown : (s.own p).finished = false) : s.join.pc.runs p = true := by
  by_contra hnot
  have hreturned := h.returned p (Bool.eq_false_iff.mpr hnot)
  unfold Program.returned at hreturned
  rw [hdone] at hreturned
  cases hown.symm.trans hreturned

theorem print (h : Whole file m s) (hn : s.print_list p = some t) : Whole file m t := by
  have hprints := prints hn
  have hruns := h.unjoined hprints.done hprints.begun
  refine ⟨hprints.split ▸ h.split, hprints.join ▸ h.join, fun q => ?_, fun q => ?_, fun q hq => ?_⟩
  · rw [hprints.join, hprints.split]
    exact h.lists q
  · by_cases hqp : q = p
    · rw [hqp]
      exact ((h.told p).print h.join hruns hn).1
    · exact (h.told q).other (hprints.own q hqp) (hprints.said q hqp) hprints.split hprints.join
  · rw [hprints.join] at hq
    have hqp : q ≠ p := fun hqp => by
      rw [hqp] at hq
      cases hq.symm.trans hruns
    have hreturned := h.returned q hq
    unfold Program.returned at hreturned ⊢
    rwa [hprints.split, hprints.own q hqp]

theorem concat [DecidableEq A] (h : Whole file m s) (hn : s.concat_and_print = some t) :
    Whole file m t := by
  unfold Program.concat_and_print at hn
  split at hn
  · rename_i hjoinable
    obtain ⟨j, hj, rfl⟩ := Option.map_eq_some_iff.mp hn
    have hjoin := h.join.concat hj
    have hlists := Join.concat_lists hj
    refine h.frame h.split hjoin (fun q => ?_) rfl rfl (fun q _ => ⟨rfl, ?_⟩) fun q hq => ?_
    · show (j.lists q).map _ = _
      rw [hlists]
      exact h.lists q
    · show j.lists q = _
      rw [hlists]
    · rcases concat_runs hj hjoin.defined q.isLt hq with hruns | ⟨head, tail, hpc⟩
      · exact h.returned q hruns
      · have hwait := hjoinable.2.2
        simp only [Program.joinable, hpc, decide_eq_true_eq] at hwait
        exact hwait q rfl
  · cases hn

theorem next [DecidableEq A] {move : Move n A} (h : Whole file m s)
    (hn : s.next file m move = some t) : Whole file m t := by
  cases move with
  | create =>
    obtain ⟨u, hu, rfl⟩ := Option.map_eq_some_iff.mp hn
    exact h.create hu
  | thread p ok =>
    simp only [Program.next, Program.thread_work] at hn
    split at hn
    · cases hn
    · rename_i hnot
      obtain ⟨u, hu, rfl⟩ := Option.map_eq_some_iff.mp hn
      exact h.thread hu fun c hc => Bool.eq_false_iff.mpr fun hok => hnot c hc hok
  | push p a b => exact h.push hn
  | print p => exact h.print hn
  | concat => exact h.concat hn

theorem reach [DecidableEq A] (h : (program file m n A).Reach s) : Whole file m s := by
  refine h.inv (I := Whole file m) ?_ fun _ _ _ _ hi hn => hi.next hn
  rintro _ rfl
  exact .start

end Whole

/-! ## What is printed -/

def lines (file : List Byte) (m : Nat) : List (List Byte) :=
  (List.range (file.length / (file.length / m))).map fun k =>
    line file (file.length / m) (k * (file.length / m))

open Finset in
/-- The number of the threads that have failed. -/
def Program.failures (s : Program n A) : Nat := #{p | s.split.pc p = .failed}

/-- What the threads and `concat_and_print` have printed, when it returns. -/
structure Printed (file : List Byte) (m : Nat) (s : Program n A) : Prop where
  /-- A thread that has not failed has printed its own chunks, the newest first. -/
  done : ∀ p, s.split.pc p = .done →
    s.said p = (s.split.head p).map (line file (file.length / m))
  failed : ∀ p, s.split.pc p = .failed → s.said p = []
  /-- The threads one after the other, and of each the newest chunk first. -/
  order : s.join.out = (List.finRange n).flatMap fun p =>
    (s.split.head p).map (line file (file.length / m))
  newest : ∀ p, (s.split.head p).Pairwise (· > ·)
  once : s.join.out.Subperm (lines file m)
  missing : (∃ p, s.split.pc p = .done) →
    (lines file m).length ≤ s.join.out.length + s.failures
  /-- `main` returns without an error only if the file is printed. -/
  all : s.split.error_line = 0 → s.join.out.Perm (lines file m)
  reported : s.split.error_line ≠ 0 ↔ ∃ p, s.split.pc p = .failed

/-! ## The printed chunks are the claimed ones -/

section
variable {l l' : List Nat}

/-- The chunks of all lists. -/
def State.taken (u : State n) : List Nat := (List.finRange n).flatMap u.head

theorem load_ended (h : ∀ p, (u.pc p).ended = true) (p : Fin n) : u.load p = u.head p := by
  unfold State.load
  rw [Pc.ended_pending (h p), List.nil_append]

theorem taken_count (u : State n) (x : Nat) : u.taken.count x =
    ((List.finRange n).map fun p => (u.head p).count x).sum := by
  unfold State.taken
  rw [List.count_flatMap]
  rfl

theorem taken_length (u : State n) :
    u.taken.length = ((List.finRange n).map fun p => (u.head p).length).sum := by
  unfold State.taken
  rw [List.length_flatMap]

theorem Account.taken_subperm (h : Account chunk u) (hended : ∀ p, (u.pc p).ended = true) :
    u.taken.Subperm u.claimed := by
  refine List.subperm_ext_iff.mpr fun x _ => ?_
  have honce := h.once x
  simp only [load_ended hended] at honce
  rwa [taken_count, ← Fin.sum_univ_def]

open Finset in
theorem Account.taken_missing (h : Account chunk u) (hended : ∀ p, (u.pc p).ended = true) :
    u.claimed.length ≤ u.taken.length + #{p | u.pc p = .failed} := by
  have hlost := h.lost
  simp only [load_ended hended] at hlost
  rw [sum_add_distrib] at hlost
  have hfailed : ∑ p, u.failing p = #{p | u.pc p = .failed} := by
    rw [card_filter]
    refine sum_congr rfl fun p _ => ?_
    unfold State.failing
    have hp := hended p
    cases hpc : u.pc p with
    | done | failed => simp [Pc.failing]
    | _ => rw [hpc] at hp; cases hp
  rw [taken_length, ← Fin.sum_univ_def]
  omega

end

namespace Whole

theorem out_eq (h : Whole file m s) (hpc : s.join.pc = .returned) :
    s.join.out = s.split.taken.map (line file (file.length / m)) := by
  have hfin : (List.range n) = (List.finRange n).map Fin.val := by
    rw [List.map_coe_finRange_eq_range]
  rw [(h.join.returned_done hpc).out]
  unfold Join.joined State.taken
  rw [hfin, List.flatMap_map, List.map_flatMap, List.map_flatMap]
  exact congrArg (List.finRange n).flatMap (funext fun p => h.lists p)

theorem all_returned (h : Whole file m s) (hpc : s.join.pc = .returned) (p : Fin n) :
    s.returned p = true :=
  h.returned p (by rw [hpc]; rfl)

theorem lines_eq (file : List Byte) (m : Nat) :
    lines file m = ((List.range (file.length / (file.length / m))).map
      (· * (file.length / m))).map (line file (file.length / m)) := by
  unfold lines
  rw [List.map_map]
  rfl

theorem claimed_sublist (h : Inv size chunk u) :
    u.claimed.Sublist ((List.range (size / chunk)).map (· * chunk)) := by
  rw [h.claimed]
  exact (List.range_sublist.mpr h.bound).map _

theorem printed (h : Whole file m s) (hn : 1 ≤ n) (hchunk : 0 < file.length / m)
    (hpc : s.join.pc = .returned) : Printed file m s := by
  have hended := fun p => returned_ended (h.all_returned hpc p)
  have haccount := h.split.account hchunk
  have hinv := h.split.inv
  have hout := h.out_eq hpc
  have hsub := haccount.taken_subperm hended
  have hmissing := haccount.taken_missing hended
  have hall : s.split.claimed.Subperm ((List.range (file.length / (file.length / m))).map
      (· * (file.length / m))) := (claimed_sublist hinv).subperm
  have hreported : s.split.error_line ≠ 0 ↔ ∃ p, s.split.pc p = .failed := by
    rw [h.split.reports.set]
    refine exists_congr fun p => ?_
    have hp := hended p
    cases hp' : s.split.pc p with
    | done => simp [Pc.reported]
    | failed => simp [Pc.reported]
    | _ => rw [hp'] at hp; cases hp
  have hlength : (∃ p, s.split.pc p = .done) →
      s.split.claimed.length = file.length / (file.length / m) := by
    rintro ⟨p, hp⟩
    rw [hinv.claimed, List.length_map, List.length_range]
    exact hinv.all_claimed hp
  refine ⟨fun p hp => ?_, fun p hp => (h.told p).failed hp, ?_, fun p => ?_, ?_, fun hdone => ?_,
    fun herror => ?_, hreported⟩
  · have hreturned := h.all_returned hpc p
    unfold Program.returned at hreturned
    rw [hp] at hreturned
    rw [(h.told p).all hreturned, h.lists p]
  · rw [hout]
    unfold State.taken
    rw [List.map_flatMap]
  · have hdesc := haccount.descending p
    rwa [load_ended hended] at hdesc
  · obtain ⟨l, hperm, hsublist⟩ := hsub.trans hall
    rw [hout, lines_eq]
    exact ⟨l.map _, hperm.map _, hsublist.map _⟩
  · rw [hout, List.length_map, lines, List.length_map, List.length_range, ← hlength hdone]
    exact hmissing
  · -- without a failure every thread is done, and no chunk is lost
    have hdone : ∀ p, s.split.pc p = .done := fun p => by
      have hp := hended p
      cases hp' : s.split.pc p with
      | done => rfl
      | failed => exact absurd herror (hreported.mpr ⟨p, hp'⟩)
      | _ => rw [hp'] at hp; cases hp
    have hnone : Finset.card {p | s.split.pc p = .failed} = 0 := by
      simp [hdone]
    rw [hout, lines_eq]
    refine ((hsub.trans hall).perm_of_length_le ?_).map _
    rw [List.length_map, List.length_range, ← hlength ⟨⟨0, hn⟩, hdone _⟩]
    omega

end Whole

end Ops.Split
