import Ops.Exam.Messages
import Ops.Lib.Update

/-!
# While the attempts are graded

In a run in which nobody starts before all have said `HERE`, a student that waits for an
answer has at most one attempt in the pipe, and nothing else is in it (`Grading`). When
all have passed the last stage, nothing is.
-/

namespace Ops.Exam

variable {n j : Nat} {pids : Nat → Nat} {e t : State}

def Msg.pid : Msg → Nat
  | .here pid => pid
  | .attempt _ pid _ => pid
  | .report pid _ => pid

/-- A student that has said `HERE`, and its pipe, while the attempts are graded. -/
inductive Sits : Student → List Note → Prop where
  | attempt (k i : Nat) (hi : i < 4) : Sits (.writeAttempt k i) []
  | waits (k i : Nat) (hi : i < 4) : Sits (.readAnswer k i) []
  | told (k i : Nat) (hi : i < 4) : Sits (.readAnswer k i) [.one]
  | report : Sits (.writeReport 4) []

theorem Sits.attempt_inv {k i : Nat} {notes : List Note} (h : Sits (.writeAttempt k i) notes) :
    i < 4 ∧ notes = [] := by
  cases h with
  | attempt k i hi => exact ⟨hi, rfl⟩

theorem Sits.answer_inv {k i : Nat} {notes : List Note} (h : Sits (.readAnswer k i) notes) :
    i < 4 := by
  cases h with
  | waits k i hi => exact hi
  | told k i hi => exact hi

inductive Passed : Student → List Note → Prop where
  | told (k : Nat) (notes : List Note) : Passed (.readAnswer k 3) (.one :: notes)
  | report (notes : List Note) : Passed (.writeReport 4) notes
  | leaving (notes : List Note) : Passed .leaving notes
  | exited (notes : List Note) : Passed .exited notes
  | killed (notes : List Note) : Passed .killed notes

def Student.counted : Student → List Note → Bool
  | .readAnswer _ i, notes => i == 3 && !notes.isEmpty
  | .writeReport _, _ | .leaving, _ | .exited, _ | .killed, _ => true
  | _, _ => false

theorem counted_waits {k i : Nat} : (Student.readAnswer k i).counted [] = false :=
  Bool.and_false _

def Student.reports : Student → Bool
  | .readAnswer _ _ | .writeReport _ => true
  | _ => false

/-- `attempts` are in the pipe, and `busy` is the student that is about to be told. -/
structure Grading (n : Nat) (pids : Nat → Nat) (e : State) (attempts : List Msg)
    (busy : Option Nat) : Prop where
  sits : ∀ j < n, Sits (e.student j) (e.pipe j)
  by_waiting : ∀ m ∈ attempts, ∃ j < n, ∃ result k i, m = .attempt result (pids j) (i + 1) ∧
    e.student j = .readAnswer k i ∧ e.pipe j = [] ∧ busy ≠ some j
  once : (attempts.map Msg.pid).Nodup
  count : e.doneStudents = (List.range n).countP fun j => (e.student j).counted (e.pipe j)
  more : e.doneStudents < n

theorem Grading.pid_waiting {attempts : List Msg} {busy : Option Nat} (hpids : Distinct n pids)
    (hg : Grading n pids e attempts busy) (hj : j < n) {m : Msg} (hm : m ∈ attempts)
    (hpid : m.pid = pids j) :
    (∃ k i, e.student j = .readAnswer k i) ∧ e.pipe j = [] ∧ busy ≠ some j := by
  obtain ⟨l, hl, result, k, i, rfl, hq, hpipe, hbusy⟩ := hg.by_waiting m hm
  obtain rfl : l = j := hpids l hl j hj hpid
  exact ⟨⟨k, i, hq⟩, hpipe, hbusy⟩

theorem counted_moved {s : Student} {notes : List Note} (said : List Msg)
    (h : s.counted notes = (e.student j).counted (e.pipe j)) (l : Nat) :
    ((e.moved j s notes said).student l).counted ((e.moved j s notes said).pipe l) =
      (e.student l).counted (e.pipe l) := by
  by_cases hl : l = j
  · subst hl
    rw [(moved_self s notes said).1, (moved_self s notes said).2, h]
  · rw [(moved_other hl s notes said).1, (moved_other hl s notes said).2]

/-- Student `j`, who has no attempt in the pipe, takes another place. -/
theorem Grading.moved {attempts : List Msg} {busy : Option Nat} (hg : Grading n pids e attempts busy)
    {s : Student} {notes : List Note} (said : List Msg) (hsits : Sits s notes)
    (hcounted : s.counted notes = (e.student j).counted (e.pipe j))
    (hquiet : ∀ k i, ¬ (e.student j = .readAnswer k i ∧ e.pipe j = [])) :
    Grading n pids (e.moved j s notes said) attempts busy := by
  refine ⟨fun l hl => ?_, fun m hm => ?_, hg.once, ?_, hg.more⟩
  · by_cases hlj : l = j
    · subst hlj
      rw [(moved_self s notes said).1, (moved_self s notes said).2]
      exact hsits
    · rw [(moved_other hlj s notes said).1, (moved_other hlj s notes said).2]
      exact hg.sits l hl
  · obtain ⟨l, hl, result, k, i, rfl, hq, hpipe, hbusy⟩ := hg.by_waiting m hm
    have hlj : l ≠ j := fun h => hquiet k i (h ▸ ⟨hq, hpipe⟩)
    refine ⟨l, hl, result, k, i, rfl, ?_, ?_, hbusy⟩
    · rw [(moved_other hlj s notes said).1]; exact hq
    · rw [(moved_other hlj s notes said).2]; exact hpipe
  · exact hg.count.trans (countP_same fun l _ => counted_moved said hcounted l).symm

theorem Grading.attempted {attempts : List Msg} {busy : Option Nat} (hpids : Distinct n pids)
    (hg : Grading n pids e attempts busy) (hj : j < n) {k i result : Nat} (hi : i < 4)
    (hq : e.student j = .writeAttempt k i) (hbusy : busy ≠ some j) :
    Grading n pids (e.moved j (.readAnswer k i) (e.pipe j) [.attempt result (pids j) (i + 1)])
      (attempts ++ [.attempt result (pids j) (i + 1)]) busy := by
  have hpipe : e.pipe j = [] := (Sits.attempt_inv (hq ▸ hg.sits j hj)).2
  have hsits : Sits (.readAnswer k i) (e.pipe j) := by rw [hpipe]; exact .waits k i hi
  have hmoved := hg.moved [.attempt result (pids j) (i + 1)] hsits
    (by rw [hq, hpipe]; exact counted_waits) (by rw [hq]; nofun)
  refine { hmoved with by_waiting := fun m hm => ?_, once := ?_ }
  · rcases List.mem_append.mp hm with hm | hm
    · exact hmoved.by_waiting m hm
    · cases List.mem_singleton.mp hm
      refine ⟨j, hj, result, k, i, rfl, (moved_self _ _ _).1, ?_, hbusy⟩
      rw [(moved_self _ _ _).2, hpipe]
  · rw [List.map_append, List.nodup_append]
    refine ⟨hg.once, List.nodup_singleton _, fun p hp p' hp' => ?_⟩
    cases List.mem_singleton.mp hp'
    obtain ⟨m, hm, rfl⟩ := List.mem_map.mp hp
    intro heq
    obtain ⟨⟨k', i', hq'⟩, -⟩ := hg.pid_waiting hpids hj hm heq
    rw [hq] at hq'
    cases hq'

/-- A student's step while the attempts are graded; who reports has been told last. -/
theorem Grading.student_step {attempts : List Msg} {busy : Option Nat} (hpids : Distinct n pids)
    (hg : Grading n pids e attempts busy) (hj : j < n) (hopen : e.teacherReadable n)
    (hbusy : ∀ l, busy = some l → (∃ k i, e.student l = .readAnswer k i) ∧ e.pipe l = [])
    (hreport : ∀ stage, e.student j = .writeReport stage → e.doneStudents = n)
    {s : Student} {notes : List Note} {said : List Msg} (hd : Deed n pids e j s notes said) :
    Grading n pids (e.moved j s notes said) (attempts ++ said) busy := by
  have hsits := hg.sits j hj
  cases hd with
  | enter k hq => rw [hq] at hsits; cases hsits
  | hear k note notes hq hpipe => rw [hq] at hsits; cases hsits
  | here k hq hopen => rw [hq] at hsits; cases hsits
  | attempt k i result hq hopen =>
    rw [hq] at hsits
    apply hg.attempted hpids hj hsits.attempt_inv.1 hq
    intro hb
    obtain ⟨⟨k', i', hq'⟩, -⟩ := hbusy j hb
    rw [hq] at hq'
    cases hq'
  | answer k i note notes hq hpipe =>
    rw [hq, hpipe] at hsits
    cases hsits with
    | told k i hi =>
      rw [takeAnswer_one, List.append_nil]
      unfold stageLoop
      by_cases hmore : i + 1 < 4
      · rw [if_pos hmore]
        refine hg.moved [] (.attempt k (i + 1) hmore) ?_ (fun k' i' h => ?_)
        · rw [hq, hpipe]
          have hne : (i == 3) = false := by rw [beq_eq_false_iff_ne]; omega
          show false = (i == 3 && true)
          rw [hne]
          rfl
        · rw [hpipe] at h; cases h.2
      · obtain rfl : i = 3 := by omega
        rw [if_neg hmore]
        refine hg.moved [] .report ?_ (fun k' i' h => ?_)
        · rw [hq, hpipe]; rfl
        · rw [hpipe] at h; cases h.2
  | report stage hq hopen =>
    have hmore := hg.more
    have hdone := hreport stage hq
    omega
  | leave hq => rw [hq] at hsits; cases hsits
  | broken hq hclosed => exact absurd hopen hclosed

theorem Grading.congr {attempts : List Msg} {busy : Option Nat}
    (hg : Grading n pids e attempts busy) (hstudent : t.student = e.student)
    (hpipe : t.pipe = e.pipe) (hdone : t.doneStudents = e.doneStudents) :
    Grading n pids t attempts busy := by
  refine ⟨fun l hl => ?_, fun m hm => ?_, hg.once, ?_, ?_⟩
  · rw [hstudent, hpipe]; exact hg.sits l hl
  · rw [hstudent, hpipe]; exact hg.by_waiting m hm
  · rw [hstudent, hpipe, hdone]; exact hg.count
  · rw [hdone]; exact hg.more

theorem Grading.read {m : Msg} {rest : List Msg} (hg : Grading n pids e (m :: rest) none) :
    ∃ j < n, ∃ result k i, i < 4 ∧ m = .attempt result (pids j) (i + 1) ∧
      e.student j = .readAnswer k i ∧ e.pipe j = [] ∧ Grading n pids e rest (some j) := by
  obtain ⟨j, hj, result, k, i, rfl, hq, hpipe, -⟩ := hg.by_waiting m List.mem_cons_self
  have hi : i < 4 := by
    have hsits := hg.sits j hj
    rw [hq] at hsits
    exact hsits.answer_inv
  obtain ⟨hfirst, honce⟩ := List.nodup_cons.mp hg.once
  refine ⟨j, hj, result, k, i, hi, rfl, hq, hpipe, hg.sits, fun m hm => ?_, honce, hg.count, hg.more⟩
  obtain ⟨l, hl, result', k', i', rfl, hq', hpipe', -⟩ :=
    hg.by_waiting m (List.mem_cons_of_mem _ hm)
  refine ⟨l, hl, result', k', i', rfl, hq', hpipe', fun hb => ?_⟩
  obtain rfl : j = l := Option.some.inj hb
  have hmem := List.mem_map_of_mem (f := Msg.pid) hm
  exact hfirst hmem

/-- The count of the teacher after it has told student `j`. -/
def doneAfter (i done : Nat) : Nat := if i + 1 = 4 then done + 1 else done

theorem doneAfter_le (i done : Nat) : doneAfter i done ≤ done + 1 := by
  unfold doneAfter
  split <;> omega

theorem Grading.counted_told {attempts : List Msg} (hg : Grading n pids e attempts (some j))
    (hj : j < n) {k i : Nat} (hq : e.student j = .readAnswer k i) (hpipe : e.pipe j = [])
    (ht : t.student = e.student) (htpipe : t.pipe = Function.update e.pipe j [.one]) :
    doneAfter i e.doneStudents =
      (List.range n).countP fun l => (t.student l).counted (t.pipe l) := by
  have hother : ∀ l, l ≠ j → (t.student l).counted (t.pipe l) =
      (e.student l).counted (e.pipe l) := fun l hl => by
    rw [ht, htpipe, Function.update_of_ne hl]
  have hold : (e.student j).counted (e.pipe j) = false := by
    rw [hq, hpipe]; exact counted_waits
  have hnew : (t.student j).counted (t.pipe j) = (i == 3) := by
    rw [ht, htpipe, Function.update_self, hq]; exact Bool.and_true _
  unfold doneAfter
  rw [hg.count]
  by_cases hlast : i = 3
  · subst hlast
    rw [if_pos rfl]
    exact (countP_fall List.nodup_range (List.mem_range.mpr hj) hnew hold
      fun l hl => (hother l hl).symm).symm
  · rw [if_neg (by omega)]
    refine (countP_same fun l _ => ?_).symm
    by_cases hl : l = j
    · subst hl
      rw [hnew, hold, beq_eq_false_iff_ne]
      exact hlast
    · exact hother l hl

/-- The teacher has told student `j` that it has passed the stage. -/
theorem Grading.told {attempts : List Msg} (hg : Grading n pids e attempts (some j)) (hj : j < n)
    {k i : Nat} (hq : e.student j = .readAnswer k i) (hpipe : e.pipe j = [])
    (ht : t.student = e.student) (htpipe : t.pipe = Function.update e.pipe j [.one])
    (hdone : t.doneStudents = doneAfter i e.doneStudents) (hmore : t.doneStudents < n) :
    Grading n pids t attempts none := by
  refine ⟨fun l hl => ?_, fun m hm => ?_, hg.once,
    hdone.trans (hg.counted_told hj hq hpipe ht htpipe), hmore⟩
  · rw [ht, htpipe]
    by_cases hlj : l = j
    · subst hlj
      have hsits := hg.sits l hl
      rw [hq] at hsits
      rw [Function.update_self, hq]
      exact .told k i hsits.answer_inv
    · rw [Function.update_of_ne hlj]
      exact hg.sits l hl
  · obtain ⟨l, hl, result, k', i', rfl, hq', hpipe', hbusy⟩ := hg.by_waiting m hm
    have hlj : l ≠ j := fun h => hbusy (h ▸ rfl)
    refine ⟨l, hl, result, k', i', rfl, ?_, ?_, nofun⟩
    · rw [ht]; exact hq'
    · rw [htpipe, Function.update_of_ne hlj]; exact hpipe'

theorem Grading.all_told {attempts : List Msg} (hg : Grading n pids e attempts (some j))
    (hj : j < n) {k i : Nat} (hq : e.student j = .readAnswer k i) (hpipe : e.pipe j = [])
    (ht : t.student = e.student) (htpipe : t.pipe = Function.update e.pipe j [.one])
    (hdone : doneAfter i e.doneStudents = n) :
    (∀ l < n, Passed (t.student l) (t.pipe l) ∧ (t.student l).reports = true) ∧
      attempts = [] := by
  have hcount := hg.counted_told hj hq hpipe ht htpipe
  have hall : ∀ l < n, (t.student l).counted (t.pipe l) = true := by
    have hlen : (List.range n).countP (fun l => (t.student l).counted (t.pipe l)) =
        (List.range n).length := by rw [← hcount, hdone, List.length_range]
    intro l hl
    exact List.countP_eq_length.mp hlen l (List.mem_range.mpr hl)
  have hpassed : ∀ {s : Student} {notes : List Note}, Sits s notes → s.counted notes = true →
      Passed s notes ∧ s.reports = true := by
    intro s notes hsits hcounted
    cases hsits with
    | attempt k i hi => cases hcounted
    | waits k i hi =>
      rw [counted_waits] at hcounted
      cases hcounted
    | told k i hi =>
      obtain rfl : i = 3 := beq_iff_eq.mp ((Bool.and_true _).symm.trans hcounted)
      exact ⟨.told k [], rfl⟩
    | report => exact ⟨.report [], rfl⟩
  refine ⟨fun l hl => ?_, ?_⟩
  · have hcounted := hall l hl
    by_cases hlj : l = j
    · subst hlj
      have hsits := hg.sits l hl
      rw [hq] at hsits
      rw [ht, htpipe, Function.update_self, hq] at hcounted ⊢
      exact hpassed (.told k i hsits.answer_inv) hcounted
    · rw [ht, htpipe, Function.update_of_ne hlj] at hcounted ⊢
      exact hpassed (hg.sits l hl) hcounted
  · cases attempts with
    | nil => rfl
    | cons m rest =>
      obtain ⟨l, hl, result, k', i', rfl, hq', hpipe', hbusy⟩ := hg.by_waiting m List.mem_cons_self
      have hlj : l ≠ j := fun h => hbusy (h ▸ rfl)
      have hcounted := hall l hl
      rw [ht, htpipe, Function.update_of_ne hlj, hq', hpipe', counted_waits] at hcounted
      cases hcounted

end Ops.Exam
