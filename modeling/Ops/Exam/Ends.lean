import Ops.Exam.Order

/-!
# Every exam ends

`State.weight` bounds the steps that are left, as long as no student that waits for an answer
reads `done`. A message in the pipe to the teacher weighs 4, a note to a student 1.
-/

namespace Ops.Exam

variable {n j rand : Nat} {pids : Nat → Nat} {e t : State}

def Student.weight : Student → Nat
  | .forked => 32
  | .readCall _ | .writeHere _ => 31
  | .writeAttempt _ i => 11 + 5 * (3 - i)
  | .readAnswer _ i => 6 + 5 * (3 - i)
  | .writeReport _ => 6
  | .leaving => 1
  | .exited | .killed => 0

def Teacher.weight (n : Nat) : Teacher → Nat
  | .writeCall i => 2 * n + 8 + 2 * (n - i)
  | .readHere i => 2 * n + 6 + 2 * (n - i)
  | .test => 2 * n + 3
  | .readAttempt => 2 * n + 2
  | .writeOne _ _ => 2 * n + 5
  | .writeDone i => 2 * (n - i) + 2
  | .readReport i => 2 * (n - i)
  | .wait => 1
  | .exited | .killed => 0

/-- A student and its pipe. -/
def State.seatWeight (e : State) (j : Nat) : Nat := (e.student j).weight + (e.pipe j).length

open Finset in
def State.weight (n : Nat) (e : State) : Nat :=
  e.teacher.weight n + (if e.alarmSet then 1 else 0) + 4 * e.teacherPipe.length +
    ∑ l ∈ range n, e.seatWeight l

theorem begun_weight : (begun n).weight n ≤ 36 * n + 8 := by
  have hseats : ∀ l, (begun n).seatWeight l = 32 := fun _ => rfl
  have hteacher : (begun n).teacher.weight n ≤ 4 * n + 8 := by
    show (callLoop n 0).weight n ≤ 4 * n + 8
    unfold callLoop
    split
    · show 2 * n + 8 + 2 * (n - 0) ≤ 4 * n + 8
      omega
    · show 2 * n + 3 ≤ 4 * n + 8
      omega
  unfold State.weight
  rw [Finset.sum_congr rfl fun l _ => hseats l, Finset.sum_const, Finset.card_range]
  show (begun n).teacher.weight n + 0 + 0 + n • 32 ≤ 36 * n + 8
  rw [Nat.nsmul_eq_mul]
  omega

/-! ## A step of a student -/

theorem moved_weight (hj : j < n) (s : Student) (notes : List Note) (said : List Msg)
    (h : s.weight + notes.length + 4 * said.length < e.seatWeight j) :
    (e.moved j s notes said).weight n < e.weight n := by
  have hself : (e.moved j s notes said).seatWeight j = s.weight + notes.length := by
    unfold State.seatWeight
    rw [(moved_self s notes said).1, (moved_self s notes said).2]
  have hother : ∀ l, l ≠ j → (e.moved j s notes said).seatWeight l = e.seatWeight l := by
    intro l hl
    unfold State.seatWeight
    rw [(moved_other hl s notes said).1, (moved_other hl s notes said).2]
  have hsum := sum_change (Finset.mem_range.mpr hj) hother
  have hlen : (e.moved j s notes said).teacherPipe.length =
      e.teacherPipe.length + said.length := List.length_append
  unfold State.weight
  rw [hlen]
  show e.teacher.weight n + (if e.alarmSet then 1 else 0) + 4 * (e.teacherPipe.length + said.length) +
    ∑ l ∈ Finset.range n, (e.moved j s notes said).seatWeight l < _
  omega

theorem stageLoop_weight (k i : Nat) : (stageLoop k (i + 1)).weight = 6 + 5 * (3 - i) := by
  unfold stageLoop
  split
  · show 11 + 5 * (3 - (i + 1)) = _
    omega
  · show 6 = _
    omega

theorem alive_weight {s : Student} (h : s.alive = true) : 0 < s.weight := by
  cases s with
  | exited => cases h
  | killed => cases h
  | writeAttempt k i => exact Nat.lt_of_lt_of_le (by decide) (Nat.le_add_right 11 _)
  | readAnswer k i => exact Nat.lt_of_lt_of_le (by decide) (Nat.le_add_right 6 _)
  | _ => exact Nat.succ_pos _

theorem student_weight (hj : j < n) {s : Student} {notes : List Note} {said : List Msg}
    (hone : ∀ k i note notes, e.student j = .readAnswer k i → e.pipe j = note :: notes → note = .one)
    (hd : Deed n pids e j s notes said) : (e.moved j s notes said).weight n < e.weight n := by
  apply moved_weight hj
  unfold State.seatWeight
  cases hd with
  | enter k hq =>
    rw [hq]
    show 31 + _ + 0 < 32 + _
    omega
  | hear k note notes hq hpipe =>
    rw [hq, hpipe, List.length_cons]
    show 31 + _ + 0 < 31 + _
    omega
  | here k hq hopen =>
    rw [hq]
    show 26 + _ + 4 < 31 + _
    omega
  | attempt k i result hq hopen =>
    rw [hq]
    show 6 + 5 * (3 - i) + _ + 4 < 11 + 5 * (3 - i) + _
    omega
  | answer k i note notes hq hpipe =>
    obtain rfl := hone k i note notes hq hpipe
    rw [hq, hpipe, takeAnswer_one, stageLoop_weight, List.length_cons]
    show _ + 0 < 6 + 5 * (3 - i) + _
    omega
  | report stage hq hopen =>
    rw [hq]
    show 1 + _ + 4 < 6 + _
    omega
  | leave hq =>
    rw [hq]
    show 0 + _ + 0 < 1 + _
    omega
  | broken hq hclosed =>
    have halive := alive_weight hq
    show 0 + _ + 0 < _ + _
    omega

/-! ## A step of the teacher -/

theorem weight_lt {d : Nat}
    (hseats : ∑ l ∈ Finset.range n, t.seatWeight l ≤ ∑ l ∈ Finset.range n, e.seatWeight l + d)
    (hrest : t.teacher.weight n + (if t.alarmSet then 1 else 0) + 4 * t.teacherPipe.length + d <
      e.teacher.weight n + (if e.alarmSet then 1 else 0) + 4 * e.teacherPipe.length) :
    t.weight n < e.weight n := by
  unfold State.weight
  omega

theorem weight_seats (hstudent : t.student = e.student) (hpipe : t.pipe = e.pipe)
    (hrest : t.teacher.weight n + (if t.alarmSet then 1 else 0) + 4 * t.teacherPipe.length <
      e.teacher.weight n + (if e.alarmSet then 1 else 0) + 4 * e.teacherPipe.length) :
    t.weight n < e.weight n := by
  have hseats : ∀ l, t.seatWeight l = e.seatWeight l := fun l => by
    unfold State.seatWeight
    rw [hstudent, hpipe]
  exact weight_lt (d := 0) (Nat.le_of_eq (Finset.sum_congr rfl fun l _ => hseats l)) hrest

theorem weight_teacher (hstudent : t.student = e.student) (hpipe : t.pipe = e.pipe)
    (halarm : t.alarmSet = e.alarmSet) (hrest : t.teacher.weight n + 4 * t.teacherPipe.length <
      e.teacher.weight n + 4 * e.teacherPipe.length) : t.weight n < e.weight n := by
  apply weight_seats hstudent hpipe
  rw [halarm]
  omega

theorem note_seats (note : Note) : ∑ l ∈ Finset.range n,
    (e.setPipe j (e.pipe j ++ [note])).seatWeight l ≤ ∑ l ∈ Finset.range n, e.seatWeight l + 1 := by
  have hother : ∀ l, l ≠ j → (e.setPipe j (e.pipe j ++ [note])).seatWeight l = e.seatWeight l := by
    intro l hl
    unfold State.seatWeight State.setPipe
    dsimp only
    rw [Function.update_of_ne hl]
  have hself : (e.setPipe j (e.pipe j ++ [note])).seatWeight j = e.seatWeight j + 1 := by
    unfold State.seatWeight State.setPipe
    dsimp only
    rw [Function.update_self, List.length_append, List.length_singleton]
    omega
  by_cases hj : j ∈ Finset.range n
  · have hsum := sum_change hj hother
    omega
  · rw [Finset.sum_congr rfl fun l hl => hother l fun hlj => hj (hlj ▸ hl)]
    exact Nat.le_add_right _ 1

theorem note_weight {note : Note} {next : Teacher} (h : next.weight n + 1 < e.teacher.weight n) :
    (e.note n j note next).weight n < e.weight n := by
  unfold State.note
  split
  · apply weight_lt (d := 1)
    · exact note_seats (e := e) note
    · show next.weight n + (if e.alarmSet then 1 else 0) + 4 * e.teacherPipe.length + 1 < _
      omega
  · apply weight_teacher
    · rfl
    · rfl
    · rfl
    · show 0 + 4 * e.teacherPipe.length < _
      omega

theorem doneLoop_weight (i : Nat) : (doneLoop n i).weight n ≤ 2 * (n - i) + 2 := by
  unfold doneLoop
  split
  · exact Nat.le_refl _
  · exact Nat.le_add_left 1 _

theorem gradeLoop_weight (done : Nat) : (gradeLoop n done).weight n ≤ 2 * n + 3 := by
  have hdone := doneLoop_weight (n := n) 0
  unfold gradeLoop
  split
  · omega
  · exact Nat.le_refl _

theorem callLoop_weight (i : Nat) :
    (callLoop n (i + 1)).weight n + (if decide (n ≤ i + 1) = true then 1 else 0) ≤
      2 * n + 6 + 2 * (n - i) := by
  unfold callLoop
  split
  · rw [if_neg (by rw [decide_eq_true_eq]; omega)]
    show 2 * n + 8 + 2 * (n - (i + 1)) + 0 ≤ _
    omega
  · rw [if_pos (decide_eq_true (by omega))]
    show 2 * n + 3 + 1 ≤ _
    omega

theorem grade_weight {m : Msg} {rest graded : List Msg} (hq : e.teacher = .readAttempt)
    (hpipe : e.teacherPipe = m :: rest)
    (h : { e with teacherPipe := rest, graded := graded }.grade n pids m.text rand = some t) :
    t.weight n < e.weight n := by
  unfold State.grade at h
  split at h
  · obtain ⟨passed, -, rfl⟩ := Option.map_eq_some_iff.mp h
    have hloop := gradeLoop_weight (n := n) e.doneStudents
    apply weight_teacher
    · rfl
    · rfl
    · rfl
    · rw [hq, hpipe, List.length_cons]
      cases passed with
      | true =>
        show 2 * n + 5 + 4 * rest.length < 2 * n + 2 + _
        omega
      | false =>
        show (gradeLoop n e.doneStudents).weight n + 4 * rest.length < 2 * n + 2 + _
        omega
  · cases h
    apply weight_teacher
    · rfl
    · rfl
    · rfl
    · rw [hpipe, List.length_cons]
      show e.teacher.weight n + 4 * rest.length < e.teacher.weight n + _
      omega

theorem record_weight {i : Nat} {m : Msg} {rest reported : List Msg}
    (hq : e.teacher = .readReport i) (hpipe : e.teacherPipe = m :: rest) :
    ({ e with teacherPipe := rest, reported := reported }.record n i m.text).weight n <
      e.weight n := by
  have hloop := doneLoop_weight (n := n) (i + 1)
  unfold State.record
  split
  · apply weight_teacher
    · rfl
    · rfl
    · rfl
    · rw [hq, hpipe, List.length_cons]
      show (doneLoop n (i + 1)).weight n + 4 * rest.length < 2 * (n - i) + _
      omega
  · apply weight_teacher
    · rfl
    · rfl
    · rfl
    · rw [hpipe, List.length_cons]
      show e.teacher.weight n + 4 * rest.length < e.teacher.weight n + _
      omega

theorem teacher_weight (h : e.teacherWork n pids rand = some t) : t.weight n < e.weight n := by
  unfold State.teacherWork at h
  split at h
  · rename_i i hq
    cases h
    apply note_weight
    rw [hq]
    show 2 * n + 6 + 2 * (n - i) + 1 < 2 * n + 8 + 2 * (n - i)
    omega
  · rename_i i hq
    split at h
    · cases h
    · rename_i m rest hpipe
      cases h
      have hloop := callLoop_weight (n := n) i
      apply weight_seats
      · rfl
      · rfl
      · rw [hq, hpipe, List.length_cons]
        show (callLoop n (i + 1)).weight n + (if decide (n ≤ i + 1) = true then 1 else 0) +
          4 * rest.length < 2 * n + 6 + 2 * (n - i) + _ + _
        omega
  · rename_i hq
    cases h
    have hnext : (if e.alarmed = false ∧ e.doneStudents ≠ 4 then Teacher.readAttempt
        else doneLoop n 0).weight n ≤ 2 * n + 2 := by
      split
      · exact Nat.le_refl _
      · exact doneLoop_weight 0
    apply weight_teacher
    · rfl
    · rfl
    · rfl
    · rw [hq]
      exact Nat.add_lt_add_right (Nat.lt_succ_of_le hnext) _
  · rename_i hq
    split at h
    · cases h
    · rename_i m rest hpipe
      exact grade_weight hq hpipe h
  · rename_i j stage hq
    split at h
    · cases h
      have hloop := gradeLoop_weight (n := n)
        (if stage = 4 then e.doneStudents + 1 else e.doneStudents)
      apply note_weight
      rw [hq]
      show _ + 1 < 2 * n + 5
      omega
    · cases h
  · rename_i i hq
    cases h
    apply note_weight
    rw [hq]
    show 2 * (n - i) + 1 < 2 * (n - i) + 2
    omega
  · rename_i i hq
    split at h
    · cases h
    · rename_i m rest hpipe
      cases h
      exact record_weight hq hpipe
  · rename_i hq
    split at h
    · cases h
      apply weight_teacher
      · rfl
      · rfl
      · rfl
      · rw [hq]
        exact Nat.add_lt_add_right Nat.zero_lt_one _
    · cases h
  · cases h
  · cases h

theorem alarm_weight {interrupts : Bool} (h : e.alarm interrupts = some t) :
    t.weight n < e.weight n := by
  unfold State.alarm at h
  split at h
  · rename_i hset
    cases h
    apply weight_seats
    · rfl
    · rfl
    · have hle : (if interrupts = true ∧ e.teacher = .wait then Teacher.exited
          else e.teacher).weight n ≤ e.teacher.weight n := by
        split
        · exact Nat.zero_le _
        · exact Nat.le_refl _
      rw [if_pos hset]
      exact Nat.add_lt_add_right (Nat.lt_succ_of_le hle) _
  · cases h

end Ops.Exam
