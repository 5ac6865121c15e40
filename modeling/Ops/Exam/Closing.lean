import Ops.Exam.Grading

/-!
# After the attempts

The loop over the attempts ends when all students have passed the last stage. What they
write from then on are their reports, one each, and the teacher reads as many.
-/

namespace Ops.Exam

variable {n j : Nat} {pids : Nat → Nat} {e t : State}

/-- Where the teacher is when it has read `r` reports. -/
inductive Place (n : Nat) : Teacher → Nat → Prop where
  | write (i : Nat) (hi : i < n) : Place n (.writeDone i) i
  | read (i : Nat) (hi : i < n) : Place n (.readReport i) i
  | wait : Place n .wait n
  | exited : Place n .exited n
  | killed (r : Nat) : Place n .killed r

/-- How many students have still to write their report. -/
def unreported (n : Nat) (student : Nat → Student) : Nat :=
  (List.range n).countP fun j => (student j).reports

structure Closing (n : Nat) (pids : Nat → Nat) (e : State) : Prop where
  passed : ∀ j < n, Passed (e.student j) (e.pipe j)
  reports : ∀ m ∈ e.teacherPipe, ∃ j < n, m = .report (pids j) 4
  done : e.doneStudents = n
  place : Place n e.teacher e.reported.length
  count : e.teacher ≠ .killed → e.teacherPipe.length + e.reported.length +
    unreported n e.student = n

/-- Who may not write any more has nothing to write, or the teacher was killed. -/
theorem Closing.reported_all (hc : Closing n pids e) (hclosed : ¬ e.teacherReadable n)
    (hj : j < n) : e.teacher = .killed ∨ (e.student j).reports = false := by
  by_cases hkilled : e.teacher = .killed
  · exact .inl hkilled
  · right
    have hexited : e.teacher = .exited := by
      by_cases h : e.teacher = .exited
      · exact h
      · exact absurd (.inl ⟨hkilled, h⟩) hclosed
    have hcount := hc.count hkilled
    have hlen : e.reported.length = n := by
      have hplace := hc.place
      rw [hexited] at hplace
      generalize e.reported.length = r at hplace
      cases hplace
      rfl
    have hzero : unreported n e.student = 0 := by omega
    exact Bool.eq_false_iff.mpr (List.countP_eq_zero.mp hzero j (List.mem_range.mpr hj))

theorem reports_moved (s : Student) (notes : List Note) (said : List Msg) {l : Nat} (hl : l ≠ j) :
    ((e.moved j s notes said).student l).reports = (e.student l).reports := by
  rw [(moved_other hl s notes said).1]

theorem Closing.passed_moved (hc : Closing n pids e) {s : Student} {notes : List Note}
    (said : List Msg) (hs : Passed s notes) :
    ∀ l < n, Passed ((e.moved j s notes said).student l) ((e.moved j s notes said).pipe l) := by
  intro l hl
  by_cases hlj : l = j
  · subst hlj
    rw [(moved_self s notes said).1, (moved_self s notes said).2]
    exact hs
  · rw [(moved_other hlj s notes said).1, (moved_other hlj s notes said).2]
    exact hc.passed l hl

theorem Closing.quiet (hc : Closing n pids e) {s : Student} {notes : List Note}
    (hs : Passed s notes)
    (hreports : e.teacher ≠ .killed → s.reports = (e.student j).reports) :
    Closing n pids (e.moved j s notes []) := by
  have hpipe : (e.moved j s notes []).teacherPipe = e.teacherPipe := List.append_nil _
  refine ⟨hc.passed_moved [] hs, by rw [hpipe]; exact hc.reports, hc.done, hc.place, fun ht => ?_⟩
  have hsame : unreported n (e.moved j s notes []).student = unreported n e.student := by
    refine countP_same fun l _ => ?_
    by_cases hlj : l = j
    · subst hlj
      rw [(moved_self s notes []).1]
      exact hreports ht
    · exact reports_moved s notes [] hlj
  rw [hpipe, hsame]
  exact hc.count ht

theorem Closing.report (hc : Closing n pids e) (hj : j < n) {notes : List Note}
    (hreports : (e.student j).reports = true) :
    Closing n pids (e.moved j .leaving notes [.report (pids j) 4]) := by
  refine ⟨hc.passed_moved _ (.leaving notes), fun m hm => ?_, hc.done, hc.place, fun ht => ?_⟩
  · rcases List.mem_append.mp hm with hm | hm
    · exact hc.reports m hm
    · exact ⟨j, hj, List.mem_singleton.mp hm⟩
  · have hcount := hc.count ht
    have hself : (((e.moved j .leaving notes [.report (pids j) 4]).student j).reports) = false := by
      rw [(moved_self _ _ _).1]; rfl
    have hfall : unreported n e.student =
        unreported n (e.moved j .leaving notes [.report (pids j) 4]).student + 1 :=
      countP_fall List.nodup_range (List.mem_range.mpr hj) hreports hself
        fun l hl => reports_moved _ _ _ hl
    have hlen : (e.moved j .leaving notes [.report (pids j) 4]).teacherPipe.length =
        e.teacherPipe.length + 1 := List.length_append
    rw [hlen]
    show e.teacherPipe.length + 1 + e.reported.length + unreported n _ = n
    omega

theorem Closing.student_step (hc : Closing n pids e) (hj : j < n) {s : Student}
    {notes : List Note} {said : List Msg} (hd : Deed n pids e j s notes said) :
    Closing n pids (e.moved j s notes said) := by
  have hpassed := hc.passed j hj
  cases hd with
  | enter k hq => rw [hq] at hpassed; cases hpassed
  | hear k note notes hq hpipe => rw [hq] at hpassed; cases hpassed
  | here k hq hopen => rw [hq] at hpassed; cases hpassed
  | attempt k i result hq hopen => rw [hq] at hpassed; cases hpassed
  | answer k i note notes hq hpipe =>
    rw [hq, hpipe] at hpassed
    cases hpassed with
    | told k notes => exact hc.quiet (.report notes) fun _ => by rw [hq]; rfl
  | report stage hq hopen =>
    have hstage : stage = 4 := by
      rw [hq] at hpassed
      generalize e.pipe j = notes at hpassed
      cases hpassed
      rfl
    rw [hstage]
    exact hc.report hj (by rw [hq]; rfl)
  | leave hq => exact hc.quiet (.exited _) fun _ => by rw [hq]; rfl
  | broken hq hclosed =>
    apply hc.quiet (.killed _)
    intro ht
    rcases hc.reported_all hclosed hj with hkilled | hreports
    · exact absurd hkilled ht
    · rw [hreports]; rfl

theorem Closing.congr (hc : Closing n pids e) (hstudent : t.student = e.student)
    (hpipe : t.pipe = e.pipe) (hteacherPipe : t.teacherPipe = e.teacherPipe)
    (hdone : t.doneStudents = e.doneStudents) (hreported : t.reported = e.reported)
    (hplace : Place n t.teacher t.reported.length)
    (hkilled : t.teacher ≠ .killed → e.teacher ≠ .killed) : Closing n pids t := by
  refine ⟨?_, ?_, ?_, hplace, fun ht => ?_⟩
  · rw [hstudent, hpipe]; exact hc.passed
  · rw [hteacherPipe]; exact hc.reports
  · rw [hdone]; exact hc.done
  · rw [hstudent, hteacherPipe, hreported]; exact hc.count (hkilled ht)

theorem doneLoop_place {i : Nat} (hi : i ≤ n) : Place n (doneLoop n i) i := by
  unfold doneLoop
  by_cases hlt : i < n
  · rw [if_pos hlt]
    exact .write i hlt
  · obtain rfl : i = n := by omega
    rw [if_neg hlt]
    exact .wait

theorem unreported_all {student : Nat → Student} (h : ∀ l < n, (student l).reports = true) :
    unreported n student = n := by
  unfold unreported
  rw [List.countP_eq_length.mpr fun l hl => h l (List.mem_range.mp hl), List.length_range]

theorem Closing.begins (hpassed : ∀ l < n, Passed (e.student l) (e.pipe l) ∧
      (e.student l).reports = true)
    (hpipe : e.teacherPipe = []) (hdone : e.doneStudents = n) (hreported : e.reported = [])
    (hteacher : e.teacher = doneLoop n 0) : Closing n pids e := by
  refine ⟨fun l hl => (hpassed l hl).1, fun m hm => ?_, hdone, ?_, fun _ => ?_⟩
  · rw [hpipe] at hm; cases hm
  · rw [hteacher, hreported]; exact doneLoop_place (Nat.zero_le n)
  · rw [hpipe, hreported, unreported_all fun l hl => (hpassed l hl).2]
    exact Nat.zero_add n

theorem Closing.exited (hc : Closing n pids e) (hteacher : e.teacher = .wait) :
    Place n .exited e.reported.length := by
  have hplace := hc.place
  rw [hteacher] at hplace
  generalize e.reported.length = r at hplace
  cases hplace
  exact .exited

theorem Passed.snoc {s : Student} {notes : List Note} (h : Passed s notes) (note : Note) :
    Passed s (notes ++ [note]) := by
  cases h with
  | told k notes => exact .told k (notes ++ [note])
  | report notes => exact .report _
  | leaving notes => exact .leaving _
  | exited notes => exact .exited _
  | killed notes => exact .killed _

theorem Closing.write {i : Nat} (hc : Closing n pids e) (hteacher : e.teacher = .writeDone i) :
    Closing n pids (e.note n i .done (.readReport i)) := by
  have hne : e.teacher ≠ .killed := by rw [hteacher]; nofun
  have hplace := hc.place
  rw [hteacher] at hplace
  generalize hr : e.reported.length = r at hplace
  cases hplace with
  | write i hi =>
    unfold State.note
    split
    · refine ⟨fun l hl => ?_, hc.reports, hc.done, ?_, fun _ => hc.count hne⟩
      · have hpassed := hc.passed l hl
        show Passed (e.student l) (Function.update e.pipe i (e.pipe i ++ [.done]) l)
        by_cases hli : l = i
        · subst hli
          rw [Function.update_self]
          exact hpassed.snoc .done
        · rw [Function.update_of_ne hli]
          exact hpassed
      · show Place n (.readReport i) e.reported.length
        rw [hr]
        exact .read i hi
    · exact ⟨hc.passed, hc.reports, hc.done, .killed _, fun h => absurd rfl h⟩

theorem Closing.read {i : Nat} {m : Msg} {rest : List Msg} (hc : Closing n pids e)
    (hteacher : e.teacher = .readReport i) (hpipe : e.teacherPipe = m :: rest) :
    ∃ l < n, m = .report (pids l) 4 ∧ Closing n pids
      { e with
        teacherPipe := rest, reported := e.reported ++ [m], teacher := doneLoop n (i + 1) } := by
  obtain ⟨l, hl, hm⟩ := hc.reports m (by rw [hpipe]; exact List.mem_cons_self)
  have hne : e.teacher ≠ .killed := by rw [hteacher]; nofun
  have hcount := hc.count hne
  have hplace := hc.place
  rw [hteacher] at hplace
  generalize hr : e.reported.length = r at hplace
  cases hplace with
  | read i hi =>
    have hlen : (e.reported ++ [m]).length = i + 1 := by rw [List.length_append, hr]; rfl
    refine ⟨l, hl, hm, hc.passed, fun m' hm' => ?_, hc.done, ?_, fun _ => ?_⟩
    · exact hc.reports m' (by rw [hpipe]; exact List.mem_cons_of_mem _ hm')
    · rw [hlen]; exact doneLoop_place hi
    · rw [hpipe, List.length_cons] at hcount
      show rest.length + (e.reported ++ [m]).length + unreported n e.student = n
      omega

end Ops.Exam
