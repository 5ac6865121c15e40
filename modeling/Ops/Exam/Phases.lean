import Ops.Exam.Closing

/-!
# The phases of an exam

In an orderly run nobody writes an attempt before all have said `HERE`, nobody reports before
all have passed, and the loop over the attempts ends when all have passed (`Orderly`). Then
everybody is in the same phase. Here are the phases, and the steps of the students in them.
-/

namespace Ops.Exam

variable {n i j rand : Nat} {pids : Nat → Nat} {e t : State}

/-- The student has written `HERE`. -/
def Student.present : Student → Bool
  | .forked | .readCall _ | .writeHere _ => false
  | _ => true

/-- No attempt before all have written `HERE`, no report before all have passed, and no end
of the loop over the attempts either. -/
def Orderly (n : Nat) (e : State) : Act → Prop
  | .student j _ =>
    match e.student j with
    | .writeAttempt _ _ => ∀ l < n, (e.student l).present = true
    | .writeReport _ => e.doneStudents = n
    | _ => True
  | .teacher _ => e.teacher = .test → e.alarmed = true ∨ e.doneStudents = 4 → e.doneStudents = n
  | .alarm _ => True

instance (n : Nat) (e : State) (act : Act) : Decidable (Orderly n e act) := by
  unfold Orderly
  cases act with
  | student j rand =>
    dsimp only
    split <;> infer_instance
  | teacher rand => infer_instance
  | alarm interrupts => infer_instance

def heres (pids : Nat → Nat) (a : Nat) : List Msg := (List.range a).map fun j => .here (pids j)

/-! ## The phases -/

/-- What the teacher has read when `a` students have said `HERE`. -/
structure Logs (n : Nat) (pids : Nat → Nat) (e : State) (a : Nat) : Prop where
  attended : e.attended = heres pids a
  graded : ∀ m ∈ e.graded, ∃ j < n, ∃ result stage, m = .attempt result (pids j) stage
  reported : ∀ m ∈ e.reported, ∃ j < n, ∃ stage, m = .report (pids j) stage
  checks : e.aborted = false

/-- A student that has not been called, and its pipe. -/
inductive Uncalled : Student → List Note → Prop where
  | forked : Uncalled .forked []
  | readCall (k : Nat) : Uncalled (.readCall k) []

/-- The student that is called, its pipe and the pipe to the teacher. -/
inductive Called (pid : Nat) (more : Prop) : Student → List Note → List Msg → Prop where
  | forked : Called pid more .forked [.isHere pid] []
  | readCall (k : Nat) : Called pid more (.readCall k) [.isHere pid] []
  | writeHere (k : Nat) : Called pid more (.writeHere k) [] []
  | present (k : Nat) (hmore : more) : Called pid more (.writeAttempt k 0) [] [.here pid]

inductive Phase (n : Nat) (pids : Nat → Nat) (e : State) : Prop where
  | call (i : Nat) (hi : i < n) (hteacher : e.teacher = .writeCall i) (hlogs : Logs n pids e i)
      (hgraded : e.graded = []) (hreported : e.reported = []) (hdone : e.doneStudents = 0)
      (hpipe : e.teacherPipe = [])
      (hearly : ∀ j < i, (∃ k, e.student j = .writeAttempt k 0) ∧ e.pipe j = [])
      (hlate : ∀ j, i ≤ j → j < n → Uncalled (e.student j) (e.pipe j))
  | here (i : Nat) (hi : i < n) (hteacher : e.teacher = .readHere i) (hlogs : Logs n pids e i)
      (hgraded : e.graded = []) (hreported : e.reported = []) (hdone : e.doneStudents = 0)
      (hcalled : Called (pids i) (i + 1 < n) (e.student i) (e.pipe i) e.teacherPipe)
      (hearly : ∀ j < i, (∃ k, e.student j = .writeAttempt k 0) ∧ e.pipe j = [])
      (hlate : ∀ j, i < j → j < n → Uncalled (e.student j) (e.pipe j))
  | last (attempts : List Msg) (hn : 0 < n) (hteacher : e.teacher = .readHere (n - 1))
      (hlogs : Logs n pids e (n - 1)) (hgraded : e.graded = []) (hreported : e.reported = [])
      (hpipe : e.teacherPipe = .here (pids (n - 1)) :: attempts)
      (hg : Grading n pids e attempts none)
  | grading (hteacher : e.teacher = .test ∨ e.teacher = .readAttempt) (hlogs : Logs n pids e n)
      (hreported : e.reported = []) (hg : Grading n pids e e.teacherPipe none)
  | passing (j k i : Nat) (hj : j < n) (hi : i < 4)
      (hteacher : e.teacher = .writeOne j ((i + 1 : Nat) : Int)) (hlogs : Logs n pids e n)
      (hreported : e.reported = []) (hq : e.student j = .readAnswer k i) (hpipe : e.pipe j = [])
      (hg : Grading n pids e e.teacherPipe (some j))
  | closing (hlogs : Logs n pids e n) (hc : Closing n pids e)

theorem Uncalled.not_present {s : Student} {notes : List Note} (h : Uncalled s notes) :
    s.present = false := by
  cases h <;> rfl

theorem Uncalled.alive {s : Student} {notes : List Note} (h : Uncalled s notes) :
    s.alive = true := by
  cases h <;> rfl

theorem readable_of {q : Teacher} (hteacher : e.teacher = q) (hkilled : q ≠ .killed)
    (hexited : q ≠ .exited) : e.teacherReadable n :=
  .inl ⟨hteacher ▸ hkilled, hteacher ▸ hexited⟩

/-! ## A step of a student -/

theorem Uncalled.step {s : Student} {notes : List Note} {said : List Msg}
    (hu : Uncalled (e.student j) (e.pipe j)) (hopen : e.teacherReadable n)
    (hd : Deed n pids e j s notes said) : Uncalled s notes ∧ said = [] := by
  cases hd with
  | enter k hq =>
    rw [hq] at hu
    generalize e.pipe j = notes at hu
    cases hu
    exact ⟨.readCall k, rfl⟩
  | hear k note notes hq hpipe => rw [hq, hpipe] at hu; cases hu
  | here k hq hopen => rw [hq] at hu; cases hu
  | attempt k i result hq hopen => rw [hq] at hu; cases hu
  | answer k i note notes hq hpipe => rw [hq] at hu; cases hu
  | report stage hq hopen => rw [hq] at hu; cases hu
  | leave hq => rw [hq] at hu; cases hu
  | broken hq hclosed => exact absurd hopen hclosed

theorem early_step (hq : ∃ k, e.student j = .writeAttempt k 0)
    (horderly : Orderly n e (.student j rand)) : ∀ l < n, (e.student l).present = true := by
  obtain ⟨k, hq⟩ := hq
  unfold Orderly at horderly
  simp only [hq] at horderly
  exact horderly

theorem report_step (horderly : Orderly n e (.student j rand)) :
    ∀ stage, e.student j = .writeReport stage → e.doneStudents = n := by
  intro stage hq
  unfold Orderly at horderly
  simp only [hq] at horderly
  exact horderly

/-- The student that is called enters, hears and says `HERE`. -/
theorem Called.step {pid : Nat} {more : Prop} {s : Student} {notes : List Note} {said : List Msg}
    (hc : Called pid more (e.student j) (e.pipe j) e.teacherPipe) (hpid : pids j = pid)
    (hopen : e.teacherReadable n) (hd : Deed n pids e j s notes said) :
    Called pid more s notes (e.teacherPipe ++ said) ∨
      (¬ more ∧ (∃ k, s = .writeAttempt k 0) ∧ notes = [] ∧ e.teacherPipe ++ said = [.here pid]) ∨
      ((∃ k, e.student j = .writeAttempt k 0) ∧ more) := by
  generalize hpipe' : e.pipe j = pipe at hc
  generalize e.teacherPipe = teacherPipe at hc
  cases hd with
  | enter k hq =>
    rw [hq] at hc
    cases hc with
    | forked =>
      rw [hpipe']
      exact .inl (.readCall k)
  | hear k note notes hq hpipe =>
    rw [hq] at hc
    cases hc with
    | readCall k =>
      obtain rfl : notes = [] := by rw [hpipe] at hpipe'; cases hpipe'; rfl
      exact .inl (.writeHere k)
  | here k hq hopen =>
    rw [hq] at hc
    cases hc with
    | writeHere k =>
      rw [hpipe', hpid]
      by_cases hmore : more
      · exact .inl (.present k hmore)
      · exact .inr (.inl ⟨hmore, ⟨k, rfl⟩, rfl, rfl⟩)
  | attempt k i result hq hopen =>
    rw [hq] at hc
    cases hc with
    | present k hmore => exact .inr (.inr ⟨⟨k, hq⟩, hmore⟩)
  | answer k i note notes hq hpipe => rw [hq] at hc; cases hc
  | report stage hq hopen => rw [hq] at hc; cases hc
  | leave hq => rw [hq] at hc; cases hc
  | broken hq hclosed => exact absurd hopen hclosed

theorem waits_still {k : Nat} (hq : e.student j = .readAnswer k i) (hpipe : e.pipe j = [])
    (hopen : e.teacherReadable n) {s : Student} {notes : List Note} {said : List Msg} :
    ¬ Deed n pids e j s notes said := by
  intro hd
  cases hd with
  | enter k hq' => rw [hq] at hq'; cases hq'
  | hear k note notes hq' hpipe' => rw [hq] at hq'; cases hq'
  | here k hq' hopen => rw [hq] at hq'; cases hq'
  | attempt k i result hq' hopen => rw [hq] at hq'; cases hq'
  | answer k i note notes hq' hpipe' => rw [hpipe] at hpipe'; cases hpipe'
  | report stage hq' hopen => rw [hq] at hq'; cases hq'
  | leave hq' => rw [hq] at hq'; cases hq'
  | broken hq' hclosed => exact hclosed hopen

/-- While a student is called, it or the next one has not said `HERE`. -/
theorem somebody_absent (hi : i < n)
    (hcalled : Called (pids i) (i + 1 < n) (e.student i) (e.pipe i) e.teacherPipe)
    (hlate : ∀ l, i < l → l < n → Uncalled (e.student l) (e.pipe l)) :
    ∃ l < n, (e.student l).present = false := by
  generalize hs : e.student i = s at hcalled
  generalize e.pipe i = notes at hcalled
  generalize e.teacherPipe = teacherPipe at hcalled
  cases hcalled with
  | forked => exact ⟨i, hi, by rw [hs]; rfl⟩
  | readCall k => exact ⟨i, hi, by rw [hs]; rfl⟩
  | writeHere k => exact ⟨i, hi, by rw [hs]; rfl⟩
  | present k hmore => exact ⟨i + 1, hmore, (hlate (i + 1) (by omega) hmore).not_present⟩

theorem Logs.moved {a : Nat} (hl : Logs n pids e a) (s : Student) (notes : List Note)
    (said : List Msg) : Logs n pids (e.moved j s notes said) a :=
  ⟨hl.attended, hl.graded, hl.reported, hl.checks⟩

theorem early_moved (s : Student) (notes : List Note) (said : List Msg) (hj : i ≤ j)
    (hearly : ∀ l < i, (∃ k, e.student l = .writeAttempt k 0) ∧ e.pipe l = []) :
    ∀ l < i, (∃ k, (e.moved j s notes said).student l = .writeAttempt k 0) ∧
      (e.moved j s notes said).pipe l = [] := by
  intro l hl
  have hlj : l ≠ j := by omega
  rw [(moved_other hlj s notes said).1, (moved_other hlj s notes said).2]
  exact hearly l hl

theorem late_moved {s : Student} {notes : List Note} (said : List Msg)
    (hlate : ∀ l, i ≤ l → l < n → Uncalled (e.student l) (e.pipe l))
    (hs : i ≤ j → Uncalled s notes) :
    ∀ l, i ≤ l → l < n →
      Uncalled ((e.moved j s notes said).student l) ((e.moved j s notes said).pipe l) := by
  intro l hl hln
  by_cases hlj : l = j
  · subst hlj
    rw [(moved_self s notes said).1, (moved_self s notes said).2]
    exact hs hl
  · rw [(moved_other hlj s notes said).1, (moved_other hlj s notes said).2]
    exact hlate l hl hln

theorem grading_begins (hn : 0 < n) (hdone : e.doneStudents = 0)
    (hall : ∀ l < n, (∃ k, e.student l = .writeAttempt k 0) ∧ e.pipe l = []) :
    Grading n pids e [] none := by
  refine ⟨fun l hl => ?_, nofun, List.nodup_nil, ?_, by omega⟩
  · obtain ⟨⟨k, hq⟩, hpipe⟩ := hall l hl
    rw [hq, hpipe]
    exact .attempt k 0 (by omega)
  · rw [hdone]
    refine (List.countP_eq_zero.mpr fun l hl => ?_).symm
    obtain ⟨⟨k, hq⟩, -⟩ := hall l (List.mem_range.mp hl)
    rw [hq]
    nofun

theorem Phase.student_step (hpids : Distinct n pids) (hp : Phase n pids e) (hj : j < n)
    (horderly : Orderly n e (.student j rand)) (h : e.studentWork n pids j rand = some t) :
    Phase n pids t := by
  obtain ⟨s, notes, said, hd, rfl⟩ := studentWork_deed h
  have hreport := report_step horderly
  cases hp with
  | call i hi hteacher hlogs hgraded hreported hdone hpipe hearly hlate =>
    have hopen : e.teacherReadable n := readable_of hteacher nofun nofun
    by_cases hji : j < i
    · have hpresent := early_step (hearly j hji).1 horderly i hi
      rw [(hlate i (Nat.le_refl i) hi).not_present] at hpresent
      cases hpresent
    · obtain ⟨hs, rfl⟩ := (hlate j (by omega) hj).step hopen hd
      exact .call i hi hteacher (hlogs.moved s notes []) hgraded hreported hdone
        ((List.append_nil _).trans hpipe) (early_moved s notes [] (by omega) hearly)
        (late_moved [] hlate fun _ => hs)
  | here i hi hteacher hlogs hgraded hreported hdone hcalled hearly hlate =>
    have hopen : e.teacherReadable n := readable_of hteacher nofun nofun
    have habsent : ¬ ∀ l < n, (e.student l).present = true := by
      obtain ⟨l, hl, hfalse⟩ := somebody_absent hi hcalled hlate
      intro hall
      rw [hall l hl] at hfalse
      cases hfalse
    rcases Nat.lt_trichotomy j i with hlt | rfl | hgt
    · exact absurd (early_step (hearly j hlt).1 horderly) habsent
    · have hearly' := early_moved s notes said (Nat.le_refl j) hearly
      have hself := moved_self (e := e) (j := j) s notes said
      rcases hcalled.step rfl hopen hd with hs | ⟨hmore, ⟨k, rfl⟩, rfl, hsaid⟩ | ⟨hq, hmore⟩
      · refine .here j hi hteacher (hlogs.moved s notes said) hgraded hreported hdone ?_ hearly'
          (late_moved said hlate fun h => absurd h (Nat.lt_irrefl j))
        rw [hself.1, hself.2]
        exact hs
      · obtain rfl : j = n - 1 := by omega
        refine .last [] (by omega) hteacher (hlogs.moved _ _ said) hgraded hreported hsaid
          (grading_begins (by omega) hdone fun l hl => ?_)
        by_cases hlj : l = n - 1
        · subst hlj
          exact ⟨⟨k, hself.1⟩, hself.2⟩
        · exact hearly' l (by omega)
      · exact absurd (early_step hq horderly) habsent
    · obtain ⟨hs, rfl⟩ := (hlate j hgt hj).step hopen hd
      have hother := moved_other (e := e) (Nat.ne_of_lt hgt) s notes []
      refine .here i hi hteacher (hlogs.moved s notes []) hgraded hreported hdone ?_
        (early_moved s notes [] (by omega) hearly) (late_moved [] hlate fun _ => hs)
      have hpipe : (e.moved j s notes []).teacherPipe = e.teacherPipe := List.append_nil _
      rw [hother.1, hother.2, hpipe]
      exact hcalled
  | last attempts hn hteacher hlogs hgraded hreported hpipe hg =>
    have hopen : e.teacherReadable n := readable_of hteacher nofun nofun
    refine .last (attempts ++ said) hn hteacher (hlogs.moved s notes said) hgraded hreported ?_
      (hg.student_step hpids hj hopen nofun hreport hd)
    show e.teacherPipe ++ said = _
    rw [hpipe, List.cons_append]
  | grading hteacher hlogs hreported hg =>
    have hopen : e.teacherReadable n := by
      rcases hteacher with hteacher | hteacher
      · exact readable_of hteacher nofun nofun
      · exact readable_of hteacher nofun nofun
    exact .grading hteacher (hlogs.moved s notes said) hreported
      (hg.student_step hpids hj hopen nofun hreport hd)
  | passing l k i hl hi hteacher hlogs hreported hq hpipe hg =>
    have hopen : e.teacherReadable n := readable_of hteacher nofun nofun
    have hlj : l ≠ j := by
      rintro rfl
      exact waits_still hq hpipe hopen hd
    have hother := moved_other (e := e) hlj s notes said
    refine .passing l k i hl hi hteacher (hlogs.moved s notes said) hreported
      (hother.1.trans hq) (hother.2.trans hpipe) (hg.student_step hpids hj hopen ?_ hreport hd)
    intro l' hl'
    obtain rfl : l = l' := Option.some.inj hl'
    exact ⟨⟨k, i, hq⟩, hpipe⟩
  | closing hlogs hc => exact .closing (hlogs.moved s notes said) (hc.student_step hj hd)

end Ops.Exam
