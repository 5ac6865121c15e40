import Ops.Exam.Ends

/-!
# Nobody is left waiting

An attempt that fails gets no answer, and a student that is told `done` tries again and then
waits for ever. In a run in which every attempt that is read passes, the loop over the
attempts ends when all have passed, and nobody writes to a pipe without a reader (`Calm`),
the exam goes on until the teacher has left the loop over `wait` (`nobody_waits`).
-/

namespace Ops.Exam

variable {n j rand : Nat} {pids : Nat → Nat} {e t : State}

def Student.reads : Student → Bool
  | .readCall _ | .readAnswer _ _ => true
  | _ => false

/-- The student waits in `read`, and its pipe is empty. -/
def State.blocked (e : State) (j : Nat) : Prop :=
  (e.student j).reads = true ∧ e.pipe j = []

def Teacher.reads : Teacher → Bool
  | .readHere _ | .readAttempt | .readReport _ => true
  | _ => false

/-- The teacher waits for a message, and nobody will write one. -/
structure Deadlock (n : Nat) (e : State) : Prop where
  reads : e.teacher.reads = true
  empty : e.teacherPipe = []
  students : ∀ j < n, (e.student j).alive = false ∨ e.blocked j

/-- `teacher_work` has returned, and a student waits. -/
def LeftBehind (n : Nat) (e : State) : Prop :=
  (e.teacher = .wait ∨ e.teacher = .exited) ∧ ∃ j < n, e.blocked j

def goodEnough (text : List Char) (rand : Nat) : Bool :=
  match scan attemptFormat text with
  | [result, _, stage] => passes result stage rand == some true
  | _ => false

/-- The student that the teacher writes to. -/
def Teacher.target : Teacher → Option Nat
  | .writeCall i | .writeOne i _ | .writeDone i => some i
  | _ => none

/-- An orderly step, in which an attempt that is read passes and a note that is written has a
reader. -/
def Calm (n : Nat) (e : State) (act : Act) : Prop :=
  Orderly n e act ∧ match act with
    | .teacher rand =>
      (e.teacher = .readAttempt → ∀ m ∈ e.teacherPipe.head?, goodEnough m.text rand = true) ∧
        ∀ j ∈ e.teacher.target, e.readable n j
    | _ => True

instance (n : Nat) (e : State) : ∀ act, Decidable (Calm n e act)
  | .student j rand => inferInstanceAs (Decidable (Orderly n e (.student j rand) ∧ True))
  | .teacher rand =>
    inferInstanceAs (Decidable (Orderly n e (.teacher rand) ∧
      (_ → ∀ m ∈ e.teacherPipe.head?, _) ∧ ∀ j ∈ e.teacher.target, _))
  | .alarm interrupts => inferInstanceAs (Decidable (Orderly n e (.alarm interrupts) ∧ True))

theorem calm_orderly (n : Nat) (e : State) (act : Act) (h : Calm n e act) : Orderly n e act := h.1

/-! ## Every attempt is answered -/

/-- A student that waits for an answer has it in its pipe, or has its attempt in the pipe to
the teacher, or is about to be told. -/
structure Heard (n : Nat) (pids : Nat → Nat) (e : State) : Prop where
  answered : ∀ j < n, ∀ k i, e.student j = .readAnswer k i → e.pipe j ≠ [] ∨
    (∃ result stage, .attempt result (pids j) stage ∈ e.teacherPipe) ∨
    ∃ stage, e.teacher = .writeOne j stage
  teacher : e.teacher ≠ .killed

theorem stageLoop_waits {k i k' i' : Nat} : stageLoop k i ≠ .readAnswer k' i' := by
  unfold stageLoop
  split <;> nofun

theorem takeAnswer_waits {k i k' i' : Nat} {note : Note} :
    Student.takeAnswer k i note ≠ .readAnswer k' i' := by
  unfold Student.takeAnswer
  split
  · exact stageLoop_waits
  · split
    · nofun
    · exact stageLoop_waits

theorem Heard.student_step (hh : Heard n pids e) {s : Student} {notes : List Note} {said : List Msg}
    (hd : Deed n pids e j s notes said) : Heard n pids (e.moved j s notes said) := by
  refine ⟨fun l hl k i hq => ?_, hh.teacher⟩
  by_cases hlj : l = j
  · subst hlj
    rw [(moved_self s notes said).1] at hq
    right; left
    cases hd with
    | enter k hq' => cases hq
    | hear k note notes hq' hpipe => cases hq
    | here k hq' hopen => cases hq
    | attempt k i result hq' hopen =>
      exact ⟨result, i + 1, List.mem_append_right _ (List.mem_singleton.mpr rfl)⟩
    | answer k i note notes hq' hpipe => exact absurd hq takeAnswer_waits
    | report stage hq' hopen => cases hq
    | leave hq' => cases hq
    | broken hq' hclosed => cases hq
  · rw [(moved_other hlj s notes said).1] at hq
    rw [(moved_other hlj s notes said).2]
    rcases hh.answered l hl k i hq with hpipe | ⟨result, stage, hm⟩ | hone
    · exact .inl hpipe
    · exact .inr (.inl ⟨result, stage, List.mem_append_left _ hm⟩)
    · exact .inr (.inr hone)

theorem Heard.teacher_keeps (hh : Heard n pids e) (hstudent : t.student = e.student)
    (hpipe : ∀ l, e.pipe l ≠ [] → t.pipe l ≠ [])
    (hkept : ∀ result pid stage, .attempt result pid stage ∈ e.teacherPipe →
      .attempt result pid stage ∈ t.teacherPipe)
    (hone : ∀ l stage, e.teacher = .writeOne l stage → t.pipe l ≠ [])
    (halive : t.teacher ≠ .killed) : Heard n pids t := by
  refine ⟨fun l hl k i hq => ?_, halive⟩
  rw [hstudent] at hq
  rcases hh.answered l hl k i hq with hne | ⟨result, stage, hm⟩ | ⟨stage, hq'⟩
  · exact .inl (hpipe l hne)
  · exact .inr (.inl ⟨result, stage, hkept result _ stage hm⟩)
  · exact .inl (hone l stage hq')

theorem callLoop_alive (i : Nat) : callLoop n i ≠ .killed := by
  unfold callLoop
  split <;> nofun

theorem doneLoop_alive (i : Nat) : doneLoop n i ≠ .killed := by
  unfold doneLoop
  split <;> nofun

theorem gradeLoop_alive (done : Nat) : gradeLoop n done ≠ .killed := by
  unfold gradeLoop
  split
  · exact doneLoop_alive 0
  · nofun

theorem note_pipes {note : Note} (l : Nat) (h : e.pipe l ≠ [] ∨ l = j) :
    (e.setPipe j (e.pipe j ++ [note])).pipe l ≠ [] := by
  show Function.update e.pipe j (e.pipe j ++ [note]) l ≠ []
  by_cases hlj : l = j
  · subst hlj
    rw [Function.update_self]
    exact List.append_ne_nil_of_right_ne_nil _ (List.cons_ne_nil _ _)
  · rw [Function.update_of_ne hlj]
    exact h.resolve_right hlj

theorem Heard.note (hh : Heard n pids e) {note : Note} {next : Teacher} (hopen : e.readable n j)
    (htarget : ∀ l stage, e.teacher = .writeOne l stage → l = j) (hnext : next ≠ .killed) :
    Heard n pids (e.note n j note next) := by
  rw [note_readable hopen]
  refine hh.teacher_keeps rfl (fun l hl => note_pipes l (.inl hl)) (fun _ _ _ hm => hm)
    (fun l stage hq => note_pipes l (.inr (htarget l stage hq))) hnext

theorem Heard.attempt_step (hpids : Distinct n pids) (hh : Heard n pids e)
    (hteacher : e.teacher = .readAttempt) (hg : Grading n pids e e.teacherPipe none)
    (hgood : ∀ m ∈ e.teacherPipe.head?, goodEnough m.text rand = true)
    (h : e.teacherWork n pids rand = some t) : Heard n pids t := by
  unfold State.teacherWork at h
  simp only [hteacher] at h
  split at h
  · cases h
  · rename_i m rest hpipe
    have hm := hgood m (by rw [hpipe]; rfl)
    rw [hpipe] at hg
    obtain ⟨j, hj, result, k, i, hi, rfl, hq, hjpipe, hrest⟩ := hg.read
    obtain ⟨passed, hpassed⟩ := passes_stage result rand hi
    obtain rfl : passed = true := by
      unfold goodEnough at hm
      rw [scan_attempt] at hm
      simp only [hpassed] at hm
      exact Option.some.inj (beq_iff_eq.mp hm)
    rw [grade_attempt hpids hj hpassed] at h
    cases h
    refine ⟨fun l hl k' i' hq' => ?_, nofun⟩
    by_cases hlj : l = j
    · exact .inr (.inr ⟨_, by rw [hlj]; rfl⟩)
    · rcases hh.answered l hl k' i' hq' with hne | ⟨result', stage', hm'⟩ | ⟨stage', hone⟩
      · exact .inl hne
      · rw [hpipe] at hm'
        rcases List.mem_cons.mp hm' with heq | hm'
        · have hpid : pids l = pids j := congrArg Msg.pid heq
          exact absurd (hpids l hl j hj hpid) hlj
        · exact .inr (.inl ⟨result', stage', hm'⟩)
      · rw [hteacher] at hone; cases hone

/-- In the first loop the oldest message is a student's `HERE`. -/
theorem Phase.oldest_here {i : Nat} {m : Msg} {rest : List Msg} (hp : Phase n pids e)
    (hteacher : e.teacher = .readHere i) (hpipe : e.teacherPipe = m :: rest) :
    ∃ pid, m = .here pid := by
  cases hp with
  | call i hi hq => rw [hteacher] at hq; cases hq
  | here i hi hq hlogs hgraded hreported hdone hcalled =>
    rw [hpipe] at hcalled
    generalize e.student i = s at hcalled
    generalize e.pipe i = notes at hcalled
    cases hcalled
    exact ⟨_, rfl⟩
  | last attempts hn hq hlogs hgraded hreported hpipe' =>
    rw [hpipe] at hpipe'
    cases hpipe'
    exact ⟨_, rfl⟩
  | grading hq =>
    rcases hq with hq | hq
    · rw [hteacher] at hq; cases hq
    · rw [hteacher] at hq; cases hq
  | passing j k i hj hi hq => rw [hteacher] at hq; cases hq
  | closing hlogs hc =>
    have hplace := hc.place
    rw [hteacher] at hplace
    cases hplace

theorem Phase.at_attempt (hp : Phase n pids e) (hteacher : e.teacher = .readAttempt) :
    Grading n pids e e.teacherPipe none := by
  cases hp with
  | call i hi hq => rw [hteacher] at hq; cases hq
  | here i hi hq => rw [hteacher] at hq; cases hq
  | last attempts hn hq => rw [hteacher] at hq; cases hq
  | grading hq hlogs hreported hg => exact hg
  | passing j k i hj hi hq => rw [hteacher] at hq; cases hq
  | closing hlogs hc =>
    have hplace := hc.place
    rw [hteacher] at hplace
    cases hplace

theorem Phase.at_closing (hp : Phase n pids e) (hteacher : e.teacher.closing = true) :
    Closing n pids e := by
  cases hp with
  | call i hi hq => rw [hq] at hteacher; cases hteacher
  | here i hi hq => rw [hq] at hteacher; cases hteacher
  | last attempts hn hq => rw [hq] at hteacher; cases hteacher
  | grading hq =>
    rcases hq with hq | hq
    · rw [hq] at hteacher; cases hteacher
    · rw [hq] at hteacher; cases hteacher
  | passing j k i hj hi hq => rw [hq] at hteacher; cases hteacher
  | closing hlogs hc => exact hc

theorem Heard.teacher_step (hpids : Distinct n pids) (hp : Phase n pids e) (hh : Heard n pids e)
    (hcalm : Calm n e (.teacher rand)) (h : e.teacherWork n pids rand = some t) :
    Heard n pids t := by
  obtain ⟨-, hgood, hopen⟩ := hcalm
  have hwork := h
  unfold State.teacherWork at h
  split at h
  · rename_i i hq
    cases h
    exact hh.note (hopen i (by rw [hq]; rfl)) (by rw [hq]; nofun) nofun
  · rename_i i hq
    split at h
    · cases h
    · rename_i m rest hpipe
      cases h
      obtain ⟨pid, rfl⟩ := hp.oldest_here hq hpipe
      refine hh.teacher_keeps rfl (fun _ hl => hl) (fun result pid' stage hm => ?_)
        (by rw [hq]; nofun) (callLoop_alive _)
      rw [hpipe] at hm
      exact (List.mem_cons.mp hm).resolve_left nofun
  · rename_i hq
    cases h
    refine hh.teacher_keeps rfl (fun _ hl => hl) (fun _ _ _ hm => hm) (by rw [hq]; nofun) ?_
    dsimp only
    split
    · nofun
    · exact doneLoop_alive 0
  · rename_i hq
    exact hh.attempt_step hpids hq (hp.at_attempt hq) (hgood hq) hwork
  · rename_i l stage hq
    split at h
    · cases h
      have htold : Heard n pids (e.note n l .one (gradeLoop n
          (if stage = 4 then e.doneStudents + 1 else e.doneStudents))) :=
        hh.note (hopen l (by rw [hq]; rfl)) (fun l' stage' hq' => by rw [hq] at hq'; cases hq'; rfl)
          (gradeLoop_alive _)
      exact ⟨htold.answered, htold.teacher⟩
    · cases h
  · rename_i i hq
    cases h
    exact hh.note (hopen i (by rw [hq]; rfl)) (by rw [hq]; nofun) nofun
  · rename_i i hq
    split at h
    · cases h
    · rename_i m rest hpipe
      cases h
      have hc := hp.at_closing (by rw [hq]; rfl)
      obtain ⟨l, hl, rfl, -⟩ := hc.read hq hpipe
      rw [record_report]
      refine hh.teacher_keeps rfl (fun _ hl => hl) (fun result pid' stage hm => ?_)
        (by rw [hq]; nofun) (doneLoop_alive _)
      rw [hpipe] at hm
      exact (List.mem_cons.mp hm).resolve_left nofun
  · rename_i hq
    split at h
    · cases h
      exact hh.teacher_keeps rfl (fun _ hl => hl) (fun _ _ _ hm => hm) (by rw [hq]; nofun) nofun
    · cases h
  · cases h
  · cases h

theorem Heard.alarm_step {interrupts : Bool} (hh : Heard n pids e)
    (h : e.alarm interrupts = some t) : Heard n pids t := by
  unfold State.alarm at h
  split at h
  · cases h
    by_cases hwait : interrupts = true ∧ e.teacher = .wait
    · rw [if_pos hwait]
      exact hh.teacher_keeps rfl (fun _ hl => hl) (fun _ _ _ hm => hm) (by rw [hwait.2]; nofun) nofun
    · rw [if_neg hwait]
      exact ⟨hh.answered, hh.teacher⟩
  · cases h

theorem heard_reach (hn : 0 < n) (hpids : Distinct n pids)
    (h : (exams n pids).ReachIf (Calm n) e) : Heard n pids e := by
  refine h.inv (I := Heard n pids) (fun e he => ?_) ?_
  · obtain rfl : e = begun n := he
    exact ⟨fun _ _ _ _ => nofun, callLoop_alive 0⟩
  · intro e act t hr hh hcalm hnext
    have hp := phase_reach hn hpids (hr.mono (calm_orderly n))
    rcases next_cases hnext with ⟨j, rand, rfl, -, h⟩ | ⟨rand, rfl, h⟩ | ⟨interrupts, rfl, h⟩
    · obtain ⟨s, notes, said, hd, rfl⟩ := studentWork_deed h
      exact hh.student_step hd
    · exact hh.teacher_step hpids hp hcalm h
    · exact hh.alarm_step h

/-! ## Somebody goes on -/

theorem student_goes (n : Nat) (pids : Nat → Nat) (halive : (e.student j).alive = true)
    (hfree : ¬ e.blocked j) : ∃ t, e.studentWork n pids j 0 = some t := by
  unfold State.studentWork
  cases hq : e.student j with
  | readCall k =>
    cases hpipe : e.pipe j with
    | nil => exact absurd ⟨by rw [hq]; rfl, hpipe⟩ hfree
    | cons note notes => exact ⟨_, rfl⟩
  | readAnswer k i =>
    cases hpipe : e.pipe j with
    | nil => exact absurd ⟨by rw [hq]; rfl, hpipe⟩ hfree
    | cons note notes => exact ⟨_, rfl⟩
  | exited => rw [hq] at halive; cases halive
  | killed => rw [hq] at halive; cases halive
  | _ => exact ⟨_, rfl⟩

/-- A student that has ended, or that waits with an empty pipe. -/
def State.stopped (e : State) (j : Nat) : Prop := (e.student j).alive = false ∨ e.blocked j

theorem stopped_reads {s : Student} (hq : e.student j = s) (halive : s.alive = true)
    (h : e.stopped j) : s.reads = true ∧ e.pipe j = [] := by
  unfold State.stopped State.blocked at h
  rw [hq] at h
  exact h.resolve_left fun hfalse => by rw [halive] at hfalse; cases hfalse

/-- The student that is called does not stop before it has said `HERE`. -/
theorem Called.not_stopped {pid : Nat} {more : Prop}
    (hc : Called pid more (e.student j) (e.pipe j) e.teacherPipe) : ¬ e.stopped j := by
  generalize hs : e.student j = s at hc
  generalize hp : e.pipe j = notes at hc
  generalize e.teacherPipe = teacherPipe at hc
  intro h
  cases hc with
  | forked => cases (stopped_reads hs rfl h).1
  | readCall k =>
    rw [(stopped_reads hs rfl h).2] at hp
    cases hp
  | writeHere k => cases (stopped_reads hs rfl h).1
  | present k hmore => cases (stopped_reads hs rfl h).1

theorem Grading.waits_of_stopped {attempts : List Msg} {busy : Option Nat}
    (hg : Grading n pids e attempts busy) (hj : j < n) (h : e.stopped j) :
    (∃ k i, e.student j = .readAnswer k i) ∧ e.pipe j = [] := by
  have hsits := hg.sits j hj
  generalize hs : e.student j = s at hsits
  generalize hp : e.pipe j = notes at hsits
  cases hsits with
  | attempt k i hi => cases (stopped_reads hs rfl h).1
  | waits k i hi => exact ⟨⟨k, i, rfl⟩, rfl⟩
  | told k i hi =>
    rw [(stopped_reads hs rfl h).2] at hp
    cases hp
  | report => cases (stopped_reads hs rfl h).1

theorem Passed.ended (hpassed : Passed (e.student j) (e.pipe j)) (h : e.stopped j) :
    (e.student j).alive = false := by
  generalize hs : e.student j = s at hpassed
  generalize hp : e.pipe j = notes at hpassed
  cases hpassed with
  | told k notes =>
    rw [(stopped_reads hs rfl h).2] at hp
    cases hp
  | report notes => cases (stopped_reads hs rfl h).1
  | leaving notes => cases (stopped_reads hs rfl h).1
  | exited notes => rfl
  | killed notes => rfl

theorem not_alive_reports {s : Student} (h : s.alive = false) : s.reports = false := by
  cases s with
  | exited => rfl
  | killed => rfl
  | _ => cases h

/-- When all students have stopped, the teacher goes on or has left. -/
theorem teacher_goes (hn : 0 < n) (hpids : Distinct n pids) (hp : Phase n pids e)
    (hh : Heard n pids e) (hstopped : ∀ j < n, e.stopped j) :
    e.teacher = .exited ∨ ∃ t, e.teacherWork n pids 0 = some t := by
  cases hp with
  | call i hi hq =>
    right
    unfold State.teacherWork
    simp only [hq]
    exact ⟨_, rfl⟩
  | here i hi hq hlogs hgraded hreported hdone hcalled =>
    exact absurd (hstopped i hi) hcalled.not_stopped
  | last attempts hn hq hlogs hgraded hreported hpipe hg =>
    right
    unfold State.teacherWork
    simp only [hq, hpipe]
    exact ⟨_, rfl⟩
  | grading hq hlogs hreported hg =>
    right
    unfold State.teacherWork
    rcases hq with hq | hq
    · simp only [hq]
      exact ⟨_, rfl⟩
    · cases hpipe : e.teacherPipe with
      | nil =>
        obtain ⟨⟨k, i, hw⟩, hempty⟩ := hg.waits_of_stopped hn (hstopped 0 hn)
        rcases hh.answered 0 hn k i hw with hne | ⟨result, stage, hm⟩ | ⟨stage, hone⟩
        · exact absurd hempty hne
        · rw [hpipe] at hm; cases hm
        · rw [hq] at hone; cases hone
      | cons m rest =>
        rw [hpipe] at hg
        obtain ⟨j, hj, result, k, i, hi, rfl, -⟩ := hg.read
        obtain ⟨passed, hpassed⟩ := passes_stage result 0 hi
        simp only [hq, grade_attempt hpids hj hpassed]
        exact ⟨_, rfl⟩
  | passing j k i hj hi hq =>
    right
    unfold State.teacherWork
    simp only [hq, if_pos hj]
    exact ⟨_, rfl⟩
  | closing hlogs hc =>
    have hended : ∀ j < n, (e.student j).alive = false := fun j hj =>
      (hc.passed j hj).ended (hstopped j hj)
    have hcount := hc.count hh.teacher
    have hnone : unreported n e.student = 0 :=
      List.countP_eq_zero.mpr fun j hj => by
        rw [not_alive_reports (hended j (List.mem_range.mp hj))]; nofun
    have hplace := hc.place
    unfold State.teacherWork
    generalize hq : e.teacher = q at hplace
    generalize e.reported.length = i at hplace hcount
    cases hplace with
    | write _ hi => exact .inr ⟨_, rfl⟩
    | read _ hi =>
      right
      cases hpipe : e.teacherPipe with
      | nil => rw [hpipe, List.length_nil] at hcount; omega
      | cons m rest => exact ⟨_, rfl⟩
    | wait =>
      right
      simp only [if_pos hended]
      exact ⟨_, rfl⟩
    | exited => exact .inl rfl
    | killed r => exact absurd hq hh.teacher

/-! ## Every run -/

/-- A student that waits for an answer reads `one` before anything else. -/
theorem Phase.first_one (hp : Phase n pids e) (hj : j < n) {k i : Nat} {note : Note}
    {notes : List Note} (hq : e.student j = .readAnswer k i) (hpipe : e.pipe j = note :: notes) :
    note = .one := by
  have hgrading : ∀ {attempts : List Msg} {busy : Option Nat}, Grading n pids e attempts busy →
      note = .one := fun hg => by
    have hsits := hg.sits j hj
    rw [hq, hpipe] at hsits
    cases hsits
    rfl
  cases hp with
  | call l hl hteacher hlogs hgraded hreported hdone hempty hearly hlate =>
    rcases Nat.lt_or_ge j l with hlt | hge
    · rw [(hearly j hlt).2] at hpipe; cases hpipe
    · have huncalled := hlate j hge hj
      rw [hq] at huncalled
      cases huncalled
  | here l hl hteacher hlogs hgraded hreported hdone hcalled hearly hlate =>
    rcases Nat.lt_trichotomy j l with hlt | rfl | hgt
    · rw [(hearly j hlt).2] at hpipe; cases hpipe
    · rw [hq] at hcalled; cases hcalled
    · have huncalled := hlate j hgt hj
      rw [hq] at huncalled
      cases huncalled
  | last attempts hn hteacher hlogs hgraded hreported hempty hg => exact hgrading hg
  | grading hteacher hlogs hreported hg => exact hgrading hg
  | passing l k' i' hl hi hteacher hlogs hreported hq' hempty hg => exact hgrading hg
  | closing hlogs hc =>
    have hpassed := hc.passed j hj
    rw [hq, hpipe] at hpassed
    cases hpassed
    rfl

theorem calm_lower (hn : 0 < n) (hpids : Distinct n pids) (e : State) (act : Act) (t : State)
    (hr : (exams n pids).ReachIf (Calm n) e) (_ : Calm n e act)
    (h : (exams n pids).next e act = some t) : t.weight n < e.weight n := by
  have hp := phase_reach hn hpids (hr.mono (calm_orderly n))
  rcases next_cases h with ⟨j, rand, rfl, hj, hwork⟩ | ⟨_, rfl, hwork⟩ | ⟨_, rfl, hset⟩
  · obtain ⟨s, notes, said, hd, rfl⟩ := studentWork_deed hwork
    exact student_weight hj (fun k i note notes hq hpipe => hp.first_one hj hq hpipe) hd
  · exact teacher_weight hwork
  · exact alarm_weight hset

theorem deadlock_stuck (pids : Nat → Nat) (hd : Deadlock n e) :
    e.teacherWork n pids 0 = none ∧ e.teacher ≠ .exited := by
  have hreads := hd.reads
  unfold State.teacherWork
  cases hq : e.teacher with
  | readHere i => simp only [hd.empty]; exact ⟨trivial, nofun⟩
  | readAttempt => simp only [hd.empty]; exact ⟨trivial, nofun⟩
  | readReport i => simp only [hd.empty]; exact ⟨trivial, nofun⟩
  | _ => rw [hq] at hreads; cases hreads

theorem next_student (hchecks : e.aborted = false) (hj : j < n) :
    (exams n pids).next e (.student j rand) = e.studentWork n pids j rand := by
  unfold exams State.next
  simp only [hchecks, Bool.false_eq_true, if_false, if_pos hj]

theorem next_teacher (hchecks : e.aborted = false) :
    (exams n pids).next e (.teacher rand) = e.teacherWork n pids rand := by
  unfold exams State.next
  simp only [hchecks, Bool.false_eq_true, if_false]

theorem somebody_goes (hn : 0 < n) (hpids : Distinct n pids) (hp : Phase n pids e)
    (hh : Heard n pids e) :
    e.teacher = .exited ∨ ∃ act t, (exams n pids).next e act = some t := by
  have hchecks := hp.in_phase.checks
  by_cases hstopped : ∀ j < n, e.stopped j
  · rcases teacher_goes hn hpids hp hh hstopped with hexited | ⟨t, ht⟩
    · exact .inl hexited
    · exact .inr ⟨.teacher 0, t, (next_teacher hchecks).trans ht⟩
  · right
    obtain ⟨j, hrest⟩ := Classical.not_forall.mp hstopped
    obtain ⟨hj, hgoes⟩ := Classical.not_imp.mp hrest
    unfold State.stopped at hgoes
    obtain ⟨halive, hfree⟩ := not_or.mp hgoes
    obtain ⟨t, ht⟩ := student_goes n pids (Bool.of_not_eq_false halive) hfree
    exact ⟨.student j 0, t, (next_student hchecks hj).trans ht⟩

theorem no_deadlock (hn : 0 < n) (hpids : Distinct n pids) (hp : Phase n pids e)
    (hh : Heard n pids e) : ¬ Deadlock n e := by
  intro hd
  obtain ⟨hstuck, hne⟩ := deadlock_stuck pids hd
  rcases teacher_goes hn hpids hp hh hd.students with hexited | ⟨t, ht⟩
  · exact hne hexited
  · rw [hstuck] at ht
    cases ht

theorem no_left_behind (hp : Phase n pids e) : ¬ LeftBehind n e := by
  rintro ⟨hteacher, j, hj, hblocked⟩
  have hc : Closing n pids e := by
    rcases hteacher with hq | hq
    · exact hp.at_closing (by rw [hq]; rfl)
    · exact hp.at_closing (by rw [hq]; rfl)
  have hended := (hc.passed j hj).ended (.inr hblocked)
  have hreads := hblocked.1
  generalize e.student j = s at hended hreads
  cases s with
  | readCall k => cases hended
  | readAnswer k i => cases hended
  | _ => cases hreads

/-- **Nobody is left waiting**, for every number of students that `main` accepts: in every run
whose steps are all calm the teacher never waits for a message that nobody will write, and no
student waits when `teacher_work` has returned; until the teacher has left the loop over
`wait`, somebody can go on, and the run has at most `36 * n + 8` steps. -/
theorem nobody_waits (hn : 4 ≤ n ∧ n ≤ 20) (hpids : Distinct n pids) {acts : List Act}
    (h : (exams n pids).execIf (Calm n) (begun n) acts = some e) :
    ¬ Deadlock n e ∧ ¬ LeftBehind n e ∧
      (e.teacher = .exited ∨ ∃ act t, (exams n pids).next e act = some t) ∧
      acts.length ≤ 36 * n + 8 := by
  have hpos : 0 < n := by omega
  have hinit : (exams n pids).ReachIf (Calm n) (begun n) := .init rfl
  have hr : (exams n pids).ReachIf (Calm n) e := hinit.execIf h
  have hp := phase_reach hpos hpids (hr.mono (calm_orderly n))
  have hh := heard_reach hpos hpids hr
  have hlength := LTS.execIf_length (State.weight n) (fun s a t hs hc hn =>
    ⟨.next hs hc hn, calm_lower hpos hpids s a t hs hc hn⟩) hinit h
  have hbegun := begun_weight (n := n)
  exact ⟨no_deadlock hpos hpids hp hh, no_left_behind hp, somebody_goes hpos hpids hp hh,
    by omega⟩

/-- A whole exam is calm, and leaves nobody waiting. -/
theorem nobody_waits_whole : ∃ e, (exams 4 somePids).execIf (Calm 4) (begun 4) wholeExam = some e ∧
    e.teacher = .exited ∧ ¬ Deadlock 4 e ∧ ¬ LeftBehind 4 e := by
  have hrun : ((exams 4 somePids).execIf (Calm 4) (begun 4) wholeExam).map (·.teacher) =
      some .exited := by decide +kernel
  obtain ⟨e, he, hteacher⟩ := Option.map_eq_some_iff.mp hrun
  have hwaits := nobody_waits (by decide) somePids_distinct he
  exact ⟨e, he, hteacher, hwaits.1, hwaits.2.1⟩

/-- Student `j` writes an attempt that is not good enough. -/
def fails (j : Nat) : List Act := [.student j 0, .teacher 0, .teacher 19]

/-- **All fail**: the teacher waits for the next attempt, and the students for an answer. -/
theorem all_fail : ∃ e, (exams 4 somePids).Reach e ∧ Deadlock 4 e := by
  have hrun : ((exams 4 somePids).exec (begun 4) ((List.range 4).flatMap attends ++
      (List.range 4).flatMap fails ++ [.teacher 0])).map (fun e => (e.teacher.reads,
        e.teacherPipe, (List.range 4).all fun j => (e.student j).reads && e.pipe j == [])) =
      some (true, [], true) := by decide +kernel
  obtain ⟨e, he, heq⟩ := Option.map_eq_some_iff.mp hrun
  simp only [Prod.mk.injEq] at heq
  obtain ⟨hreads, hempty, hall⟩ := heq
  refine ⟨e, LTS.Reach.exec (.init rfl) he, hreads, hempty, fun j hj => ?_⟩
  have hboth := List.all_eq_true.mp hall j (List.mem_range.mpr hj)
  rw [Bool.and_eq_true, beq_iff_eq] at hboth
  exact .inr hboth

end Ops.Exam
