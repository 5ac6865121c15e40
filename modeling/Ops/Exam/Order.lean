import Ops.Exam.Phases

/-!
# Each message in its phase

The three kinds of message share one pipe, and a fast student can be ahead of a slow one. In
an orderly run every message is read by its own loop (`phases_kept`); in another one an
attempt is taken for a student's `HERE` (`early_attempt`).
-/

namespace Ops.Exam

variable {n i j rand : Nat} {pids : Nat → Nat} {e t : State}

/-- The teacher has not heard all students. -/
def Teacher.calling : Teacher → Bool
  | .writeCall _ | .readHere _ => true
  | _ => false

/-- The teacher has left the loop over the attempts. -/
def Teacher.closing : Teacher → Bool
  | .writeDone _ | .readReport _ | .wait | .exited | .killed => true
  | _ => false

/-- Every message is read by its own loop, and no check fails. -/
structure InPhase (n : Nat) (pids : Nat → Nat) (e : State) : Prop where
  attended : e.attended <+: heres pids n
  everyone : e.teacher.calling = false → e.attended = heres pids n
  graded : ∀ m ∈ e.graded, ∃ j < n, ∃ result stage, m = .attempt result (pids j) stage
  reported : ∀ m ∈ e.reported, ∃ j < n, ∃ stage, m = .report (pids j) stage
  each : ∀ i, e.teacher = .writeDone i ∨ e.teacher = .readReport i → e.reported.length = i
  left : e.teacher.closing = true →
    ∀ m ∈ e.teacherPipe, ∃ j < n, ∃ stage, m = .report (pids j) stage
  checks : e.aborted = false

/-! ## A step of the teacher -/

theorem note_readable {note : Note} {next : Teacher} (hopen : e.readable n j) :
    e.note n j note next = { e.setPipe j (e.pipe j ++ [note]) with teacher := next } :=
  if_pos hopen

theorem callLoop_more (hi : i < n) : callLoop n i = .writeCall i := if_pos hi

theorem callLoop_last (hi : n ≤ i) : callLoop n i = .test := if_neg (by omega)

theorem passes_stage (result : Int) (rand : Nat) (hi : i < 4) :
    ∃ passed, passes result ((i + 1 : Nat) : Int) rand = some passed := by
  unfold passes difficulty
  have hstage : i = 0 ∨ i = 1 ∨ i = 2 ∨ i = 3 := by omega
  rcases hstage with rfl | rfl | rfl | rfl <;> exact ⟨_, rfl⟩

theorem grade_attempt (hpids : Distinct n pids) (hj : j < n) {result : Nat} {passed : Bool}
    (hpassed : passes result ((i + 1 : Nat) : Int) rand = some passed) :
    e.grade n pids (Msg.attempt result (pids j) (i + 1)).text rand = some { e with
      teacher := if passed then .writeOne j ((i + 1 : Nat) : Int)
        else gradeLoop n e.doneStudents } := by
  unfold State.grade
  rw [scan_attempt]
  simp only [hpassed, Option.map_some, search_pid hpids hj]

theorem record_report {pid stage : Nat} :
    e.record n i (Msg.report pid stage).text = { e with teacher := doneLoop n (i + 1) } := by
  unfold State.record
  rw [scan_report]

theorem Phase.call_step (hi : i < n) (hteacher : e.teacher = .writeCall i) (hlogs : Logs n pids e i)
    (hgraded : e.graded = []) (hreported : e.reported = []) (hdone : e.doneStudents = 0)
    (hpipe : e.teacherPipe = [])
    (hearly : ∀ j < i, (∃ k, e.student j = .writeAttempt k 0) ∧ e.pipe j = [])
    (hlate : ∀ j, i ≤ j → j < n → Uncalled (e.student j) (e.pipe j))
    (h : e.teacherWork n pids rand = some t) : Phase n pids t := by
  have huncalled := hlate i (Nat.le_refl i) hi
  unfold State.teacherWork at h
  simp only [hteacher, note_readable (n := n) (.inl huncalled.alive), Option.some.injEq] at h
  subst h
  have hother : ∀ l, l ≠ i → Function.update e.pipe i (e.pipe i ++ [Note.isHere (pids i)]) l =
      e.pipe l := fun l hl => Function.update_of_ne hl ..
  refine .here i hi rfl ⟨hlogs.attended, hlogs.graded, hlogs.reported, hlogs.checks⟩ hgraded
    hreported hdone ?_ (fun l hl => ?_) fun l hl hln => ?_
  · show Called (pids i) (i + 1 < n) (e.student i)
      (Function.update e.pipe i (e.pipe i ++ [Note.isHere (pids i)]) i) e.teacherPipe
    rw [Function.update_self, hpipe]
    generalize e.student i = s at huncalled
    generalize e.pipe i = notes at huncalled
    cases huncalled with
    | forked => exact .forked
    | readCall k => exact .readCall k
  · refine ⟨(hearly l hl).1, ?_⟩
    exact (hother l (by omega)).trans (hearly l hl).2
  · show Uncalled (e.student l) (Function.update e.pipe i (e.pipe i ++ [Note.isHere (pids i)]) l)
    rw [hother l (by omega)]
    exact hlate l (by omega) hln

theorem heres_succ (pids : Nat → Nat) (a : Nat) :
    heres pids (a + 1) = heres pids a ++ [.here (pids a)] := by
  unfold heres
  rw [List.range_succ, List.map_append]
  rfl

theorem Logs.heard {a : Nat} (hl : Logs n pids e a) {q : Teacher} {rest : List Msg} {alarmSet : Bool} :
    Logs n pids { e with
      teacherPipe := rest, attended := e.attended ++ [.here (pids a)]
      teacher := q, alarmSet := alarmSet } (a + 1) :=
  ⟨by rw [heres_succ, ← hl.attended], hl.graded, hl.reported, hl.checks⟩

theorem Phase.here_step (hteacher : e.teacher = .readHere i) (hlogs : Logs n pids e i)
    (hgraded : e.graded = []) (hreported : e.reported = []) (hdone : e.doneStudents = 0)
    (hcalled : Called (pids i) (i + 1 < n) (e.student i) (e.pipe i) e.teacherPipe)
    (hearly : ∀ j < i, (∃ k, e.student j = .writeAttempt k 0) ∧ e.pipe j = [])
    (hlate : ∀ j, i < j → j < n → Uncalled (e.student j) (e.pipe j))
    (h : e.teacherWork n pids rand = some t) : Phase n pids t := by
  unfold State.teacherWork at h
  simp only [hteacher] at h
  generalize hs : e.student i = s at hcalled
  generalize hp : e.pipe i = notes at hcalled
  split at h
  · cases h
  · rename_i m rest hpipe
    rw [hpipe] at hcalled
    cases hcalled with
    | present k hmore =>
      cases h
      rw [callLoop_more hmore]
      refine .call (i + 1) hmore rfl hlogs.heard hgraded hreported hdone rfl (fun l hl => ?_) hlate
      by_cases hli : l = i
      · subst hli
        exact ⟨⟨k, hs⟩, hp⟩
      · exact hearly l (by omega)

theorem Phase.last_step {attempts : List Msg} (hn : 0 < n) (hteacher : e.teacher = .readHere (n - 1))
    (hlogs : Logs n pids e (n - 1)) (hreported : e.reported = [])
    (hpipe : e.teacherPipe = .here (pids (n - 1)) :: attempts)
    (hg : Grading n pids e attempts none) (h : e.teacherWork n pids rand = some t) :
    Phase n pids t := by
  unfold State.teacherWork at h
  simp only [hteacher, hpipe, Option.some.injEq] at h
  subst h
  rw [callLoop_last (by omega)]
  obtain ⟨a, rfl⟩ := Nat.exists_eq_succ_of_ne_zero (Nat.ne_of_gt hn)
  exact .grading (.inl rfl) (Logs.heard (a := a) hlogs) hreported (hg.congr rfl rfl rfl)

theorem Phase.test_step (hteacher : e.teacher = .test) (hlogs : Logs n pids e n)
    (hreported : e.reported = []) (hg : Grading n pids e e.teacherPipe none)
    (horderly : Orderly n e (.teacher rand)) (h : e.teacherWork n pids rand = some t) :
    Phase n pids t := by
  have hmore := hg.more
  have hstay : e.alarmed = false ∧ e.doneStudents ≠ 4 := by
    have hleave := horderly hteacher
    refine ⟨Bool.eq_false_iff.mpr fun ha => ?_, fun hd => ?_⟩
    · have hdone := hleave (.inl ha)
      omega
    · have hdone := hleave (.inr hd)
      omega
  unfold State.teacherWork at h
  simp only [hteacher, if_pos hstay, Option.some.injEq] at h
  subst h
  exact .grading (.inr rfl) ⟨hlogs.attended, hlogs.graded, hlogs.reported, hlogs.checks⟩ hreported
    (hg.congr rfl rfl rfl)

theorem Grading.free {attempts : List Msg} (hg : Grading n pids e attempts (some j)) :
    Grading n pids e attempts none := by
  refine { hg with by_waiting := fun m hm => ?_ }
  obtain ⟨l, hl, result, k, i, rfl, hq, hpipe, -⟩ := hg.by_waiting m hm
  exact ⟨l, hl, result, k, i, rfl, hq, hpipe, nofun⟩

theorem Phase.attempt_step (hpids : Distinct n pids) (hteacher : e.teacher = .readAttempt)
    (hlogs : Logs n pids e n) (hreported : e.reported = [])
    (hg : Grading n pids e e.teacherPipe none) (h : e.teacherWork n pids rand = some t) :
    Phase n pids t := by
  have hmore := hg.more
  unfold State.teacherWork at h
  simp only [hteacher] at h
  split at h
  · cases h
  · rename_i m rest hpipe
    rw [hpipe] at hg
    obtain ⟨j, hj, result, k, i, hi, rfl, hq, hjpipe, hrest⟩ := hg.read
    obtain ⟨passed, hpassed⟩ := passes_stage result rand hi
    rw [grade_attempt hpids hj hpassed] at h
    cases h
    have hgraded : ∀ m ∈ e.graded ++ [Msg.attempt result (pids j) (i + 1)],
        ∃ j < n, ∃ result stage, m = .attempt result (pids j) stage := by
      intro m hm
      rcases List.mem_append.mp hm with hm | hm
      · exact hlogs.graded m hm
      · exact ⟨j, hj, result, i + 1, List.mem_singleton.mp hm⟩
    cases passed with
    | true =>
      exact .passing j k i hj hi rfl ⟨hlogs.attended, hgraded, hlogs.reported, hlogs.checks⟩
        hreported hq hjpipe (hrest.congr rfl rfl rfl)
    | false =>
      have hloop : gradeLoop n e.doneStudents = .test := if_neg (by omega)
      exact .grading (.inl hloop) ⟨hlogs.attended, hgraded, hlogs.reported, hlogs.checks⟩ hreported
        (hrest.free.congr rfl rfl rfl)

/-- A stage number that was read is the last one if it was written as such. -/
theorem stage_last (i done : Nat) :
    (if ((i + 1 : Nat) : Int) = 4 then done + 1 else done) = doneAfter i done := by
  unfold doneAfter
  by_cases hlast : i + 1 = 4
  · rw [if_pos hlast, if_pos (by omega)]
  · rw [if_neg hlast, if_neg (by omega)]

theorem Phase.one_step (hj : j < n) (hteacher : e.teacher = .writeOne j ((i + 1 : Nat) : Int))
    (hlogs : Logs n pids e n) (hreported : e.reported = []) {k : Nat}
    (hq : e.student j = .readAnswer k i) (hpipe : e.pipe j = [])
    (hg : Grading n pids e e.teacherPipe (some j)) (h : e.teacherWork n pids rand = some t) :
    Phase n pids t := by
  have hmore := hg.more
  have hopen : e.readable n j := .inl (by rw [hq]; rfl)
  have hone : e.pipe j ++ [Note.one] = [.one] := by rw [hpipe]; rfl
  unfold State.teacherWork at h
  simp only [hteacher, if_pos hj, note_readable hopen, stage_last, Option.some.injEq] at h
  subst h
  have hlogs' : ∀ {q : Teacher} {p : Nat → List Note} {done : Nat}, Logs n pids { e with
      pipe := p, teacher := q, doneStudents := done } n :=
    ⟨hlogs.attended, hlogs.graded, hlogs.reported, hlogs.checks⟩
  have htpipe : Function.update e.pipe j (e.pipe j ++ [Note.one]) =
      Function.update e.pipe j [.one] := by rw [hone]
  by_cases hall : doneAfter i e.doneStudents = n
  · obtain ⟨hpassed, hnone⟩ := hg.all_told
      (t := { e.setPipe j (e.pipe j ++ [Note.one]) with
        teacher := gradeLoop n (doneAfter i e.doneStudents)
        doneStudents := doneAfter i e.doneStudents }) hj hq hpipe rfl htpipe hall
    have hloop : gradeLoop n (doneAfter i e.doneStudents) = doneLoop n 0 := if_pos hall
    exact .closing hlogs' (Closing.begins hpassed hnone hall hreported hloop)
  · have hloop : gradeLoop n (doneAfter i e.doneStudents) = .test := if_neg hall
    have hle := doneAfter_le i e.doneStudents
    have hlt : doneAfter i e.doneStudents < n := by omega
    exact .grading (.inl hloop) hlogs' hreported (hg.told hj hq hpipe rfl htpipe rfl hlt)

theorem Phase.closing_step (hlogs : Logs n pids e n) (hc : Closing n pids e)
    (h : e.teacherWork n pids rand = some t) : Phase n pids t := by
  have hplace := hc.place
  unfold State.teacherWork at h
  generalize hteacher : e.teacher = q at hplace
  generalize e.reported.length = i at hplace
  cases hplace with
  | write _ hi =>
    simp only [hteacher, Option.some.injEq] at h
    subst h
    have hlogs' : Logs n pids (e.note n i .done (.readReport i)) n := by
      unfold State.note
      split <;> exact ⟨hlogs.attended, hlogs.graded, hlogs.reported, hlogs.checks⟩
    exact .closing hlogs' (hc.write hteacher)
  | read _ hi =>
    simp only [hteacher] at h
    split at h
    · cases h
    · rename_i m rest hpipe
      obtain ⟨l, hl, rfl, hread⟩ := hc.read hteacher hpipe
      rw [record_report] at h
      cases h
      refine .closing ⟨hlogs.attended, hlogs.graded, fun m hm => ?_, hlogs.checks⟩ hread
      rcases List.mem_append.mp hm with hm | hm
      · exact hlogs.reported m hm
      · exact ⟨l, hl, 4, List.mem_singleton.mp hm⟩
  | wait =>
    simp only [hteacher] at h
    split at h
    · cases h
      have hne : e.teacher ≠ .killed := by rw [hteacher]; nofun
      exact .closing ⟨hlogs.attended, hlogs.graded, hlogs.reported, hlogs.checks⟩
        (hc.congr rfl rfl rfl rfl rfl (hc.exited hteacher) fun _ => hne)
    · cases h
  | exited => simp only [hteacher] at h; cases h
  | killed r => simp only [hteacher] at h; cases h

theorem Phase.teacher_step (hpids : Distinct n pids) (hp : Phase n pids e)
    (horderly : Orderly n e (.teacher rand)) (h : e.teacherWork n pids rand = some t) :
    Phase n pids t := by
  cases hp with
  | call i hi hteacher hlogs hgraded hreported hdone hpipe hearly hlate =>
    exact call_step hi hteacher hlogs hgraded hreported hdone hpipe hearly hlate h
  | here i hi hteacher hlogs hgraded hreported hdone hcalled hearly hlate =>
    exact here_step hteacher hlogs hgraded hreported hdone hcalled hearly hlate h
  | last attempts hn hteacher hlogs hgraded hreported hpipe hg =>
    exact last_step hn hteacher hlogs hreported hpipe hg h
  | grading hteacher hlogs hreported hg =>
    rcases hteacher with hteacher | hteacher
    · exact test_step hteacher hlogs hreported hg horderly h
    · exact attempt_step hpids hteacher hlogs hreported hg h
  | passing j k i hj hi hteacher hlogs hreported hq hpipe hg =>
    exact one_step hj hteacher hlogs hreported hq hpipe hg h
  | closing hlogs hc => exact closing_step hlogs hc h

/-! ## `SIGALRM` -/

theorem Phase.alarm_step {interrupts : Bool} (hp : Phase n pids e)
    (h : e.alarm interrupts = some t) : Phase n pids t := by
  unfold State.alarm at h
  split at h
  · have hstay : e.teacher ≠ .wait →
        (if interrupts = true ∧ e.teacher = .wait then Teacher.exited else e.teacher) =
          e.teacher := fun hne => if_neg fun hand => hne hand.2
    cases h
    cases hp with
    | call i hi hteacher hlogs hgraded hreported hdone hpipe hearly hlate =>
      exact .call i hi ((hstay (by rw [hteacher]; nofun)).trans hteacher)
        ⟨hlogs.attended, hlogs.graded, hlogs.reported, hlogs.checks⟩ hgraded hreported hdone hpipe
        hearly hlate
    | here i hi hteacher hlogs hgraded hreported hdone hcalled hearly hlate =>
      exact .here i hi ((hstay (by rw [hteacher]; nofun)).trans hteacher)
        ⟨hlogs.attended, hlogs.graded, hlogs.reported, hlogs.checks⟩ hgraded hreported hdone hcalled
        hearly hlate
    | last attempts hn hteacher hlogs hgraded hreported hpipe hg =>
      exact .last attempts hn ((hstay (by rw [hteacher]; nofun)).trans hteacher)
        ⟨hlogs.attended, hlogs.graded, hlogs.reported, hlogs.checks⟩ hgraded hreported hpipe
        (hg.congr rfl rfl rfl)
    | grading hteacher hlogs hreported hg =>
      have hne : e.teacher ≠ .wait := by
        rcases hteacher with hteacher | hteacher
        · rw [hteacher]; nofun
        · rw [hteacher]; nofun
      refine .grading ?_ ⟨hlogs.attended, hlogs.graded, hlogs.reported, hlogs.checks⟩ hreported
        (hg.congr rfl rfl rfl)
      rw [hstay hne]
      exact hteacher
    | passing j k i hj hi hteacher hlogs hreported hq hpipe hg =>
      exact .passing j k i hj hi ((hstay (by rw [hteacher]; nofun)).trans hteacher)
        ⟨hlogs.attended, hlogs.graded, hlogs.reported, hlogs.checks⟩ hreported hq hpipe
        (hg.congr rfl rfl rfl)
    | closing hlogs hc =>
      refine .closing ⟨hlogs.attended, hlogs.graded, hlogs.reported, hlogs.checks⟩ ?_
      by_cases hwait : e.teacher = .wait
      · have hne : e.teacher ≠ .killed := by rw [hwait]; nofun
        refine hc.congr rfl rfl rfl rfl rfl ?_ fun _ => hne
        dsimp only
        split
        · exact hc.exited hwait
        · exact hc.place
      · refine hc.congr rfl rfl rfl rfl rfl ?_ fun hne => ?_
        · dsimp only
          rw [hstay hwait]
          exact hc.place
        · dsimp only at hne
          rw [hstay hwait] at hne
          exact hne
  · cases h

/-! ## Every run -/

theorem begun_phase (hn : 0 < n) : Phase n pids (begun n) := by
  have hcall : callLoop n 0 = .writeCall 0 := callLoop_more hn
  exact .call 0 hn hcall ⟨rfl, nofun, nofun, rfl⟩ rfl rfl rfl rfl nofun fun _ _ _ => .forked

theorem phase_reach (hn : 0 < n) (hpids : Distinct n pids)
    (h : (exams n pids).ReachIf (Orderly n) e) : Phase n pids e := by
  refine h.inv (I := Phase n pids) (fun e he => ?_) ?_
  · obtain rfl : e = begun n := he
    exact begun_phase hn
  intro e act t _ hp horderly hnext
  rcases next_cases hnext with ⟨j, rand, rfl, hj, h⟩ | ⟨rand, rfl, h⟩ | ⟨interrupts, rfl, h⟩
  · exact hp.student_step hpids hj horderly h
  · exact hp.teacher_step hpids horderly h
  · exact hp.alarm_step h

theorem heres_prefix {a : Nat} (ha : a ≤ n) : heres pids a <+: heres pids n := by
  unfold heres
  apply List.IsPrefix.map
  rw [← Nat.add_sub_cancel' ha, List.range_add]
  exact List.prefix_append _ _

theorem Logs.in_phase {a : Nat} {q : Teacher} (hl : Logs n pids e a) (ha : a ≤ n)
    (hteacher : e.teacher = q) (hclosing : q.closing = false) (hcalling : q.calling = false → a = n) :
    InPhase n pids e := by
  refine ⟨hl.attended ▸ heres_prefix ha, fun hc => ?_, hl.graded, hl.reported, fun i hi => ?_,
    fun hc => ?_, hl.checks⟩
  · rw [hteacher] at hc
    rw [hl.attended, hcalling hc]
  · rw [hteacher] at hi
    rcases hi with rfl | rfl
    · cases hclosing
    · cases hclosing
  · rw [hteacher, hclosing] at hc
    cases hc

theorem Phase.in_phase (hp : Phase n pids e) : InPhase n pids e := by
  cases hp with
  | call i hi hteacher hlogs hgraded hreported hdone hpipe hearly hlate =>
    exact hlogs.in_phase (Nat.le_of_lt hi) hteacher rfl nofun
  | here i hi hteacher hlogs hgraded hreported hdone hcalled hearly hlate =>
    exact hlogs.in_phase (Nat.le_of_lt hi) hteacher rfl nofun
  | last attempts hn hteacher hlogs hgraded hreported hpipe hg =>
    exact hlogs.in_phase (Nat.sub_le n 1) hteacher rfl nofun
  | grading hteacher hlogs hreported hg =>
    rcases hteacher with hteacher | hteacher
    · exact hlogs.in_phase (Nat.le_refl n) hteacher rfl fun _ => rfl
    · exact hlogs.in_phase (Nat.le_refl n) hteacher rfl fun _ => rfl
  | passing j k i hj hi hteacher hlogs hreported hq hpipe hg =>
    exact hlogs.in_phase (Nat.le_refl n) hteacher rfl fun _ => rfl
  | closing hlogs hc =>
    refine ⟨hlogs.attended ▸ List.prefix_refl _, fun _ => hlogs.attended, hlogs.graded,
      hlogs.reported, fun i hi => ?_, fun _ m hm => ?_, hlogs.checks⟩
    · have hplace := hc.place
      generalize e.teacher = q at hi hplace
      rcases hi with rfl | rfl
      · cases hplace; rfl
      · cases hplace; rfl
    · obtain ⟨l, hl, hreport⟩ := hc.reports m hm
      exact ⟨l, hl, 4, hreport⟩

/-- **Each message in its phase**, for every number of students that `main` accepts: the first
loop reads one `HERE` of each student, the second one attempts only, the last one a report
after each `done`, and no check of `sscanf` fails, in every run in which no attempt is written
before all have written `HERE`, no report before all have passed, and the loop over the
attempts ends only then. -/
theorem phases_kept (hn : 4 ≤ n ∧ n ≤ 20) (hpids : Distinct n pids)
    (h : (exams n pids).ReachIf (Orderly n) e) : InPhase n pids e :=
  (phase_reach (by omega) hpids h).in_phase

/-! ## Two runs -/

/-- Process ids. -/
def somePids (j : Nat) : Nat := 1000 + j

theorem somePids_distinct : Distinct n somePids := by
  intro j _ l _ h
  unfold somePids at h
  omega

/-- Student `j` enters, is called, and says `HERE`. -/
def attends (j : Nat) : List Act :=
  [.student j 0, .teacher 0, .student j 0, .student j 0, .teacher 0]

/-- Student `j` writes an attempt that is good enough, and is told so. -/
def passesStage (j : Nat) : List Act :=
  [.student j 19, .teacher 0, .teacher 0, .teacher 0, .student j 0]

/-- The teacher writes `done` to student `j`, who writes its report. -/
def writesReport (j : Nat) : List Act := [.teacher 0, .student j 0, .teacher 0]

def wholeExam : List Act :=
  (List.range 4).flatMap attends ++
    (List.range 4).flatMap (fun j => (List.replicate 4 (passesStage j)).flatten) ++
    (List.range 4).flatMap writesReport ++ (List.range 4).map (.student · 0) ++ [.teacher 0]

/-- A whole exam is orderly. -/
theorem phases_kept_whole : ∃ e, (exams 4 somePids).execIf (Orderly 4) (begun 4) wholeExam = some e ∧
    e.teacher = .exited ∧ InPhase 4 somePids e := by
  have hrun : ((exams 4 somePids).execIf (Orderly 4) (begun 4) wholeExam).map (·.teacher) =
      some .exited := by decide +kernel
  obtain ⟨e, he, hteacher⟩ := Option.map_eq_some_iff.mp hrun
  exact ⟨e, he, hteacher, phases_kept (by decide) somePids_distinct (.execIf (.init rfl) he)⟩

/-- **An early attempt** of the first student is read in the place of the second one's `HERE`. -/
theorem early_attempt : ∃ e, (exams 4 somePids).Reach e ∧
    e.attended = [.here 1000, .attempt 4 1000 1] ∧ ¬ InPhase 4 somePids e := by
  have hrun : ((exams 4 somePids).exec (begun 4)
      (attends 0 ++ [.student 0 0, .teacher 0, .teacher 0])).map (·.attended) =
      some [.here 1000, .attempt 4 1000 1] := by decide +kernel
  obtain ⟨e, he, hattended⟩ := Option.map_eq_some_iff.mp hrun
  refine ⟨e, LTS.Reach.exec (.init rfl) he, hattended, fun h => ?_⟩
  have hprefix := h.attended
  rw [hattended] at hprefix
  revert hprefix
  decide +kernel

end Ops.Exam
