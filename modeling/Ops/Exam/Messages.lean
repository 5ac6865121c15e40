import Ops.Exam.Process

/-!
# Messages and steps

What the readers make of each message, and what a step of a student does: it changes its
own place and its own pipe, and says nothing or one message to the teacher.
-/

namespace Ops.Exam

/-! ## Texts -/

theorem scan_attempt (result pid stage : Nat) :
    scan attemptFormat (Msg.attempt result pid stage).text = [(result : Int), pid, stage] := by
  unfold attemptFormat Msg.text
  rw [scan_int result _ (by intro c hc; cases hc; rfl), scan_lit, scan_blank,
    scan_int pid _ (by intro c hc; cases hc; rfl), scan_lit]
  have hlast := scan_blank stage [.int] []
  rw [List.append_nil] at hlast
  rw [hlast, scan_int_last]
  rfl

theorem scan_report (pid stage : Nat) :
    scan reportFormat (Msg.report pid stage).text = [(pid : Int), stage] := by
  unfold reportFormat Msg.text
  rw [scan_int pid _ (by intro c hc; cases hc; rfl), scan_lit]
  have hlast := scan_blank stage [.int] []
  rw [List.append_nil] at hlast
  rw [hlast, scan_int_last]
  rfl

theorem takeAnswer_one (k i : Nat) : Student.takeAnswer k i .one = stageLoop k (i + 1) := rfl

variable {n : Nat} {pids : Nat → Nat}

/-- The process ids tell the students apart. -/
def Distinct (n : Nat) (pids : Nat → Nat) : Prop :=
  ∀ j < n, ∀ l < n, pids j = pids l → j = l

theorem search_pid (hpids : Distinct n pids) {j : Nat} (hj : j < n) :
    search n pids (pids j) = j := by
  unfold search
  cases hf : (List.range n).find? fun l => decide ((pids l : Int) = pids j) with
  | none =>
    have hnone := List.find?_eq_none.mp hf j (List.mem_range.mpr hj)
    rw [decide_eq_true rfl] at hnone
    exact absurd rfl hnone
  | some l =>
    have hl := List.mem_range.mp (List.mem_of_find?_eq_some hf)
    have heq := List.find?_some hf
    exact hpids l hl j hj (Int.ofNat_inj.mp (of_decide_eq_true heq))

/-! ## What a student does -/

variable {e t : State} {j rand : Nat}

/-- Student `j` goes to `s`, with `notes` left in its pipe, and says `said`. -/
def State.moved (e : State) (j : Nat) (s : Student) (notes : List Note) (said : List Msg) : State :=
  { e with
    student := Function.update e.student j s
    pipe := Function.update e.pipe j notes
    teacherPipe := e.teacherPipe ++ said }

inductive Deed (n : Nat) (pids : Nat → Nat) (e : State) (j : Nat) :
    Student → List Note → List Msg → Prop where
  | enter (k : Nat) (hq : e.student j = .forked) : Deed n pids e j (.readCall k) (e.pipe j) []
  | hear (k : Nat) (note : Note) (notes : List Note) (hq : e.student j = .readCall k)
      (hpipe : e.pipe j = note :: notes) : Deed n pids e j (.writeHere k) notes []
  | here (k : Nat) (hq : e.student j = .writeHere k) (hopen : e.teacherReadable n) :
      Deed n pids e j (.writeAttempt k 0) (e.pipe j) [.here (pids j)]
  | attempt (k i result : Nat) (hq : e.student j = .writeAttempt k i)
      (hopen : e.teacherReadable n) :
      Deed n pids e j (.readAnswer k i) (e.pipe j) [.attempt result (pids j) (i + 1)]
  | answer (k i : Nat) (note : Note) (notes : List Note) (hq : e.student j = .readAnswer k i)
      (hpipe : e.pipe j = note :: notes) :
      Deed n pids e j (Student.takeAnswer k i note) notes []
  | report (stage : Nat) (hq : e.student j = .writeReport stage) (hopen : e.teacherReadable n) :
      Deed n pids e j .leaving (e.pipe j) [.report (pids j) stage]
  | leave (hq : e.student j = .leaving) : Deed n pids e j .exited (e.pipe j) []
  | broken (hq : (e.student j).alive = true) (hopen : ¬ e.teacherReadable n) :
      Deed n pids e j .killed (e.pipe j) []

theorem seat_moved (s : Student) : e.seat j s = e.moved j s (e.pipe j) [] := by
  unfold State.seat State.moved
  rw [Function.update_eq_self, List.append_nil]

theorem read_moved (s : Student) (notes : List Note) :
    (e.setPipe j notes).seat j s = e.moved j s notes [] := by
  unfold State.seat State.setPipe State.moved
  rw [List.append_nil]

theorem tell_open (hopen : e.teacherReadable n) (m : Msg) (s : Student) :
    e.tell n j m s = e.moved j s (e.pipe j) [m] := by
  unfold State.tell
  rw [if_pos hopen]
  unfold State.seat State.moved
  rw [Function.update_eq_self]

theorem tell_broken (hopen : ¬ e.teacherReadable n) (m : Msg) (s : Student) :
    e.tell n j m s = e.moved j .killed (e.pipe j) [] := by
  unfold State.tell
  rw [if_neg hopen, seat_moved]

theorem studentWork_deed (h : e.studentWork n pids j rand = some t) :
    ∃ s notes said, Deed n pids e j s notes said ∧ t = e.moved j s notes said := by
  have htell : ∀ (m : Msg) (s : Student), (e.student j).alive = true →
      (e.teacherReadable n → Deed n pids e j s (e.pipe j) [m]) →
      ∃ s' notes said, Deed n pids e j s' notes said ∧ e.tell n j m s = e.moved j s' notes said := by
    intro m s hq hdeed
    by_cases hopen : e.teacherReadable n
    · exact ⟨s, e.pipe j, [m], hdeed hopen, tell_open hopen m s⟩
    · exact ⟨.killed, e.pipe j, [], .broken hq hopen, tell_broken hopen m s⟩
  unfold State.studentWork at h
  split at h
  · rename_i hq
    cases h
    exact ⟨_, _, _, .enter _ hq, seat_moved _⟩
  · rename_i k hq
    split at h
    · cases h
    · rename_i note notes hpipe
      cases h
      exact ⟨_, _, _, .hear k note notes hq hpipe, read_moved _ _⟩
  · rename_i k hq
    cases h
    exact htell _ _ (by rw [hq]; rfl) (.here k hq)
  · rename_i k i hq
    cases h
    exact htell _ _ (by rw [hq]; rfl) (.attempt k i _ hq)
  · rename_i k i hq
    split at h
    · cases h
    · rename_i note notes hpipe
      cases h
      exact ⟨_, _, _, .answer k i note notes hq hpipe, read_moved _ _⟩
  · rename_i stage hq
    cases h
    exact htell _ _ (by rw [hq]; rfl) (.report stage hq)
  · rename_i hq
    cases h
    exact ⟨_, _, _, .leave hq, seat_moved _⟩
  · cases h
  · cases h

/-- A step is one of a student, of the teacher or of the alarm. -/
theorem next_cases {act : Act} (h : (exams n pids).next e act = some t) :
    (∃ j rand, act = .student j rand ∧ j < n ∧ e.studentWork n pids j rand = some t) ∨
      (∃ rand, act = .teacher rand ∧ e.teacherWork n pids rand = some t) ∨
      ∃ interrupts, act = .alarm interrupts ∧ e.alarm interrupts = some t := by
  unfold exams State.next at h
  dsimp only at h
  split at h
  · cases h
  · cases act with
    | student j rand =>
      dsimp only at h
      split at h
      · rename_i hj
        exact .inl ⟨j, rand, rfl, hj, h⟩
      · cases h
    | teacher rand => exact .inr (.inl ⟨rand, rfl, h⟩)
    | alarm interrupts => exact .inr (.inr ⟨interrupts, rfl, h⟩)

theorem moved_self (s : Student) (notes : List Note) (said : List Msg) :
    (e.moved j s notes said).student j = s ∧ (e.moved j s notes said).pipe j = notes :=
  ⟨Function.update_self .., Function.update_self ..⟩

theorem moved_other {l : Nat} (hl : l ≠ j) (s : Student) (notes : List Note) (said : List Msg) :
    (e.moved j s notes said).student l = e.student l ∧
      (e.moved j s notes said).pipe l = e.pipe l :=
  ⟨Function.update_of_ne hl .., Function.update_of_ne hl ..⟩

end Ops.Exam
