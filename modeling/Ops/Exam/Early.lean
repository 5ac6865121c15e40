import Ops.Exam.Waiting

/-!
# The end of the attempts

The loop over the attempts ends at `done_students = 4`, whatever the number of students is
(`not_early_iff`). `Record` keeps whose last stage was accepted. In every run, orderly or
not, a student has at most one attempt under way, and it is counted once (`Fair`).
-/

namespace Ops.Exam

variable {n i j rand : Nat} {pids : Nat → Nat} {e t : State}

/-- An exam, and the students whose stage 4 was accepted. -/
structure Record where
  exam : State
  accepted : List Nat

def Teacher.accepts : Teacher → Act → List Nat
  | .writeOne j stage, .teacher _ => if stage = 4 then [j] else []
  | _, _ => []

def records (n : Nat) (pids : Nat → Nat) : LTS Record Act where
  Init r := r = ⟨begun n, []⟩
  next r act := ((exams n pids).next r.exam act).map fun t =>
    ⟨t, r.accepted ++ r.exam.teacher.accepts act⟩

/-- When the teacher has just left the loop over the attempts, and the time is not up, stage 4
of every student is accepted. -/
def NotEarly (n : Nat) (r : Record) : Prop :=
  r.exam.teacher = .writeDone 0 → r.exam.alarmed = false →
    r.exam.doneStudents = n ∧ ∀ j < n, j ∈ r.accepted

/-! ## Every student on its own -/

def stageOf (pid : Nat) : Msg → Option Int
  | .attempt _ pid' stage => if pid' = pid then some stage else none
  | _ => none

def Teacher.answers : Teacher → Nat → List Int
  | .writeOne j stage, l => if j = l then [stage] else []
  | _, _ => []

theorem answers_self (j : Nat) (stage : Int) : (Teacher.writeOne j stage).answers j = [stage] :=
  if_pos rfl

theorem answers_other {l : Nat} (h : l ≠ j) (stage : Int) :
    (Teacher.writeOne j stage).answers l = [] :=
  if_neg (Ne.symm h)

def State.underWay (pids : Nat → Nat) (e : State) (j : Nat) : List Int :=
  e.teacher.answers j ++ e.teacherPipe.filterMap (stageOf (pids j))

/-- A student that was called, its pipe, and what is under way. An attempt that is read in
the place of a `HERE`, or is not good enough, gets no answer. -/
inductive Fair : Student → List Note → List Int → Prop where
  | forked (pid : Nat) : Fair .forked [.isHere pid] []
  | readCall (k pid : Nat) : Fair (.readCall k) [.isHere pid] []
  | writeHere (k : Nat) : Fair (.writeHere k) [] []
  | attempt (k i : Nat) (hi : i < 4) : Fair (.writeAttempt k i) [] []
  | sent (k i : Nat) (hi : i < 4) : Fair (.readAnswer k i) [] [((i + 1 : Nat) : Int)]
  | lost (k i : Nat) (hi : i < 4) : Fair (.readAnswer k i) [] []
  | told (k i : Nat) (hi : i < 4) : Fair (.readAnswer k i) [.one] []
  | report : Fair (.writeReport 4) [] []
  | leaving : Fair .leaving [] []
  | exited : Fair .exited [] []

/-- The teacher has not left the loop over the attempts, and has called `c` students. -/
inductive Looping (n : Nat) : Teacher → Nat → Prop where
  | writeCall (i : Nat) (hi : i < n) : Looping n (.writeCall i) i
  | readHere (i : Nat) (hi : i < n) : Looping n (.readHere i) (i + 1)
  | test : Looping n .test n
  | readAttempt : Looping n .readAttempt n
  | writeOne (j : Nat) (stage : Int) : Looping n (.writeOne j stage) n

structure Counting (n : Nat) (pids : Nat → Nat) (r : Record) (c : Nat) : Prop where
  bound : c ≤ n
  early : ∀ j < c, Fair (r.exam.student j) (r.exam.pipe j) (r.exam.underWay pids j)
  late : ∀ j, c ≤ j → j < n →
    Uncalled (r.exam.student j) (r.exam.pipe j) ∧ r.exam.underWay pids j = []
  sender : ∀ m ∈ r.exam.teacherPipe, ∃ j < n, m.pid = pids j
  accepted : ∀ j, j ∈ r.accepted ↔ j < n ∧ (r.exam.student j).counted (r.exam.pipe j) = true
  nodup : r.accepted.Nodup
  done : r.exam.doneStudents = r.accepted.length

/-! ## A step of a student -/

theorem stageOf_other {pid : Nat} {m : Msg} (h : m.pid ≠ pid) : stageOf pid m = none := by
  cases m with
  | here pid' => rfl
  | attempt result pid' stage => exact if_neg h
  | report pid' stage => rfl

theorem Deed.said_pid {s : Student} {notes : List Note} {said : List Msg}
    (hd : Deed n pids e j s notes said) : ∀ m ∈ said, m.pid = pids j := by
  intro m hm
  cases hd with
  | here k hq hopen => cases List.mem_singleton.mp hm; rfl
  | attempt k i result hq hopen => cases List.mem_singleton.mp hm; rfl
  | report stage hq hopen => cases List.mem_singleton.mp hm; rfl
  | enter k hq => cases hm
  | hear k note notes hq hpipe => cases hm
  | answer k i note notes hq hpipe => cases hm
  | leave hq => cases hm
  | broken hq hclosed => cases hm

theorem underWay_moved (s : Student) (notes : List Note) (said : List Msg) (l : Nat) :
    (e.moved j s notes said).underWay pids l =
      e.underWay pids l ++ said.filterMap (stageOf (pids l)) := by
  unfold State.underWay State.moved
  rw [List.filterMap_append, List.append_assoc]

theorem underWay_other {s : Student} {notes : List Note} {said : List Msg}
    (hpids : Distinct n pids) (hj : j < n) (hd : Deed n pids e j s notes said) {l : Nat}
    (hl : l < n) (hlj : l ≠ j) :
    (e.moved j s notes said).underWay pids l = e.underWay pids l := by
  have hnone : said.filterMap (stageOf (pids l)) = [] := by
    refine List.filterMap_eq_nil_iff.mpr fun m hm => stageOf_other ?_
    rw [hd.said_pid m hm]
    exact fun h => hlj (hpids l hl j hj h.symm)
  rw [underWay_moved, hnone, List.append_nil]

theorem Uncalled.not_counted {s : Student} {notes : List Note} (h : Uncalled s notes) :
    s.counted notes = false := by
  cases h <;> rfl

/-- What a student does keeps it fair, and does not change whether it is counted. -/
theorem Fair.step {s : Student} {notes : List Note} {said : List Msg}
    (hf : Fair (e.student j) (e.pipe j) (e.underWay pids j)) (hopen : e.teacherReadable n)
    (hd : Deed n pids e j s notes said) :
    Fair s notes (e.underWay pids j ++ said.filterMap (stageOf (pids j))) ∧
      s.counted notes = (e.student j).counted (e.pipe j) := by
  generalize e.underWay pids j = way at hf
  generalize hpipe' : e.pipe j = pipe at hf hd
  cases hd with
  | enter k hq =>
    rw [hq] at hf ⊢
    cases hf with
    | forked pid => exact ⟨hpipe' ▸ .readCall k pid, rfl⟩
  | hear k note notes hq hpipe =>
    rw [hq] at hf ⊢
    cases hf with
    | readCall k pid =>
      rw [hpipe'] at hpipe
      cases hpipe
      exact ⟨.writeHere k, rfl⟩
  | here k hq hopen =>
    rw [hq] at hf ⊢
    cases hf with
    | writeHere k => exact ⟨hpipe' ▸ .attempt k 0 (by omega), rfl⟩
  | attempt k i result hq hopen =>
    rw [hq] at hf ⊢
    cases hf with
    | attempt k i hi =>
      have hstage : [Msg.attempt result (pids j) (i + 1)].filterMap (stageOf (pids j)) =
          [((i + 1 : Nat) : Int)] := List.filterMap_cons_some (if_pos rfl)
      rw [hstage, hpipe']
      exact ⟨.sent k i hi, counted_waits⟩
  | answer k i note notes hq hpipe =>
    rw [hq] at hf ⊢
    rw [hpipe'] at hpipe
    cases hf with
    | sent k i hi => cases hpipe
    | lost k i hi => cases hpipe
    | told k i hi =>
      cases hpipe
      rw [takeAnswer_one]
      unfold stageLoop
      split
      · rename_i hmore
        refine ⟨.attempt k (i + 1) hmore, ?_⟩
        have hne : (i == 3) = false := beq_eq_false_iff_ne.mpr (by omega)
        show false = (i == 3 && true)
        rw [hne]
        rfl
      · obtain rfl : i = 3 := by omega
        exact ⟨.report, rfl⟩
  | report stage hq hopen =>
    rw [hq] at hf ⊢
    cases hf with
    | report => exact ⟨hpipe' ▸ .leaving, rfl⟩
  | leave hq =>
    rw [hq] at hf ⊢
    cases hf with
    | leaving => exact ⟨hpipe' ▸ .exited, rfl⟩
  | broken hq hclosed => exact absurd hopen hclosed

variable {c : Nat} {acc : List Nat}

theorem Counting.student_step (hpids : Distinct n pids) (hc : Counting n pids ⟨e, acc⟩ c)
    (hopen : e.teacherReadable n) (hj : j < n) {s : Student} {notes : List Note} {said : List Msg}
    (hd : Deed n pids e j s notes said) : Counting n pids ⟨e.moved j s notes said, acc⟩ c := by
  have hself := moved_self (e := e) (j := j) s notes said
  have hcounted : s.counted notes = (e.student j).counted (e.pipe j) := by
    rcases Nat.lt_or_ge j c with hlt | hge
    · exact ((hc.early j hlt).step hopen hd).2
    · have hlate := (hc.late j hge hj).1
      rw [hlate.not_counted, (hlate.step hopen hd).1.not_counted]
  refine ⟨hc.bound, fun l hl => ?_, fun l hl hln => ?_, fun m hm => ?_, fun l => ?_, hc.nodup,
    hc.done⟩
  · have hln : l < n := Nat.lt_of_lt_of_le hl hc.bound
    by_cases hlj : l = j
    · subst hlj
      show Fair ((e.moved l s notes said).student l) ((e.moved l s notes said).pipe l) _
      rw [hself.1, hself.2, underWay_moved]
      exact ((hc.early l hl).step hopen hd).1
    · have hother := moved_other (e := e) hlj s notes said
      show Fair ((e.moved j s notes said).student l) ((e.moved j s notes said).pipe l) _
      rw [hother.1, hother.2, underWay_other hpids hj hd hln hlj]
      exact hc.early l hl
  · by_cases hlj : l = j
    · subst hlj
      show Uncalled ((e.moved l s notes said).student l) ((e.moved l s notes said).pipe l) ∧ _
      obtain ⟨huncalled, hnone⟩ := hc.late l hl hln
      obtain ⟨hs, rfl⟩ := huncalled.step hopen hd
      rw [hself.1, hself.2, underWay_moved]
      exact ⟨hs, (List.append_nil _).trans hnone⟩
    · have hother := moved_other (e := e) hlj s notes said
      show Uncalled ((e.moved j s notes said).student l) ((e.moved j s notes said).pipe l) ∧ _
      rw [hother.1, hother.2, underWay_other hpids hj hd hln hlj]
      exact hc.late l hl hln
  · rcases List.mem_append.mp hm with hm | hm
    · exact hc.sender m hm
    · exact ⟨j, hj, hd.said_pid m hm⟩
  · rw [hc.accepted l, counted_moved said hcounted l]

/-! ## A step of the teacher -/

theorem Counting.congr (hc : Counting n pids ⟨e, acc⟩ c) (hstudent : t.student = e.student)
    (hpipe : t.pipe = e.pipe) (hsender : ∀ m ∈ t.teacherPipe, m ∈ e.teacherPipe)
    (hway : ∀ l < n, t.underWay pids l = e.underWay pids l)
    (hdone : t.doneStudents = e.doneStudents) : Counting n pids ⟨t, acc⟩ c := by
  refine ⟨hc.bound, fun l hl => ?_, fun l hl hln => ?_, fun m hm => hc.sender m (hsender m hm),
    fun l => ?_, hc.nodup, hdone.trans hc.done⟩
  · show Fair (t.student l) (t.pipe l) (t.underWay pids l)
    rw [hstudent, hpipe, hway l (Nat.lt_of_lt_of_le hl hc.bound)]
    exact hc.early l hl
  · show Uncalled (t.student l) (t.pipe l) ∧ t.underWay pids l = []
    rw [hstudent, hpipe, hway l hln]
    exact hc.late l hl hln
  · show l ∈ acc ↔ l < n ∧ (t.student l).counted (t.pipe l) = true
    rw [hstudent, hpipe]
    exact hc.accepted l

/-- A message is read, and what it said is not under way any more. -/
theorem Counting.drop {m : Msg} {rest : List Msg} (hc : Counting n pids ⟨e, acc⟩ c)
    (hteacher : ∀ l, e.teacher.answers l = []) (hread : e.teacherPipe = m :: rest)
    (hstudent : t.student = e.student) (hpipe : t.pipe = e.pipe) (hrest : t.teacherPipe = rest)
    (hteacher' : ∀ l, t.teacher.answers l = []) (hdone : t.doneStudents = e.doneStudents) :
    Counting n pids ⟨t, acc⟩ c := by
  have hway : ∀ l, e.underWay pids l = (stageOf (pids l) m).toList ++ t.underWay pids l := by
    intro l
    unfold State.underWay
    rw [hteacher, hteacher', hread, hrest, List.filterMap_cons]
    cases stageOf (pids l) m <;> rfl
  refine ⟨hc.bound, fun l hl => ?_, fun l hl hln => ?_, fun m' hm => hc.sender m' ?_,
    fun l => ?_, hc.nodup, hdone.trans hc.done⟩
  · have hfair := hc.early l hl
    show Fair (t.student l) (t.pipe l) (t.underWay pids l)
    rw [hstudent, hpipe]
    dsimp only at hfair
    rw [hway] at hfair
    cases hstage : stageOf (pids l) m with
    | none => rw [hstage] at hfair; exact hfair
    | some stage =>
      rw [hstage] at hfair
      generalize e.student l = s at hfair
      generalize e.pipe l = notes at hfair
      generalize t.underWay pids l = way at hfair
      cases hfair with
      | sent k i hi => exact .lost k i hi
  · obtain ⟨huncalled, hnone⟩ := hc.late l hl hln
    show Uncalled (t.student l) (t.pipe l) ∧ t.underWay pids l = []
    rw [hstudent, hpipe]
    dsimp only at hnone
    rw [hway] at hnone
    exact ⟨huncalled, (List.append_eq_nil_iff.mp hnone).2⟩
  · show m' ∈ e.teacherPipe
    rw [hread]
    exact List.mem_cons_of_mem _ (hrest ▸ hm)
  · show l ∈ acc ↔ l < n ∧ (t.student l).counted (t.pipe l) = true
    rw [hstudent, hpipe]
    exact hc.accepted l

theorem Counting.call (hc : Counting n pids ⟨e, acc⟩ i) (hi : i < n)
    (hteacher : e.teacher = .writeCall i) :
    Counting n pids ⟨e.note n i (.isHere (pids i)) (.readHere i), acc⟩ (i + 1) := by
  obtain ⟨huncalled, hnone⟩ := hc.late i (Nat.le_refl i) hi
  have hopen : e.readable n i := .inl huncalled.alive
  rw [note_readable hopen]
  have hway : ∀ l, ({ e.setPipe i (e.pipe i ++ [.isHere (pids i)]) with
      teacher := .readHere i } : State).underWay pids l = e.underWay pids l := by
    intro l
    unfold State.underWay
    rw [hteacher]
    rfl
  have hother : ∀ l, l ≠ i → Function.update e.pipe i (e.pipe i ++ [.isHere (pids i)]) l =
      e.pipe l := fun l hl => Function.update_of_ne hl ..
  have hself : Function.update e.pipe i (e.pipe i ++ [.isHere (pids i)]) i =
      e.pipe i ++ [.isHere (pids i)] := Function.update_self ..
  refine ⟨hi, fun l hl => ?_, fun l hl hln => ?_, hc.sender, fun l => ?_, hc.nodup, hc.done⟩
  · show Fair (e.student l) (Function.update e.pipe i (e.pipe i ++ [.isHere (pids i)]) l) _
    rw [hway]
    by_cases hli : l = i
    · subst hli
      dsimp only at huncalled hnone
      rw [hself, hnone]
      generalize e.student l = s at huncalled
      generalize e.pipe l = notes at huncalled
      cases huncalled with
      | forked => exact .forked _
      | readCall k => exact .readCall k _
    · rw [hother l hli]
      exact hc.early l (by omega)
  · show Uncalled (e.student l) (Function.update e.pipe i (e.pipe i ++ [.isHere (pids i)]) l) ∧ _
    rw [hway, hother l (by omega)]
    exact hc.late l (by omega) hln
  · show l ∈ acc ↔ l < n ∧ (e.student l).counted
      (Function.update e.pipe i (e.pipe i ++ [.isHere (pids i)]) l) = true
    rw [hc.accepted l]
    by_cases hli : l = i
    · subst hli
      dsimp only at huncalled
      rw [hself]
      generalize e.student l = s at huncalled
      generalize e.pipe l = notes at huncalled
      cases huncalled <;> rfl
    · rw [hother l hli]

theorem Counting.answered {stage : Int} (hc : Counting n pids ⟨e, acc⟩ n) (hj : j < n)
    (hteacher : e.teacher = .writeOne j stage) : ∃ k i, i < 4 ∧ stage = ((i + 1 : Nat) : Int) ∧
      e.student j = .readAnswer k i ∧ e.pipe j = [] ∧
      e.teacherPipe.filterMap (stageOf (pids j)) = [] := by
  have hfair := hc.early j hj
  have hway : e.underWay pids j = stage :: e.teacherPipe.filterMap (stageOf (pids j)) := by
    unfold State.underWay
    rw [hteacher, answers_self]
    rfl
  dsimp only at hfair
  rw [hway] at hfair
  generalize e.student j = s at hfair ⊢
  generalize e.pipe j = notes at hfair ⊢
  generalize e.teacherPipe.filterMap (stageOf (pids j)) = way at hfair ⊢
  cases hfair with
  | sent k i hi => exact ⟨k, i, hi, rfl, rfl, rfl, rfl⟩

theorem Counting.told {stage : Int} {next : Teacher} (hc : Counting n pids ⟨e, acc⟩ n)
    (hj : j < n) (hteacher : e.teacher = .writeOne j stage) (hnext : ∀ l, next.answers l = []) :
    Counting n pids ⟨{ e.note n j .one next with
      doneStudents := if stage = 4 then e.doneStudents + 1 else e.doneStudents },
      acc ++ if stage = 4 then [j] else []⟩ n := by
  obtain ⟨k, i, hi, rfl, hq, hpipe, hway⟩ := hc.answered hj hteacher
  have hopen : e.readable n j := .inl (by rw [hq]; rfl)
  have hfour : ((i + 1 : Nat) : Int) = 4 ↔ i = 3 := by omega
  have hnot : j ∉ acc := fun hmem => by
    have hcounted := ((hc.accepted j).mp hmem).2
    rw [hq, hpipe, counted_waits] at hcounted
    cases hcounted
  have hother : ∀ l, l ≠ j → Function.update e.pipe j (e.pipe j ++ [.one]) l = e.pipe l :=
    fun l hl => Function.update_of_ne hl ..
  have hself : Function.update e.pipe j (e.pipe j ++ [.one]) j = [.one] := by
    rw [Function.update_self, hpipe]
    rfl
  rw [note_readable hopen]
  refine ⟨hc.bound, fun l hl => ?_, fun l hl hln => absurd hln (by omega), hc.sender, fun l => ?_,
    ?_, ?_⟩
  · show Fair (e.student l) (Function.update e.pipe j (e.pipe j ++ [.one]) l)
      (next.answers l ++ e.teacherPipe.filterMap (stageOf (pids l)))
    rw [hnext, List.nil_append]
    by_cases hlj : l = j
    · subst hlj
      rw [hself, hway, hq]
      exact .told k i hi
    · have hfair := hc.early l hl
      have hsame : e.underWay pids l = e.teacherPipe.filterMap (stageOf (pids l)) := by
        unfold State.underWay
        rw [hteacher, answers_other hlj]
        rfl
      dsimp only at hfair
      rw [hother l hlj, ← hsame]
      exact hfair
  · show l ∈ acc ++ (if ((i + 1 : Nat) : Int) = 4 then [j] else []) ↔ l < n ∧ (e.student l).counted
      (Function.update e.pipe j (e.pipe j ++ [.one]) l) = true
    rw [List.mem_append, hc.accepted l]
    by_cases hlj : l = j
    · subst hlj
      dsimp only
      rw [hself, hq, hpipe, counted_waits]
      by_cases h3 : i = 3
      · rw [if_pos (hfour.mpr h3), h3]
        exact ⟨fun _ => ⟨hj, rfl⟩, fun _ => .inr (List.mem_singleton_self l)⟩
      · have hfalse : (Student.readAnswer k i).counted [.one] = false :=
          (Bool.and_true _).trans (beq_eq_false_iff_ne.mpr h3)
        rw [if_neg (fun h => h3 (hfour.mp h)), hfalse]
        simp
    · rw [hother l hlj]
      by_cases h3 : i = 3
      · rw [if_pos (hfour.mpr h3), List.mem_singleton]
        exact or_iff_left hlj
      · rw [if_neg (fun h => h3 (hfour.mp h))]
        exact or_iff_left List.not_mem_nil
  · dsimp only
    split
    · exact hc.nodup.append (List.nodup_singleton j) (List.disjoint_singleton.mpr hnot)
    · rw [List.append_nil]
      exact hc.nodup
  · dsimp only
    rw [List.length_append, hc.done]
    split <;> rfl

/-- When as many were accepted as there are students, all were. -/
theorem Counting.all (hc : Counting n pids ⟨e, acc⟩ c) (hdone : e.doneStudents = n) :
    ∀ j < n, j ∈ acc := by
  have hsub : acc ⊆ List.range n := fun j hj => List.mem_range.mpr ((hc.accepted j).mp hj).1
  have hlen : (List.range n).length ≤ acc.length := by
    rw [List.length_range, ← hc.done]
    exact Nat.le_of_eq hdone.symm
  have hperm := (hc.nodup.subperm hsub).perm_of_length_le hlen
  exact fun j hj => hperm.mem_iff.mpr (List.mem_range.mpr hj)

/-! ## Every run -/

/-- The teacher counts, or has left the loop over the attempts when all were accepted. -/
def Kept (n : Nat) (pids : Nat → Nat) (r : Record) : Prop :=
  (∃ c, Looping n r.exam.teacher c ∧ Counting n pids r c) ∨
    r.exam.teacher.closing = true ∧ NotEarly n r

theorem Looping.open {q : Teacher} (h : Looping n q c) (hteacher : e.teacher = q) :
    e.teacherReadable n := by
  cases h with
  | writeCall i hi => exact readable_of hteacher nofun nofun
  | readHere i hi => exact readable_of hteacher nofun nofun
  | test => exact readable_of hteacher nofun nofun
  | readAttempt => exact readable_of hteacher nofun nofun
  | writeOne j stage => exact readable_of hteacher nofun nofun

theorem callLoop_looping (hi : i < n) : Looping n (callLoop n (i + 1)) (i + 1) := by
  unfold callLoop
  split
  · rename_i hlt; exact .writeCall (i + 1) hlt
  · obtain rfl : n = i + 1 := by omega
    exact .test

theorem callLoop_answers (i l : Nat) : (callLoop n i).answers l = [] := by
  unfold callLoop
  split <;> rfl

theorem doneLoop_closing (i : Nat) : (doneLoop n i).closing = true := by
  unfold doneLoop
  split <;> rfl

theorem gradeLoop_answers (done l : Nat) : (gradeLoop n done).answers l = [] := by
  unfold gradeLoop doneLoop
  split
  · split <;> rfl
  · rfl

theorem Counting.loops (hc : Counting n pids ⟨t, acc⟩ n)
    (hteacher : t.teacher = gradeLoop n t.doneStudents) : Kept n pids ⟨t, acc⟩ := by
  by_cases hdone : t.doneStudents = n
  · refine .inr ⟨?_, fun _ _ => ⟨hdone, hc.all hdone⟩⟩
    show t.teacher.closing = true
    rw [hteacher, gradeLoop, if_pos hdone]
    exact doneLoop_closing 0
  · refine .inl ⟨n, ?_, hc⟩
    show Looping n t.teacher n
    rw [hteacher, gradeLoop, if_neg hdone]
    exact .test

theorem scan_attempt_here (pid : Nat) : scan attemptFormat (Msg.here pid).text = [] := rfl

theorem scan_attempt_report (pid stage : Nat) :
    scan attemptFormat (Msg.report pid stage).text = [(pid : Int), stage] := by
  unfold attemptFormat Msg.text
  rw [scan_int pid _ (by intro c hc; cases hc; rfl), scan_lit]
  have hlast := scan_blank stage [.int, .lit ',', .blank, .int] []
  rw [List.append_nil] at hlast
  rw [hlast, scan_int_last]
  rfl

theorem Counting.passed (hpids : Distinct n pids) (hc : Counting n pids ⟨e, acc⟩ n) (hj : j < n)
    {result stage : Nat} {rest graded : List Msg} (hteacher : ∀ l, e.teacher.answers l = [])
    (hread : e.teacherPipe = .attempt result (pids j) stage :: rest) :
    Counting n pids ⟨{ e with
      teacherPipe := rest, graded := graded, teacher := .writeOne j stage }, acc⟩ n := by
  refine hc.congr rfl rfl (fun m hm => ?_) (fun l hl => ?_) rfl
  · rw [hread]
    exact List.mem_cons_of_mem _ hm
  · unfold State.underWay
    rw [hteacher, hread]
    by_cases hlj : l = j
    · subst hlj
      have hstage : stageOf (pids l) (.attempt result (pids l) stage) = some (stage : Int) :=
        if_pos rfl
      rw [answers_self, List.filterMap_cons_some hstage]
      rfl
    · have hpid : pids j ≠ pids l := fun h => hlj (hpids l hl j hj h.symm)
      rw [answers_other hlj, List.filterMap_cons_none (stageOf_other (m := .attempt ..) hpid)]

theorem Counting.stage_of (hc : Counting n pids ⟨e, acc⟩ n) (hj : j < n)
    (hteacher : ∀ l, e.teacher.answers l = []) {result stage : Nat} {rest : List Msg}
    (hread : e.teacherPipe = .attempt result (pids j) stage :: rest) :
    ∃ i < 4, stage = i + 1 := by
  have hfair := hc.early j hj
  have hway : e.underWay pids j = (stage : Int) :: rest.filterMap (stageOf (pids j)) := by
    have hstage : stageOf (pids j) (.attempt result (pids j) stage) = some (stage : Int) :=
      if_pos rfl
    unfold State.underWay
    rw [hteacher, hread, List.filterMap_cons_some hstage]
    rfl
  dsimp only at hfair
  rw [hway] at hfair
  generalize hstage : (stage : Int) = s at hfair
  generalize rest.filterMap (stageOf (pids j)) = way at hfair
  generalize e.student j = q at hfair
  generalize e.pipe j = notes at hfair
  cases hfair with
  | sent k i hi => exact ⟨i, hi, Int.ofNat_inj.mp hstage⟩

theorem Counting.attempt_step (hpids : Distinct n pids) (hc : Counting n pids ⟨e, acc⟩ n)
    (hteacher : e.teacher = .readAttempt) (h : e.teacherWork n pids rand = some t) :
    Kept n pids ⟨t, acc⟩ := by
  have hnone : ∀ l, e.teacher.answers l = [] := fun l => by rw [hteacher]; rfl
  unfold State.teacherWork at h
  simp only [hteacher] at h
  split at h
  · cases h
  · rename_i m rest hread
    obtain ⟨j, hj, hpid⟩ := hc.sender m (by rw [hread]; exact List.mem_cons_self)
    have habort : Kept n pids ⟨{ e with
        teacherPipe := rest, graded := e.graded ++ [m] }.abort, acc⟩ := by
      refine .inl ⟨n, ?_, hc.drop hnone hread rfl rfl rfl hnone rfl⟩
      show Looping n e.teacher n
      rw [hteacher]
      exact .readAttempt
    cases m with
    | here pid =>
      unfold State.grade at h
      rw [scan_attempt_here] at h
      cases h
      exact hteacher ▸ habort
    | report pid stage =>
      unfold State.grade at h
      rw [scan_attempt_report] at h
      cases h
      exact hteacher ▸ habort
    | attempt result pid stage =>
      obtain rfl : pid = pids j := hpid
      obtain ⟨i, hi, rfl⟩ := hc.stage_of hj hnone hread
      obtain ⟨passed, hpassed⟩ := passes_stage result rand hi
      rw [grade_attempt hpids hj hpassed] at h
      cases h
      cases passed with
      | true => exact .inl ⟨n, .writeOne j _, hc.passed hpids hj hnone hread⟩
      | false =>
        have hdrop : Counting n pids ⟨{ e with
            teacherPipe := rest
            graded := e.graded ++ [.attempt result (pids j) (i + 1)]
            teacher := gradeLoop n e.doneStudents }, acc⟩ n :=
          hc.drop hnone hread rfl rfl rfl (gradeLoop_answers _) rfl
        exact hdrop.loops rfl

/-- The test leaves the loop at four accepted students, if the time is not up. -/
theorem Counting.test_step (hfour : n = 4) (hc : Counting n pids ⟨e, acc⟩ n)
    (hteacher : e.teacher = .test) : Kept n pids ⟨{ e with
      teacher := if e.alarmed = false ∧ e.doneStudents ≠ 4 then .readAttempt else doneLoop n 0 },
      acc⟩ := by
  by_cases hmore : e.alarmed = false ∧ e.doneStudents ≠ 4
  · rw [if_pos hmore]
    refine .inl ⟨n, .readAttempt, hc.congr rfl rfl (fun _ hm => hm) (fun l _ => ?_) rfl⟩
    unfold State.underWay
    rw [hteacher]
    rfl
  · rw [if_neg hmore]
    refine .inr ⟨doneLoop_closing 0, fun _ halarmed => ?_⟩
    have hdone : e.doneStudents = n := by
      rw [hfour]
      exact Decidable.of_not_not fun hne => hmore ⟨halarmed, hne⟩
    exact ⟨hdone, hc.all hdone⟩

theorem Looping.teacher_step (hpids : Distinct n pids) (hfour : n = 4)
    (hl : Looping n e.teacher c) (hc : Counting n pids ⟨e, acc⟩ c)
    (h : e.teacherWork n pids rand = some t) :
    Kept n pids ⟨t, acc ++ e.teacher.accepts (.teacher rand)⟩ := by
  have hwork := h
  generalize hteacher : e.teacher = q at hl
  unfold State.teacherWork at h
  simp only [hteacher] at h
  cases hl with
  | writeCall i hi =>
    cases h
    have hopen : e.readable n c := .inl (hc.late c (Nat.le_refl c) hi).1.alive
    have hloop : Looping n (e.note n c (.isHere (pids c)) (.readHere c)).teacher (c + 1) := by
      rw [note_readable hopen]
      exact .readHere c hi
    exact (List.append_nil acc).symm ▸ .inl ⟨c + 1, hloop, hc.call hi hteacher⟩
  | readHere i hi =>
    dsimp only at h
    split at h
    · cases h
    · rename_i m rest hread
      cases h
      have hnone : ∀ l, e.teacher.answers l = [] := fun l => by rw [hteacher]; rfl
      exact (List.append_nil acc).symm ▸ .inl ⟨i + 1, callLoop_looping hi,
        hc.drop hnone hread rfl rfl rfl (callLoop_answers _) rfl⟩
  | test =>
    cases h
    exact (List.append_nil acc).symm ▸ hc.test_step hfour hteacher
  | readAttempt =>
    exact (List.append_nil acc).symm ▸ hc.attempt_step hpids hteacher hwork
  | writeOne j stage =>
    dsimp only at h
    split at h
    · rename_i hj
      cases h
      obtain ⟨k, i, -, -, hq, -⟩ := hc.answered hj hteacher
      have hopen : e.readable n j := .inl (by rw [hq]; rfl)
      refine (hc.told hj hteacher (gradeLoop_answers _)).loops ?_
      rw [note_readable hopen]
    · cases h

/-- After the loop over the attempts the teacher does not begin to write `done` again. -/
theorem closing_step (hteacher : e.teacher.closing = true)
    (h : e.teacherWork n pids rand = some t) :
    t.teacher.closing = true ∧ t.teacher ≠ .writeDone 0 := by
  unfold State.teacherWork at h
  split at h
  · rename_i hq; rw [hq] at hteacher; cases hteacher
  · rename_i hq; rw [hq] at hteacher; cases hteacher
  · rename_i hq; rw [hq] at hteacher; cases hteacher
  · rename_i hq; rw [hq] at hteacher; cases hteacher
  · rename_i hq; rw [hq] at hteacher; cases hteacher
  · cases h
    unfold State.note
    split
    · exact ⟨rfl, nofun⟩
    · exact ⟨rfl, nofun⟩
  · rename_i i hq
    split at h
    · cases h
    · cases h
      unfold State.record
      split
      · refine ⟨doneLoop_closing _, ?_⟩
        dsimp only
        unfold doneLoop
        split
        · nofun
        · nofun
      · refine ⟨hteacher, ?_⟩
        show e.teacher ≠ .writeDone 0
        rw [hq]
        nofun
  · split at h
    · cases h
      exact ⟨rfl, nofun⟩
    · cases h
  · cases h
  · cases h

theorem Kept.alarm_step {interrupts : Bool} (hk : Kept n pids ⟨e, acc⟩)
    (h : e.alarm interrupts = some t) : Kept n pids ⟨t, acc⟩ := by
  unfold State.alarm at h
  split at h
  · cases h
    rcases hk with ⟨c, hl, hc⟩ | ⟨hclosing, -⟩
    · have hstay : (if interrupts = true ∧ e.teacher = .wait then Teacher.exited else e.teacher) =
          e.teacher := if_neg fun hand => by
        dsimp only at hl
        rw [hand.2] at hl
        cases hl
      rw [hstay]
      exact .inl ⟨c, hl, hc.congr rfl rfl (fun _ hm => hm) (fun _ _ => rfl) rfl⟩
    · refine .inr ⟨?_, fun _ halarmed => ?_⟩
      · dsimp only
        split
        · rfl
        · exact hclosing
      · cases halarmed
  · cases h

theorem accepts_student (q : Teacher) (j rand : Nat) : q.accepts (.student j rand) = [] := by
  cases q <;> rfl

theorem accepts_alarm (q : Teacher) (interrupts : Bool) : q.accepts (.alarm interrupts) = [] := by
  cases q <;> rfl

theorem kept_reach (hfour : n = 4) (hpids : Distinct n pids) {r : Record}
    (h : (records n pids).Reach r) : Kept n pids r := by
  refine h.inv (I := Kept n pids) (fun r hr => ?_) ?_
  · obtain rfl : r = ⟨begun n, []⟩ := hr
    refine .inl ⟨0, ?_, ?_⟩
    · show Looping n (callLoop n 0) 0
      rw [callLoop_more (by omega)]
      exact .writeCall 0 (by omega)
    · refine ⟨Nat.zero_le n, fun j hj => absurd hj (Nat.not_lt_zero j), fun j _ _ => ?_, nofun,
        fun j => ?_, List.nodup_nil, rfl⟩
      · refine ⟨.forked, ?_⟩
        show (callLoop n 0).answers j ++ [] = []
        rw [callLoop_answers]
        rfl
      · exact ⟨nofun, nofun⟩
  · rintro ⟨e, acc⟩ act r' - hk hnext
    obtain ⟨t, hexam, rfl⟩ := Option.map_eq_some_iff.mp hnext
    rcases next_cases hexam with ⟨j, rand, rfl, hj, h⟩ | ⟨rand, rfl, h⟩ | ⟨interrupts, rfl, h⟩
    · dsimp only
      rw [accepts_student, List.append_nil]
      obtain ⟨s, notes, said, hd, rfl⟩ := studentWork_deed h
      rcases hk with ⟨c, hl, hc⟩ | hclosing
      · exact .inl ⟨c, hl, hc.student_step hpids (hl.open rfl) hj hd⟩
      · exact .inr hclosing
    · rcases hk with ⟨c, hl, hc⟩ | ⟨hclosing, -⟩
      · exact hl.teacher_step hpids hfour hc h
      · obtain ⟨hclosing', hne⟩ := closing_step hclosing h
        exact .inr ⟨hclosing', fun hteacher => absurd hteacher hne⟩
    · dsimp only
      rw [accepts_alarm, List.append_nil]
      exact hk.alarm_step h

/-! ## Larger classes -/

/-- All students attend, and four of them pass all stages. -/
def fourPass (n : Nat) : List Act :=
  (List.range n).flatMap attends ++
    (List.range 4).flatMap (fun j => (List.replicate 4 (passesStage j)).flatten) ++ [.teacher 0]

theorem fourPass_leaves : ∀ n < 21, 4 < n →
    ((records n somePids).exec ⟨begun n, []⟩ (fourPass n)).map (fun r =>
      (r.exam.teacher, r.exam.alarmed, r.exam.doneStudents)) = some (.writeDone 0, false, 4) := by
  decide +kernel

theorem leaves_early (hn : 4 < n ∧ n ≤ 20) :
    ∃ r, (records n somePids).Reach r ∧ ¬ NotEarly n r := by
  obtain ⟨r, hr, heq⟩ := Option.map_eq_some_iff.mp (fourPass_leaves n (by omega) hn.1)
  simp only [Prod.mk.injEq] at heq
  obtain ⟨hteacher, halarmed, hdone⟩ := heq
  refine ⟨r, LTS.Reach.exec (.init rfl) hr, fun h => ?_⟩
  have hall := (h hteacher halarmed).1
  omega

/-- **The grading ends early**, for every number of students that `main` accepts but the least:
the loop over the attempts, left while the time is not up, has accepted stage 4 of all students
in every run if and only if there are four of them. -/
theorem not_early_iff (hn : 4 ≤ n ∧ n ≤ 20) :
    (∀ pids, Distinct n pids → ∀ r, (records n pids).Reach r → NotEarly n r) ↔ n = 4 := by
  constructor
  · intro hall
    by_contra hne
    obtain ⟨r, hr, hearly⟩ := leaves_early (n := n) (by omega)
    exact hearly (hall somePids somePids_distinct r hr)
  · intro hfour pids hpids r hr hteacher
    rcases kept_reach hfour hpids hr with ⟨c, hl, -⟩ | ⟨-, hkept⟩
    · rw [hteacher] at hl
      cases hl
    · exact hkept hteacher

/-- Four students, and what a run of them keeps. -/
theorem not_early_four : ∃ r, (records 4 somePids).exec ⟨begun 4, []⟩ (fourPass 4) = some r ∧
    NotEarly 4 r := by
  have hrun : ((records 4 somePids).exec ⟨begun 4, []⟩ (fourPass 4)).isSome = true := by
    decide +kernel
  obtain ⟨r, hr⟩ := Option.isSome_iff_exists.mp hrun
  exact ⟨r, hr, (not_early_iff (by decide)).mpr rfl somePids somePids_distinct r
    (LTS.Reach.exec (.init rfl) hr)⟩

/-- **Five students**: the fifth one has not begun when the loop is left. -/
theorem early_of_five : ¬ ∀ r, (records 5 somePids).Reach r → NotEarly 5 r := by
  obtain ⟨r, hr, hearly⟩ := leaves_early (n := 5) (by decide)
  exact fun h => hearly (h r hr)

end Ops.Exam
