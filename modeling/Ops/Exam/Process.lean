import Mathlib.Data.Nat.Basic
import Mathlib.Logic.Function.Basic
import Ops.Lib.Scan
import Ops.Lib.Transition

/-!
# The exam (`Lab Task/ops-lab.c`)

The students and the teacher as steps, one for each message that is read or written. A pipe
is the list of its messages, oldest first; a message is what was printed into the buffer,
and its reader sees `text`. A pipe takes 64 KiB, more than all the messages that can be in
it, so only a `read` blocks. A `read` that finds nothing is no step: it waits, or it returns 0
in a loop when nobody can write any more. `SIGPIPE` ends who writes to a pipe that nobody
can read, and `ERR` ends everybody.

`attended`, `graded` and `reported` keep what the three loops of the teacher have read.
-/

namespace Ops.Exam

/-- A message to the teacher. -/
inductive Msg where
  | here (pid : Nat)
  | attempt (result pid stage : Nat)
  | report (pid stage : Nat)
  deriving DecidableEq, Repr

def Msg.text : Msg → List Char
  | .here pid => "Student [".toList ++ (decimal pid ++ "]: HERE".toList)
  | .attempt result pid stage =>
    decimal result ++ (',' :: ' ' :: (decimal pid ++ (',' :: ' ' :: decimal stage)))
  | .report pid stage => decimal pid ++ (',' :: ' ' :: decimal stage)

/-- A message to a student. -/
inductive Note where
  | isHere (pid : Nat)
  | one
  | done
  deriving DecidableEq, Repr

def Note.text : Note → List Char
  | .isHere pid => "Teacher: Is [".toList ++ (decimal pid ++ "]: HERE".toList)
  | .one => "1".toList
  | .done => "done".toList

/-- `"%d, %d, %d"` -/
def attemptFormat : List Directive := [.int, .lit ',', .blank, .int, .lit ',', .blank, .int]

/-- `"%d, %d"` -/
def reportFormat : List Directive := [.int, .lit ',', .blank, .int]

/-- The next call of a student, with `k` and `i`. A student that is `forked` has not closed
the ends that it inherited. -/
inductive Student where
  | forked
  | readCall (k : Nat)
  | writeHere (k : Nat)
  | writeAttempt (k i : Nat)
  | readAnswer (k i : Nat)
  | writeReport (stage : Nat)
  | leaving
  | exited
  | killed
  deriving DecidableEq

/-- The next call of the teacher, or its test of the loop over the attempts. -/
inductive Teacher where
  | writeCall (i : Nat)
  | readHere (i : Nat)
  | test
  | readAttempt
  | writeOne (studentnumber : Nat) (stage : Int)
  | writeDone (i : Nat)
  | readReport (i : Nat)
  | wait
  | exited
  | killed
  deriving DecidableEq

structure State where
  student : Nat → Student
  pipe : Nat → List Note
  teacherPipe : List Msg
  teacher : Teacher
  doneStudents : Nat
  alarmSet : Bool
  alarmed : Bool
  aborted : Bool
  attended : List Msg
  graded : List Msg
  reported : List Msg

/-- A step of a student or of the teacher, with the value of `rand`, or `SIGALRM`, which may
interrupt a `wait`. -/
inductive Act where
  | student (j rand : Nat)
  | teacher (rand : Nat)
  | alarm (interrupts : Bool)
  deriving DecidableEq, Repr

def State.seat (e : State) (j : Nat) (s : Student) : State :=
  { e with student := Function.update e.student j s }

def State.setPipe (e : State) (j : Nat) (notes : List Note) : State :=
  { e with pipe := Function.update e.pipe j notes }

/-- `ERR` -/
def State.abort (e : State) : State := { e with aborted := true }

def Student.alive : Student → Bool
  | .exited | .killed => false
  | _ => true

/-- Somebody has the reading end of the pipe to student `j`. -/
def State.readable (n : Nat) (e : State) (j : Nat) : Prop :=
  (e.student j).alive = true ∨ ∃ l < n, e.student l = .forked

/-- Somebody has the reading end of the pipe to the teacher. -/
def State.teacherReadable (n : Nat) (e : State) : Prop :=
  e.teacher ≠ .killed ∧ e.teacher ≠ .exited ∨ ∃ l < n, e.student l = .forked

instance (n : Nat) (e : State) (j : Nat) : Decidable (e.readable n j) :=
  inferInstanceAs (Decidable (_ ∨ ∃ l < n, _))

instance (n : Nat) (e : State) : Decidable (e.teacherReadable n) :=
  inferInstanceAs (Decidable (_ ∨ ∃ l < n, _))

/-! ## `student_work` -/

/-- A student writes a message to the teacher. -/
def State.tell (n : Nat) (e : State) (j : Nat) (m : Msg) (next : Student) : State :=
  if e.teacherReadable n then { e.seat j next with teacherPipe := e.teacherPipe ++ [m] }
  else e.seat j .killed

def stageLoop (k i : Nat) : Student := if i < 4 then .writeAttempt k i else .writeReport i

def Student.takeAnswer (k i : Nat) (note : Note) : Student :=
  if note.text.head? = some '1' then stageLoop k (i + 1)
  else if note.text ≠ "done".toList then .writeReport (i + 1)
  else stageLoop k i

def State.studentWork (n : Nat) (pids : Nat → Nat) (e : State) (j rand : Nat) : Option State :=
  match e.student j with
  | .forked => some (e.seat j (.readCall (rand % 7 + 3)))
  | .readCall k =>
    match e.pipe j with
    | [] => none
    | _ :: notes => some ((e.setPipe j notes).seat j (.writeHere k))
  | .writeHere k => some (e.tell n j (.here (pids j)) (.writeAttempt k 0))
  | .writeAttempt k i =>
    some (e.tell n j (.attempt (k + (rand % 20 + 1)) (pids j) (i + 1)) (.readAnswer k i))
  | .readAnswer k i =>
    match e.pipe j with
    | [] => none
    | note :: notes => some ((e.setPipe j notes).seat j (Student.takeAnswer k i note))
  | .writeReport stage => some (e.tell n j (.report (pids j) stage) .leaving)
  | .leaving => some (e.seat j .exited)
  | .exited | .killed => none

/-! ## `teacher_work` -/

def State.note (n : Nat) (e : State) (j : Nat) (note : Note) (next : Teacher) : State :=
  if e.readable n j then { e.setPipe j (e.pipe j ++ [note]) with teacher := next }
  else { e with teacher := .killed }

/-- `studentnumber`, which is `n` if there is no such student. -/
def search (n : Nat) (pids : Nat → Nat) (pid : Int) : Nat :=
  ((List.range n).find? fun l => (pids l : Int) = pid).getD n

/-- The switch has no default. -/
def difficulty (stage : Int) (random : Nat) : Option Nat :=
  if stage = 1 then some (random + 3)
  else if stage = 2 then some (random + 6)
  else if stage = 3 then some (random + 7)
  else if stage = 4 then some (random + 5)
  else none

/-- `result >= difficulty` -/
def passes (result stage : Int) (rand : Nat) : Option Bool :=
  (difficulty stage (rand % 20 + 1)).map fun d => decide (result ≥ d)

/-- The first and the last loop of the teacher, and the end of the body of the one between. -/
def callLoop (n i : Nat) : Teacher := if i < n then .writeCall i else .test

def doneLoop (n i : Nat) : Teacher := if i < n then .writeDone i else .wait

def gradeLoop (n done : Nat) : Teacher := if done = n then doneLoop n 0 else .test

/-- What the teacher does with a message in the loop over the attempts. -/
def State.grade (n : Nat) (pids : Nat → Nat) (e : State) (text : List Char) (rand : Nat) :
    Option State :=
  match scan attemptFormat text with
  | [result, pid, stage] =>
    (passes result stage rand).map fun passed =>
      { e with
        teacher := if passed then .writeOne (search n pids pid) stage
          else gradeLoop n e.doneStudents }
  | _ => some e.abort

/-- What the teacher does with a message in the loop over the reports. -/
def State.record (n : Nat) (e : State) (i : Nat) (text : List Char) : State :=
  match scan reportFormat text with
  | [_, _] => { e with teacher := doneLoop n (i + 1) }
  | _ => e.abort

def State.teacherWork (n : Nat) (pids : Nat → Nat) (e : State) (rand : Nat) : Option State :=
  match e.teacher with
  | .writeCall i => some (e.note n i (.isHere (pids i)) (.readHere i))
  | .readHere i =>
    match e.teacherPipe with
    | [] => none
    | m :: rest =>
      some { e with
        teacherPipe := rest
        attended := e.attended ++ [m]
        teacher := callLoop n (i + 1)
        alarmSet := decide (n ≤ i + 1) }
  | .test =>
    some { e with
      teacher := if e.alarmed = false ∧ e.doneStudents ≠ 4 then .readAttempt else doneLoop n 0 }
  | .readAttempt =>
    match e.teacherPipe with
    | [] => none
    | m :: rest =>
      { e with teacherPipe := rest, graded := e.graded ++ [m] }.grade n pids m.text rand
  | .writeOne studentnumber stage =>
    -- `writing_pipe[n]` is outside of the array
    if studentnumber < n then
      let done := if stage = 4 then e.doneStudents + 1 else e.doneStudents
      some { e.note n studentnumber .one (gradeLoop n done) with doneStudents := done }
    else none
  | .writeDone i => some (e.note n i .done (.readReport i))
  | .readReport i =>
    match e.teacherPipe with
    | [] => none
    | m :: rest =>
      some ({ e with teacherPipe := rest, reported := e.reported ++ [m] }.record n i m.text)
  | .wait => if ∀ l < n, (e.student l).alive = false then some { e with teacher := .exited } else none
  | .exited | .killed => none

/-- `sig_handler`. A `read` that is interrupted is repeated, and the loop over `wait` ends. -/
def State.alarm (e : State) (interrupts : Bool) : Option State :=
  if e.alarmSet then
    some { e with
      alarmSet := false
      alarmed := true
      teacher := if interrupts = true ∧ e.teacher = .wait then .exited else e.teacher }
  else none

def State.next (n : Nat) (pids : Nat → Nat) (e : State) (act : Act) : Option State :=
  if e.aborted then none
  else match act with
    | .student j rand => if j < n then e.studentWork n pids j rand else none
    | .teacher rand => e.teacherWork n pids rand
    | .alarm interrupts => e.alarm interrupts

/-- The students are forked, and `teacher_work` begins. -/
def begun (n : Nat) : State where
  student _ := .forked
  pipe _ := []
  teacherPipe := []
  teacher := callLoop n 0
  doneStudents := 0
  alarmSet := false
  alarmed := false
  aborted := false
  attended := []
  graded := []
  reported := []

/-- The exam of `n` students, who have the process ids `pids`. -/
def exams (n : Nat) (pids : Nat → Nat) : LTS State Act where
  Init e := e = begun n
  next := State.next n pids

end Ops.Exam
