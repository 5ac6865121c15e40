import Mathlib.Logic.Function.Basic
import Ops.Lib.Transition
import Ops.Posix.Mqueue

/-!
# Bingo (`Lab - 6/Tutorial/Bingo.c`)

The parent, its `SIGCHLD` handler, the threads of `function` and the children as steps.
`SIGCHLD` is delivered to the main flow or to any thread, which then stands still until the
handler returns; a handler is not nested in its own flow, and several flows may run it at once.
`children_left++` and `children_left--` are a load and a store each, and a call that has failed and
the test of `errno` are two steps: a handler in between that finds no child leaves `ECHILD` there.
A sleep is no step of its own. The queues are unlinked only behind the loop of `parent_work`, so a
run may begin with the messages of one that was killed; `mq_unlink` itself is left out. After
`mq_close` the calls of a thread fail with `EBADF`, and `ERR` kills the process group.

A child is `counted` when the decrement for it is stored. `sent` and `printed` keep the messages to
the parent, with their priorities.
-/

namespace Ops.Bingo

open Posix

def lifeSpan : Nat := 10

def maxNum : Nat := 10

def maxmsg : Nat := 10

inductive Child where
  | unborn
  | start
  | receive (life bingo : Nat)
  | send (m : Nat × Nat)
  | leaving
  | zombie
  | reaped
  | counted
  deriving DecidableEq, Repr

/-- The next call of the parent. A signal has interrupted `mq_send`; `mq_send` has failed, and
`errno` is still `EINTR` or not. -/
inductive Parent where
  | fork (n : Nat)
  | load (n : Nat)
  | store (n : Nat) (left : Int)
  | notify
  | check
  | send (ni : Nat)
  | interrupted (ni : Nat)
  | eintr (ni : Nat) (kept : Bool)
  | close
  | leave
  | exited
  deriving DecidableEq, Repr

/-- The next call of `function`. `mq_receive` has failed, and `errno` is still `EAGAIN` or not. -/
inductive Thread where
  | unborn
  | receive
  | print (m : Nat × Nat)
  | eagain (kept : Bool)
  | notify
  | done
  | ended
  deriving DecidableEq, Repr

/-- Where `sigchld_handler` is: at `waitpid`, or at the load or the store of the decrement for
child `i`. -/
inductive Handler where
  | waitpid
  | load (i : Nat)
  | store (i : Nat) (left : Int)
  deriving DecidableEq, Repr

abbrev Flow : Type := Option Nat

/-- The call that `ERR` was about; `number` is the `mq_send` of the parent. -/
inductive Failure where
  | send
  | number
  | receive
  | notify
  deriving DecidableEq, Repr

structure State where
  parent : Parent
  thread : Nat → Thread
  born : Nat
  handler : Flow → Option Handler
  sigchld : Bool
  childrenLeft : Int
  child : Nat → Child
  pin : Mqueue Nat
  pout : Mqueue Nat
  killed : Option Failure
  sent : List (Nat × Nat)
  printed : List (Nat × Nat)

/-- A step of the main flow, with the value of `rand`; a `fork` that fails; `SIGCHLD`; `waitpid` of
a handler, which reaps a child or not; a load or store of its decrement; a step of a child, with two
values of `rand`; a step of a thread. -/
inductive Act where
  | parent (rand : Nat)
  | forkFails
  | deliver (w : Flow)
  | reap (w : Flow) (i : Nat)
  | reaped (w : Flow)
  | decrement (w : Flow)
  | child (i rand rand' : Nat)
  | thread (k : Nat)
  deriving DecidableEq, Repr

def State.setChild (s : State) (i : Nat) (c : Child) : State :=
  { s with child := Function.update s.child i c }

def State.setThread (s : State) (k : Nat) (x : Thread) : State :=
  { s with thread := Function.update s.thread k x }

def State.setHandler (s : State) (w : Flow) (h : Option Handler) : State :=
  { s with handler := Function.update s.handler w h }

/-- `ERR` -/
def State.kill (s : State) (e : Failure) : State := { s with killed := some e }

/-! ## `create_children` and `parent_work` -/

/-- The head of the loop `while (n-- > 0)`. -/
def createLoop : Nat → Parent
  | 0 => .notify
  | n + 1 => .fork n

/-- `mq_close` takes the registration of the process away. -/
def State.mainFlow (s : State) (rand : Nat) : Option State :=
  match s.parent with
  | .fork n => some { s.setChild n .start with parent := .load n }
  | .load n => some { s with parent := .store n s.childrenLeft }
  | .store n left => some { s with childrenLeft := left + 1, parent := createLoop n }
  | .notify =>
    match s.pin.notify with
    | none => some (s.kill .notify)
    | some pin => some { s with pin := pin, parent := .check }
  | .check =>
    some { s with parent := if s.childrenLeft = 0 then .close else .send (rand % maxNum) }
  | .send ni =>
    if s.pout.msgs.length < maxmsg then
      some { s with pout := s.pout.send (ni, 0) false, parent := .check }
    else none
  | .interrupted ni => some { s with parent := .eintr ni true }
  | .eintr ni kept => some (if kept then { s with parent := .send ni } else s.kill .number)
  | .close => some { s with pin := ⟨s.pin.msgs, false⟩, parent := .leave }
  | .leave => some { s with parent := .exited }
  | .exited => none

def State.forkFails (s : State) : Option State :=
  match s.parent with
  | .fork _ => some { s with parent := .exited }
  | _ => none

/-! ## `sigchld_handler` -/

/-- `SIGCHLD` can interrupt the flow. -/
def State.runs (s : State) : Flow → Prop
  | none => True
  | some k => s.thread k ≠ .unborn ∧ s.thread k ≠ .ended

instance (s : State) (w : Flow) : Decidable (s.runs w) :=
  match w with
  | none => inferInstanceAs (Decidable True)
  | some k => inferInstanceAs (Decidable (s.thread k ≠ .unborn ∧ s.thread k ≠ .ended))

def State.interrupt (s : State) : Flow → Parent
  | none =>
    match s.parent with
    | .send ni => if s.pout.msgs.length < maxmsg then .send ni else .interrupted ni
    | parent => parent
  | some _ => s.parent

def State.deliver (s : State) (w : Flow) : Option State :=
  if s.sigchld = true ∧ s.handler w = none ∧ s.runs w then
    some { s.setHandler w (some .waitpid) with sigchld := false, parent := s.interrupt w }
  else none

/-- `waitpid` finds child `i`. -/
def State.reap (s : State) (w : Flow) (i : Nat) : Option State :=
  if s.handler w = some .waitpid ∧ s.child i = .zombie then
    some ((s.setChild i .reaped).setHandler w (some (.load i)))
  else none

/-- Forked, and not reaped. -/
def Child.unreaped : Child → Bool
  | .unborn | .reaped | .counted => false
  | _ => true

/-- `errno = ECHILD` -/
def Parent.echild : Parent → Parent
  | .eintr ni _ => .eintr ni false
  | parent => parent

def Thread.echild : Thread → Thread
  | .eagain _ => .eagain false
  | thread => thread

def State.echild (s : State) : Flow → State
  | none => { s with parent := s.parent.echild }
  | some k => s.setThread k (s.thread k).echild

/-- `waitpid` returns 0, or fails with `ECHILD`. -/
def State.allReaped (n : Nat) (s : State) (w : Flow) : Option State :=
  if s.handler w = some .waitpid ∧ ∀ i < n, s.child i ≠ .zombie then
    some ((if ∃ i < n, (s.child i).unreaped = true then s else s.echild w).setHandler w none)
  else none

/-- `children_left--` -/
def State.decrement (s : State) (w : Flow) : Option State :=
  match s.handler w with
  | some (.load i) => some (s.setHandler w (some (.store i s.childrenLeft)))
  | some (.store i left) =>
    some { (s.setChild i .counted).setHandler w (some .waitpid) with childrenLeft := left - 1 }
  | some .waitpid => none
  | none => none

/-! ## `child_work` -/

/-- The head of the loop `while (life--)`, and the message behind it. -/
def childLoop (n life bingo : Nat) : Child :=
  match life with
  | 0 => .send (n % 256, 0)
  | life + 1 => .receive life bingo

/-- `mq_send` to `pin`. A notification runs `function` in a thread of its own. -/
def State.sends (s : State) (i : Nat) (m : Nat × Nat) : State :=
  let s' := { s.setChild i .leaving with pin := s.pin.send m false, sent := s.sent ++ [m] }
  if s.pin.fires false then { s'.setThread s.born .receive with born := s.born + 1 } else s'

def State.childWork (s : State) (i rand rand' : Nat) : Option State :=
  match s.child i with
  | .start => some (s.setChild i (childLoop i (rand % lifeSpan + 1) (rand' % maxNum)))
  | .receive life bingo =>
    match s.pout.receive with
    | none => none
    | some ((ni, _), pout) =>
      some { s.setChild i (if bingo = ni then .send (bingo, 1) else childLoop i life bingo) with
        pout := pout }
  | .send m =>
    if s.pin.msgs.length < maxmsg then some (s.sends i m) else some (s.kill .send)
  | .leaving => some { s.setChild i .zombie with sigchld := true }
  | .unborn | .zombie | .reaped | .counted => none

/-! ## `function` -/

/-- `pin` is not closed. -/
def Parent.opened : Parent → Bool
  | .leave | .exited => false
  | _ => true

def State.function (s : State) (k : Nat) : Option State :=
  match s.thread k with
  | .receive =>
    if s.parent.opened then
      match s.pin.receive with
      | none => some (s.setThread k (.eagain true))
      | some (m, pin) => some { s.setThread k (.print m) with pin := pin }
    else some (s.kill .receive)
  | .eagain kept => some (if kept then s.setThread k .notify else s.kill .receive)
  | .print m => some { s.setThread k .receive with printed := s.printed ++ [m] }
  | .notify =>
    if s.parent.opened then
      match s.pin.notify with
      | none => some (s.kill .notify)
      | some pin => some { s.setThread k .done with pin := pin }
    else some (s.kill .notify)
  | .done => some (s.setThread k .ended)
  | .unborn | .ended => none

/-- The children go on when the parent has exited. -/
def State.next (n : Nat) (s : State) (act : Act) : Option State :=
  if s.killed.isSome then none
  else
    match act with
    | .child i rand rand' => s.childWork i rand rand'
    | act =>
      if s.parent = .exited then none
      else
        match act with
        | .parent rand => if (s.handler none).isSome then none else s.mainFlow rand
        | .forkFails => if (s.handler none).isSome then none else s.forkFails
        | .deliver w => s.deliver w
        | .reap w i => s.reap w i
        | .reaped w => s.allReaped n w
        | .decrement w => s.decrement w
        | .thread k => if (s.handler (some k)).isSome then none else s.function k
        | .child _ _ _ => none

/-- The messages of an earlier run, which `mq_open` finds in the queues. -/
structure Old where
  pin : List (Nat × Nat)
  pout : List (Nat × Nat)
  pin_le : pin.length ≤ maxmsg
  pout_le : pout.length ≤ maxmsg

def Old.empty : Old := ⟨[], [], Nat.zero_le _, Nat.zero_le _⟩

def begun (n : Nat) (old : Old) : State where
  parent := createLoop n
  thread _ := .unborn
  born := 0
  handler _ := none
  sigchld := false
  childrenLeft := 0
  child _ := .unborn
  pin := ⟨old.pin, false⟩
  pout := ⟨old.pout, false⟩
  killed := none
  sent := []
  printed := []

/-- The game of `n` children. -/
def bingo (n : Nat) (old : Old) : LTS State Act where
  Init s := s = begun n old
  next := State.next n

/-! ## Steps -/

/-- A step, with what it has found. -/
inductive Moves (n : Nat) (s : State) : Act → State → Prop where
  | fork {rand k : Nat} : s.parent = .fork k → s.handler none = none →
      Moves n s (.parent rand) { s.setChild k .start with parent := .load k }
  | load {rand k : Nat} : s.parent = .load k → s.handler none = none →
      Moves n s (.parent rand) { s with parent := .store k s.childrenLeft }
  | store {rand k : Nat} {left : Int} : s.parent = .store k left → s.handler none = none →
      Moves n s (.parent rand) { s with childrenLeft := left + 1, parent := createLoop k }
  | register {rand : Nat} : s.parent = .notify → s.pin.registered = false →
      Moves n s (.parent rand) { s with pin := ⟨s.pin.msgs, true⟩, parent := .check }
  | busy {rand : Nat} : s.parent = .notify → s.pin.registered = true →
      Moves n s (.parent rand) (s.kill .notify)
  | stop {rand : Nat} : s.parent = .check → s.childrenLeft = 0 →
      Moves n s (.parent rand) { s with parent := .close }
  | draw {rand : Nat} : s.parent = .check → s.childrenLeft ≠ 0 →
      Moves n s (.parent rand) { s with parent := .send (rand % maxNum) }
  | number {rand ni : Nat} : s.parent = .send ni → s.pout.msgs.length < maxmsg →
      Moves n s (.parent rand) { s with pout := s.pout.send (ni, 0) false, parent := .check }
  | retry {rand ni : Nat} : s.parent = .interrupted ni → s.handler none = none →
      Moves n s (.parent rand) { s with parent := .eintr ni true }
  | again {rand ni : Nat} : s.parent = .eintr ni true → s.handler none = none →
      Moves n s (.parent rand) { s with parent := .send ni }
  | failed {rand ni : Nat} : s.parent = .eintr ni false → s.handler none = none →
      Moves n s (.parent rand) (s.kill .number)
  | forkFails {k : Nat} : s.parent = .fork k → s.handler none = none →
      Moves n s .forkFails { s with parent := .exited }
  | close {rand : Nat} : s.parent = .close →
      Moves n s (.parent rand) { s with pin := ⟨s.pin.msgs, false⟩, parent := .leave }
  | exit {rand : Nat} : s.parent = .leave →
      Moves n s (.parent rand) { s with parent := .exited }
  | deliver {w : Flow} : s.handler w = none → s.runs w →
      Moves n s (.deliver w)
        { s.setHandler w (some .waitpid) with sigchld := false, parent := s.interrupt w }
  | reap {w : Flow} {i : Nat} : s.handler w = some .waitpid → s.child i = .zombie →
      Moves n s (.reap w i) ((s.setChild i .reaped).setHandler w (some (.load i)))
  | reaped {w : Flow} : s.handler w = some .waitpid → (∃ i < n, (s.child i).unreaped = true) →
      Moves n s (.reaped w) (s.setHandler w none)
  | echild {w : Flow} : s.handler w = some .waitpid →
      Moves n s (.reaped w) ((s.echild w).setHandler w none)
  | loads {w : Flow} {i : Nat} : s.handler w = some (.load i) →
      Moves n s (.decrement w) (s.setHandler w (some (.store i s.childrenLeft)))
  | stores {w : Flow} {i : Nat} {left : Int} : s.handler w = some (.store i left) →
      Moves n s (.decrement w)
        { (s.setChild i .counted).setHandler w (some .waitpid) with childrenLeft := left - 1 }
  | start {i rand rand' : Nat} : s.child i = .start → Moves n s (.child i rand rand')
      (s.setChild i (childLoop i (rand % lifeSpan + 1) (rand' % maxNum)))
  | receive {i rand rand' life bingo ni prio : Nat} {pout : Mqueue Nat} :
      s.child i = .receive life bingo → s.pout.receive = some ((ni, prio), pout) →
      Moves n s (.child i rand rand')
        { s.setChild i (if bingo = ni then .send (bingo, 1) else childLoop i life bingo) with
          pout := pout }
  | send {i rand rand' : Nat} {m : Nat × Nat} : s.child i = .send m →
      s.pin.msgs.length < maxmsg → Moves n s (.child i rand rand') (s.sends i m)
  | full {i rand rand' : Nat} {m : Nat × Nat} : s.child i = .send m →
      maxmsg ≤ s.pin.msgs.length → Moves n s (.child i rand rand') (s.kill .send)
  | leave {i rand rand' : Nat} : s.child i = .leaving →
      Moves n s (.child i rand rand') { s.setChild i .zombie with sigchld := true }
  | take {k : Nat} {m : Nat × Nat} {pin : Mqueue Nat} : s.thread k = .receive →
      s.parent.opened = true → s.pin.receive = some (m, pin) →
      Moves n s (.thread k) { s.setThread k (.print m) with pin := pin }
  | empty {k : Nat} : s.thread k = .receive → s.parent.opened = true → s.pin.msgs = [] →
      Moves n s (.thread k) (s.setThread k (.eagain true))
  | agreed {k : Nat} : s.thread k = .eagain true → Moves n s (.thread k) (s.setThread k .notify)
  | lost {k : Nat} : s.thread k = .eagain false → Moves n s (.thread k) (s.kill .receive)
  | print {k : Nat} {m : Nat × Nat} : s.thread k = .print m →
      Moves n s (.thread k) { s.setThread k .receive with printed := s.printed ++ [m] }
  | renew {k : Nat} : s.thread k = .notify → s.parent.opened = true → s.pin.registered = false →
      Moves n s (.thread k) { s.setThread k .done with pin := ⟨s.pin.msgs, true⟩ }
  | renewBusy {k : Nat} : s.thread k = .notify → s.pin.registered = true →
      Moves n s (.thread k) (s.kill .notify)
  | closed {k : Nat} : s.thread k = .receive → s.parent.opened = false →
      Moves n s (.thread k) (s.kill .receive)
  | closedNotify {k : Nat} : s.thread k = .notify → s.parent.opened = false →
      Moves n s (.thread k) (s.kill .notify)
  | done {k : Nat} : s.thread k = .done → Moves n s (.thread k) (s.setThread k .ended)

variable {n i k rand rand' : Nat} {w : Flow} {old : Old} {s t : State} {act : Act}

/-- What does not tell an interrupted `mq_send` from one that waits. -/
theorem interrupt_same {β : Type} {f : Parent → β} (h : ∀ ni, f (.interrupted ni) = f (.send ni))
    (s : State) (w : Flow) : f (s.interrupt w) = f s.parent := by
  unfold State.interrupt
  split
  · split
    · rename_i hparent
      rw [hparent]
      split
      · rfl
      · exact h _
    · rfl
  · rfl

theorem echild_same {β : Type} {f : Parent → β}
    (h : ∀ ni kept, f (.eintr ni false) = f (.eintr ni kept)) (s : State) (w : Flow) :
    f (s.echild w).parent = f s.parent := by
  cases w with
  | some k => rfl
  | none =>
    show f s.parent.echild = f s.parent
    cases s.parent with
    | eintr ni kept => exact h ni kept
    | _ => rfl

@[simp] theorem echild_child : (s.echild w).child = s.child := by cases w <;> rfl

@[simp] theorem echild_left : (s.echild w).childrenLeft = s.childrenLeft := by cases w <;> rfl

@[simp] theorem echild_handler : (s.echild w).handler = s.handler := by cases w <;> rfl

@[simp] theorem echild_pin : (s.echild w).pin = s.pin := by cases w <;> rfl

@[simp] theorem echild_pout : (s.echild w).pout = s.pout := by cases w <;> rfl

@[simp] theorem echild_killed : (s.echild w).killed = s.killed := by cases w <;> rfl

@[simp] theorem sends_child {m : Nat × Nat} :
    (s.sends i m).child = Function.update s.child i .leaving := by
  unfold State.sends
  dsimp only
  split <;> rfl

@[simp] theorem sends_parent {m : Nat × Nat} : (s.sends i m).parent = s.parent := by
  unfold State.sends
  dsimp only
  split <;> rfl

@[simp] theorem sends_left {m : Nat × Nat} : (s.sends i m).childrenLeft = s.childrenLeft := by
  unfold State.sends
  dsimp only
  split <;> rfl

@[simp] theorem sends_handler {m : Nat × Nat} : (s.sends i m).handler = s.handler := by
  unfold State.sends
  dsimp only
  split <;> rfl

@[simp] theorem sends_pin {m : Nat × Nat} : (s.sends i m).pin = s.pin.send m false := by
  unfold State.sends
  dsimp only
  split <;> rfl

@[simp] theorem sends_pout {m : Nat × Nat} : (s.sends i m).pout = s.pout := by
  unfold State.sends
  dsimp only
  split <;> rfl

@[simp] theorem sends_killed {m : Nat × Nat} : (s.sends i m).killed = s.killed := by
  unfold State.sends
  dsimp only
  split <;> rfl

theorem main_moves (hfree : s.handler none = none) (h : s.mainFlow rand = some t) :
    Moves n s (.parent rand) t := by
  unfold State.mainFlow at h
  split at h
  · rename_i hparent
    cases h
    exact .fork hparent hfree
  · rename_i hparent
    cases h
    exact .load hparent hfree
  · rename_i hparent
    cases h
    exact .store hparent hfree
  · rename_i hparent
    cases hreg : s.pin.registered with
    | true =>
      rw [show s.pin.notify = none by simp [Mqueue.notify, hreg]] at h
      cases h
      exact .busy hparent hreg
    | false =>
      rw [Mqueue.notify_some.mpr ⟨hreg, rfl⟩] at h
      cases h
      exact .register hparent hreg
  · rename_i hparent
    split at h
    · rename_i hleft
      cases h
      exact .stop hparent hleft
    · rename_i hleft
      cases h
      exact .draw hparent hleft
  · rename_i hparent
    split at h
    · rename_i hroom
      cases h
      exact .number hparent hroom
    · cases h
  · rename_i hparent
    cases h
    exact .retry hparent hfree
  · rename_i kept hparent
    cases kept with
    | true => cases h; exact .again hparent hfree
    | false => cases h; exact .failed hparent hfree
  · rename_i hparent
    cases h
    exact .close hparent
  · rename_i hparent
    cases h
    exact .exit hparent
  · cases h

theorem child_moves (h : s.childWork i rand rand' = some t) :
    Moves n s (.child i rand rand') t := by
  unfold State.childWork at h
  split at h
  · rename_i hchild
    cases h
    exact .start hchild
  · rename_i hchild
    split at h
    · cases h
    · rename_i hreceive
      cases h
      exact .receive hchild hreceive
  · rename_i m hchild
    split at h
    · rename_i hroom
      cases h
      exact .send hchild hroom
    · rename_i hfull
      cases h
      exact .full hchild (Nat.not_lt.mp hfull)
  · rename_i hchild
    cases h
    exact .leave hchild
  all_goals cases h

theorem thread_moves (h : s.function k = some t) : Moves n s (.thread k) t := by
  unfold State.function at h
  split at h
  · rename_i hthread
    split at h
    · rename_i hopened
      split at h
      · rename_i hreceive
        cases h
        exact .empty hthread hopened (Mqueue.receive_none.mp hreceive)
      · rename_i hreceive
        cases h
        exact .take hthread hopened hreceive
    · rename_i hclosed
      cases h
      exact .closed hthread (by simpa using hclosed)
  · rename_i kept hthread
    cases kept with
    | true => cases h; exact .agreed hthread
    | false => cases h; exact .lost hthread
  · rename_i hthread
    cases h
    exact .print hthread
  · rename_i hthread
    split at h
    · rename_i hopened
      split at h
      · rename_i hnotify
        cases h
        refine .renewBusy hthread ?_
        by_contra hreg
        rw [Mqueue.notify_some.mpr ⟨by simpa using hreg, rfl⟩] at hnotify
        cases hnotify
      · rename_i hnotify
        cases h
        obtain ⟨hreg, rfl⟩ := Mqueue.notify_some.mp hnotify
        exact .renew hthread hopened hreg
    · rename_i hclosed
      cases h
      exact .closedNotify hthread (by simpa using hclosed)
  · rename_i hthread
    cases h
    exact .done hthread
  all_goals cases h

theorem alive_of_next (h : (bingo n old).next s act = some t) : s.killed = none := by
  unfold bingo State.next at h
  dsimp only at h
  split at h
  · cases h
  · rename_i halive
    simpa using halive

theorem child_of_exited (h : (bingo n old).next s act = some t) (hparent : s.parent = .exited) :
    ∃ i rand rand', act = .child i rand rand' := by
  unfold bingo State.next at h
  dsimp only at h
  split at h
  · cases h
  · split at h
    · exact ⟨_, _, _, rfl⟩
    · cases h

/-- **What a step does**, of the main flow, of a handler, of a child or of a thread. -/
theorem next_moves (h : (bingo n old).next s act = some t) : Moves n s act t := by
  unfold bingo State.next at h
  dsimp only at h
  split at h
  · cases h
  · split at h
    · exact child_moves h
    · split at h
      · cases h
      · split at h
        · split at h
          · cases h
          · rename_i hfree
            exact main_moves (by simpa using hfree) h
        · split at h
          · cases h
          · rename_i hfree
            unfold State.forkFails at h
            split at h
            · rename_i hparent
              cases h
              exact .forkFails hparent (by simpa using hfree)
            · cases h
        · unfold State.deliver at h
          split at h
          · rename_i hg
            cases h
            exact .deliver hg.2.1 hg.2.2
          · cases h
        · unfold State.reap at h
          split at h
          · rename_i hg
            cases h
            exact .reap hg.1 hg.2
          · cases h
        · unfold State.allReaped at h
          split at h
          · rename_i hg
            cases h
            split
            · rename_i hleft
              exact .reaped hg.1 hleft
            · exact .echild hg.1
          · cases h
        · unfold State.decrement at h
          split at h
          · rename_i hload
            cases h
            exact .loads hload
          · rename_i hstore
            cases h
            exact .stores hstore
          · cases h
          · cases h
        · split at h
          · cases h
          · exact thread_moves h
        · cases h

end Ops.Bingo
