import Mathlib.Logic.Function.Basic
import Ops.Lib.Transition

/-!
# Signal counts in exit statuses (`Lab - 2/Last Year/task.c`)

`main` with up to `n` children: where a `fork` fails, `main` goes on. A child drops
`SIGUSR1` before it has its handler. Afterwards a signal is pending, once however often it is
sent, and what a child sends to itself arrives before its `kill` returns. Somebody else can
stop a child and let it go on.

`waitpid` with `WUNTRACED` reports every exit once, and every stop once, if the child is
still stopped. A store outside `temp` is undefined. `reports` and `stores` are for the
theorems: what `waitpid` has returned, and the indexes at which `main` has stored.
-/

namespace Ops.LastYear

/-! ## Statuses -/

/-- What the kernel keeps of `exit(ex)`. -/
def exitStatus (ex : Nat) : Nat := ex % 256 * 256

def stopStatus (sig : Nat) : Nat := sig * 256 + 127

def WIFEXITED (status : Nat) : Bool := status % 128 == 0

def WEXITSTATUS (status : Nat) : Nat := status / 256 % 256

/-- `int ex = sig_count*10 + new_k` -/
def encode (k count : Nat) : Nat := count * 10 + k

/-- `es % 10` and `es / 10` -/
def decode (status : Nat) : Nat × Nat := (WEXITSTATUS status % 10, WEXITSTATUS status / 10)

/-! ## Processes -/

/-- The next step of a child. It has drawn `k`, and `count` is the `sig_count` that it encodes. -/
inductive ChildPc where
  | unborn
  | sethandler
  | rand
  | loop (k i : Nat)
  | killed (k i : Nat)
  | sleep (k i r : Nat)
  | exited (k count : Nat)
  | reaped (k count : Nat)
  deriving DecidableEq, Repr

/-- `fork m` has `m` children still to create. -/
inductive MainPc where
  | fork (m : Nat)
  | wait
  | ended
  | undefined
  deriving DecidableEq, Repr

/-- Has the child been stopped, and has `waitpid` said so? -/
inductive Job where
  | running
  | stopped (sig : Nat)
  | reported
  deriving DecidableEq, Repr

inductive Pid where
  | parent
  | child (j : Nat)
  deriving DecidableEq, Repr

structure Data where
  pid : Pid
  k : Nat
  i : Nat
  deriving DecidableEq, Repr

structure Main where
  pc : MainPc
  n : Int
  temp : Int → Option Data
  reports : List (Nat × Nat)
  stores : List Int

structure State where
  main : Main
  child : Nat → ChildPc
  sig_count : Nat → Nat
  pending : Nat → Bool
  job : Nat → Job

/-- `r` is what `rand` returns. `waitpid` returns `j`, or −1. -/
inductive Act where
  | fork (fails : Bool)
  | waitpid (j : Option Nat)
  | child (j r : Nat)
  | deliver (j : Nat)
  | stop (j sig : Nat)
  | cont (j : Nat)
  deriving DecidableEq, Repr

def ChildPc.handles : ChildPc → Bool
  | rand | loop .. | killed .. | sleep .. => true
  | _ => false

def ChildPc.alive : ChildPc → Bool
  | sethandler => true
  | c => c.handles

/-- Not for `waitpid`. -/
def ChildPc.gone : ChildPc → Bool
  | unborn | reaped .. => true
  | _ => false

def State.setChild (s : State) (j : Nat) (c : ChildPc) : State :=
  { s with child := Function.update s.child j c }

/-- `kill(0, SIGUSR1)` -/
def State.kill (s : State) : State :=
  { s with pending := fun j => s.pending j || (s.child j).handles }

/-- The branch of the child in `create_children`, with `child_work`. -/
def State.child_work (s : State) (j r : Nat) : Option State :=
  match s.child j with
  | .unborn | .exited .. | .reaped .. => none
  | .sethandler => some (s.setChild j .rand)
  | .rand => some (s.setChild j (.loop (r % 11) 0))
  | .loop k i =>
    if i < k then some (s.kill.setChild j (.killed k i))
    else some (s.setChild j (.exited k (s.sig_count j)))
  | .killed k i => if s.pending j then none else some (s.setChild j (.sleep k i 2))
  | .sleep k i 0 => some (s.setChild j (.loop k (i + 1)))
  | .sleep k i (r + 1) => some (s.setChild j (.sleep k i r))

def State.sig_handler (s : State) (j : Nat) : State :=
  { s with
    pending := Function.update s.pending j false
    sig_count := Function.update s.sig_count j (s.sig_count j + 1) }

/-- `waitpid` has returned `j`; `temp` has `size` entries. -/
def Main.collect (size : Nat) (m : Main) (j status : Nat) : Main :=
  { m with
    pc := if 0 ≤ m.n - 1 ∧ m.n - 1 < size then m.pc else .undefined
    n := m.n - 1
    temp := if 0 ≤ m.n - 1 ∧ m.n - 1 < size then
        Function.update m.temp (m.n - 1) (some ⟨.parent, (decode status).1, (decode status).2⟩)
      else m.temp
    reports := m.reports ++ [(j, status)]
    stores := m.stores ++ [m.n - 1] }

def State.create_children (s : State) (fails : Bool) : Option State :=
  match s.main.pc with
  | .fork 0 => some { s with main := { s.main with pc := .wait } }
  | .fork (m + 1) =>
    let t := { s with main := { s.main with pc := .fork m } }
    some (if fails then t else t.setChild m .sethandler)
  | _ => none

/-- A turn of the loop over `waitpid`. −1 is `ECHILD` when no child is left, and otherwise
an interruption. -/
def State.waitpid (n : Nat) (s : State) (j : Option Nat) : Option State :=
  if s.main.pc = .wait then
    match j with
    | none =>
      if (List.range n).all fun j => (s.child j).gone then
        some { s with main := { s.main with pc := .ended } }
      else some s
    | some j =>
      match s.child j with
      | .exited k count =>
        some { s.setChild j (.reaped k count) with
          main := s.main.collect n j (exitStatus (encode k count)) }
      | c =>
        match s.job j with
        | .stopped sig =>
          if c.alive then
            some { s with
              main := s.main.collect n j (stopStatus sig)
              job := Function.update s.job j .reported }
          else none
        | _ => none
  else none

def State.next (n : Nat) (s : State) : Act → Option State
  | .fork fails => s.create_children fails
  | .waitpid j => s.waitpid n j
  | .child j r => if s.job j = .running then s.child_work j r else none
  | .deliver j =>
    if s.job j = .running ∧ s.pending j ∧ (s.child j).handles then some (s.sig_handler j) else none
  | .stop j sig =>
    if s.job j = .running ∧ (s.child j).alive then
      some { s with job := Function.update s.job j (.stopped sig) }
    else none
  | .cont j =>
    if s.job j ≠ .running ∧ (s.child j).alive then
      some { s with job := Function.update s.job j .running }
    else none

def State.start (n : Nat) : State where
  main :=
    { pc := .fork n, n := n, temp := fun _ => none, reports := [], stores := [] }
  child _ := .unborn
  sig_count _ := 0
  pending _ := false
  job _ := .running

def program (n : Nat) : LTS State Act where
  Init s := s = .start n
  next := State.next n

/-! ## What a step can do -/

/-- `rand() % 11` is at most 10. -/
def ChildPc.drawn : ChildPc → Bool
  | loop k _ | killed k _ | sleep k _ _ | exited k _ | reaped k _ => k ≤ 10
  | _ => true

theorem ChildPc.alive_not_gone {c : ChildPc} (h : c.alive = true) : c.gone = false := by
  cases c <;> first | rfl | cases h

/-- What a step does to `main` and to the children. -/
inductive Change (n : Nat) (s t : State) : Prop where
  | quiet : t.main = s.main → t.child = s.child → Change n s t
  | work (j : Nat) (c : ChildPc) : (s.child j).alive → c.gone = false →
      ((s.child j).drawn → c.drawn) → t.main = s.main → t.child = Function.update s.child j c →
      Change n s t
  | fork (m : Nat) : s.main.pc = .fork (m + 1) → t.main = { s.main with pc := .fork m } →
      t.child = s.child ∨ t.child = Function.update s.child m .sethandler → Change n s t
  | forked : s.main.pc = .fork 0 → t.main = { s.main with pc := .wait } → t.child = s.child →
      Change n s t
  | ended : s.main.pc = .wait → (∀ j < n, (s.child j).gone) →
      t.main = { s.main with pc := .ended } → t.child = s.child → Change n s t
  | exit (j k count : Nat) : s.main.pc = .wait → s.child j = .exited k count →
      t.main = s.main.collect n j (exitStatus (encode k count)) →
      t.child = Function.update s.child j (.reaped k count) → Change n s t
  | stop (j sig : Nat) : s.main.pc = .wait → (s.child j).alive →
      t.main = s.main.collect n j (stopStatus sig) → t.child = s.child → Change n s t

section
variable {n : Nat} {s t : State} {a : Act}

theorem child_work_change {j r : Nat} (hn : s.child_work j r = some t) : Change n s t := by
  unfold State.child_work at hn
  obtain ⟨c, hc⟩ : ∃ c, s.child j = c := ⟨_, rfl⟩
  rw [hc] at hn
  cases c with
  | unborn => cases hn
  | exited k count => cases hn
  | reaped k count => cases hn
  | sethandler =>
    cases hn
    exact .work j .rand (by rw [hc]; rfl) rfl (fun _ => rfl) rfl rfl
  | rand =>
    cases hn
    have hr : r % 11 ≤ 10 := Nat.lt_succ_iff.mp (Nat.mod_lt r (by decide))
    exact .work j (.loop (r % 11) 0) (by rw [hc]; rfl) rfl (fun _ => decide_eq_true hr) rfl rfl
  | loop k i =>
    dsimp only at hn
    split at hn
    · cases hn
      exact .work j (.killed k i) (by rw [hc]; rfl) rfl (by rw [hc]; exact id) rfl rfl
    · cases hn
      exact .work j (.exited k (s.sig_count j)) (by rw [hc]; rfl) rfl (by rw [hc]; exact id) rfl rfl
  | killed k i =>
    dsimp only at hn
    split at hn
    · cases hn
    · cases hn
      exact .work j (.sleep k i 2) (by rw [hc]; rfl) rfl (by rw [hc]; exact id) rfl rfl
  | sleep k i r =>
    cases r with
    | zero =>
      cases hn
      exact .work j (.loop k (i + 1)) (by rw [hc]; rfl) rfl (by rw [hc]; exact id) rfl rfl
    | succ r =>
      cases hn
      exact .work j (.sleep k i r) (by rw [hc]; rfl) rfl (by rw [hc]; exact id) rfl rfl

theorem create_children_change {fails : Bool} (hn : s.create_children fails = some t) :
    Change n s t := by
  unfold State.create_children at hn
  split at hn
  · next hpc =>
    cases hn
    exact .forked hpc rfl rfl
  · next m hpc =>
    cases fails with
    | true =>
      cases hn
      exact .fork m hpc rfl (.inl rfl)
    | false =>
      cases hn
      exact .fork m hpc rfl (.inr rfl)
  · cases hn

theorem waitpid_change {j : Option Nat} (hn : s.waitpid n j = some t) : Change n s t := by
  unfold State.waitpid at hn
  split at hn
  · next hpc =>
    cases j with
    | none =>
      dsimp only at hn
      split at hn
      · next hgone =>
        cases hn
        exact .ended hpc (fun j hj => List.all_eq_true.mp hgone j (List.mem_range.mpr hj)) rfl rfl
      · cases hn
        exact .quiet rfl rfl
    | some j =>
      dsimp only at hn
      split at hn
      · next k count hc =>
        cases hn
        exact .exit j k count hpc hc rfl rfl
      · split at hn
        · next sig _ =>
          split at hn
          · next halive =>
            cases hn
            exact .stop j sig hpc halive rfl rfl
          · cases hn
        · cases hn
  · cases hn

theorem next_change (hn : s.next n a = some t) : Change n s t := by
  cases a with
  | fork fails => exact create_children_change hn
  | waitpid j => exact waitpid_change hn
  | child j r =>
    obtain ⟨-, hn⟩ := Option.ite_none_right_eq_some.mp hn
    exact child_work_change hn
  | deliver j | stop j sig | cont j =>
    obtain ⟨-, hn⟩ := Option.ite_none_right_eq_some.mp hn
    cases hn
    exact .quiet rfl rfl

end

end Ops.LastYear
