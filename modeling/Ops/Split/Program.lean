import Ops.Split.Join
import Ops.Split.Process

/-!
# The whole splitter (`task.c`)

The threads of `Split.Process` and `concat_and_print` in one process: `main` creates the
printing thread behind the loop that creates the others, a `pthread_join` waits until the thread
has returned, and a line is what `my_strdup` makes of the bytes of a chunk. `malloc` returns the
addresses in the label, which are free. `my_strdup` does not look at what it gets: without memory
it writes through the null pointer, and the run ends there.

A thread that has left its loop prints its own list before it returns. `said` is what it has
printed so far; `out` of `Join.State` is what `concat_and_print` has printed.
-/

namespace Ops.Split

/-- What `my_strdup` copies: the bytes before the first NUL. -/
def my_strdup : List Byte → List Byte
  | [] => []
  | c :: src => if c = 0 then [] else c :: my_strdup src

def buffer (file : List Byte) (chunk chunk_start : Nat) : List Byte :=
  (file.drop chunk_start).take chunk ++ [0]

/-- `new_node->line` -/
def line (file : List Byte) (chunk chunk_start : Nat) : List Byte :=
  my_strdup (buffer file chunk chunk_start)

/-- `thread_work` has left its loop. -/
def Pc.ended : Pc → Bool
  | .done | .failed => true
  | _ => false

/-- The `print_list` of a thread, at its node `tmp`. -/
inductive Own (A : Type) where
  | waiting
  | printing (tmp : Option A)
  | returned
  | undefined

def Own.finished {A : Type} : Own A → Bool
  | .returned => true
  | _ => false

structure Program (n : Nat) (A : Type) where
  split : State n
  join : Join.State A
  own : Fin n → Own A
  said : Fin n → List (List Byte)

/-- `line` is what the `malloc` of `my_strdup` returns. -/
inductive Move (n : Nat) (A : Type) where
  | create
  | thread (p : Fin n) (ok : Bool)
  | push (p : Fin n) (node : A) (line : Option A)
  | print (p : Fin n)
  | concat

variable {n : Nat} {A : Type} [DecidableEq A]

/-- `my_strdup` gets the memory that it asks for. -/
def Move.allocates : Move n A → Bool
  | .push _ _ none => false
  | _ => true

def Program.returned (s : Program n A) (p : Fin n) : Bool :=
  match s.split.pc p with
  | .failed => true
  | .done => (s.own p).finished
  | _ => false

/-- The `pthread_join` of the next step returns. -/
def Program.joinable (s : Program n A) : Bool :=
  match s.join.pc with
  | .join i _ _ => decide (∀ p : Fin n, p.val = i → s.returned p = true)
  | _ => true

def Program.thread_work (file : List Byte) (m : Nat) (s : Program n A) (p : Fin n) (ok : Bool) :
    Option (Program n A) :=
  match s.split.pc p, ok with
  | .node _, true => none
  | _, _ => (s.split.next file.length m (.thread p ok)).map fun t => { s with split := t }

/-- The step of `thread_work` that adds a node. -/
def Program.push (file : List Byte) (m : Nat) (s : Program n A) (p : Fin n) (a : A)
    (b : Option A) : Option (Program n A) :=
  match s.split.pc p, b with
  | .node chunk_start, some b =>
    (s.split.next file.length m (.thread p true)).bind fun split =>
      (s.join.push n p a b (line file (file.length / m) chunk_start)).map fun join =>
        { s with split := split, join := join }
  | .node _, none =>
    if s.split.phase = .running then
      some { s with split := { s.split with phase := .undefined } }
    else none
  | _, _ => none

def Program.setOwn (s : Program n A) (p : Fin n) (o : Own A) : Program n A :=
  { s with own := Function.update s.own p o }

def Program.turn (s : Program n A) (p : Fin n) (a : A) : Program n A :=
  match s.join.mem a with
  | some (.node line next) =>
    match s.join.mem line with
    | some (.text t) =>
      { s.setOwn p (.printing next) with said := Function.update s.said p (s.said p ++ [t]) }
    | _ => s.setOwn p .undefined
  | _ => s.setOwn p .undefined

/-- `print_list(data->head)` of thread `p`, and its return. -/
def Program.print_list (s : Program n A) (p : Fin n) : Option (Program n A) :=
  match s.split.phase, s.split.pc p, s.own p with
  | .running, .done, .waiting => some (s.setOwn p (.printing (s.join.head p)))
  | .running, .done, .printing none => some (s.setOwn p .returned)
  | .running, .done, .printing (some a) => some (s.turn p a)
  | _, _, _ => none

def Program.concat_and_print (s : Program n A) : Option (Program n A) :=
  if s.split.phase = .running ∧ s.split.created = n ∧ s.joinable then
    (s.join.concat_and_print n).map fun t => { s with join := t }
  else none

def Program.next (file : List Byte) (m : Nat) (s : Program n A) : Move n A → Option (Program n A)
  | .create => (s.split.next file.length m .create).map fun t => { s with split := t }
  | .thread p ok => s.thread_work file m p ok
  | .push p a b => s.push file m p a b
  | .print p => s.print_list p
  | .concat => s.concat_and_print

/-- Nothing is allocated yet. -/
def Program.start (n : Nat) (A : Type) : Program n A where
  split := Split.start n
  join :=
    { pc := .join 0 none none, mem := fun _ => none, head := fun _ => none, out := [],
      lists := fun _ => [], visited := [], freed := [] }
  own _ := .waiting
  said _ := []

/-- The runs on `file` with the arguments `n` and `m`. -/
def program (file : List Byte) (m n : Nat) (A : Type) [DecidableEq A] :
    LTS (Program n A) (Move n A) where
  Init s := s = .start n A
  next := Program.next file m

end Ops.Split
