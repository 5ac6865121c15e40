import Mathlib.Data.List.Nodup
import Mathlib.Logic.Function.Basic
import Ops.Lib.Bytes
import Ops.Lib.Chain
import Ops.Lib.Transition

/-!
# Joining the lists of the threads (`concat_and_print`)

`mem` says what is allocated at an address: a node, with its line and its next pointer,
or the text of a line. `none` is the null pointer. An access to an address at which the
wrong thing or nothing is allocated, and a `free` of one, are undefined. A thread that
has not been joined can push a node (`thread_work`), and what `malloc` returns is free.

`lists`, `visited` and `freed` are for the theorems: the nodes that each thread has
pushed, newest first, the nodes that the print has visited and what was freed.
-/

namespace Ops.Split.Join

/-- A node with its line. -/
structure Entry (A : Type) where
  node : A
  line : A
  text : List Byte

inductive Cell (A : Type) where
  | node (line : A) (next : Option A)
  | text (s : List Byte)

/-- The next step of `concat_and_print`, with `print_list` and `free_list`. -/
inductive Pc (A : Type) where
  | join (i : Nat) (head tail : Option A)
  | test (i : Nat) (head tail : Option A)
  | walk (i : Nat) (head : Option A) (tmp : A)
  | print (head tmp : Option A)
  | free (head : Option A)
  | returned
  | undefined

/-- `head j` is `threads[j].head`. -/
structure State (A : Type) where
  pc : Pc A
  mem : A → Option (Cell A)
  head : Nat → Option A
  out : List (List Byte)
  lists : Nat → List (Entry A)
  visited : List A
  freed : List A

inductive Act (A : Type) where
  | concat
  | push (j : Nat) (node line : A) (text : List Byte)

variable {A : Type}

/-! ## Lists in memory -/

/-- Node `e` is in memory, with its line, and points to `p`. -/
def Holds (mem : A → Option (Cell A)) (e : Entry A) (p : Option A) : Prop :=
  mem e.node = some (.node e.line p) ∧ mem e.line = some (.text e.text)

abbrev IsList (mem : A → Option (Cell A)) (p : Option A) (l : List (Entry A)) : Prop :=
  Chain (Holds mem) Entry.node p l none

/-- Everything that is allocated for the nodes of a list. -/
def cells (l : List (Entry A)) : List A := l.flatMap fun e => [e.line, e.node]

/-- The lists of the first `i` threads, one after the other. -/
def joined (i : Nat) (lists : Nat → List (Entry A)) : List (Entry A) :=
  (List.range i).flatMap lists

/-- No list shares anything with another one, or comes to a node twice. -/
structure Apart (n : Nat) (lists : Nat → List (Entry A)) : Prop where
  nodup : ∀ j < n, (cells (lists j)).Nodup
  disjoint : ∀ i < n, ∀ j < n, i ≠ j → (cells (lists i)).Disjoint (cells (lists j))

section
variable {mem mem' : A → Option (Cell A)} {lists lists' : Nat → List (Entry A)} {n i j : Nat}
variable {l m : List (Entry A)} {e e' : Entry A} {a : A} {p : Option A}

theorem cells_append (l m : List (Entry A)) : cells (l ++ m) = cells l ++ cells m :=
  List.flatMap_append

theorem mem_cells (he : e ∈ l) : e.line ∈ cells l ∧ e.node ∈ cells l :=
  ⟨List.mem_flatMap.mpr ⟨e, he, List.mem_cons_self⟩,
    List.mem_flatMap.mpr ⟨e, he, List.mem_cons_of_mem _ List.mem_cons_self⟩⟩

theorem cells_allocated (h : ∀ e ∈ l, ∃ p, Holds mem e p) (ha : a ∈ cells l) :
    mem a ≠ none := by
  obtain ⟨e, he, ha⟩ := List.mem_flatMap.mp ha
  obtain ⟨p, hnode, hline⟩ := h e he
  rcases List.mem_cons.mp ha with rfl | ha
  · rw [hline]; exact nofun
  · obtain rfl := List.mem_singleton.mp ha
    rw [hnode]; exact nofun

theorem Holds.update [DecidableEq A] {c : Option (Cell A)} (h : Holds mem e p) (hnode : e.node ≠ a)
    (hline : e.line ≠ a) : Holds (Function.update mem a c) e p :=
  ⟨(Function.update_of_ne hnode ..).trans h.1, (Function.update_of_ne hline ..).trans h.2⟩

theorem Holds.update_apart [DecidableEq A] {c : Option (Cell A)} (h : Holds mem e p) (he : e ∈ l)
    (hapart : (cells l).Disjoint (cells m)) (ha : a ∈ cells m) :
    Holds (Function.update mem a c) e p := by
  obtain ⟨hline, hnode⟩ := mem_cells he
  refine h.update ?_ ?_
  · rintro rfl; exact hapart hnode ha
  · rintro rfl; exact hapart hline ha

theorem joined_succ (i : Nat) (lists : Nat → List (Entry A)) :
    joined (i + 1) lists = joined i lists ++ lists i := by
  unfold joined
  rw [List.range_succ, List.flatMap_append, List.flatMap_singleton]

theorem joined_congr (h : ∀ k < i, lists' k = lists k) : joined i lists' = joined i lists := by
  unfold joined
  rw [List.flatMap_def, List.flatMap_def,
    List.map_congr_left fun k hk => h k (List.mem_range.mp hk)]

theorem mem_joined : e ∈ joined i lists ↔ ∃ k < i, e ∈ lists k := by
  simp only [joined, List.mem_flatMap, List.mem_range]

theorem cells_joined (i : Nat) (lists : Nat → List (Entry A)) :
    cells (joined i lists) = (List.range i).flatMap fun k => cells (lists k) := by
  unfold cells joined
  rw [List.flatMap_assoc]

theorem Apart.joined_nodup (h : Apart n lists) (hi : i ≤ n) : (cells (joined i lists)).Nodup := by
  rw [cells_joined]
  refine List.nodup_flatMap.mpr ⟨fun k hk => h.nodup k ?_, ?_⟩
  · exact Nat.lt_of_lt_of_le (List.mem_range.mp hk) hi
  · refine List.Pairwise.imp_of_mem (fun {k j} hk hj hne => ?_) (List.nodup_range (n := i))
    have hk' := Nat.lt_of_lt_of_le (List.mem_range.mp hk) hi
    have hj' := Nat.lt_of_lt_of_le (List.mem_range.mp hj) hi
    exact h.disjoint k hk' j hj' hne

theorem Apart.joined_disjoint (h : Apart n lists) (hij : i ≤ j) (hj : j < n) :
    (cells (lists j)).Disjoint (cells (joined i lists)) := by
  rw [cells_joined]
  intro a ha ha'
  obtain ⟨k, hk, hak⟩ := List.mem_flatMap.mp ha'
  have hki := List.mem_range.mp hk
  exact h.disjoint j hj k (by omega) (by omega) ha hak

theorem Apart.push (h : Apart n lists) (hnode : ∀ k < n, e.node ∉ cells (lists k))
    (hline : ∀ k < n, e.line ∉ cells (lists k)) (hne : e.node ≠ e.line) :
    Apart n (Function.update lists j (e :: lists j)) := by
  have hcells : ∀ k < n, ∀ a, a ∈ cells (Function.update lists j (e :: lists j) k) →
      a ∈ cells (lists k) ∨ k = j ∧ (a = e.line ∨ a = e.node) := by
    intro k _ a ha
    by_cases hkj : k = j
    · subst hkj
      rw [Function.update_self] at ha
      rcases List.mem_append.mp ha with hnew | hold
      · exact .inr ⟨rfl, by simpa using hnew⟩
      · exact .inl hold
    · rw [Function.update_of_ne hkj] at ha
      exact .inl ha
  refine ⟨fun k hk => ?_, fun i hi k hk hik a ha ha' => ?_⟩
  · by_cases hkj : k = j
    · subst hkj
      rw [Function.update_self]
      have hpair : [e.line, e.node].Nodup := by simpa using hne.symm
      refine List.Nodup.append hpair (h.nodup k hk) fun a ha ha' => ?_
      rcases (by simpa using ha : a = e.line ∨ a = e.node) with rfl | rfl
      · exact hline k hk ha'
      · exact hnode k hk ha'
    · rw [Function.update_of_ne hkj]
      exact h.nodup k hk
  · rcases hcells i hi a ha with hai | ⟨rfl, hai⟩
    · rcases hcells k hk a ha' with hak | ⟨-, rfl | rfl⟩
      · exact h.disjoint i hi k hk hik hai hak
      · exact hline i hi hai
      · exact hnode i hi hai
    · rcases hcells k hk a ha' with hak | ⟨rfl, -⟩
      · rcases hai with rfl | rfl
        · exact hline k hk hak
        · exact hnode k hk hak
      · exact hik rfl

end

/-! ## The code -/

variable [DecidableEq A]

/-- Thread `j` has not been joined. -/
def Pc.runs : Pc A → Nat → Bool
  | .join i _ _, j => i ≤ j
  | .test i _ _, j | .walk i _ _, j => i < j
  | _, _ => false

/-- `tail->next = p` -/
def State.link (s : State A) (tail p : Option A) (c : Pc A) : State A :=
  match tail with
  | none => { s with pc := .undefined }
  | some z =>
    match s.mem z with
    | some (.node line _) =>
      { s with mem := Function.update s.mem z (some (.node line p)), pc := c }
    | _ => { s with pc := .undefined }

/-- The body of the loop over the threads, behind `pthread_join`. -/
def State.test (s : State A) (i : Nat) (head tail : Option A) : State A :=
  match s.head i with
  | none => { s with pc := .join (i + 1) head tail }
  | some b =>
    match head with
    | none => { s with pc := .walk i (some b) b }
    | some a => s.link tail (some b) (.walk i (some a) b)

/-- `while (tmp->next != NULL)`, and `tail = tmp`. -/
def State.walk (s : State A) (i : Nat) (head : Option A) (tmp : A) : State A :=
  match s.mem tmp with
  | some (.node _ none) => { s with pc := .join (i + 1) head (some tmp) }
  | some (.node _ (some b)) => { s with pc := .walk i head b }
  | _ => { s with pc := .undefined }

def State.print (s : State A) (head : Option A) (a : A) : State A :=
  match s.mem a with
  | some (.node line next) =>
    match s.mem line with
    | some (.text t) =>
      { s with pc := .print head next, out := s.out ++ [t], visited := s.visited ++ [a] }
    | _ => { s with pc := .undefined }
  | _ => { s with pc := .undefined }

def State.free (s : State A) (a : A) : State A :=
  match s.mem a with
  | some (.node line next) =>
    match s.mem line with
    | some (.text _) =>
      { s with
        pc := .free next
        mem := Function.update (Function.update s.mem line none) a none
        freed := s.freed ++ [line, a] }
    | _ => { s with pc := .undefined }
  | _ => { s with pc := .undefined }

def State.concat_and_print (n : Nat) (s : State A) : Option (State A) :=
  match s.pc with
  | .join i head tail =>
    some { s with pc := if i < n then .test i head tail else .print head head }
  | .test i head tail => some (s.test i head tail)
  | .walk i head tmp => some (s.walk i head tmp)
  | .print head none => some { s with pc := .free head }
  | .print head (some a) => some (s.print head a)
  | .free none => some { s with pc := .returned }
  | .free (some a) => some (s.free a)
  | .returned | .undefined => none

/-- The part of `thread_work` that adds a node in front. -/
def State.push (n : Nat) (s : State A) (j : Nat) (node line : A) (text : List Byte) :
    Option (State A) :=
  if j < n ∧ s.pc.runs j ∧ s.mem node = none ∧ s.mem line = none ∧ node ≠ line then
    some { s with
      mem := Function.update (Function.update s.mem line (some (.text text))) node
        (some (.node line (s.head j)))
      head := Function.update s.head j (some node)
      lists := Function.update s.lists j (⟨node, line, text⟩ :: s.lists j) }
  else none

def State.next (n : Nat) (s : State A) : Act A → Option (State A)
  | .concat => s.concat_and_print n
  | .push j node line text => s.push n j node line text

/-- The threads' lists are in `threads[j].head`, acyclic and disjoint, and `concat_and_print`
begins. -/
structure State.Start (n : Nat) (s : State A) : Prop where
  pc : s.pc = .join 0 none none
  list : ∀ j < n, IsList s.mem (s.head j) (s.lists j)
  apart : Apart n s.lists
  out : s.out = []
  visited : s.visited = []
  freed : s.freed = []

/-- `concat_and_print` and `n` threads. -/
def joins (n : Nat) : LTS (State A) (Act A) where
  Init := State.Start n
  next := State.next n

end Ops.Split.Join
