import Ops.Fifo.Transfer

/-!
# Files that are lost

Between the last `read` of the reader and its `close` a writer can still open the FIFO. It puts its
blocks there, or is ended by `SIGPIPE`, and nothing of its file is printed (`transferred_iff`).
-/

namespace Ops.Fifo

variable {file : Pid → List Byte} {s t : State} {pid : Pid}

/-- `read` has returned 0. -/
def ReaderPc.met : ReaderPc → Bool
  | .open | .read => false
  | .returned | .closed => true

/-- No process with a letter or digit in its file opens the FIFO when the reader has met its end. -/
def Early (file : Pid → List Byte) (s : State) : Act → Prop
  | .start pid _ => s.reader.met = true → (file pid).filter isalnum = []
  | _ => True

/-- What each process has in its file is printed, once the reader has met the end. -/
def Printed (file : Pid → List Byte) (s : State) : Prop :=
  s.reader.met = true → ∀ pid, (s.writer pid).pc ≠ .off → s.under pid = (file pid).filter isalnum

theorem write_same (hn : s.write_to_fifo pid = some t) : t.printed = s.printed ∧
    t.reader = s.reader ∧ ∀ q, (t.writer q).pc = .off ↔ (s.writer q).pc = .off := by
  have hmove : ∀ {w : Writer}, (s.writer pid).pc ≠ .off → w.pc ≠ .off → ∀ q,
      (Function.update s.writer pid w q).pc = .off ↔ (s.writer q).pc = .off := by
    intro w hold hnew q
    by_cases hq : q = pid
    · rw [hq, Function.update_self]
      exact iff_of_false hnew hold
    · rw [Function.update_of_ne hq]
  have hagain : ∀ count, again count ≠ .off := by
    intro count
    unfold again
    split
    · nofun
    · nofun
  unfold State.write_to_fifo at hn
  cases hpc : (s.writer pid).pc with
  | off | broken | closed =>
    rw [hpc] at hn
    cases hn
  | read =>
    rw [hpc] at hn
    cases hn
    refine ⟨rfl, rfl, hmove (by rw [hpc]; nofun) ?_⟩
    unfold Writer.readFile
    dsimp only
    split
    · nofun
    · exact hagain _
  | write count =>
    rw [hpc] at hn
    simp only at hn
    split at hn
    · cases hn
      exact ⟨rfl, rfl, hmove (by rw [hpc]; nofun) nofun⟩
    · split at hn
      · cases hn
        exact ⟨rfl, rfl, hmove (by rw [hpc]; nofun) (hagain count)⟩
      · cases hn
  | returned =>
    rw [hpc] at hn
    cases hn
    exact ⟨rfl, rfl, hmove (by rw [hpc]; nofun) nofun⟩

/-- A process opens the FIFO when the reader has met its end: nothing is printed under it. -/
theorem late_printed (h : Inv file s) (hmet : s.reader.met = true) (hoff : (s.writer pid).pc = .off)
    {w : Writer} (hw : w.pc ≠ .off) {ws : Finset Pid} (hreader : t.reader = s.reader)
    (ht : t = { s.setWriter pid w with writers := ws, reader := t.reader }) :
    Printed file t ↔ Printed file s ∧ (file pid).filter isalnum = [] := by
  have hunder : ∀ q, t.under q = s.under q := fun q => by rw [ht]; rfl
  have hwriter : t.writer = Function.update s.writer pid w := by rw [ht]; rfl
  unfold Printed
  simp only [hreader, hmet, true_imp_iff, hunder, hwriter]
  constructor
  · intro hall
    have hpid := hall pid (by rw [Function.update_self]; exact hw)
    refine ⟨fun q hq => hall q ?_, hpid.symm.trans (h.under_off hoff)⟩
    rw [Function.update_of_ne]
    · exact hq
    · rintro rfl
      exact hq hoff
  · rintro ⟨hall, hnone⟩ q hq
    by_cases hqp : q = pid
    · rw [hqp, h.under_off hoff, hnone]
    · rw [Function.update_of_ne hqp] at hq
      exact hall q hq

/-- A step prints what it should, as long as no writer is late. -/
theorem printed_step {act : Act} (h : Inv file s) (hn : s.next act = some t) :
    Printed file t ↔ Printed file s ∧ Early file s act := by
  have hsame : (∀ pid, t.under pid = s.under pid) → t.reader.met = s.reader.met →
      (∀ q, (t.writer q).pc = .off ↔ (s.writer q).pc = .off) →
      (Printed file t ↔ Printed file s) := by
    intro hunder hmet hoff
    unfold Printed
    simp only [hunder, hmet, ne_eq, hoff]
  cases act with
  | start pid stack =>
    unfold State.next State.start at hn
    dsimp only at hn
    split at hn
    · rename_i hguard
      obtain ⟨hopen, hoff, -⟩ := hguard
      cases hn
      cases hr : s.reader with
      | closed => exact absurd hr hopen
      | «open» | read =>
        refine iff_of_true (fun hmet => ?_) ⟨fun hmet => ?_, fun hmet => ?_⟩
        · simp [ReaderPc.met] at hmet
        · rw [hr] at hmet
          cases hmet
        · rw [hr] at hmet
          cases hmet
      | returned =>
        have hmet : s.reader.met = true := by rw [hr]; rfl
        refine (late_printed h hmet hoff (w := ⟨.read, blit stack 0 (storeWord pid),
          (s.writer pid).file⟩) (by simp) ?_ rfl).trans (and_congr_right fun _ => ?_)
        · simp [hr]
        · exact ⟨fun hnone _ => hnone, fun hnone => hnone hmet⟩
    · cases hn
  | writer pid =>
    obtain ⟨hprinted, hreader, hoff⟩ := write_same hn
    refine (hsame (fun q => ?_) (by rw [hreader]) hoff).trans (and_iff_left trivial).symm
    rw [State.under, hprinted, State.under]
  | reader =>
    refine Iff.trans ?_ (and_iff_left trivial).symm
    unfold State.next State.read_from_fifo at hn
    dsimp only at hn
    cases hr : s.reader with
    | «open» | closed =>
      rw [hr] at hn
      cases hn
    | returned =>
      rw [hr] at hn
      cases hn
      exact hsame (fun _ => rfl) (by rw [hr]; rfl) fun _ => Iff.rfl
    | read =>
      have hs : Printed file s := fun hmet => by
        rw [hr] at hmet
        cases hmet
      rw [hr] at hn
      simp only at hn
      split at hn
      · cases hn
        refine iff_of_true (fun hmet => ?_) hs
        cases hmet
      · rename_i hempty
        split at hn
        · rename_i hnobody
          cases hn
          refine iff_of_true (fun _ pid hoff => ?_) hs
          have hleft := h.left_nil (by simp [hr]) hoff
            (by rw [hnobody]; exact Finset.notMem_empty pid)
          exact h.complete (not_not.mp hempty) hleft
        · cases hn

/-- **Lost files**: at any time the characters under a process id are the first letters and digits
of its file; once the reader has met the end of the FIFO they are all of them, for every process
that has opened it, if and only if no process with one in its file has opened it after that. When
the FIFO has been opened the reader can always close it. -/
theorem transferred_iff {s₀ : State} {acts : List Act} (hstart : Start file s₀)
    (h : (fifos file).exec s₀ acts = some s) :
    (∀ pid, s.under pid <+: (file pid).filter isalnum) ∧
      (Printed file s ↔ (fifos file).Along (Early file) s₀ acts) ∧
      (s.reader ≠ .open → ∃ more t, (∀ act ∈ more, act.starts = false) ∧
        (fifos file).exec s more = some t ∧ t.reader = .closed) := by
  have hinv := Inv.reach (LTS.Reach.exec (.init hstart) h)
  have hbegin : Printed file s₀ := fun hmet => by
    rw [hstart.2.2.2.1] at hmet
    cases hmet
  refine ⟨fun pid => ?_, ?_, fun hreader => ?_⟩
  · obtain ⟨msgs, hmsgs⟩ := hinv.blocks
    rw [← hmsgs.account pid, List.append_assoc]
    exact List.prefix_append _ _
  · have hrun := LTS.along_iff (L := fifos file) (P := Early file) (I := Inv file)
      (G := Printed file) (fun _ _ _ hi hn => hi.step hn) (fun _ _ _ hi hn => printed_step hi hn)
      (.init hstart) h
    exact hrun.trans (and_iff_right hbegin)
  · obtain ⟨more, t, hmore, hexec, -, hclosed⟩ := LTS.run_to (L := fifos file)
      (I := fun s => Inv file s ∧ s.reader ≠ .open) (G := fun s => s.reader = .closed)
      (P := fun act => act.starts = false) State.weight (fun s hs => progress hs.1 hs.2)
      ⟨hinv, hreader⟩
    exact ⟨more, t, hmore, hexec, hclosed⟩

/-! ## Two runs -/

def empty (file : Pid → List Byte) : State where
  writer pid := ⟨.off, [], file pid⟩
  writers := ∅
  fifo := []
  reader := .open
  buffer := List.replicate PIPE_BUF 0
  printed := []

theorem empty_start (file : Pid → List Byte) : Start file (empty file) :=
  ⟨fun _ => ⟨rfl, rfl⟩, rfl, rfl, rfl, List.length_replicate, rfl⟩

/-- The file of process 7 fills one block; any other holds "a b". -/
def files (pid : Pid) : List Byte :=
  if pid = 7 then List.replicate MSG_SIZE 120 else [97, 32, 98]

def stack : List Byte := List.replicate PIPE_BUF 0

/-- The blocks of processes 7 and 8 come in between each other, and process 7 reads once more. -/
def twoFiles : List Act :=
  [.start 7 stack, .writer 7, .start 8 stack, .writer 8, .writer 8, .writer 7, .reader, .writer 8,
    .writer 7, .reader, .writer 7, .reader, .reader]

theorem transferred_two : ∃ s, (fifos files).exec (empty files) twoFiles = some s ∧
    s.reader = .closed ∧
    (Printed files s ↔ (fifos files).Along (Early files) (empty files) twoFiles) ∧
    s.under 7 = List.replicate MSG_SIZE 120 ∧ s.under 8 = [97, 98] := by
  have hrun : ((fifos files).exec (empty files) twoFiles).map
      (fun s => (s.reader, (s.under 7).length, s.under 8)) =
      some (.closed, MSG_SIZE, [97, 98]) := by decide +kernel
  obtain ⟨s, hs, heq⟩ := Option.map_eq_some_iff.mp hrun
  simp only [Prod.mk.injEq] at heq
  obtain ⟨hfile, hiff, -⟩ := transferred_iff (empty_start files) hs
  have hseven : s.under 7 <+: List.replicate MSG_SIZE 120 := by
    simpa [files, isalnum] using hfile 7
  refine ⟨s, hs, heq.1, hiff, hseven.eq_of_length ?_, heq.2.2⟩
  rw [heq.2.1, List.length_replicate]

/-- Process 8 opens the FIFO when the reader has met its end, and has not closed it. -/
def lateFile : List Act :=
  [.start 7 stack, .writer 7, .writer 7, .reader, .writer 7, .writer 7, .reader, .start 8 stack,
    .writer 8, .writer 8, .writer 8, .reader]

theorem file_lost : ∃ s, (fifos files).Reach s ∧ s.reader = .closed ∧ s.writers = ∅ ∧
    (s.writer 8).pc = .closed ∧ s.under 8 = [] ∧ (files 8).filter isalnum = [97, 98] := by
  have hrun : ((fifos files).exec (empty files) lateFile).map
      (fun s => (s.reader, s.writers, (s.writer 8).pc, s.under 8)) =
      some (.closed, ∅, .closed, []) := by decide +kernel
  obtain ⟨s, hs, heq⟩ := Option.map_eq_some_iff.mp hrun
  simp only [Prod.mk.injEq] at heq
  exact ⟨s, LTS.Reach.exec (.init (empty_start _)) hs, heq.1, heq.2.1, heq.2.2.1, heq.2.2.2,
    by decide⟩

end Ops.Fifo
