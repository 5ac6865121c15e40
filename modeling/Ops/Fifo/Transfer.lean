import Ops.Fifo.Process
import Ops.Lib.Logs
import Ops.Lib.Update

/-!
# What arrives

What the reader has printed under a process id, what the FIFO holds of that process and what
the process has still to write are together the letters and digits of its file (`Holds`).
The zeros of a short block are neither, so the reader may ignore the lengths.
-/

namespace Ops.Fifo

variable {file : Pid → List Byte} {s t : State} {pid : Pid} {w : Writer}

/-! ## Blocks -/

/-- A block, as it stands in the FIFO. -/
def frame (m : Pid × List Byte) : List Byte := storeWord m.1 ++ m.2

theorem frame_length {m : Pid × List Byte} (h : m.2.length = MSG_SIZE) :
    (frame m).length = PIPE_BUF := by
  rw [frame, List.length_append, storeWord_length, h]
  rfl

theorem drop_header (pid : Pid) (payload : List Byte) :
    (storeWord pid ++ payload).drop sizeofPid = payload := rfl

theorem print_frame {m : Pid × List Byte} (h : m.2.length = MSG_SIZE) {buffer : List Byte}
    (hbuf : buffer.length = PIPE_BUF) :
    print (blit buffer 0 (frame m)) = (m.1, m.2.filter isalnum) := by
  have hle : buffer.length ≤ (frame m).length := by rw [hbuf, frame_length h]
  unfold print
  rw [blit_all hle, frame, loadWord_storeWord, drop_header, List.take_of_length_le h.le]

theorem filter_zeros (n : Nat) : (List.replicate n (0 : Byte)).filter isalnum = [] :=
  List.filter_eq_nil_iff.mpr fun b hb => by
    rw [List.eq_of_mem_replicate hb]
    decide

/-- `buffer` behind the process id: a piece of the file and zeros. -/
def padded (chunk : List Byte) : List Byte :=
  chunk ++ List.replicate (MSG_SIZE - chunk.length) 0

theorem padded_length {chunk : List Byte} (h : chunk.length ≤ MSG_SIZE) :
    (padded chunk).length = MSG_SIZE := by
  rw [padded, List.length_append, List.length_replicate]
  omega

theorem padded_filter (chunk : List Byte) :
    (padded chunk).filter isalnum = chunk.filter isalnum := by
  rw [padded, List.filter_append, filter_zeros, List.append_nil]

theorem readFile_buffer {payload : List Byte} (hbuf : w.buffer = storeWord pid ++ payload)
    (hlen : payload.length = MSG_SIZE) :
    w.readFile.buffer = storeWord pid ++ padded (w.file.take MSG_SIZE) := by
  have hchunk : (w.file.take MSG_SIZE).length = min MSG_SIZE w.file.length := List.length_take
  have hstored : blit w.buffer sizeofPid (w.file.take MSG_SIZE) =
      storeWord pid ++ (w.file.take MSG_SIZE ++ payload.drop (w.file.take MSG_SIZE).length) := by
    have hsplit : payload = payload.take (w.file.take MSG_SIZE).length ++
        payload.drop (w.file.take MSG_SIZE).length := (List.take_append_drop _ _).symm
    conv => lhs; rw [hbuf, hsplit]
    refine blit_mid (a := storeWord pid) ?_
    rw [List.length_take]
    omega
  unfold Writer.readFile padded
  simp only [hstored, ← hchunk]
  generalize w.file.take MSG_SIZE = chunk at *
  split
  · have hzeros : (payload.drop chunk.length).length =
        (List.replicate (MSG_SIZE - chunk.length) (0 : Byte)).length := by
      rw [List.length_drop, List.length_replicate, hlen]
    have hmid := blit_mid (a := storeWord pid ++ chunk) (c := []) hzeros
    simp only [List.append_nil, List.length_append, storeWord_length] at hmid
    rw [← List.append_assoc, ← List.append_assoc]
    exact hmid
  · rename_i hfull
    have hnone : payload.drop chunk.length = [] := List.drop_of_length_le (by omega)
    have hzero : MSG_SIZE - chunk.length = 0 := by omega
    rw [hnone, hzero]
    rfl

/-! ## One writer -/

/-- What a writer has still to put into the FIFO, or could not. -/
def Writer.left (w : Writer) : List Byte :=
  match w.pc with
  | .write _ | .broken => w.buffer.drop sizeofPid ++ w.file
  | _ => w.file

/-- No file is left behind the loop. -/
def Writer.AtEnd (w : Writer) : Prop :=
  match w.pc with
  | .write count => count ≠ MSG_SIZE → w.file = []
  | .returned | .closed => w.file = []
  | .off | .read | .broken => True

/-- The process id stands in front of `buffer`. -/
structure Writer.Good (pid : Pid) (w : Writer) : Prop where
  header : w.pc ≠ .off → ∃ payload, w.buffer = storeWord pid ++ payload ∧ payload.length = MSG_SIZE
  atEnd : w.AtEnd

theorem readFile_count (h : w.file = []) : w.readFile.pc = .returned := by
  unfold Writer.readFile
  rw [h]
  rfl

theorem readFile_pc (h : w.file ≠ []) :
    w.readFile.pc = .write (w.file.take MSG_SIZE).length := by
  have hpos : 0 < w.file.length := List.length_pos_iff.mpr h
  have hcount : 0 < min MSG_SIZE w.file.length := Nat.lt_min.mpr ⟨by decide, hpos⟩
  unfold Writer.readFile
  rw [List.length_take]
  exact if_pos hcount

theorem Writer.Good.readFile (h : w.Good pid) (hpc : w.pc = .read) :
    w.readFile.Good pid ∧ w.readFile.left.filter isalnum = w.left.filter isalnum := by
  obtain ⟨payload, hbuf, hlen⟩ := h.header (by rw [hpc]; decide)
  have hbuffer := readFile_buffer hbuf hlen
  have hpad : (padded (w.file.take MSG_SIZE)).length = MSG_SIZE :=
    padded_length (List.length_take_le _ _)
  have hfile : w.readFile.file = w.file.drop MSG_SIZE := rfl
  have hleft : w.left = w.file := by
    unfold Writer.left
    rw [hpc]
  by_cases hnil : w.file = []
  · have hreturned := readFile_count hnil
    have hrest : w.readFile.file = [] := by rw [hfile, hnil, List.drop_nil]
    refine ⟨⟨fun _ => ⟨_, hbuffer, hpad⟩, ?_⟩, ?_⟩
    · unfold Writer.AtEnd
      rw [hreturned]
      exact hrest
    · unfold Writer.left
      rw [hreturned, hpc, hnil]
      simp only [hrest]
  · have hwrite := readFile_pc hnil
    refine ⟨⟨fun _ => ⟨_, hbuffer, hpad⟩, ?_⟩, ?_⟩
    · unfold Writer.AtEnd
      rw [hwrite]
      intro hshort
      rw [List.length_take] at hshort
      rw [hfile]
      exact List.drop_of_length_le (by omega)
    · have hparts : w.readFile.left = padded (w.file.take MSG_SIZE) ++ w.file.drop MSG_SIZE := by
        unfold Writer.left
        rw [hwrite]
        simp only [hbuffer, hfile]
        rw [drop_header]
      rw [hleft, hparts, List.filter_append, padded_filter, ← List.filter_append,
        List.take_append_drop]

theorem again_returned {count : Nat} (h : count ≠ MSG_SIZE) : again count = .returned := if_neg h

theorem Writer.Good.wrote {count : Nat} (h : w.Good pid) (hpc : w.pc = .write count) :
    ({ w with pc := again count } : Writer).Good pid ∧
      ({ w with pc := again count } : Writer).left = w.file := by
  have hend : count ≠ MSG_SIZE → w.file = [] := by
    have hend := h.atEnd
    unfold Writer.AtEnd at hend
    rwa [hpc] at hend
  have hheader := h.header (by simp [hpc])
  by_cases hfull : count = MSG_SIZE
  · have hread : again count = .read := if_pos hfull
    rw [hread]
    exact ⟨⟨fun _ => hheader, trivial⟩, rfl⟩
  · rw [again_returned hfull]
    exact ⟨⟨fun _ => hheader, hend hfull⟩, rfl⟩

/-! ## The whole -/

/-- `msgs` are the blocks in the FIFO. -/
structure Holds (file : Pid → List Byte) (s : State) (msgs : List (Pid × List Byte)) : Prop where
  fifo : s.fifo = msgs.flatMap frame
  size : ∀ m ∈ msgs, m.2.length = MSG_SIZE
  account : ∀ pid, (ofTag pid s.printed).flatten ++ (ofTag pid msgs).flatten.filter isalnum ++
    (s.writer pid).left.filter isalnum = (file pid).filter isalnum

def WriterPc.opens : WriterPc → Bool
  | .off | .broken | .closed => false
  | .read | .write _ | .returned => true

theorem WriterPc.opens_ne {c : WriterPc} (h : c.opens = true) : c ≠ .broken ∧ c ≠ .off := by
  refine ⟨?_, ?_⟩
  · rintro rfl
    cases h
  · rintro rfl
    cases h

structure Inv (file : Pid → List Byte) (s : State) : Prop where
  opened : ∀ pid, pid ∈ s.writers ↔ (s.writer pid).pc.opens = true
  writer : ∀ pid, (s.writer pid).Good pid
  broken : ∀ pid, (s.writer pid).pc = .broken → s.reader = .closed
  off : ∀ pid, (s.writer pid).pc = .off → (s.writer pid).file = file pid
  buffer : s.buffer.length = PIPE_BUF
  blocks : ∃ msgs, Holds file s msgs

theorem Holds.move {msgs : List (Pid × List Byte)} (h : Holds file s msgs)
    (hleft : w.left.filter isalnum = (s.writer pid).left.filter isalnum) {ws : Finset Pid} :
    Holds file { s.setWriter pid w with writers := ws } msgs := by
  refine ⟨h.fifo, h.size, fun q => ?_⟩
  have hsame := update_same (g := s.writer) (f := fun w => w.left.filter isalnum) hleft q
  exact (congrArg _ hsame).trans (h.account q)

theorem Holds.write {msgs : List (Pid × List Byte)} (h : Holds file s msgs) {payload : List Byte}
    (hlen : payload.length = MSG_SIZE) (hold : (s.writer pid).left = payload ++ w.left) :
    Holds file { s.setWriter pid w with fifo := s.fifo ++ frame (pid, payload) }
      (msgs ++ [(pid, payload)]) := by
  refine ⟨?_, fun m hm => ?_, fun q => ?_⟩
  · rw [List.flatMap_append, ← h.fifo, List.flatMap_singleton]
  · rcases List.mem_append.mp hm with hm | hm
    · exact h.size m hm
    · rw [List.mem_singleton.mp hm, hlen]
  · rw [← h.account q, ofTag_append]
    by_cases hq : q = pid
    · subst hq
      have hnew : (Function.update s.writer q w q).left = w.left := by
        rw [Function.update_self]
      simp only [State.setWriter, hnew, hold, ofTag_cons_self, ofTag_nil, List.flatten_append,
        List.flatten_cons, List.flatten_nil, List.filter_append, List.append_nil, List.append_assoc]
    · have hnew : Function.update s.writer pid w q = s.writer q := Function.update_of_ne hq ..
      simp only [State.setWriter, hnew, ofTag_cons_ne (Ne.symm hq), ofTag_nil, List.append_nil]

theorem Holds.read {msgs : List (Pid × List Byte)} (h : Holds file s msgs) (hne : s.fifo ≠ [])
    (hbuf : s.buffer.length = PIPE_BUF) : ∃ msgs',
    Holds file { s with
      fifo := s.fifo.drop PIPE_BUF
      buffer := blit s.buffer 0 (s.fifo.take PIPE_BUF)
      printed := s.printed ++ [print (blit s.buffer 0 (s.fifo.take PIPE_BUF))] } msgs' ∧
    (blit s.buffer 0 (s.fifo.take PIPE_BUF)).length = PIPE_BUF := by
  cases msgs with
  | nil => exact absurd h.fifo hne
  | cons m msgs =>
    have hm : m.2.length = MSG_SIZE := h.size m List.mem_cons_self
    have hframe := frame_length hm
    have hfifo : s.fifo = frame m ++ msgs.flatMap frame := by rw [h.fifo, List.flatMap_cons]
    have htake : s.fifo.take PIPE_BUF = frame m := by rw [hfifo, List.take_left' hframe]
    have hdrop : s.fifo.drop PIPE_BUF = msgs.flatMap frame := by rw [hfifo, List.drop_left' hframe]
    have hall : (blit s.buffer 0 (frame m)).length = PIPE_BUF := by
      rw [blit_all (by rw [hbuf, hframe]), hframe]
    rw [htake, hdrop, print_frame hm hbuf]
    refine ⟨msgs, ⟨rfl, fun m' hm' => h.size m' (List.mem_cons_of_mem _ hm'), fun q => ?_⟩, hall⟩
    rw [← h.account q]
    by_cases hq : m.1 = q
    · subst hq
      have hself : ofTag m.1 (m :: msgs) = m.2 :: ofTag m.1 msgs := ofTag_cons_self ..
      simp only [ofTag_append, hself, ofTag_cons_self, ofTag_nil, List.flatten_append,
        List.flatten_cons, List.flatten_nil, List.filter_append, List.append_nil, List.append_assoc]
    · have hother : ofTag q (m :: msgs) = ofTag q msgs := ofTag_cons_ne hq ..
      simp only [ofTag_append, hother, ofTag_cons_ne hq, ofTag_nil, List.append_nil]

/-! ## Steps -/

namespace Inv

theorem opened_stays (h : Inv file s) (hw : w.pc.opens = true) (hpid : pid ∈ s.writers) (q : Pid) :
    q ∈ s.writers ↔ (Function.update s.writer pid w q).pc.opens = true := by
  by_cases hq : q = pid
  · subst hq
    rw [Function.update_self]
    exact iff_of_true hpid hw
  · rw [Function.update_of_ne hq]
    exact h.opened q

theorem opened_ends (h : Inv file s) (hw : w.pc.opens = false) (q : Pid) :
    q ∈ s.writers.erase pid ↔ (Function.update s.writer pid w q).pc.opens = true := by
  by_cases hq : q = pid
  · subst hq
    rw [Function.update_self, hw]
    exact iff_of_false (Finset.notMem_erase q _) Bool.false_ne_true
  · rw [Function.update_of_ne hq, Finset.mem_erase, and_iff_right hq]
    exact h.opened q

theorem good (h : Inv file s) (hw : w.Good pid) (q : Pid) :
    (Function.update s.writer pid w q).Good q := by
  by_cases hq : q = pid
  · subst hq
    rwa [Function.update_self]
  · rw [Function.update_of_ne hq]
    exact h.writer q

theorem unbroken (h : Inv file s) (hw : w.pc = .broken → s.reader = .closed) (q : Pid) :
    (Function.update s.writer pid w q).pc = .broken → s.reader = .closed :=
  update_keeps (P := fun w : Writer => w.pc = .broken → s.reader = .closed) (h.broken q) fun _ => hw

theorem begun (h : Inv file s) (hw : w.pc ≠ .off) (q : Pid) :
    (Function.update s.writer pid w q).pc = .off →
      (Function.update s.writer pid w q).file = file q := by
  by_cases hq : q = pid
  · subst hq
    rw [Function.update_self]
    exact fun hoff => absurd hoff hw
  · rw [Function.update_of_ne hq]
    exact h.off q

theorem start {stack : List Byte} (h : Inv file s) (hn : s.start pid stack = some t) :
    Inv file t := by
  unfold State.start at hn
  split at hn
  · rename_i hguard
    obtain ⟨hopen, hoff, hstack⟩ := hguard
    cases hn
    have hleft : (s.writer pid).left = (s.writer pid).file := by
      unfold Writer.left
      rw [hoff]
    obtain ⟨msgs, hmsgs⟩ := h.blocks
    have hholds : Holds file { s.setWriter pid
        ⟨.read, blit stack 0 (storeWord pid), (s.writer pid).file⟩ with
        writers := insert pid s.writers } msgs := hmsgs.move (by rw [hleft]; rfl)
    refine ⟨fun q => ?_, h.good ⟨fun _ => ⟨stack.drop 4, ?_, ?_⟩, trivial⟩,
      fun q hq => absurd (h.unbroken (w := ⟨.read, _, _⟩) nofun q hq) hopen, h.begun nofun,
      h.buffer, msgs, hholds.fifo, hholds.size, hholds.account⟩
    · show q ∈ insert pid s.writers ↔ (Function.update s.writer pid _ q).pc.opens = true
      by_cases hq : q = pid
      · subst hq
        rw [Function.update_self]
        exact iff_of_true (Finset.mem_insert_self q _) rfl
      · rw [Function.update_of_ne hq, Finset.mem_insert, or_iff_right hq]
        exact h.opened q
    · exact blit_zero ..
    · rw [List.length_drop, hstack]
      rfl
  · cases hn

theorem write (h : Inv file s) (hn : s.write_to_fifo pid = some t) : Inv file t := by
  have hmem : (s.writer pid).pc.opens = true → pid ∈ s.writers := (h.opened pid).mpr
  obtain ⟨msgs, hmsgs⟩ := h.blocks
  unfold State.write_to_fifo at hn
  cases hpc : (s.writer pid).pc with
  | off | broken | closed =>
    rw [hpc] at hn
    cases hn
  | read =>
    rw [hpc] at hn hmem
    cases hn
    obtain ⟨hgood, hleft⟩ := (h.writer pid).readFile hpc
    have hon : (s.writer pid).readFile.pc.opens = true := by
      by_cases hnil : (s.writer pid).file = []
      · rw [readFile_count hnil]
        rfl
      · rw [readFile_pc hnil]
        rfl
    exact ⟨h.opened_stays hon (hmem rfl), h.good hgood,
      h.unbroken (fun hb => absurd hb (WriterPc.opens_ne hon).1),
      h.begun (WriterPc.opens_ne hon).2, h.buffer, msgs, hmsgs.move hleft⟩
  | write count =>
    rw [hpc] at hn hmem
    simp only at hn
    split at hn
    · rename_i hclosed
      cases hn
      have hheader := (h.writer pid).header (by simp [hpc])
      refine ⟨h.opened_ends rfl, h.good ⟨fun _ => hheader, trivial⟩, h.unbroken fun _ => hclosed,
        h.begun nofun, h.buffer, msgs, hmsgs.move (by simp [Writer.left, hpc])⟩
    split at hn
    · cases hn
      obtain ⟨payload, hbuf, hlen⟩ := (h.writer pid).header (by simp [hpc])
      obtain ⟨hgood, hleft⟩ := (h.writer pid).wrote hpc
      have hblock : (s.writer pid).buffer.take PIPE_BUF = frame (pid, payload) := by
        rw [hbuf]
        exact List.take_of_length_le (frame_length (m := (pid, payload)) hlen).le
      have hold : (s.writer pid).left = payload ++ (s.writer pid).file := by
        unfold Writer.left
        rw [hpc]
        simp only [hbuf, drop_header]
      have hon : (again count).opens = true := by
        unfold again
        split
        · rfl
        · rfl
      refine ⟨h.opened_stays hon (hmem rfl), h.good hgood,
        h.unbroken (fun hb => absurd hb (WriterPc.opens_ne hon).1),
        h.begun (WriterPc.opens_ne hon).2, h.buffer, msgs ++ [(pid, payload)], ?_⟩
      rw [hblock]
      exact hmsgs.write hlen (by rw [hold, hleft])
    · cases hn
  | returned =>
    rw [hpc] at hn
    cases hn
    have hleft : (s.writer pid).left = (s.writer pid).file := by
      unfold Writer.left
      rw [hpc]
    have hend : (s.writer pid).file = [] := by
      have hend := (h.writer pid).atEnd
      unfold Writer.AtEnd at hend
      rwa [hpc] at hend
    have hheader := (h.writer pid).header (by rw [hpc]; decide)
    exact ⟨h.opened_ends rfl, h.good ⟨fun _ => hheader, hend⟩, h.unbroken nofun, h.begun nofun,
      h.buffer, msgs, hmsgs.move (by rw [hleft]; rfl)⟩

theorem read (h : Inv file s) (hn : s.read_from_fifo = some t) : Inv file t := by
  obtain ⟨msgs, hmsgs⟩ := h.blocks
  unfold State.read_from_fifo at hn
  cases hr : s.reader with
  | «open» | closed =>
    rw [hr] at hn
    cases hn
  | returned =>
    rw [hr] at hn
    cases hn
    exact ⟨h.opened, h.writer, fun _ _ => rfl, h.off, h.buffer, msgs, hmsgs.fifo, hmsgs.size,
      hmsgs.account⟩
  | read =>
    have hnone : ∀ q, (s.writer q).pc ≠ .broken := fun q hq => by
      rw [h.broken q hq] at hr
      cases hr
    rw [hr] at hn
    simp only at hn
    split at hn
    · rename_i hne
      cases hn
      obtain ⟨msgs', hmsgs', hlen⟩ := hmsgs.read hne h.buffer
      exact ⟨h.opened, h.writer, fun q hq => absurd hq (hnone q), h.off, hlen, msgs', hmsgs'.fifo,
        hmsgs'.size, hmsgs'.account⟩
    · split at hn
      · cases hn
        exact ⟨h.opened, h.writer, fun q hq => absurd hq (hnone q), h.off, h.buffer, msgs,
          hmsgs.fifo, hmsgs.size, hmsgs.account⟩
      · cases hn

theorem step {act : Act} (h : Inv file s) (hn : s.next act = some t) : Inv file t := by
  cases act with
  | start pid stack => exact h.start hn
  | writer pid => exact h.write hn
  | reader => exact h.read hn

theorem init (h : Start file s) : Inv file s := by
  obtain ⟨hwriters, hnobody, hfifo, -, hbuffer, hprinted⟩ := h
  refine ⟨fun pid => ?_, fun pid => ⟨fun hne => absurd (hwriters pid).1 hne, ?_⟩,
    fun pid hb => ?_, fun pid _ => (hwriters pid).2, hbuffer, [], hfifo, ?_, fun pid => ?_⟩
  · rw [hnobody, (hwriters pid).1]
    exact iff_of_false (Finset.notMem_empty pid) (by decide)
  · unfold Writer.AtEnd
    rw [(hwriters pid).1]
    trivial
  · rw [(hwriters pid).1] at hb
    cases hb
  · intro m hm
    cases hm
  · unfold Writer.left
    rw [hprinted, (hwriters pid).1]
    simp only [ofTag_nil, List.flatten_nil, List.filter_nil, List.nil_append, (hwriters pid).2]

theorem reach (h : (fifos file).Reach s) : Inv file s :=
  h.inv (I := Inv file) (fun _ hs => .init hs) fun _ _ _ _ hi hn => hi.step hn

end Inv

/-! ## The reader comes to the end -/

/-- A process opens the FIFO. -/
def Act.starts : Act → Bool
  | .start _ _ => true
  | .writer _ | .reader => false

/-- The bytes that a writer has still to move, through the FIFO and out of it. -/
def Writer.weight (w : Writer) : Nat :=
  match w.pc with
  | .read => 2 * PIPE_BUF * w.file.length + 2
  | .write _ => 2 * PIPE_BUF * w.file.length + PIPE_BUF + 3
  | .returned => 1
  | .off | .broken | .closed => 0

def ReaderPc.weight : ReaderPc → Nat
  | .open => 3
  | .read => 2
  | .returned => 1
  | .closed => 0

open Finset in
def State.weight (s : State) : Nat :=
  ∑ pid ∈ s.writers, (s.writer pid).weight + s.fifo.length + s.reader.weight

theorem readFile_weight (hpc : w.pc = .read) : w.readFile.weight < w.weight := by
  have hfile : w.readFile.file = w.file.drop MSG_SIZE := rfl
  have hP : PIPE_BUF = 4096 := rfl
  unfold Writer.weight
  rw [hpc]
  by_cases hnil : w.file = []
  · rw [readFile_count hnil]
    simp only
    omega
  · have hpos : 0 < w.file.length := List.length_pos_iff.mpr hnil
    have hM : MSG_SIZE = 4092 := rfl
    rw [readFile_pc hnil]
    simp only [hfile, List.length_drop, hM, hP]
    omega

theorem again_weight {count : Nat} (hpc : w.pc = .write count) :
    ({ w with pc := again count } : Writer).weight + PIPE_BUF < w.weight := by
  have hP : PIPE_BUF = 4096 := rfl
  by_cases hfull : count = MSG_SIZE
  · have hread : again count = .read := if_pos hfull
    unfold Writer.weight
    rw [hpc, hread]
    simp only
    omega
  · unfold Writer.weight
    rw [hpc, again_returned hfull]
    simp only
    omega

theorem weight_move (hpid : pid ∈ s.writers) (w : Writer) :
    ∑ q ∈ s.writers, (Function.update s.writer pid w q).weight + (s.writer pid).weight =
      ∑ q ∈ s.writers, (s.writer q).weight + w.weight := by
  have hchange := sum_change (f := fun q => (s.writer q).weight)
    (k := fun q => (Function.update s.writer pid w q).weight) hpid fun q hq => by
      rw [Function.update_of_ne hq]
  simpa only [Function.update_self] using hchange

theorem write_progress (h : Inv file s) (hpid : pid ∈ s.writers) (hempty : s.fifo = [])
    (hreader : s.reader = .read) :
    ∃ t, s.write_to_fifo pid = some t ∧ t.reader = .read ∧ t.weight < s.weight := by
  have hopens := (h.opened pid).mp hpid
  unfold State.write_to_fifo
  cases hpc : (s.writer pid).pc with
  | off | broken | closed =>
    rw [hpc] at hopens
    cases hopens
  | read =>
    refine ⟨_, rfl, hreader, ?_⟩
    have hmove := weight_move hpid (s.writer pid).readFile
    have hless := readFile_weight hpc
    simp only [State.weight, State.setWriter]
    omega
  | write count =>
    obtain ⟨payload, hbuf, hlen⟩ := (h.writer pid).header (by simp [hpc])
    have hroom : s.fifo.length + PIPE_BUF ≤ capacity := by
      rw [hempty]
      decide
    have hthere : s.reader ≠ .closed := by
      rw [hreader]
      nofun
    refine ⟨_, (if_neg hthere).trans (if_pos hroom), hreader, ?_⟩
    have hmove := weight_move hpid ⟨again count, (s.writer pid).buffer, (s.writer pid).file⟩
    have hless := again_weight hpc
    have hblock := List.length_take_le PIPE_BUF (s.writer pid).buffer
    simp only [State.weight, State.setWriter, List.length_append]
    omega
  | returned =>
    refine ⟨_, rfl, hreader, ?_⟩
    have hless : (s.writer pid).weight = 1 := by
      unfold Writer.weight
      rw [hpc]
    have hold := Finset.add_sum_erase s.writers (fun q => (s.writer q).weight) hpid
    have hrest : ∑ q ∈ s.writers.erase pid,
        (Function.update s.writer pid { s.writer pid with pc := .closed } q).weight =
        ∑ q ∈ s.writers.erase pid, (s.writer q).weight :=
      Finset.sum_congr rfl fun q hq => by rw [Function.update_of_ne (Finset.ne_of_mem_erase hq)]
    simp only [State.weight, State.setWriter, hrest]
    omega

theorem progress (h : Inv file s) (hreader : s.reader ≠ .open) : s.reader = .closed ∨
    ∃ act t, act.starts = false ∧ s.next act = some t ∧ (Inv file t ∧ t.reader ≠ .open) ∧
      t.weight < s.weight := by
  cases hr : s.reader with
  | «open» => exact absurd hr hreader
  | closed => exact .inl rfl
  | returned =>
    right
    have hn : s.next .reader = some { s with reader := .closed } := by
      simp [State.next, State.read_from_fifo, hr]
    refine ⟨.reader, _, rfl, hn, ⟨h.step hn, nofun⟩, ?_⟩
    simp only [State.weight, hr, ReaderPc.weight]
    omega
  | read =>
    right
    by_cases hempty : s.fifo = []
    · by_cases hnobody : s.writers = ∅
      · have hn : s.next .reader = some { s with reader := .returned } := by
          simp [State.next, State.read_from_fifo, hr, hempty, hnobody]
        refine ⟨.reader, _, rfl, hn, ⟨h.step hn, nofun⟩, ?_⟩
        simp only [State.weight, hr, ReaderPc.weight]
        omega
      · obtain ⟨pid, hpid⟩ := Finset.nonempty_iff_ne_empty.mpr hnobody
        obtain ⟨t, hn, hread, hless⟩ := write_progress h hpid hempty hr
        have hnext : s.next (.writer pid) = some t := hn
        exact ⟨.writer pid, t, rfl, hnext, ⟨h.step hnext, by rw [hread]; nofun⟩, hless⟩
    · have hn : s.next .reader = some { s with
          fifo := s.fifo.drop PIPE_BUF
          buffer := blit s.buffer 0 (s.fifo.take PIPE_BUF)
          printed := s.printed ++ [print (blit s.buffer 0 (s.fifo.take PIPE_BUF))] } := by
        simp [State.next, State.read_from_fifo, hr, hempty]
      refine ⟨.reader, _, rfl, hn, ⟨h.step hn, hreader⟩, ?_⟩
      have hpos : 0 < s.fifo.length := List.length_pos_iff.mpr hempty
      have hP : PIPE_BUF = 4096 := rfl
      simp only [State.weight, List.length_drop]
      omega

/-! ## What is printed -/

/-- The characters that are printed under a process id, in order. -/
def State.under (s : State) (pid : Pid) : List Byte := (ofTag pid s.printed).flatten

/-- What a process has not to write any more is printed once the FIFO is empty. -/
theorem Inv.complete (h : Inv file s) (hempty : s.fifo = []) (hleft : (s.writer pid).left = []) :
    s.under pid = (file pid).filter isalnum := by
  obtain ⟨msgs, hmsgs⟩ := h.blocks
  have haccount := hmsgs.account pid
  have hnone : msgs = [] := by
    cases msgs with
    | nil => rfl
    | cons m msgs =>
      have hfifo := hmsgs.fifo
      rw [hempty] at hfifo
      cases hfifo
  subst hnone
  rwa [hleft, ofTag_nil, List.flatten_nil, List.filter_nil, List.append_nil, List.append_nil]
    at haccount

theorem Inv.left_nil (h : Inv file s) (hreader : s.reader ≠ .closed)
    (hoff : (s.writer pid).pc ≠ .off) (hpid : pid ∉ s.writers) : (s.writer pid).left = [] := by
  have hopens : ¬ (s.writer pid).pc.opens = true := fun ho => hpid ((h.opened pid).mpr ho)
  have hend := (h.writer pid).atEnd
  cases hpc : (s.writer pid).pc with
  | off => exact absurd hpc hoff
  | read | write | returned =>
    rw [hpc] at hopens
    exact absurd rfl hopens
  | broken => exact absurd (h.broken pid hpc) hreader
  | closed =>
    unfold Writer.AtEnd at hend
    rw [hpc] at hend
    unfold Writer.left
    rw [hpc]
    exact hend

/-- Under a process id that has not opened the FIFO nothing is printed. -/
theorem Inv.under_off (h : Inv file s) (hoff : (s.writer pid).pc = .off) : s.under pid = [] := by
  obtain ⟨msgs, hmsgs⟩ := h.blocks
  have hlength := congrArg List.length (hmsgs.account pid)
  have hleft : (s.writer pid).left = file pid := by
    unfold Writer.left
    rw [hoff]
    exact h.off pid hoff
  rw [hleft] at hlength
  simp only [List.length_append] at hlength
  exact List.length_eq_zero_iff.mp (by rw [State.under]; omega)

end Ops.Fifo
