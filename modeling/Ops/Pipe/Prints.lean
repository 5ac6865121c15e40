import Mathlib.Algebra.Ring.Nat
import Ops.Pipe.Process

/-!
# What the reader can see of the messages

The chunks of a run are the stream of all messages, cut anywhere but for one condition: a chunk
that does not fill the buffer ends where a message ends (`Cuts`). Every such list of chunks is that
of a run (`Cuts.reached`), so nothing but the buffer can tell the messages apart.
-/

namespace Ops.Pipe

/-- Chunks of these lengths, from position `c` of the stream on. -/
def Cuts (w size : Nat) : Nat → List Nat → Prop
  | _, [] => True
  | c, r :: rs => 0 < r ∧ r ≤ size ∧ (r = size ∨ w ∣ c + r) ∧ Cuts w size (c + r) rs

def Params.stream (P : Params) (n : Nat) : List Byte := (List.replicate n P.message).flatten

def State.Ended (s : State) : Prop := s.parent = .returned ∧ s.child = .exited

/-- The two processes can end, the child having read these chunks. -/
def Reads (P : Params) (chunks : List (List Byte)) : Prop :=
  ∃ s, (program P).Reach s ∧ s.Ended ∧ s.chunks = chunks

variable {P : Params} {s t : State} {c w size j n : Nat} {l : List Nat}

theorem cuts_append {r : Nat} : Cuts w size c (l ++ [r]) ↔
    Cuts w size c l ∧ 0 < r ∧ r ≤ size ∧ (r = size ∨ w ∣ c + l.sum + r) := by
  induction l generalizing c with
  | nil =>
    constructor
    · rintro ⟨hpos, hle, hend, -⟩
      exact ⟨trivial, hpos, hle, hend⟩
    · rintro ⟨-, hpos, hle, hend⟩
      exact ⟨hpos, hle, hend, trivial⟩
  | cons k l ih =>
    rw [List.cons_append, Cuts, Cuts, ih, List.sum_cons, Nat.add_assoc c k]
    constructor
    · rintro ⟨hk, hle, hend, hl, hr⟩
      exact ⟨⟨hk, hle, hend, hl⟩, hr⟩
    · rintro ⟨⟨hk, hle, hend, hl⟩, hr⟩
      exact ⟨hk, hle, hend, hl, hr⟩

theorem stream_length (P : Params) (n : Nat) : (P.stream n).length = n * P.message.length := by
  rw [Params.stream, List.length_flatten, List.map_replicate, List.sum_replicate_nat]

theorem stream_add (P : Params) (n k : Nat) : P.stream (n + k) = P.stream n ++ P.stream k := by
  rw [Params.stream, ← List.replicate_append_replicate, List.flatten_append]
  rfl

theorem stream_one (P : Params) : P.stream 1 = P.message := by simp [Params.stream]

/-! ## Every run -/

namespace ParentPc

/-- The messages that the parent has written. -/
def sent (writes : Nat) : ParentPc → Nat
  | close0 => 0
  | write i => i
  | close1 | wait | returned | killed => writes

/-- The steps to the end, and one for each byte that is to be written. -/
def weight (P : Params) : ParentPc → Nat
  | close0 => P.writes * (P.message.length + 1) + 4
  | write i => (P.writes - i) * (P.message.length + 1) + 3
  | close1 => 2
  | wait => 1
  | returned | killed => 0

end ParentPc

def ChildPc.weight : ChildPc → Nat
  | close1 => 3
  | read => 2
  | close0 => 1
  | exited => 0

def State.weight (P : Params) (s : State) : Nat :=
  s.pipe.length + s.parent.weight P + s.child.weight

structure Inv (P : Params) (s : State) : Prop where
  content : s.chunks.flatten ++ s.pipe = P.stream (s.parent.sent P.writes)
  fits : ∀ i, s.parent = .write i → i ≤ P.writes
  cuts : Cuts P.message.length P.size 0 (s.chunks.map List.length)
  eof : s.child = .close0 ∨ s.child = .exited → s.pipe = [] ∧ s.parent.isWriter = false
  alive : s.parent ≠ .killed
  returned : s.parent = .returned → s.child = .exited

namespace Inv

theorem start : Inv P .start where
  content := rfl
  fits i h := by cases h
  cuts := trivial
  eof h := by rcases h with h | h <;> cases h
  alive := nofun
  returned h := by cases h

/-- As long as the parent writes, the child has not seen the end. -/
theorem hasReader (h : Inv P s) {i : Nat} (hpc : s.parent = .write i) : s.hasReader = true := by
  have hne : s.child ≠ .exited := fun hexited => by
    have hwriter := (h.eof (.inr hexited)).2
    rw [hpc] at hwriter
    cases hwriter
  simp [State.hasReader, hne]

theorem stepParent (h : Inv P s) (hn : s.stepParent P = some t) :
    Inv P t ∧ t.weight P < s.weight P := by
  have hcontent := h.content
  unfold State.stepParent at hn
  cases hpc : s.parent with
  | close0 =>
    simp only [hpc, Option.some.injEq] at hn
    subst hn
    rw [hpc] at hcontent
    refine ⟨⟨hcontent, fun i hi => ?_, h.cuts, fun hc => ?_, nofun, nofun⟩, ?_⟩
    · cases hi
      exact Nat.zero_le _
    · have hwriter := (h.eof hc).2
      rw [hpc] at hwriter
      cases hwriter
    · simp [State.weight, hpc, ParentPc.weight]
  | write i =>
    have hi := h.fits i hpc
    have heof : ¬ (s.child = .close0 ∨ s.child = .exited) := fun hc => by
      have hwriter := (h.eof hc).2
      rw [hpc] at hwriter
      cases hwriter
    rw [hpc] at hcontent
    simp only [hpc, h.hasReader hpc, Bool.true_eq_false, if_false] at hn
    split at hn
    · rename_i hlt
      split at hn
      · cases hn
        refine ⟨⟨?_, fun k hk => ?_, h.cuts, fun hc => absurd hc heof, nofun, nofun⟩, ?_⟩
        · show s.chunks.flatten ++ (s.pipe ++ P.message) = P.stream (i + 1)
          rw [← List.append_assoc, hcontent, stream_add, stream_one]
          rfl
        · cases hk
          exact hlt
        · obtain ⟨d, hd⟩ : ∃ d, P.writes - i = d + 1 := ⟨P.writes - i - 1, by omega⟩
          have hd' : P.writes - (i + 1) = d := by omega
          simp only [State.weight, hpc, ParentPc.weight, List.length_append, hd, hd', Nat.add_mul]
          omega
      · cases hn
    · cases hn
      refine ⟨⟨?_, nofun, h.cuts, fun hc => absurd hc heof, nofun, nofun⟩, ?_⟩
      · show _ = P.stream P.writes
        rw [show P.writes = i by omega]
        exact hcontent
      · simp only [State.weight, hpc, ParentPc.weight]
        omega
  | close1 =>
    simp only [hpc, Option.some.injEq] at hn
    subst hn
    rw [hpc] at hcontent
    refine ⟨⟨hcontent, nofun, h.cuts, fun hc => ⟨(h.eof hc).1, rfl⟩, nofun, nofun⟩, ?_⟩
    simp [State.weight, hpc, ParentPc.weight]
  | wait =>
    simp only [hpc] at hn
    split at hn
    · rename_i hexited
      cases hn
      rw [hpc] at hcontent
      refine ⟨⟨hcontent, nofun, h.cuts, fun hc => ⟨(h.eof hc).1, rfl⟩, nofun, fun _ => hexited⟩, ?_⟩
      simp [State.weight, hpc, ParentPc.weight]
    · cases hn
  | returned | killed => simp [hpc] at hn

theorem read (h : Inv P s) (hsize : 0 < P.size) (hpipe : s.pipe ≠ []) (hpc : s.child = .read) :
    Inv P { s with pipe := s.pipe.drop P.size, chunks := s.chunks ++ [s.pipe.take P.size] } := by
  have hpos := List.length_pos_iff.mpr hpipe
  refine ⟨?_, h.fits, ?_, fun hc => ?_, h.alive, fun hret => ?_⟩
  · show (s.chunks ++ [s.pipe.take P.size]).flatten ++ s.pipe.drop P.size = _
    rw [List.flatten_append, List.flatten_singleton, List.append_assoc, List.take_append_drop]
    exact h.content
  · show Cuts _ _ 0 ((s.chunks ++ [s.pipe.take P.size]).map List.length)
    rw [List.map_append, List.map_singleton, cuts_append, List.length_take]
    refine ⟨h.cuts, by omega, Nat.min_le_left .., ?_⟩
    by_cases hfull : P.size ≤ s.pipe.length
    · exact .inl (Nat.min_eq_left hfull)
    · -- the pipe is empty then, and what was written are whole messages
      refine .inr ⟨s.parent.sent P.writes, ?_⟩
      have hlength := congrArg List.length h.content
      rw [List.length_append, List.length_flatten, stream_length] at hlength
      rw [Nat.min_eq_right (by omega), Nat.zero_add, hlength, Nat.mul_comm]
  · have hchild : s.child = .close0 ∨ s.child = .exited := hc
    rw [hpc] at hchild
    rcases hchild with hchild | hchild <;> cases hchild
  · have hexited := h.returned hret
    rw [hpc] at hexited
    cases hexited

theorem stepChild (h : Inv P s) (hsize : 0 < P.size) (hn : s.stepChild P = some t) :
    Inv P t ∧ t.weight P < s.weight P := by
  have hret : ∀ u : State, u.parent = s.parent → s.child ≠ .exited → u.parent = .returned →
      u.child = .exited := fun u hu hne hreturned =>
    absurd (h.returned (hu ▸ hreturned)) hne
  unfold State.stepChild at hn
  cases hpc : s.child with
  | close1 =>
    simp only [hpc, Option.some.injEq] at hn
    subst hn
    refine ⟨⟨h.content, h.fits, h.cuts, ?_, h.alive, hret _ rfl (by rw [hpc]; nofun)⟩, ?_⟩
    · rintro (hc | hc) <;> cases hc
    · simp [State.weight, hpc, ChildPc.weight]
  | read =>
    simp only [hpc] at hn
    split at hn
    · rename_i hempty
      split at hn
      · cases hn
      · rename_i hwriter
        cases hn
        refine ⟨⟨h.content, h.fits, h.cuts, fun _ => ⟨hempty, ?_⟩, h.alive,
          hret _ rfl (by rw [hpc]; nofun)⟩, ?_⟩
        · simpa [State.hasWriter, hpc] using hwriter
        · simp [State.weight, hpc, ChildPc.weight]
    · rename_i hpipe
      cases hn
      have hpos := List.length_pos_iff.mpr hpipe
      refine ⟨by simpa only [hpc] using h.read hsize hpipe hpc, ?_⟩
      simp only [State.weight, hpc, List.length_drop]
      omega
  | close0 =>
    simp only [hpc, Option.some.injEq] at hn
    subst hn
    exact ⟨⟨h.content, h.fits, h.cuts, fun _ => h.eof (.inl hpc), h.alive, fun _ => rfl⟩,
      by simp [State.weight, hpc, ChildPc.weight]⟩
  | exited => simp [hpc] at hn

theorem step {a : Act} (h : Inv P s) (hsize : 0 < P.size) (hn : s.next P a = some t) :
    Inv P t ∧ t.weight P < s.weight P := by
  cases a with
  | parent => exact h.stepParent hn
  | child => exact h.stepChild hsize hn

theorem reach (hsize : 0 < P.size) (hs : (program P).Reach s) : Inv P s := by
  refine hs.inv (I := Inv P) ?_ fun _ _ _ _ hi hn => (hi.step hsize hn).1
  rintro _ rfl
  exact .start

/-- When both have ended, the child has read all that the parent has written. -/
theorem complete (h : Inv P s) (hended : s.Ended) : s.chunks.flatten = P.stream P.writes := by
  have hcontent := h.content
  rwa [(h.eof (.inr hended.2)).1, List.append_nil, hended.1] at hcontent

theorem goes (h : Inv P s) (hroom : P.message.length ≤ P.capacity) (hended : ¬ s.Ended) :
    ∃ a t, s.next P a = some t := by
  have hparent : s.parent.isWriter = true → s.pipe = [] → ∃ t, s.stepParent P = some t := by
    intro hwriter hempty
    unfold State.stepParent
    cases hpc : s.parent with
    | close0 | close1 => exact ⟨_, rfl⟩
    | write i =>
      by_cases hi : i < P.writes
      · simp [hi, h.hasReader hpc, hempty, hroom]
      · simp [hi]
    | wait | returned | killed =>
      rw [hpc] at hwriter
      cases hwriter
  cases hpc : s.child with
  | close1 | close0 => exact ⟨.child, by simp [State.next, State.stepChild, hpc]⟩
  | read =>
    by_cases hempty : s.pipe = []
    · cases hwriter : s.parent.isWriter with
      | true => exact ⟨.parent, hparent hwriter hempty⟩
      | false =>
        exact ⟨.child, by simp [State.next, State.stepChild, State.hasWriter, hpc, hempty, hwriter]⟩
    · exact ⟨.child, by simp [State.next, State.stepChild, hpc, hempty]⟩
  | exited =>
    obtain ⟨-, hwriter⟩ := h.eof (.inr hpc)
    cases hpc' : s.parent with
    | close0 | write i | close1 => simp [hpc', ParentPc.isWriter] at hwriter
    | wait => exact ⟨.parent, by simp [State.next, State.stepParent, hpc, hpc']⟩
    | returned => exact absurd ⟨hpc', hpc⟩ hended
    | killed => exact absurd hpc' h.alive

end Inv

/-! ## Every list of chunks -/

/-- The parent writes more messages while the child does not read. -/
theorem fill {pipe : List Byte} {chunks : List (List Byte)} (hj : j + n ≤ P.writes)
    (hroom : pipe.length + n * P.message.length ≤ P.capacity)
    (hs : (program P).Reach ⟨pipe, .write j, .read, chunks⟩) :
    (program P).Reach ⟨pipe ++ P.stream n, .write (j + n), .read, chunks⟩ := by
  induction n with
  | zero => simpa [Params.stream] using hs
  | succ n ih =>
    rw [Nat.add_mul, Nat.one_mul] at hroom
    have hlt : j + n < P.writes := by omega
    have hfree : (pipe ++ P.stream n).length + P.message.length ≤ P.capacity := by
      rw [List.length_append, stream_length]
      omega
    refine (ih (by omega) (by omega)).step (a := .parent) ?_
    simp only [program, State.next, State.stepParent, State.hasReader, if_pos hlt, if_pos hfree]
    rw [stream_add, stream_one, List.append_assoc]
    rfl

theorem take {pipe : List Byte} {p : ParentPc} {chunks : List (List Byte)} (hpipe : pipe ≠ [])
    (hs : (program P).Reach ⟨pipe, p, .read, chunks⟩) : (program P).Reach
      ⟨pipe.drop P.size, p, .read, chunks ++ [pipe.take P.size]⟩ :=
  hs.step (a := .child) (if_neg hpipe)

theorem needed (hw : 0 < w) (k : Nat) : ∃ n, k ≤ n * w ∧ n * w < k + w ∧ (k = 0 → n * w = 0) := by
  refine ⟨(k + (w - 1)) / w, ?_, ?_, fun hk => ?_⟩
  · have hlt := Nat.lt_div_mul_add (a := k + (w - 1)) hw
    omega
  · have hle := Nat.div_mul_le_self (k + (w - 1)) w
    omega
  · rw [hk, Nat.div_eq_of_lt (by omega), Nat.zero_mul]

/-- The child reads chunk after chunk, the parent writes for each what it needs. -/
theorem Cuts.reached {cs chunks : List (List Byte)} {pipe : List Byte}
    (hmessage : 0 < P.message.length) (hroom : P.size + P.message.length ≤ P.capacity)
    (hcuts : Cuts P.message.length P.size c (cs.map List.length))
    (hj : j ≤ P.writes) (hc : c + pipe.length = j * P.message.length)
    (hshort : pipe.length < P.message.length)
    (htext : pipe ++ P.stream (P.writes - j) = cs.flatten)
    (hs : (program P).Reach ⟨pipe, .write j, .read, chunks⟩) :
    (program P).Reach ⟨[], .write P.writes, .read, chunks ++ cs⟩ := by
  induction cs generalizing c j pipe chunks with
  | nil =>
    obtain ⟨rfl, hrest⟩ := List.append_eq_nil_iff.mp htext
    have hnone := congrArg List.length hrest
    rw [stream_length] at hnone
    have hzero := (Nat.mul_eq_zero.mp hnone).resolve_right (Nat.ne_of_gt hmessage)
    rw [List.append_nil, show P.writes = j by omega]
    exact hs
  | cons chunk cs ih =>
    obtain ⟨hpos, hle, hend, hcuts⟩ := hcuts
    obtain ⟨n, hlow, hhigh, hnone⟩ := needed hmessage (chunk.length - pipe.length)
    have htotal := congrArg List.length htext
    rw [List.length_append, stream_length, List.flatten_cons, List.length_append] at htotal
    have hn : j + n ≤ P.writes := by
      by_contra hmore
      have hmul := Nat.mul_le_mul_right P.message.length (show P.writes - j + 1 ≤ n by omega)
      rw [Nat.succ_mul] at hmul
      omega
    have hfilled := fill hn (by omega) hs
    -- what is in the pipe now begins with the chunk
    have hlength : (pipe ++ P.stream n).length = pipe.length + n * P.message.length := by
      rw [List.length_append, stream_length]
    have hsplit : (pipe ++ P.stream n) ++ P.stream (P.writes - (j + n)) = chunk ++ cs.flatten := by
      rw [List.append_assoc, ← stream_add, show n + (P.writes - (j + n)) = P.writes - j by omega,
        htext, List.flatten_cons]
    have hsums : (j + n) * P.message.length = c + (pipe ++ P.stream n).length := by
      rw [hlength, Nat.add_mul]
      omega
    have hread := take (List.ne_nil_of_length_pos (by omega)) hfilled
    have htake : (pipe ++ P.stream n).take P.size = chunk := by
      have hprefix : (pipe ++ P.stream n).take chunk.length = chunk := by
        rw [← List.take_append_of_le_length (by omega), hsplit, List.take_left]
      rcases hend with hfull | hdvd
      · rw [← hfull, hprefix]
      · -- as much is there as the chunk is long
        have hsame : (pipe ++ P.stream n).length = chunk.length := by
          by_contra hne
          have hless : c + chunk.length < (j + n) * P.message.length := by omega
          obtain ⟨k, hk⟩ := hdvd
          rw [hk, Nat.mul_comm] at hless
          have hmul := Nat.mul_le_mul_right P.message.length
            (Nat.succ_le_of_lt (Nat.lt_of_mul_lt_mul_right hless))
          rw [Nat.succ_mul, Nat.mul_comm] at hmul
          omega
        rw [List.take_of_length_le (by omega), ← hprefix, ← hsame, List.take_length]
    have hdrop : chunk ++ (pipe ++ P.stream n).drop P.size = pipe ++ P.stream n := by
      rw [← htake, List.take_append_drop]
    rw [htake] at hread
    rw [show chunks ++ chunk :: cs = chunks ++ [chunk] ++ cs by rw [List.append_assoc]; rfl]
    have hparts := congrArg List.length hdrop
    rw [List.length_append] at hparts
    refine ih hcuts hn (by omega) (by omega) ?_ hread
    rw [← hdrop, List.append_assoc] at hsplit
    exact List.append_cancel_left hsplit

/-- **What a reader can see**: the two processes come to their end in every run, and the lists of
chunks that the child can have read are the cuts of the stream that respect `Cuts`. -/
theorem reads_iff (P : Params) (hsize : 0 < P.size) (hmessage : 0 < P.message.length)
    (hroom : P.size + P.message.length ≤ P.capacity) :
    (∀ chunks, Reads P chunks ↔ chunks.flatten = P.stream P.writes ∧
      Cuts P.message.length P.size 0 (chunks.map List.length)) ∧
    (∀ s, (program P).Reach s → ¬ s.Ended → ∃ a t, s.next P a = some t) ∧
    ∀ as s, (program P).exec .start as = some s →
      as.length ≤ P.writes * (P.message.length + 1) + 7 := by
  refine ⟨fun chunks => ⟨?_, fun ⟨htext, hcuts⟩ => ?_⟩, fun s hs hended => ?_, fun as s hs => ?_⟩
  · rintro ⟨s, hs, hended, rfl⟩
    have hinv := Inv.reach hsize hs
    exact ⟨hinv.complete hended, hinv.cuts⟩
  · have hbegun : (program P).Reach ⟨[], .write 0, .read, []⟩ :=
      @LTS.Reach.exec _ _ (program P) _ _ [.parent, .child] (.init rfl) rfl
    have hread := hcuts.reached hmessage hroom (Nat.zero_le _) (by simp)
      (by exact hmessage) htext.symm hbegun
    have hend : (program P).Reach ⟨[], .returned, .exited, [] ++ chunks⟩ := by
      refine @LTS.Reach.exec _ _ _ _ _ [.parent, .parent, .child, .child, .parent] hread ?_
      simp [LTS.exec, program, State.next, State.stepParent, State.stepChild, State.hasWriter,
        ParentPc.isWriter]
    exact ⟨_, hend, ⟨rfl, rfl⟩, List.nil_append chunks⟩
  · exact (Inv.reach hsize hs).goes (by omega) hended
  · have hle := LTS.along_length (I := Inv P) (State.weight P)
      (fun _ _ _ hi _ hn => hi.step hsize hn) Inv.start (LTS.along_true _ as) hs
    exact Nat.le_trans (Nat.le_of_add_right_le hle) (Nat.le_of_eq (by
      simp only [State.weight, State.start, ParentPc.weight, ChildPc.weight, List.length_nil]
      omega))

/-- `08_write_sticking.c` can give one chunk, and cannot cut the stream in the middle of a
message. -/
theorem reads_sticking : Reads write_sticking [List.replicate 100 0] ∧
    ¬ Reads write_sticking [List.replicate 25 0, List.replicate 75 0] := by
  obtain ⟨hiff, -⟩ := reads_iff write_sticking (by decide) (by decide) (by decide)
  refine ⟨(hiff _).mpr ⟨by decide, by simp [Cuts, write_sticking, PIPE_BUF]⟩, fun hreads => ?_⟩
  have hcuts := ((hiff _).mp hreads).2
  simp [Cuts, write_sticking, PIPE_BUF] at hcuts

end Ops.Pipe
