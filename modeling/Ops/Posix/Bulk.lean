import Ops.Lib.Bytes

/-!
# `bulk_read` and `bulk_write`

The two loops of `common.h`. A call is given the outcomes of its system calls in
order: `read` is interrupted, fails, or hands over at most `n + 1` bytes of what
the stream holds. `none` is a call that has not returned: the outcomes are used
up, or `read` waits for a peer that may still send. `bulkRead_ok` and
`bulkWrite_ok` say what a call that returns has done, whatever the pieces.
-/

namespace Ops.Posix

/-- The error numbers the callers tell apart. -/
inductive Errno where
  | eagain
  | epipe
  | other
  deriving DecidableEq, Repr

/-- A byte stream at its reader: what is left, and whether its end is known. -/
structure Stream where
  bytes : List Byte
  eof : Bool
  deriving DecidableEq, Repr

inductive ReadOutcome where
  | eintr
  | error (e : Errno)
  | data (n : Nat)
  deriving DecidableEq, Repr

inductive WriteOutcome where
  | eintr
  | error (e : Errno)
  | wrote (n : Nat)
  deriving DecidableEq, Repr

/-- What `bulk_read` returns, the memory behind `buf` and the bytes left unread. -/
structure ReadResult where
  ret : Except Errno Nat
  buf : List Byte
  rest : List Byte

/-- `bulk_read`, storing at `pos`; `len` bytes are read, `count` are wanted. -/
def bulkRead : List ReadOutcome → Stream → List Byte → Nat → Nat → Nat → Option ReadResult
  | [], _, _, _, _, _ => none
  | .eintr :: rs, s, buf, pos, len, count => bulkRead rs s buf pos len count
  | .error e :: _, s, buf, _, _, _ => some ⟨.error e, buf, s.bytes⟩
  | .data n :: rs, s, buf, pos, len, count =>
    let got := s.bytes.take (min (n + 1) count)
    if got = [] then
      -- nothing to hand over: end of stream, an empty request, or a wait
      if s.eof ∨ count = 0 then some ⟨.ok len, buf, s.bytes⟩ else none
    else
      let c := got.length
      if count - c > 0 then
        bulkRead rs ⟨s.bytes.drop c, s.eof⟩ (blit buf pos got) (pos + c) (len + c) (count - c)
      else some ⟨.ok (len + c), blit buf pos got, s.bytes.drop c⟩

/-- `bulk_write` of the `count` bytes at `buf`; `out` is what the peer was sent. -/
def bulkWrite : List WriteOutcome → List Byte → Nat → Nat → List Byte →
    Option (Except Errno Nat × List Byte)
  | [], _, _, _, _ => none
  | .eintr :: ws, buf, len, count, out => bulkWrite ws buf len count out
  | .error e :: _, _, _, _, out => some (.error e, out)
  | .wrote n :: ws, buf, len, count, out =>
    let c := min (n + 1) count
    if count - c > 0 then bulkWrite ws (buf.drop c) (len + c) (count - c) (out ++ buf.take c)
    else some (.ok (len + c), out ++ buf.take c)

/-- A piece of at most `k` bytes and what is still wanted after it. -/
theorem take_piece (l : List Byte) {k count : Nat} (hk : k ≤ count) :
    l.take count = l.take k ++ (l.drop (l.take k).length).take (count - (l.take k).length) := by
  by_cases h : k ≤ l.length
  · rw [List.length_take, Nat.min_eq_left h, ← List.take_add, Nat.add_sub_cancel' hk]
  · rw [List.take_of_length_le (by omega), List.take_of_length_le (by omega),
      List.drop_of_length_le (by omega), List.take_nil, List.append_nil]

/-- A `bulk_read` that returns a length has stored the next `count` bytes, or all
of them up to the end of the stream. -/
theorem bulkRead_ok {rs : List ReadOutcome} {s : Stream} {buf : List Byte} {pos len count n : Nat}
    {buf' rest : List Byte} (hpos : pos ≤ buf.length)
    (h : bulkRead rs s buf pos len count = some ⟨.ok n, buf', rest⟩) :
    n = len + (s.bytes.take count).length ∧ buf' = blit buf pos (s.bytes.take count) ∧
      rest = s.bytes.drop count ∧ (s.bytes.length < count → s.eof = true) := by
  induction rs generalizing s buf pos len count with
  | nil => cases h
  | cons r rs ih =>
    cases r with
    | eintr => exact ih hpos h
    | error e => cases h
    | data m =>
      simp only [bulkRead] at h
      have hpiece := take_piece s.bytes (Nat.min_le_right (m + 1) count)
      generalize hk : min (m + 1) count = k at h hpiece
      have hlen : (s.bytes.take k).length ≤ count := by rw [List.length_take]; omega
      split at h
      · rename_i hgot
        -- an empty piece: the stream has ended or nothing was asked for
        split at h
        · rename_i hend
          cases h
          have hempty : s.bytes = [] ∨ count = 0 := by
            rcases List.take_eq_nil_iff.mp hgot with h0 | h0
            · right; omega
            · exact .inl h0
          refine ⟨?_, ?_, ?_, fun hlt => hend.resolve_right (by omega)⟩ <;>
            rcases hempty with h0 | h0 <;> simp [h0]
        · cases h
      · split at h
        · rename_i hcount
          -- a proper piece: the next rounds read the rest
          have hpos' : pos + (s.bytes.take k).length ≤ (blit buf pos (s.bytes.take k)).length := by
            simp only [blit, List.length_append, List.length_take]; omega
          obtain ⟨h1, h2, h3, h4⟩ := ih hpos' h
          refine ⟨?_, ?_, ?_, fun hlt => h4 ?_⟩
          · rw [h1, hpiece, List.length_append, Nat.add_assoc]
          · rw [h2, blit_blit hpos, ← hpiece]
          · rw [h3, List.drop_drop, Nat.add_sub_cancel' hlen]
          · simp only [List.length_drop]; omega
        · rename_i hcount
          cases h
          have heq : (s.bytes.take k).length = count := by omega
          have hkc : k = count := by rw [List.length_take] at heq; omega
          subst hkc
          exact ⟨rfl, rfl, by rw [heq], fun hlt => by rw [List.length_take] at heq; omega⟩

/-- With enough bytes, or the end of the stream, two whole pieces do: the second
one meets the end of a short stream. -/
theorem bulkRead_whole {s : Stream} {m k : Nat} (hs : s.eof = true ∨ k ≤ s.bytes.length)
    (hm : k ≤ m + 1) (buf : List Byte) (pos len : Nat) :
    ∃ n buf' rest, bulkRead [.data m, .data m] s buf pos len k = some ⟨.ok n, buf', rest⟩ := by
  simp only [bulkRead, Nat.min_eq_right hm]
  by_cases hgot : s.bytes.take k = []
  · have hend : s.eof = true ∨ k = 0 := by
      rcases hs with hs | hs
      · exact .inl hs
      · rcases List.take_eq_nil_iff.mp hgot with h0 | h0
        · exact .inr h0
        · rw [h0] at hs; exact .inr (Nat.le_zero.mp hs)
    rw [if_pos hgot, if_pos hend]
    exact ⟨_, _, _, rfl⟩
  · rw [if_neg hgot]
    split
    · rename_i hcount
      have hlen : (s.bytes.take k).length = min k s.bytes.length := List.length_take
      have heof : s.eof = true := hs.resolve_right (by omega)
      have hdrop : s.bytes.drop (s.bytes.take k).length = [] := List.drop_eq_nil_of_le (by omega)
      simp only [hdrop, List.take_nil, if_true, heof, true_or]
      exact ⟨_, _, _, rfl⟩
    · exact ⟨_, _, _, rfl⟩

theorem bulkRead_error {rs : List ReadOutcome} {s : Stream} {buf : List Byte} {pos len count : Nat}
    {e : Errno} {buf' rest : List Byte}
    (h : bulkRead rs s buf pos len count = some ⟨.error e, buf', rest⟩) : .error e ∈ rs := by
  induction rs generalizing s buf pos len count with
  | nil => cases h
  | cons r rs ih =>
    cases r with
    | eintr => exact List.mem_cons_of_mem _ (ih h)
    | error e' => cases h; exact List.mem_cons_self
    | data m =>
      simp only [bulkRead] at h
      split at h
      · split at h <;> cases h
      · split at h
        · exact List.mem_cons_of_mem _ (ih h)
        · cases h

/-- A `bulk_write` that returns a length has sent exactly the `count` bytes. -/
theorem bulkWrite_ok {ws : List WriteOutcome} {buf out out' : List Byte} {len count n : Nat}
    (h : bulkWrite ws buf len count out = some (.ok n, out')) :
    n = len + count ∧ out' = out ++ buf.take count := by
  induction ws generalizing buf len count out with
  | nil => cases h
  | cons w ws ih =>
    cases w with
    | eintr => exact ih h
    | error e => cases h
    | wrote m =>
      simp only [bulkWrite] at h
      split at h
      · rename_i hcount
        obtain ⟨h1, h2⟩ := ih h
        refine ⟨by omega, ?_⟩
        rw [h2, List.append_assoc, ← List.take_add, Nat.add_sub_cancel' (by omega)]
      · rename_i hcount
        cases h
        rw [show min (m + 1) count = count by omega]
        exact ⟨rfl, rfl⟩

theorem bulkWrite_error {ws : List WriteOutcome} {buf out out' : List Byte} {len count : Nat}
    {e : Errno} (h : bulkWrite ws buf len count out = some (.error e, out')) : .error e ∈ ws := by
  induction ws generalizing buf len count out with
  | nil => cases h
  | cons w ws ih =>
    cases w with
    | eintr => exact List.mem_cons_of_mem _ (ih h)
    | error e' => cases h; exact List.mem_cons_self
    | wrote m =>
      simp only [bulkWrite] at h
      split at h
      · exact List.mem_cons_of_mem _ (ih h)
      · cases h

theorem bulkWrite_whole {m k : Nat} (hm : k ≤ m + 1) (buf : List Byte) :
    bulkWrite [.wrote m] buf 0 k [] = some (.ok k, buf.take k) := by
  simp [bulkWrite, Nat.min_eq_right hm]

end Ops.Posix
