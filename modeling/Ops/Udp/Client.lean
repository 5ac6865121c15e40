import Ops.Lib.Blocks
import Ops.Posix.Bulk
import Ops.Udp.Server

/-!
# The UDP file client (`2_client.c`)

`doClient` with `sendAndConfirm` opened up: the client is at the head of its
outer loop (`read`), about to send (`send`), waiting in `recv` (`wait`), or out
of its loops. `datagram f k` is the datagram that carries chunk `k` of a file
`f`; `readChunk_datagram` shows that the buffer holds it after the `k`-th round.

`++chunkNo` overflows in the round after chunk `2^31 - 1`; that is undefined, and
the model has no step there.
-/

namespace Ops.Udp

open Ops.Posix

abbrev payloadSize : Nat := maxBuf - offset

inductive ClientPc where
  | read
  | send
  | wait
  | done
  | gaveUp
  | exited
  deriving DecidableEq, Repr

/-- `doClient`'s variables; `file` is what is left to read. -/
structure Client where
  pc : ClientPc
  file : List Byte
  buf : List Byte
  buf2 : List Byte
  chunkNo : Int
  last : Int
  size : Nat
  tries : Nat
  deriving DecidableEq

/-- The outer loop down to `counter = 0`, with the outcomes `rs` of the `read`s of
`bulk_read`. -/
def Client.readChunk (c : Client) (rs : List ReadOutcome) : Option Client :=
  match bulkRead rs ⟨c.file, true⟩ c.buf offset 0 payloadSize with
  | none => none
  | some ⟨.error _, buf, file⟩ => some { c with pc := .exited, buf := buf, file := file }
  | some ⟨.ok size, buf, file⟩ =>
    if c.chunkNo < 2 ^ 31 - 1 then
      let chunkNo := c.chunkNo + 1
      let buf := blit buf 0 (htonl chunkNo)
      let last := if size < payloadSize then 1 else c.last
      let buf := if size < payloadSize then
        blit buf (offset + size) (List.replicate (payloadSize - size) 0) else buf
      let buf := blit buf 4 (htonl last)
      some ⟨.send, file, buf, List.replicate maxBuf 0, chunkNo, last, size, 0⟩
    else none

def Client.send (c : Client) : Client := { c with pc := .wait, tries := c.tries + 1 }

/-- The tests after `sendAndConfirm`: try again, give up, or go on. -/
def Client.confirm (c : Client) : Client :=
  if c.buf2.take 4 ≠ htonl c.chunkNo then
    { c with pc := if c.tries ≤ 5 then .send else .gaveUp }
  else { c with pc := if c.size = payloadSize then .read else .done }

def Client.recv (c : Client) (d : List Byte) : Client :=
  { c with buf2 := blit c.buf2 0 d }.confirm

/-- `recv` is interrupted by the alarm. -/
def Client.timeout (c : Client) : Client := c.confirm

/-- `doClient` on `file`, its arrays as the stack left them. -/
def Client.Start (file : List Byte) (c : Client) : Prop :=
  c.pc = .read ∧ c.file = file ∧ c.chunkNo = 0 ∧ c.last = 0 ∧ c.buf.length = maxBuf ∧
    c.buf2.length = maxBuf

/-! ## The chunks of a file -/

/-- The bytes of chunk `k` (from 1), padded with zeros. -/
def payload (f : List Byte) (k : Nat) : List Byte :=
  let p := block payloadSize f (k - 1)
  p ++ List.replicate (payloadSize - p.length) 0

def isLast (f : List Byte) (k : Nat) : Bool := f.length < payloadSize * k

def chunkCount (f : List Byte) : Nat := f.length / payloadSize + 1

def datagram (f : List Byte) (k : Nat) : List Byte :=
  htonl k ++ (htonl (if isLast f k then 1 else 0) ++ payload f k)

/-- What a server that prints chunk `k` prints. -/
def part (f : List Byte) (k : Nat) : Part := ⟨isLast f k, k, payload f k⟩

def parts (f : List Byte) (n : Nat) : List Part := (List.range n).map fun i => part f (i + 1)

@[simp] theorem payload_length (f : List Byte) (k : Nat) : (payload f k).length = payloadSize := by
  simp only [payload, List.length_append, List.length_replicate, block_length]
  omega

@[simp] theorem datagram_length (f : List Byte) (k : Nat) : (datagram f k).length = maxBuf := by
  simp only [datagram, List.length_append, htonl_length, payload_length]
  rfl

theorem isLast_iff {f : List Byte} {k : Nat} : isLast f k = true ↔ chunkCount f ≤ k := by
  have hp : payloadSize = 568 := rfl
  simp only [isLast, chunkCount, decide_eq_true_eq, hp]
  omega

@[simp] theorem parts_length (f : List Byte) (n : Nat) : (parts f n).length = n := by simp [parts]

theorem parts_succ (f : List Byte) (n : Nat) : parts f (n + 1) = parts f n ++ [part f (n + 1)] := by
  simp [parts, List.range_succ]

theorem parts_mono (f : List Byte) {m n : Nat} (h : m ≤ n) : parts f m <+: parts f n := by
  induction n with
  | zero => exact Nat.le_zero.mp h ▸ List.prefix_rfl
  | succ n ih =>
    rcases Nat.lt_or_ge m (n + 1) with hm | hm
    · rw [parts_succ]
      exact (ih (by omega)).trans (List.prefix_append ..)
    · exact Nat.le_antisymm h hm ▸ List.prefix_rfl

theorem mem_parts {f : List Byte} {n : Nat} {p : Part} :
    p ∈ parts f n ↔ ∃ k, 1 ≤ k ∧ k ≤ n ∧ p = part f k := by
  simp only [parts, List.mem_map, List.mem_range]
  constructor
  · rintro ⟨i, hi, rfl⟩
    exact ⟨i + 1, by omega, by omega, rfl⟩
  · rintro ⟨k, h1, h2, rfl⟩
    exact ⟨k - 1, by omega, by rw [Nat.sub_add_cancel h1]⟩

theorem ntohl_datagram (f : List Byte) {k : Nat} (hk : k < 2 ^ 31) : ntohl (datagram f k) = k :=
  ntohl_htonl (by omega) (by omega) _

theorem ntohl_datagram_last (f : List Byte) (k : Nat) :
    ntohl ((datagram f k).drop 4) = if isLast f k then 1 else 0 := by
  rw [datagram, List.drop_left' (htonl_length _)]
  split <;> exact ntohl_htonl (by omega) (by omega) _

theorem datagram_payload (f : List Byte) (k : Nat) : (datagram f k).drop offset = payload f k := by
  rw [datagram, ← List.append_assoc, List.drop_left']
  rfl

/-- The three stores after `bulk_read` make a datagram of the buffer: the number,
the padding and the mark of the last chunk. -/
theorem stores_datagram {buf p : List Byte} (no last : Int) (hbuf : buf.length = maxBuf)
    (hp : p.length ≤ payloadSize) :
    let buf := blit (blit buf offset p) 0 (htonl no)
    let buf := if p.length < payloadSize then
      blit buf (offset + p.length) (List.replicate (payloadSize - p.length) 0) else buf
    blit buf 4 (htonl last) =
      htonl no ++ (htonl last ++ (p ++ List.replicate (payloadSize - p.length) 0)) := by
  have h576 : maxBuf = 576 := rfl
  have h568 : payloadSize = 568 := rfl
  -- the buffer in four pieces: the number, the mark, the data and the padding
  obtain ⟨a, b, x, y, rfl, ha, hb, hx⟩ : ∃ a b x y : List Byte, buf = a ++ (b ++ (x ++ y)) ∧
      a.length = 4 ∧ b.length = 4 ∧ x.length = p.length := by
    refine ⟨buf.take 4, (buf.drop 4).take 4, ((buf.drop 4).drop 4).take p.length,
      ((buf.drop 4).drop 4).drop p.length, by simp only [List.take_append_drop], ?_, ?_, ?_⟩ <;>
      simp only [List.length_take, List.length_drop] <;> omega
  have hy : y.length = payloadSize - p.length := by
    simp only [List.length_append] at hbuf; omega
  have h1 : blit (a ++ (b ++ (x ++ y))) offset p = a ++ (b ++ (p ++ y)) := by
    have := blit_mid (a := a ++ b) (c := y) hx
    rwa [List.append_assoc, List.append_assoc, List.length_append, ha, hb] at this
  have h2 : blit (a ++ (b ++ (p ++ y))) 0 (htonl no) = htonl no ++ (b ++ (p ++ y)) := by
    exact blit_mid (a := []) (ha.trans (htonl_length no).symm)
  have h4 : ∀ z, blit (htonl no ++ (b ++ z)) 4 (htonl last) = htonl no ++ (htonl last ++ z) :=
    fun z => blit_mid (a := htonl no) (hb.trans (htonl_length last).symm)
  intro buf1 buf2
  have e1 : buf1 = htonl no ++ (b ++ (p ++ y)) := by rw [← h2, ← h1]
  have e2 : buf2 = htonl no ++ (b ++ (p ++ List.replicate (payloadSize - p.length) 0)) := by
    by_cases hlt : p.length < payloadSize
    · have h3 := blit_mid (a := htonl no ++ (b ++ p)) (c := [])
        (hy.trans (List.length_replicate (a := (0 : Byte))).symm)
      simp only [List.append_assoc, List.append_nil, List.length_append, htonl_length, hb] at h3
      simp only [buf2, if_pos hlt, e1]
      rw [show offset + p.length = 4 + (4 + p.length) by simp only [offset]; omega]
      exact h3
    · have hy0 : y = [] := List.eq_nil_of_length_eq_zero (by omega)
      simp only [buf2, if_neg hlt, e1, hy0]
      rw [show payloadSize - p.length = 0 by omega, List.replicate_zero]
  rw [e2, h4]

/-- The outer loop's round that reads chunk `k + 1` makes its datagram. -/
theorem readChunk_datagram {f : List Byte} {k : Nat} {c c' : Client} {rs : List ReadOutcome}
    (hfile : c.file = f.drop (payloadSize * k)) (hno : c.chunkNo = k) (hlast : c.last = 0)
    (hbuf : c.buf.length = maxBuf) (h : c.readChunk rs = some c') (hpc : c'.pc ≠ .exited) :
    k + 1 < 2 ^ 31 ∧ c'.pc = .send ∧ c'.file = f.drop (payloadSize * (k + 1)) ∧
      c'.buf = datagram f (k + 1) ∧ c'.buf2 = List.replicate maxBuf 0 ∧
      c'.chunkNo = (k + 1 : Nat) ∧ c'.last = (if isLast f (k + 1) then 1 else 0) ∧
      (c'.size = payloadSize ↔ isLast f (k + 1) = false) := by
  have h576 : maxBuf = 576 := rfl
  have h8 : offset = 8 := rfl
  simp only [Client.readChunk] at h
  split at h
  · cases h
  · cases h; exact absurd rfl hpc
  · rename_i size buf file hr
    split at h
    · rename_i hmax
      cases h
      obtain ⟨h1, h2, h3, -⟩ := bulkRead_ok (by omega) hr
      simp only at h1 h2 h3
      have hblock : c.file.take payloadSize = block payloadSize f k := by rw [hfile]; rfl
      rw [hblock, Nat.zero_add] at h1
      rw [hblock] at h2
      have hle : size ≤ payloadSize := by rw [h1, block_length]; omega
      have hl : isLast f (k + 1) = decide (size < payloadSize) := by
        rw [h1, block_length, isLast, Nat.mul_succ, decide_eq_decide]
        have : payloadSize = 568 := rfl
        omega
      have hmark : (if size < payloadSize then 1 else c.last) =
          if isLast f (k + 1) then (1 : Int) else 0 := by
        simp only [hl, hlast, decide_eq_true_eq]
      refine ⟨by omega, rfl, ?_, ?_, rfl, by simp only [hno]; omega, hmark, ?_⟩
      · rw [h3, hfile, List.drop_drop, Nat.mul_succ]
      · have := stores_datagram (c.chunkNo + 1) (if isLast f (k + 1) then 1 else 0) hbuf
          (p := block payloadSize f k) (by omega)
        rw [← h1] at this
        simp only [hmark, h2]
        rw [this, hno, h1]
        rfl
      · simp only [hl, decide_eq_false_iff_not]; omega
    · cases h

end Ops.Udp
