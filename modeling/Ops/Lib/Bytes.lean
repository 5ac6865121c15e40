import Mathlib.Algebra.Group.Nat.Defs
import Mathlib.Algebra.Ring.Int.Defs
import Mathlib.Data.List.TakeWhile

/-!
# Bytes, C strings and 32-bit words

Memory is a list of bytes. `blit buf pos d` stores `d` at `pos`. `cstr mem` is
the C string at the start of `mem`, `none` when no NUL ends it inside `mem`;
`strncpy` and the big-endian `int32_t` conversions (`htonl`, `ntohl`) follow the
C library. `add32` is 32-bit addition in two's complement, `storeWord` and `loadWord` an
`int` in the machine's own byte order.
-/

namespace Ops

abbrev Byte := UInt8

/-! ## Stores -/

/-- `d` stored into `buf` at `pos`. -/
def blit (buf : List Byte) (pos : Nat) (d : List Byte) : List Byte :=
  buf.take pos ++ d ++ buf.drop (pos + d.length)

theorem blit_length {buf d : List Byte} {pos : Nat} (h : pos + d.length ≤ buf.length) :
    (blit buf pos d).length = buf.length := by
  simp only [blit, List.length_append, List.length_take, List.length_drop]
  omega

@[simp] theorem blit_nil (buf : List Byte) (pos : Nat) : blit buf pos [] = buf := by
  simp [blit]

theorem blit_zero (buf d : List Byte) : blit buf 0 d = d ++ buf.drop d.length := by
  simp [blit]

/-- Storing over the whole buffer leaves nothing of it. -/
theorem blit_all {buf d : List Byte} (h : buf.length ≤ d.length) : blit buf 0 d = d := by
  rw [blit_zero, List.drop_eq_nil_of_le h, List.append_nil]

/-- A store replaces the bytes it covers. -/
theorem blit_mid {a b c d : List Byte} (h : b.length = d.length) :
    blit (a ++ (b ++ c)) a.length d = a ++ (d ++ c) := by
  rw [blit, List.take_left, ← List.append_assoc a b c, List.drop_left' (by simp [h]),
    List.append_assoc]

/-- Two stores in a row are one. -/
theorem blit_blit {buf d e : List Byte} {pos : Nat} (h : pos ≤ buf.length) :
    blit (blit buf pos d) (pos + d.length) e = blit buf pos (d ++ e) := by
  have hl : (buf.take pos ++ d).length = pos + d.length := by
    simp only [List.length_append, List.length_take]; omega
  unfold blit
  rw [List.take_left' hl, List.drop_append, List.drop_of_length_le (by omega),
    List.nil_append, List.drop_drop, hl]
  simp only [List.length_append, List.append_assoc]
  congr 4
  omega

/-! ## C strings -/

/-- The C string at the start of `mem`. -/
def cstr : List Byte → Option (List Byte)
  | [] => none
  | b :: mem => if b = 0 then some [] else (cstr mem).map (b :: ·)

/-- What a C string literal or argument holds: no NUL. -/
structure CString where
  bytes : List Byte
  noNul : 0 ∉ bytes

theorem cstr_append_nul {s : List Byte} (h : 0 ∉ s) (mem : List Byte) :
    cstr (s ++ 0 :: mem) = some s := by
  induction s with
  | nil => simp [cstr]
  | cons b s ih =>
    simp only [List.mem_cons, not_or] at h
    simp [cstr, Ne.symm h.1, ih h.2]

/-- In front of a string there is no NUL. -/
theorem cstr_append {s : List Byte} (h : 0 ∉ s) (mem : List Byte) :
    cstr (s ++ mem) = (cstr mem).map (s ++ ·) := by
  induction s with
  | nil => simp
  | cons b s ih =>
    simp only [List.mem_cons, not_or] at h
    simp [cstr, Ne.symm h.1, ih h.2, Function.comp_def]

theorem cstr_eq_none {mem : List Byte} (h : 0 ∉ mem) : cstr mem = none := by
  induction mem with
  | nil => rfl
  | cons b mem ih =>
    simp only [List.mem_cons, not_or] at h
    simp [cstr, Ne.symm h.1, ih h.2]

/-- The bytes before the first NUL. -/
def upToNul (mem : List Byte) : List Byte := mem.takeWhile (· ≠ 0)

/-- `strncpy (dst, src, n)`: the bytes of `src` up to a NUL, at most `n`, padded
with NULs to `n`. -/
def strncpy (src : List Byte) (n : Nat) : List Byte :=
  let s := upToNul (src.take n)
  s ++ List.replicate (n - s.length) 0

theorem upToNul_noNul (mem : List Byte) : 0 ∉ upToNul mem := by
  intro h
  exact absurd (List.mem_takeWhile_imp h) (by decide)

theorem upToNul_eq_self {mem : List Byte} (h : 0 ∉ mem) : upToNul mem = mem := by
  unfold upToNul
  rw [List.takeWhile_eq_self_iff]
  intro b hb
  simp only [ne_eq, decide_eq_true_eq]
  rintro rfl
  exact h hb

/-- Without a NUL the string goes on behind. -/
theorem upToNul_append {m : List Byte} (h : 0 ∉ m) (r : List Byte) :
    upToNul (m ++ r) = m ++ upToNul r := by
  have hm := upToNul_eq_self h
  unfold upToNul at *
  rw [List.takeWhile_append, if_pos (by rw [hm])]

/-- Behind a NUL nothing matters. -/
theorem upToNul_append_nul {m : List Byte} (h : 0 ∈ m) (r : List Byte) :
    upToNul (m ++ r) = upToNul m := by
  unfold upToNul
  rw [List.takeWhile_append, if_neg]
  intro hlen
  have heq : upToNul m = m := (List.takeWhile_prefix _).eq_of_length hlen
  exact upToNul_noNul m (by rwa [heq])

theorem upToNul_take (mem : List Byte) (n : Nat) : upToNul (mem.take n) = (upToNul mem).take n := by
  unfold upToNul
  rw [List.take_takeWhile]

/-- What stands behind the string that was cut out. -/
theorem upToNul_next (mem : List Byte) :
    (upToNul mem).length = mem.length ∨ mem[(upToNul mem).length]? = some 0 := by
  induction mem with
  | nil => exact .inl rfl
  | cons b mem ih =>
    by_cases hb : b = 0
    · right; simp [upToNul, hb]
    · simpa [upToNul, hb] using ih

/-- A copy with its last byte forced to NUL is a string: the source's, cut to fit. -/
theorem cstr_copy (src : List Byte) (n : Nat) :
    cstr ((strncpy src (n + 1)).set n 0) = some (upToNul (src.take n)) := by
  have hno : 0 ∉ upToNul (src.take n) := upToNul_noNul _
  simp only [strncpy]
  rw [upToNul_take] at hno ⊢
  rw [upToNul_take]
  generalize upToNul src = s at *
  rcases Nat.lt_or_ge n s.length with h | h
  · -- the string is cut
    have hlen : (s.take (n + 1)).length = n + 1 := by rw [List.length_take]; omega
    rw [hlen, Nat.sub_self, List.replicate_zero, List.append_nil, List.take_succ_eq_append_getElem h,
      List.set_append_right _ _ (by rw [List.length_take]; omega)]
    have hat : n - (s.take n).length = 0 := by rw [List.length_take]; omega
    rw [hat, List.set_cons_zero]
    exact cstr_append_nul hno []
  · -- the string ends before, in the padding
    rw [List.take_of_length_le h] at hno ⊢
    rw [List.take_of_length_le (by omega), List.set_append_right _ _ h]
    obtain ⟨k, hk⟩ : ∃ k, n + 1 - s.length = k + 1 := ⟨n - s.length, by omega⟩
    have hset : (List.replicate (k + 1) (0 : Byte)).set (n - s.length) 0 =
        List.replicate (k + 1) 0 := by
      rw [List.set_replicate_self]
    rw [hk, hset, List.replicate_succ]
    exact cstr_append_nul hno _

/-! ## 32-bit integers -/

/-- `a + b` on `int32_t`, in two's complement. -/
def add32 (a b : Int) : Int := (BitVec.ofInt 32 (a + b)).toInt

theorem add32_eq {a b : Int} (h : -2 ^ 31 ≤ a + b) (h' : a + b < 2 ^ 31) : add32 a b = a + b := by
  rw [add32, BitVec.toInt_ofInt, Int.bmod_def]
  split <;> omega

/-- The `int32_t` with the low 32 bits of `v`. -/
def wrap32 (v : Int) : Int := (BitVec.ofInt 32 v).toInt

theorem wrap32_range (v : Int) : -2 ^ 31 ≤ wrap32 v ∧ wrap32 v < 2 ^ 31 := by
  rw [wrap32, BitVec.toInt_ofInt, Int.bmod_def]
  omega

/-- `a - b` and `a * b` on `int32_t`, in two's complement. -/
def sub32 (a b : Int) : Int := wrap32 (a - b)

def mul32 (a b : Int) : Int := wrap32 (a * b)

theorem wrap32_eq {v : Int} (h : -2 ^ 31 ≤ v) (h' : v < 2 ^ 31) : wrap32 v = v := by
  rw [wrap32, BitVec.toInt_ofInt, Int.bmod_def]
  split <;> omega

/-- The unsigned big-endian value of the first four bytes. -/
def word (mem : List Byte) : Nat :=
  2 ^ 24 * (mem.getD 0 0).toNat + 2 ^ 16 * (mem.getD 1 0).toNat + 2 ^ 8 * (mem.getD 2 0).toNat +
    (mem.getD 3 0).toNat

/-- `ntohl` of the four bytes at the start of `mem`, as an `int32_t`. -/
def ntohl (mem : List Byte) : Int := (BitVec.ofNat 32 (word mem)).toInt

/-- The first byte carries the sign. -/
theorem ntohl_eq (mem : List Byte) :
    ntohl mem = word mem - if (mem.getD 0 0).toNat < 128 then 0 else 2 ^ 32 := by
  have h0 := (mem.getD 0 0).toNat_lt
  have h1 := (mem.getD 1 0).toNat_lt
  have h2 := (mem.getD 2 0).toNat_lt
  have h3 := (mem.getD 3 0).toNat_lt
  have hsmall : word mem < 2 ^ 32 := by unfold word; omega
  have hsign : word mem < 2 ^ 31 ↔ (mem.getD 0 0).toNat < 128 := by unfold word; omega
  unfold ntohl
  rw [BitVec.toInt_ofNat', Int.bmod_def]
  by_cases h : (mem.getD 0 0).toNat < 128
  · rw [if_pos h, if_pos (by omega)]; omega
  · rw [if_neg h, if_neg (by omega)]; omega

/-- Only the first four bytes matter. -/
theorem ntohl_congr {m m' : List Byte} (h : ∀ i < 4, m.getD i 0 = m'.getD i 0) :
    ntohl m = ntohl m' := by
  unfold ntohl word
  rw [h 0 (by omega), h 1 (by omega), h 2 (by omega), h 3 (by omega)]

/-- With the same sign, larger bytes make a larger number. -/
theorem ntohl_mono {m m' : List Byte} (h0 : m.getD 0 0 = m'.getD 0 0)
    (h : ∀ i, (m.getD i 0).toNat ≤ (m'.getD i 0).toNat) : ntohl m ≤ ntohl m' := by
  have h1 := h 1
  have h2 := h 2
  have h3 := h 3
  rw [ntohl_eq, ntohl_eq, h0]
  simp only [word, h0]
  omega

/-- The four bytes in memory of `htonl` of the `int32_t` `n`. -/
def htonl (n : Int) : List Byte :=
  let w := (n % 2 ^ 32).toNat
  [.ofNat (w / 2 ^ 24), .ofNat (w / 2 ^ 16 % 256), .ofNat (w / 2 ^ 8 % 256), .ofNat (w % 256)]

@[simp] theorem htonl_length (n : Int) : (htonl n).length = 4 := rfl

theorem word_htonl (n : Int) (mem : List Byte) :
    word (htonl n ++ mem) = (n % 2 ^ 32).toNat := by
  have h : (n % 2 ^ 32).toNat < 2 ^ 32 := by omega
  simp only [word, htonl, List.cons_append, List.nil_append, List.getD_cons_zero,
    List.getD_cons_succ, UInt8.toNat_ofNat']
  omega

theorem ntohl_htonl {n : Int} (h : -2 ^ 31 ≤ n) (h' : n < 2 ^ 31) (mem : List Byte) :
    ntohl (htonl n ++ mem) = n := by
  rw [ntohl, word_htonl, BitVec.toInt_ofNat', Int.bmod_def]
  split <;> omega

/-- Of any number, the low 32 bits are sent. -/
theorem ntohl_htonl_wrap (n : Int) (mem : List Byte) : ntohl (htonl n ++ mem) = wrap32 n := by
  rw [ntohl, word_htonl, wrap32, BitVec.toInt_ofNat', BitVec.toInt_ofInt, Int.bmod_def, Int.bmod_def]
  omega

theorem htonl_inj {m n : Int} (hm : -2 ^ 31 ≤ m) (hm' : m < 2 ^ 31) (hn : -2 ^ 31 ≤ n)
    (hn' : n < 2 ^ 31) (h : htonl m = htonl n) : m = n := by
  rw [← ntohl_htonl hm hm' [], h, ntohl_htonl hn hn']

/-! ## Native words -/

/-- The four bytes in memory of an `int`, the lowest first. -/
def storeWord (w : BitVec 32) : List Byte :=
  [.ofNat (w.toNat % 256), .ofNat (w.toNat / 2 ^ 8 % 256), .ofNat (w.toNat / 2 ^ 16 % 256),
    .ofNat (w.toNat / 2 ^ 24)]

/-- The `int` at the start of `mem`. -/
def loadWord (mem : List Byte) : BitVec 32 :=
  BitVec.ofNat 32 ((mem.getD 0 0).toNat + 2 ^ 8 * (mem.getD 1 0).toNat +
    2 ^ 16 * (mem.getD 2 0).toNat + 2 ^ 24 * (mem.getD 3 0).toNat)

@[simp] theorem storeWord_length (w : BitVec 32) : (storeWord w).length = 4 := rfl

theorem loadWord_storeWord (w : BitVec 32) (mem : List Byte) :
    loadWord (storeWord w ++ mem) = w := by
  have hw : w.toNat < 2 ^ 32 := w.isLt
  apply BitVec.eq_of_toNat_eq
  simp only [loadWord, storeWord, List.cons_append, List.nil_append, List.getD_cons_zero,
    List.getD_cons_succ, UInt8.toNat_ofNat', BitVec.toNat_ofNat]
  omega

end Ops
