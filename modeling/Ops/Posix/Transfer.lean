import Ops.Lib.Transition
import Ops.Posix.Bulk

/-!
# The loops of `bulk_read` and `bulk_write` on machine words

The copies differ in the type of the partial count `c`, `int` or `ssize_t`, and of `len`, `size_t`
or `ssize_t`. A step is one `read` or `write`. Linux moves at most `maxTransfer` bytes in one of
them, which fits into an `int`, so that all copies compute `bulkRead` and `bulkWrite`
(`Reading.computes`, `Writing.computes`). What is written on one side arrives on the other
(`bulk_transfer`).
-/

namespace Ops.Posix

/-- The type of `c`: `int` in `common.h` and `example.c`, `ssize_t` in `prog16b.c`. -/
inductive CType where
  | int
  | ssize
  deriving DecidableEq

/-- `c = r`, as the 64-bit value that `c` is promoted to wherever it is used. -/
def CType.assign : CType → BitVec 64 → BitVec 64
  | .int, r => (r.setWidth 32).signExtend 64
  | .ssize, r => r

/-- The most that Linux moves in one `read` or `write`. -/
def maxTransfer : Nat := 0x7ffff000

/-- Memory behind a pointer. No object has more than `PTRDIFF_MAX` bytes. -/
structure Object where
  bytes : List Byte
  fits : bytes.length < 2 ^ 63

/-- `read (fd, buf, count)`, if it is not interrupted. `none`: it waits. -/
def Stream.read (s : Stream) (n count : Nat) : Option (List Byte) :=
  let got := s.bytes.take (min (n + 1) (min count maxTransfer))
  if got = [] ∧ ¬ (s.eof = true ∨ count = 0) then none else some got

/-! ## `bulk_read` -/

/-- The variables of `bulk_read` with `buf` pointing to `pos` in its memory, what `fd` is open to,
and what has been returned. A `len` of either type has the same 64 bits. -/
structure Reading where
  buf : List Byte
  pos : Nat
  len : BitVec 64
  count : BitVec 64
  stream : Stream
  errno : Option Errno
  ret : Option (BitVec 64)

/-- The rest of the loop's body when `read` has returned `r`. -/
def Reading.body (k : CType) (s : Reading) (r : BitVec 64) : Reading :=
  let c := k.assign r
  if c.slt 0 then { s with ret := some c }
  else if c = 0 then { s with ret := some s.len }
  else
    let s := { s with pos := s.pos + c.toNat, len := s.len + c, count := s.count - c }
    if s.count > 0 then s else { s with ret := some s.len }

/-- One call of `read`. After `EINTR` it is called again. -/
def Reading.next (k : CType) (s : Reading) (o : ReadOutcome) : Option Reading :=
  if s.ret.isSome then none
  else match o with
  | .eintr => some s
  | .error e => some ({ s with errno := some e }.body k (-1))
  | .data n => (s.stream.read n s.count.toNat).map fun got =>
    { s with
      buf := blit s.buf s.pos got
      stream := ⟨s.stream.bytes.drop got.length, s.stream.eof⟩ }.body k (.ofNat 64 got.length)

/-- The call `bulk_read (fd, mem + pos, count)`. -/
def Reading.start (mem : Object) (pos count : Nat) (stream : Stream) : Reading :=
  ⟨mem.bytes, pos, 0, .ofNat 64 count, stream, none, none⟩

def reading (k : CType) : LTS Reading ReadOutcome where
  Init s := ∃ mem pos count stream, s = .start mem pos count stream
  next := Reading.next k

/-! ## `bulk_write` -/

/-- The variables of `bulk_write`, and in `out` what has been written to `fd`. -/
structure Writing where
  buf : List Byte
  pos : Nat
  len : BitVec 64
  count : BitVec 64
  out : List Byte
  errno : Option Errno
  ret : Option (BitVec 64)

def Writing.body (k : CType) (s : Writing) (r : BitVec 64) : Writing :=
  let c := k.assign r
  if c.slt 0 then { s with ret := some c }
  else
    let s := { s with pos := s.pos + c.toNat, len := s.len + c, count := s.count - c }
    if s.count > 0 then s else { s with ret := some s.len }

/-- One call of `write`. -/
def Writing.next (k : CType) (s : Writing) (o : WriteOutcome) : Option Writing :=
  if s.ret.isSome then none
  else match o with
  | .eintr => some s
  | .error e => some ({ s with errno := some e }.body k (-1))
  | .wrote n =>
    let w := min (n + 1) (min s.count.toNat maxTransfer)
    some ({ s with out := s.out ++ (s.buf.drop s.pos).take w }.body k (.ofNat 64 w))

/-- The call `bulk_write (fd, mem + pos, count)`. -/
def Writing.start (mem : Object) (pos count : Nat) : Writing :=
  ⟨mem.bytes, pos, 0, .ofNat 64 count, [], none, none⟩

def writing (k : CType) : LTS Writing WriteOutcome where
  Init s := ∃ mem pos count, s = .start mem pos count
  next := Writing.next k

/-! ## Words -/

/-- The number of bytes moved survives the assignment to `c`. -/
theorem CType.assign_moved (k : CType) {n : Nat} (h : n ≤ maxTransfer) :
    k.assign (.ofNat 64 n) = .ofNat 64 n := by
  have hmax : maxTransfer < 2 ^ 31 := by decide
  cases k with
  | ssize => rfl
  | int =>
    have hn : ((BitVec.ofNat 64 n).setWidth 32).toNat = n := by
      rw [BitVec.toNat_setWidth, BitVec.toNat_ofNat, Nat.mod_eq_of_lt (by omega),
        Nat.mod_eq_of_lt (by omega)]
    have hmsb : ((BitVec.ofNat 64 n).setWidth 32).msb = false :=
      BitVec.msb_eq_false_iff_two_mul_lt.mpr (by omega)
    apply BitVec.eq_of_toNat_eq
    show (((BitVec.ofNat 64 n).setWidth 32).signExtend 64).toNat = _
    rw [BitVec.signExtend_eq_setWidth_of_msb_false hmsb, BitVec.toNat_setWidth_of_le (by decide),
      hn, BitVec.toNat_ofNat, Nat.mod_eq_of_lt (by omega)]

theorem moved_not_neg {n : Nat} (h : n ≤ maxTransfer) : ¬ (BitVec.ofNat 64 n).slt 0 := by
  have hmax : maxTransfer < 2 ^ 31 := by decide
  show ¬ (BitVec.ofNat 64 n).slt 0#64
  rw [BitVec.slt_zero_iff_msb_cond, Bool.not_eq_true]
  apply BitVec.msb_eq_false_iff_two_mul_lt.mpr
  rw [BitVec.toNat_ofNat, Nat.mod_eq_of_lt (by omega)]
  omega

theorem moved_toNat {n : Nat} (h : n ≤ maxTransfer) : (BitVec.ofNat 64 n).toNat = n := by
  have hmax : maxTransfer < 2 ^ 31 := by decide
  rw [BitVec.toNat_ofNat, Nat.mod_eq_of_lt (by omega)]

theorem CType.assign_error (k : CType) : k.assign (-1) = -1 ∧ (-1 : BitVec 64).slt 0 := by
  cases k <;> decide

theorem advance (len count : BitVec 64) {n : Nat} (hn : n ≤ maxTransfer) (hcount : n ≤ count.toNat)
    (hsize : len.toNat + count.toNat < 2 ^ 63) :
    (len + .ofNat 64 n).toNat = len.toNat + n ∧ (count - .ofNat 64 n).toNat = count.toNat - n := by
  have hmoved := moved_toNat hn
  constructor
  · rw [BitVec.toNat_add_of_lt (by omega), hmoved]
  · rw [BitVec.toNat_sub_of_le (by rw [BitVec.le_def]; omega), hmoved]

theorem left_iff {count : BitVec 64} : count > 0 ↔ 0 < count.toNat := BitVec.lt_def

/-! ## Steps of `bulk_read` -/

variable {k : CType}

theorem Reading.body_moved {s : Reading} {n : Nat} (hn : n ≤ maxTransfer) :
    s.body k (.ofNat 64 n) =
      if n = 0 then { s with ret := some s.len }
      else { s with
        pos := s.pos + n
        len := s.len + .ofNat 64 n
        count := s.count - .ofNat 64 n
        ret := if 0 < (s.count - .ofNat 64 n).toNat then s.ret
          else some (s.len + .ofNat 64 n) } := by
  have hzero : BitVec.ofNat 64 n = 0 ↔ n = 0 := by
    rw [BitVec.toNat_eq, moved_toNat hn]
    rfl
  simp only [Reading.body, k.assign_moved hn, if_neg (moved_not_neg hn), hzero, moved_toNat hn,
    left_iff]
  split
  · rfl
  · split
    · rfl
    · rfl

theorem Reading.data_cases {s t : Reading} {n : Nat} (h : s.next k (.data n) = some t) :
    s.ret = none ∧ ∃ got, got = s.stream.bytes.take (min (n + 1) (min s.count.toNat maxTransfer)) ∧
      (got = [] ∧ (s.stream.eof = true ∨ s.count.toNat = 0) ∧ t = { s with ret := some s.len } ∨
        got ≠ [] ∧ t = { s with
          buf := blit s.buf s.pos got
          pos := s.pos + got.length
          len := s.len + .ofNat 64 got.length
          count := s.count - .ofNat 64 got.length
          stream := ⟨s.stream.bytes.drop got.length, s.stream.eof⟩
          ret := if 0 < (s.count - .ofNat 64 got.length).toNat then none
            else some (s.len + .ofNat 64 got.length) }) := by
  simp only [Reading.next] at h
  split at h
  · cases h
  · rename_i hret
    have hret : s.ret = none := Option.not_isSome_iff_eq_none.mp hret
    obtain ⟨got, hread, rfl⟩ := Option.map_eq_some_iff.mp h
    simp only [Stream.read] at hread
    split at hread
    · cases hread
    · rename_i hwait
      cases hread
      refine ⟨hret, _, rfl, ?_⟩
      generalize hgot : s.stream.bytes.take (min (n + 1) (min s.count.toNat maxTransfer)) = got
        at hwait ⊢
      have hlen : got.length ≤ maxTransfer := by
        rw [← hgot, List.length_take]
        omega
      rw [Reading.body_moved hlen]
      by_cases hnil : got = []
      · subst hnil
        rw [if_pos List.length_nil]
        refine .inl ⟨rfl, Decidable.not_not.mp fun hno => hwait ⟨rfl, hno⟩, ?_⟩
        rw [blit_nil, List.length_nil, List.drop_zero]
      · rw [if_neg fun h0 => hnil (List.length_eq_zero_iff.mp h0), hret]
        exact .inr ⟨hnil, rfl⟩

theorem Reading.error_eq {s t : Reading} {e : Errno} (h : s.next k (.error e) = some t) :
    s.ret = none ∧ t = { s with errno := some e, ret := some (-1) } := by
  simp only [Reading.next] at h
  split at h
  · cases h
  · rename_i hret
    cases h
    refine ⟨Option.not_isSome_iff_eq_none.mp hret, ?_⟩
    simp only [Reading.body, k.assign_error.1, if_pos k.assign_error.2]

theorem Reading.eintr_eq {s t : Reading} (h : s.next k .eintr = some t) : s.ret = none ∧ t = s := by
  simp only [Reading.next] at h
  split at h
  · cases h
  · rename_i hret
    cases h
    exact ⟨Option.not_isSome_iff_eq_none.mp hret, rfl⟩

/-- Where the call that began with `s₀` stands: the first `len` bytes are moved. -/
structure Reading.Inv (s₀ s : Reading) : Prop where
  count : s.len.toNat + s.count.toNat = s₀.count.toNat
  pos : s.pos = s₀.pos + s.len.toNat
  buf : s.buf = blit s₀.buf s₀.pos (s₀.stream.bytes.take s.len.toNat)
  stream : s.stream = ⟨s₀.stream.bytes.drop s.len.toNat, s₀.stream.eof⟩
  held : s.len.toNat ≤ s₀.stream.bytes.length
  ret : ∀ r, s.ret = some r → s.errno = none →
    r = s.len ∧ (s.count.toNat = 0 ∨ s.stream.bytes = [])

/-- The calls that are still to be made, those that are interrupted not counted. -/
def Reading.left (s : Reading) : Nat :=
  if s.ret = none then min s.count.toNat s.stream.bytes.length + 1 else 0

/-- The piece that is handed over goes behind the bytes that have been moved. -/
theorem Reading.inv_moved {s₀ s : Reading} {w : Nat} {got : List Byte} {r : BitVec 64}
    (hpos : s₀.pos ≤ s₀.buf.length) (hsize : s₀.count.toNat < 2 ^ 63) (h : Reading.Inv s₀ s)
    (hgot : got = s.stream.bytes.take w) (hmax : got.length ≤ maxTransfer)
    (hleft : got.length ≤ s.count.toNat) (hr : r = s.len + .ofNat 64 got.length) :
    Reading.Inv s₀ { s with
      buf := blit s.buf s.pos got
      pos := s.pos + got.length
      len := s.len + .ofNat 64 got.length
      count := s.count - .ofNat 64 got.length
      stream := ⟨s.stream.bytes.drop got.length, s.stream.eof⟩
      ret := if 0 < (s.count - .ofNat 64 got.length).toNat then none else some r } := by
  have hcount := h.count
  have hheld := h.held
  obtain ⟨hadd, hsub⟩ := advance s.len s.count hmax hleft (by omega)
  have hrest : s.stream.bytes = s₀.stream.bytes.drop s.len.toNat := congrArg _ h.stream
  have hlen : got.length ≤ s₀.stream.bytes.length - s.len.toNat := by
    rw [hgot, hrest, List.length_take, List.length_drop]
    omega
  have hpiece : s₀.stream.bytes.take (s.len.toNat + got.length) =
      s₀.stream.bytes.take s.len.toNat ++ got := by
    rw [List.take_add, ← hrest]
    congr 1
    rw [hgot, List.take_eq_take_iff, List.length_take]
    omega
  refine ⟨?_, ?_, ?_, ?_, ?_, ?_⟩
  · simp only [hadd, hsub]
    omega
  · simp only [hadd, h.pos, Nat.add_assoc]
  · have htake : (s₀.stream.bytes.take s.len.toNat).length = s.len.toNat :=
      List.length_take_of_le hheld
    simp only [hadd]
    rw [hpiece, ← blit_blit hpos, htake, h.buf, h.pos]
  · simp only [hadd]
    rw [← List.drop_drop, ← hrest, h.stream]
  · simp only [hadd]
    omega
  · intro r' hret _
    simp only [hsub] at hret ⊢
    split at hret
    · cases hret
    · cases hret
      exact ⟨hr, .inl (by omega)⟩

theorem Reading.inv_step {s₀ s t : Reading} {o : ReadOutcome} (hpos : s₀.pos ≤ s₀.buf.length)
    (hsize : s₀.count.toNat < 2 ^ 63) (h : Reading.Inv s₀ s) (hn : s.next k o = some t) :
    Reading.Inv s₀ t ∧ t.left + (decide (o ≠ .eintr)).toNat ≤ s.left := by
  cases o with
  | eintr =>
    obtain ⟨-, rfl⟩ := Reading.eintr_eq hn
    exact ⟨h, Nat.le_refl _⟩
  | error e =>
    obtain ⟨hret, rfl⟩ := Reading.error_eq hn
    refine ⟨⟨h.count, h.pos, h.buf, h.stream, h.held, fun _ _ => by rintro ⟨⟩⟩, ?_⟩
    simp only [Reading.left, hret, if_true, if_neg (Option.some_ne_none _)]
    exact Nat.le_add_left _ _
  | data n =>
    have hcall : (decide (ReadOutcome.data n ≠ .eintr)).toNat = 1 := rfl
    obtain ⟨hret, got, hgot, ⟨hnil, hend, rfl⟩ | ⟨hgot', rfl⟩⟩ := Reading.data_cases hn
    · refine ⟨⟨h.count, h.pos, h.buf, h.stream, h.held, ?_⟩, ?_⟩
      · rintro _ ⟨⟩ -
        refine ⟨rfl, ?_⟩
        -- nothing was asked for or nothing was there
        rw [hnil] at hgot
        rcases List.take_eq_nil_iff.mp hgot.symm with h0 | h0
        · have hmax : 0 < maxTransfer := by decide
          refine .inl (?_ : s.count.toNat = 0)
          omega
        · exact .inr h0
      · simp only [Reading.left, hret, if_true, if_neg (Option.some_ne_none _)]
        omega
    · have hlen : got.length ≤ maxTransfer ∧ got.length ≤ s.count.toNat ∧
          got.length ≤ s.stream.bytes.length := by
        rw [hgot, List.length_take]
        omega
      have hone : 0 < got.length := List.length_pos_iff.mpr hgot'
      have hcount := h.count
      have hsub := (advance s.len s.count hlen.1 hlen.2.1 (by omega)).2
      refine ⟨Reading.inv_moved hpos hsize h hgot hlen.1 hlen.2.1 rfl, ?_⟩
      simp only [Reading.left, hret, if_true, hsub, List.length_drop]
      by_cases hmore : 0 < s.count.toNat - got.length
      · rw [if_pos hmore, if_pos rfl]
        omega
      · rw [if_neg hmore, if_neg (Option.some_ne_none _)]
        omega

theorem Reading.errno_eq {s t : Reading} {o : ReadOutcome} (ho : ∀ e, o ≠ .error e)
    (hn : s.next k o = some t) : t.errno = s.errno := by
  cases o with
  | eintr => rw [(Reading.eintr_eq hn).2]
  | error e => exact absurd rfl (ho e)
  | data n =>
    obtain ⟨-, got, -, ⟨-, -, rfl⟩ | ⟨-, rfl⟩⟩ := Reading.data_cases hn
    · rfl
    · rfl

theorem Reading.errno_run {s t : Reading} {rs : List ReadOutcome}
    (he : (reading k).exec s rs = some t) (herr : ∀ e, .error e ∉ rs) : t.errno = s.errno := by
  have hall : (reading k).Along (fun _ o => ∀ e, o ≠ .error e) s rs :=
    LTS.along_of_mem fun o ho e heq => herr e (heq ▸ ho)
  exact LTS.along_inv (I := fun u => u.errno = s.errno)
    (fun _ _ _ h ho hn => (Reading.errno_eq ho hn).trans h) rfl hall he

/-- A call that has not returned waits only for a peer that may still send. -/
theorem Reading.goes_on {s : Reading} (hret : s.ret = none)
    (h : s.stream.eof = true ∨ s.count.toNat ≤ s.stream.bytes.length) (n : Nat) :
    ∃ t, s.next k (.data n) = some t := by
  have hread : ∃ got, s.stream.read n s.count.toNat = some got := by
    simp only [Stream.read]
    refine ⟨_, if_neg ?_⟩
    rintro ⟨hnil, hno⟩
    rcases List.take_eq_nil_iff.mp hnil with h0 | h0
    · have hmax : 0 < maxTransfer := by decide
      exact hno (.inr (by omega))
    · rcases h with h | h
      · exact hno (.inl h)
      · rw [h0] at h
        exact hno (.inr (Nat.le_zero.mp h))
  obtain ⟨got, hgot⟩ := hread
  simp only [Reading.next, hret, hgot]
  exact ⟨_, rfl⟩

/-! ## Steps of `bulk_write` -/

theorem Writing.wrote_eq {s t : Writing} {n : Nat} (h : s.next k (.wrote n) = some t) :
    s.ret = none ∧ ∃ w, w = min (n + 1) (min s.count.toNat maxTransfer) ∧ t = { s with
      pos := s.pos + w
      len := s.len + .ofNat 64 w
      count := s.count - .ofNat 64 w
      out := s.out ++ (s.buf.drop s.pos).take w
      ret := if 0 < (s.count - .ofNat 64 w).toNat then none else some (s.len + .ofNat 64 w) } := by
  simp only [Writing.next] at h
  split at h
  · cases h
  · rename_i hret
    have hret : s.ret = none := Option.not_isSome_iff_eq_none.mp hret
    cases h
    refine ⟨hret, _, rfl, ?_⟩
    generalize hw : min (n + 1) (min s.count.toNat maxTransfer) = w
    have hmax : w ≤ maxTransfer := by omega
    simp only [Writing.body, k.assign_moved hmax, if_neg (moved_not_neg hmax), moved_toNat hmax,
      left_iff, hret]
    split
    · rfl
    · rfl

theorem Writing.error_eq {s t : Writing} {e : Errno} (h : s.next k (.error e) = some t) :
    s.ret = none ∧ t = { s with errno := some e, ret := some (-1) } := by
  simp only [Writing.next] at h
  split at h
  · cases h
  · rename_i hret
    cases h
    refine ⟨Option.not_isSome_iff_eq_none.mp hret, ?_⟩
    simp only [Writing.body, k.assign_error.1, if_pos k.assign_error.2]

theorem Writing.eintr_eq {s t : Writing} (h : s.next k .eintr = some t) : s.ret = none ∧ t = s := by
  simp only [Writing.next] at h
  split at h
  · cases h
  · rename_i hret
    cases h
    exact ⟨Option.not_isSome_iff_eq_none.mp hret, rfl⟩

/-- Where the call that began with `s₀` stands. -/
structure Writing.Inv (s₀ s : Writing) : Prop where
  count : s.len.toNat + s.count.toNat = s₀.count.toNat
  pos : s.pos = s₀.pos + s.len.toNat
  buf : s.buf = s₀.buf
  out : s.out = (s₀.buf.drop s₀.pos).take s.len.toNat
  ret : ∀ r, s.ret = some r → s.errno = none → r = s.len ∧ s.count.toNat = 0

/-- The calls that are still to be made. A request for nothing takes one, too. -/
def Writing.left (s : Writing) : Nat := if s.ret = none then max 1 s.count.toNat else 0

theorem Writing.inv_step {s₀ s t : Writing} {o : WriteOutcome} (hsize : s₀.count.toNat < 2 ^ 63)
    (h : Writing.Inv s₀ s) (hn : s.next k o = some t) :
    Writing.Inv s₀ t ∧ t.left + (decide (o ≠ .eintr)).toNat ≤ s.left := by
  cases o with
  | eintr =>
    obtain ⟨-, rfl⟩ := Writing.eintr_eq hn
    exact ⟨h, Nat.le_refl _⟩
  | error e =>
    have hcall : (decide (WriteOutcome.error e ≠ .eintr)).toNat = 1 := rfl
    obtain ⟨hret, rfl⟩ := Writing.error_eq hn
    refine ⟨⟨h.count, h.pos, h.buf, h.out, fun _ _ => by rintro ⟨⟩⟩, ?_⟩
    simp only [Writing.left, hret, if_true, if_neg (Option.some_ne_none _)]
    omega
  | wrote n =>
    have hcall : (decide (WriteOutcome.wrote n ≠ .eintr)).toNat = 1 := rfl
    have hpos : 0 < maxTransfer := by decide
    obtain ⟨hret, w, hw, rfl⟩ := Writing.wrote_eq hn
    have hcount := h.count
    obtain ⟨hadd, hsub⟩ := advance s.len s.count (n := w) (by omega) (by omega) (by omega)
    refine ⟨⟨?_, ?_, h.buf, ?_, ?_⟩, ?_⟩
    · simp only [hadd, hsub]
      omega
    · simp only [hadd, h.pos, Nat.add_assoc]
    · simp only [hadd]
      rw [h.out, h.buf, h.pos, List.take_add, List.drop_drop]
    · intro r hr _
      simp only [hsub] at hr ⊢
      split at hr
      · cases hr
      · cases hr
        exact ⟨rfl, by omega⟩
    · simp only [Writing.left, hret, if_true, hsub]
      by_cases hmore : 0 < s.count.toNat - w
      · rw [if_pos hmore, if_pos rfl]
        omega
      · rw [if_neg hmore, if_neg (Option.some_ne_none _)]
        omega

theorem Writing.errno_eq {s t : Writing} {o : WriteOutcome} (ho : ∀ e, o ≠ .error e)
    (hn : s.next k o = some t) : t.errno = s.errno := by
  cases o with
  | eintr => rw [(Writing.eintr_eq hn).2]
  | error e => exact absurd rfl (ho e)
  | wrote n =>
    obtain ⟨-, w, -, rfl⟩ := Writing.wrote_eq hn
    rfl

theorem Writing.errno_run {s t : Writing} {ws : List WriteOutcome}
    (he : (writing k).exec s ws = some t) (herr : ∀ e, .error e ∉ ws) : t.errno = s.errno := by
  have hall : (writing k).Along (fun _ o => ∀ e, o ≠ .error e) s ws :=
    LTS.along_of_mem fun o ho e heq => herr e (heq ▸ ho)
  exact LTS.along_inv (I := fun u => u.errno = s.errno)
    (fun _ _ _ h ho hn => (Writing.errno_eq ho hn).trans h) rfl hall he

/-! ## All copies are `bulkRead` and `bulkWrite` -/

/-- What is left of an outcome in one call of Linux. -/
def ReadOutcome.limited : ReadOutcome → ReadOutcome
  | .data n => .data (min n (maxTransfer - 1))
  | o => o

def WriteOutcome.limited : WriteOutcome → WriteOutcome
  | .wrote n => .wrote (min n (maxTransfer - 1))
  | o => o

def returned (r : BitVec 64) : Option Errno → Except Errno Nat
  | none => .ok r.toNat
  | some e => .error e

theorem limited_piece (n count : Nat) :
    min (min n (maxTransfer - 1) + 1) count = min (n + 1) (min count maxTransfer) := by
  have hpos : 0 < maxTransfer := by decide
  omega

theorem Reading.stuck {s : Reading} {r : BitVec 64} (h : s.ret = some r) (o : ReadOutcome) :
    (reading k).next s o = none := by
  show s.next k o = none
  simp only [Reading.next, h, Option.isSome_some, if_true]

theorem Writing.stuck {s : Writing} {r : BitVec 64} (h : s.ret = some r) (o : WriteOutcome) :
    (writing k).next s o = none := by
  show s.next k o = none
  simp only [Writing.next, h, Option.isSome_some, if_true]

/-- A call of any copy that has returned is a call of `bulkRead` that has. -/
theorem Reading.computes {s t : Reading} {rs : List ReadOutcome} {r : BitVec 64}
    (he : (reading k).exec s rs = some t) (hr : t.ret = some r)
    (hsize : s.len.toNat + s.count.toNat < 2 ^ 63) (hret : s.ret = none) (herr : s.errno = none) :
    bulkRead (rs.map .limited) s.stream s.buf s.pos s.len.toNat s.count.toNat =
      some ⟨returned r t.errno, t.buf, t.stream.bytes⟩ := by
  induction rs generalizing s with
  | nil =>
    cases he
    rw [hret] at hr
    cases hr
  | cons o rs ih =>
    obtain ⟨u, hu, hrest⟩ := LTS.exec_cons_some.mp he
    cases o with
    | eintr =>
      obtain ⟨-, rfl⟩ := Reading.eintr_eq (k := k) hu
      exact ih hrest hsize hret herr
    | error e =>
      obtain ⟨-, rfl⟩ := Reading.error_eq hu
      obtain ⟨rfl, rfl⟩ := LTS.exec_stuck (Reading.stuck rfl) hrest
      rfl
    | data n =>
      obtain ⟨-, got, hgot, ⟨hnil, hend, rfl⟩ | ⟨hgot', rfl⟩⟩ := Reading.data_cases hu
      · obtain ⟨rfl, rfl⟩ := LTS.exec_stuck (Reading.stuck rfl) hrest
        cases hr
        simp only [List.map_cons, ReadOutcome.limited, bulkRead, limited_piece, ← hgot, hnil,
          if_true, if_pos hend, herr, returned]
      · have hlen : got.length ≤ maxTransfer ∧ got.length ≤ s.count.toNat := by
          rw [hgot, List.length_take]
          omega
        obtain ⟨hadd, hsub⟩ := advance s.len s.count hlen.1 hlen.2 hsize
        simp only [List.map_cons, ReadOutcome.limited, bulkRead, limited_piece, ← hgot,
          if_neg hgot']
        by_cases hmore : 0 < s.count.toNat - got.length
        · have hmore' : 0 < (s.count - .ofNat 64 got.length).toNat := by rwa [hsub]
          rw [if_pos hmore'] at hrest
          have hih := ih hrest (by rw [hadd, hsub]; omega) rfl herr
          rw [hadd, hsub] at hih
          rw [if_pos hmore]
          exact hih
        · rw [if_neg hmore]
          simp only [hsub, if_neg hmore] at hrest
          obtain ⟨-, rfl⟩ := LTS.exec_stuck (Reading.stuck rfl) hrest
          cases hr
          simp only [herr, returned, hadd]

/-- A call of any copy that has returned is a call of `bulkWrite` that has. -/
theorem Writing.computes {s t : Writing} {ws : List WriteOutcome} {r : BitVec 64}
    (he : (writing k).exec s ws = some t) (hr : t.ret = some r)
    (hsize : s.len.toNat + s.count.toNat < 2 ^ 63) (hret : s.ret = none) (herr : s.errno = none) :
    bulkWrite (ws.map .limited) (s.buf.drop s.pos) s.len.toNat s.count.toNat s.out =
      some (returned r t.errno, t.out) := by
  induction ws generalizing s with
  | nil =>
    cases he
    rw [hret] at hr
    cases hr
  | cons o ws ih =>
    obtain ⟨u, hu, hrest⟩ := LTS.exec_cons_some.mp he
    cases o with
    | eintr =>
      obtain ⟨-, rfl⟩ := Writing.eintr_eq (k := k) hu
      exact ih hrest hsize hret herr
    | error e =>
      obtain ⟨-, rfl⟩ := Writing.error_eq hu
      obtain ⟨rfl, rfl⟩ := LTS.exec_stuck (Writing.stuck rfl) hrest
      rfl
    | wrote n =>
      obtain ⟨-, w, hw, rfl⟩ := Writing.wrote_eq hu
      obtain ⟨hadd, hsub⟩ := advance s.len s.count (n := w) (by omega) (by omega) hsize
      simp only [List.map_cons, WriteOutcome.limited, bulkWrite, limited_piece, ← hw]
      by_cases hmore : 0 < s.count.toNat - w
      · have hmore' : 0 < (s.count - .ofNat 64 w).toNat := by rwa [hsub]
        rw [if_pos hmore'] at hrest
        have hih := ih hrest (by rw [hadd, hsub]; omega) rfl herr
        rw [hadd, hsub] at hih
        rw [if_pos hmore, List.drop_drop]
        exact hih
      · rw [if_neg hmore]
        simp only [hsub, if_neg hmore] at hrest
        obtain ⟨-, rfl⟩ := LTS.exec_stuck (Writing.stuck rfl) hrest
        cases hr
        simp only [herr, returned, hadd]

/-! ## The transfer -/

/-- A `bulk_write` of `data` after the outcomes `ws`. -/
structure Writing.Faithful (k : CType) (data : List Byte) (ws : List WriteOutcome) (s : Writing) :
    Prop where
  /-- `count` does not underflow. -/
  left : s.len.toNat + s.count.toNat = data.length
  out : s.out = data.take s.len.toNat
  /-- The loop ends: there are only so many calls that are not interrupted, -/
  calls : ws.countP (· ≠ .eintr) ≤ max 1 data.length
  /-- and until it has returned there is a next one. -/
  goesOn : s.ret = none → ∀ n, ∃ t, s.next k (.wrote n) = some t
  ret : (∀ e, .error e ∉ ws) → ∀ r, s.ret = some r → r.toInt = data.length ∧ s.out = data

/-- A `bulk_read` of `count` bytes to `mem + pos` after the outcomes `rs`. -/
structure Reading.Faithful (k : CType) (mem : Object) (pos count : Nat) (stream : Stream)
    (rs : List ReadOutcome) (s : Reading) : Prop where
  left : s.len.toNat + s.count.toNat = count
  buf : s.buf = blit mem.bytes pos (stream.bytes.take s.len.toNat)
  /-- No byte before or behind the `count` bytes is written. -/
  outside : s.buf.take pos = mem.bytes.take pos ∧
    s.buf.drop (pos + count) = mem.bytes.drop (pos + count)
  rest : s.stream.bytes = stream.bytes.drop s.len.toNat
  calls : rs.countP (· ≠ .eintr) ≤ min count stream.bytes.length + 1
  goesOn : s.ret = none → stream.eof = true ∨ count ≤ stream.bytes.length →
    ∀ n, ∃ t, s.next k (.data n) = some t
  ret : (∀ e, .error e ∉ rs) → ∀ r, s.ret = some r →
    r.toInt = min count stream.bytes.length ∧
      s.buf = blit mem.bytes pos (stream.bytes.take count) ∧
      s.stream.bytes = stream.bytes.drop count

variable {mem : Object} {pos count : Nat}

theorem start_count (mem : Object) (h : count ≤ mem.bytes.length) :
    (BitVec.ofNat 64 count).toNat = count := by
  have hfits := mem.fits
  rw [BitVec.toNat_ofNat, Nat.mod_eq_of_lt (by omega)]

theorem toInt_len {len : BitVec 64} (h : len.toNat < 2 ^ 63) : len.toInt = len.toNat :=
  BitVec.toInt_eq_toNat_of_lt (by omega)

theorem Writing.faithful {ws : List WriteOutcome} {t : Writing}
    (hfit : pos + count ≤ mem.bytes.length)
    (he : (writing k).exec (.start mem pos count) ws = some t) :
    Writing.Faithful k ((mem.bytes.drop pos).take count) ws t := by
  have hfits := mem.fits
  have hcount : (Writing.start mem pos count).count.toNat = count := start_count mem (by omega)
  have hdata : ((mem.bytes.drop pos).take count).length = count := by
    rw [List.length_take, List.length_drop]
    omega
  have hinit : Writing.Inv (.start mem pos count) (.start mem pos count) :=
    ⟨Nat.zero_add _, rfl, rfl, rfl, fun _ => by rintro ⟨⟩⟩
  obtain ⟨hinv, hcalls⟩ := LTS.along_count (P := fun o : WriteOutcome => decide (o ≠ .eintr))
    Writing.left (fun _ _ _ h _ hn => Writing.inv_step (by omega) h hn) hinit
    (LTS.along_true _ _) he
  have hlen := hinv.count
  have hout : t.out = ((mem.bytes.drop pos).take count).take t.len.toNat := by
    rw [hinv.out, List.take_take, Nat.min_eq_left (by omega)]
    rfl
  refine ⟨by omega, hout, ?_, fun hret n => ?_, fun herr r hr => ?_⟩
  · have hleft : (Writing.start mem pos count).left = max 1 count := by
      rw [Writing.left, hcount]
      rfl
    omega
  · simp only [Writing.next, hret]
    exact ⟨_, rfl⟩
  · have herrno : t.errno = none := Writing.errno_run he herr
    obtain ⟨rfl, hzero⟩ := hinv.ret r hr herrno
    have hall : ((mem.bytes.drop pos).take count).take t.len.toNat =
        (mem.bytes.drop pos).take count := List.take_of_length_le (by omega)
    rw [toInt_len (by omega), hout, hall]
    exact ⟨by omega, rfl⟩

theorem blit_outside {buf d : List Byte} {n : Nat} (hpos : pos ≤ buf.length) (hn : d.length ≤ n) :
    (blit buf pos d).take pos = buf.take pos ∧
      (blit buf pos d).drop (pos + n) = buf.drop (pos + n) := by
  have htake : (buf.take pos).length = pos := List.length_take_of_le hpos
  have hstored : (buf.take pos ++ d).length = pos + d.length := by
    rw [List.length_append, htake]
  constructor
  · rw [blit, List.append_assoc, List.take_left' htake]
  · rw [blit, List.drop_append, List.drop_eq_nil_of_le (by omega), List.nil_append, List.drop_drop,
      hstored, Nat.add_sub_cancel' (by omega)]

theorem Reading.faithful {stream : Stream} {rs : List ReadOutcome} {t : Reading}
    (hfit : pos + count ≤ mem.bytes.length)
    (he : (reading k).exec (.start mem pos count stream) rs = some t) :
    Reading.Faithful k mem pos count stream rs t := by
  have hfits := mem.fits
  have hcount : (Reading.start mem pos count stream).count.toNat = count :=
    start_count mem (by omega)
  have hpos : pos ≤ mem.bytes.length := by omega
  have hinit : Reading.Inv (.start mem pos count stream) (.start mem pos count stream) :=
    ⟨Nat.zero_add _, rfl, (blit_nil _ _).symm, rfl, Nat.zero_le _, fun _ => by rintro ⟨⟩⟩
  obtain ⟨hinv, hcalls⟩ := LTS.along_count (P := fun o : ReadOutcome => decide (o ≠ .eintr))
    Reading.left (fun _ _ _ h _ hn => Reading.inv_step hpos (by omega) h hn) hinit
    (LTS.along_true _ _) he
  have hlen := hinv.count
  have hheld : t.len.toNat ≤ stream.bytes.length := hinv.held
  have hbuf : t.buf = blit mem.bytes pos (stream.bytes.take t.len.toNat) := hinv.buf
  have hstream : t.stream = ⟨stream.bytes.drop t.len.toNat, stream.eof⟩ := hinv.stream
  refine ⟨by omega, hbuf, ?_, congrArg _ hstream, ?_, fun hret hend n => ?_, fun herr r hr => ?_⟩
  · rw [hbuf]
    exact blit_outside hpos (by rw [List.length_take]; omega)
  · have hleft : (Reading.start mem pos count stream).left = min count stream.bytes.length + 1 := by
      rw [Reading.left, hcount]
      rfl
    omega
  · refine Reading.goes_on hret ?_ n
    rw [hstream, List.length_drop]
    exact hend.imp_right fun h => by omega
  · have herrno : t.errno = none := Reading.errno_run he herr
    obtain ⟨rfl, hend⟩ := hinv.ret r hr herrno
    have hall : t.len.toNat = min count stream.bytes.length := by
      rcases hend with h0 | h0
      · omega
      · rw [hstream, List.drop_eq_nil_iff] at h0
        omega
    have htake : stream.bytes.take t.len.toNat = stream.bytes.take count := by
      rw [hall, List.take_eq_take_iff]
      omega
    have hdrop : stream.bytes.drop t.len.toNat = stream.bytes.drop count := by
      rw [hall]
      rcases Nat.le_total count stream.bytes.length with h | h
      · rw [Nat.min_eq_left h]
      · rw [Nat.min_eq_right h, List.drop_length, List.drop_eq_nil_of_le h]
    rw [toInt_len (by omega), hall, hbuf, htake, hstream, ← hdrop]
    exact ⟨rfl, rfl, rfl⟩

/-- **Bulk transfer.** For any two copies, any pieces and any interruptions. -/
theorem bulk_transfer (k k' : CType) (src dst : Object) (i j count : Nat)
    (hsrc : i + count ≤ src.bytes.length) (hdst : j + count ≤ dst.bytes.length) :
    (∀ ws t, (writing k).exec (.start src i count) ws = some t →
      Writing.Faithful k ((src.bytes.drop i).take count) ws t) ∧
    (∀ stream rs t, (reading k').exec (.start dst j count stream) rs = some t →
      Reading.Faithful k' dst j count stream rs t) ∧
    ∀ ws t r later eof rs u r',
      (writing k).exec (.start src i count) ws = some t → (∀ e, .error e ∉ ws) → t.ret = some r →
      (reading k').exec (.start dst j count ⟨t.out ++ later, eof⟩) rs = some u →
      (∀ e, .error e ∉ rs) → u.ret = some r' →
      r.toInt = count ∧ r'.toInt = count ∧
        u.buf = blit dst.bytes j ((src.bytes.drop i).take count) ∧ u.stream.bytes = later := by
  refine ⟨fun _ _ => Writing.faithful hsrc, fun _ _ _ => Reading.faithful hdst, ?_⟩
  intro ws t r later eof rs u r' hw herrw hr hu herru hr'
  have hdata : ((src.bytes.drop i).take count).length = count := by
    rw [List.length_take, List.length_drop]
    omega
  obtain ⟨hret, hout⟩ := (Writing.faithful hsrc hw).ret herrw r hr
  obtain ⟨hret', hbuf, hrest⟩ := (Reading.faithful hdst hu).ret herru r' hr'
  rw [hdata] at hret
  simp only [hout, List.length_append, hdata, List.take_left' hdata, List.drop_left' hdata]
    at hret' hbuf hrest
  exact ⟨hret, hret'.trans (congrArg _ (Nat.min_eq_left (Nat.le_add_right _ _))), hbuf, hrest⟩

/-- Two bytes, written at once and read one by one. -/
theorem bulk_transfer_two : ∃ u : Reading, u.ret = some 2 ∧ u.buf = [0, 1, 2, 0] ∧
    u.stream.bytes = [3] := by
  have hw : ∃ t, (writing .int).exec (.start ⟨[1, 2], by decide⟩ 0 2) [.eintr, .wrote 4] = some t ∧
      t.ret = some 2 ∧ t.out = [1, 2] := ⟨_, rfl, rfl, rfl⟩
  obtain ⟨t, ht, hret, hout⟩ := hw
  have hr : ∃ u, (reading .ssize).exec (.start ⟨[0, 0, 0, 0], by decide⟩ 1 2 ⟨t.out ++ [3], false⟩)
      [.data 0, .eintr, .data 7] = some u ∧ u.ret = some 2 := by
    rw [hout]
    exact ⟨_, rfl, rfl⟩
  obtain ⟨u, hu, hret'⟩ := hr
  obtain ⟨-, -, hbuf, hrest⟩ := (bulk_transfer .int .ssize ⟨[1, 2], by decide⟩
    ⟨[0, 0, 0, 0], by decide⟩ 0 1 2 (by decide) (by decide)).2.2 _ t 2 [3] false _ u 2 ht (by simp)
    hret hu (by simp) hret'
  exact ⟨u, hret', hbuf, hrest⟩

end Ops.Posix
