import Ops.Calc.Request

/-!
# From the client to the server and back (`task_programs/client.c`)

The client prints its request into 20 bytes, the server scans it, and sends the first 9 bytes
of the printed result, which the client prints up to a NUL. The result is read as it was
computed if all of it fits (`survives_iff`).
-/

namespace Ops.Calc

variable {op : Op} {a b pid : Int} {w : World} {f : Frame}

def message (a b nameC : Int) : List Char :=
  decimalInt a ++ (' ' :: (decimalInt b ++ (' ' :: decimalInt nameC)))

/-- The `strlen(message) + 1` bytes that `write_to_queue` sends. -/
def request (a b nameC : Int) : List Byte := bytes (message a b nameC) ++ [0]

/-- What `read_from_queue` prints of the bytes `sent`, in its `msg`. -/
def printed (msg sent : List Byte) : List Char := chars (upToNul (blit msg 0 sent))

/-- What is asked of a queue. -/
def Op.result : Op → Int → Int → Int
  | .sum, a, b => a + b
  | .modulo, a, b => Int.tmod a b
  | .division, a, b => Int.tdiv a b

/-- An `int`. -/
def IsInt (v : Int) : Prop := -2 ^ 31 ≤ v ∧ v < 2 ^ 31

instance (v : Int) : Decidable (IsInt v) := inferInstanceAs (Decidable (_ ∧ _))

/-- **The request and the reply survive**, whatever the memory holds. -/
structure Survives (op : Op) (a b pid : Int) : Prop where
  fits : fits (request a b pid)
  recovered : ∀ w f, operands w f (request a b pid) = (a, b, pid)
  replied : ∀ w f, f.heap.length = 20 → f.sends = true →
    ∃ sent, answer op w f (request a b pid) = .answers pid sent ∧
      ∀ msg, msg.length = 20 → printed msg sent = decimalInt (op.result a b)

/-! ## Texts as bytes -/

/-- A printed character that is not NUL. -/
def Plain (c : Char) : Prop := 0 < c.toNat ∧ c.toNat < 128

theorem plain_byte {c : Char} (h : Plain c) : (UInt8.ofNat c.toNat).toNat = c.toNat := by
  have hlt := h.2
  rw [UInt8.toNat_ofNat']
  omega

theorem chars_bytes {text : List Char} (h : ∀ c ∈ text, Plain c) : chars (bytes text) = text := by
  unfold chars bytes
  rw [List.map_map]
  refine (List.map_congr_left (g := id) fun c hc => ?_).trans (List.map_id text)
  show Char.ofNat (UInt8.ofNat c.toNat).toNat = c
  rw [plain_byte (h c hc), Char.ofNat_toNat]

theorem bytes_noNul {text : List Char} (h : ∀ c ∈ text, Plain c) : 0 ∉ bytes text := by
  intro hmem
  obtain ⟨c, hc, hzero⟩ := List.mem_map.mp hmem
  have hbyte := plain_byte (h c hc)
  rw [hzero] at hbyte
  have hpos := (h c hc).1
  rw [← hbyte] at hpos
  cases hpos

theorem digit_plain {c : Char} (h : c.isDigit = true) : Plain c := by
  unfold Char.isDigit at h
  simp only [Bool.and_eq_true, decide_eq_true_eq, ge_iff_le] at h
  have hlow : 48 ≤ c.toNat := h.1
  have hhigh : c.toNat ≤ 57 := h.2
  exact ⟨by omega, by omega⟩

theorem decimalInt_plain {v : Int} : ∀ c ∈ decimalInt v, Plain c := by
  intro c hc
  rcases decimalInt_char hc with rfl | hdigit
  · exact ⟨by decide, by decide⟩
  · exact digit_plain hdigit

theorem message_plain : ∀ c ∈ message a b pid, Plain c := by
  have hblank : Plain ' ' := ⟨by decide, by decide⟩
  intro c hc
  unfold message at hc
  simp only [List.mem_append, List.mem_cons] at hc
  rcases hc with hc | rfl | hc | rfl | hc
  · exact decimalInt_plain c hc
  · exact hblank
  · exact decimalInt_plain c hc
  · exact hblank
  · exact decimalInt_plain c hc

theorem read_text {text : List Char} (h : ∀ c ∈ text, Plain c) (memory rest : List Byte) :
    chars (upToNul (blit memory 0 (bytes text ++ 0 :: rest))) = text := by
  rw [blit_zero, List.append_assoc, List.cons_append, upToNul_append (bytes_noNul h)]
  have hnul : upToNul (0 :: (rest ++ memory.drop (bytes text ++ 0 :: rest).length)) = [] := rfl
  rw [hnul, List.append_nil, chars_bytes h]

/-! ## The request -/

theorem scan_message (a b pid : Int) : scan messageFormat (message a b pid) = [a, b, pid] := by
  unfold messageFormat message
  have hlast := scan_blank_int pid [.int] []
  rw [List.append_nil] at hlast
  rw [scan_decimalInt a _ (by intro c hc; cases hc; rfl), scan_blank_int,
    scan_decimalInt b _ (by intro c hc; cases hc; rfl), hlast, scan_decimalInt_last]
  rfl

theorem operands_request (ha : IsInt a) (hb : IsInt b) (hpid : IsInt pid) (w : World) (f : Frame) :
    operands w f (request a b pid) = (a, b, pid) := by
  unfold operands request
  rw [read_text message_plain f.stack [], scan_message]
  simp only [storeInt_eq ha.1 ha.2, storeInt_eq hb.1 hb.2, storeInt_eq hpid.1 hpid.2]

theorem request_fits : fits (request a b pid) ↔
    (decimalInt a).length + (decimalInt b).length + (decimalInt pid).length ≤ 17 := by
  unfold fits request message bytes
  simp only [List.length_append, List.length_map, List.length_cons, List.length_nil]
  omega

/-! ## The reply -/

theorem short_iff {v : Int} : (decimalInt v).length ≤ 8 ↔ -10 ^ 7 < v ∧ v < 10 ^ 8 := by
  by_cases hv : v < 0
  · have hlen := Nat.length_toDigits_le_iff (b := 10) (n := v.natAbs) (k := 7) (by decide) (by decide)
    rw [decimalInt_neg hv, List.length_cons]
    unfold decimal
    omega
  · have hlen := Nat.length_toDigits_le_iff (b := 10) (n := v.natAbs) (k := 8) (by decide) (by decide)
    rw [decimalInt_nonneg hv]
    unfold decimal
    omega

theorem short_reply {v : Int} (h : (decimalInt v).length ≤ 8) (f : Frame) (msg : List Byte) :
    printed msg (reply f v) = decimalInt v := by
  have hlen : (bytes (decimalInt v) ++ [0]).length ≤ 9 := by
    unfold bytes
    rw [List.length_append, List.length_map, List.length_singleton]
    omega
  unfold printed reply
  rw [blit_zero f.heap, List.take_append, List.take_of_length_le hlen, List.append_assoc,
    List.singleton_append]
  exact read_text decimalInt_plain msg _

/-- Nine characters are sent without a NUL, and what stands behind them is printed too. -/
theorem long_reply {v : Int} (h : ¬ (decimalInt v).length ≤ 8) (f : Frame) :
    printed (List.replicate 20 120) (reply f v) ≠ decimalInt v := by
  have hlen : 9 ≤ (bytes (decimalInt v)).length := by
    unfold bytes
    rw [List.length_map]
    omega
  have hsent : reply f v = (bytes (decimalInt v)).take 9 := by
    unfold reply
    rw [blit_zero, List.append_assoc, List.take_append_of_le_length hlen]
  have hnine : ((bytes (decimalInt v)).take 9).length = 9 := by
    rw [List.length_take]
    omega
  have hnul : 0 ∉ (bytes (decimalInt v)).take 9 := fun hmem =>
    bytes_noNul decimalInt_plain (List.mem_of_mem_take hmem)
  have hmem : 'x' ∈ printed (List.replicate 20 120) (reply f v) := by
    unfold printed
    rw [hsent, blit_zero, hnine, upToNul_append hnul]
    refine List.mem_map.mpr ⟨120, List.mem_append_right _ ?_, by decide⟩
    decide
  intro heq
  rw [heq] at hmem
  rcases decimalInt_char hmem with hx | hx
  · cases hx
  · cases hx

/-! ## There and back -/

theorem compute_result {r : Int} (hresult : IsInt (op.result a b)) (h : op.compute a b = some r) :
    r = op.result a b := by
  cases op with
  | sum => exact (Option.some.inj h).symm.trans (add32_eq hresult.1 hresult.2)
  | modulo =>
    change (if traps a b then none else some (Int.tmod a b)) = some r at h
    split at h
    · cases h
    · exact (Option.some.inj h).symm
  | division =>
    change (if traps a b then none else some (Int.tdiv a b)) = some r at h
    split at h
    · cases h
    · exact (Option.some.inj h).symm

/-- Only the remainder of the least number by -1 has a result and traps. -/
theorem compute_traps (hzero : op ≠ .sum → b ≠ 0) (hresult : IsInt (op.result a b)) :
    op.compute a b = none ↔ op = .modulo ∧ a = -2 ^ 31 ∧ b = -1 := by
  rw [compute_none]
  unfold traps
  constructor
  · rintro ⟨hop, hb | hleast⟩
    · exact absurd hb (hzero hop)
    · obtain ⟨rfl, rfl⟩ := hleast
      cases op with
      | sum => exact absurd rfl hop
      | modulo => exact ⟨rfl, rfl, rfl⟩
      | division => exact absurd hresult.2 (by decide)
  · rintro ⟨rfl, ha, hb⟩
    exact ⟨nofun, .inr ⟨ha, hb⟩⟩

/-- **There and back**, for every request whose result is an `int`, and every client: it survives if
and only if the printed request has at most 19 characters, the printed result at most 8, and the
request is not for the remainder of the least `int` by -1, which traps. -/
theorem survives_iff (ha : IsInt a) (hb : IsInt b) (hpid : 0 < pid ∧ IsInt pid)
    (hzero : op ≠ .sum → b ≠ 0) (hresult : IsInt (op.result a b)) :
    Survives op a b pid ↔
      (decimalInt a).length + (decimalInt b).length + (decimalInt pid).length ≤ 17 ∧
        (-10 ^ 7 < op.result a b ∧ op.result a b < 10 ^ 8) ∧
        ¬ (op = .modulo ∧ a = -2 ^ 31 ∧ b = -1) := by
  have hoperands := operands_request ha hb hpid.2
  rw [← request_fits, ← short_iff, ← compute_traps hzero hresult]
  have hanswer : ∀ (w : World) (f : Frame) (r : Int), f.sends = true →
      op.compute a b = some r → answer op w f (request a b pid) = .answers pid (reply f r) := by
    intro w f r hsends hr
    unfold answer
    rw [hoperands]
    simp only [hr, hsends, if_true]
  constructor
  · intro hs
    obtain ⟨sent, hsent, hprinted⟩ :=
      hs.replied ⟨0⟩ ⟨[], 0, 0, List.replicate 20 0, true⟩ rfl rfl
    have hsome : op.compute a b ≠ none := fun hnone => by
      unfold answer at hsent
      rw [hoperands] at hsent
      simp only [hnone] at hsent
      cases hsent
    obtain ⟨r, hr⟩ := Option.ne_none_iff_exists'.mp hsome
    obtain rfl := compute_result hresult hr
    rw [hanswer _ _ _ rfl hr] at hsent
    cases hsent
    refine ⟨hs.fits, by_contra fun hlong => ?_, hsome⟩
    exact long_reply hlong _ (hprinted (List.replicate 20 120) rfl)
  · rintro ⟨hfits, hshort, hsome⟩
    obtain ⟨r, hr⟩ := Option.ne_none_iff_exists'.mp hsome
    obtain rfl := compute_result hresult hr
    refine ⟨hfits, hoperands, fun w f _ hsends => ⟨_, hanswer w f _ hsends hr, fun msg _ => ?_⟩⟩
    exact short_reply hshort f msg

/-- 1 and 2 from process 7. -/
theorem survives_one : Survives .sum 1 2 7 :=
  (survives_iff (by decide) (by decide) (by decide) (by decide) (by decide)).mpr (by decide)

/-- **Nine characters**: the reply to 99999999 + 1 has no NUL. -/
theorem not_survives_nine : ¬ Survives .sum 99999999 1 7 := by
  intro hs
  obtain ⟨sent, hsent, hprinted⟩ :=
    hs.replied ⟨0⟩ ⟨[], 0, 0, List.replicate 20 0, true⟩ rfl rfl
  have hanswer : answer .sum ⟨0⟩ ⟨[], 0, 0, List.replicate 20 0, true⟩
      (request 99999999 1 7) = .answers 7 (bytes "100000000".toList) := by decide +kernel
  rw [hanswer] at hsent
  cases hsent
  have hread := hprinted (List.replicate 20 120) rfl
  revert hread
  decide +kernel

end Ops.Calc
