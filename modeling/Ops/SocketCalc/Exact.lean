import Ops.SocketCalc.Process

/-!
# Exact answers

The words of a request and a reply survive both conversions and every way of cutting the
bytes into pieces. `calculate` checks neither the range of a result nor `INT_MIN / -1`, so the
answer is right if and only if the exact result, where there is one, is an `int32_t`
(`exact_iff`).
-/

namespace Ops.SocketCalc

open Posix
open Calc (IsInt)

variable {k : Client} {argv : List CString} {stack sent data : List Byte} {c : Calls}
variable {a b r status : Int} {operation : Byte}

/-- What is asked for: the exact result, where there is one. -/
def Request.exact (q : Request) : Option Int :=
  if q.operation = plus then some (q.op1 + q.op2)
  else if q.operation = minus then some (q.op1 - q.op2)
  else if q.operation = times then some (q.op1 * q.op2)
  else if q.operation = slash ∧ q.op2 ≠ 0 then some (Int.tdiv q.op1 q.op2)
  else none

def Request.answer (q : Request) : List Char :=
  match q.exact with
  | some r => if IsInt r then equation q.op1 q.operation q.op2 r else impossible
  | none => impossible

def Request.Fits (q : Request) : Prop := ∀ r, q.exact = some r → IsInt r

/-! ## Words -/

theorem intChar_charInt (c : Byte) : intChar (charInt c) = c := by
  unfold intChar charInt
  rw [BitVec.ofInt_toInt]

theorem charInt_isInt (c : Byte) : IsInt (charInt c) := by
  have hlow := BitVec.le_toInt c.toBitVec
  have hhigh := BitVec.toInt_lt (x := c.toBitVec)
  unfold charInt IsInt
  constructor
  · omega
  · omega

theorem storeInt_isInt (v : Int) : IsInt (storeInt v) := wrap32_range _

theorem atoi_isInt (text : CString) : IsInt (atoi text) := by
  unfold atoi
  split
  · decide
  · exact storeInt_isInt _

theorem ntohl_word (h : IsInt a) (mem : List Byte) : ntohl (htonl a ++ mem) = a :=
  ntohl_htonl h.1 h.2 mem

def words (op1 op2 result operation status : Int) : List Byte :=
  htonl op1 ++ (htonl op2 ++ (htonl result ++ (htonl operation ++ htonl status)))

theorem words_length (op1 op2 result operation status : Int) :
    (words op1 op2 result operation status).length = dataSize := rfl

section Words

variable {op1 op2 result operation status : Int}

theorem word_op1 (h : IsInt op1) : word (words op1 op2 result operation status) 0 = op1 :=
  ntohl_word h _

theorem word_op2 (h : IsInt op2) : word (words op1 op2 result operation status) 1 = op2 :=
  ntohl_word h _

theorem word_result : word (words op1 op2 result operation status) 2 = wrap32 result :=
  ntohl_htonl_wrap result _

theorem word_operation (h : IsInt operation) :
    word (words op1 op2 result operation status) 3 = operation := ntohl_word h _

theorem word_status (h : IsInt status) : word (words op1 op2 result operation status) 4 = status := by
  have hword := ntohl_word h []
  rwa [List.append_nil] at hword

end Words

/-! ## Request and reply -/

theorem request_isInt (k : Client) (argv : List CString) :
    IsInt (k.request argv).op1 ∧ IsInt (k.request argv).op2 := ⟨atoi_isInt _, atoi_isInt _⟩

/-- The server computes with the operands that the client has read. -/
theorem calculate_request (q : Request) (h1 : IsInt q.op1) (h2 : IsInt q.op2) :
    calculate (words q.op1 q.op2 0 (charInt q.operation) 1) =
      (compute q.operation q.op1 q.op2).map fun r =>
        words q.op1 q.op2 r.1 (charInt q.operation) r.2 := by
  unfold calculate
  rw [word_op1 h1, word_op2 h2, word_operation (charInt_isInt _), intChar_charInt]
  rfl

theorem print_reply (q : Request) (h1 : IsInt q.op1) (h2 : IsInt q.op2)
    (hs : status = 0 ∨ status = 1) :
    print_answer (words q.op1 q.op2 r (charInt q.operation) status) =
      if status = 0 then impossible else equation q.op1 q.operation q.op2 (wrap32 r) := by
  have hstatus : IsInt status := by
    rcases hs with rfl | rfl
    · decide
    · decide
  unfold print_answer
  rw [word_op1 h1, word_op2 h2, word_operation (charInt_isInt _), word_result,
    word_status hstatus, intChar_charInt]
  simp only [ne_eq, ite_not]

theorem compute_status {op1 op2 : Int} (h : compute operation op1 op2 = some (r, status)) :
    status = 0 ∨ status = 1 := by
  unfold compute at h
  split_ifs at h <;> cases h <;> simp

/-- The answer of the code: `none` is a trap. -/
def Request.given (q : Request) : Option (List Char) :=
  (compute q.operation q.op1 q.op2).map fun r =>
    if r.2 = 0 then impossible else equation q.op1 q.operation q.op2 (wrap32 r.1)

/-! ## The transfers -/

/-- A `bulk_read` that does not fail gets all words that were sent. -/
theorem whole_read {rs : List ReadOutcome} {from_ : Stream} {buf : List Byte} {res : ReadResult}
    (hrs : ∀ e, .error e ∉ rs) (hsent : from_.bytes.length = dataSize)
    (hbuf : buf.length = dataSize) (h : bulkRead rs from_ buf 0 0 dataSize = some res) :
    res.ret = .ok dataSize ∧ res.buf = from_.bytes := by
  obtain ⟨ret, buf', rest⟩ := res
  cases ret with
  | error e => exact absurd (bulkRead_error h) (hrs e)
  | ok n =>
    obtain ⟨hn, hstored, -, -⟩ := bulkRead_ok (Nat.zero_le _) h
    have hall : from_.bytes.take dataSize = from_.bytes := List.take_of_length_le hsent.le
    simp only [hall, hsent, Nat.zero_add] at hn hstored
    refine ⟨by rw [hn], ?_⟩
    rw [hstored, blit_all (by rw [hbuf, hsent])]

theorem whole_write {ws : List WriteOutcome} {res : Except Errno Nat × List Byte}
    (hws : ∀ e, .error e ∉ ws) (hdata : data.length = dataSize)
    (h : bulkWrite ws data 0 dataSize [] = some res) : ∃ n, res = (.ok n, data) := by
  obtain ⟨ret, out⟩ := res
  cases ret with
  | error e => exact absurd (bulkWrite_error h) (hws e)
  | ok n =>
    obtain ⟨-, hout⟩ := bulkWrite_ok h
    rw [List.nil_append, List.take_of_length_le hdata.le] at hout
    exact ⟨n, by rw [hout]⟩

/-- What comes of a whole request. -/
def Request.outcome (q : Request) : Outcome :=
  match q.given with
  | none => .trapped
  | some text => .printed text

theorem finish_outcome {o : Outcome} (hc : c.Undisturbed) (hdata : data.length = dataSize)
    (hsent : sent.length = dataSize) (h : Client.finish data sent c = some o) :
    o = .printed (print_answer sent) := by
  unfold Client.finish at h
  split at h
  · cases h
  · rename_i e buf rest hread
    cases (whole_read hc.answer hsent hdata hread).1
  · rename_i n buf rest hread
    obtain ⟨hn, hbuf⟩ := whole_read hc.answer hsent hdata hread
    simp only [Except.ok.injEq] at hn hbuf
    rw [hn, if_neg (Nat.lt_irrefl _), hbuf] at h
    exact (Option.some.inj h).symm

theorem serve_outcome {o : Outcome} {q : Request} (h1 : IsInt q.op1) (h2 : IsInt q.op2)
    (hc : c.Undisturbed) (hstack : stack.length = dataSize)
    (h : serve (words q.op1 q.op2 0 (charInt q.operation) 1)
      (words q.op1 q.op2 0 (charInt q.operation) 1) stack c = some o) : o = q.outcome := by
  unfold serve at h
  split at h
  · cases h
  · rename_i e buf rest hread
    cases (whole_read hc.received rfl hstack hread).1
  · rename_i n buf rest hread
    obtain ⟨hn, hbuf⟩ := whole_read hc.received rfl hstack hread
    simp only [Except.ok.injEq] at hn hbuf
    rw [hn, hbuf, if_pos rfl, calculate_request q h1 h2] at h
    unfold Request.outcome Request.given
    cases hcompute : compute q.operation q.op1 q.op2 with
    | none =>
      rw [hcompute] at h
      exact (Option.some.inj h).symm
    | some res =>
      obtain ⟨r, status⟩ := res
      rw [hcompute] at h
      simp only [Option.map_some] at h
      split at h
      · cases h
      · rename_i e out hwrite
        obtain ⟨m, hm⟩ := whole_write hc.reply (words_length ..) hwrite
        cases hm
      · rename_i m out hwrite
        obtain ⟨m', hm⟩ := whole_write hc.reply (words_length ..) hwrite
        cases hm
        rw [finish_outcome hc (words_length ..) (words_length ..) h,
          print_reply q h1 h2 (compute_status hcompute)]
        rfl

theorem exchange_outcome {o : Outcome} (hc : c.Undisturbed) (hstack : stack.length = dataSize)
    (h : k.exchange argv stack c = some o) : o = (k.request argv).outcome := by
  obtain ⟨h1, h2⟩ := request_isInt k argv
  unfold Client.exchange at h
  split at h
  · cases h
  · rename_i e out hwrite
    obtain ⟨m, hm⟩ := whole_write hc.request (words_length ..) hwrite
    cases hm
  · rename_i m out hwrite
    obtain ⟨m', hm⟩ := whole_write hc.request (words_length ..) hwrite
    cases hm
    exact serve_outcome h1 h2 hc hstack h

/-- Calls that move everything at once. -/
def Calls.whole : Calls :=
  ⟨[.wrote 19], [.data 19, .data 19], [.wrote 19], [.data 19, .data 19]⟩

theorem whole_undisturbed : Calls.whole.Undisturbed :=
  ⟨by simp [Calls.whole], by simp [Calls.whole], by simp [Calls.whole], by simp [Calls.whole]⟩

theorem finish_whole (data sent : List Byte) : ∃ o, Client.finish data sent .whole = some o := by
  obtain ⟨n, buf, rest, hread⟩ :=
    bulkRead_whole (s := ⟨sent, true⟩) (m := 19) (k := dataSize) (.inl rfl) (by decide) data 0 0
  refine ⟨if n < dataSize then .failed else .printed (print_answer buf), ?_⟩
  unfold Client.finish Calls.whole
  simp only [hread]

theorem exchange_whole (k : Client) (argv : List CString) (stack : List Byte) :
    ∃ o, k.exchange argv stack .whole = some o := by
  unfold Client.exchange serve
  have hwrite := bulkWrite_whole (m := 19) (k := dataSize) (by decide) (k.prepare_request argv)
  have hlen : ((k.prepare_request argv).take dataSize).length = dataSize := rfl
  obtain ⟨n, buf, rest, hread⟩ := bulkRead_whole
    (s := ⟨(k.prepare_request argv).take dataSize, false⟩) (m := 19) (k := dataSize)
    (.inr hlen.ge) (by decide) stack 0 0
  simp only [Calls.whole, hwrite, hread]
  split
  · split
    · exact ⟨_, rfl⟩
    · rename_i reply hcalc
      simp only [bulkWrite_whole (m := 19) (k := dataSize) (by decide) reply]
      exact finish_whole _ _
  · exact finish_whole _ _

/-! ## The answer -/

theorem equation_ne (a : Int) (operation : Byte) (b r : Int) :
    equation a operation b r ≠ impossible := by
  intro heq
  have hne : decimalInt a ≠ [] := by
    unfold decimalInt
    split
    · exact List.cons_ne_nil _ _
    · exact decimal_ne_nil _
  obtain ⟨d, ds, hd⟩ := List.exists_cons_of_ne_nil hne
  have hhead : d = 'O' := by
    unfold equation at heq
    rw [hd] at heq
    exact (List.cons.inj heq).1
  have hchar := decimalInt_char (v := a) (c := d) (by rw [hd]; exact List.mem_cons_self)
  subst hhead
  rcases hchar with h | h
  · cases h
  · cases h

/-- Either there is no exact result and the status is 0, or the code traps because the exact result
does not fit, or it gives a number, which is the exact result if that fits. -/
theorem compute_cases (q : Request) :
    q.exact = none ∧ compute q.operation q.op1 q.op2 = some (-1, 0) ∨
      ∃ r, q.exact = some r ∧ (¬ IsInt r ∧ compute q.operation q.op1 q.op2 = none ∨
        ∃ m, compute q.operation q.op1 q.op2 = some (m, 1) ∧ (IsInt r → wrap32 m = r)) := by
  unfold Request.exact compute
  by_cases hplus : q.operation = plus
  · simp only [if_pos hplus]
    exact .inr ⟨_, rfl, .inr ⟨_, rfl, fun h => by rw [add32_eq h.1 h.2, wrap32_eq h.1 h.2]⟩⟩
  simp only [if_neg hplus]
  by_cases hminus : q.operation = minus
  · simp only [if_pos hminus]
    refine .inr ⟨_, rfl, .inr ⟨_, rfl, fun h => ?_⟩⟩
    have hfits : sub32 q.op1 q.op2 = q.op1 - q.op2 := wrap32_eq h.1 h.2
    rw [hfits, wrap32_eq h.1 h.2]
  simp only [if_neg hminus]
  by_cases htimes : q.operation = times
  · simp only [if_pos htimes]
    refine .inr ⟨_, rfl, .inr ⟨_, rfl, fun h => ?_⟩⟩
    have hfits : mul32 q.op1 q.op2 = q.op1 * q.op2 := wrap32_eq h.1 h.2
    rw [hfits, wrap32_eq h.1 h.2]
  simp only [if_neg htimes]
  by_cases hslash : q.operation = slash
  · by_cases hzero : q.op2 = 0
    · exact .inl ⟨if_neg fun h => h.2 hzero, by rw [if_pos hslash, if_pos hzero]⟩
    · rw [if_pos ⟨hslash, hzero⟩, if_pos hslash, if_neg hzero]
      by_cases htrap : q.op1 = -2 ^ 31 ∧ q.op2 = -1
      · refine .inr ⟨_, rfl, .inl ⟨?_, if_pos htrap⟩⟩
        rw [htrap.1, htrap.2]
        decide
      · rw [if_neg htrap]
        exact .inr ⟨_, rfl, .inr ⟨_, rfl, fun h => wrap32_eq h.1 h.2⟩⟩
  · exact .inl ⟨if_neg fun h => hslash h.1, if_neg hslash⟩

theorem outcome_iff (q : Request) : q.outcome = .printed q.answer ↔ q.Fits := by
  unfold Request.outcome Request.given Request.answer Request.Fits
  rcases compute_cases q with ⟨hexact, hcompute⟩ | ⟨r, hexact, ⟨hbig, hcompute⟩ | ⟨m, hcompute, hm⟩⟩
  · rw [hexact, hcompute]
    simp
  · rw [hexact, hcompute]
    simp [hbig]
  · rw [hexact, hcompute]
    by_cases hr : IsInt r
    · simp [hr, hm hr]
    · simp [hr, equation_ne]

/-- However the pieces fall, the server is not trapped and the client prints the right answer; and
there are calls that come to an end. -/
def Client.Exact (k : Client) (argv : List CString) : Prop :=
  ∀ stack, stack.length = dataSize →
    (∀ c o, c.Undisturbed → k.exchange argv stack c = some o →
      o = .printed (k.request argv).answer) ∧
    ∃ c o, c.Undisturbed ∧ k.exchange argv stack c = some o

theorem Client.Exact.fits (h : k.Exact argv) : (k.request argv).Fits := by
  obtain ⟨hall, c, o, hc, ho⟩ := h (List.replicate dataSize 0) List.length_replicate
  rw [← outcome_iff, ← exchange_outcome hc List.length_replicate ho]
  exact hall c o hc ho

/-- **Exact answers**: through either client the answer is right if and only if the exact result,
where there is one, is an `int32_t`. -/
theorem exact_iff (k : Client) (argv : List CString) : k.Exact argv ↔ (k.request argv).Fits := by
  refine ⟨Client.Exact.fits, fun h stack hstack => ⟨fun c o hc ho => ?_, .whole, ?_⟩⟩
  · exact (exchange_outcome hc hstack ho).trans ((outcome_iff _).mpr h)
  · obtain ⟨o, ho⟩ := exchange_whole k argv stack
    exact ⟨o, whole_undisturbed, ho⟩

/-- `-2147483648 / -1` through the local client. -/
def leastByMinusOne : List CString :=
  [⟨[99], by decide⟩, ⟨[115], by decide⟩, ⟨[45, 50, 49, 52, 55, 52, 56, 51, 54, 52, 56], by decide⟩,
    ⟨[45, 49], by decide⟩, ⟨[47], by decide⟩]

/-- `2147483647 + 1` through the TCP client. -/
def greatestPlusOne : List CString :=
  [⟨[99], by decide⟩, ⟨[108], by decide⟩, ⟨[56], by decide⟩,
    ⟨[50, 49, 52, 55, 52, 56, 51, 54, 52, 55], by decide⟩, ⟨[49], by decide⟩, ⟨[43], by decide⟩]

/-- **Results that do not fit**: the first one traps the server. -/
theorem not_exact : ¬ Client.overLocal.Exact leastByMinusOne ∧
    (Client.overLocal.request leastByMinusOne).outcome = .trapped ∧
    ¬ Client.overTcp.Exact greatestPlusOne := by
  have hleast : (Client.overLocal.request leastByMinusOne).exact = some (2 ^ 31) := by
    decide +kernel
  have hgreatest : (Client.overTcp.request greatestPlusOne).exact = some (2 ^ 31) := by
    decide +kernel
  have hbig : ¬ IsInt (2 ^ 31) := by decide
  exact ⟨fun h => hbig (h.fits _ hleast), by decide +kernel, fun h => hbig (h.fits _ hgreatest)⟩

end Ops.SocketCalc
