import Ops.Udp.Server

/-!
# One address at a time: the stop-and-wait receiver

What the table is for: each address has its own receiver, `rx`, whose state is
the number of the last chunk it took, or `none` while it keeps nothing. The
server with room in its table is the family of these receivers
(`receive_refines`); without room it ignores the newcomer (`receive_full`).
-/

namespace Ops.Udp

/-- The chunk number a receiver waits for. -/
def awaited (c : Option Int) : Int := add32 (c.getD 0) 1

/-- The receiver of one address on the datagram in `buf`: its next state, and what
it prints and sends back. -/
def rx (c : Option Int) (buf : List Byte) : Option Int × Reaction :=
  let chunkNo := ntohl buf
  let last := ntohl (buf.drop 4)
  if chunkNo > awaited c then (some (c.getD 0), ⟨none, none⟩)
  else if chunkNo = awaited c then
    (if last ≠ 0 then none else some (awaited c),
      ⟨some ⟨last ≠ 0, chunkNo, buf.drop offset⟩, some buf⟩)
  else (some (c.getD 0), ⟨none, some buf⟩)

/-- A chunk that is ahead leaves the receiver waiting and unanswered. -/
theorem rx_ahead {c : Option Int} {buf : List Byte} (h : ntohl buf > awaited c) :
    rx c buf = (some (c.getD 0), ⟨none, none⟩) := by
  simp [rx, h]

theorem rx_awaited {c : Option Int} {buf : List Byte} (h : ntohl buf = awaited c) :
    rx c buf = (if ntohl (buf.drop 4) ≠ 0 then none else some (awaited c),
      ⟨some ⟨ntohl (buf.drop 4) ≠ 0, ntohl buf, buf.drop offset⟩, some buf⟩) := by
  simp [rx, h]

theorem rx_behind {c : Option Int} {buf : List Byte} (h : ntohl buf < awaited c) :
    rx c buf = (some (c.getD 0), ⟨none, some buf⟩) := by
  have h1 : ¬ ntohl buf > awaited c := by omega
  have h2 : ntohl buf ≠ awaited c := by omega
  simp [rx, h1, h2]

variable {α : Type} [DecidableEq α]

def Room (con : Con α) (addr : α) : Prop := counter con addr ≠ none ∨ ∃ i, (con i).free = true

/-- The entry found or taken for `addr` carries its receiver. -/
theorem serveAt_rx {con : Con α} (hu : Unique con) {i : Fin maxAddr} {addr : α}
    (hi : Holds con i addr) (buf : List Byte) :
    ∃ con', serveAt buf con i .sent = ((rx (counter con addr) buf).2, some ⟨buf, con'⟩) ∧
      Unique con' ∧ counter con' addr = (rx (counter con addr) buf).1 ∧
      ∀ b, b ≠ addr → counter con' b = counter con b := by
  have hc : awaited (counter con addr) = add32 (con i).chunkNo 1 := by
    rw [counter_holds hu hi]; rfl
  rcases Int.lt_trichotomy (ntohl buf) (awaited (counter con addr)) with hk | hk | hk
  · rw [rx_behind hk]
    have hstep : chunkStep buf (con i) = some (none, con i) := by
      have h1 : ¬ ntohl buf > add32 (con i).chunkNo 1 := by omega
      have h2 : ntohl buf ≠ add32 (con i).chunkNo 1 := by omega
      simp [chunkStep, h1, h2]
    refine ⟨con, ?_, hu, by rw [counter_holds hu hi]; rfl, fun _ _ => rfl⟩
    simp only [serveAt, hstep, Function.update_eq_self]
  · rw [rx_awaited hk]
    rw [hc] at hk ⊢
    let c : Connection α :=
      ⟨if ntohl (buf.drop 4) ≠ 0 then true else (con i).free, add32 (con i).chunkNo 1, (con i).addr⟩
    have hstep : chunkStep buf (con i) =
        some (some ⟨ntohl (buf.drop 4) ≠ 0, ntohl buf, buf.drop offset⟩, c) := by
      simp [chunkStep, hk, c]
    obtain ⟨h1, h2, h3⟩ := update_entry hu (c := c) hi.2 (.inl hi)
    refine ⟨Function.update con i c, ?_, h1, ?_, h3⟩
    · simp only [serveAt, hstep]
    · rw [h2]
      by_cases hl : ntohl (buf.drop 4) = 0 <;> simp [c, hl, hi.1]
  · rw [rx_ahead hk]
    have hstep : chunkStep buf (con i) = none := by
      have h1 : ntohl buf > add32 (con i).chunkNo 1 := by omega
      simp [chunkStep, h1]
    refine ⟨con, ?_, hu, by rw [counter_holds hu hi]; rfl, fun _ _ => rfl⟩
    simp only [serveAt, hstep]

/-- **With room in its table, the server is the family of its receivers.** -/
theorem receive_refines {s : Server α} (hu : Unique s.con) {addr : α} (hroom : Room s.con addr)
    (d : List Byte) :
    ∃ con', s.receive addr d .sent =
        ((rx (counter s.con addr) (blit s.buf 0 d)).2, some ⟨blit s.buf 0 d, con'⟩) ∧
      Unique con' ∧ counter con' addr = (rx (counter s.con addr) (blit s.buf 0 d)).1 ∧
      ∀ b, b ≠ addr → counter con' b = counter s.con b := by
  rcases findIndex_cases addr s.con with ⟨i, hi, hf⟩ | ⟨hn, i, hi, hf⟩ | ⟨hn, hfull, -⟩
  · simp only [Server.receive, hf]
    exact serveAt_rx hu hi _
  · simp only [Server.receive, hf]
    -- a free entry is taken with counter 0, as if `addr` had had that entry before
    obtain ⟨h1, h2, h3⟩ := update_entry hu (c := ⟨false, 0, addr⟩) rfl (.inr ⟨hi, hn⟩)
    have hh : Holds (Function.update s.con i ⟨false, 0, addr⟩) i addr :=
      holds_update.mpr (.inl ⟨rfl, rfl, rfl⟩)
    have h0 : counter (Function.update s.con i ⟨false, 0, addr⟩) addr = some 0 := h2
    obtain ⟨con', e1, e2, e3, e4⟩ := serveAt_rx h1 hh (blit s.buf 0 d)
    have hrx : rx (some 0) (blit s.buf 0 d) = rx (counter s.con addr) (blit s.buf 0 d) := by
      rw [counter_none hn]; rfl
    rw [h0, hrx] at e1 e3
    exact ⟨con', e1, e2, e3, fun b hb => (e4 b hb).trans (h3 b hb)⟩
  · rcases hroom with h | ⟨i, h⟩
    · exact absurd (counter_none hn) h
    · rw [hfull i] at h; cases h

/-- A chunk the entry's counter has passed changes nothing but `buf`. -/
theorem receive_behind {s : Server α} (hu : Unique s.con) {addr : α} {n : Int}
    (hn : counter s.con addr = some n) {d : List Byte}
    (hk : ntohl (blit s.buf 0 d) < awaited (some n)) :
    s.receive addr d .sent = (⟨none, some (blit s.buf 0 d)⟩, some ⟨blit s.buf 0 d, s.con⟩) := by
  rcases findIndex_cases addr s.con with ⟨i, hi, hf⟩ | ⟨hnone, -⟩ | ⟨hnone, -, -⟩
  · rw [counter_holds hu hi, Option.some.injEq] at hn
    have hstep : chunkStep (blit s.buf 0 d) (s.con i) = some (none, s.con i) := by
      have h1 : ¬ ntohl (blit s.buf 0 d) > add32 (s.con i).chunkNo 1 := by
        rw [hn]; simp only [awaited, Option.getD_some] at hk; omega
      have h2 : ntohl (blit s.buf 0 d) ≠ add32 (s.con i).chunkNo 1 := by
        rw [hn]; simp only [awaited, Option.getD_some] at hk; omega
      simp [chunkStep, h1, h2]
    simp only [Server.receive, hf, serveAt, hstep, Function.update_eq_self]
  · rw [counter_none hnone] at hn; cases hn
  · rw [counter_none hnone] at hn; cases hn

theorem receive_full {s : Server α} {addr : α} (h : ¬ Room s.con addr) (d : List Byte)
    (send : SendOutcome) :
    s.receive addr d send = (⟨none, none⟩, some ⟨blit s.buf 0 d, s.con⟩) := by
  simp only [Room, not_or, Classical.not_not, not_exists] at h
  rcases findIndex_cases addr s.con with ⟨i, hi, -⟩ | ⟨-, i, hi, -⟩ | ⟨-, -, hf⟩
  · exact absurd hi (counter_eq_none_iff.mp h.1 i)
  · exact absurd hi (h.2 i)
  · simp only [Server.receive, hf]

/-- The server only sends `d` back: it prints nothing and no entry changes. -/
def Server.Echoes (s : Server α) (addr : α) (d : List Byte) : Prop :=
  ∃ buf, s.receive addr d .sent = (⟨none, some d⟩, some ⟨buf, s.con⟩)

/-- **The server only echoes a datagram** exactly when the sender's entry has
counted past its chunk. -/
theorem echoes_iff {s : Server α} (hu : Unique s.con) (hbuf : s.buf.length = maxBuf) {addr : α}
    {d : List Byte} (hd : d.length = maxBuf) :
    s.Echoes addr d ↔ ∃ n, counter s.con addr = some n ∧ ntohl d < awaited (some n) := by
  have hall : blit s.buf 0 d = d := blit_all (by omega)
  constructor
  · rintro ⟨buf, he⟩
    by_cases hroom : Room s.con addr
    · obtain ⟨con', hr, -, hself, -⟩ := receive_refines hu hroom d
      rw [he, hall] at hr
      rw [hall] at hself
      obtain ⟨h1, h2⟩ := Prod.ext_iff.mp hr
      obtain ⟨-, rfl⟩ := (Server.mk.injEq ..).mp (Option.some.inj h2)
      simp only at h1
      rcases Int.lt_trichotomy (ntohl d) (awaited (counter s.con addr)) with hk | hk | hk
      · rw [rx_behind hk] at hself
        exact ⟨_, hself, hself ▸ hk⟩
      · rw [rx_awaited hk] at h1; cases h1
      · rw [rx_ahead hk] at h1; cases h1
    · rw [receive_full hroom] at he; cases he
  · rintro ⟨n, hn, hk⟩
    refine ⟨d, ?_⟩
    have := receive_behind hu hn (d := d) (by rwa [hall])
    rwa [hall] at this

end Ops.Udp
