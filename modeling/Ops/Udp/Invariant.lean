import Ops.Udp.System

/-!
# The invariant of the file transfer

`Inv` ties the client's chunk number, the server's counter and every datagram in
flight to the log: the log of an address is its file received completely some
number of times and then up to the counter (`rounds`), every datagram in flight
is one of the client's chunks, and an acknowledgement of chunk `k` means that
the log begins with the chunks `1 .. k`.
-/

namespace Ops.Udp

open Ops.Posix

/-! ## The receiver against a file -/

/-- The log of a file received completely `g` times and then up to chunk `c`. -/
def rounds (f : List Byte) (g c : Nat) : List Part :=
  (List.replicate g (parts f (chunkCount f))).flatten ++ parts f c

/-- The receiver in state `n` has printed `log`: `c` chunks of `f` since it last
released its entry. -/
structure Taken (f : List Byte) (log : List Part) (n : Option Int) (c : Nat) : Prop where
  log : ∃ g, log = rounds f g c
  lt : c < chunkCount f
  small : c < 2 ^ 31
  counter : n.getD 0 = c

theorem rounds_begin {f : List Byte} {g c k : Nat} (hk : k ≤ chunkCount f) (h : k ≤ c ∨ 0 < g) :
    parts f k <+: rounds f g c := by
  cases g with
  | zero =>
    simp only [rounds, List.replicate_zero, List.flatten_nil, List.nil_append]
    exact parts_mono f (by omega)
  | succ g =>
    simp only [rounds, List.replicate_succ, List.flatten_cons, List.append_assoc]
    exact (parts_mono f hk).trans (List.prefix_append ..)

theorem rounds_close {f : List Byte} {g c : Nat} (h : c + 1 = chunkCount f) :
    rounds f g c ++ [part f (c + 1)] = rounds f (g + 1) 0 := by
  have h0 : parts f 0 = [] := rfl
  rw [rounds, List.append_assoc, ← parts_succ, h, rounds, List.replicate_succ', List.flatten_append,
    List.flatten_singleton, h0, List.append_nil]

theorem rounds_next (f : List Byte) (g c : Nat) :
    rounds f g c ++ [part f (c + 1)] = rounds f g (c + 1) := by
  simp only [rounds, List.append_assoc, ← parts_succ]

variable {f : List Byte} {log : List Part} {n : Option Int} {c k : Nat}

theorem Taken.awaited (h : Taken f log n c) (hc : c + 1 < 2 ^ 31) : awaited n = (c + 1 : Nat) := by
  have := h.counter
  rw [Udp.awaited, this, add32_eq (by omega) (by omega)]
  rfl

/-- At the largest counter no chunk is awaited: the sum has wrapped around. -/
theorem Taken.awaited_max (h : Taken f log n c) (hc : c + 1 = 2 ^ 31) : Udp.awaited n = -2 ^ 31 := by
  have hc' : c = 2 ^ 31 - 1 := by omega
  rw [Udp.awaited, h.counter, hc']
  decide

theorem rx_part (f : List Byte) (hk : k < 2 ^ 31) :
    (⟨ntohl ((datagram f k).drop 4) ≠ 0, ntohl (datagram f k), (datagram f k).drop offset⟩ : Part) =
      part f k := by
  rw [ntohl_datagram_last, ntohl_datagram f hk, datagram_payload, part]
  cases isLast f k <;> rfl

/-- **One datagram of the file at its receiver.** It takes the next chunk, or
prints nothing; and it acknowledges only what the log begins with. -/
theorem Taken.rx (h : Taken f log n c) (hk1 : 1 ≤ k) (hk : k ≤ chunkCount f) (hk31 : k < 2 ^ 31) :
    (∃ c', Taken f (log ++ (rx n (datagram f k)).2.printed.toList) (rx n (datagram f k)).1 c') ∧
      ∀ d ∈ (rx n (datagram f k)).2.reply, d = datagram f k ∧
        parts f k <+: log ++ (rx n (datagram f k)).2.printed.toList := by
  obtain ⟨g, hg⟩ := h.log
  have hlt := h.lt
  have hno : ntohl (datagram f k) = k := ntohl_datagram f hk31
  by_cases hmax : c + 1 < 2 ^ 31
  · have haw := h.awaited hmax
    by_cases hb : k ≤ c
    · -- a chunk taken before
      rw [rx_behind (by rw [haw, hno]; omega)]
      simp only [Option.toList_none, List.append_nil, Option.mem_def, Option.some.injEq]
      refine ⟨⟨c, ⟨g, hg⟩, hlt, h.small, h.counter⟩, fun d hd => ⟨hd.symm, ?_⟩⟩
      rw [hg]
      exact rounds_begin hk (.inl hb)
    by_cases ha : k = c + 1
    · -- the next chunk
      subst ha
      rw [rx_awaited (by rw [haw, hno]), rx_part f hk31, ntohl_datagram_last]
      simp only [Option.toList_some, Option.mem_def, Option.some.injEq]
      by_cases hl : isLast f (c + 1) = true
      · have hcount : c + 1 = chunkCount f := by have := isLast_iff.mp hl; omega
        rw [hg, rounds_close hcount]
        refine ⟨⟨0, ⟨g + 1, rfl⟩, by omega, by omega, ?_⟩, fun d hd => ⟨hd.symm, ?_⟩⟩
        · simp [hl]
        · exact rounds_begin hk (.inr (by omega))
      · have hcount : c + 1 < chunkCount f := by have := mt isLast_iff.mpr hl; omega
        rw [hg, rounds_next]
        refine ⟨⟨c + 1, ⟨g, rfl⟩, hcount, hmax, ?_⟩, fun d hd => ⟨hd.symm, ?_⟩⟩
        · simp [hl, haw]
        · exact rounds_begin hk (.inl (by omega))
    · -- a chunk ahead
      rw [rx_ahead (by rw [haw, hno]; omega)]
      simp only [Option.toList_none, List.append_nil, Option.mem_def, reduceCtorEq, false_implies,
        implies_true, and_true]
      exact ⟨c, ⟨g, hg⟩, hlt, h.small, h.counter⟩
  · have hc31 := h.small
    rw [rx_ahead (by rw [h.awaited_max (by omega), hno]; omega)]
    simp only [Option.toList_none, List.append_nil, Option.mem_def, reduceCtorEq, false_implies,
      implies_true, and_true]
    exact ⟨c, ⟨g, hg⟩, hlt, h.small, h.counter⟩

/-! ## The client -/

/-- What the client may hold in `buf2`: nothing, or the acknowledgement of a chunk
that was printed. -/
def Heard (f : List Byte) (log : List Part) (b : List Byte) : Prop :=
  b = List.replicate maxBuf 0 ∨ ∃ j, 1 ≤ j ∧ j < 2 ^ 31 ∧ b = datagram f j ∧ parts f j <+: log

structure ClientOk (f : List Byte) (log : List Part) (c : Client) (k : Nat) : Prop where
  no : c.chunkNo = k
  small : k < 2 ^ 31
  file : c.pc ≠ .exited → c.file = f.drop (payloadSize * k)
  buf : c.pc ≠ .exited → c.buf.length = maxBuf
  reading : c.pc = .read → k < chunkCount f ∧ c.last = 0
  sending : c.pc = .send ∨ c.pc = .wait → 1 ≤ k ∧ k ≤ chunkCount f ∧ c.buf = datagram f k ∧
    c.last = (if isLast f k then 1 else 0) ∧ (c.size = payloadSize ↔ isLast f k = false) ∧
    Heard f log c.buf2
  acked : c.pc = .done → parts f (chunkCount f) <+: log

theorem Heard.mono {b : List Byte} {log' : List Part} (h : Heard f log b) (hl : log <+: log') :
    Heard f log' b := by
  rcases h with h | ⟨j, h1, h2, h3, h4⟩
  · exact .inl h
  · exact .inr ⟨j, h1, h2, h3, h4.trans hl⟩

theorem ClientOk.mono {cl : Client} {log' : List Part} (h : ClientOk f log cl k) (hl : log <+: log') :
    ClientOk f log' cl k where
  no := h.no
  small := h.small
  file := h.file
  buf := h.buf
  reading := h.reading
  sending hp := by
    obtain ⟨h1, h2, h3, h4, h5, h6⟩ := h.sending hp
    exact ⟨h1, h2, h3, h4, h5, h6.mono hl⟩
  acked hp := (h.acked hp).trans hl

theorem ClientOk.start {cl : Client} (h : cl.Start f) : ClientOk f [] cl 0 := by
  obtain ⟨hpc, hfile, hno, hlast, hbuf, -⟩ := h
  refine ⟨hno, by omega, fun _ => by rw [hfile]; rfl, fun _ => hbuf, fun _ => ⟨?_, hlast⟩, ?_, ?_⟩
  · exact Nat.succ_pos _
  · rw [hpc]; rintro (h | h) <;> cases h
  · rw [hpc]; intro h; cases h

theorem ClientOk.readChunk {cl cl' : Client} {rs : List ReadOutcome} (h : ClientOk f log cl k)
    (hpc : cl.pc = .read) (hr : cl.readChunk rs = some cl') : ∃ k', ClientOk f log cl' k' := by
  have halive : cl.pc ≠ .exited := by rw [hpc]; decide
  obtain ⟨hcount, hlast⟩ := h.reading hpc
  by_cases hex : cl'.pc = .exited
  · refine ⟨k, ?_, h.small, fun hne => absurd hex hne, fun hne => absurd hex hne, ?_, ?_, ?_⟩
    · simp only [Client.readChunk] at hr
      split at hr
      · cases hr
      · cases hr; exact h.no
      · split at hr
        · cases hr; cases hex
        · cases hr
    · rw [hex]; intro h; cases h
    · rw [hex]; rintro (h | h) <;> cases h
    · rw [hex]; intro h; cases h
  · obtain ⟨h1, h2, h3, h4, h5, h6, h7, h8⟩ :=
      readChunk_datagram (h.file halive) h.no hlast (h.buf halive) hr hex
    refine ⟨k + 1, h6, h1, fun _ => h3, fun _ => by rw [h4, datagram_length], ?_, fun _ => ?_, ?_⟩
    · rw [h2]; intro h; cases h
    · exact ⟨by omega, hcount, h4, h7, h8, .inl h5⟩
    · rw [h2]; intro h; cases h

theorem ClientOk.send {cl : Client} (h : ClientOk f log cl k) (hpc : cl.pc = .send) :
    ClientOk f log cl.send k := by
  have halive : cl.pc ≠ .exited := by rw [hpc]; decide
  exact ⟨h.no, h.small, fun _ => h.file halive, fun _ => h.buf halive, fun hp => (by cases hp),
    fun _ => h.sending (.inl hpc), fun hp => (by cases hp)⟩

/-- Only the acknowledgement of the client's own chunk passes the test. -/
theorem Heard.acked {b : List Byte} (h : Heard f log b) (hk1 : 1 ≤ k) (hk : k < 2 ^ 31)
    (hb : b.take 4 = htonl k) : parts f k <+: log := by
  rcases h with rfl | ⟨j, hj1, hj, rfl, hpre⟩
  · have h0 : (List.replicate maxBuf (0 : Byte)).take 4 = htonl 0 := by decide
    have := htonl_inj (by omega) (by omega) (by omega) (by omega) (h0.symm.trans hb)
    omega
  · rw [datagram, List.take_left' (htonl_length _)] at hb
    have := htonl_inj (by omega) (by omega) (by omega) (by omega) hb
    rwa [show k = j by omega]

theorem ClientOk.confirm {cl : Client} {b : List Byte} (h : ClientOk f log cl k)
    (hpc : cl.pc = .wait) (hb : Heard f log b) :
    ClientOk f log { cl with buf2 := b }.confirm k := by
  have halive : cl.pc ≠ .exited := by rw [hpc]; decide
  obtain ⟨h1, h2, h3, h4, h5, -⟩ := h.sending (.inr hpc)
  unfold Client.confirm
  split
  · rename_i hne
    refine ⟨h.no, h.small, fun _ => h.file halive, fun _ => h.buf halive, ?_,
      fun _ => ⟨h1, h2, h3, h4, h5, hb⟩, ?_⟩
    · dsimp only; split <;> (intro hp; cases hp)
    · dsimp only; split <;> (intro hp; cases hp)
  · rename_i heq
    simp only [ne_eq, Classical.not_not, h.no] at heq
    have hack := hb.acked h1 h.small heq
    refine ⟨h.no, h.small, fun _ => h.file halive, fun _ => h.buf halive, ?_, ?_, ?_⟩
    · dsimp only
      split
      · rename_i hs
        have hl := h5.mp hs
        have hnl : ¬ chunkCount f ≤ k := fun hle => by rw [isLast_iff.mpr hle] at hl; cases hl
        exact fun _ => ⟨by omega, by rw [h4, hl]; rfl⟩
      · intro hp; cases hp
    · dsimp only; split <;> (rintro (hp | hp) <;> cases hp)
    · dsimp only
      split
      · intro hp; cases hp
      · rename_i hs
        have hl : isLast f k = true := by
          cases hl : isLast f k with
          | true => rfl
          | false => exact absurd (h5.mpr hl) hs
        have hcount := isLast_iff.mp hl
        rw [show chunkCount f = k by omega]
        exact fun _ => hack

/-! ## The system -/

variable {α : Type} [DecidableEq α]

structure Inv (files : α → List Byte) (s : Net α) : Prop where
  uniq : Unique s.server.con
  bufLen : s.server.buf.length = maxBuf
  up : ∀ a d, (a, d) ∈ s.up → ∃ k, 1 ≤ k ∧ k ≤ chunkCount (files a) ∧ k < 2 ^ 31 ∧
    d = datagram (files a) k
  down : ∀ a d, (a, d) ∈ s.down → ∃ k, 1 ≤ k ∧ k < 2 ^ 31 ∧ d = datagram (files a) k ∧
    parts (files a) k <+: ofTag a s.log
  taken : ∀ a, ∃ c, Taken (files a) (ofTag a s.log) (counter s.server.con a) c
  client : ∀ a, ∃ k, ClientOk (files a) (ofTag a s.log) (s.client a) k

theorem inv_init {files : α → List Byte} {s : Net α} (h : (system files).Init s) : Inv files s := by
  obtain ⟨⟨hbuf, hfree⟩, hcl, hup, hdown, hlog⟩ := h
  have hnone : ∀ i a, ¬ Holds s.server.con i a := fun i a hh => by
    have := hfree i
    rw [hh.1] at this; cases this
  refine ⟨fun i j a hi => absurd hi (hnone i a), hbuf, ?_, ?_, fun a => ⟨0, ?_⟩, fun a => ⟨0, ?_⟩⟩
  · rw [hup]; intro a d hd; cases hd
  · rw [hdown]; intro a d hd; cases hd
  · rw [hlog, counter_none fun i => hnone i a]
    exact ⟨⟨0, rfl⟩, Nat.succ_pos _, by omega, rfl⟩
  · rw [hlog]; exact .start (hcl a)

/-- A step of one client keeps the invariant if it keeps the client's part. -/
theorem Inv.setClient {files : α → List Byte} {s : Net α} (h : Inv files s) {a : α} {cl : Client}
    (hc : ∃ k, ClientOk (files a) (ofTag a s.log) cl k) : Inv files (s.setClient a cl) := by
  refine ⟨h.uniq, h.bufLen, h.up, h.down, h.taken, fun b => ?_⟩
  by_cases hb : b = a
  · subst hb; rw [setClient_self]; exact hc
  · rw [setClient_ne s cl hb]; exact h.client b

/-- The server's step, at the address of the datagram and at the others. -/
theorem Inv.served {files : α → List Byte} {s : Net α} (h : Inv files s) {a : α} {d : List Byte}
    {r : Reaction} {server : Server α} (hd : (a, d) ∈ s.up)
    (hr : s.server.receive a d .sent = (r, some server)) : Inv files (s.served a r server) := by
  obtain ⟨k, hk1, hk, hk31, rfl⟩ := h.up a d hd
  have hall : blit s.server.buf 0 (datagram (files a) k) = datagram (files a) k :=
    blit_all (by rw [h.bufLen, datagram_length])
  by_cases hroom : Room s.server.con a
  · obtain ⟨con', he, hu, hself, hother⟩ := receive_refines h.uniq hroom (datagram (files a) k)
    rw [hall] at he hself
    rw [hr] at he
    obtain ⟨hr', hs'⟩ := Prod.ext_iff.mp he
    simp only [Option.some.injEq] at hr' hs'
    obtain ⟨c, hc⟩ := h.taken a
    obtain ⟨htaken, hack⟩ := hc.rx hk1 hk hk31
    rw [← hr'] at htaken hack
    have hlog : ∀ b, ofTag b s.log <+: ofTag b (s.served a r server).log := fun b => by
      simp only [Net.served, ofTag_append]; exact List.prefix_append ..
    have hlog' : ofTag a (s.served a r server).log = ofTag a s.log ++ r.printed.toList := by
      simp only [Net.served, ofTag_append, ofTag_map_self]
    refine ⟨?_, ?_, h.up, ?_, ?_, ?_⟩
    · simp only [Net.served, hs']; exact hu
    · simp only [Net.served, hs']; exact datagram_length ..
    · intro b e hb
      simp only [Net.served, List.mem_append, List.mem_map, Prod.mk.injEq] at hb
      rcases hb with hb | ⟨e', he', rfl, rfl⟩
      · obtain ⟨j, h1, h2, h3, h4⟩ := h.down b e hb
        exact ⟨j, h1, h2, h3, h4.trans (hlog b)⟩
      · obtain ⟨h1, h2⟩ := hack e' (Option.mem_toList.mp he')
        exact ⟨k, hk1, hk31, h1, by rw [hlog']; exact h2⟩
    · intro b
      by_cases hb : b = a
      · subst hb
        rw [hlog', show (s.served b r server).server.con = con' by simp only [Net.served, hs'], hself]
        exact htaken
      · have hsame : ofTag b (s.served a r server).log = ofTag b s.log := by
          simp only [Net.served, ofTag_append, ofTag_map_ne (Ne.symm hb), List.append_nil]
        rw [hsame, show (s.served a r server).server.con = con' by simp only [Net.served, hs'],
          hother b hb]
        exact h.taken b
    · intro b
      obtain ⟨j, hj⟩ := h.client b
      exact ⟨j, hj.mono (hlog b)⟩
  · rw [receive_full hroom, hall] at hr
    cases hr
    have : s.served a ⟨none, none⟩ ⟨datagram (files a) k, s.server.con⟩ =
        { s with server := ⟨datagram (files a) k, s.server.con⟩ } := by
      simp [Net.served]
    rw [this]
    exact ⟨h.uniq, datagram_length .., h.up, h.down, h.taken, h.client⟩

theorem inv_next {files : α → List Byte} {s t : Net α} {act : Act α} (h : Inv files s)
    (hn : (system files).next s act = some t) : Inv files t := by
  rcases next_cases hn with ⟨a, rs, cl, hpc, hr, rfl⟩ | ⟨a, hpc, rfl⟩ | ⟨a, b, hpc, hb, rfl⟩ |
    ⟨a, d, r, server, -, hd, hr, rfl⟩
  · obtain ⟨k, hk⟩ := h.client a
    exact h.setClient (hk.readChunk hpc hr)
  · obtain ⟨k, hk⟩ := h.client a
    have h' := h.setClient ⟨k, hk.send hpc⟩
    refine ⟨h'.uniq, h'.bufLen, fun b e he => ?_, h'.down, h'.taken, h'.client⟩
    rcases List.mem_append.mp he with he | he
    · exact h.up b e he
    · obtain ⟨rfl, rfl⟩ := Prod.mk.inj (List.mem_singleton.mp he)
      obtain ⟨h1, h2, h3, -⟩ := hk.sending (.inl hpc)
      exact ⟨k, h1, h2, hk.small, h3⟩
  · obtain ⟨k, hk⟩ := h.client a
    refine h.setClient ⟨k, hk.confirm hpc ?_⟩
    have hold := (hk.sending (.inr hpc)).2.2.2.2.2
    rcases hb with rfl | ⟨d, hd, rfl⟩
    · exact hold
    · -- every datagram fills the buffer
      obtain ⟨j, h1, h2, rfl, h4⟩ := h.down a d hd
      have hlen : (s.client a).buf2.length = maxBuf := by
        rcases hold with h0 | ⟨i, -, -, h0, -⟩
        · rw [h0, List.length_replicate]
        · rw [h0, datagram_length]
      rw [blit_all (by rw [hlen, datagram_length])]
      exact .inr ⟨j, h1, h2, rfl, h4⟩
  · exact h.served hd hr

theorem inv_reach {files : α → List Byte} {s : Net α} (h : (system files).Reach s) : Inv files s :=
  LTS.Reach.inv (fun _ => inv_init) (fun _ _ _ _ hi hn => inv_next hi hn) h

end Ops.Udp
