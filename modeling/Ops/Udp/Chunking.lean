import Ops.Lib.Transition
import Ops.Udp.Client

/-!
# The chunks of the client

`doClient` alone, with whatever comes back from the network. `sent` has the datagrams in the order
of the calls of `sendto`. When each chunk is acknowledged, by the sixth answer at the latest, the
client ends, and it has sent the chunks of its file one after the other (`chunking`).
-/

namespace Ops.Udp

open Ops.Posix

structure Sender where
  client : Client
  sent : List (List Byte)

/-- What the environment does: the outcomes of the `read`s, a datagram, or the alarm. -/
inductive SenderAct where
  | read (rs : List ReadOutcome)
  | send
  | recv (d : List Byte)
  | timeout

def Sender.next (s : Sender) : SenderAct → Option Sender
  | .read rs =>
    if s.client.pc = .read then (s.client.readChunk rs).map fun c => { s with client := c }
    else none
  | .send =>
    if s.client.pc = .send then some ⟨s.client.send, s.sent ++ [s.client.buf]⟩ else none
  | .recv d =>
    if s.client.pc = .wait ∧ d.length ≤ maxBuf then some { s with client := s.client.recv d }
    else none
  | .timeout => if s.client.pc = .wait then some { s with client := s.client.timeout } else none

def sender (file : List Byte) : LTS Sender SenderAct where
  Init s := s.client.Start file ∧ s.sent = []
  next := Sender.next

/-- Each chunk is acknowledged: a sixth datagram is answered with the chunk's number. -/
def Acknowledged (s : Sender) : SenderAct → Prop
  | .recv d => s.client.tries ≤ 5 ∨ (blit s.client.buf2 0 d).take 4 = htonl s.client.chunkNo
  | .timeout => s.client.tries ≤ 5
  | .read rs => ∀ e, .error e ∉ rs
  | .send => True

def chunk (f : List Byte) (k : Nat) : List Byte :=
  if k ≤ f.length / 568 then htonl k ++ (htonl 0 ++ (f.drop (568 * (k - 1))).take 568)
  else htonl k ++ (htonl 1 ++
    (f.drop (568 * (k - 1)) ++ List.replicate (568 - f.length % 568) 0))

/-- The first `k` chunks, each at most six times. -/
inductive Sends (chunk : Nat → List Byte) : Nat → List (List Byte) → Prop where
  | nil : Sends chunk 0 []
  | more {k m : Nat} {l : List (List Byte)} : Sends chunk k l → 1 ≤ m → m ≤ 6 →
      Sends chunk (k + 1) (l ++ List.replicate m (chunk (k + 1)))

theorem Sends.mem_iff {chunk : Nat → List Byte} {k : Nat} {l : List (List Byte)}
    (h : Sends chunk k l) {d : List Byte} : d ∈ l ↔ ∃ i, 1 ≤ i ∧ i ≤ k ∧ d = chunk i := by
  induction h with
  | nil =>
    simp only [List.not_mem_nil, false_iff]
    rintro ⟨i, hi, hi', -⟩
    omega
  | @more k m l _ hm _ ih =>
    rw [List.mem_append, ih, List.mem_replicate]
    constructor
    · rintro (⟨i, hi, hi', rfl⟩ | ⟨-, rfl⟩)
      · exact ⟨i, hi, by omega, rfl⟩
      · exact ⟨k + 1, by omega, by omega, rfl⟩
    · rintro ⟨i, hi, hi', rfl⟩
      by_cases hk : i = k + 1
      · exact .inr ⟨by omega, by rw [hk]⟩
      · exact .inl ⟨i, hi, by omega, rfl⟩

theorem Sends.congr {chunk chunk' : Nat → List Byte} {k : Nat} {l : List (List Byte)}
    (h : Sends chunk k l) (hsame : ∀ i, 1 ≤ i → i ≤ k → chunk i = chunk' i) : Sends chunk' k l := by
  induction h with
  | nil => exact .nil
  | @more k m l _ hm hm' ih =>
    rw [hsame (k + 1) (by omega) (by omega)]
    exact .more (ih fun i hi hi' => hsame i hi (by omega)) hm hm'

/-! ## A chunk is a datagram of the client -/

theorem chunk_eq {f : List Byte} {k : Nat} (hk : 1 ≤ k) (hk' : k ≤ chunkCount f) :
    datagram f k = chunk f k := by
  have hcount : chunkCount f = f.length / 568 + 1 := rfl
  have hlast : isLast f k = true ↔ chunkCount f ≤ k := isLast_iff
  unfold chunk datagram
  by_cases hle : k ≤ f.length / 568
  · have hlen : ((f.drop (568 * (k - 1))).take 568).length = 568 := by
      rw [List.length_take, List.length_drop]
      omega
    have hpayload : payload f k = (f.drop (568 * (k - 1))).take 568 := by
      show (f.drop (568 * (k - 1))).take 568 ++ List.replicate (568 -
        ((f.drop (568 * (k - 1))).take 568).length) 0 = _
      rw [hlen, Nat.sub_self, List.replicate_zero, List.append_nil]
    have hmore : ¬ isLast f k = true := fun hl => by
      have hge := hlast.mp hl
      omega
    rw [if_pos hle, if_neg hmore, hpayload]
  · have hlen : (f.drop (568 * (k - 1))).length = f.length % 568 := by
      rw [List.length_drop]
      omega
    have hpayload : payload f k =
        f.drop (568 * (k - 1)) ++ List.replicate (568 - f.length % 568) 0 := by
      show (f.drop (568 * (k - 1))).take 568 ++ List.replicate (568 -
        ((f.drop (568 * (k - 1))).take 568).length) 0 = _
      rw [List.take_of_length_le (by omega), hlen]
    rw [if_neg hle, if_pos (hlast.mpr (by omega)), hpayload]

theorem chunk_inj {f : List Byte} {i k : Nat} (hi : i < 2 ^ 31) (hk : k < 2 ^ 31)
    (h : chunk f i = chunk f k) : i = k := by
  have htake : ∀ j, (chunk f j).take 4 = htonl j := fun j => by
    unfold chunk
    split
    · exact List.take_left' (htonl_length j)
    · exact List.take_left' (htonl_length j)
  have hno : htonl i = htonl k := by rw [← htake i, ← htake k, h]
  exact_mod_cast htonl_inj (by omega) (by omega) (by omega) (by omega) hno

/-! ## The run -/

/-- The client repeats chunk `k`, and has sent the chunks before it as `l`. -/
structure Sender.Repeats (f : List Byte) (k : Nat) (s : Sender) : Prop where
  count : k ≤ chunkCount f
  buf : s.client.buf = datagram f k
  last : s.client.last = if isLast f k then 1 else 0
  size : s.client.size = payloadSize ↔ isLast f k = false
  sent : ∃ j l, k = j + 1 ∧ Sends (datagram f) j l ∧
    s.sent = l ++ List.replicate s.client.tries (datagram f k)

/-- After `k` chunks were read. -/
structure Sender.Inv (f : List Byte) (k : Nat) (s : Sender) : Prop where
  file : s.client.file = f.drop (payloadSize * k)
  chunkNo : s.client.chunkNo = k
  buf : s.client.buf.length = maxBuf
  pc : match s.client.pc with
    | .read => k < chunkCount f ∧ s.client.last = 0 ∧ Sends (datagram f) k s.sent
    | .send => s.Repeats f k ∧ s.client.tries ≤ 5
    | .wait => s.Repeats f k ∧ 1 ≤ s.client.tries ∧ s.client.tries ≤ 6
    | .done => k = chunkCount f ∧ Sends (datagram f) k s.sent
    | .gaveUp | .exited => False

def Sender.left (f : List Byte) (s : Sender) : Nat :=
  13 * (chunkCount f - s.client.chunkNo.toNat) +
    match s.client.pc with
    | .send => 2 * (6 - s.client.tries)
    | .wait => 2 * (6 - s.client.tries) + 1
    | .read | .done | .gaveUp | .exited => 0

variable {f : List Byte} {k : Nat} {s t : Sender} {c : Client} {rs : List ReadOutcome}

theorem readChunk_alive (h : s.client.readChunk rs = some c) (hrs : ∀ e, .error e ∉ rs) :
    c.pc ≠ .exited ∧ c.tries = 0 := by
  simp only [Client.readChunk] at h
  split at h
  · cases h
  · rename_i hr
    exact absurd (bulkRead_error hr) (hrs _)
  · split at h
    · cases h
      exact ⟨by rintro ⟨⟩, rfl⟩
    · cases h

theorem read_step (h : s.Inv f k) (hpc : s.client.pc = .read) (hrs : ∀ e, .error e ∉ rs)
    (hn : s.client.readChunk rs = some c) :
    Sender.Inv f (k + 1) { s with client := c } ∧
      Sender.left f { s with client := c } < s.left f := by
  obtain ⟨hlt, hlast, hsends⟩ : k < chunkCount f ∧ s.client.last = 0 ∧
      Sends (datagram f) k s.sent := by
    have hread := h.pc
    rw [hpc] at hread
    exact hread
  obtain ⟨halive, htries⟩ := readChunk_alive hn hrs
  obtain ⟨-, hsend, hfile, hbuf, -, hno, hlast', hsize⟩ :=
    readChunk_datagram h.file h.chunkNo hlast h.buf hn halive
  refine ⟨⟨hfile, hno, by rw [hbuf, datagram_length], ?_⟩, ?_⟩
  · rw [hsend]
    refine ⟨⟨hlt, hbuf, hlast', hsize, k, s.sent, rfl, hsends, ?_⟩, ?_⟩
    · show s.sent = s.sent ++ List.replicate c.tries _
      rw [htries, List.replicate_zero, List.append_nil]
    · show c.tries ≤ 5
      omega
  · unfold Sender.left
    simp only [hsend, htries, hno, hpc, h.chunkNo]
    omega

theorem send_step (h : s.Inv f k) (hpc : s.client.pc = .send) :
    Sender.Inv f k ⟨s.client.send, s.sent ++ [s.client.buf]⟩ ∧
      Sender.left f ⟨s.client.send, s.sent ++ [s.client.buf]⟩ < s.left f := by
  obtain ⟨hrep, htries⟩ : s.Repeats f k ∧ s.client.tries ≤ 5 := by
    have hsend := h.pc
    rw [hpc] at hsend
    exact hsend
  obtain ⟨j, l, hk, hsends, hsent⟩ := hrep.sent
  refine ⟨⟨h.file, h.chunkNo, h.buf, ?_⟩, ?_⟩
  · show Sender.Repeats f k _ ∧ 1 ≤ s.client.tries + 1 ∧ s.client.tries + 1 ≤ 6
    refine ⟨⟨hrep.count, hrep.buf, hrep.last, hrep.size, j, l, hk, hsends, ?_⟩, by omega, by omega⟩
    show s.sent ++ [s.client.buf] = l ++ List.replicate (s.client.tries + 1) (datagram f k)
    rw [hsent, hrep.buf, List.append_assoc, List.replicate_succ']
  · unfold Sender.left
    rw [hpc]
    show 13 * (chunkCount f - s.client.chunkNo.toNat) + (2 * (6 - (s.client.tries + 1)) + 1) <
      13 * (chunkCount f - s.client.chunkNo.toNat) + 2 * (6 - s.client.tries)
    omega

theorem Sender.Repeats.sends (h : s.Repeats f k) (hmin : 1 ≤ s.client.tries)
    (hmax : s.client.tries ≤ 6) : Sends (datagram f) k s.sent := by
  obtain ⟨j, l, rfl, hsends, hsent⟩ := h.sent
  rw [hsent]
  exact .more hsends hmin hmax

theorem confirm_step {b : List Byte} (h : s.Inv f k) (hpc : s.client.pc = .wait)
    (hack : s.client.tries ≤ 5 ∨ b.take 4 = htonl s.client.chunkNo) :
    Sender.Inv f k { s with client := { s.client with buf2 := b }.confirm } ∧
      Sender.left f { s with client := { s.client with buf2 := b }.confirm } < s.left f := by
  obtain ⟨hrep, hmin, hmax⟩ : s.Repeats f k ∧ 1 ≤ s.client.tries ∧ s.client.tries ≤ 6 := by
    have hwait := h.pc
    rw [hpc] at hwait
    exact hwait
  have hleft : s.left f = 13 * (chunkCount f - s.client.chunkNo.toNat) +
      (2 * (6 - s.client.tries) + 1) := by
    unfold Sender.left
    rw [hpc]
  rw [hleft]
  unfold Client.confirm
  by_cases hmatch : b.take 4 = htonl s.client.chunkNo
  · rw [if_neg (not_not.mpr hmatch)]
    by_cases hsize : s.client.size = payloadSize
    · rw [if_pos hsize]
      have hmore := hrep.size.mp hsize
      have hlt : k < chunkCount f := Nat.lt_of_not_le fun hge => by
        rw [isLast_iff.mpr hge] at hmore
        cases hmore
      refine ⟨⟨h.file, h.chunkNo, h.buf, hlt, ?_, hrep.sends hmin hmax⟩, ?_⟩
      · show s.client.last = 0
        rw [hrep.last, hmore]
        rfl
      · show 13 * (chunkCount f - s.client.chunkNo.toNat) + 0 < _
        omega
    · rw [if_neg hsize]
      have hlast : isLast f k = true := by
        rw [hrep.size] at hsize
        exact Bool.not_eq_false _ ▸ hsize
      have hcount : k = chunkCount f := Nat.le_antisymm hrep.count (isLast_iff.mp hlast)
      refine ⟨⟨h.file, h.chunkNo, h.buf, hcount, hrep.sends hmin hmax⟩, ?_⟩
      show 13 * (chunkCount f - s.client.chunkNo.toNat) + 0 < _
      omega
  · have htries := hack.resolve_right hmatch
    rw [if_pos hmatch, if_pos htries]
    refine ⟨⟨h.file, h.chunkNo, h.buf, ⟨hrep.count, hrep.buf, hrep.last, hrep.size, hrep.sent⟩,
      htries⟩, ?_⟩
    show 13 * (chunkCount f - s.client.chunkNo.toNat) + 2 * (6 - s.client.tries) < _
    omega

theorem sender_step {act : SenderAct} (h : ∃ k, s.Inv f k) (hC : Acknowledged s act)
    (hn : s.next act = some t) : (∃ k, t.Inv f k) ∧ t.left f < s.left f := by
  obtain ⟨k, hk⟩ := h
  cases act with
  | read rs =>
    simp only [Sender.next] at hn
    split at hn
    · rename_i hpc
      obtain ⟨c, hc, rfl⟩ := Option.map_eq_some_iff.mp hn
      exact (read_step hk hpc hC hc).imp_left fun hinv => ⟨k + 1, hinv⟩
    · cases hn
  | send =>
    simp only [Sender.next] at hn
    split at hn
    · rename_i hpc
      cases hn
      exact (send_step hk hpc).imp_left fun hinv => ⟨k, hinv⟩
    · cases hn
  | recv d =>
    simp only [Sender.next] at hn
    split at hn
    · rename_i hpc
      cases hn
      exact (confirm_step hk hpc.1 hC).imp_left fun hinv => ⟨k, hinv⟩
    · cases hn
  | timeout =>
    simp only [Sender.next] at hn
    split at hn
    · rename_i hpc
      cases hn
      exact (confirm_step (b := s.client.buf2) hk hpc (.inl hC)).imp_left fun hinv => ⟨k, hinv⟩
    · cases hn

theorem sender_init (hs : (sender f).Init s) : s.Inv f 0 := by
  obtain ⟨⟨hpc, hfile, hno, hlast, hbuf, -⟩, hsent⟩ := hs
  refine ⟨by rw [hfile]; rfl, hno, hbuf, ?_⟩
  rw [hpc, hsent]
  exact ⟨Nat.succ_pos _, hlast, .nil⟩

/-- The client can go on until it is done, and an answer with the number of the chunk will do. -/
theorem sender_moves (h : s.Inv f k) (hcount : chunkCount f < 2 ^ 31)
    (hdone : s.client.pc ≠ .done) :
    ∃ act t, Acknowledged s act ∧ s.next act = some t := by
  have hpc := h.pc
  cases hc : s.client.pc with
  | read =>
    rw [hc] at hpc
    obtain ⟨n, buf, rest, hr⟩ := bulkRead_whole (s := ⟨s.client.file, true⟩) (m := 567)
      (k := payloadSize) (.inl rfl) (Nat.le_refl 568) s.client.buf offset 0
    refine ⟨.read [.data 567, .data 567], ?_⟩
    have hno := h.chunkNo
    have hmax : s.client.chunkNo < 2 ^ 31 - 1 := by omega
    simp only [Sender.next, if_pos hc, Client.readChunk, hr, if_pos hmax]
    refine ⟨_, ?_, rfl⟩
    intro e he
    simp at he
  | send => exact ⟨.send, _, trivial, if_pos hc⟩
  | wait =>
    have hle : (htonl s.client.chunkNo).length ≤ maxBuf := by
      rw [htonl_length]
      decide
    refine ⟨.recv (htonl s.client.chunkNo), _, .inr ?_, if_pos ⟨hc, hle⟩⟩
    rw [blit_zero]
    exact List.take_left' (htonl_length _)
  | done => exact absurd hc hdone
  | gaveUp | exited => rw [hc] at hpc; exact hpc.elim

/-- **The chunks of a file.** A run of the client in which each chunk is acknowledged has a bounded
length, can go on until the client is done, and has then sent the chunks of the file in order, each
at most six times. The chunks are different from each other. -/
theorem chunking (f : List Byte) (hf : f.length / 568 + 1 < 2 ^ 31) (s₀ : Sender)
    (hinit : (sender f).Init s₀) (as : List SenderAct) (s : Sender)
    (he : (sender f).exec s₀ as = some s) (hall : (sender f).Along Acknowledged s₀ as) :
    as.length ≤ 13 * (f.length / 568 + 1) ∧
      (s.client.pc ≠ .done → ∃ act t, Acknowledged s act ∧ s.next act = some t) ∧
      (s.client.pc = .done → Sends (chunk f) (f.length / 568 + 1) s.sent ∧
        ∀ d, d ∈ s.sent ↔ ∃ k, 1 ≤ k ∧ k ≤ f.length / 568 + 1 ∧ d = chunk f k) ∧
      ∀ i k, i ≤ f.length / 568 + 1 → k ≤ f.length / 568 + 1 → chunk f i = chunk f k → i = k := by
  have hcount : chunkCount f = f.length / 568 + 1 := rfl
  have hstart := sender_init hinit
  have hlower : ∀ s act t, (∃ k, Sender.Inv f k s) → Acknowledged s act →
      (sender f).next s act = some t → (∃ k, Sender.Inv f k t) ∧ t.left f < s.left f :=
    fun _ _ _ h hC hn => sender_step h hC hn
  obtain ⟨k, hk⟩ := LTS.along_inv (fun s act t h hC hn => (hlower s act t h hC hn).1) ⟨0, hstart⟩
    hall he
  refine ⟨?_, fun hdone => sender_moves hk (hcount ▸ hf) hdone, fun hdone => ?_,
    fun i k hi hk => ?_⟩
  · have hlen := LTS.along_length (Sender.left f) hlower ⟨0, hstart⟩ hall he
    have hleft : s₀.left f = 13 * (f.length / 568 + 1) := by
      unfold Sender.left
      rw [hinit.1.1, hstart.chunkNo]
      rfl
    omega
  · have hpc := hk.pc
    rw [hdone] at hpc
    obtain ⟨rfl, hsends⟩ := hpc
    have hchunks := hsends.congr fun i hi hi' => chunk_eq hi hi'
    exact ⟨hchunks, fun _ => hchunks.mem_iff⟩
  · exact chunk_inj (by omega) (by omega)

instance : ∀ s act, Decidable (Acknowledged s act)
  | s, .recv d =>
    inferInstanceAs (Decidable (s.client.tries ≤ 5 ∨
      (blit s.client.buf2 0 d).take 4 = htonl s.client.chunkNo))
  | s, .timeout => inferInstanceAs (Decidable (s.client.tries ≤ 5))
  | _, .read rs =>
    decidable_of_iff (∀ r ∈ rs, r ≠ .error .eagain ∧ r ≠ .error .epipe ∧ r ≠ .error .other)
      ⟨fun h e he => by cases e <;> simpa using h _ he, fun h r hr => by
        refine ⟨?_, ?_, ?_⟩ <;>
          · rintro rfl
            exact h _ hr⟩
  | _, .send => inferInstanceAs (Decidable True)

/-- Two chunks, the first one read in two pieces and the second one sent twice. -/
theorem chunking_two : let f : List Byte := List.replicate 600 104
    ∃ s : Sender, s.client.pc = .done ∧ s.sent.length = 3 ∧ Sends (chunk f) 2 s.sent := by
  intro f
  let s₀ : Sender :=
    ⟨⟨.read, f, List.replicate maxBuf 0, List.replicate maxBuf 0, 0, 0, 0, 0⟩, []⟩
  have hinit : (sender f).Init s₀ :=
    ⟨⟨rfl, rfl, rfl, rfl, List.length_replicate, List.length_replicate⟩, rfl⟩
  let as : List SenderAct := [.read [.data 99, .eintr, .data 567], .send, .recv (htonl 1),
    .read [.data 567, .data 567], .send, .timeout, .send, .recv (htonl 2)]
  have hrun : ((sender f).execIf Acknowledged s₀ as).map
      (fun s => (s.client.pc, s.sent.length)) = some (.done, 3) := by decide +kernel
  obtain ⟨s, hs, hpc⟩ := Option.map_eq_some_iff.mp hrun
  obtain ⟨hdone, hsent⟩ := Prod.mk.inj hpc
  obtain ⟨he, hall⟩ := LTS.along_of_execIf hs
  have hlen : f.length = 600 := List.length_replicate
  have hsends := (chunking f (by omega) s₀ hinit as s he hall).2.2.1 hdone
  rw [hlen] at hsends
  exact ⟨s, hdone, hsent, hsends.1⟩

end Ops.Udp
