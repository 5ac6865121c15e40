import Ops.Udp.Invariant

/-!
# The run without loss

One client at work, every datagram delivered once and in order: `transfer a f k`
are the labels from chunk `k + 1` on, one `bulk_read` a chunk. Such a run keeps
client and server in `Lockstep`, whatever the pieces the file is read in; with
`whole` pieces it gets to every chunk.
-/

namespace Ops.Udp

open Ops.Posix

variable {α : Type} [DecidableEq α]

/-- A start of the system with zeroed arrays; free entries hold the address `a`. -/
def idle (files : α → List Byte) (a : α) : Net α where
  server := ⟨List.replicate maxBuf 0, fun _ => ⟨true, 0, a⟩⟩
  client b := ⟨.read, files b, List.replicate maxBuf 0, List.replicate maxBuf 0, 0, 0, 0, 0⟩
  up := []
  down := []
  log := []

theorem idle_init (files : α → List Byte) (a : α) : (system files).Init (idle files a) :=
  ⟨⟨List.length_replicate .., fun _ => rfl⟩,
    fun _ => ⟨rfl, rfl, rfl, rfl, List.length_replicate .., List.length_replicate ..⟩, rfl, rfl, rfl⟩

def transferChunk (a : α) (f : List Byte) (k : Nat) (rs : List ReadOutcome) : List (Act α) :=
  [.read a rs, .send a, .serve a (datagram f k), .recv a (datagram f k)]

def transfer (a : α) (f : List Byte) : Nat → List (List ReadOutcome) → List (Act α)
  | _, [] => []
  | k, rs :: rss => transferChunk a f (k + 1) rs ++ transfer a f (k + 1) rss

/-- The outcomes of a `bulk_read` that gets all it wants at once. -/
def whole : List ReadOutcome := [.data (payloadSize - 1), .data (payloadSize - 1)]

/-- Client and server are both at chunk `k`, and nobody else was served. -/
structure Lockstep (files : α → List Byte) (a : α) (s : Net α) (k : Nat) : Prop where
  inv : Inv files s
  client : ClientOk (files a) (ofTag a s.log) (s.client a) k
  log : ofTag a s.log = parts (files a) k
  taken : Taken (files a) (ofTag a s.log) (counter s.server.con a)
    (if k = chunkCount (files a) then 0 else k)
  alone : ∀ b, b ≠ a → counter s.server.con b = none
  sent : ∀ j, 1 ≤ j → j ≤ k → (a, datagram (files a) j) ∈ s.up
  pc : (s.client a).pc = if k = chunkCount (files a) then .done else .read

theorem Lockstep.start {files : α → List Byte} {s : Net α} (h : (system files).Init s) (a : α) :
    Lockstep files a s 0 := by
  have hinv := inv_init h
  obtain ⟨⟨-, hfree⟩, hcl, -, -, hlog⟩ := h
  have hnone : ∀ b, counter s.server.con b = none := fun b => counter_none fun i hi => by
    have := hfree i
    rw [hi.1] at this; cases this
  have hcount : ¬ 0 = chunkCount (files a) := by simp [chunkCount]
  refine ⟨hinv, ?_, by rw [hlog]; rfl, ?_, fun b _ => hnone b, fun j h1 h2 => by omega, ?_⟩
  · rw [hlog]; exact .start (hcl a)
  · rw [hnone, if_neg hcount, hlog]
    exact ⟨⟨0, rfl⟩, Nat.succ_pos _, by omega, rfl⟩
  · rw [if_neg hcount]; exact (hcl a).1

theorem Lockstep.room {files : α → List Byte} {a : α} {s : Net α} {k : Nat}
    (h : Lockstep files a s k) : Room s.server.con a := by
  by_cases hc : counter s.server.con a = none
  · refine .inr ⟨0, ?_⟩
    cases hf : (s.server.con 0).free with
    | true => rfl
    | false =>
      have hcount : counter s.server.con (s.server.con 0).addr = none := by
        by_cases ha : (s.server.con 0).addr = a
        · rw [ha]; exact hc
        · exact h.alone _ ha
      exact absurd ⟨hf, rfl⟩ (counter_eq_none_iff.mp hcount 0)
  · exact .inl hc

theorem Taken.round {f : List Byte} {log : List Part} {n : Option Int} {k : Nat}
    (h : Taken f log n k) (hk31 : k + 1 < 2 ^ 31) :
    Udp.rx n (datagram f (k + 1)) =
      (if k + 1 = chunkCount f then none else some ((k + 1 : Nat) : Int),
        ⟨some (part f (k + 1)), some (datagram f (k + 1))⟩) := by
  have haw := h.awaited hk31
  have hlast : ntohl ((datagram f (k + 1)).drop 4) ≠ 0 ↔ k + 1 = chunkCount f := by
    have hl : k + 1 = chunkCount f ↔ isLast f (k + 1) = true := by
      have := h.lt
      rw [isLast_iff]; omega
    rw [ntohl_datagram_last, hl]
    cases isLast f (k + 1) <;> simp
  rw [rx_awaited (by rw [ntohl_datagram _ hk31, haw]), rx_part _ hk31, haw]
  simp only [hlast]

theorem ClientOk.readWhole {f : List Byte} {log : List Part} {c : Client} {k : Nat}
    (h : ClientOk f log c k) (hk31 : k + 1 < 2 ^ 31) :
    ∃ c', c.readChunk whole = some c' ∧ c'.pc = .send := by
  obtain ⟨n, buf', rest, hr⟩ := bulkRead_whole (s := ⟨c.file, true⟩) (m := payloadSize - 1)
    (k := payloadSize) (.inl rfl) (by decide) c.buf offset 0
  have hno : c.chunkNo < 2 ^ 31 - 1 := by rw [h.no]; omega
  simp only [Client.readChunk, whole, hr, if_pos hno]
  exact ⟨_, rfl, rfl⟩

/-- The client's part of a chunk: it has read it, and takes its acknowledgement. -/
theorem ClientOk.round {f : List Byte} {log : List Part} {c c' : Client} {k : Nat}
    {rs : List ReadOutcome} (h : ClientOk f log c k) (hpc : c.pc = .read)
    (hread : c.readChunk rs = some c') (hex : c'.pc = .send) :
    k + 1 < 2 ^ 31 ∧ c'.buf = datagram f (k + 1) ∧
      (c'.send.recv (datagram f (k + 1))).chunkNo = (k + 1 : Nat) ∧
      (c'.send.recv (datagram f (k + 1))).pc = if k + 1 = chunkCount f then .done else .read := by
  have halive : c.pc ≠ .exited := by rw [hpc]; decide
  have halive' : c'.pc ≠ .exited := by rw [hex]; decide
  obtain ⟨hcount, hlast⟩ := h.reading hpc
  obtain ⟨h1, -, -, h4, h5, h6, -, h8⟩ :=
    readChunk_datagram (h.file halive) h.no hlast (h.buf halive) hread halive'
  have hbuf2 : blit c'.buf2 0 (datagram f (k + 1)) = datagram f (k + 1) :=
    blit_all (by rw [h5, List.length_replicate, datagram_length])
  have hack : (datagram f (k + 1)).take 4 = htonl c'.chunkNo := by
    rw [datagram, List.take_left' (htonl_length _), h6]
  have hrecv : c'.send.recv (datagram f (k + 1)) = { c'.send with
      buf2 := datagram f (k + 1), pc := if c'.size = payloadSize then .read else .done } := by
    simp only [Client.recv, Client.confirm, Client.send, hbuf2, hack, ne_eq, not_true_eq_false,
      if_false]
    rfl
  refine ⟨h1, h4, by rw [hrecv]; exact h6, ?_⟩
  rw [hrecv]
  have hl := isLast_iff (f := f) (k := k + 1)
  by_cases hlast : k + 1 = chunkCount f
  · have : ¬ c'.size = payloadSize := fun hs => by rw [h8.mp hs] at hl; simp at hl; omega
    simp only [if_pos hlast, if_neg this]
  · have : c'.size = payloadSize := h8.mpr (by rw [← Bool.not_eq_true, hl]; omega)
    simp only [if_neg hlast, if_pos this]

theorem Lockstep.next {files : α → List Byte} {a : α} {s : Net α} {k : Nat} {cl : Client}
    {rs : List ReadOutcome} (h : Lockstep files a s k) (hk : k < chunkCount (files a))
    (hread : (s.client a).readChunk rs = some cl) (hsend : cl.pc = .send) :
    ∃ t, (system files).exec s (transferChunk a (files a) (k + 1) rs) = some t ∧
      Lockstep files a t (k + 1) := by
  have hne : ¬ k = chunkCount (files a) := by omega
  have hpc : (s.client a).pc = .read := by rw [h.pc, if_neg hne]
  have htaken : Taken (files a) (ofTag a s.log) (counter s.server.con a) k := by
    have := h.taken; rwa [if_neg hne] at this
  obtain ⟨hk31, hbuf, hno, hpc'⟩ := h.client.round hpc hread hsend
  obtain ⟨con', hrecv, -, hself, hother⟩ :=
    receive_refines h.inv.uniq h.room (datagram (files a) (k + 1))
  rw [blit_all (by rw [h.inv.bufLen, datagram_length]), htaken.round hk31] at hrecv hself
  -- the four states the chunk passes through
  let d := datagram (files a) (k + 1)
  let s1 := s.setClient a cl
  let s2 : Net α := { s1.setClient a cl.send with up := s.up ++ [(a, d)] }
  let s3 := s2.served a ⟨some (part (files a) (k + 1)), some d⟩ ⟨d, con'⟩
  let t := s3.setClient a (cl.send.recv d)
  have hs1 : s1.client a = cl := setClient_self ..
  have hs2 : s2.client a = cl.send := setClient_self (s := s1) ..
  have n1 : (system files).next s (.read a rs) = some s1 := by
    simp only [system, Net.next, if_pos hpc, hread, Option.map_some, s1]
  have n2 : (system files).next s1 (.send a) = some s2 := by
    simp only [system, Net.next, hs1, if_pos hsend, hbuf, s2, d]
    rfl
  have n3 : (system files).next s2 (.serve a d) = some s3 := by
    have hup : (a, d) ∈ s2.up := List.mem_append_right _ List.mem_cons_self
    have hsrv : s2.server = s.server := rfl
    simp only [system, Net.next, if_pos hup, hsrv, d, hrecv, Option.map_some, s3]
  have n4 : (system files).next s3 (.recv a d) = some t := by
    have hwait : (s3.client a).pc = .wait := by show (s2.client a).pc = .wait; rw [hs2]; rfl
    have hdown : (a, d) ∈ s3.down := List.mem_append_right _ List.mem_cons_self
    have hcl : s3.client a = cl.send := hs2
    simp only [system, Net.next, if_pos (And.intro hwait hdown)]
    rw [hcl]
  have hinv := inv_next (inv_next (inv_next (inv_next h.inv n1) n2) n3) n4
  have hlog : ofTag a t.log = parts (files a) (k + 1) := by
    rw [parts_succ, ← h.log]
    simp [t, s3, s2, s1, Net.served]
  have hcl : t.client a = cl.send.recv d := setClient_self ..
  have hcon : t.server.con = con' := rfl
  refine ⟨t, ?_, hinv, ?_, hlog, ?_, fun b hb => ?_, fun j h1 h2 => ?_, by rw [hcl]; exact hpc'⟩
  · rw [transferChunk, LTS.exec_cons n1, LTS.exec_cons n2, LTS.exec_cons n3, LTS.exec_cons n4]
    rfl
  · obtain ⟨k', hk'⟩ := hinv.client a
    have h1 := hk'.no
    rw [hcl, hno] at h1
    rw [show k + 1 = k' by omega]
    exact hk'
  · rw [hcon, hself]
    obtain ⟨c, hc⟩ := hinv.taken a
    rw [hcon, hself] at hc
    have h1 := hc.counter
    split
    · rename_i hl
      rw [if_pos hl] at h1 hc
      simp only [Option.getD_none] at h1
      rwa [show c = 0 by omega] at hc
    · rename_i hl
      rw [if_neg hl] at h1 hc
      simp only [Option.getD_some] at h1
      rwa [show c = k + 1 by omega] at hc
  · rw [hcon, hother b hb, h.alone b hb]
  · rcases Nat.lt_or_eq_of_le h2 with h2 | rfl
    · exact List.mem_append_left _ (h.sent j h1 (by omega))
    · exact List.mem_append_right _ List.mem_cons_self

theorem transferChunk_read {files : α → List Byte} {a : α} {f : List Byte} {k : Nat}
    {rs : List ReadOutcome} {s t : Net α}
    (h : (system files).exec s (transferChunk a f k rs) = some t) :
    ∃ cl, (s.client a).readChunk rs = some cl ∧ cl.pc = .send := by
  simp only [transferChunk, LTS.exec, Option.bind_eq_some_iff] at h
  obtain ⟨s1, h1, s2, h2, -⟩ := h
  simp only [system, Net.next] at h1 h2
  split at h1
  · obtain ⟨cl, hread, rfl⟩ := Option.map_eq_some_iff.mp h1
    split at h2
    · rename_i hpc
      rw [setClient_self] at hpc
      exact ⟨cl, hread, hpc⟩
    · cases h2
  · cases h1

/-- **The run without loss** stays in lockstep. -/
theorem Lockstep.run {files : α → List Byte} {a : α} {s t : Net α} {k : Nat}
    {rss : List (List ReadOutcome)} (h : Lockstep files a s k)
    (hk : k + rss.length ≤ chunkCount (files a))
    (he : (system files).exec s (transfer a (files a) k rss) = some t) :
    Lockstep files a t (k + rss.length) := by
  induction rss generalizing s k with
  | nil => cases he; exact h
  | cons rs rss ih =>
    rw [List.length_cons] at hk
    rw [transfer, LTS.exec_append, Option.bind_eq_some_iff] at he
    obtain ⟨u, hu, hrest⟩ := he
    obtain ⟨cl, hread, hsend⟩ := transferChunk_read hu
    obtain ⟨u', hu', hl⟩ := h.next (by omega) hread hsend
    rw [hu, Option.some.injEq] at hu'
    subst hu'
    have := ih hl (by omega) hrest
    rwa [List.length_cons, show k + (rss.length + 1) = k + 1 + rss.length by omega]

/-- The run without loss gets to every chunk that the counters can name. -/
theorem Lockstep.exec {files : α → List Byte} {a : α} {s : Net α} {k n : Nat}
    (h : Lockstep files a s k) (hk : k + n ≤ chunkCount (files a)) (hk31 : k + n < 2 ^ 31) :
    ∃ t, (system files).exec s (transfer a (files a) k (List.replicate n whole)) = some t ∧
      Lockstep files a t (k + n) := by
  induction n generalizing s k with
  | zero => exact ⟨s, rfl, h⟩
  | succ n ih =>
    obtain ⟨cl, hread, hsend⟩ := h.client.readWhole (by omega)
    obtain ⟨u, hu, hl⟩ := h.next (by omega) hread hsend
    obtain ⟨t, ht, hl'⟩ := ih hl (by omega) (by omega)
    refine ⟨t, ?_, by rwa [show k + (n + 1) = k + 1 + n by omega]⟩
    rw [List.replicate_succ, transfer, LTS.exec_append, hu, Option.bind_some, ht]

theorem lossless_reach (files : α → List Byte) (a : α) {n : Nat} (hn : n ≤ chunkCount (files a))
    (hn31 : n < 2 ^ 31) : ∃ s, (system files).Reach s ∧ Lockstep files a s n := by
  obtain ⟨s, hs, hl⟩ := (Lockstep.start (idle_init files a) a).exec (n := n) (by omega) (by omega)
  rw [Nat.zero_add] at hl
  exact ⟨s, LTS.Reach.exec (.init (idle_init files a)) hs, hl⟩

end Ops.Udp
