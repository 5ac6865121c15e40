import Mathlib.Data.List.DropRight
import Ops.Udp.Lossless

/-!
# What the server prints, and what it prints twice

`delivery` is the safety of the transfer. A copy of a chunk that was printed is
only sent back while the chunks printed since the last release of the entry
include it (`resend_echoed_iff`): the last chunk releases the entry before its
acknowledgement is known to have arrived, and what comes after that starts a new
file.
-/

namespace Ops.Udp

open Ops.Posix

def sinceRelease (log : List Part) : List Part := log.rtakeWhile fun p => !p.last

theorem sinceRelease_rounds {f : List Byte} (g : Nat) {c : Nat} (hc : c < chunkCount f) :
    sinceRelease (rounds f g c) = parts f c := by
  induction c with
  | zero =>
    cases g with
    | zero => rfl
    | succ g =>
      -- the last entry is the last chunk of a round
      obtain ⟨n, hn⟩ : ∃ n, n + 1 = chunkCount f := ⟨_, rfl⟩
      rw [← rounds_close hn, sinceRelease, List.rtakeWhile_concat_neg]
      · rfl
      · simp [part, isLast_iff.mpr hn.ge]
  | succ c ih =>
    have hnl : isLast f (c + 1) = false := by
      rw [← Bool.not_eq_true, isLast_iff]; omega
    rw [← rounds_next, sinceRelease, List.rtakeWhile_concat_pos _ _ _ (by simp [part, hnl]),
      parts_succ, ← ih (by omega), sinceRelease]

theorem rounds_open {f : List Byte} {g c : Nat} (h : ∀ p ∈ rounds f g c, p.last = false) :
    rounds f g c = parts f c := by
  cases g with
  | zero => simp [rounds]
  | succ g =>
    have hmem : part f (chunkCount f) ∈ rounds f (g + 1) c := by
      simp only [rounds, List.replicate_succ, List.flatten_cons, List.mem_append, mem_parts]
      exact .inl (.inl ⟨chunkCount f, Nat.succ_pos _, Nat.le_refl _, rfl⟩)
    have hlast : isLast f (chunkCount f) = true := isLast_iff.mpr (Nat.le_refl _)
    exact absurd (h _ hmem) (by simp [part, hlast])

variable {α : Type} [DecidableEq α]

/-- **Delivery.** A client that is done had its whole file printed, from the first
chunk on; until a part marked as last is printed, the parts are a prefix of the
file's; and what was sent for `a` are the chunks of its file. -/
theorem delivery {files : α → List Byte} {s : Net α} (h : (system files).Reach s) (a : α) :
    ((s.client a).pc = .done → parts (files a) (chunkCount (files a)) <+: ofTag a s.log) ∧
      ((∀ p ∈ ofTag a s.log, p.last = false) →
        ofTag a s.log <+: parts (files a) (chunkCount (files a))) ∧
      ∀ d, (a, d) ∈ s.up → ∃ k, 1 ≤ k ∧ k ≤ chunkCount (files a) ∧ ntohl d = k ∧
        (part (files a) k).text = d.drop offset := by
  have hinv := inv_reach h
  refine ⟨fun hpc => ?_, fun hlast => ?_, fun d hd => ?_⟩
  · obtain ⟨k, hk⟩ := hinv.client a
    exact hk.acked hpc
  · obtain ⟨c, hc⟩ := hinv.taken a
    obtain ⟨g, hg⟩ := hc.log
    rw [hg] at hlast ⊢
    rw [rounds_open hlast]
    exact parts_mono _ (by have := hc.lt; omega)
  · obtain ⟨k, h1, h2, h3, rfl⟩ := hinv.up a d hd
    exact ⟨k, h1, h2, ntohl_datagram _ h3, (datagram_payload _ _).symm⟩

/-- Two chunks: the first one is lost once and sent again, and the second one arrives twice. -/
theorem delivery_two : let f : List Byte := List.replicate 600 104
    ∃ s, (system fun _ : Bool => f).Reach s ∧ (s.client true).pc = .done ∧
      parts f (chunkCount f) <+: ofTag true s.log := by
  intro f
  let as : List (Act Bool) := [.read true whole, .send true, .timeout true, .send true,
    .serve true (datagram f 1), .recv true (datagram f 1), .read true whole, .send true,
    .serve true (datagram f 2), .serve true (datagram f 2), .recv true (datagram f 2)]
  have hrun : ((system fun _ => f).exec (idle (fun _ => f) true) as).map
      (fun s => (s.client true).pc) = some .done := by decide +kernel
  obtain ⟨s, hs, hpc⟩ := Option.map_eq_some_iff.mp hrun
  have hr : (system fun _ : Bool => f).Reach s := LTS.Reach.exec (.init (idle_init _ true)) hs
  exact ⟨s, hr, hpc, (delivery hr true).1 hpc⟩

/-! ## Copies of printed chunks -/

/-- Whether the chunk in `d` is among `log`. -/
def Printed (log : List Part) (d : List Byte) : Prop := ∃ p ∈ log, p.chunkNo = ntohl d

theorem printed_parts {f : List Byte} {k c : Nat} (hk1 : 1 ≤ k) (hk : k < 2 ^ 31) :
    Printed (parts f c) (datagram f k) ↔ k ≤ c := by
  simp only [Printed, mem_parts, ntohl_datagram f hk]
  constructor
  · rintro ⟨p, ⟨j, h1, h2, rfl⟩, hj⟩
    have : (j : Int) = k := hj
    omega
  · intro h
    exact ⟨part f k, ⟨k, hk1, h, rfl⟩, rfl⟩

/-- The receiver is past chunk `k` exactly when it has taken it since its entry
was taken. -/
theorem Taken.past {f : List Byte} {log : List Part} {n : Option Int} {c k : Nat}
    (h : Taken f log n c) (hk1 : 1 ≤ k) :
    (∃ m, n = some m ∧ (k : Int) < Udp.awaited (some m)) ↔ k ≤ c ∧ c < 2 ^ 31 - 1 := by
  have hc := h.counter
  have hsmall := h.small
  cases n with
  | none =>
    have : c = 0 := by simpa using hc.symm
    simp only [reduceCtorEq, false_and, exists_false, false_iff]
    omega
  | some m =>
    simp only [Option.some.injEq, exists_eq_left']
    rcases Nat.lt_or_ge (c + 1) (2 ^ 31) with hlt | hge
    · rw [h.awaited hlt]; omega
    · rw [h.awaited_max (by omega)]; omega

/-- **When a copy of a datagram is only sent back**: when its chunk was printed
after the last release of the sender's entry (and the `int32_t` counter is not
at its end). -/
theorem resend_echoed_iff {files : α → List Byte} {s : Net α} (h : (system files).Reach s) {a : α}
    {d : List Byte} (hd : (a, d) ∈ s.up) :
    s.server.Echoes a d ↔ Printed (sinceRelease (ofTag a s.log)) d ∧
      (sinceRelease (ofTag a s.log)).length < 2 ^ 31 - 1 := by
  have hinv := inv_reach h
  obtain ⟨k, hk1, -, hk31, rfl⟩ := hinv.up a d hd
  obtain ⟨c, hc⟩ := hinv.taken a
  obtain ⟨g, hg⟩ := hc.log
  rw [echoes_iff hinv.uniq hinv.bufLen (datagram_length ..), ntohl_datagram _ hk31, hc.past hk1, hg,
    sinceRelease_rounds g hc.lt, printed_parts hk1 hk31, parts_length]

/-- Two chunks, the first one taken: a copy of it is only sent back. -/
theorem resend_echoed_first : ∃ s : Net Unit, ∃ d,
    (system fun _ => List.replicate 568 1).Reach s ∧ s.server.Echoes () d := by
  let f : List Byte := List.replicate 568 1
  have hcount : chunkCount f = 2 := by rw [chunkCount, List.length_replicate]; rfl
  obtain ⟨s, hr, hl⟩ := lossless_reach (fun _ : Unit => f) () (n := 1) (by omega) (by omega)
  have hlog : ofTag () s.log = rounds f 0 1 := hl.log
  refine ⟨s, datagram f 1, hr, (resend_echoed_iff hr (hl.sent 1 (by omega) (by omega))).mpr ?_⟩
  rw [hlog, sinceRelease_rounds 0 (by omega), parts_length]
  exact ⟨(printed_parts (by omega) (by omega)).mpr (by omega), by omega⟩

/-- The empty file: after its only chunk a copy of that chunk is printed again. -/
theorem resend_printed_again : ∃ s : Net Unit, ∃ d, (system fun _ => []).Reach s ∧ ((), d) ∈ s.up ∧
    Printed (ofTag () s.log) d ∧ (s.server.receive () d .sent).1.printed = some (part [] 1) ∧
    ¬ s.server.Echoes () d := by
  obtain ⟨s, hr, hl⟩ := lossless_reach (fun _ : Unit => []) () (n := 1) (Nat.le_refl _) (by omega)
  have htaken : Taken [] (ofTag () s.log) (counter s.server.con ()) 0 := hl.taken
  refine ⟨s, datagram [] 1, hr, hl.sent 1 (by omega) (by omega), ?_, ?_, fun he => ?_⟩
  · rw [hl.log]; exact (printed_parts (by omega) (by omega)).mpr (by omega)
  · obtain ⟨con', hrecv, -⟩ := receive_refines hl.inv.uniq hl.room (datagram [] 1)
    rw [blit_all (by rw [hl.inv.bufLen, datagram_length]), htaken.round (by omega)] at hrecv
    rw [hrecv]
  · rw [echoes_iff hl.inv.uniq hl.inv.bufLen (datagram_length ..), ntohl_datagram _ (by omega),
      htaken.past (by omega)] at he
    omega

end Ops.Udp
