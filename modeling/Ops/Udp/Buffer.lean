import Ops.Udp.Lossless

/-!
# What the server takes out of its buffer

The header, the text and the reply all come from one buffer; the length that
`recvfrom` returned is dropped. A datagram that is not full is therefore judged
by its own bytes only when it is ignored (`judged_alone_iff`). A full payload
leaves no room for the NUL that `%s` needs, so a file decodes only when it fits
into one padded chunk (`decode_iff`).
-/

namespace Ops.Udp

open Ops.Posix

variable {α : Type} [DecidableEq α]

/-! ## Bytes left by earlier datagrams -/

/-- What `printf` puts out: the format, the number and the string. -/
def Reaction.shown (r : Reaction) : Option (Bool × Int × Option (List Byte)) :=
  r.printed.map fun p => (p.last, p.chunkNo, cstr p.text)

/-- The bytes in the buffer make no difference to what the server does on `d`. -/
def JudgedAlone (con : Con α) (addr : α) (d : List Byte) : Prop :=
  ∀ b b' : List Byte, b.length = maxBuf → b'.length = maxBuf → ∀ send,
    let x := Server.receive ⟨b, con⟩ addr d send
    let y := Server.receive ⟨b', con⟩ addr d send
    x.1.shown = y.1.shown ∧ x.1.reply = y.1.reply ∧ x.2.map Server.con = y.2.map Server.con

theorem getD_blit (b d : List Byte) (i : Nat) :
    (blit b 0 d).getD i 0 = if i < d.length then d.getD i 0 else b.getD i 0 := by
  rw [blit_zero]
  simp only [List.getD_eq_getElem?_getD]
  split
  · rename_i h
    rw [List.getElem?_append_left h]
  · rename_i h
    rw [List.getElem?_append_right (by omega), List.getElem?_drop, Nat.add_sub_cancel' (by omega)]

theorem getD_beyond {d : List Byte} {i : Nat} (h : d.length ≤ i) : d.getD i 0 = 0 := by
  rw [List.getD_eq_getElem?_getD, List.getElem?_eq_none h, Option.getD_none]

theorem ntohl_le_blit {d : List Byte} (hd : d ≠ []) (b : List Byte) :
    ntohl d ≤ ntohl (blit b 0 d) := by
  have hpos : 0 < d.length := List.length_pos_of_ne_nil hd
  apply ntohl_mono
  · rw [getD_blit, if_pos hpos]
  · intro i
    rw [getD_blit]
    by_cases h : i < d.length
    · rw [if_pos h]
    · rw [getD_beyond (by omega)]; exact Nat.zero_le _

theorem ntohl_blit_zeros (n : Nat) (d : List Byte) :
    ntohl (blit (List.replicate n 0) 0 d) = ntohl d := by
  apply ntohl_congr
  intro i _
  rw [getD_blit]
  split
  · rfl
  · rw [getD_beyond (d := d) (by omega), List.getD_eq_getElem?_getD, List.getElem?_replicate]
    split <;> rfl

omit [DecidableEq α] in
theorem serveAt_ahead {buf : List Byte} {con : Con α} {i : Fin maxAddr}
    (h : ntohl buf > add32 (con i).chunkNo 1) (send : SendOutcome) :
    serveAt buf con i send = (⟨none, none⟩, some ⟨buf, con⟩) := by
  simp [serveAt, chunkStep, h]

omit [DecidableEq α] in
theorem serveAt_reply {buf : List Byte} {con : Con α} {i : Fin maxAddr}
    (h : ntohl buf ≤ add32 (con i).chunkNo 1) : (serveAt buf con i .sent).1.reply = some buf := by
  have h1 : ¬ ntohl buf > add32 (con i).chunkNo 1 := by omega
  unfold serveAt chunkStep
  rw [if_neg h1]
  by_cases h2 : ntohl buf = add32 (con i).chunkNo 1
  · rw [if_pos h2]
  · rw [if_neg h2]

/-- A datagram that is answered but not full: the last byte of the reply is not its own. -/
theorem not_judged {con con' : Con α} {addr : α} {d b : List Byte} {i : Fin maxAddr}
    (hf : findIndex addr con = (some i, con')) (hd : d.length < maxBuf) (hb : b.length = maxBuf)
    (h0 : b.getD 575 0 = 0) (hk : ntohl (blit b 0 d) ≤ add32 (con' i).chunkNo 1) :
    ¬ JudgedAlone con addr d := by
  intro hj
  have h576 : maxBuf = 576 := rfl
  have hset : ∀ j, (b.set 575 1).getD j 0 = if j = 575 then 1 else b.getD j 0 := by
    intro j
    simp only [List.getD_eq_getElem?_getD, List.getElem?_set, hb]
    split
    · rename_i hj; rw [if_pos hj.symm, if_pos (by omega), Option.getD_some]
    · rename_i hj; rw [if_neg (Ne.symm hj)]
  have hhead : ntohl (blit (b.set 575 1) 0 d) = ntohl (blit b 0 d) := by
    apply ntohl_congr
    intro j hj4
    rw [getD_blit, getD_blit, hset, if_neg (show ¬ j = 575 by omega)]
  obtain ⟨-, hreply, -⟩ := hj b (b.set 575 1) hb (by rw [List.length_set, hb]) .sent
  simp only [Server.receive, hf] at hreply
  rw [serveAt_reply hk, serveAt_reply (by rw [hhead]; exact hk), Option.some.injEq] at hreply
  have hbyte := congrArg (fun l : List Byte => l.getD 575 0) hreply
  simp only [getD_blit] at hbyte
  rw [if_neg (by omega), if_neg (by omega), hset, if_pos rfl, h0] at hbyte
  exact absurd hbyte (by decide)

/-- **When a datagram is judged by its own bytes only**: when the server has no
entry for its sender, when it is full, or when its number, completed by zeros, is
ahead of the chunk waited for. -/
theorem judged_alone_iff (con : Con α) (addr : α) {d : List Byte} (hd : d.length ≤ maxBuf) :
    JudgedAlone con addr d ↔ ∀ i con', findIndex addr con = (some i, con') → d.length = maxBuf ∨
      (d ≠ [] ∧ ntohl d > add32 (con' i).chunkNo 1) := by
  constructor
  · intro hj i con' hf
    by_contra hcon
    simp only [not_or, not_and, Int.not_lt, gt_iff_lt] at hcon
    obtain ⟨hlt, hk⟩ := hcon
    by_cases hnil : d = []
    · subst hnil
      have hlen : (htonl (-2 ^ 31) ++ List.replicate 572 0).length = maxBuf := by
        rw [List.length_append, htonl_length, List.length_replicate]
      refine not_judged hf (by decide) hlen ?_ ?_ hj
      · rw [List.getD_eq_getElem?_getD, List.getElem?_append_right (by rw [htonl_length]; omega),
          List.getElem?_replicate]
        rfl
      · rw [blit_nil, ntohl_htonl (by omega) (by omega)]
        exact BitVec.le_toInt _
    · refine not_judged hf (by omega) (List.length_replicate (a := 0)) ?_ ?_ hj
      · rw [List.getD_eq_getElem?_getD, List.getElem?_replicate]; rfl
      · rw [ntohl_blit_zeros]; exact hk hnil
  · intro h b b' hb hb' send
    rcases hf : findIndex addr con with ⟨_ | i, con'⟩
    · simp only [Server.receive, hf, and_self, Option.map_some, Reaction.shown, Option.map_none]
    · rcases h i con' hf with hfull | ⟨hnil, hk⟩
      · have h1 : blit b 0 d = d := blit_all (by omega)
        have h2 : blit b' 0 d = d := blit_all (by omega)
        simp only [Server.receive, hf, h1, h2, and_self]
      · have h1 : ntohl (blit b 0 d) > add32 (con' i).chunkNo 1 :=
          Int.lt_of_lt_of_le hk (ntohl_le_blit hnil b)
        have h2 : ntohl (blit b' 0 d) > add32 (con' i).chunkNo 1 :=
          Int.lt_of_lt_of_le hk (ntohl_le_blit hnil b')
        simp only [Server.receive, hf, serveAt_ahead h1, serveAt_ahead h2, and_self, Option.map_some]

/-- A full datagram. -/
theorem judged_alone_full :
    JudgedAlone (fun _ => ⟨true, 0, ()⟩) () (datagram [104, 105] 1) :=
  (judged_alone_iff _ () (datagram_length _ _).le).mpr fun _ _ _ => .inl (datagram_length _ _)

/-- Four bytes, the number 1, at a server that has just started. -/
theorem judged_by_leftovers :
    ¬ ∀ (con : Con Unit) (addr : Unit) (d : List Byte), d.length ≤ maxBuf →
      JudgedAlone con addr d := by
  intro h
  have hf : findIndex () (fun _ => ⟨true, 0, ()⟩ : Con Unit) =
      (some 4, Function.update (fun _ => ⟨true, 0, ()⟩) 4 ⟨false, 0, ()⟩) := rfl
  have hj := h (fun _ => ⟨true, 0, ()⟩) () (htonl 1) (by decide)
  refine not_judged hf (by decide) (List.length_replicate (a := 0)) ?_ ?_ hj
  · rw [List.getD_eq_getElem?_getD, List.getElem?_replicate]; rfl
  · decide

/-! ## The end of the string -/

/-- The strings printed end inside the buffer and together are `f`. -/
def Decoded (f : List Byte) (log : List Part) : Prop :=
  ∃ texts : List (List Byte), log.map (fun p => cstr p.text) = texts.map some ∧ texts.flatten = f

/-- A run without loss through all chunks of the file of `a`. -/
def Transferred (files : α → List Byte) (a : α) (s t : Net α) : Prop :=
  ∃ rss, rss.length = chunkCount (files a) ∧ (system files).Init s ∧
    (system files).exec s (transfer a (files a) 0 rss) = some t

/-- There are runs without loss, and what they print decodes to the file. -/
def Faithful (files : α → List Byte) (a : α) : Prop :=
  (∃ s t, Transferred files a s t) ∧
    ∀ s t, Transferred files a s t → Decoded (files a) (ofTag a t.log)

theorem Transferred.log {files : α → List Byte} {a : α} {s t : Net α} (h : Transferred files a s t) :
    ofTag a t.log = parts (files a) (chunkCount (files a)) := by
  obtain ⟨rss, hlen, hinit, he⟩ := h
  have hl := (Lockstep.start hinit a).run (by omega) he
  rw [Nat.zero_add, hlen] at hl
  exact hl.log

theorem cstr_payload {f : List Byte} (h0 : 0 ∉ f) (hlt : f.length < payloadSize) :
    cstr (payload f 1) = some f := by
  have hblock : block payloadSize f (1 - 1) = f := by
    unfold block
    rw [Nat.sub_self, Nat.mul_zero, List.drop_zero, List.take_of_length_le (by omega)]
  obtain ⟨n, hn⟩ : ∃ n, payloadSize - f.length = n + 1 := ⟨payloadSize - f.length - 1, by omega⟩
  simp only [payload, hblock]
  rw [hn, List.replicate_succ]
  exact cstr_append_nul h0 _

theorem cstr_payload_full {f : List Byte} (h0 : 0 ∉ f) (hge : payloadSize ≤ f.length) :
    cstr (payload f 1) = none := by
  have hlen : (block payloadSize f (1 - 1)).length = payloadSize := by
    rw [block_length]; omega
  simp only [payload, hlen]
  rw [Nat.sub_self payloadSize, List.replicate_zero, List.append_nil]
  exact cstr_eq_none fun hmem => h0 (List.mem_of_mem_drop (List.mem_of_mem_take hmem))

/-- With a full payload the string of the first part runs past the buffer. -/
theorem not_faithful {files : α → List Byte} {a : α} (h0 : 0 ∉ files a)
    (hge : payloadSize ≤ (files a).length) : ¬ Faithful files a := by
  rintro ⟨⟨s, t, hrun⟩, hdec⟩
  obtain ⟨texts, htexts, -⟩ := hdec s t hrun
  have hmem : part (files a) 1 ∈ ofTag a t.log := by
    rw [hrun.log, mem_parts]
    exact ⟨1, by omega, Nat.succ_pos _, rfl⟩
  have hcstr := List.mem_map_of_mem (f := fun p : Part => cstr p.text) hmem
  rw [htexts] at hcstr
  obtain ⟨text, -, hsome⟩ := List.mem_map.mp hcstr
  have hnone : cstr (part (files a) 1).text = none := cstr_payload_full h0 hge
  rw [hnone] at hsome
  cases hsome

/-- **When decoding undoes encoding**: when the file is shorter than a payload. -/
theorem decode_iff {files : α → List Byte} {a : α} (h0 : 0 ∉ files a) :
    Faithful files a ↔ (files a).length < payloadSize := by
  constructor
  · intro hf
    by_contra hge
    exact not_faithful h0 (by omega) hf
  · intro hlt
    have hcount : chunkCount (files a) = 1 := by
      unfold chunkCount; rw [Nat.div_eq_of_lt hlt]
    refine ⟨?_, fun s t hrun => ⟨[files a], ?_, by simp⟩⟩
    · obtain ⟨t, ht, -⟩ := (Lockstep.start (idle_init files a) a).exec (n := 1) (by omega) (by omega)
      exact ⟨_, t, _, by rw [hcount]; rfl, idle_init files a, ht⟩
    · rw [hrun.log, hcount]
      show [cstr (payload (files a) 1)] = _
      rw [cstr_payload h0 hlt]
      rfl

/-- A file of two bytes. -/
theorem decode_hi : Faithful (fun _ : Unit => [104, 105]) () := by
  let files : Unit → List Byte := fun _ => [104, 105]
  have h0 : 0 ∉ files () := by decide
  exact (decode_iff h0).mpr (by decide)

/-- 568 bytes without a NUL. -/
theorem decode_full : 0 ∉ List.replicate 568 (1 : Byte) ∧
    ¬ Faithful (fun _ : Unit => List.replicate 568 1) () := by
  have h0 : 0 ∉ List.replicate 568 (1 : Byte) :=
    fun h => absurd (List.eq_of_mem_replicate h) (by decide)
  exact ⟨h0, not_faithful h0 (List.length_replicate (a := (1 : Byte))).ge⟩

end Ops.Udp
