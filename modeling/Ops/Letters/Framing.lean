import Ops.Letters.Steps

/-!
# Lines are messages

What the parent has printed, the message that it is reading and the messages in `R` are
the messages that the children have written. A message of `MAX_BUFF` letters fills `buf`,
and the parent stores its NUL behind it.
-/

namespace Ops.Letters

variable {n : Nat} {s t : State}

/-! ## Messages as bytes -/

namespace Message

variable (m : Message)

@[simp] theorem payload_length : m.payload.length = m.s := List.length_replicate

theorem header_toNat : (UInt8.ofNat m.s).toNat = m.s := by
  have hfits : m.s ≤ 200 := m.fits
  refine UInt8.toNat_ofNat_of_lt' ?_
  show m.s < 256
  omega

theorem noNul : (0 : Byte) ∉ m.payload := by
  intro hmem
  have hletter := m.letter.isLetter.1
  rw [← List.eq_of_mem_replicate hmem] at hletter
  exact absurd hletter (by decide)

end Message

/-- The first bytes of a stream of messages are those of its first message. -/
theorem stream_cons {b : Byte} {R : List Byte} {rest : List Message}
    (h : b :: R = rest.flatMap Message.bytes) : ∃ m rest', rest = m :: rest' ∧
      b.toNat = m.s ∧ R = m.payload ++ rest'.flatMap Message.bytes := by
  cases rest with
  | nil => cases h
  | cons m rest' =>
    rw [List.flatMap_cons, Message.bytes, List.cons_append, List.cons.injEq] at h
    exact ⟨m, rest', rfl, by rw [h.1, m.header_toNat], h.2⟩

/-! ## The invariant -/

/-- The message that the parent reads, as far as it has it. -/
def State.reading (s : State) : List (List Byte) :=
  match s.parent with
  | .payload c => [s.R.take c]
  | .terminate c => [s.buf.take c]
  | .print => [upToNul s.buf]
  | _ => []

/-- What is in `R` behind that message. -/
def State.unread (s : State) : List Byte :=
  match s.parent with
  | .payload c => s.R.drop c
  | _ => s.R

/-- The children's messages are the printed lines, the message that is read, and those
that are in `R`, in this order. -/
def State.InOrder (s : State) : Prop :=
  ∃ rest : List Message, s.unread = rest.flatMap Message.bytes ∧
    s.sent.map Message.payload = s.printed ++ s.reading ++ rest.map Message.payload

/-- The parent is not at a message. -/
def Pc.between : Pc → Bool
  | .payload _ | .terminate _ | .print | .undefined => false
  | _ => true

structure Inv (s : State) : Prop where
  buffer : s.buf.length = MAX_BUFF
  order : s.parent ≠ .undefined → s.InOrder
  payload : ∀ c, s.parent = .payload c → ∃ m : Message, c = m.s ∧ s.R.take c = m.payload
  terminate : ∀ c, s.parent = .terminate c → ∃ m : Message, c = m.s ∧ s.buf.take c = m.payload

theorem State.reading_between (h : s.parent.between = true) : s.reading = [] := by
  unfold State.reading
  cases hp : s.parent <;> simp_all [Pc.between]

theorem State.unread_between (h : s.parent.between = true) : s.unread = s.R := by
  unfold State.unread
  cases hp : s.parent <;> simp_all [Pc.between]

namespace Inv

theorem of_between (ht : t.parent.between = true) (hbuffer : t.buf.length = MAX_BUFF)
    {rest : List Message} (hR : t.R = rest.flatMap Message.bytes)
    (hsent : t.sent.map Message.payload = t.printed ++ rest.map Message.payload) : Inv t := by
  refine ⟨hbuffer, fun _ => ⟨rest, ?_, ?_⟩, fun c hc => ?_, fun c hc => ?_⟩
  · rw [State.unread_between ht, hR]
  · rw [State.reading_between ht, List.append_nil, hsent]
  · simp [hc, Pc.between] at ht
  · simp [hc, Pc.between] at ht

theorem stream_between (h : Inv s) (hs : s.parent.between = true) : ∃ rest : List Message,
    s.R = rest.flatMap Message.bytes ∧
    s.sent.map Message.payload = s.printed ++ rest.map Message.payload := by
  obtain ⟨rest, hunread, hsent⟩ := h.order fun hu => by simp [hu, Pc.between] at hs
  rw [State.unread_between hs] at hunread
  rw [State.reading_between hs, List.append_nil] at hsent
  exact ⟨rest, hunread, hsent⟩

theorem quiet (h : Inv s) (hp : t.parent = s.parent ∨
    s.parent.between = true ∧ t.parent.between = true)
    (hbuf : t.buf = s.buf) (hR : t.R = s.R) (hsent : t.sent = s.sent)
    (hprinted : t.printed = s.printed) : Inv t := by
  rcases hp with hp | ⟨hs, ht⟩
  · refine ⟨hbuf ▸ h.buffer, ?_, ?_, ?_⟩
    · unfold State.InOrder State.unread State.reading
      rw [hp, hR, hbuf, hsent, hprinted]
      exact h.order
    · rw [hp, hR]
      exact h.payload
    · rw [hp, hbuf]
      exact h.terminate
  · obtain ⟨rest, hstream, hall⟩ := h.stream_between hs
    exact of_between ht (hbuf ▸ h.buffer) (hR.trans hstream) (by rw [hsent, hprinted, hall])

theorem wrote (h : Inv s) (m : Message) (hp : t.parent = s.parent) (hbuf : t.buf = s.buf)
    (hR : t.R = s.R ++ m.bytes) (hsent : t.sent = s.sent ++ [m])
    (hprinted : t.printed = s.printed) : Inv t := by
  have hpayload : ∀ c, s.parent = .payload c → c ≤ s.R.length := fun c hc => by
    obtain ⟨m', rfl, htake⟩ := h.payload c hc
    have hlen := congrArg List.length htake
    rw [List.length_take, m'.payload_length] at hlen
    omega
  refine ⟨hbuf ▸ h.buffer, fun hdef => ?_, fun c hc => ?_, fun c hc => ?_⟩
  · obtain ⟨rest, hunread, hall⟩ := h.order (hp ▸ hdef)
    have hunread' : t.unread = s.unread ++ m.bytes := by
      unfold State.unread
      rw [hp, hR]
      cases hs : s.parent with
      | payload c => exact List.drop_append_of_le_length (hpayload c hs)
      | _ => rfl
    have hreading : t.reading = s.reading := by
      unfold State.reading
      rw [hp, hR, hbuf]
      cases hs : s.parent with
      | payload c => simp [List.take_append_of_le_length (hpayload c hs)]
      | _ => rfl
    refine ⟨rest ++ [m], ?_, ?_⟩
    · rw [hunread', hunread, List.flatMap_append, List.flatMap_singleton]
    · rw [hsent, hprinted, hreading, List.map_append, hall, List.map_append, List.append_assoc]
  · rw [hp] at hc
    obtain ⟨m', hm', htake⟩ := h.payload c hc
    exact ⟨m', hm', by rw [hR, List.take_append_of_le_length (hpayload c hc), htake]⟩
  · rw [hbuf]
    exact h.terminate c (hp ▸ hc)

theorem begins (h : Inv s) (hs : s.parent.between = true) {b : Byte} {R : List Byte}
    (hR : s.R = b :: R) : Inv ({ s with R := R }.goto (.payload b.toNat)) := by
  obtain ⟨rest, hstream, hsent⟩ := h.stream_between hs
  obtain ⟨m, rest', rfl, hb, rfl⟩ := stream_cons (hR.symm.trans hstream)
  have htake : (m.payload ++ rest'.flatMap Message.bytes).take m.s = m.payload :=
    List.take_left' m.payload_length
  have hdrop : (m.payload ++ rest'.flatMap Message.bytes).drop m.s =
      rest'.flatMap Message.bytes := List.drop_left' m.payload_length
  refine ⟨h.buffer, fun _ => ⟨rest', ?_, ?_⟩, fun c hc => ?_, fun c hc => ?_⟩
  · simp only [State.unread, State.goto, hb, hdrop]
  · simp only [State.reading, State.goto, hb, htake, hsent, List.map_cons, List.append_assoc,
      List.singleton_append]
  · simp only [State.goto, Pc.payload.injEq] at hc
    exact ⟨m, by rw [← hc, hb], by rw [← hc, hb]; exact htake⟩
  · simp [State.goto] at hc

theorem readPayload (h : Inv s) {c : Nat} (hp : s.parent = .payload c)
    (hn : s.readPayload n c = some t) : Inv t ∧ t.parent = .terminate c := by
  obtain ⟨m, rfl, htake⟩ := h.payload c hp
  obtain ⟨rest, hunread, hsent⟩ := h.order (by rw [hp]; nofun)
  have hsmall : ¬ MAX_BUFF < m.payload.length := by
    rw [m.payload_length]
    exact Nat.not_lt.mpr m.fits
  simp only [State.unread, State.reading, hp, htake] at hunread hsent
  unfold State.readPayload at hn
  rw [htake, if_neg hsmall, if_neg (show ¬ m.payload.length < m.s by simp)] at hn
  split at hn
  · cases hn
  · cases hn
    have hbuf : (blit s.buf 0 m.payload).take m.s = m.payload := by
      rw [blit_zero]
      exact List.take_left' m.payload_length
    refine ⟨⟨?_, fun _ => ⟨rest, ?_, ?_⟩, nofun, fun c hc => ?_⟩, rfl⟩
    · rw [← h.buffer]
      refine blit_length ?_
      rw [h.buffer]
      omega
    · exact hunread
    · simp only [State.reading, State.goto, hbuf]
      exact hsent
    · simp only [State.goto, Pc.terminate.injEq] at hc
      exact ⟨m, hc.symm, by rw [← hc]; exact hbuf⟩

theorem terminated (h : Inv s) {c : Nat} (hp : s.parent = .terminate c) (hc : c < MAX_BUFF) :
    Inv ({ s with buf := s.buf.set c 0 }.goto .print) := by
  obtain ⟨m, rfl, htake⟩ := h.terminate c hp
  obtain ⟨rest, hunread, hsent⟩ := h.order (by rw [hp]; nofun)
  simp only [State.unread, State.reading, hp, htake] at hunread hsent
  have hline : upToNul (s.buf.set m.s 0) = m.payload := by
    have hlt : m.s < s.buf.length := by rw [h.buffer]; exact hc
    rw [List.set_eq_take_append_cons_drop, if_pos hlt, htake, upToNul_append m.noNul]
    simp [upToNul]
  refine ⟨?_, fun _ => ⟨rest, hunread, ?_⟩, by rintro _ ⟨⟩, by rintro _ ⟨⟩⟩
  · show (s.buf.set m.s 0).length = MAX_BUFF
    rw [List.length_set, h.buffer]
  · simp only [State.reading, State.goto, hline]
    exact hsent

theorem printed (h : Inv s) (hp : s.parent = .print) :
    Inv ({ s with printed := s.printed ++ [upToNul s.buf] }.goto .test) := by
  obtain ⟨rest, hunread, hsent⟩ := h.order (by rw [hp]; nofun)
  simp only [State.unread, State.reading, hp] at hunread hsent
  exact of_between rfl h.buffer hunread hsent

theorem undefined (h : Inv s) : Inv (s.goto .undefined) :=
  ⟨h.buffer, fun hne => absurd rfl hne, nofun, nofun⟩

theorem work (h : Inv s) (hw : Work n s t) : Inv t := by
  have hquiet : ∀ {p : Pc}, s.parent.between = true → p.between = true → Inv (s.goto p) :=
    fun hs hp => h.quiet (.inr ⟨hs, hp⟩) rfl rfl rfl rfl
  cases hw with
  | serve r hp | pass hp | skip hp | pick r hp | none hp | wait hp | again hp | fail hp =>
    exact hquiet (by rw [hp]; rfl) rfl
  | broken hp | sent hp | clear hp => exact h.quiet (.inr ⟨by rw [hp]; rfl, rfl⟩) rfl rfl rfl rfl
  | begin hp hR =>
    refine h.begins ?_ hR
    rcases hp with hp | hp <;> rw [hp] <;> rfl
  | eof hp =>
    refine hquiet ?_ rfl
    rcases hp with hp | hp <;> rw [hp] <;> rfl
  | payload hp hn => exact (h.readPayload hp hn).1
  | terminate hp hc => exact h.terminated hp hc
  | overrun => exact h.undefined
  | print hp => exact h.printed hp

theorem handled (h : Inv s) {p : Pc} (hp : Handled s p) (hR : t.R = s.R) (hbuf : t.buf = s.buf)
    (hsent : t.sent = s.sent) (hprinted : t.printed = s.printed) : Inv (t.goto p) := by
  cases hp with
  | stays => exact h.quiet (.inl rfl) hbuf hR hsent hprinted
  | ends errno hwaits =>
    refine h.quiet (.inr ⟨?_, rfl⟩) hbuf hR hsent hprinted
    cases hs : s.parent <;> simp_all [Pc.waits, Pc.between]

theorem child_work (h : Inv s) {i r : Nat} (hn : s.child_work i r = some t) : Inv t := by
  unfold State.child_work at hn
  cases hp : s.child i with
  | read =>
    simp only [hp] at hn
    split at hn
    · cases hn
    · cases hn
      exact h.quiet (.inl rfl) rfl rfl rfl rfl
  | compose c =>
    simp only [hp, Option.some.injEq] at hn
    subst hn
    exact h.quiet (.inl rfl) rfl rfl rfl rfl
  | write m =>
    simp only [hp] at hn
    split at hn
    · cases hn
      exact h.wrote m rfl rfl rfl rfl rfl
    · cases hn
  | dead => simp [hp] at hn

theorem step {act : Act} (h : Inv s) (hn : s.next n act = some t) : Inv t := by
  cases (next_step hn).2.2 with
  | parent r hwork => exact h.work hwork
  | sigint eintr hp | sigchld eintr hp => exact h.handled hp rfl rfl rfl rfl
  | child hn => exact h.child_work hn
  | die hn =>
    obtain ⟨k, rfl⟩ : ∃ k, t = s.setChild k .dead := by
      unfold State.sig_killme at hn
      split at hn
      · cases hn
      · exact ⟨_, (Option.some.inj hn).symm⟩
    exact h.quiet (.inl rfl) rfl rfl rfl rfl

theorem start {buf : List Byte} (hbuf : buf.length = MAX_BUFF) : Inv (Letters.start n buf) :=
  of_between rfl hbuf (show _ = List.flatMap Message.bytes [] from rfl) rfl

theorem reach (h : (Letters.letters n).Reach s) : Inv s := by
  refine h.inv (I := Inv) ?_ fun _ _ _ _ hi hn => hi.step hn
  rintro _ ⟨buf, hbuf, rfl⟩
  exact .start hbuf

end Inv

end Ops.Letters
