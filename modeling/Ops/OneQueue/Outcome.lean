import Ops.OneQueue.Process

/-!
# Who is registered when a message arrives

The client prints its sum if and only if its request arrives when the server is registered, and the
reply when the client is (`InTime`, `answered_iff`). In all other orders the two processes end in a
failing `mq_notify`, or the client waits for a notification that does not come.
-/

namespace Ops.OneQueue

open Posix
open Calc (bytes chars read_text decimalInt_plain)

variable {a b : Int} {s t : State} {m : List Byte}

/-! ## The texts -/

theorem text_plain : ∀ c ∈ text a b, Calc.Plain c := by
  have hblank : Calc.Plain ' ' := ⟨by decide, by decide⟩
  intro c hc
  unfold text at hc
  simp only [List.mem_append, List.mem_cons] at hc
  rcases hc with hc | rfl | hc
  · exact decimalInt_plain c hc
  · exact hblank
  · exact decimalInt_plain c hc

theorem scan_text (a b : Int) : scan [.int, .blank, .int] (text a b) = [a, b] := by
  unfold text
  have hlast := scan_blank_int b [.int] []
  rw [List.append_nil] at hlast
  rw [scan_decimalInt a _ (by intro c hc; cases hc; rfl), hlast, scan_decimalInt_last]
  rfl

/-- What stands in memory before a NUL, of the bytes that are sent. -/
theorem sent_text {l : List Char} {n : Nat} (hn : l.length + 1 ≤ n) (memory : List Byte) :
    ∃ rest, (blit memory 0 (bytes l ++ [0])).take n = bytes l ++ 0 :: rest := by
  have hlength : (bytes l ++ [0]).length ≤ n := by
    unfold bytes
    rw [List.length_append, List.length_map, List.length_singleton]
    exact hn
  rw [blit_zero, List.take_append, List.take_of_length_le hlength, List.append_assoc]
  exact ⟨_, rfl⟩

theorem Fits.small (h : Fits a b) : -100 < a ∧ a < 1000 ∧ -100 < b ∧ b < 1000 := by
  have hshort : ∀ v : Int, (decimalInt v).length ≤ 3 → -100 < v ∧ v < 1000 := by
    intro v hv
    by_cases hneg : v < 0
    · rw [decimalInt_neg hneg, List.length_cons] at hv
      have hlt := (Nat.length_toDigits_le_iff (b := 10) (n := v.natAbs) (k := 2) (by decide)
        (by decide)).mp (by unfold decimal at hv; omega)
      omega
    · rw [decimalInt_nonneg hneg] at hv
      have hlt := (Nat.length_toDigits_le_iff (b := 10) (n := v.natAbs) (k := 3) (by decide)
        (by decide)).mp hv
      omega
  have hlength : (decimalInt a).length + (decimalInt b).length ≤ 3 := by
    unfold Fits text at h
    rw [List.length_append, List.length_cons] at h
    omega
  have ha := hshort a (by omega)
  have hb := hshort b (by omega)
  exact ⟨ha.1, ha.2, hb.1, hb.2⟩

theorem operands_request (h : Fits a b) (stack stack' : List Byte) (a' b' : Int) :
    operands stack a' b' (request stack' a b) = (a, b) := by
  obtain ⟨rest, hrest⟩ := sent_text (n := 6) (Nat.le_succ_of_le h) stack'
  obtain ⟨ha, ha', hb, hb'⟩ := h.small
  unfold operands request
  rw [hrest, read_text text_plain, scan_text]
  simp only [storeInt_eq (show -2 ^ 31 ≤ a by omega) (by omega),
    storeInt_eq (show -2 ^ 31 ≤ b by omega) (by omega)]

theorem add_fits (h : Fits a b) : add32 a b = a + b := by
  obtain ⟨ha, ha', hb, hb'⟩ := h.small
  exact add32_eq (by omega) (by omega)

theorem printed_reply (h : Fits a b) (stack heap : List Byte) :
    printed stack (reply heap (a + b)) = decimalInt (a + b) := by
  have hshort : (decimalInt (a + b)).length + 1 ≤ 8 := by
    obtain ⟨ha, ha', hb, hb'⟩ := h.small
    by_cases hneg : a + b < 0
    · have hlength := (Nat.length_toDigits_le_iff (b := 10) (n := (a + b).natAbs) (k := 6)
        (by decide) (by decide)).mpr (by omega)
      rw [decimalInt_neg hneg, List.length_cons]
      unfold decimal
      omega
    · have hlength := (Nat.length_toDigits_le_iff (b := 10) (n := (a + b).natAbs) (k := 7)
        (by decide) (by decide)).mpr (by omega)
      rw [decimalInt_nonneg hneg]
      unfold decimal
      omega
  obtain ⟨rest, hrest⟩ := sent_text hshort heap
  unfold printed reply
  rw [hrest, read_text decimalInt_plain]

theorem sumHandler_receives {stack stack' heap : List Byte} {a' b' : Int} (hfits : Fits a b)
    (hpc : s.sumHandler = .receive) (hmq : s.mq.msgs = [(request stack' a b, 0)]) :
    s.stepSumHandler stack heap a' b' =
      some { s with mq := { s.mq with msgs := [] }, sumHandler := .send (a + b) } := by
  unfold State.stepSumHandler
  rw [hpc]
  simp only [Mqueue.receive, hmq, Option.map_some, operands_request hfits, add_fits hfits]

theorem handler_receives {stack heap : List Byte} (hfits : Fits a b) (hpc : s.handler = .receive)
    (hmq : s.mq.msgs = [(reply heap (a + b), 0)]) : s.stepHandler stack =
      some { s with mq := { s.mq with msgs := [] }, handler := .done (decimalInt (a + b)) } := by
  unfold State.stepHandler
  rw [hpc]
  simp only [Mqueue.receive, hmq, Option.map_some, printed_reply hfits]

/-! ## The states -/

/-- All that can be reached. `owner` is free where nobody is registered. -/
inductive Shape (a b : Int) : State → Prop where
  | start (o : Process) : Shape a b ⟨⟨[], false⟩, o, .notify, .idle, .send, .idle⟩
  | ready : Shape a b ⟨⟨[], true⟩, .server, .loop, .idle, .send, .idle⟩
  /-- The request has arrived, and nobody was registered. -/
  | early (o : Process) (stack : List Byte) :
    Shape a b ⟨⟨[(request stack a b, 0)], false⟩, o, .notify, .idle, .notify, .idle⟩
  | clientWaits (stack : List Byte) :
    Shape a b ⟨⟨[(request stack a b, 0)], true⟩, .client, .notify, .idle, .loop, .idle⟩
  | serverFails (stack : List Byte) :
    Shape a b ⟨⟨[(request stack a b, 0)], true⟩, .client, .failed, .idle, .loop, .idle⟩
  | serverWaits (stack : List Byte) :
    Shape a b ⟨⟨[(request stack a b, 0)], true⟩, .server, .loop, .idle, .notify, .idle⟩
  | clientFails (stack : List Byte) :
    Shape a b ⟨⟨[(request stack a b, 0)], true⟩, .server, .loop, .idle, .failed, .idle⟩
  /-- The server has been notified. -/
  | notified (o : Process) (stack : List Byte) :
    Shape a b ⟨⟨[(request stack a b, 0)], false⟩, o, .loop, .receive, .notify, .idle⟩
  | notifiedBoth (stack : List Byte) :
    Shape a b ⟨⟨[(request stack a b, 0)], true⟩, .client, .loop, .receive, .loop, .idle⟩
  | added (o : Process) : Shape a b ⟨⟨[], false⟩, o, .loop, .send (a + b), .notify, .idle⟩
  | addedBoth : Shape a b ⟨⟨[], true⟩, .client, .loop, .send (a + b), .loop, .idle⟩
  /-- The reply has arrived, and nobody was registered. -/
  | unseen (o : Process) (heap : List Byte) :
    Shape a b ⟨⟨[(reply heap (a + b), 0)], false⟩, o, .loop, .done, .notify, .idle⟩
  | forgotten (heap : List Byte) :
    Shape a b ⟨⟨[(reply heap (a + b), 0)], true⟩, .client, .loop, .done, .loop, .idle⟩
  | answered (heap : List Byte) :
    Shape a b ⟨⟨[(reply heap (a + b), 0)], false⟩, .client, .loop, .done, .loop, .receive⟩
  | printed : Shape a b
    ⟨⟨[], false⟩, .client, .loop, .done, .loop, .done (decimalInt (a + b))⟩

/-- A message arrives when the process that it is for is registered. -/
def InTime (s : State) : Act → Prop
  | .client _ => s.client = .send → s.server = .loop
  | .sumHandler .. => ∀ sum, s.sumHandler = .send sum → s.client = .loop
  | .server | .handler _ => True

/-- Every message that has arrived has been notified. -/
def Noticed (s : State) : Prop :=
  (s.client ≠ .send → s.sumHandler ≠ .idle) ∧ (s.sumHandler = .done → s.handler ≠ .idle)

namespace Shape

theorem server (h : Shape a b s) (hn : s.stepServer = some t) :
    Shape a b t ∧ (Noticed t ↔ Noticed s) := by
  cases h with
  | start o =>
    obtain rfl := Option.some.inj hn
    exact ⟨.ready, by simp [Noticed]⟩
  | early o stack =>
    obtain rfl := Option.some.inj hn
    exact ⟨.serverWaits stack, by simp [Noticed]⟩
  | clientWaits stack =>
    obtain rfl := Option.some.inj hn
    exact ⟨.serverFails stack, by simp [Noticed]⟩
  | _ => cases hn

theorem sumHandler {stack heap : List Byte} {a' b' : Int} (hfits : Fits a b) (h : Shape a b s)
    (hn : s.stepSumHandler stack heap a' b' = some t) :
    Shape a b t ∧ (Noticed t ↔ Noticed s ∧ InTime s (.sumHandler stack heap a' b')) := by
  cases h with
  | notified o stack' =>
    rw [sumHandler_receives hfits rfl rfl] at hn
    obtain rfl := Option.some.inj hn
    exact ⟨.added o, by simp [Noticed, InTime]⟩
  | notifiedBoth stack' =>
    rw [sumHandler_receives hfits rfl rfl] at hn
    obtain rfl := Option.some.inj hn
    exact ⟨.addedBoth, by simp [Noticed, InTime]⟩
  | added o =>
    obtain rfl := Option.some.inj hn
    exact ⟨.unseen o heap, by simp [Noticed, InTime, State.send, Mqueue.fires]⟩
  | addedBoth =>
    obtain rfl := Option.some.inj hn
    exact ⟨.answered heap, by simp [Noticed, InTime, State.send, Mqueue.fires]⟩
  | _ => cases hn

theorem client {stack : List Byte} (h : Shape a b s) (hn : s.stepClient a b stack = some t) :
    Shape a b t ∧ (Noticed t ↔ Noticed s ∧ InTime s (.client stack)) := by
  cases h with
  | start o =>
    obtain rfl := Option.some.inj hn
    exact ⟨.early o stack, by simp [Noticed, InTime, State.send, Mqueue.fires]⟩
  | ready =>
    obtain rfl := Option.some.inj hn
    exact ⟨.notified .server stack, by simp [Noticed, InTime, State.send, Mqueue.fires]⟩
  | early o stack' =>
    obtain rfl := Option.some.inj hn
    exact ⟨.clientWaits stack', by simp [Noticed]⟩
  | serverWaits stack' =>
    obtain rfl := Option.some.inj hn
    exact ⟨.clientFails stack', by simp [Noticed]⟩
  | notified o stack' =>
    obtain rfl := Option.some.inj hn
    exact ⟨.notifiedBoth stack', by simp [Noticed, InTime]⟩
  | added o =>
    obtain rfl := Option.some.inj hn
    exact ⟨.addedBoth, by simp [Noticed, InTime]⟩
  | unseen o heap =>
    obtain rfl := Option.some.inj hn
    exact ⟨.forgotten heap, by simp [Noticed]⟩
  | _ => cases hn

theorem handler {stack : List Byte} (hfits : Fits a b) (h : Shape a b s)
    (hn : s.stepHandler stack = some t) : Shape a b t ∧ (Noticed t ↔ Noticed s) := by
  cases h with
  | answered heap =>
    rw [handler_receives hfits rfl rfl] at hn
    obtain rfl := Option.some.inj hn
    exact ⟨.printed, by simp [Noticed]⟩
  | _ => cases hn

theorem step {act : Act} (hfits : Fits a b) (h : Shape a b s) (hn : s.next a b act = some t) :
    Shape a b t ∧ (Noticed t ↔ Noticed s ∧ InTime s act) := by
  cases act with
  | server => exact (h.server hn).imp_right fun hiff => hiff.trans (and_true _).to_iff.symm
  | sumHandler stack heap a' b' => exact h.sumHandler hfits hn
  | client stack => exact h.client hn
  | handler stack =>
    exact (h.handler hfits hn).imp_right fun hiff => hiff.trans (and_true _).to_iff.symm

/-- Where nothing more happens: the sum is printed if all was noticed. -/
theorem outcome (h : Shape a b s) (hover : ∀ act, s.next a b act = none) :
    (s.handler = .done (decimalInt (a + b)) ∧ Noticed s) ∨
      s.handler = .idle ∧ ¬ Noticed s ∧
        (s.server = .failed ∨ s.client = .failed ∨ s.sumHandler = .done ∧ s.mq.msgs ≠ []) := by
  cases h with
  | start o | early o stack | clientWaits stack => cases hover .server
  | ready | serverWaits stack | notified o stack | added o | unseen o heap =>
    cases hover (.client [])
  | notifiedBoth stack | addedBoth => cases hover (.sumHandler [] [] 0 0)
  | answered heap => cases hover (.handler [])
  | serverFails stack => exact .inr ⟨rfl, by simp [Noticed], .inl rfl⟩
  | clientFails stack => exact .inr ⟨rfl, by simp [Noticed], .inr (.inl rfl)⟩
  | forgotten heap => exact .inr ⟨rfl, by simp [Noticed], .inr (.inr ⟨rfl, nofun⟩)⟩
  | printed => exact .inl ⟨rfl, by simp [Noticed]⟩

end Shape

/-- **The notifications decide**: in every run that has come to its end the client has printed the
sum of its two numbers if and only if each message arrived when the process that it is for was
registered. Else it has printed nothing, and one of the two has failed or the reply is left. -/
theorem answered_iff {acts : List Act} (hfits : Fits a b)
    (hrun : (program a b).exec .start acts = some s) (hover : ∀ act, s.next a b act = none) :
    (s.handler = .done (decimalInt (a + b)) ↔ (program a b).Along InTime .start acts) ∧
      (s.handler ≠ .done (decimalInt (a + b)) → s.handler = .idle ∧
        (s.server = .failed ∨ s.client = .failed ∨ s.sumHandler = .done ∧ s.mq.msgs ≠ [])) := by
  have hstart : Shape a b .start := .start .server
  have hshape : Shape a b s :=
    LTS.exec_inv (fun _ _ _ hi hn => (hi.step hfits hn).1) hstart hrun
  have hiff := LTS.along_iff (I := Shape a b) (G := Noticed) (P := InTime)
    (fun _ _ _ hi hn => (hi.step hfits hn).1) (fun _ _ _ hi hn => (hi.step hfits hn).2) hstart hrun
  have hnoticed : Noticed .start := ⟨fun h => absurd rfl h, nofun⟩
  rw [← and_iff_right (b := (program a b).Along InTime .start acts) hnoticed, ← hiff]
  rcases hshape.outcome hover with ⟨hprinted, hall⟩ | ⟨hidle, hnot, hleft⟩
  · exact ⟨iff_of_true hprinted hall, fun hne => absurd hprinted hne⟩
  · have hne : s.handler ≠ .done (decimalInt (a + b)) := fun h => by
      rw [hidle] at h
      cases h
    exact ⟨iff_of_false hne hnot, fun _ => ⟨hidle, hleft⟩⟩

/-- Both register in time, and 1 and 2 are added. -/
theorem answered_one_two : (program 1 2).Along InTime .start [.server, .client [], .client [],
    .sumHandler [] [] 0 0, .sumHandler [] [] 0 0, .handler []] := by
  have hrun : (program 1 2).exec .start [.server, .client [], .client [], .sumHandler [] [] 0 0,
      .sumHandler [] [] 0 0, .handler []] =
      some ⟨⟨[], false⟩, .client, .loop, .done, .loop, .done ['3']⟩ := rfl
  refine (answered_iff (by decide) hrun fun act => ?_).1.mp rfl
  cases act <;> rfl

end Ops.OneQueue
