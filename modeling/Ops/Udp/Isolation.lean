import Mathlib.Data.Finset.Card
import Mathlib.Data.Fintype.Card
import Ops.Udp.System
import Ops.Udp.Table

/-!
# Runs of the server alone

`Server.run` feeds the server a sequence of datagrams, each with the outcome of the `sendto` that
may answer it. While at most `maxAddr` addresses take part there is always room, and an address
sees its own receiver (`run_refines`). What one client can do to another is to end the server: an
answer that fails other than with `EPIPE` cuts off whoever comes later (`isolated_iff`).
-/

namespace Ops.Udp

variable {α : Type} [DecidableEq α] {con : Con α} {s s' : Server α} {addr : α} {buf : List Byte}
variable {i : Fin maxAddr} {e : Arrival α} {es : List (Arrival α)}

/-- What the server prints and sends on each datagram, with its sender. -/
def Server.run (s : Server α) : List (Arrival α) → List (α × Reaction)
  | [] => []
  | e :: es =>
    match s.receive e.addr e.datagram e.send with
    | (r, some s) => (e.addr, r) :: s.run es
    | (r, none) => [(e.addr, r)]

/-- The datagrams of one address. -/
def own (a : α) (es : List (Arrival α)) : List (Arrival α) := es.filter fun e => e.addr = a

/-- `sendto` is called for a chunk that is not ahead of its sender's counter. -/
def Server.Answers (s : Server α) (e : Arrival α) : Prop :=
  ntohl e.datagram ≤ awaited (counter s.con e.addr)

/-- Where an answer fails other than with `EPIPE`, no datagram of another address follows. -/
def Server.CutsOffNobody (s : Server α) : List (Arrival α) → Prop
  | [] => True
  | e :: es => (s.Answers e ∧ e.send = .error → ∀ f ∈ es, f.addr = e.addr) ∧
    ∀ s', (s.receive e.addr e.datagram e.send).2 = some s' → s'.CutsOffNobody es

/-! ## The receiver of one address -/

/-- `rx` with the outcome of the answer; no next state when the server ends. -/
def answer (c : Option Int) (buf : List Byte) (send : SendOutcome) :
    Option (Option Int) × Reaction :=
  match (rx c buf).2.reply, send with
  | none, _ | some _, .sent => (some (rx c buf).1, (rx c buf).2)
  | some _, .epipe => (some none, { (rx c buf).2 with reply := none })
  | some _, .error => (none, { (rx c buf).2 with reply := none })

/-- The receiver of one address on its datagrams. -/
def rxRun : Option Int → List (Arrival α) → List Reaction
  | _, [] => []
  | c, e :: es =>
    match answer c e.datagram e.send with
    | (some c, r) => r :: rxRun c es
    | (none, r) => [r]

theorem rx_reply {c : Option Int} : (rx c buf).2.reply ≠ none ↔ ntohl buf ≤ awaited c := by
  rcases Int.lt_trichotomy (ntohl buf) (awaited c) with hk | hk | hk
  · simp [rx_behind hk, hk.le]
  · simp [rx_awaited hk, hk]
  · simp [rx_ahead hk, hk]

theorem answer_error {c : Option Int} {send : SendOutcome} :
    (answer c buf send).1 = none ↔ ntohl buf ≤ awaited c ∧ send = .error := by
  rw [← rx_reply]
  unfold answer
  cases (rx c buf).2.reply <;> cases send <;> simp

theorem serveAt_answer (hu : Unique con) (hi : Holds con i addr) (buf : List Byte)
    (send : SendOutcome) : ∃ con',
    serveAt buf con i send = ((answer (counter con addr) buf send).2,
      (answer (counter con addr) buf send).1.map fun _ => ⟨buf, con'⟩) ∧ Unique con' ∧
      (∀ c, (answer (counter con addr) buf send).1 = some c → counter con' addr = c) ∧
      ∀ b, b ≠ addr → counter con' b = counter con b := by
  obtain ⟨con', hserve, hu', hself, hother⟩ := serveAt_rx hu hi buf
  unfold serveAt at hserve
  unfold answer
  split at hserve
  · rename_i hstep
    obtain ⟨hr, hcon⟩ := Prod.mk.inj hserve
    cases hcon
    rw [← hr]
    refine ⟨con, ?_, hu', by rintro _ ⟨⟩; exact hself, hother⟩
    simp only [serveAt, hstep, Option.map_some]
  · rename_i printed c hstep
    obtain ⟨hr, hcon⟩ := Prod.mk.inj hserve
    cases hcon
    rw [← hr]
    cases send with
    | sent =>
      refine ⟨_, ?_, hu', by rintro _ ⟨⟩; exact hself, hother⟩
      simp only [serveAt, hstep, Option.map_some]
    | epipe =>
      have haddr : c.addr = addr := (chunkStep_addr hstep).trans hi.2
      obtain ⟨hfree, hnone, hrest⟩ := update_entry hu (c := { c with free := true }) haddr (.inl hi)
      refine ⟨_, ?_, hfree, by rintro _ ⟨⟩; exact hnone, hrest⟩
      simp only [serveAt, hstep, Option.map_some, Function.update_idem]
    | error =>
      refine ⟨_, ?_, hu', by rintro _ ⟨⟩, hother⟩
      simp only [serveAt, hstep, Option.map_none]

/-- **With room in its table, the server is the family of its receivers**, whatever `sendto`
does. -/
theorem receive_answer (hu : Unique s.con) (hroom : Room s.con addr) (d : List Byte)
    (send : SendOutcome) : ∃ con',
    s.receive addr d send = ((answer (counter s.con addr) (blit s.buf 0 d) send).2,
      (answer (counter s.con addr) (blit s.buf 0 d) send).1.map fun _ => ⟨blit s.buf 0 d, con'⟩) ∧
      Unique con' ∧
      (∀ c, (answer (counter s.con addr) (blit s.buf 0 d) send).1 = some c →
        counter con' addr = c) ∧
      ∀ b, b ≠ addr → counter con' b = counter s.con b := by
  rcases findIndex_cases addr s.con with ⟨i, hi, hf⟩ | ⟨hn, i, hi, hf⟩ | ⟨hn, hfull, -⟩
  · simp only [Server.receive, hf]
    exact serveAt_answer hu hi _ send
  · simp only [Server.receive, hf]
    -- a free entry is taken with counter 0, as if `addr` had had that entry before
    obtain ⟨hu', hself, hother⟩ := update_entry hu (c := ⟨false, 0, addr⟩) rfl (.inr ⟨hi, hn⟩)
    have hh : Holds (Function.update s.con i ⟨false, 0, addr⟩) i addr :=
      holds_update.mpr (.inl ⟨rfl, rfl, rfl⟩)
    have hzero : counter (Function.update s.con i ⟨false, 0, addr⟩) addr = some 0 := hself
    obtain ⟨con', hserve, hu'', hcount, hrest⟩ := serveAt_answer hu' hh (blit s.buf 0 d) send
    have hanswer : answer (some 0) (blit s.buf 0 d) send =
        answer (counter s.con addr) (blit s.buf 0 d) send := by
      rw [counter_none hn]
      rfl
    rw [hzero, hanswer] at hserve hcount
    exact ⟨con', hserve, hu'', hcount, fun b hb => (hrest b hb).trans (hother b hb)⟩
  · rcases hroom with h | ⟨i, h⟩
    · exact absurd (counter_none hn) h
    · rw [hfull i] at h
      cases h

/-- Few addresses leave room. Otherwise every entry is held, by as many other
addresses as there are entries. -/
theorem room_of_few {con : Con α} (hu : Unique con) {S : Finset α} (hS : S.card ≤ maxAddr)
    (hheld : ∀ b, counter con b ≠ none → b ∈ S) {a : α} (ha : a ∈ S) : Room con a := by
  by_contra hroom
  simp only [Room, not_or, Classical.not_not, not_exists, Bool.not_eq_true] at hroom
  obtain ⟨hnone, hfull⟩ := hroom
  have hholds : ∀ i, Holds con i (con i).addr := fun i => ⟨hfull i, rfl⟩
  have hmem : ∀ i ∈ Finset.univ, (con i).addr ∈ S.erase a := by
    intro i _
    have hself : counter con (con i).addr ≠ none := by rw [counter_holds hu (hholds i)]; simp
    refine Finset.mem_erase.mpr ⟨fun he => hself (he ▸ hnone), hheld _ hself⟩
  have hinj : Set.InjOn (fun i => (con i).addr) (Finset.univ : Finset (Fin maxAddr)) := by
    intro i _ j _ hij
    exact hu i j _ (hholds i) ⟨hfull j, hij.symm⟩
  have hcard := Finset.card_le_card_of_injOn _ hmem hinj
  have hpos := Finset.card_pos.mpr ⟨a, ha⟩
  rw [Finset.card_univ, Fintype.card_fin, Finset.card_erase_of_mem ha] at hcard
  omega

/-! ## Runs -/

/-- What every state of a run keeps while only the addresses of `S` take part. -/
structure Few (S : Finset α) (s : Server α) : Prop where
  unique : Unique s.con
  buf : s.buf.length = maxBuf
  held : ∀ b, counter s.con b ≠ none → b ∈ S

omit [DecidableEq α] in
theorem Server.Start.none (h : s.Start) (j : Fin maxAddr) (b : α) : ¬Holds s.con j b := fun hh => by
  have hfree := h.2 j
  rw [hh.1] at hfree
  cases hfree

theorem Server.Start.few (h : s.Start) (S : Finset α) : Few S s :=
  ⟨fun j _ b hj => absurd hj (h.none j b), h.1,
    fun b hb => absurd (counter_none fun j => h.none j b) hb⟩

/-- One datagram: what is answered, and what is kept for the rest. -/
theorem Few.step {S : Finset α} (h : Few S s) (hS : S.card ≤ maxAddr) (he : e.addr ∈ S)
    (hfull : e.datagram.length = maxBuf) : ∃ con',
    s.receive e.addr e.datagram e.send = ((answer (counter s.con e.addr) e.datagram e.send).2,
      (answer (counter s.con e.addr) e.datagram e.send).1.map fun _ => ⟨e.datagram, con'⟩) ∧
      Few S ⟨e.datagram, con'⟩ ∧
      (∀ c, (answer (counter s.con e.addr) e.datagram e.send).1 = some c →
        counter con' e.addr = c) ∧
      ∀ b, b ≠ e.addr → counter con' b = counter s.con b := by
  have hroom := room_of_few h.unique hS h.held he
  obtain ⟨con', hr, hu, hself, hother⟩ := receive_answer h.unique hroom e.datagram e.send
  rw [blit_all (by rw [h.buf]; exact hfull.ge)] at hr hself
  refine ⟨con', hr, ⟨hu, hfull, fun b hb => ?_⟩, hself, hother⟩
  by_cases hbe : b = e.addr
  · exact hbe ▸ he
  · exact h.held b (hother b hbe ▸ hb)

theorem own_cons_self (e : Arrival α) (es : List (Arrival α)) :
    own e.addr (e :: es) = e :: own e.addr es := by
  simp [own]

theorem own_cons_ne {a : α} (h : e.addr ≠ a) (es : List (Arrival α)) :
    own a (e :: es) = own a es := by
  simp [own, h]

omit [DecidableEq α] in
theorem rxRun_ne_nil (c : Option Int) (e : Arrival α) (es : List (Arrival α)) :
    rxRun c (e :: es) ≠ [] := by
  rw [rxRun]
  split <;> exact List.cons_ne_nil _ _

/-- The server ends on `e`: nothing is missing if all that follows is from the same address. -/
theorem ends_refines {r : Reaction} {c : α → Option Int}
    (hanswer : answer (c e.addr) e.datagram e.send = (none, r)) :
    (∀ a, ofTag a [(e.addr, r)] = rxRun (c a) (own a (e :: es))) ↔ ∀ f ∈ es, f.addr = e.addr := by
  constructor
  · intro hall f hf
    by_contra hne
    have hf' : f ∈ own f.addr es := List.mem_filter.mpr ⟨hf, decide_eq_true rfl⟩
    have hnil := hall f.addr
    rw [ofTag_cons_ne (Ne.symm hne), own_cons_ne (Ne.symm hne), ofTag_nil] at hnil
    obtain ⟨g, gs, hown⟩ := List.exists_cons_of_ne_nil (List.ne_nil_of_mem hf')
    rw [hown] at hnil
    exact rxRun_ne_nil _ g gs hnil.symm
  · intro hlast a
    by_cases hea : e.addr = a
    · subst hea
      rw [ofTag_cons_self, own_cons_self, rxRun, hanswer]
      rfl
    · have hown : own a es = [] := List.filter_eq_nil_iff.mpr fun f hf => by
        rw [hlast f hf]
        exact fun h => hea (of_decide_eq_true h)
      rw [ofTag_cons_ne hea, own_cons_ne hea, hown]
      rfl

/-- **An address sees its own receiver** if and only if nobody is cut off. -/
theorem run_refines {S : Finset α} (hS : S.card ≤ maxAddr) (h : Few S s)
    (hfull : ∀ e ∈ es, e.datagram.length = maxBuf) (hes : ∀ e ∈ es, e.addr ∈ S) :
    (∀ a, ofTag a (s.run es) = rxRun (counter s.con a) (own a es)) ↔ s.CutsOffNobody es := by
  induction es generalizing s with
  | nil => exact iff_of_true (fun _ => rfl) trivial
  | cons e es ih =>
    obtain ⟨hd, hfull⟩ := List.forall_mem_cons.mp hfull
    obtain ⟨he, hes⟩ := List.forall_mem_cons.mp hes
    obtain ⟨con', hr, hnext, hself, hother⟩ := h.step hS he hd
    have hends : (answer (counter s.con e.addr) e.datagram e.send).1 = none ↔
        s.Answers e ∧ e.send = .error := answer_error
    unfold Server.CutsOffNobody
    rw [← hends]
    cases hanswer : answer (counter s.con e.addr) e.datagram e.send with
    | mk next r =>
    rw [hanswer] at hr hself
    cases next with
    | none =>
      have hrun : s.run (e :: es) = [(e.addr, r)] := by
        simp only [Server.run, hr, Option.map_none]
      rw [hrun, hr, ends_refines (c := counter s.con) hanswer]
      exact ⟨fun hlast => ⟨fun _ => hlast, by rintro _ ⟨⟩⟩, fun h => h.1 rfl⟩
    | some c =>
      have hrun : s.run (e :: es) = (e.addr, r) :: Server.run ⟨e.datagram, con'⟩ es := by
        simp only [Server.run, hr, Option.map_some]
      have hrest := ih hnext hfull hes
      have hiff : (∀ a, ofTag a (s.run (e :: es)) = rxRun (counter s.con a) (own a (e :: es))) ↔
          ∀ a, ofTag a (Server.run ⟨e.datagram, con'⟩ es) = rxRun (counter con' a) (own a es) := by
        refine forall_congr' fun a => ?_
        rw [hrun]
        by_cases hea : e.addr = a
        · subst hea
          rw [ofTag_cons_self, own_cons_self, rxRun, hanswer, hself c rfl]
          exact ⟨fun heq => (List.cons.inj heq).2, fun heq => congrArg _ heq⟩
        · rw [ofTag_cons_ne hea, own_cons_ne hea, hother a (Ne.symm hea)]
      rw [hiff, hrest, hr]
      simp

theorem alone (s : Server α) {a : α} (h : ∀ e ∈ es, e.addr = a) : s.CutsOffNobody es := by
  induction es generalizing s with
  | nil => trivial
  | cons e es ih =>
    obtain ⟨he, hes⟩ := List.forall_mem_cons.mp h
    exact ⟨fun _ f hf => (hes f hf).trans he.symm, fun s' _ => ih s' hes⟩

theorem own_own (a : α) (es : List (Arrival α)) : own a (own a es) = own a es := by
  simp [own]

/-- **When clients do not influence each other**: what the server prints and sends for each address
is what it prints and sends on the datagrams of that address alone. -/
theorem isolated_iff (hfull : ∀ e ∈ es, e.datagram.length = maxBuf)
    (hfew : (es.map Arrival.addr).toFinset.card ≤ maxAddr) (hs : s.Start) :
    (∀ a (s' : Server α), s'.Start → ofTag a (s.run es) = ofTag a (s'.run (own a es))) ↔
      s.CutsOffNobody es := by
  have hmem : ∀ e ∈ es, e.addr ∈ (es.map Arrival.addr).toFinset := fun e he =>
    List.mem_toFinset.mpr (List.mem_map_of_mem he)
  have hnone : ∀ {s : Server α}, s.Start → ∀ a, counter s.con a = none := fun hs a =>
    counter_none fun j => hs.none j a
  have halone : ∀ a (s' : Server α), s'.Start →
      ofTag a (s'.run (own a es)) = rxRun none (own a es) := by
    intro a s' hs'
    have hsub : ∀ e ∈ own a es, e ∈ es ∧ e.addr = a := fun e he =>
      ⟨(List.mem_filter.mp he).1, of_decide_eq_true (List.mem_filter.mp he).2⟩
    have hown := (run_refines hfew (hs'.few _) (fun e he => hfull e (hsub e he).1)
      (fun e he => hmem e (hsub e he).1)).mpr (alone s' fun e he => (hsub e he).2) a
    rwa [own_own, hnone hs'] at hown
  rw [← run_refines hfew (hs.few _) hfull hmem]
  constructor
  · intro hall a
    rw [hall a s hs, halone a s hs, hnone hs]
  · intro hall a s' hs'
    rw [hall a, halone a s' hs', hnone hs]

/-- Nobody is cut off while no answer fails other than with `EPIPE`. -/
theorem cutsOffNobody_of_no_error (s : Server α) (h : ∀ e ∈ es, e.send ≠ .error) :
    s.CutsOffNobody es := by
  induction es generalizing s with
  | nil => trivial
  | cons e es ih =>
    obtain ⟨he, hes⟩ := List.forall_mem_cons.mp h
    exact ⟨fun hends => absurd hends.2 he, fun s' _ => ih s' hes⟩

/-- All entries are free. -/
def fresh : Server Bool := ⟨List.replicate maxBuf 0, fun _ => ⟨true, 0, true⟩⟩

theorem fresh_start : fresh.Start := ⟨List.length_replicate .., fun _ => rfl⟩

/-- The answer to the first address fails, and the server ends; the empty file of the second one
is neither printed nor acknowledged. -/
theorem client_cut_off : let es : List (Arrival Bool) :=
    [⟨false, datagram [] 1, .error⟩, ⟨true, datagram [] 1, .sent⟩]
    (∀ e ∈ es, e.datagram.length = maxBuf) ∧ (es.map Arrival.addr).toFinset.card ≤ maxAddr ∧
      ofTag true (fresh.run es) = [] ∧
      ofTag true (fresh.run (own true es)) = [⟨some (part [] 1), some (datagram [] 1)⟩] := by
  refine ⟨by simp, by decide, ?_, ?_⟩
  · decide +kernel
  · decide +kernel

/-- A file of two chunks from two addresses, interleaved; the answer to the second chunk of `false`
fails with `EPIPE`, and its first chunk comes again. -/
theorem isolated_iff_two : let f : List Byte := List.replicate 600 1
    let es : List (Arrival Bool) := [⟨true, datagram f 1, .sent⟩, ⟨false, datagram f 1, .sent⟩,
      ⟨false, datagram f 2, .epipe⟩, ⟨true, datagram f 2, .sent⟩, ⟨false, datagram f 1, .sent⟩]
    ∀ a (s' : Server Bool), s'.Start → ofTag a (fresh.run es) = ofTag a (s'.run (own a es)) := by
  intro f es
  have hno : ∀ e ∈ es, e.send ≠ .error := by simp [es]
  exact (isolated_iff (by simp [es]) (by decide) fresh_start).mpr
    (cutsOffNobody_of_no_error fresh hno)

end Ops.Udp
