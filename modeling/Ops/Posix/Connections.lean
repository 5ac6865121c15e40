import Mathlib.Data.List.Nodup
import Ops.Posix.Sockets

/-!
# Where a connection is

`Net.Ok`: a connection is in one queue or on one descriptor. `Net.Grows` is what the clients leave
as it was, and a connection that was accepted never comes back to a queue (`Net.Taken`).
-/

namespace Ops.Posix.Net

variable {κ : Type} [DecidableEq κ]

/-- A connection is in one queue or on one descriptor. -/
structure Ok (n : Net κ) : Prop where
  queued : ∀ l c, c ∈ n.backlog l → (n.conn c).opened = true ∧ ∀ fd, n.fds fd ≠ some c
  nodup : ∀ l, (n.backlog l).Nodup
  apart : ∀ l l' c, c ∈ n.backlog l → c ∈ n.backlog l' → l = l'
  held : ∀ fd c, n.fds fd = some c → (n.conn c).opened = true ∧ 0 ≤ fd ∧ n.other fd = false
  inj : ∀ fd fd' c, n.fds fd = some c → n.fds fd' = some c → fd = fd'
  other : ∀ fd, n.other fd = true → 0 ≤ fd
  zero : n.other 0 = true

/-- What the clients' steps leave as it was. -/
structure Grows (n n' : Net κ) : Prop where
  fds : n'.fds = n.fds
  other : n'.other = n.other
  opened : ∀ c, (n.conn c).opened = true → (n'.conn c).opened = true
  got : ∀ c, (n'.conn c).got = (n.conn c).got
  out : ∀ c, (n'.conn c).out = (n.conn c).out
  inbox : ∀ c, (n.conn c).inbox <+: (n'.conn c).inbox
  eof : ∀ c, (n.conn c).eof = true → (n'.conn c).eof = true
  reset : ∀ c, (n.conn c).reset = true → (n'.conn c).reset = true

variable {n n' : Net κ} {c : κ} {k : Conn} {l fd : Int}

theorem setConn_self (n : Net κ) (c : κ) (k : Conn) : (n.setConn c k).conn c = k :=
  Function.update_self ..

theorem setConn_of_ne (n : Net κ) {c d : κ} (h : d ≠ c) (k : Conn) :
    (n.setConn c k).conn d = n.conn d := Function.update_of_ne h ..

omit [DecidableEq κ] in
theorem Start.ok (h : n.Start) : n.Ok := by
  refine ⟨fun l c hc => ?_, fun l => ?_, fun l l' c hc => ?_, fun fd c hc => ?_,
    fun fd fd' c hc => ?_, h.other, h.zero⟩
  · rw [h.backlog l] at hc
    cases hc
  · rw [h.backlog l]
    exact List.nodup_nil
  · rw [h.backlog l] at hc
    cases hc
  · rw [h.fds fd] at hc
    cases hc
  · rw [h.fds fd] at hc
    cases hc

/-! ## Steps that stay on one connection -/

theorem opened_setConn (hk : k.opened = (n.conn c).opened) (d : κ) :
    ((n.setConn c k).conn d).opened = (n.conn d).opened := by
  by_cases hd : d = c
  · subst hd
    rw [setConn_self, hk]
  · rw [setConn_of_ne n hd]

theorem Ok.setConn (h : n.Ok) (hk : k.opened = (n.conn c).opened) : (n.setConn c k).Ok := by
  refine ⟨fun l d hd => ?_, h.nodup, h.apart, fun fd d hd => ?_, h.inj, h.other, h.zero⟩
  · rw [opened_setConn hk]
    exact h.queued l d hd
  · rw [opened_setConn hk]
    exact h.held fd d hd

theorem Ok.took (h : n.Ok) (c : κ) (rest : List Byte) : (n.took c rest).Ok := h.setConn rfl

theorem Ok.wrote (h : n.Ok) (c : κ) (bytes : List Byte) : (n.wrote c bytes).Ok := h.setConn rfl

theorem Grows.setConn (hopened : (n.conn c).opened = true → k.opened = true)
    (hgot : k.got = (n.conn c).got) (hout : k.out = (n.conn c).out)
    (hinbox : (n.conn c).inbox <+: k.inbox) (heof : (n.conn c).eof = true → k.eof = true)
    (hreset : (n.conn c).reset = true → k.reset = true) : Grows n (n.setConn c k) := by
  have hconn : ∀ {P : Conn → Conn → Prop}, P (n.conn c) k → (∀ k, P k k) → ∀ d,
      P (n.conn d) ((n.setConn c k).conn d) := by
    intro P hc hsame d
    by_cases hd : d = c
    · subst hd
      rwa [setConn_self]
    · rw [setConn_of_ne n hd]
      exact hsame _
  exact ⟨rfl, rfl, hconn (P := fun k k' => k.opened = true → k'.opened = true) hopened fun _ => id,
    hconn (P := fun k k' => k'.got = k.got) hgot fun _ => rfl,
    hconn (P := fun k k' => k'.out = k.out) hout fun _ => rfl,
    hconn (P := fun k k' => k.inbox <+: k'.inbox) hinbox fun _ => List.prefix_rfl,
    hconn (P := fun k k' => k.eof = true → k'.eof = true) heof fun _ => id,
    hconn (P := fun k k' => k.reset = true → k'.reset = true) hreset fun _ => id⟩

/-! ## Steps of the clients -/

omit [DecidableEq κ] in
theorem Grows.backlog (n : Net κ) (backlog : Int → List κ) : Grows n { n with backlog := backlog } :=
  ⟨rfl, rfl, fun _ => id, fun _ => rfl, fun _ => rfl, fun _ => List.prefix_rfl, fun _ => id,
    fun _ => id⟩

theorem peer_grows {p : Peer κ} (h : n.peer p = some n') : Grows n n' := by
  unfold peer at h
  cases p with
  | connect l c =>
    simp only at h
    split at h
    · cases h
    · cases h
      have hgrows : Grows n (n.setConn c { n.conn c with opened := true }) :=
        .setConn (fun _ => rfl) rfl rfl List.prefix_rfl id id
      exact ⟨rfl, rfl, hgrows.opened, hgrows.got, hgrows.out, hgrows.inbox, hgrows.eof, hgrows.reset⟩
  | send c bytes =>
    simp only at h
    split at h
    · cases h
      exact .setConn id rfl rfl (List.prefix_append _ _) id id
    · cases h
  | close c =>
    simp only at h
    split at h
    · cases h
      exact .setConn id rfl rfl List.prefix_rfl (fun _ => rfl) id
    · cases h
  | reset c =>
    simp only at h
    split at h
    · cases h
      exact .setConn id rfl rfl List.prefix_rfl (fun _ => rfl) fun _ => rfl
    · cases h
  | abort l c =>
    simp only at h
    split at h
    · cases h
      exact .backlog n _
    · cases h

omit [DecidableEq κ] in
theorem mem_queue {queues : Int → List κ} {rest : List κ} {l' : Int}
    (h : c ∈ Function.update queues l rest l') : l' = l ∧ c ∈ rest ∨ l' ≠ l ∧ c ∈ queues l' := by
  by_cases hl : l' = l
  · subst hl
    rw [Function.update_self] at h
    exact .inl ⟨rfl, h⟩
  · rw [Function.update_of_ne hl] at h
    exact .inr ⟨hl, h⟩

omit [DecidableEq κ] in
theorem mem_fewer {rest : List κ} (hrest : rest ⊆ n.backlog l) {l' : Int}
    (h : c ∈ Function.update n.backlog l rest l') : c ∈ n.backlog l' := by
  rcases mem_queue h with ⟨rfl, hc⟩ | ⟨-, hc⟩
  · exact hrest hc
  · exact hc

omit [DecidableEq κ] in
theorem Ok.fewer (h : n.Ok) {rest : List κ} (hrest : rest.Sublist (n.backlog l)) :
    ({ n with backlog := Function.update n.backlog l rest } : Net κ).Ok := by
  have hsub : ∀ l' d, d ∈ Function.update n.backlog l rest l' → d ∈ n.backlog l' :=
    fun _ _ hd => mem_fewer hrest.subset hd
  refine ⟨fun l' d hd => h.queued l' d (hsub l' d hd), fun l' => ?_,
    fun l' l'' d hd hd' => h.apart l' l'' d (hsub l' d hd) (hsub l'' d hd'), h.held, h.inj, h.other,
    h.zero⟩
  show (Function.update n.backlog l rest l').Nodup
  by_cases hl : l' = l
  · subst hl
    rw [Function.update_self]
    exact (h.nodup l').sublist hrest
  · rw [Function.update_of_ne hl]
    exact h.nodup l'

theorem Ok.connect (h : n.Ok) (hc : (n.conn c).opened = false) :
    ({ n.setConn c { n.conn c with opened := true } with
      backlog := Function.update n.backlog l (n.backlog l ++ [c]) } : Net κ).Ok := by
  have hnew : ∀ l', c ∉ n.backlog l' := fun l' hmem => by
    rw [(h.queued l' c hmem).1] at hc
    cases hc
  have hfree : ∀ fd, n.fds fd ≠ some c := fun fd hfd => by
    rw [(h.held fd c hfd).1] at hc
    cases hc
  have hmem : ∀ l' d, d ∈ Function.update n.backlog l (n.backlog l ++ [c]) l' →
      d = c ∧ l' = l ∨ d ∈ n.backlog l' := by
    intro l' d hd
    rcases mem_queue hd with ⟨rfl, hd⟩ | ⟨-, hd⟩
    · rw [List.mem_append, List.mem_singleton] at hd
      exact hd.symm.imp (fun hdc => ⟨hdc, rfl⟩) id
    · exact .inr hd
  have hopened : ∀ d, (n.conn d).opened = true →
      ((n.setConn c { n.conn c with opened := true }).conn d).opened = true := by
    intro d hd
    by_cases hdc : d = c
    · subst hdc
      rw [setConn_self]
    · rwa [setConn_of_ne n hdc]
  refine ⟨fun l' d hd => ?_, fun l' => ?_, fun l' l'' d hd hd' => ?_, fun fd d hd => ?_, h.inj,
    h.other, h.zero⟩
  · rcases hmem l' d hd with ⟨rfl, rfl⟩ | hd
    · refine ⟨?_, hfree⟩
      show ((n.setConn d { n.conn d with opened := true }).conn d).opened = true
      rw [setConn_self]
    · exact ⟨hopened d (h.queued l' d hd).1, (h.queued l' d hd).2⟩
  · show (Function.update n.backlog l (n.backlog l ++ [c]) l').Nodup
    by_cases hl : l' = l
    · subst hl
      rw [Function.update_self]
      exact List.nodup_append.mpr ⟨h.nodup l', List.nodup_singleton c, fun d hd e he hde =>
        hnew l' (List.mem_singleton.mp he ▸ hde ▸ hd)⟩
    · rw [Function.update_of_ne hl]
      exact h.nodup l'
  · rcases hmem l' d hd with ⟨hdc, hl⟩ | hold
    · rcases hmem l'' d hd' with ⟨-, hl'⟩ | hold'
      · rw [hl, hl']
      · exact absurd (hdc ▸ hold') (hnew l'')
    · rcases hmem l'' d hd' with ⟨hdc, -⟩ | hold'
      · exact absurd (hdc ▸ hold) (hnew l')
      · exact h.apart l' l'' d hold hold'
  · exact ⟨hopened d (h.held fd d hd).1, (h.held fd d hd).2⟩

theorem Ok.peer {p : Peer κ} (h : n.Ok) (hp : n.peer p = some n') : n'.Ok := by
  unfold Net.peer at hp
  cases p with
  | connect l c =>
    simp only at hp
    split at hp
    · cases hp
    · rename_i hc
      cases hp
      exact h.connect (Bool.eq_false_iff.mpr hc)
  | send c bytes =>
    simp only at hp
    split at hp
    · cases hp
      exact h.setConn rfl
    · cases hp
  | close c | reset c =>
    simp only at hp
    split at hp
    · cases hp
      exact h.setConn rfl
    · cases hp
  | abort l c =>
    simp only at hp
    split at hp
    · cases hp
      exact h.fewer List.erase_sublist
    · cases hp

/-! ## Descriptors -/

/-- The connection has left its queue. -/
structure Taken (n : Net κ) (c : κ) : Prop where
  opened : (n.conn c).opened = true
  gone : ∀ l, c ∉ n.backlog l

omit [DecidableEq κ] in
theorem Ok.taken (h : n.Ok) {rest : List κ} (hback : n.backlog l = c :: rest) :
    ({ n with backlog := Function.update n.backlog l rest } : Net κ).Taken c := by
  have hc : c ∈ n.backlog l := by
    rw [hback]
    exact List.mem_cons_self
  refine ⟨(h.queued l c hc).1, fun l' hmem => ?_⟩
  rcases mem_queue hmem with ⟨-, hmem⟩ | ⟨hl, hmem⟩
  · have hnodup := h.nodup l
    rw [hback] at hnodup
    exact (List.nodup_cons.mp hnodup).1 hmem
  · exact hl (h.apart l' l c hmem hc)

/-- What `add_new_client` has done. -/
inductive Accepts (n : Net κ) (l : Int) : AcceptOutcome → Option Int → Net κ → Prop where
  | conn {fd : Int} {c : κ} {rest : List κ} : n.backlog l = c :: rest → 0 ≤ fd →
      n.fds fd = none → n.other fd = false →
      Accepts n l (.conn fd) (some fd) { n with
        backlog := Function.update n.backlog l rest
        fds := Function.update n.fds fd (some c) }
  | eagain : n.backlog l = [] → Accepts n l .eagain (some (-1)) n
  | error {c : κ} {rest : List κ} : n.backlog l = c :: rest → (n.conn c).reset = true →
      Accepts n l .error none { n with backlog := Function.update n.backlog l rest }

omit [DecidableEq κ] in
theorem isOpen_false : n.isOpen fd = false ↔ n.fds fd = none ∧ n.other fd = false := by
  simp [isOpen]

omit [DecidableEq κ] in
theorem addNewClient_accepts {o : AcceptOutcome} {r : Option Int}
    (h : n.addNewClient l o = some (r, n')) : Accepts n l o r n' := by
  unfold addNewClient at h
  split at h
  · rename_i fd c rest hback
    split at h
    · rename_i hguard
      obtain ⟨hfds, hother⟩ := isOpen_false.mp hguard.2
      cases h
      exact .conn hback hguard.1 hfds hother
    · cases h
  · rename_i hback
    cases h
    exact .eagain hback
  · rename_i c rest hback
    split at h
    · rename_i hreset
      cases h
      exact .error hback hreset
    · cases h
  · cases h

omit [DecidableEq κ] in
theorem Ok.accept (h : n.Ok) {rest : List κ} (hback : n.backlog l = c :: rest) (hpos : 0 ≤ fd)
    (hfree : n.fds fd = none) (hother : n.other fd = false) :
    ({ n with
      backlog := Function.update n.backlog l rest
      fds := Function.update n.fds fd (some c) } : Net κ).Ok := by
  have hc : c ∈ n.backlog l := by
    rw [hback]
    exact List.mem_cons_self
  have hsub : rest.Sublist (n.backlog l) := by
    rw [hback]
    exact List.sublist_cons_self c rest
  have hfewer := h.fewer (l := l) hsub
  have hfds : ∀ fd' d, Function.update n.fds fd (some c) fd' = some d →
      fd' = fd ∧ d = c ∨ n.fds fd' = some d := by
    intro fd' d hd
    by_cases hfd : fd' = fd
    · subst hfd
      rw [Function.update_self, Option.some.injEq] at hd
      exact .inl ⟨rfl, hd.symm⟩
    · rw [Function.update_of_ne hfd] at hd
      exact .inr hd
  -- the accepted connection is in no queue any more
  have hgone := (h.taken hback).gone
  refine ⟨fun l' d hd => ⟨(hfewer.queued l' d hd).1, fun fd' hfd' => ?_⟩, hfewer.nodup, hfewer.apart,
    fun fd' d hd => ?_, fun fd' fd'' d hd hd' => ?_, h.other, h.zero⟩
  · rcases hfds fd' d hfd' with ⟨-, rfl⟩ | hfd'
    · exact (hgone l' hd).elim
    · exact (hfewer.queued l' d hd).2 fd' hfd'
  · rcases hfds fd' d hd with ⟨rfl, rfl⟩ | hd
    · exact ⟨(h.queued l d hc).1, hpos, hother⟩
    · exact h.held fd' d hd
  · rcases hfds fd' d hd with ⟨hfd, hdc⟩ | hold
    · rcases hfds fd'' d hd' with ⟨hfd', -⟩ | hold'
      · rw [hfd, hfd']
      · exact absurd (hdc ▸ hold') ((h.queued l c hc).2 fd'')
    · rcases hfds fd'' d hd' with ⟨-, hdc⟩ | hold'
      · exact absurd (hdc ▸ hold) ((h.queued l c hc).2 fd')
      · exact h.inj fd' fd'' d hold hold'

omit [DecidableEq κ] in
theorem Accepts.ok {o : AcceptOutcome} {r : Option Int} (h : n.Ok) (ha : Accepts n l o r n') :
    n'.Ok := by
  cases ha with
  | conn hback hpos hfree hother => exact h.accept hback hpos hfree hother
  | eagain => exact h
  | error hback =>
    refine h.fewer ?_
    rw [hback]
    exact List.sublist_cons_self _ _

omit [DecidableEq κ] in
theorem close_some {fd' : Int} (h : (n.close fd).fds fd' = some c) :
    fd' ≠ fd ∧ n.fds fd' = some c := by
  have hne : fd' ≠ fd := by
    rintro rfl
    cases (Function.update_self ..).symm.trans h
  exact ⟨hne, (Function.update_of_ne hne ..).symm.trans h⟩

omit [DecidableEq κ] in
theorem Ok.close (h : n.Ok) (fd : Int) : (n.close fd).Ok := by
  have hfds : ∀ fd' d, Function.update n.fds fd none fd' = some d → n.fds fd' = some d :=
    fun _ _ hd => (close_some hd).2
  exact ⟨fun l d hd => ⟨(h.queued l d hd).1, fun fd' hfd' => (h.queued l d hd).2 fd' (hfds fd' d hfd')⟩,
    h.nodup, h.apart, fun fd' d hd => h.held fd' d (hfds fd' d hd),
    fun fd' fd'' d hd hd' => h.inj fd' fd'' d (hfds fd' d hd) (hfds fd'' d hd'), h.other, h.zero⟩

/-! ## Connections that were accepted -/

theorem peer_backlog {p : Peer κ} (h : n.peer p = some n') {l : Int} {c : κ}
    (hc : c ∈ n'.backlog l) : c ∈ n.backlog l ∨ (n.conn c).opened = false := by
  unfold peer at h
  cases p with
  | connect l' d =>
    simp only at h
    split at h
    · cases h
    · rename_i hclosed
      cases h
      rcases mem_queue hc with ⟨rfl, hc⟩ | ⟨-, hc⟩
      · rw [List.mem_append, List.mem_singleton] at hc
        refine hc.imp id fun hcd => ?_
        rw [hcd]
        exact Bool.eq_false_iff.mpr hclosed
      · exact .inl hc
  | send d bytes | close d | reset d =>
    simp only at h
    split at h
    · cases h
      exact .inl hc
    · cases h
  | abort l' d =>
    simp only at h
    split at h
    · cases h
      exact .inl (mem_fewer (fun _ => List.mem_of_mem_erase) hc)
    · cases h

theorem Taken.peer {p : Peer κ} (h : n.Taken c) (hp : n.peer p = some n') : n'.Taken c := by
  refine ⟨(peer_grows hp).opened c h.opened, fun l hc => ?_⟩
  rcases peer_backlog hp hc with hc | hc
  · exact h.gone l hc
  · rw [h.opened] at hc
    cases hc

theorem Taken.setConn (h : n.Taken c) {d : κ} (hk : k.opened = (n.conn d).opened) :
    (n.setConn d k).Taken c := ⟨by rw [opened_setConn hk, h.opened], h.gone⟩

omit [DecidableEq κ] in
theorem Taken.fewer (h : n.Taken c) {rest : List κ} (hrest : rest ⊆ n.backlog l) :
    ({ n with backlog := Function.update n.backlog l rest } : Net κ).Taken c :=
  ⟨h.opened, fun l' hc => h.gone l' (mem_fewer hrest hc)⟩

theorem peer_connected {p : Peer κ} (h : n.peer p = some n') (hclose : p ≠ .close c)
    (hreset : p ≠ .reset c) (hc : (n.conn c).connected = true) :
    (n'.conn c).connected = true := by
  have hopened : (n.conn c).opened = true := by
    unfold Conn.connected at hc
    simp only [Bool.and_eq_true] at hc
    exact hc.1.1
  have hother : ∀ {d : κ} {k : Conn}, c ≠ d → ((n.setConn d k).conn c).connected = true := by
    intro d k hne
    rwa [setConn_of_ne n hne]
  unfold peer at h
  cases p with
  | connect l d =>
    simp only at h
    split at h
    · cases h
    · rename_i hclosed
      cases h
      exact hother fun hcd => hclosed (hcd ▸ hopened)
  | send d bytes =>
    simp only at h
    split at h
    · cases h
      by_cases hcd : c = d
      · subst hcd
        rwa [setConn_self]
      · exact hother hcd
    · cases h
  | close d =>
    simp only at h
    split at h
    · cases h
      exact hother fun hcd => hclose (hcd ▸ rfl)
    · cases h
  | reset d =>
    simp only at h
    split at h
    · cases h
      exact hother fun hcd => hreset (hcd ▸ rfl)
    · cases h
  | abort l d =>
    simp only at h
    split at h
    · cases h
      exact hc
    · cases h

theorem peer_silent {p : Peer κ} (h : n.peer p = some n') (heof : (n.conn c).eof = true) :
    (n'.conn c).inbox = (n.conn c).inbox := by
  have hkeep : ∀ {d : κ} {k : Conn}, k.inbox = (n.conn d).inbox →
      ((n.setConn d k).conn c).inbox = (n.conn c).inbox := by
    intro d k hk
    by_cases hcd : c = d
    · subst hcd
      rw [setConn_self, hk]
    · rw [setConn_of_ne n hcd]
  unfold peer at h
  cases p with
  | connect l d =>
    simp only at h
    split at h
    · cases h
    · cases h
      exact hkeep rfl
  | send d bytes =>
    simp only at h
    split at h
    · rename_i hconnected
      cases h
      have hcd : c ≠ d := by
        rintro rfl
        simp [Conn.connected, heof] at hconnected
      rw [setConn_of_ne n hcd]
    · cases h
  | close d | reset d =>
    simp only at h
    split at h
    · cases h
      exact hkeep rfl
    · cases h
  | abort l d =>
    simp only at h
    split at h
    · cases h
      rfl
    · cases h

theorem connect_opened (h : n.peer (.connect l c) = some n') : (n'.conn c).opened = true := by
  unfold peer at h
  simp only at h
  split at h
  · cases h
  · cases h
    show ((n.setConn c _).conn c).opened = true
    rw [setConn_self]

omit [DecidableEq κ] in
theorem connected_iff {k : Conn} :
    k.connected = true ↔ k.opened = true ∧ k.eof = false ∧ k.reset = false := by
  simp [Conn.connected, and_assoc]

omit [DecidableEq κ] in
theorem Grows.connected (h : Grows n n') (hopened : (n.conn c).opened = true)
    (hc : (n'.conn c).connected = true) : (n.conn c).connected = true := by
  obtain ⟨-, heof, hreset⟩ := connected_iff.mp hc
  refine connected_iff.mpr ⟨hopened, Bool.eq_false_iff.mpr fun h' => ?_,
    Bool.eq_false_iff.mpr fun h' => ?_⟩
  · cases heof.symm.trans (h.eof c h')
  · cases hreset.symm.trans (h.reset c h')

omit [DecidableEq κ] in
theorem writes_error {ws : List WriteOutcome} {k : Conn} {e : Errno} (h : k.writes ws = true)
    (he : .error e ∈ ws) :
    e = .epipe ∧ (k.eof = true ∨ k.reset = true) ∨ e = .other ∧ k.reset = true := by
  have hall := List.all_eq_true.mp h _ he
  cases e with
  | epipe =>
    simp only [Bool.or_eq_true] at hall
    exact .inl ⟨rfl, hall⟩
  | other => exact .inr ⟨rfl, hall⟩
  | eagain => cases hall

/-! ## Transfers -/

variable {rs : List ReadOutcome} {ws : List WriteOutcome} {buf buf' : List Byte} {count : Nat}

theorem bulkRead_conn {r : Except Errno Nat} (hfd : n.fds fd = some c)
    (h : n.bulkRead fd rs buf count = some (r, buf', n')) :
    (n.conn c).reads rs = true ∧ ∃ rest,
      Posix.bulkRead rs (n.conn c).stream buf 0 0 count = some ⟨r, buf', rest⟩ ∧
        n' = n.took c rest := by
  unfold Net.bulkRead at h
  rw [hfd] at h
  simp only at h
  split at h
  · rename_i hreads
    obtain ⟨⟨ret, stored, rest⟩, hread, heq⟩ := Option.map_eq_some_iff.mp h
    cases heq
    exact ⟨hreads, rest, hread, rfl⟩
  · cases h

theorem bulkWrite_conn {r : Except Errno Nat} (hfd : n.fds fd = some c)
    (h : n.bulkWrite fd ws buf count = some (r, n')) :
    (n.conn c).writes ws = true ∧ ∃ out,
      Posix.bulkWrite ws buf 0 count [] = some (r, out) ∧ n' = n.wrote c out := by
  unfold Net.bulkWrite at h
  rw [hfd] at h
  simp only at h
  split at h
  · rename_i hwrites
    obtain ⟨⟨ret, out⟩, hwrite, heq⟩ := Option.map_eq_some_iff.mp h
    cases heq
    exact ⟨hwrites, out, hwrite, rfl⟩
  · cases h

theorem Ok.bulkWrite {r : Except Errno Nat} (h : n.Ok)
    (hn : n.bulkWrite fd ws buf count = some (r, n')) : n'.Ok := by
  cases hfd : n.fds fd with
  | none =>
    unfold Net.bulkWrite at hn
    rw [hfd] at hn
    simp only at hn
    split at hn
    · obtain ⟨_, -, heq⟩ := Option.map_eq_some_iff.mp hn
      cases heq
      exact h
    · cases hn
      exact h
  | some c =>
    obtain ⟨-, out, -, rfl⟩ := bulkWrite_conn hfd hn
    exact h.wrote c out

omit [DecidableEq κ] in
theorem take_got (k : Conn) (count : Nat) :
    (k.take (k.inbox.drop count)).got = k.got ++ k.inbox.take count := by
  unfold Conn.take
  simp only [List.length_drop]
  rcases Nat.le_total k.inbox.length count with hle | hle
  · rw [Nat.sub_eq_zero_of_le hle, Nat.sub_zero, List.take_length, List.take_of_length_le hle]
  · rw [Nat.sub_sub_self hle]

theorem took_conn (n : Net κ) (c : κ) (rest : List Byte) (d : κ) :
    (n.took c rest).conn d = if d = c then (n.conn d).take rest else n.conn d := by
  by_cases hd : d = c
  · subst hd
    rw [if_pos rfl]
    exact setConn_self ..
  · rw [if_neg hd]
    exact setConn_of_ne n hd _

theorem took_sent {rest : List Byte} (h : rest <:+ (n.conn c).inbox) (d : κ) :
    ((n.took c rest).conn d).sent = (n.conn d).sent := by
  rw [took_conn]
  split
  · rename_i hd
    subst hd
    obtain ⟨read, hread⟩ := h
    have hlen : (n.conn d).inbox.length - rest.length = read.length := by
      rw [← hread, List.length_append]
      omega
    unfold Conn.take Conn.sent
    simp only [hlen, List.append_assoc]
    rw [← hread, List.take_left]
  · rfl

theorem took_opened (n : Net κ) (c : κ) (rest : List Byte) (d : κ) :
    ((n.took c rest).conn d).opened = (n.conn d).opened := by
  rw [took_conn]
  split
  · rfl
  · rfl

theorem took_eof (n : Net κ) (c : κ) (rest : List Byte) (d : κ) :
    ((n.took c rest).conn d).eof = (n.conn d).eof ∧
      ((n.took c rest).conn d).reset = (n.conn d).reset := by
  rw [took_conn]
  split
  · exact ⟨rfl, rfl⟩
  · exact ⟨rfl, rfl⟩

theorem took_out (n : Net κ) (c : κ) (rest : List Byte) (d : κ) :
    ((n.took c rest).conn d).out = (n.conn d).out := by
  rw [took_conn]
  split
  · rfl
  · rfl

theorem wrote_conn (n : Net κ) (c : κ) (bytes : List Byte) (d : κ) :
    (n.wrote c bytes).conn d =
      { n.conn d with out := (n.conn d).out ++ if d = c then bytes else [] } := by
  by_cases hd : d = c
  · subst hd
    rw [if_pos rfl]
    exact setConn_self ..
  · rw [if_neg hd, List.append_nil]
    exact setConn_of_ne n hd _

omit [DecidableEq κ] in
theorem reads_error {rs : List ReadOutcome} {e : Errno} {k : Conn} (h : k.reads rs = true)
    (he : .error e ∈ rs) : k.reset = true := by
  have hall := List.all_eq_true.mp h _ he
  simp only [Bool.and_eq_true] at hall
  exact hall.1

/-- What a `read` hands over is taken from the beginning of what has arrived. -/
theorem read_cases {count : Nat} {fails : Bool} {r : Except Errno (List Byte)} (hcount : 0 < count)
    (h : n.read fd count fails = some (r, n')) :
    n' = n ∧ (r = .ok [] ∨ ∃ e, r = .error e) ∧ (∀ c, n.fds fd = some c →
        (n.conn c).reset = true ∨ (n.conn c).inbox = [] ∧ (n.conn c).eof = true) ∨
      ∃ c b bytes, n.fds fd = some c ∧ (n.conn c).inbox.take count = b :: bytes ∧ fails = false ∧
        r = .ok (b :: bytes) ∧ n' = n.took c ((n.conn c).inbox.drop count) := by
  unfold Net.read at h
  cases hfd : n.fds fd with
  | none =>
    rw [hfd] at h
    simp only at h
    split at h
    · cases h
      exact .inl ⟨rfl, .inr ⟨_, rfl⟩, by simp⟩
    · cases h
  | some c =>
    rw [hfd] at h
    simp only at h
    split at h
    · split at h
      · rename_i hreset
        cases h
        exact .inl ⟨rfl, .inr ⟨_, rfl⟩, by rintro d ⟨⟩; exact .inl hreset⟩
      · cases h
    · rename_i hsucceeds
      split at h
      · rename_i hbytes
        split at h
        · rename_i hend
          cases h
          have hempty : (n.conn c).inbox = [] := by
            rcases List.take_eq_nil_iff.mp hbytes with h0 | h0
            · omega
            · exact h0
          refine .inl ⟨rfl, .inl rfl, ?_⟩
          rintro d ⟨⟩
          exact .inr ⟨hempty, hend.resolve_right (by omega)⟩
        · cases h
      · rename_i hbytes
        obtain ⟨b, bytes, heq⟩ := List.exists_cons_of_ne_nil hbytes
        rw [heq] at h
        cases h
        exact .inr ⟨c, b, bytes, rfl, heq, Bool.eq_false_iff.mpr hsucceeds, rfl, rfl⟩

theorem write_cases {bytes : List Byte} {error r : Option Errno}
    (h : n.write fd bytes error = some (r, n')) :
    (error = none ∧ r = none ∧ ∃ c, n.fds fd = some c ∧ n' = n.wrote c bytes) ∨
      (∃ e, error = some e ∧ r = some .epipe ∧ n' = n ∧ ∃ c, n.fds fd = some c ∧
        ((n.conn c).eof = true ∨ (n.conn c).reset = true)) ∨
      ∃ e, error = some e ∧ r = some .other ∧ n' = n ∧
        ∀ c, n.fds fd = some c → (n.conn c).reset = true := by
  unfold Net.write at h
  split at h
  · cases h
  · rename_i e hfd
    cases h
    refine .inr (.inr ⟨e, rfl, rfl, rfl, fun c hc => ?_⟩)
    cases hfd.symm.trans hc
  · rename_i c hfd
    cases h
    exact .inl ⟨rfl, rfl, c, hfd, rfl⟩
  · rename_i c e hfd
    split at h
    · rename_i hwrites
      cases h
      rcases writes_error hwrites List.mem_cons_self with ⟨rfl, hleft⟩ | ⟨rfl, hreset⟩
      · exact .inr (.inl ⟨_, rfl, rfl, rfl, c, hfd, hleft⟩)
      · refine .inr (.inr ⟨_, rfl, rfl, rfl, fun d hd => ?_⟩)
        cases hfd.symm.trans hd
        exact hreset
    · cases h

end Ops.Posix.Net
