import Ops.Select.Table

/-!
# What becomes of each client

`Books` is about every connection: what was read of it has been printed, in pieces; who was sent
the reply was never read and is closed; and who was read is closed only after the end.
-/

namespace Ops.Select

open Posix

variable {κ : Type} [DecidableEq κ] {server_socket fd client : Int} {s t : State κ} {act : Act κ}
variable {c : κ} {rdset clients : List Int} {i : Nat} {net : Net κ}

def State.texts (s : State κ) (c : κ) : List (List Byte) :=
  (s.printed.filter fun line => line.1 = c).map fun line => line.2

/-- Each text is what one `recv` has read, as far as `printf` prints it. -/
def Printed (s : State κ) (c : κ) : Prop :=
  ∃ chunks : List (List Byte), chunks.flatten = (s.net.conn c).got ∧
    (∀ chunk ∈ chunks, chunk ≠ [] ∧ chunk.length ≤ buffSize) ∧ s.texts c = chunks.map upToNul

structure Books (s : State κ) : Prop where
  printed : ∀ c, Printed s c
  closed : ∀ c, (s.net.conn c).got ≠ [] →
    (∃ fd, s.net.fds fd = some c) ∨ (s.net.conn c).inbox = [] ∧ (s.net.conn c).eof = true
  replied : ∀ c, (s.net.conn c).out ≠ [] →
    (s.net.conn c).out = neat_reply ∧ (s.net.conn c).got = [] ∧ ∀ fd, s.net.fds fd ≠ some c
  waiting : ∀ c, ((s.net.conn c).opened = false ∨ ∃ l, c ∈ s.net.backlog l) →
    (s.net.conn c).got = [] ∧ (s.net.conn c).out = []
  sending : ∀ rdset client c, s.pc = .send rdset client → s.net.fds client = some c →
    (s.net.conn c).got = []

theorem Start.books (h : Start server_socket s) : Books s := by
  have hconn : ∀ c, (s.net.conn c).got = [] ∧ (s.net.conn c).out = [] := fun c => by
    rw [h.net.conn]
    exact ⟨rfl, rfl⟩
  refine ⟨fun c => ⟨[], (hconn c).1.symm, by simp, by simp [State.texts, h.printed]⟩,
    fun c hgot => absurd (hconn c).1 hgot, fun c hout => absurd (hconn c).2 hout,
    fun c _ => hconn c, fun rdset client c hpc => ?_⟩
  cases h.pc.symm.trans hpc

namespace Books

variable (h : Books s)
include h

theorem seat {pc : Pc} (clients : List Int) (hpc : ∀ rdset client, pc ≠ .send rdset client) :
    Books ({ s with clients := clients }.goto pc) :=
  ⟨h.printed, h.closed, h.replied, h.waiting,
    fun rdset client _ heq => absurd heq (hpc rdset client)⟩

theorem goto {pc : Pc} (hpc : ∀ rdset client, pc ≠ .send rdset client) : Books (s.goto pc) :=
  h.seat s.clients hpc

theorem unsent (hc : s.net.fds fd = some c) : (s.net.conn c).out = [] := by
  by_contra hout
  exact (h.replied c hout).2.2 fd hc

theorem peer {p : Peer κ} (hnet : s.net.peer p = some net) : Books { s with net := net } := by
  have hgrows := Net.peer_grows hnet
  refine ⟨fun c => ?_, fun c hgot => ?_, fun c hout => ?_, fun c hwait => ?_,
    fun rdset client c hpc hfd => ?_⟩
  · obtain ⟨chunks, hflat, hall, htexts⟩ := h.printed c
    exact ⟨chunks, hflat.trans (hgrows.got c).symm, hall, htexts⟩
  · rw [hgrows.got] at hgot
    refine (h.closed c hgot).imp (fun ⟨fd, hfd⟩ => ⟨fd, hgrows.fds ▸ hfd⟩) fun ⟨hinbox, heof⟩ => ?_
    exact ⟨(Net.peer_silent hnet heof).trans hinbox, hgrows.eof c heof⟩
  · rw [hgrows.out] at hout ⊢
    rw [hgrows.got, hgrows.fds]
    exact h.replied c hout
  · rw [hgrows.got, hgrows.out]
    refine h.waiting c ?_
    rcases hwait with hunused | ⟨l, hl⟩
    · exact .inl (Bool.eq_false_iff.mpr fun hopened => by
        cases hunused.symm.trans (hgrows.opened c hopened))
    · exact (Net.peer_backlog hnet hl).symm.imp_right fun hl => ⟨l, hl⟩
  · rw [hgrows.got]
    rw [hgrows.fds] at hfd
    exact h.sending rdset client c hpc hfd

omit [DecidableEq κ] in
omit h in
theorem scan_ne_send (rdset : List Int) (i : Nat) (rdset' : List Int) (client : Int) :
    Pc.scan rdset i ≠ .send rdset' client := by
  unfold Pc.scan
  split <;> simp

theorem enter {rest : List κ} (hback : s.net.backlog server_socket = c :: rest)
    (hfree : s.net.fds client = none) (hpc : ∀ rdset client, s.pc ≠ .send rdset client) :
    Books (s.enter server_socket client c rest) := by
  have hqueued : c ∈ s.net.backlog server_socket := by
    rw [hback]
    exact List.mem_cons_self
  refine ⟨h.printed, fun d hgot => ?_, fun d hout => ?_, fun d hwait => ?_,
    fun rdset client _ heq => absurd heq (hpc rdset client)⟩
  · refine (h.closed d hgot).imp_left fun ⟨fd, hfd⟩ => ⟨fd, ?_⟩
    exact (Table.enter_fds hfree (by rw [hfd]; simp)).trans hfd
  · obtain ⟨hreply, hgot, hfds⟩ := h.replied d hout
    refine ⟨hreply, hgot, fun fd hfd => ?_⟩
    by_cases heq : fd = client
    · subst heq
      cases (Function.update_self ..).symm.trans hfd
      exact hout (h.waiting c (.inr ⟨_, hqueued⟩)).2
    · exact hfds fd ((Function.update_of_ne heq ..).symm.trans hfd)
  · refine h.waiting d (hwait.imp_right fun ⟨l, hl⟩ => ⟨l, Net.mem_fewer ?_ hl⟩)
    rw [hback]
    exact List.subset_cons_self c rest

theorem close (hpc : s.pc = .send rdset client) :
    Books ({ s with net := s.net.close client }.goto (.scan rdset 0)) := by
  refine ⟨h.printed, fun d hgot => ?_, fun d hout => ?_, fun d hwait => h.waiting d hwait,
    fun rdset' client' _ heq => absurd heq (scan_ne_send rdset 0 rdset' client')⟩
  · refine (h.closed d hgot).imp_left fun ⟨fd, hfd⟩ => ⟨fd, ?_⟩
    refine (Function.update_of_ne ?_ ..).trans hfd
    rintro rfl
    exact hgot (h.sending rdset fd d hpc hfd)
  · obtain ⟨hreply, hgot, hfds⟩ := h.replied d hout
    exact ⟨hreply, hgot, fun fd hfd => hfds fd (Net.close_some hfd).2⟩

omit h [DecidableEq κ] in
theorem not_waiting (hnet : s.net.Ok) (hc : s.net.fds fd = some c) :
    ¬((s.net.conn c).opened = false ∨ ∃ l, c ∈ s.net.backlog l) := by
  rintro (hunused | ⟨l, hl⟩)
  · cases hunused.symm.trans (hnet.held fd c hc).1
  · exact (hnet.queued l c hl).2 fd hc

theorem refused (hnet : s.net.Ok) (hpc : s.pc = .send rdset client)
    (hc : s.net.fds client = some c) :
    Books ({ s with net := (s.net.wrote c neat_reply).close client }.goto (.scan rdset 0)) := by
  have hgot := h.sending rdset client c hpc hc
  have hclosed := h.close hpc
  have hwrote : ∀ d, ((s.net.wrote c neat_reply).conn d) = { s.net.conn d with
      out := (s.net.conn d).out ++ if d = c then neat_reply else [] } :=
    Net.wrote_conn s.net c neat_reply
  have hread : ∀ d, ((s.net.wrote c neat_reply).conn d).got = (s.net.conn d).got := fun d => by
    rw [hwrote]
  have hsame : ∀ {d}, d ≠ c → (s.net.wrote c neat_reply).conn d = s.net.conn d := fun hdc => by
    rw [hwrote, if_neg hdc, List.append_nil]
  refine ⟨fun d => ?_, fun d hd => ?_, fun d hout => ?_, fun d hwait => ?_,
    fun rdset' client' _ heq => absurd heq (scan_ne_send rdset 0 rdset' client')⟩
  · obtain ⟨chunks, hflat, hall, htexts⟩ := h.printed d
    exact ⟨chunks, hflat.trans (hread d).symm, hall, htexts⟩
  · have hdc : d ≠ c := by
      rintro rfl
      exact hd ((hread d).trans hgot)
    refine (hclosed.closed d fun heq => hd ((hread d).trans heq)).imp_right fun hend => ?_
    show ((s.net.wrote c neat_reply).conn d).inbox = [] ∧
      ((s.net.wrote c neat_reply).conn d).eof = true
    rw [hsame hdc]
    exact hend
  · show ((s.net.wrote c neat_reply).conn d).out = neat_reply ∧
      ((s.net.wrote c neat_reply).conn d).got = [] ∧ _
    by_cases hdc : d = c
    · subst hdc
      refine ⟨?_, (hread d).trans hgot, fun fd hfd => ?_⟩
      · rw [hwrote, h.unsent hc, if_pos rfl, List.nil_append]
      · obtain ⟨hne, hfd⟩ := Net.close_some hfd
        exact hne (hnet.inj fd client d hfd hc)
    · rw [hsame hdc]
      refine hclosed.replied d fun heq => hout ?_
      show ((s.net.wrote c neat_reply).conn d).out = []
      rw [hsame hdc]
      exact heq
  · show ((s.net.wrote c neat_reply).conn d).got = [] ∧ ((s.net.wrote c neat_reply).conn d).out = []
    have hwait' : (s.net.conn d).opened = false ∨ ∃ l, d ∈ s.net.backlog l := by
      refine hwait.imp_left fun hunused => ?_
      have hopened : ((s.net.wrote c neat_reply).conn d).opened = (s.net.conn d).opened := by
        rw [hwrote]
      exact hopened.symm.trans hunused
    have hdc : d ≠ c := by
      rintro rfl
      exact not_waiting hnet hc hwait'
    rw [hsame hdc]
    exact h.waiting d hwait'

theorem heard (hnet : s.net.Ok) (hc : s.net.fds fd = some c)
    (hinbox : (s.net.conn c).inbox ≠ []) :
    Books ((s.heard c).goto (.scan rdset (i + 1))) := by
  have htook := Net.took_conn s.net c ((s.net.conn c).inbox.drop buffSize)
  have hsame : ∀ {d}, d ≠ c → (s.heard c).net.conn d = s.net.conn d := fun hdc => by
    rw [State.heard, htook, if_neg hdc]
  have htexts : ∀ {d}, d ≠ c → (s.heard c).texts d = s.texts d := fun hdc => by
    simp [State.texts, State.heard, Ne.symm hdc]
  refine ⟨fun d => ?_, fun d hd => ?_, fun d hout => ?_, fun d hwait => ?_,
    fun rdset' client' _ heq => absurd heq (scan_ne_send rdset (i + 1) rdset' client')⟩
  · obtain ⟨chunks, hflat, hall, hprinted⟩ := h.printed d
    by_cases hdc : d = c
    · subst hdc
      refine ⟨chunks ++ [(s.net.conn d).inbox.take buffSize], ?_, fun chunk hmem => ?_, ?_⟩
      · show _ = ((s.heard d).net.conn d).got
        rw [State.heard, htook, if_pos rfl, Net.take_got, List.flatten_append, hflat,
          List.flatten_singleton]
      · rcases List.mem_append.mp hmem with hmem | hmem
        · exact hall chunk hmem
        · rw [List.mem_singleton.mp hmem]
          refine ⟨fun hnil => ?_, List.length_take_le ..⟩
          exact hinbox ((List.take_eq_nil_iff.mp hnil).resolve_left (by decide))
      · show (s.heard d).texts d = _
        rw [List.map_append, ← hprinted]
        simp [State.texts, State.heard]
    · exact ⟨chunks, hflat.trans (congrArg Conn.got (hsame hdc)).symm, hall,
        (htexts hdc).trans hprinted⟩
  · by_cases hdc : d = c
    · exact .inl ⟨fd, hdc ▸ hc⟩
    · show _ ∨ ((s.heard c).net.conn d).inbox = [] ∧ ((s.heard c).net.conn d).eof = true
      rw [hsame hdc]
      exact h.closed d fun heq => hd ((congrArg Conn.got (hsame hdc)).trans heq)
  · show ((s.heard c).net.conn d).out = neat_reply ∧ ((s.heard c).net.conn d).got = [] ∧ _
    have hsent : ((s.heard c).net.conn d).out = (s.net.conn d).out := Net.took_out ..
    have hdc : d ≠ c := by
      rintro rfl
      exact hout (hsent.trans (h.unsent hc))
    rw [hsame hdc]
    exact h.replied d fun heq => hout (hsent.trans heq)
  · show ((s.heard c).net.conn d).got = [] ∧ ((s.heard c).net.conn d).out = []
    have hopened : ((s.heard c).net.conn d).opened = (s.net.conn d).opened := Net.took_opened ..
    have hwait' : (s.net.conn d).opened = false ∨ ∃ l, d ∈ s.net.backlog l :=
      hwait.imp_left fun hunused => hopened.symm.trans hunused
    have hdc : d ≠ c := by
      rintro rfl
      exact not_waiting hnet hc hwait'
    rw [hsame hdc]
    exact h.waiting d hwait'

theorem left (hc : s.net.fds fd = some c)
    (hinbox : (s.net.conn c).inbox = []) (heof : (s.net.conn c).eof = true) :
    Books ((s.clear i fd).goto (.scan rdset (i + 1))) := by
  refine ⟨h.printed, fun d hgot => ?_, fun d hout => ?_, fun d hwait => h.waiting d hwait,
    fun rdset' client' _ heq => absurd heq (scan_ne_send rdset (i + 1) rdset' client')⟩
  · by_cases hdc : d = c
    · exact .inr (hdc ▸ ⟨hinbox, heof⟩)
    · refine (h.closed d hgot).imp_left fun ⟨fd', hfd⟩ => ⟨fd', ?_⟩
      refine (Function.update_of_ne ?_ ..).trans hfd
      rintro rfl
      exact hdc (Option.some.inj (hfd.symm.trans hc))
  · obtain ⟨hreply, hgot, hfds⟩ := h.replied d hout
    exact ⟨hreply, hgot, fun fd' hfd => hfds fd' (Net.close_some hfd).2⟩

end Books

theorem Books.step (h : Books s) (htable : Table server_socket s) (hcalm : Calm act)
    (hn : s.next server_socket act = some t) : Books t := by
  have hscan := Books.scan_ne_send
  cases htable.moves hcalm hn with
  | peer hnet => exact h.peer hnet
  | accepting => exact h.goto (by simp)
  | reading => exact h.goto (hscan _ _)
  | entered hpc hback hpos hfree =>
    exact (h.enter hback hfree (by simp [hpc])).seat _ (hscan _ _)
  | @surplus rdset client c rest hpc hback hpos hfree =>
    have henter := h.enter hback hfree (by simp [hpc])
    refine ⟨henter.printed, henter.closed, henter.replied, henter.waiting,
      fun rdset' _ d heq hd => ?_⟩
    cases heq
    cases (Function.update_self ..).symm.trans hd
    exact (h.waiting c (.inr ⟨_, hback ▸ List.mem_cons_self⟩)).1
  | vanished => exact h.goto (hscan _ _)
  | refused hpc hc => exact h.refused htable.net hpc hc
  | lost hpc => exact h.close hpc
  | skipped => exact h.goto (hscan _ _)
  | found => exact h.goto (by simp)
  | heard _ _ _ hc hinbox => exact h.heard htable.net hc hinbox
  | left _ _ _ hc hinbox heof => exact h.left hc hinbox heof

theorem Books.reach (hsmall : server_socket < FD_SETSIZE)
    (hs : (server κ server_socket).ReachIf (fun _ => Calm) s) : Books s :=
  hs.inv (I := Books) (fun _ hinit => Start.books hinit)
    fun _ _ _ hr h hcalm hn => h.step (Table.reach hsmall hr) hcalm hn

omit [DecidableEq κ] in
theorem Table.nodup (h : Table server_socket s) : (s.clients.filter (· ≠ -1)).Nodup := by
  refine List.pairwise_filter.mpr (List.pairwise_iff_getElem.mpr fun i j hi hj hij hne _ heq => ?_)
  refine Nat.ne_of_lt hij (h.apart i j s.clients[i] (List.getElem?_eq_getElem hi) ?_ ?_)
  · rw [heq]
    exact List.getElem?_eq_getElem hj
  · exact of_decide_eq_true hne

omit [DecidableEq κ] in
theorem Table.open_iff (h : Table server_socket s) : (∃ c, s.net.fds fd = some c) ↔
    fd ≠ -1 ∧ fd ∈ s.clients ∨ ∃ rdset, s.pc = .send rdset fd := by
  constructor
  · rintro ⟨c, hc⟩
    have hpos := h.nonneg hc
    exact (h.all fd c hc).imp_left fun hfd => ⟨by omega, hfd⟩
  · rintro (⟨hne, hfd⟩ | ⟨rdset, hpc⟩)
    · exact ((h.used fd hfd).resolve_left hne).2
    · have hknown := h.pc
      rw [hpc] at hknown
      exact hknown.2.2

theorem Table.never_again (h : Table server_socket s) :
    s.next server_socket (.recv .again) = none := by
  cases hnext : s.next server_socket (.recv .again) with
  | none => rfl
  | some t => cases h.moves (show Calm (.recv .again) by simp [Calm]) hnext

/-- **The table and the clients** in every calm run. -/
theorem table_exact (hsmall : server_socket < FD_SETSIZE)
    (hs : (server κ server_socket).ReachIf (fun _ => Calm) s) :
    ((∀ why, s.pc ≠ .ended why) ∧ s.next server_socket (.recv .again) = none) ∧
    (s.clients.length = MAX_CLIENTS ∧ (s.clients.filter (· ≠ -1)).Nodup ∧
      ∀ fd, (∃ c, s.net.fds fd = some c) ↔
        fd ≠ -1 ∧ fd ∈ s.clients ∨ ∃ rdset, s.pc = .send rdset fd) ∧
    (∀ c, Printed s c) ∧
    (∀ c, (s.net.conn c).out ≠ [] → (s.net.conn c).out = neat_reply ∧ (s.net.conn c).got = [] ∧
      ∀ fd, s.net.fds fd ≠ some c) ∧
    ∀ c, (s.net.conn c).got ≠ [] → (∃ fd ∈ s.clients, s.net.fds fd = some c) ∨
      (s.net.conn c).inbox = [] ∧ (s.net.conn c).eof = true := by
  have htable := Table.reach hsmall hs
  have hbooks := Books.reach hsmall hs
  refine ⟨⟨fun why hpc => ?_, htable.never_again⟩, ⟨htable.length, htable.nodup,
    fun fd => htable.open_iff⟩, hbooks.printed, hbooks.replied, fun c hgot => ?_⟩
  · have hknown := htable.pc
    rw [hpc] at hknown
    exact hknown
  · refine (hbooks.closed c hgot).imp_left fun ⟨fd, hfd⟩ => ⟨fd, ?_, hfd⟩
    refine (htable.all fd c hfd).resolve_right fun ⟨rdset, hpc⟩ => hgot ?_
    exact hbooks.sending rdset fd c hpc hfd

/-- Nobody has connected; the listening socket is 4. -/
def idle : State Nat := ⟨.select, List.replicate MAX_CLIENTS (-1), Net.idle Nat, []⟩

theorem idle_start : Start 4 idle :=
  ⟨rfl, rfl, Net.idle_start, rfl, fun _ hfd => (of_decide_eq_true hfd).2, rfl⟩

def arrivals : List (Act Nat) :=
  [.peer (.connect 4 7), .peer (.connect 4 8), .peer (.connect 4 9), .peer (.connect 4 10)]

/-- Four clients connect, and the first one sends two bytes when it has its slot. -/
def fourClients : List (Act Nat) :=
  arrivals ++ [5, 6, 7].flatMap (fun fd =>
      [.select false, .accept (.conn fd), .slot false, .slot false, .slot false]) ++
    [.select false, .accept (.conn 8), .send none, .slot false, .slot false, .slot false,
      .peer (.send 7 [104, 105]), .select false, .slot false, .recv .done, .slot false, .slot false]

theorem table_exact_four : ∃ s, (server Nat 4).exec idle fourClients = some s ∧
    s.clients = [5, 6, 7] ∧ s.texts 7 = [[104, 105]] ∧ Printed s 7 ∧ (∃ c, s.net.fds 7 = some c) ∧
      (s.net.conn 10).out = neat_reply ∧ s.net.fds 8 ≠ some 10 := by
  have hcalm : ∀ act ∈ fourClients, Calm act := by simp [fourClients, arrivals, Calm, FD_SETSIZE]
  have hrun : ((server Nat 4).exec idle fourClients).map (fun s => (s.clients, s.texts 7)) =
      some ([5, 6, 7], [[104, 105]]) := rfl
  have hrefused : ((server Nat 4).exec idle fourClients).map (fun s => (s.net.conn 10).out) =
      some neat_reply := rfl
  obtain ⟨s, hs, hsee⟩ := Option.map_eq_some_iff.mp hrun
  obtain ⟨hclients, htexts⟩ := Prod.ext_iff.mp hsee
  have hreach : (server Nat 4).ReachIf (fun _ => Calm) s :=
    LTS.ReachIf.exec (.init idle_start) (fun act hact _ => hcalm act hact) hs
  obtain ⟨-, ⟨-, -, hopen⟩, hprinted, hreplied, -⟩ := table_exact (by decide) hreach
  have hout : (s.net.conn 10).out = neat_reply := by
    rw [hs] at hrefused
    exact Option.some.inj hrefused
  refine ⟨s, hs, hclients, htexts, hprinted 7, (hopen 7).mpr (.inl ⟨by decide, ?_⟩), hout, ?_⟩
  · rw [show s.clients = [5, 6, 7] from hclients]
    simp
  · exact (hreplied 10 (by rw [hout]; exact List.append_ne_nil_of_right_ne_nil _ nofun)).2.2 8

end Ops.Select
