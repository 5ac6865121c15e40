import Mathlib.Data.List.Perm.Subperm
import Ops.Lib.Slots
import Ops.Select.Served

/-!
# The server comes to rest

Each turn accepts a client, or reads a part, or closes: `weight` is what the clients have left to
be done, and the calls until the turn is over. While the clients do nothing the server makes a
bounded number of steps, and where it waits nothing is left (`comes_to_rest`).
-/

namespace Ops.Select

open Posix

variable {κ : Type} [DecidableEq κ] {server_socket fd client : Int} {s t : State κ} {act : Act κ}
variable {c : κ} {rdset clients : List Int} {i : Nat} {net : Net κ}

/-- A step of the server. -/
def Own : Act κ → Prop
  | .peer _ => False
  | _ => True

/-! ## What is left to do -/

/-- What is to be read from a descriptor, with its end. -/
def load (n : Net κ) (fd : Int) : Nat :=
  match n.fds fd with
  | none => 0
  | some c => (n.conn c).inbox.length + 1

/-- A slot from `i` on is to be read in this turn. -/
def pending (clients rdset : List Int) (i : Nat) : Bool := (clients.drop i).any (· ∈ rdset)

/-- The calls of a turn, with the next `select` where nothing might be read any more. -/
def Pc.weight (clients : List Int) (queue : List κ) : Pc → Nat
  | .select => 10
  | .accept _ => if queue = [] then 17 else 9
  | .send _ _ => 17
  | .slot rdset i => 2 * (MAX_CLIENTS - i) + if pending clients rdset i then 0 else 10
  | .recv _ i => 2 * (MAX_CLIENTS - i) - 1
  | .ended _ => 0

def State.load (server_socket : Int) (s : State κ) : Nat :=
  (s.clients.map (Select.load s.net)).sum +
    ((s.net.backlog server_socket).map fun c => (s.net.conn c).inbox.length + 2).sum

def State.weight (server_socket : Int) (s : State κ) : Nat :=
  20 * s.load server_socket + s.pc.weight s.clients (s.net.backlog server_socket)

omit [DecidableEq κ] in
theorem load_open (n : Net κ) (hc : n.fds fd = some c) :
    load n fd = (n.conn c).inbox.length + 1 := by
  unfold load
  rw [hc]

omit [DecidableEq κ] in
theorem load_closed (n : Net κ) (hc : n.fds fd = none) : load n fd = 0 := by
  unfold load
  rw [hc]

theorem pending_iff : pending clients rdset i = true ↔
    ∃ j fd, i ≤ j ∧ clients[j]? = some fd ∧ fd ∈ rdset := by
  unfold pending
  rw [List.any_eq_true]
  constructor
  · rintro ⟨fd, hfd, hmem⟩
    obtain ⟨k, hk⟩ := List.mem_iff_getElem?.mp hfd
    rw [List.getElem?_drop] at hk
    exact ⟨i + k, fd, Nat.le_add_right i k, hk, of_decide_eq_true hmem⟩
  · rintro ⟨j, fd, hij, hfd, hmem⟩
    refine ⟨fd, List.mem_iff_getElem?.mpr ⟨j - i, ?_⟩, decide_eq_true hmem⟩
    rw [List.getElem?_drop, Nat.add_sub_cancel' hij]
    exact hfd

theorem pending_skip (hfd : clients[i]? = some fd) (hmem : fd ∉ rdset) :
    pending clients rdset (i + 1) = pending clients rdset i := by
  rw [Bool.eq_iff_iff, pending_iff, pending_iff]
  constructor
  · rintro ⟨j, d, hij, hd⟩
    exact ⟨j, d, Nat.le_of_succ_le hij, hd⟩
  · rintro ⟨j, d, hij, hd, hdmem⟩
    refine ⟨j, d, Nat.lt_of_le_of_ne hij ?_, hd, hdmem⟩
    rintro rfl
    cases hfd.symm.trans hd
    exact hmem hdmem

omit [DecidableEq κ] in
theorem scan_weight (rdset : List Int) (i : Nat) (clients : List Int) (queue : List κ) :
    (Pc.scan rdset i).weight clients queue ≤ 2 * (MAX_CLIENTS - i) + 10 := by
  by_cases hi : i < MAX_CLIENTS
  · rw [Pc.scan, if_pos hi, Pc.weight]
    cases pending clients rdset i with
    | false => exact Nat.le_refl _
    | true => exact Nat.le_add_right _ 10
  · rw [Pc.scan, if_neg hi, Pc.weight]
    omega

omit [DecidableEq κ] in
theorem skip_weight (hi : i < MAX_CLIENTS) (hlength : clients.length = MAX_CLIENTS)
    (hfd : clients[i]? = some fd) (hmem : fd ∉ rdset) (queue : List κ) :
    (Pc.scan rdset (i + 1)).weight clients queue < (Pc.slot rdset i).weight clients queue := by
  have hskip := pending_skip hfd hmem
  by_cases hlast : i + 1 < MAX_CLIENTS
  · rw [Pc.scan, if_pos hlast, Pc.weight, Pc.weight, hskip]
    omega
  · have hnone : pending clients rdset i = false := by
      rw [← hskip, pending, List.drop_of_length_le (by omega)]
      rfl
    rw [Pc.scan, if_neg hlast, Pc.weight, Pc.weight, hnone, if_neg Bool.false_ne_true]
    omega

omit [DecidableEq κ] in
theorem reading_weight (h : Table server_socket s) (hsome : s.rdset server_socket ≠ [])
    (hquiet : server_socket ∉ s.rdset server_socket) (queue : List κ) :
    (Pc.scan (s.rdset server_socket) 0).weight s.clients queue < 10 := by
  obtain ⟨fd, hfd⟩ := List.exists_mem_of_ne_nil _ hsome
  have hslot : fd ∈ s.clients := by
    rcases List.mem_cons.mp (mem_rdset.mp hfd).1 with rfl | hmem
    · exact absurd hfd hquiet
    · exact (List.mem_filter.mp hmem).1
  obtain ⟨j, hj⟩ := List.mem_iff_getElem?.mp hslot
  have hpending : pending s.clients (s.rdset server_socket) 0 = true :=
    pending_iff.mpr ⟨j, fd, Nat.zero_le j, hj, hfd⟩
  rw [Pc.scan, if_pos (by decide), Pc.weight, hpending]
  decide

/-! ## One step -/

namespace Table

variable (h : Table server_socket s)
include h

omit [DecidableEq κ] in
theorem listen_closed : s.net.fds server_socket = none := by
  cases hfds : s.net.fds server_socket with
  | none => rfl
  | some c => cases (h.net.held server_socket c hfds).2.2.symm.trans h.listens

omit [DecidableEq κ] in
theorem free_closed : s.net.fds (-1) = none := by
  cases hfds : s.net.fds (-1) with
  | none => rfl
  | some c => exact absurd (h.nonneg hfds) (by decide)

omit [DecidableEq κ] in
theorem enter_load {rest : List κ} (hback : s.net.backlog server_socket = c :: rest)
    (hpos : 0 ≤ client) (hfree : s.net.fds client = none)
    (hplace : place client s.clients = some clients) :
    State.load server_socket { s.enter server_socket client c rest with clients := clients } + 1 =
      s.load server_socket := by
  obtain ⟨i, hi, rfl⟩ := place_some hplace
  have hlisted := h.not_listed hfree hpos
  have hsum := sum_slot_of (f := load s.net)
    (g := load (s.enter server_socket client c rest).net) hi (fun j d _ hd => by
      have hne : d ≠ client := fun heq => hlisted (heq ▸ List.mem_of_getElem? hd)
      simp only [load, State.enter, Function.update_of_ne hne]) client
  have hnew : load (s.enter server_socket client c rest).net client =
      (s.net.conn c).inbox.length + 1 := load_open _ (Function.update_self ..)
  rw [load_closed _ h.free_closed, hnew] at hsum
  unfold State.load
  rw [hback]
  simp only [State.enter, Function.update_self, List.map_cons, List.sum_cons] at hsum ⊢
  omega

omit [DecidableEq κ] in
/-- The client that finds no slot takes along what it has sent. -/
theorem surplus_load {rest : List κ} (hback : s.net.backlog server_socket = c :: rest)
    (hpos : 0 ≤ client) (hfree : s.net.fds client = none) :
    State.load server_socket (s.enter server_socket client c rest) + 2 ≤ s.load server_socket := by
  have hlisted := h.not_listed hfree hpos
  have hslots : s.clients.map (load (s.enter server_socket client c rest).net) =
      s.clients.map (load s.net) := List.map_congr_left fun d hd => by
    have hne : d ≠ client := fun heq => hlisted (heq ▸ hd)
    simp only [load, State.enter, Function.update_of_ne hne]
  unfold State.load
  rw [hback]
  simp only [State.enter, Function.update_self, List.map_cons, List.sum_cons] at hslots ⊢
  rw [hslots]
  omega

omit [DecidableEq κ] h in
theorem close_load {n : Net κ} (hlisted : client ∉ s.clients) (hfds : n.fds = s.net.fds)
    (hback : n.backlog = s.net.backlog) (hinbox : ∀ d, (n.conn d).inbox = (s.net.conn d).inbox) :
    State.load server_socket { s with net := n.close client } = s.load server_socket := by
  have hslots : s.clients.map (load (n.close client)) = s.clients.map (load s.net) :=
    List.map_congr_left fun d hd => by
      have hne : d ≠ client := fun heq => hlisted (heq ▸ hd)
      simp only [load, Net.close, Function.update_of_ne hne, hfds, hinbox]
  unfold State.load
  simp only [hslots]
  simp only [Net.close, hback, hinbox]

theorem heard_load (hfd : s.clients[i]? = some fd)
    (hc : s.net.fds fd = some c) (hinbox : (s.net.conn c).inbox ≠ []) :
    State.load server_socket (s.heard c) < s.load server_socket := by
  have htook := Net.took_conn s.net c ((s.net.conn c).inbox.drop buffSize)
  have hused : fd ≠ -1 := by
    have hpos := h.nonneg hc
    omega
  have hsum := sum_slot_of (f := load s.net) (g := load (s.heard c).net) hfd (fun j d hj hd => by
    cases hd' : s.net.fds d with
    | none => rw [load_closed _ hd', load_closed (s.heard c).net hd']
    | some e =>
      have hec : e ≠ c := by
        rintro rfl
        have heq := h.net.inj d fd e hd' hc
        exact hj (h.apart j i fd (heq ▸ hd) hfd hused)
      rw [load_open _ hd', load_open (s.heard c).net hd', State.heard, htook, if_neg hec]) fd
  have hset : s.clients.set i fd = s.clients := by
    obtain ⟨hi, rfl⟩ := List.getElem?_eq_some_iff.mp hfd
    exact List.set_getElem_self hi
  have hafter : ((s.heard c).net.conn c).inbox = (s.net.conn c).inbox.drop buffSize := by
    rw [State.heard, htook, if_pos rfl]
    rfl
  have hqueue : ((s.heard c).net.backlog server_socket).map
      (fun d => ((s.heard c).net.conn d).inbox.length + 2) =
      (s.net.backlog server_socket).map fun d => (s.net.conn d).inbox.length + 2 :=
    List.map_congr_left fun d hd => by
      have hdc : d ≠ c := by
        rintro rfl
        exact (h.net.queued server_socket d hd).2 fd hc
      rw [State.heard, htook, if_neg hdc]
  have hfewer : ((s.net.conn c).inbox.drop buffSize).length < (s.net.conn c).inbox.length := by
    have hpos := List.length_pos_of_ne_nil hinbox
    rw [List.length_drop]
    exact Nat.sub_lt hpos (by decide)
  rw [hset, load_open _ hc, load_open (s.heard c).net hc, hafter] at hsum
  unfold State.load
  rw [hqueue]
  show ((s.clients.map (load (s.heard c).net)).sum + _) < _
  omega

omit [DecidableEq κ] in
theorem left_load (hfd : s.clients[i]? = some fd) (hc : s.net.fds fd = some c)
    (hinbox : (s.net.conn c).inbox = []) :
    State.load server_socket (s.clear i fd) + 1 = s.load server_socket := by
  have hused : fd ≠ -1 := by
    have hpos := h.nonneg hc
    omega
  have hsum := sum_slot_of (f := load s.net) (g := load (s.net.close fd)) hfd (fun j d hj hd => by
    have hne : d ≠ fd := fun heq => hj (h.apart j i fd (heq ▸ hd) hfd hused)
    simp only [load, Net.close, Function.update_of_ne hne]) (-1)
  have hfree : load (s.net.close fd) (-1) = 0 :=
    load_closed _ ((Function.update_of_ne (Ne.symm hused) ..).trans h.free_closed)
  rw [hfree, load_open _ hc, hinbox, List.length_nil] at hsum
  unfold State.load
  simp only [State.clear]
  simp only [Net.close] at hsum ⊢
  omega

end Table

omit [DecidableEq κ] in
theorem weight_lt {k : Nat} (hload : t.load server_socket + k ≤ s.load server_socket)
    (hpc : t.pc.weight t.clients (t.net.backlog server_socket) <
      s.pc.weight s.clients (s.net.backlog server_socket) + 20 * k) :
    t.weight server_socket < s.weight server_socket := by
  unfold State.weight
  omega

omit [DecidableEq κ] in
theorem weight_scan (rdset : List Int) (i : Nat) {k : Nat} (ht : t.pc = .scan rdset i)
    (hload : t.load server_socket + k ≤ s.load server_socket)
    (hpc : 2 * (MAX_CLIENTS - i) + 10 <
      s.pc.weight s.clients (s.net.backlog server_socket) + 20 * k) :
    t.weight server_socket < s.weight server_socket := by
  refine weight_lt hload ?_
  rw [ht]
  exact Nat.lt_of_le_of_lt (scan_weight rdset i t.clients _) hpc

theorem Table.weight_step (h : Table server_socket s) (hcalm : Calm act) (hown : Own act)
    (hn : s.next server_socket act = some t) : t.weight server_socket < s.weight server_socket := by
  have hknown := h.pc
  cases h.moves hcalm hn with
  | peer => exact hown.elim
  | accepting hpc hmem =>
    have hback := (Net.listen_ready h.listen_closed).mp (mem_rdset.mp hmem).2
    refine weight_lt (k := 0) (Nat.le_refl _) ?_
    show (if s.net.backlog server_socket = [] then 17 else 9) < _
    rw [if_neg hback, hpc]
    exact Nat.lt_succ_self 9
  | reading hpc hsome hmem =>
    refine weight_lt (k := 0) (Nat.le_refl _) ?_
    rw [hpc]
    exact reading_weight h hsome hmem _
  | @entered rdset clients client c rest hpc hback hpos hfree hother hsmall hplace =>
    refine weight_scan rdset 0 (k := 1) rfl (Nat.le_of_eq (h.enter_load hback hpos hfree hplace)) ?_
    rw [hpc, hback, Pc.weight, if_neg (List.cons_ne_nil c rest)]
    decide
  | surplus hpc hback hpos hfree =>
    refine weight_lt (k := 2) (h.surplus_load hback hpos hfree) ?_
    show 17 < _
    rw [hpc, hback, Pc.weight, if_neg (List.cons_ne_nil _ _)]
    decide
  | @vanished rdset hpc hback =>
    refine weight_scan rdset 0 (k := 0) rfl (Nat.le_refl _) ?_
    rw [hpc, hback, Pc.weight, if_pos rfl]
    decide
  | @refused rdset client c hpc hc =>
    rw [hpc] at hknown
    have hinbox := fun d => congrArg Conn.inbox (Net.wrote_conn s.net c neat_reply d)
    refine weight_scan rdset 0 (k := 0) rfl
      (Nat.le_of_eq (close_load hknown.2.1 rfl rfl hinbox)) ?_
    rw [hpc, Pc.weight]
    decide
  | @lost rdset client e hpc =>
    rw [hpc] at hknown
    refine weight_scan rdset 0 (k := 0) rfl
      (Nat.le_of_eq (close_load hknown.2.1 rfl rfl fun d => rfl)) ?_
    rw [hpc, Pc.weight]
    decide
  | skipped hpc hfd hmem =>
    rw [hpc] at hknown
    refine weight_lt (k := 0) (Nat.le_refl _) ?_
    rw [hpc]
    exact skip_weight hknown.1 h.length hfd hmem _
  | @found rdset i fd hpc =>
    rw [hpc] at hknown
    refine weight_lt (k := 0) (Nat.le_refl _) ?_
    have hi : i < MAX_CLIENTS := hknown.1
    rw [hpc]
    show 2 * (MAX_CLIENTS - i) - 1 < 2 * (MAX_CLIENTS - i) + _
    omega
  | @heard rdset i fd c hpc hfd _ hc hinbox =>
    rw [hpc] at hknown
    refine weight_scan rdset (i + 1) (k := 1) rfl (h.heard_load hfd hc hinbox) ?_
    rw [hpc, Pc.weight]
    omega
  | @left rdset i fd c hpc hfd _ hc hinbox =>
    rw [hpc] at hknown
    refine weight_scan rdset (i + 1) (k := 1) rfl
      (Nat.le_of_eq (h.left_load hfd hc hinbox)) ?_
    rw [hpc, Pc.weight]
    omega

/-! ## Rest -/

/-- The server is in `select`, nobody is in the queue, and whoever has a descriptor is connected
and has been read. -/
structure Waits (server_socket : Int) (s : State κ) : Prop where
  pc : s.pc = .select
  queue : s.net.backlog server_socket = []
  read : ∀ fd c, s.net.fds fd = some c →
    (s.net.conn c).inbox = [] ∧ (s.net.conn c).eof = false ∧ (s.net.conn c).reset = false

namespace Table

variable (h : Table server_socket s)
include h

omit [DecidableEq κ] in
/-- The table is too small for all descriptors behind the listening socket. -/
theorem free (hroom : server_socket + MAX_CLIENTS + 1 < FD_SETSIZE)
    (hpc : ∀ rdset client, s.pc ≠ .send rdset client) :
    ∃ fd, 0 ≤ fd ∧ fd < FD_SETSIZE ∧ s.net.isOpen fd = false := by
  by_contra hnone
  have hlisten := h.net.other server_socket h.listens
  have hnodup : ((List.range (MAX_CLIENTS + 1)).map fun k : Nat => server_socket + 1 + k).Nodup :=
    List.nodup_range.map fun j k hjk => by simpa using hjk
  have hsub : ((List.range (MAX_CLIENTS + 1)).map fun k : Nat => server_socket + 1 + k) ⊆
      s.clients := by
    intro fd hfd
    obtain ⟨k, hk, rfl⟩ := List.mem_map.mp hfd
    have hlt := List.mem_range.mp hk
    have hother : s.net.other (server_socket + 1 + k) = false :=
      Bool.eq_false_iff.mpr fun hopen => by
        have hle := h.last _ hopen
        omega
    cases hfds : s.net.fds (server_socket + 1 + k) with
    | none =>
      exact absurd ⟨_, by omega, by omega, Net.isOpen_false.mpr ⟨hfds, hother⟩⟩ hnone
    | some c => exact (h.all _ c hfds).resolve_right fun ⟨rdset, heq⟩ => hpc _ _ heq
  have hle := (List.subperm_of_subset hnodup hsub).length_le
  rw [List.length_map, List.length_range, h.length] at hle
  omega

/-- Where the server has no step, `select` has nothing to report. -/
theorem stuck (hroom : server_socket + MAX_CLIENTS + 1 < FD_SETSIZE)
    (hstuck : ∀ act, Calm act → Own act → s.next server_socket act = none) :
    s.pc = .select ∧ s.rdset server_socket = [] := by
  have hknown := h.pc
  cases hpc : s.pc with
  | select =>
    refine ⟨rfl, ?_⟩
    have hnone := hstuck (.select false) rfl trivial
    unfold State.next at hnone
    simp only [hpc, State.select, h.watched_small, Bool.false_eq_true, ite_false] at hnone
    split at hnone
    · assumption
    · split at hnone <;> cases hnone
  | accept rdset =>
    exfalso
    cases hback : s.net.backlog server_socket with
    | nil =>
      have hnone := hstuck (.accept .eagain) ⟨by simp, by simp⟩ trivial
      simp [State.next, hpc, State.accept, Net.addNewClient, hback] at hnone
    | cons c rest =>
      obtain ⟨fd, hpos, hsmall, hfree⟩ := h.free hroom (by simp [hpc])
      have hnone := hstuck (.accept (.conn fd)) ⟨by simp, fun _ heq => by cases heq; exact hsmall⟩
        trivial
      simp [State.next, hpc, State.accept, Net.addNewClient, hback, hpos, hfree] at hnone
  | send rdset client =>
    rw [hpc] at hknown
    obtain ⟨-, -, c, hc⟩ := hknown
    have hnone := hstuck (.send none) (by simp [Calm]) trivial
    simp [State.next, hpc, State.send, Net.write, hc] at hnone
  | slot rdset i =>
    rw [hpc] at hknown
    have hnone := hstuck (.slot false) rfl trivial
    simp only [State.next, hpc, State.slot, Option.map_eq_none_iff, List.getElem?_eq_none_iff,
      h.length] at hnone
    exact absurd hknown.1 (Nat.not_lt.mpr hnone)
  | recv rdset i =>
    rw [hpc] at hknown
    obtain ⟨-, hfresh, fd, hmem, hfd⟩ := hknown
    obtain ⟨-, c, hc⟩ := h.slot_used hfd fun heq => hfresh.free (heq ▸ hmem)
    obtain ⟨r, hr⟩ := Net.recv_done hc (hfresh.ready i fd (Nat.le_refl i) hfd hmem) (h.resets c)
      (show 0 < buffSize by decide)
    have hnone := hstuck (.recv .done) (by simp [Calm]) trivial
    simp [State.next, hpc, State.recv, hfd, hr] at hnone
  | ended why =>
    rw [hpc] at hknown
    exact hknown.elim

omit [DecidableEq κ] in
theorem waits (hpc : s.pc = .select) (hset : s.rdset server_socket = []) :
    Waits server_socket s := by
  have hquiet : ∀ fd ∈ s.watched server_socket, s.net.ready fd ≠ true := fun fd hfd hready => by
    have hmem := mem_rdset.mpr ⟨hfd, hready⟩
    rw [hset] at hmem
    cases hmem
  refine ⟨hpc, ?_, fun fd c hc => ?_⟩
  · by_contra hback
    exact hquiet server_socket List.mem_cons_self ((Net.listen_ready h.listen_closed).mpr hback)
  · have hpos := h.nonneg hc
    have hslot : fd ∈ s.clients := (h.all fd c hc).resolve_right fun ⟨_, hsend⟩ => by
      cases hpc.symm.trans hsend
    have hwatched : fd ∈ s.watched server_socket :=
      List.mem_cons_of_mem _ (List.mem_filter.mpr ⟨hslot, decide_eq_true (by omega)⟩)
    have hready := hquiet fd hwatched
    rw [Ne, Net.ready_iff hc, not_or, not_or, not_not] at hready
    exact ⟨hready.1, Bool.eq_false_iff.mpr hready.2.1, Bool.eq_false_iff.mpr hready.2.2⟩

end Table

/-- **The server comes to rest**: while the clients do nothing it makes a bounded number of steps,
and where it stops it waits in `select`, having read all that any client it reads from has sent. -/
theorem comes_to_rest (hroom : server_socket + MAX_CLIENTS + 1 < FD_SETSIZE)
    (hs : (server κ server_socket).ReachIf (fun _ => Calm) s) :
    ∃ bound, ∀ as t, (∀ act ∈ as, Calm act ∧ Own act) →
      (server κ server_socket).exec s as = some t → as.length ≤ bound ∧
        ((∀ act, Calm act → Own act → t.next server_socket act = none) →
          Waits server_socket t ∧
            ∀ c, (t.net.conn c).got ≠ [] → (t.net.conn c).got = (t.net.conn c).sent) := by
  have hsmall : server_socket < FD_SETSIZE := by omega
  refine ⟨s.weight server_socket, fun as t has ht => ⟨?_, fun hstuck => ?_⟩⟩
  · have hle := LTS.along_length (I := Table server_socket) (C := fun _ act => Calm act ∧ Own act)
      (State.weight server_socket)
      (fun _ _ _ h hact hn => ⟨h.step hact.1 hn, h.weight_step hact.1 hact.2 hn⟩)
      (Table.reach hsmall hs) (LTS.along_of_mem has) ht
    omega
  · have hreach := hs.exec (fun act hact _ => (has act hact).1) ht
    have htable := Table.reach hsmall hreach
    obtain ⟨hpc, hset⟩ := htable.stuck hroom hstuck
    have hwaits := htable.waits hpc hset
    refine ⟨hwaits, fun c hgot => ?_⟩
    have hinbox : (t.net.conn c).inbox = [] := by
      rcases (Books.reach hsmall hreach).closed c hgot with ⟨fd, hfd⟩ | ⟨hinbox, -⟩
      · exact (hwaits.read fd c hfd).1
      · exact hinbox
    rw [Conn.sent, hinbox, List.append_nil]

/-- From where four clients have connected. -/
theorem comes_to_rest_arrivals : ∃ s, (server Nat 4).exec idle arrivals = some s ∧
    ∃ bound, ∀ as t, (∀ act ∈ as, Calm act ∧ Own act) → (server Nat 4).exec s as = some t →
      as.length ≤ bound ∧ ((∀ act, Calm act → Own act → t.next 4 act = none) → Waits 4 t) := by
  obtain ⟨s, hs⟩ : ∃ s, (server Nat 4).exec idle arrivals = some s :=
    Option.isSome_iff_exists.mp rfl
  have hcalm : ∀ act ∈ arrivals, Calm act := by simp [arrivals, Calm]
  have hreach : (server Nat 4).ReachIf (fun _ => Calm) s :=
    LTS.ReachIf.exec (.init idle_start) (fun act hact _ => hcalm act hact) hs
  obtain ⟨bound, hbound⟩ := comes_to_rest (by decide) hreach
  exact ⟨s, hs, bound, fun as t has ht => ⟨(hbound as t has ht).1, fun hstuck =>
    ((hbound as t has ht).2 hstuck).1⟩⟩

end Ops.Select
