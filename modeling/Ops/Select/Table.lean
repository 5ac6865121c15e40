import Ops.Select.Process

/-!
# The table of clients

As long as no call fails (`Calm`), the table holds each open descriptor once (`Table`), and what is
still to be read in this turn is ready (`Fresh`), so `recv` never waits. `Moves` lists the steps.
-/

namespace Ops.Select

open Posix

variable {κ : Type} [DecidableEq κ] {server_socket fd client : Int} {s t : State κ} {act : Act κ}
variable {c : κ} {rdset clients : List Int} {i : Nat} {net : Net κ}

/-- No call fails but with `EAGAIN`, `FD_ISSET` of -1 is false, and a client fits into a set. What
the clients do is not restricted. -/
def Calm : Act κ → Prop
  | .select fails => fails = false
  | .accept o => o ≠ .error ∧ ∀ client, o = .conn client → client < FD_SETSIZE
  | .send error => error ≠ some .epipe
  | .slot junk => junk = false
  | .recv o => o ≠ .failed
  | .peer _ => True

/-! ## Slots -/

theorem place_some {l l' : List Int} (h : place client l = some l') :
    ∃ i, l[i]? = some (-1) ∧ l' = l.set i client := by
  induction l generalizing l' with
  | nil => cases h
  | cons fd l ih =>
    unfold place at h
    split at h
    · rename_i hfree
      cases h
      exact ⟨0, by rw [hfree]; rfl, rfl⟩
    · obtain ⟨l'', hl, rfl⟩ := Option.map_eq_some_iff.mp h
      obtain ⟨i, hi, rfl⟩ := ih hl
      exact ⟨i + 1, hi, rfl⟩

theorem slot_set {l : List Int} {j : Nat} (h : (l.set i client)[j]? = some fd) :
    j = i ∧ fd = client ∨ j ≠ i ∧ l[j]? = some fd := by
  rw [List.getElem?_set] at h
  split at h
  · rename_i hij
    split at h
    · cases h
      exact .inl ⟨hij.symm, rfl⟩
    · cases h
  · rename_i hij
    exact .inr ⟨fun hji => hij hji.symm, h⟩

omit [DecidableEq κ] in
/-- Nothing in the set is beyond the range that is asked for. -/
theorem le_maxfd (hfd : fd ∈ s.watched server_socket) : fd ≤ s.maxfd server_socket := by
  have hfold : ∀ (l : List Int) (m : Int),
      m ≤ l.foldl (fun maxfd fd => if fd ≠ -1 ∧ fd > maxfd then fd else maxfd) m ∧
        ∀ fd ∈ l, fd ≠ -1 →
          fd ≤ l.foldl (fun maxfd fd => if fd ≠ -1 ∧ fd > maxfd then fd else maxfd) m := by
    intro l
    induction l with
    | nil => simp
    | cons d l ih =>
      intro m
      obtain ⟨hm, hall⟩ := ih (if d ≠ -1 ∧ d > m then d else m)
      rw [List.foldl_cons]
      refine ⟨?_, List.forall_mem_cons.mpr ⟨fun hd => ?_, hall⟩⟩
      · refine Int.le_trans ?_ hm
        split <;> omega
      · refine Int.le_trans ?_ hm
        split <;> omega
  obtain ⟨hfirst, hrest⟩ := hfold s.clients server_socket
  rcases List.mem_cons.mp hfd with rfl | hfd
  · exact hfirst
  · obtain ⟨hmem, hne⟩ := List.mem_filter.mp hfd
    exact hrest fd hmem (of_decide_eq_true hne)

omit [DecidableEq κ] in
theorem mem_rdset : fd ∈ s.rdset server_socket ↔
    fd ∈ s.watched server_socket ∧ s.net.ready fd = true := by
  unfold State.rdset
  rw [List.mem_filter, Bool.and_eq_true, decide_eq_true_eq]
  exact ⟨fun ⟨hw, _, hready⟩ => ⟨hw, hready⟩,
    fun ⟨hw, hready⟩ => ⟨hw, Int.lt_add_one_of_le (le_maxfd hw), hready⟩⟩

/-! ## What holds -/

/-- From slot `i` on, what was reported is still ready. -/
structure Fresh (n : Net κ) (clients rdset : List Int) (i : Nat) : Prop where
  free : -1 ∉ rdset
  ready : ∀ (j : Nat) fd, i ≤ j → clients[j]? = some fd → fd ∈ rdset → n.ready fd = true

def Known (server_socket : Int) (n : Net κ) (clients : List Int) : Pc → Prop
  | .select => True
  | .accept rdset => Fresh n clients rdset 0 ∧
    ∀ fd ∈ rdset, fd = server_socket ∨ ∃ c, n.fds fd = some c
  | .send rdset client => Fresh n clients rdset 0 ∧ client ∉ clients ∧ ∃ c, n.fds client = some c
  | .slot rdset i => i < MAX_CLIENTS ∧ Fresh n clients rdset i
  | .recv rdset i => i < MAX_CLIENTS ∧ Fresh n clients rdset i ∧ ∃ fd ∈ rdset, clients[i]? = some fd
  | .ended _ => False

structure Table (server_socket : Int) (s : State κ) : Prop where
  net : s.net.Ok
  resets : ∀ c, (s.net.conn c).reset = true → (s.net.conn c).eof = true
  listens : s.net.other server_socket = true
  last : ∀ fd, s.net.other fd = true → fd ≤ server_socket
  small : server_socket < FD_SETSIZE
  length : s.clients.length = MAX_CLIENTS
  used : ∀ fd ∈ s.clients, fd = -1 ∨ fd < FD_SETSIZE ∧ ∃ c, s.net.fds fd = some c
  apart : ∀ (i j : Nat) fd, s.clients[i]? = some fd → s.clients[j]? = some fd → fd ≠ -1 → i = j
  all : ∀ fd c, s.net.fds fd = some c → fd ∈ s.clients ∨ ∃ rdset, s.pc = .send rdset fd
  pc : Known server_socket s.net s.clients s.pc

/-- After `accept` has given `client` for `c`. -/
def State.enter (server_socket : Int) (s : State κ) (client : Int) (c : κ) (rest : List κ) :
    State κ :=
  { s with net := { s.net with
    backlog := Function.update s.net.backlog server_socket rest
    fds := Function.update s.net.fds client (some c) } }

/-- After `recv` has read from `c`. -/
def State.heard (s : State κ) (c : κ) : State κ :=
  { s with
    net := s.net.took c ((s.net.conn c).inbox.drop buffSize)
    printed := s.printed ++ [(c, upToNul ((s.net.conn c).inbox.take buffSize))] }

/-- After the client of slot `i` has left. -/
def State.clear (s : State κ) (i : Nat) (fd : Int) : State κ :=
  { s with net := s.net.close fd, clients := s.clients.set i (-1) }

inductive Moves (server_socket : Int) (s : State κ) : Act κ → State κ → Prop where
  | peer {p : Peer κ} {net : Net κ} : s.net.peer p = some net →
      Moves server_socket s (.peer p) { s with net := net }
  | accepting : s.pc = .select → server_socket ∈ s.rdset server_socket →
      Moves server_socket s (.select false) (s.goto (.accept (s.rdset server_socket)))
  | reading : s.pc = .select → s.rdset server_socket ≠ [] → server_socket ∉ s.rdset server_socket →
      Moves server_socket s (.select false) (s.goto (.scan (s.rdset server_socket) 0))
  | entered {rdset clients : List Int} {client : Int} {c : κ} {rest : List κ} :
      s.pc = .accept rdset → s.net.backlog server_socket = c :: rest → 0 ≤ client →
      s.net.fds client = none → s.net.other client = false → client < FD_SETSIZE →
      place client s.clients = some clients →
      Moves server_socket s (.accept (.conn client))
        ({ s.enter server_socket client c rest with clients := clients }.goto (.scan rdset 0))
  | surplus {rdset : List Int} {client : Int} {c : κ} {rest : List κ} :
      s.pc = .accept rdset → s.net.backlog server_socket = c :: rest → 0 ≤ client →
      s.net.fds client = none → s.net.other client = false → client < FD_SETSIZE →
      place client s.clients = none →
      Moves server_socket s (.accept (.conn client))
        ((s.enter server_socket client c rest).goto (.send rdset client))
  | vanished {rdset : List Int} : s.pc = .accept rdset → s.net.backlog server_socket = [] →
      Moves server_socket s (.accept .eagain) (s.goto (.scan rdset 0))
  | refused {rdset : List Int} {client : Int} {c : κ} : s.pc = .send rdset client →
      s.net.fds client = some c →
      Moves server_socket s (.send none)
        ({ s with net := (s.net.wrote c neat_reply).close client }.goto (.scan rdset 0))
  | lost {rdset : List Int} {client : Int} {e : Errno} : s.pc = .send rdset client →
      Moves server_socket s (.send (some e))
        ({ s with net := s.net.close client }.goto (.scan rdset 0))
  | skipped {rdset : List Int} {i : Nat} {fd : Int} : s.pc = .slot rdset i →
      s.clients[i]? = some fd → fd ∉ rdset →
      Moves server_socket s (.slot false) (s.goto (.scan rdset (i + 1)))
  | found {rdset : List Int} {i : Nat} {fd : Int} : s.pc = .slot rdset i →
      s.clients[i]? = some fd → fd ∈ rdset →
      Moves server_socket s (.slot false) (s.goto (.recv rdset i))
  | heard {rdset : List Int} {i : Nat} {fd : Int} {c : κ} : s.pc = .recv rdset i →
      s.clients[i]? = some fd → fd ∈ rdset → s.net.fds fd = some c → (s.net.conn c).inbox ≠ [] →
      Moves server_socket s (.recv .done) ((s.heard c).goto (.scan rdset (i + 1)))
  | left {rdset : List Int} {i : Nat} {fd : Int} {c : κ} : s.pc = .recv rdset i →
      s.clients[i]? = some fd → fd ∈ rdset → s.net.fds fd = some c → (s.net.conn c).inbox = [] →
      (s.net.conn c).eof = true →
      Moves server_socket s (.recv .done) ((s.clear i fd).goto (.scan rdset (i + 1)))

namespace Table

variable (h : Table server_socket s)
include h

omit [DecidableEq κ] in
theorem slot_used (hfd : s.clients[i]? = some fd) (hused : fd ≠ -1) :
    fd < FD_SETSIZE ∧ ∃ c, s.net.fds fd = some c :=
  (h.used fd (List.mem_of_getElem? hfd)).resolve_left hused

omit [DecidableEq κ] in
theorem nonneg (hfd : s.net.fds fd = some c) : 0 ≤ fd := (h.net.held fd c hfd).2.1

omit [DecidableEq κ] in
theorem watched_small : (s.watched server_socket).any (FD_SETSIZE ≤ ·) = false := by
  rw [List.any_eq_false]
  intro fd hfd
  rw [decide_eq_true_eq]
  rcases List.mem_cons.mp hfd with rfl | hfd
  · exact Int.not_le.mpr h.small
  · obtain ⟨hmem, hne⟩ := List.mem_filter.mp hfd
    exact Int.not_le.mpr ((h.used fd hmem).resolve_left (of_decide_eq_true hne)).1

theorem select_moves (hpc : s.pc = .select) (hn : s.select server_socket = some t) :
    Moves server_socket s (.select false) t := by
  unfold State.select at hn
  rw [h.watched_small, if_neg Bool.false_ne_true] at hn
  split at hn
  · cases hn
  · rename_i hsome
    split at hn
    · rename_i hmem
      cases hn
      exact .accepting hpc hmem
    · rename_i hmem
      cases hn
      exact .reading hpc hsome hmem

omit h in
theorem accept_moves {o : AcceptOutcome} (hcalm : Calm (.accept o : Act κ))
    (hpc : s.pc = .accept rdset) (hn : s.accept server_socket rdset o = some t) :
    Moves server_socket s (.accept o) t := by
  obtain ⟨⟨r, net⟩, hr, rfl⟩ := Option.map_eq_some_iff.mp hn
  cases Net.addNewClient_accepts hr with
  | @conn client c rest hback hpos hfree hother =>
    simp only [if_neg (Int.not_lt.mpr hpos)]
    split
    · rename_i clients hplace
      exact .entered hpc hback hpos hfree hother (hcalm.2 client rfl) hplace
    · rename_i hplace
      exact .surplus hpc hback hpos hfree hother (hcalm.2 client rfl) hplace
  | eagain hback => exact .vanished hpc hback
  | error => exact absurd rfl hcalm.1

omit h in
theorem send_moves {error : Option Errno} (hcalm : Calm (.send error : Act κ))
    (hpc : s.pc = .send rdset client) (hc : s.net.fds client = some c)
    (hn : s.send rdset client error = some t) : Moves server_socket s (.send error) t := by
  obtain ⟨⟨r, net⟩, hr, rfl⟩ := Option.map_eq_some_iff.mp hn
  obtain ⟨rfl, ⟨rfl, rfl⟩ | ⟨hfails, rfl⟩⟩ := Net.write_conn hc hr
  · exact .refused hpc hc
  · cases r with
    | none => exact absurd rfl hfails
    | some e =>
      cases e with
      | epipe => exact absurd rfl hcalm
      | eagain | other => exact .lost hpc

theorem slot_moves (hpc : s.pc = .slot rdset i) (hfresh : Fresh s.net s.clients rdset i)
    (hn : s.slot rdset i false = some t) : Moves server_socket s (.slot false) t := by
  obtain ⟨fd, hfd, rfl⟩ := Option.map_eq_some_iff.mp hn
  rcases h.used fd (List.mem_of_getElem? hfd) with rfl | ⟨hsmall, c, hc⟩
  · exact .skipped hpc hfd hfresh.free
  · rw [if_neg (Int.not_le.mpr hsmall), if_neg (Int.not_lt.mpr (h.nonneg hc))]
    split
    · rename_i hmem
      exact .found hpc hfd (of_decide_eq_true hmem)
    · rename_i hmem
      exact .skipped hpc hfd fun hin => hmem (decide_eq_true hin)

theorem recv_moves {o : RecvOutcome} (hcalm : Calm (.recv o : Act κ)) (hpc : s.pc = .recv rdset i)
    (hfresh : Fresh s.net s.clients rdset i) (hmem : fd ∈ rdset) (hfd : s.clients[i]? = some fd)
    (hn : s.recv rdset i o = some t) : Moves server_socket s (.recv o) t := by
  obtain ⟨-, c, hc⟩ := h.slot_used hfd fun heq => hfresh.free (heq ▸ hmem)
  obtain ⟨fd', hfd', hrecv⟩ := Option.bind_eq_some_iff.mp hn
  cases hfd.symm.trans hfd'
  obtain ⟨⟨r, net⟩, hr, rfl⟩ := Option.map_eq_some_iff.mp hrecv
  have hready := hfresh.ready i fd (Nat.le_refl i) hfd hmem
  cases Net.recv_receives hc hready (by decide) hr with
  | bytes hinbox =>
    have hmoves := @Moves.heard _ _ server_socket s rdset i fd c hpc hfd hmem hc hinbox
    have htake : (s.net.conn c).inbox.take buffSize ≠ [] := fun hnil =>
      hinbox ((List.take_eq_nil_iff.mp hnil).resolve_left (by decide))
    obtain ⟨b, bytes, heq⟩ := List.exists_cons_of_ne_nil htake
    rw [State.heard, heq] at hmoves
    rw [heq, hc]
    exact hmoves
  | left hinbox heof => exact .left hpc hfd hmem hc hinbox heof
  | reset => exact absurd rfl hcalm

/-- **Every step** of a calm run. -/
theorem moves (hcalm : Calm act) (hn : s.next server_socket act = some t) :
    Moves server_socket s act t := by
  have hknown := h.pc
  unfold State.next at hn
  split at hn
  · obtain ⟨net, hnet, rfl⟩ := Option.map_eq_some_iff.mp hn
    exact .peer hnet
  · rename_i fails hpc
    cases (show fails = false from hcalm)
    exact h.select_moves hpc hn
  · exact accept_moves hcalm ‹_› hn
  · rename_i error rdset client hpc
    rw [hpc] at hknown
    obtain ⟨-, -, c, hc⟩ := hknown
    exact send_moves hcalm hpc hc hn
  · rename_i junk rdset i hpc
    cases (show junk = false from hcalm)
    rw [hpc] at hknown
    exact h.slot_moves hpc hknown.2 hn
  · rename_i o rdset i hpc
    rw [hpc] at hknown
    obtain ⟨-, hfresh, fd, hmem, hfd⟩ := hknown
    exact h.recv_moves hcalm hpc hfresh hmem hfd hn
  · cases hn

end Table

/-! ## One step -/

omit [DecidableEq κ] in
theorem Fresh.mono {n n' : Net κ} (h : Fresh n clients rdset i)
    (hready : ∀ fd ∈ clients, fd ∈ rdset → n.ready fd = true → n'.ready fd = true) :
    Fresh n' clients rdset i :=
  ⟨h.free, fun j fd hj hfd hmem =>
    hready fd (List.mem_of_getElem? hfd) hmem (h.ready j fd hj hfd hmem)⟩

omit [DecidableEq κ] in
theorem Fresh.scan {n : Net κ} (h : Fresh n clients rdset i) :
    Known server_socket n clients (.scan rdset i) := by
  unfold Pc.scan
  split
  · exact ⟨‹_›, h⟩
  · trivial

omit [DecidableEq κ] in
theorem Fresh.later {n : Net κ} {j : Nat} (h : Fresh n clients rdset i) (hij : i ≤ j) :
    Fresh n clients rdset j :=
  ⟨h.free, fun k fd hk => h.ready k fd (Nat.le_trans hij hk)⟩

theorem mem_set {l : List Int} {d : Int} (hfd : fd ∈ l) (hd : l[i]? = some d) (hne : fd ≠ d) :
    fd ∈ l.set i client := by
  obtain ⟨j, hj⟩ := List.mem_iff_getElem?.mp hfd
  refine List.mem_iff_getElem?.mpr ⟨j, ?_⟩
  rw [List.getElem?_set_ne, hj]
  rintro rfl
  exact hne (Option.some.inj (hj.symm.trans hd))

namespace Table

variable (h : Table server_socket s)
include h

omit [DecidableEq κ] in
theorem goto {pc : Pc} (hsend : ∀ rdset client, s.pc ≠ .send rdset client)
    (hpc : Known server_socket s.net s.clients pc) : Table server_socket (s.goto pc) :=
  ⟨h.net, h.resets, h.listens, h.last, h.small, h.length, h.used, h.apart,
    fun fd c hfd => (h.all fd c hfd).imp_right fun ⟨rdset, heq⟩ => absurd heq (hsend rdset fd), hpc⟩

omit [DecidableEq κ] in
theorem replace {n : Net κ} (hok : n.Ok)
    (hresets : ∀ c, (n.conn c).reset = true → (n.conn c).eof = true) (hfds : n.fds = s.net.fds)
    (hother : n.other = s.net.other)
    (hready : ∀ fd c, s.net.fds fd = some c → s.net.ready fd = true → n.ready fd = true) :
    Table server_socket { s with net := n } := by
  have hfresh : ∀ {rdset i}, Fresh s.net s.clients rdset i → Fresh n s.clients rdset i := by
    refine fun hfresh => hfresh.mono fun fd hfd hmem => ?_
    obtain ⟨-, c, hc⟩ := (h.used fd hfd).resolve_left fun heq => hfresh.free (heq ▸ hmem)
    exact hready fd c hc
  refine ⟨hok, hresets, hother ▸ h.listens, hother ▸ h.last, h.small, h.length, ?_, h.apart, ?_, ?_⟩
  · rw [hfds]
    exact h.used
  · rw [hfds]
    exact h.all
  · have hknown := h.pc
    show Known server_socket n s.clients s.pc
    cases hpc : s.pc with
    | select => trivial
    | accept rdset =>
      rw [hpc] at hknown
      exact ⟨hfresh hknown.1, by rw [hfds]; exact hknown.2⟩
    | send rdset client =>
      rw [hpc] at hknown
      exact ⟨hfresh hknown.1, hknown.2.1, by rw [hfds]; exact hknown.2.2⟩
    | slot rdset i =>
      rw [hpc] at hknown
      exact ⟨hknown.1, hfresh hknown.2⟩
    | recv rdset i =>
      rw [hpc] at hknown
      exact ⟨hknown.1, hfresh hknown.2.1, hknown.2.2⟩
    | ended why =>
      rw [hpc] at hknown
      exact hknown

theorem wrote (c : κ) (bytes : List Byte) :
    Table server_socket { s with net := s.net.wrote c bytes } := by
  refine h.replace (h.net.wrote c bytes) (fun d hd => ?_) rfl rfl fun fd d hd hready => ?_
  · rw [Net.wrote_conn] at hd ⊢
    exact h.resets d hd
  · rw [Net.ready_iff hd] at hready
    have hd' : (s.net.wrote c bytes).fds fd = some d := hd
    rwa [Net.ready_iff hd', Net.wrote_conn]

theorem peer {p : Peer κ} (hnet : s.net.peer p = some net) :
    Table server_socket { s with net := net } := by
  have hgrows := Net.peer_grows hnet
  exact h.replace (h.net.peer hnet) (Net.peer_resets hnet h.resets) hgrows.fds hgrows.other
    fun fd c hfd => hgrows.ready hfd

omit [DecidableEq κ] in
theorem fresh_rdset : Fresh s.net s.clients (s.rdset server_socket) 0 := by
  refine ⟨fun hmem => ?_, fun j fd _ _ hmem => (mem_rdset.mp hmem).2⟩
  have hwatched := (mem_rdset.mp hmem).1
  rcases List.mem_cons.mp hwatched with heq | hmem
  · have hpos := h.net.other server_socket h.listens
    omega
  · exact absurd rfl (of_decide_eq_true (List.mem_filter.mp hmem).2)

omit [DecidableEq κ] in
theorem known_rdset : ∀ fd ∈ s.rdset server_socket,
    fd = server_socket ∨ ∃ c, s.net.fds fd = some c := by
  intro fd hmem
  refine (List.mem_cons.mp (mem_rdset.mp hmem).1).imp_right fun hfd => ?_
  obtain ⟨hfd, hne⟩ := List.mem_filter.mp hfd
  exact ((h.used fd hfd).resolve_left (of_decide_eq_true hne)).2

/-! ### `accept` -/

section Enter

variable {rest : List κ} (hpc : s.pc = .accept rdset)
  (hback : s.net.backlog server_socket = c :: rest) (hpos : 0 ≤ client)
  (hfree : s.net.fds client = none) (hother : s.net.other client = false)
include hpc hfree

omit [DecidableEq κ] hpc in
theorem not_listed (hpos : 0 ≤ client) : client ∉ s.clients := fun hmem => by
  rcases h.used client hmem with heq | ⟨-, d, hd⟩
  · omega
  · cases hfree.symm.trans hd

include hother in
omit [DecidableEq κ] in
theorem not_reported : client ∉ rdset := fun hmem => by
  have hknown := h.pc
  rw [hpc] at hknown
  rcases hknown.2 client hmem with rfl | ⟨d, hd⟩
  · cases hother.symm.trans h.listens
  · cases hfree.symm.trans hd

omit [DecidableEq κ] hpc in
theorem enter_ready (hfd : fd ∈ s.clients) (hne : fd ≠ -1) :
    (s.enter server_socket client c rest).net.ready fd = s.net.ready fd := by
  obtain ⟨-, d, hd⟩ := (h.used fd hfd).resolve_left hne
  have hother : fd ≠ client := by
    rintro rfl
    cases hfree.symm.trans hd
  unfold State.enter Net.ready
  simp only [Function.update_of_ne hother, hd]

omit [DecidableEq κ] hpc h in
theorem enter_fds (hfd : s.net.fds fd ≠ none) :
    (s.enter server_socket client c rest).net.fds fd = s.net.fds fd := by
  refine Function.update_of_ne ?_ ..
  rintro rfl
  exact hfd hfree

include hback hpos hother

omit [DecidableEq κ] in
theorem entered (hsmall : client < FD_SETSIZE) (hplace : place client s.clients = some clients) :
    Table server_socket
      ({ s.enter server_socket client c rest with clients := clients }.goto (.scan rdset 0)) := by
  obtain ⟨i, hi, rfl⟩ := place_some hplace
  have hknown := h.pc
  rw [hpc] at hknown
  have hlisted := h.not_listed hfree hpos
  have hfresh : Fresh (s.enter server_socket client c rest).net (s.clients.set i client) rdset
      0 := by
    refine ⟨hknown.1.free, fun j fd _ hj hmem => ?_⟩
    rcases slot_set hj with ⟨-, rfl⟩ | ⟨-, hj⟩
    · exact absurd hmem (h.not_reported hpc hfree hother)
    · have hfd := List.mem_of_getElem? hj
      rw [h.enter_ready hfree hfd fun heq => hknown.1.free (heq ▸ hmem)]
      exact hknown.1.ready j fd (Nat.zero_le j) hj hmem
  refine ⟨h.net.accept hback hpos hfree hother, h.resets, h.listens, h.last, h.small,
    (List.length_set ..).trans h.length, fun fd hfd => ?_, fun j k fd hj hk hne => ?_,
    fun fd d hd => ?_, hfresh.scan⟩
  · rcases List.mem_or_eq_of_mem_set hfd with hfd | rfl
    · refine (h.used fd hfd).imp_right fun ⟨hlt, d, hd⟩ => ⟨hlt, d, ?_⟩
      exact (enter_fds hfree (by rw [hd]; simp)).trans hd
    · exact .inr ⟨hsmall, c, Function.update_self ..⟩
  · rcases slot_set hj with ⟨hji, hfd⟩ | ⟨-, hj⟩
    · rcases slot_set hk with ⟨hki, -⟩ | ⟨-, hk⟩
      · rw [hji, hki]
      · exact absurd (List.mem_of_getElem? (hfd ▸ hk)) hlisted
    · rcases slot_set hk with ⟨-, hfd⟩ | ⟨-, hk⟩
      · exact absurd (List.mem_of_getElem? (hfd ▸ hj)) hlisted
      · exact h.apart j k fd hj hk hne
  · left
    by_cases heq : fd = client
    · rw [heq]
      exact List.mem_set (List.getElem?_eq_some_iff.mp hi).1 client
    · have hd' : s.net.fds fd = some d := (Function.update_of_ne heq ..).symm.trans hd
      rcases h.all fd d hd' with hfd | ⟨_, hsend⟩
      · have hpos := h.nonneg hd'
        exact mem_set hfd hi (by omega)
      · cases hpc.symm.trans hsend

omit [DecidableEq κ] in
theorem surplus : Table server_socket
    ((s.enter server_socket client c rest).goto (.send rdset client)) := by
  have hknown := h.pc
  rw [hpc] at hknown
  have hlisted := h.not_listed hfree hpos
  refine ⟨h.net.accept hback hpos hfree hother, h.resets, h.listens, h.last, h.small, h.length,
    fun fd hfd => ?_, h.apart, fun fd d hd => ?_, hknown.1.mono fun fd hfd hmem hready => ?_,
    hlisted, c, Function.update_self ..⟩
  · refine (h.used fd hfd).imp_right fun ⟨hlt, d, hd⟩ => ⟨hlt, d, ?_⟩
    exact (enter_fds hfree (by rw [hd]; simp)).trans hd
  · by_cases heq : fd = client
    · exact .inr ⟨rdset, by rw [heq]; rfl⟩
    · refine .inl ((h.all fd d ((Function.update_of_ne heq ..).symm.trans hd)).resolve_right ?_)
      rintro ⟨_, hsend⟩
      cases hpc.symm.trans hsend
  · exact (h.enter_ready hfree hfd fun heq => hknown.1.free (heq ▸ hmem)).trans hready

end Enter

/-! ### The end of a connection -/

omit [DecidableEq κ] h in
theorem close_ready (hfd : s.net.fds fd = some c) (hne : fd ≠ client) :
    (s.net.close client).ready fd = s.net.ready fd := by
  unfold Net.close Net.ready
  simp only [Function.update_of_ne hne, hfd]

omit [DecidableEq κ] in
theorem refused (hpc : s.pc = .send rdset client) :
    Table server_socket ({ s with net := s.net.close client }.goto (.scan rdset 0)) := by
  have hknown := h.pc
  rw [hpc] at hknown
  obtain ⟨hfresh, hlisted, -⟩ := hknown
  have hne : ∀ fd ∈ s.clients, fd ≠ client := fun fd hfd heq => hlisted (heq ▸ hfd)
  refine ⟨h.net.close client, h.resets, h.listens, h.last, h.small, h.length, fun fd hfd => ?_,
    h.apart, fun fd d hd => ?_, (hfresh.mono fun fd hfd hmem hready => ?_).scan⟩
  · refine (h.used fd hfd).imp_right fun ⟨hlt, d, hd⟩ => ⟨hlt, d, ?_⟩
    exact (Function.update_of_ne (hne fd hfd) ..).trans hd
  · obtain ⟨hother, hd⟩ := Net.close_some hd
    refine .inl ((h.all fd d hd).resolve_right ?_)
    rintro ⟨_, hsend⟩
    cases hpc.symm.trans hsend
    exact hother rfl
  · obtain ⟨-, d, hd⟩ := (h.used fd hfd).resolve_left fun heq => hfresh.free (heq ▸ hmem)
    exact (close_ready hd (hne fd hfd)).trans hready

omit [DecidableEq κ] in
theorem left (hpc : s.pc = .recv rdset i) (hfd : s.clients[i]? = some fd) (hmem : fd ∈ rdset) :
    Table server_socket ((s.clear i fd).goto (.scan rdset (i + 1))) := by
  have hknown := h.pc
  rw [hpc] at hknown
  obtain ⟨-, hfresh, -⟩ := hknown
  have hused : fd ≠ -1 := fun heq => hfresh.free (heq ▸ hmem)
  -- the descriptor stands in no other slot
  have hother : ∀ (j : Nat) d, j ≠ i → s.clients[j]? = some d → d ≠ fd := fun j d hj hd heq =>
    hj (h.apart j i fd (heq ▸ hd) hfd hused)
  have hlater : Fresh (s.net.close fd) (s.clients.set i (-1)) rdset (i + 1) := by
    refine ⟨hfresh.free, fun j d hj hd hdmem => ?_⟩
    rcases slot_set hd with ⟨rfl, -⟩ | ⟨hji, hd⟩
    · omega
    · obtain ⟨-, e, he⟩ := h.slot_used hd fun heq => hfresh.free (heq ▸ hdmem)
      rw [close_ready he (hother j d hji hd)]
      exact hfresh.ready j d (by omega) hd hdmem
  refine ⟨h.net.close fd, h.resets, h.listens, h.last, h.small, (List.length_set ..).trans h.length,
    fun d hd => ?_, fun j k d hj hk hne => ?_, fun d e he => ?_, hlater.scan⟩
  · obtain ⟨j, hj⟩ := List.mem_iff_getElem?.mp hd
    rcases slot_set hj with ⟨-, rfl⟩ | ⟨hji, hj⟩
    · exact .inl rfl
    · refine (h.used d (List.mem_of_getElem? hj)).imp_right fun ⟨hlt, e, he⟩ => ⟨hlt, e, ?_⟩
      exact (Function.update_of_ne (hother j d hji hj) ..).trans he
  · rcases slot_set hj with ⟨-, rfl⟩ | ⟨-, hj⟩
    · exact absurd rfl hne
    · rcases slot_set hk with ⟨-, rfl⟩ | ⟨-, hk⟩
      · exact absurd rfl hne
      · exact h.apart j k d hj hk hne
  · obtain ⟨hne, he⟩ := Net.close_some he
    rcases h.all d e he with hd | ⟨_, hsend⟩
    · exact .inl (mem_set hd hfd hne)
    · cases hpc.symm.trans hsend

theorem heard (hpc : s.pc = .recv rdset i) (hfd : s.clients[i]? = some fd) (hmem : fd ∈ rdset)
    (hc : s.net.fds fd = some c) :
    Table server_socket ((s.heard c).goto (.scan rdset (i + 1))) := by
  have hknown := h.pc
  rw [hpc] at hknown
  obtain ⟨-, hfresh, -⟩ := hknown
  have hlater : Fresh (s.heard c).net s.clients rdset (i + 1) := by
    refine ⟨hfresh.free, fun j d hj hd hdmem => ?_⟩
    obtain ⟨-, e, he⟩ := h.slot_used hd fun heq => hfresh.free (heq ▸ hdmem)
    have hec : e ≠ c := by
      rintro rfl
      have heq := h.net.inj d fd e he hc
      have hji := h.apart j i fd (heq ▸ hd) hfd fun h1 => hfresh.free (h1 ▸ hmem)
      omega
    have hready := hfresh.ready j d (by omega) hd hdmem
    have he' : (s.heard c).net.fds d = some e := he
    rw [Net.ready_iff he] at hready
    rwa [Net.ready_iff he', State.heard, Net.took_conn, if_neg hec]
  have hkeep := Net.took_eof s.net c ((s.net.conn c).inbox.drop buffSize)
  refine ⟨h.net.took c _, fun d hd => ?_, h.listens, h.last, h.small, h.length, h.used, h.apart,
    fun d e he => ?_, hlater.scan⟩
  · exact (hkeep d).1.trans (h.resets d ((hkeep d).2.symm.trans hd))
  · refine .inl ((h.all d e he).resolve_right ?_)
    rintro ⟨_, hsend⟩
    cases hpc.symm.trans hsend

end Table

omit [DecidableEq κ] in
theorem Start.table (h : Start server_socket s) (hsmall : server_socket < FD_SETSIZE) :
    Table server_socket s := by
  have hclosed : ∀ fd c, s.net.fds fd ≠ some c := fun fd c hc => by
    rw [h.net.fds] at hc
    cases hc
  refine ⟨h.net.ok, fun c hc => ?_, h.listens, h.last, hsmall, by simp [h.clients],
    fun fd hfd => ?_, fun i j fd hi _ hne => ?_, fun fd c hc => absurd hc (hclosed fd c), ?_⟩
  · rw [h.net.conn] at hc
    cases hc
  · rw [h.clients] at hfd
    exact .inl (List.eq_of_mem_replicate hfd)
  · have hfd := List.mem_of_getElem? hi
    rw [h.clients] at hfd
    exact absurd (List.eq_of_mem_replicate hfd) hne
  · rw [h.pc]
    trivial

theorem Table.step (h : Table server_socket s) (hcalm : Calm act)
    (hn : s.next server_socket act = some t) : Table server_socket t := by
  cases h.moves hcalm hn with
  | peer hnet => exact h.peer hnet
  | accepting hpc => exact h.goto (by simp [hpc]) ⟨h.fresh_rdset, h.known_rdset⟩
  | reading hpc => exact h.goto (by simp [hpc]) h.fresh_rdset.scan
  | entered hpc hback hpos hfree hother hsmall hplace =>
    exact h.entered hpc hback hpos hfree hother hsmall hplace
  | surplus hpc hback hpos hfree hother => exact h.surplus hpc hback hpos hfree hother
  | vanished hpc =>
    have hknown := h.pc
    rw [hpc] at hknown
    exact h.goto (by simp [hpc]) hknown.1.scan
  | refused hpc hc => exact Table.refused (h.wrote _ neat_reply) hpc
  | lost hpc => exact h.refused hpc
  | skipped hpc =>
    have hknown := h.pc
    rw [hpc] at hknown
    exact h.goto (by simp [hpc]) (hknown.2.later (Nat.le_succ _)).scan
  | found hpc hfd hmem =>
    have hknown := h.pc
    rw [hpc] at hknown
    exact h.goto (by simp [hpc]) ⟨hknown.1, hknown.2, _, hmem, hfd⟩
  | heard hpc hfd hmem hc => exact h.heard hpc hfd hmem hc
  | left hpc hfd hmem => exact h.left hpc hfd hmem

theorem Table.reach (hsmall : server_socket < FD_SETSIZE)
    (hs : (server κ server_socket).ReachIf (fun _ => Calm) s) : Table server_socket s :=
  hs.inv (I := Table server_socket) (fun _ hinit => Start.table hinit hsmall)
    fun _ _ _ _ h hcalm hn => h.step hcalm hn

end Ops.Select
