import Ops.Cities.Process
import Ops.Posix.Connections

/-!
# The steps of the city server

`Moves` lists what a step can do in a `Sane` state, where the first `clients_amount` entries of
`clients` are the descriptors of connections, and every event is of one of them or of a listening
socket. A step ends the server only where it is `Fatal`.
-/

namespace Ops.Cities

open Posix

variable {κ : Type} [DecidableEq κ] {a : Args} {s t : State κ} {act : Act κ}
variable {cs fd : Int} {received : List Byte} {evs todo : List Int} {c : κ}

/-- The entries of `clients` that are in use. -/
def State.registered (s : State κ) : List Int := s.clients.take s.clients_amount

/-! ## Pieces of a step -/

/-- After a `bulk_read` from `c` that does not fail. -/
def State.got (s : State κ) (c : κ) : State κ :=
  let received := (s.net.conn c).inbox.take dataSize
  { s with
    data := blit s.data 0 received
    net := s.net.took c ((s.net.conn c).inbox.drop dataSize)
    started := s.started || decide (received.length = dataSize)
    left := if received.length = dataSize then s.left else s.left ++ [c] }

/-- The bytes that `c` sends in this event. -/
def State.frame (s : State κ) (c : κ) : List Byte := (s.net.conn c).inbox.take dataSize

/-- After the client is registered. -/
def State.enter (s : State κ) (client_socket : Int) : State κ :=
  { s with
    epoll := client_socket :: s.epoll
    clients := s.clients.set s.clients_amount client_socket
    clients_amount := s.clients_amount + 1 }

/-- What a frame says: the owner of a city. -/
def order (data : List Byte) : Option (Fin MAX_CITIES × Int) :=
  (place data).bind fun k => if owner data = -1 then none else some (k, owner data)

/-- A `bulk_write` that has not failed, or not on a client that has not left. -/
inductive Sent (n : Net κ) (fd : Int) (data : List Byte) : Net κ → Prop where
  | conn {c : κ} {out : List Byte} : n.fds fd = some c →
      ((n.conn c).connected = true → out = data) → Sent n fd data (n.wrote c out)
  | other : n.fds fd = none → Sent n fd data n

/-- The descriptor that the server writes to. -/
def Pc.target : Pc → Option Int
  | .welcome cs _ _ | .echo cs _ _ => some cs
  | .broadcast _ _ (fd :: _) _ => some fd
  | _ => none

/-- The `bulk_write` of this step is recorded. -/
def State.logged (s : State κ) : State κ :=
  match s.pc with
  | .welcome cs received _ | .echo cs received _ => s.deed .echo cs cs received
  | .broadcast cs received (fd :: _) _ => s.deed .broadcast cs fd received
  | _ => s

/-- A call that makes the server end. -/
def Fatal (a : Args) (s : State κ) : Act κ → Prop
  | .accept o => o = .error
  | .read rs => (∃ e, .error e ∈ rs) ∨ (∃ evs, s.pc = .greet (-1) evs) ∨
    ∃ fd evs, s.pc = .events (fd :: evs) ∧ fd ≠ a.tcp_listen_socket ∧ fd ∉ s.registered
  | .write ws => ∃ fd, s.pc.target = some fd ∧
    (s.net.isOpen fd = false ∨ ∃ e, e ≠ .epipe ∧ .error e ∈ ws)
  | .peer _ | .pwait _ => False

/-- Nothing is done that the clients see. -/
structure Quiet (s t : State κ) : Prop where
  deeds : t.deeds = s.deeds
  cities : t.cities = s.cities
  out : ∀ c, (t.net.conn c).out = (s.net.conn c).out

/-- Where the events and the client of a step come from. -/
def State.Known (s : State κ) : Pc → Prop
  | .events evs => evs ⊆ s.epoll
  | .greet cs evs => evs ⊆ s.epoll ∧ s.clients_amount < MAX_CLIENTS ∧
    (cs = -1 ∨ cs ∉ s.epoll ∧ ∃ c, s.net.fds cs = some c)
  | .welcome cs _ evs => evs ⊆ s.epoll ∧ s.clients_amount < MAX_CLIENTS ∧
    cs ∉ s.epoll ∧ ∃ c, s.net.fds cs = some c
  | .echo cs _ evs | .broadcast cs _ _ evs => evs ⊆ s.epoll ∧ cs ∈ s.registered
  | .ended => False

structure Sane (a : Args) (s : State κ) : Prop where
  net : s.net.Ok
  listens : s.net.other a.local_listen_socket = true ∧ s.net.other a.tcp_listen_socket = true
  data : s.data.length = dataSize
  clients : s.clients.length = MAX_CLIENTS
  amount : s.clients_amount ≤ MAX_CLIENTS
  registered : ∀ fd ∈ s.registered, ∃ c, s.net.fds fd = some c
  epoll : ∀ fd ∈ s.epoll, fd = a.local_listen_socket ∨ fd = a.tcp_listen_socket ∨ fd ∈ s.registered
  pc : s.Known s.pc

inductive Moves (a : Args) (s : State κ) : Act κ → State κ → Prop where
  | peer {p : Peer κ} {net : Net κ} : s.net.peer p = some net → Moves a s (.peer p) { s with
      net := net
      early := fun c => s.early c ||
        (!s.started && decide (p = .connect a.tcp_listen_socket c)) }
  | pwait {evs : List Int} : s.pc = .events [] → s.net.batch s.epoll MAX_EVENTS evs = true →
      Moves a s (.pwait evs) (s.goto (.events evs))
  | accepted {cs : Int} {evs : List Int} {c : κ} {rest : List κ} :
      s.pc = .events (a.tcp_listen_socket :: evs) → s.clients_amount ≠ MAX_CLIENTS →
      s.net.backlog a.tcp_listen_socket = c :: rest → 0 ≤ cs → s.net.fds cs = none →
      s.net.other cs = false →
      Moves a s (.accept (.conn cs)) ({ s with net := { s.net with
        backlog := Function.update s.net.backlog a.tcp_listen_socket rest
        fds := Function.update s.net.fds cs (some c) } }.goto (.greet cs evs))
  | surplus {o : AcceptOutcome} {cs : Int} {evs : List Int} {net : Net κ} :
      s.pc = .events (a.tcp_listen_socket :: evs) → s.clients_amount = MAX_CLIENTS →
      s.net.Accepts a.tcp_listen_socket o (some cs) net →
      Moves a s (.accept o) ({ s with net := net.close cs }.goto (.events evs))
  | vanished {evs : List Int} : s.pc = .events (a.tcp_listen_socket :: evs) →
      s.clients_amount ≠ MAX_CLIENTS → s.net.backlog a.tcp_listen_socket = [] →
      Moves a s (.accept .eagain) (s.goto (.greet (-1) evs))
  | greeted {cs : Int} {evs : List Int} {rs : List ReadOutcome} {c : κ} : s.pc = .greet cs evs →
      s.net.fds cs = some c →
      ((s.net.conn c).inbox.length < dataSize → (s.net.conn c).eof = true) →
      Moves a s (.read rs) ((s.got c).goto (.welcome cs (s.frame c) evs))
  | message {fd : Int} {evs : List Int} {rs : List ReadOutcome} {c : κ} :
      s.pc = .events (fd :: evs) → fd ∈ s.registered → s.net.fds fd = some c →
      ((s.net.conn c).inbox.length < dataSize → (s.net.conn c).eof = true) →
      Moves a s (.read rs) ((s.got c).goto
        (if (s.frame c).length = dataSize then .echo fd (s.frame c) evs else .events evs))
  | welcomed {cs : Int} {received : List Byte} {evs : List Int} {ws : List WriteOutcome}
      {net : Net κ} : s.pc = .welcome cs received evs → Sent s.net cs s.data net →
      Moves a s (.write ws)
        (State.process (State.enter { s.logged with net := net } cs) cs received evs)
  | echoed {cs : Int} {received : List Byte} {evs : List Int} {ws : List WriteOutcome}
      {net : Net κ} : s.pc = .echo cs received evs → Sent s.net cs s.data net →
      Moves a s (.write ws) (State.process { s.logged with net := net } cs received evs)
  | sent {cs fd : Int} {received : List Byte} {todo evs : List Int} {ws : List WriteOutcome}
      {net : Net κ} : s.pc = .broadcast cs received (fd :: todo) evs → Sent s.net fd s.data net →
      Moves a s (.write ws) (State.broadcast { s.logged with net := net } cs received evs todo)
  | ended {act : Act κ} {t : State κ} : Fatal a s act → t.pc = .ended →
      t.deeds = s.logged.deeds → (s.pc.target = none → Quiet s t) → Moves a s act t

/-! ## The calls -/

omit [DecidableEq κ] in
theorem goto_self {pc : Pc} (h : s.pc = pc) : s.goto pc = s := by
  subst h
  rfl

omit [DecidableEq κ] in
theorem atPos_none (h : atPos s.clients s.clients_amount fd = none) : fd ∉ s.registered := by
  intro hmem
  have hnone := List.findIdx?_eq_none_iff.mp h fd hmem
  simp at hnone

omit [DecidableEq κ] in
theorem atPos_some {pos : Nat} (h : atPos s.clients s.clients_amount fd = some pos) :
    s.clients.getD pos 0 = fd ∧ fd ∈ s.registered := by
  obtain ⟨hlt, hfound, -⟩ := List.findIdx?_eq_some_iff_getElem.mp h
  have hget : (s.clients.take s.clients_amount)[pos] = fd := of_decide_eq_true hfound
  have hpos : pos < s.clients.length := by
    rw [List.length_take] at hlt
    omega
  refine ⟨?_, hget ▸ List.getElem_mem hlt⟩
  rw [List.getD_eq_getElem?_getD, List.getElem?_eq_getElem hpos, Option.getD_some, ← hget,
    List.getElem_take]

theorem bulk_read_cases {rs : List ReadOutcome} {next : State κ → Nat → List Byte → State κ}
    (hn : s.bulk_read fd rs next = some t) :
    (t.pc = .ended ∧ Quiet s t ∧ (s.net.fds fd = none ∨ ∃ e, .error e ∈ rs)) ∨
      ∃ c, s.net.fds fd = some c ∧
        ((s.net.conn c).inbox.length < dataSize → (s.net.conn c).eof = true) ∧
          t = next (s.got c) (s.frame c).length (s.frame c) := by
  unfold State.bulk_read at hn
  obtain ⟨⟨r, data, net⟩, hr, rfl⟩ := Option.map_eq_some_iff.mp hn
  cases hfd : s.net.fds fd with
  | none =>
    unfold Net.bulkRead at hr
    rw [hfd] at hr
    cases hr
    exact .inl ⟨rfl, ⟨rfl, rfl, fun _ => rfl⟩, .inl rfl⟩
  | some c =>
    obtain ⟨-, rest, hread, rfl⟩ := Net.bulkRead_conn hfd hr
    cases r with
    | error e =>
      exact .inl ⟨rfl, ⟨rfl, rfl, Net.took_out s.net c rest⟩, .inr ⟨e, bulkRead_error hread⟩⟩
    | ok size =>
      obtain ⟨hsize, hbuf, hrest, heof⟩ := bulkRead_ok (Nat.zero_le _) hread
      simp only [Conn.stream, Nat.zero_add] at hsize hbuf hrest
      refine .inr ⟨c, rfl, heof, ?_⟩
      have htake : (s.net.conn c).inbox.take ((s.net.conn c).inbox.take dataSize).length =
          (s.net.conn c).inbox.take dataSize := by
        rw [List.length_take, List.take_eq_take_iff]
        omega
      simp only [Option.elim_some, Option.toList_some]
      rw [hsize, hbuf, hrest, htake]
      rfl

theorem sent_or {n net : Net κ} {data : List Byte} {ws : List WriteOutcome} {r : Except Errno Nat}
    (hdata : data.length = dataSize) (h : n.bulkWrite fd ws data dataSize = some (r, net)) :
    (∃ e, r = .error e ∧ e ≠ .epipe ∧ (n.isOpen fd = false ∨ .error e ∈ ws)) ∨
      (∀ e, r = .error e → e = .epipe) ∧ Sent n fd data net := by
  cases hfd : n.fds fd with
  | none =>
    unfold Net.bulkWrite at h
    rw [hfd] at h
    simp only at h
    split at h
    · obtain ⟨⟨ret, out⟩, hwrite, heq⟩ := Option.map_eq_some_iff.mp h
      cases heq
      cases ret with
      | ok n => exact .inr ⟨by simp, .other hfd⟩
      | error e =>
        by_cases he : e = .epipe
        · exact .inr ⟨by simp [he], .other hfd⟩
        · exact .inl ⟨e, rfl, he, .inr (bulkWrite_error hwrite)⟩
    · rename_i hother
      cases h
      exact .inl ⟨_, rfl, by simp, .inl (Net.isOpen_false.mpr ⟨hfd, Bool.eq_false_iff.mpr hother⟩)⟩
  | some c =>
    obtain ⟨hwrites, out, hwrite, rfl⟩ := Net.bulkWrite_conn hfd h
    cases r with
    | ok n =>
      obtain ⟨-, hout⟩ := bulkWrite_ok hwrite
      refine .inr ⟨by simp, .conn hfd fun _ => ?_⟩
      rw [hout, List.nil_append, List.take_of_length_le hdata.le]
    | error e =>
      have hmem := bulkWrite_error hwrite
      by_cases he : e = .epipe
      · refine .inr ⟨by simp [he], .conn hfd fun hconnected => ?_⟩
        obtain ⟨-, heof, hreset⟩ := Net.connected_iff.mp hconnected
        have hleft := Net.writes_error hwrites hmem
        simp [heof, hreset] at hleft
      · exact .inl ⟨e, rfl, he, .inr hmem⟩

/-- A `bulk_write` either ends the server, or the server goes on. -/
theorem bulk_write_cases {ws : List WriteOutcome} {next : State κ → State κ}
    (hdata : s.data.length = dataSize) (hn : s.bulk_write fd ws next = some t) :
    (t.pc = .ended ∧ t.deeds = s.deeds ∧
        (s.net.isOpen fd = false ∨ ∃ e, e ≠ .epipe ∧ .error e ∈ ws)) ∨
      ∃ net, Sent s.net fd s.data net ∧ t = next { s with net := net } := by
  unfold State.bulk_write at hn
  obtain ⟨⟨r, net⟩, hr, rfl⟩ := Option.map_eq_some_iff.mp hn
  rcases sent_or hdata hr with ⟨e, rfl, hne, hwhy⟩ | ⟨hgoes, hsent⟩
  · refine .inl ?_
    have hreason : s.net.isOpen fd = false ∨ ∃ e, e ≠ .epipe ∧ .error e ∈ ws :=
      hwhy.imp id fun hmem => ⟨e, hne, hmem⟩
    cases e with
    | epipe => exact absurd rfl hne
    | eagain | other => exact ⟨rfl, rfl, hreason⟩
  · refine .inr ⟨net, hsent, ?_⟩
    cases r with
    | ok n => rfl
    | error e =>
      cases hgoes e rfl
      rfl

omit [DecidableEq κ] in
/-- The loop has come to an entry to write to, or to its end. -/
theorem broadcast_cases (s : State κ) (cs : Int) (received : List Byte) (evs todo : List Int) :
    ((∀ fd ∈ todo, fd = 0 ∨ fd = cs) ∧ s.broadcast cs received evs todo = s.goto (.events evs)) ∨
      ∃ skipped fd rest, todo = skipped ++ fd :: rest ∧ (∀ fd ∈ skipped, fd = 0 ∨ fd = cs) ∧
        fd ≠ 0 ∧ fd ≠ cs ∧
          s.broadcast cs received evs todo = s.goto (.broadcast cs received (fd :: rest) evs) := by
  induction todo with
  | nil => exact .inl ⟨by simp, rfl⟩
  | cons fd todo ih =>
    unfold State.broadcast
    by_cases hskip : fd = 0 ∨ fd = cs
    · rw [if_pos hskip]
      rcases ih with ⟨hall, heq⟩ | ⟨skipped, fd', rest, rfl, hall, hne, hcs, heq⟩
      · exact .inl ⟨List.forall_mem_cons.mpr ⟨hskip, hall⟩, heq⟩
      · exact .inr ⟨fd :: skipped, fd', rest, rfl, List.forall_mem_cons.mpr ⟨hskip, hall⟩, hne, hcs,
          heq⟩
    · rw [if_neg hskip]
      obtain ⟨hne, hcs⟩ := not_or.mp hskip
      exact .inr ⟨[], fd, todo, rfl, by simp, hne, hcs, rfl⟩

omit [DecidableEq κ] in
theorem broadcast_goto (s : State κ) (cs : Int) (received : List Byte) (evs todo : List Int) :
    ∃ pc, s.broadcast cs received evs todo = s.goto pc := by
  rcases broadcast_cases s cs received evs todo with
    ⟨-, heq⟩ | ⟨skipped, fd, rest, -, -, -, -, heq⟩
  · exact ⟨_, heq⟩
  · exact ⟨_, heq⟩

/-- A frame says nothing, or what `cities` has already, or changes it. -/
theorem process_cases (s : State κ) (cs : Int) (received : List Byte) (evs : List Int) :
    (order s.data = none ∧ s.process cs received evs = s.goto (.events evs)) ∨
      ∃ k, order s.data = some (k, owner s.data) ∧
        (s.cities k = owner s.data ∧ s.process cs received evs =
            { s with assigned := Function.update s.assigned k true }.goto (.events evs) ∨
          s.cities k ≠ owner s.data ∧ s.process cs received evs = State.broadcast
            { s.deed .change cs cs received with
              assigned := Function.update s.assigned k true
              cities := Function.update s.cities k (owner s.data) } cs received evs s.clients) := by
  unfold State.process order
  cases hplace : place s.data with
  | none => exact .inl ⟨rfl, rfl⟩
  | some k =>
    simp only [Option.bind_some]
    by_cases howner : owner s.data = -1
    · rw [if_pos howner, if_pos howner]
      exact .inl ⟨rfl, rfl⟩
    · rw [if_neg howner, if_neg howner]
      refine .inr ⟨k, rfl, ?_⟩
      by_cases hsame : s.cities k = owner s.data
      · rw [if_pos hsame]
        exact .inl ⟨hsame, rfl⟩
      · rw [if_neg hsame]
        exact .inr ⟨hsame, rfl⟩

/-! ## All steps -/

theorem logged_eq (s : State κ) : s.logged = { s with deeds := s.logged.deeds } := by
  unfold State.logged
  split
  · rfl
  · rfl
  · rfl
  · rfl

theorem logged_pc (s : State κ) : s.logged.pc = s.pc := by
  rw [logged_eq]

theorem logged_of_target (h : s.pc.target = none) : s.logged = s := by
  unfold State.logged
  unfold Pc.target at h
  split at h
  · cases h
  · cases h
  · cases h
  · rfl

theorem accept_moves {o : AcceptOutcome} (hpc : s.pc = .events (a.tcp_listen_socket :: evs))
    (hn : s.accept a.tcp_listen_socket evs o = some t) : Moves a s (.accept o) t := by
  unfold State.accept at hn
  obtain ⟨⟨r, net⟩, hr, rfl⟩ := Option.map_eq_some_iff.mp hn
  have haccepts := Net.addNewClient_accepts hr
  cases r with
  | none =>
    have hlogged : s.logged = s := logged_of_target (by rw [hpc]; rfl)
    cases haccepts with
    | error => exact .ended rfl rfl (by rw [hlogged]; rfl) fun _ => ⟨rfl, rfl, fun _ => rfl⟩
  | some cs =>
    simp only
    by_cases hfull : s.clients_amount = MAX_CLIENTS
    · rw [if_pos hfull]
      exact .surplus hpc hfull haccepts
    · rw [if_neg hfull]
      cases haccepts with
      | conn hback hpos hfree hother => exact .accepted hpc hfull hback hpos hfree hother
      | eagain hback => exact .vanished hpc hfull hback

theorem message_moves {rs : List ReadOutcome} (h : Sane a s) (hpc : s.pc = .events (fd :: evs))
    (hne : fd ≠ a.tcp_listen_socket) (hn : s.message fd evs rs = some t) : Moves a s (.read rs) t := by
  have hlogged : s.logged = s := logged_of_target (by rw [hpc]; rfl)
  unfold State.message at hn
  split at hn
  · rename_i hpos
    cases hn
    exact .ended (.inr (.inr ⟨fd, evs, hpc, hne, atPos_none hpos⟩)) rfl (by rw [hlogged]; rfl)
      fun _ => ⟨rfl, rfl, fun _ => rfl⟩
  · rename_i pos hpos
    obtain ⟨hget, hmem⟩ := atPos_some hpos
    simp only [hget] at hn
    obtain ⟨c, hc⟩ := h.registered fd hmem
    rcases bulk_read_cases hn with ⟨hended, hquiet, hwhy⟩ | ⟨d, hd, heof, rfl⟩
    · refine .ended (.inl (hwhy.resolve_left fun hnone => ?_)) hended
        (by rw [hlogged, hquiet.deeds]) fun _ => hquiet
      cases hc.symm.trans hnone
    · have hmessage : Moves a s (.read rs) _ := .message hpc hmem hd heof
      split
      · rename_i hsize
        rwa [if_pos hsize] at hmessage
      · rename_i hsize
        rwa [if_neg hsize] at hmessage

theorem greet_moves {rs : List ReadOutcome} (h : Sane a s) (hpc : s.pc = .greet cs evs)
    (hn : (s.bulk_read cs rs fun s _ received => s.goto (.welcome cs received evs)) = some t) :
    Moves a s (.read rs) t := by
  have hlogged : s.logged = s := logged_of_target (by rw [hpc]; rfl)
  rcases bulk_read_cases hn with ⟨hended, hquiet, hwhy⟩ | ⟨d, hd, heof, rfl⟩
  · refine .ended ?_ hended (by rw [hlogged, hquiet.deeds]) fun _ => hquiet
    rcases hwhy with hnone | herror
    · -- the only descriptor without a connection is -1
      have hknown := h.pc
      rw [hpc] at hknown
      rcases hknown.2.2 with rfl | ⟨-, c, hc⟩
      · exact .inr (.inl ⟨evs, hpc⟩)
      · cases hnone.symm.trans hc
    · exact .inl herror
  · exact .greeted hpc hd heof

theorem write_moves {ws : List WriteOutcome} {next : State κ → State κ} {u : State κ} (h : Sane a s)
    (htarget : s.pc.target = some fd) (hlogged : s.logged = u)
    (hn : u.bulk_write fd ws next = some t) : Moves a s (.write ws) t ∨
      ∃ net, Sent s.net fd s.data net ∧ t = next { s.logged with net := net } := by
  subst hlogged
  have hdata : s.logged.data.length = dataSize := by
    rw [logged_eq]
    exact h.data
  rcases bulk_write_cases hdata hn with ⟨hended, hdeeds, hwhy⟩ | ⟨net, hsent, ht⟩
  · rw [logged_eq] at hwhy
    refine .inl (.ended ⟨fd, htarget, hwhy⟩ hended hdeeds fun hnone => ?_)
    cases htarget.symm.trans hnone
  · rw [logged_eq] at hsent
    exact .inr ⟨net, hsent, ht⟩

theorem next_moves (h : Sane a s) (hn : s.next a act = some t) : Moves a s act t := by
  have hknown := h.pc
  unfold State.next at hn
  split at hn
  · obtain ⟨net, hnet, rfl⟩ := Option.map_eq_some_iff.mp hn
    exact .peer hnet
  · rename_i evs hpc
    split at hn
    · rename_i hbatch
      cases hn
      exact .pwait hpc hbatch
    · cases hn
  · rename_i o fd evs hpc
    split at hn
    · rename_i hfd
      subst hfd
      exact accept_moves hpc hn
    · cases hn
  · rename_i rs fd evs hpc
    split at hn
    · cases hn
    · rename_i hne
      exact message_moves h hpc hne hn
  · rename_i rs cs evs hpc
    exact greet_moves h hpc hn
  · rename_i ws cs received evs hpc
    rcases write_moves h (by rw [hpc]; rfl) (by unfold State.logged; rw [hpc]) hn with
      hmoves | ⟨net, hsent, rfl⟩
    · exact hmoves
    · rw [hpc] at hknown
      obtain ⟨-, -, hnew, c, hc⟩ := hknown
      have hpos := (h.net.held cs c hc).2.1
      have hepoll : s.logged.epoll = s.epoll := by
        rw [logged_eq]
      unfold State.register
      rw [if_neg]
      · exact .welcomed hpc hsent
      · simp only [hepoll]
        exact not_or.mpr ⟨by omega, hnew⟩
  · rename_i ws cs received evs hpc
    rcases write_moves h (by rw [hpc]; rfl) (by unfold State.logged; rw [hpc]) hn with
      hmoves | ⟨net, hsent, rfl⟩
    · exact hmoves
    · exact .echoed hpc hsent
  · rename_i ws cs received fd todo evs hpc
    rcases write_moves h (by rw [hpc]; rfl) (by unfold State.logged; rw [hpc]) hn with
      hmoves | ⟨net, hsent, rfl⟩
    · exact hmoves
    · exact .sent hpc hsent
  · cases hn

theorem ended_next (h : s.pc = .ended) (hn : s.next a act = some t) :
    t.pc = .ended ∧ Quiet s t := by
  unfold State.next at hn
  split at hn
  · obtain ⟨net, hnet, rfl⟩ := Option.map_eq_some_iff.mp hn
    exact ⟨h, rfl, rfl, (Net.peer_grows hnet).out⟩
  · rename_i hpc
    cases h.symm.trans hpc
  · rename_i hpc
    cases h.symm.trans hpc
  · rename_i hpc
    cases h.symm.trans hpc
  · rename_i hpc
    cases h.symm.trans hpc
  · rename_i hpc
    cases h.symm.trans hpc
  · rename_i hpc
    cases h.symm.trans hpc
  · rename_i hpc
    cases h.symm.trans hpc
  · cases hn

end Ops.Cities
