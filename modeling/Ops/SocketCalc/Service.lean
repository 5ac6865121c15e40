import Ops.Posix.Connections
import Ops.SocketCalc.Server

/-!
# The service goes on

`add_new_client` may return -1, and a `read` and a `write` may fail: `doServer` goes on with -1 as
if it were a descriptor, and ends. As long as none of this happens, it keeps running, uses the
descriptors of accepted connections only, and closes each of them once. It does so without waiting
if and only if the client that it serves has sent its request or ended its stream: until then
nobody else is served (`served_clients`).

A `write` does not wait: 20 bytes fit the send buffer of a new connection.
-/

namespace Ops.SocketCalc

open Posix

variable {κ : Type} [DecidableEq κ] {a : Args} {s t : State κ} {act : Act κ}

/-! ## What should hold -/

/-- The server has not ended, unless by `SIGINT`. -/
def Pc.Running (pc : Pc) : Prop := pc ≠ .ended .exited ∧ pc ≠ .ended .trapped

/-- The descriptor of the client that is served. -/
def Pc.socket : Pc → Option Int
  | .read client_socket _ | .write client_socket _ | .close client_socket _ => some client_socket
  | .events _ | .ended _ => none

/-- The connection that is served. -/
def State.serving (s : State κ) : List κ := (s.pc.socket.bind s.net.fds).toList

/-- The server keeps running, every descriptor that it has used was of an accepted connection,
and the accepted connections, all different, are closed, but for the one that is served. -/
structure Sound (s : State κ) : Prop where
  running : s.pc.Running
  touched : ∀ o ∈ s.touched, ∃ c ∈ s.accepted, o = some c
  nodup : s.accepted.Nodup
  closed : s.accepted = s.closed ++ s.serving

def Pc.event : Pc → Option Int
  | .events evs => evs.head?
  | _ => none

/-- Nobody has left when a connection is accepted, no call on it fails but a `write` with `EPIPE`,
and its request does not trap. -/
def Served (s : State κ) : Act κ → Prop
  | .accept o => o ≠ .error ∧ ∀ l ∈ s.pc.event, s.net.backlog l ≠ []
  | .read rs => (∀ r ∈ rs, r.fails = false) ∧ ∀ c ∈ s.serving,
      dataSize ≤ (s.net.conn c).inbox.length →
        calculate ((s.net.conn c).inbox.take dataSize) ≠ none
  | .write ws => ∀ w ∈ ws, w.fails = true → w = .error .epipe
  | .peer _ | .pwait _ | .sigint | .close => True

instance : ∀ act, Decidable (Served s act)
  | .accept _ => inferInstanceAs (Decidable (_ ∧ ∀ l ∈ s.pc.event, _))
  | .read rs => inferInstanceAs (Decidable ((∀ r ∈ rs, _) ∧ ∀ c ∈ s.serving, _))
  | .write ws => inferInstanceAs (Decidable (∀ w ∈ ws, _))
  | .peer _ | .pwait _ | .sigint | .close => .isTrue trivial

/-- The steps of the server. -/
def Act.own : Act κ → Bool
  | .peer _ => false
  | _ => true

/-- The server, on its own, closes the connection that it serves and goes on with the next event. -/
def Finishes (a : Args) (s : State κ) : Prop :=
  ∃ acts t evs, (∀ act ∈ acts, act.own = true) ∧ (server κ a).Along Served s acts ∧
    (server κ a).exec s acts = some t ∧ t.pc = .events evs ∧ t.closed = s.closed ++ s.serving

/-- The client has sent its request, which does not trap, or ended its stream. -/
def Complete (k : Conn) : Prop :=
  (k.eof = true ∨ dataSize ≤ k.inbox.length) ∧
    (dataSize ≤ k.inbox.length → calculate (k.inbox.take dataSize) ≠ none)

/-- A client that the server is about to read from is complete. -/
def Requested (s : State κ) : Prop :=
  ∀ fd evs, s.pc = .read fd evs → ∀ c ∈ s.serving, Complete (s.net.conn c)

/-! ## Steps -/

theorem calculate_length {data reply : List Byte} (hlen : data.length = dataSize)
    (h : calculate data = some reply) : reply.length = dataSize := by
  have hstatus : ∀ v, 16 + (htonl v).length ≤ data.length := fun v => by
    rw [htonl_length, hlen]
    decide
  unfold calculate at h
  obtain ⟨⟨result, status⟩, -, rfl⟩ := Option.map_eq_some_iff.mp h
  have hfirst := blit_length (hstatus status)
  rw [blit_length, hfirst, hlen]
  rw [hfirst, htonl_length, hlen]
  decide

structure Inv (s : State κ) : Prop where
  sound : Sound s
  net : s.net.Ok
  data : s.data.length = dataSize
  socket : ∀ fd, s.pc.socket = some fd → ∃ c, s.net.fds fd = some c
  taken : ∀ c ∈ s.accepted, s.net.Taken c

namespace Inv

theorem peer {p : Peer κ} {net : Net κ} (h : Inv s) (hp : s.net.peer p = some net) :
    Inv { s with net := net } := by
  have hgrows := Net.peer_grows hp
  have hserving : State.serving { s with net := net } = s.serving := by
    unfold State.serving
    simp only [hgrows.fds]
  refine ⟨⟨h.sound.running, h.sound.touched, h.sound.nodup, ?_⟩, h.net.peer hp, h.data,
    fun fd hfd => ?_, fun c hc => (h.taken c hc).peer hp⟩
  · rw [hserving]
    exact h.sound.closed
  · simp only [hgrows.fds]
    exact h.socket fd hfd

omit [DecidableEq κ] in
theorem idle {pc : Pc} (h : Inv s) (hs : s.pc.socket = none) (hpc : pc.socket = none)
    (hrun : pc.Running) : Inv (s.goto pc) := by
  have hclosed := h.sound.closed
  unfold State.serving at hclosed
  rw [hs] at hclosed
  refine ⟨⟨hrun, h.sound.touched, h.sound.nodup, ?_⟩, h.net, h.data, fun fd hfd => ?_, h.taken⟩
  · unfold State.serving State.goto
    rw [hpc]
    exact hclosed
  · cases hpc.symm.trans hfd

theorem use {fd : Int} {c : κ} {k : Conn} {pc : Pc} {data : List Byte} (h : Inv s)
    (hs : s.pc.socket = some fd) (hc : s.net.fds fd = some c)
    (hk : k.opened = (s.net.conn c).opened) (hdata : data.length = dataSize)
    (hpc : pc.socket = some fd) (hrun : pc.Running) :
    Inv ({ s.touch fd with net := s.net.setConn c k, data := data }.goto pc) := by
  have hserving : s.serving = [c] := by
    unfold State.serving
    rw [hs, Option.bind_some, hc]
    rfl
  have hmem : c ∈ s.accepted := by
    rw [h.sound.closed, hserving]
    exact List.mem_append_right _ List.mem_cons_self
  refine ⟨⟨hrun, fun o ho => ?_, h.sound.nodup, ?_⟩, h.net.setConn hk, hdata, fun fd' hfd' => ?_,
    fun d hd => (h.taken d hd).setConn hk⟩
  · rcases List.mem_append.mp ho with ho | ho
    · exact h.sound.touched o ho
    · exact ⟨c, hmem, by rw [List.mem_singleton.mp ho, hc]⟩
  · refine h.sound.closed.trans ?_
    rw [hserving]
    unfold State.serving State.goto
    rw [hpc]
    exact congrArg (s.closed ++ Option.toList ·) hc.symm
  · cases hpc.symm.trans hfd'
    exact ⟨c, hc⟩

omit [DecidableEq κ] in
theorem accept {o : AcceptOutcome} {l : Int} {evs : List Int} (h : Inv s)
    (hpc : s.pc = .events (l :: evs)) (hserved : Served s (.accept o))
    (hn : s.accept l evs o = some t) : Inv t := by
  unfold State.accept at hn
  obtain ⟨⟨r, net⟩, hr, rfl⟩ := Option.map_eq_some_iff.mp hn
  have hclosed := h.sound.closed
  unfold State.serving at hclosed
  rw [hpc] at hclosed
  have hrunning : ∀ {fd : Int}, Pc.Running (.read fd evs) := ⟨by simp, by simp⟩
  cases Net.addNewClient_accepts hr with
  | @conn fd c rest hback hpos hfree hother =>
    have htaken := h.net.taken hback
    have hnew : c ∉ s.accepted := fun hmem =>
      (h.taken c hmem).gone l (by rw [hback]; exact List.mem_cons_self)
    have hfd : Function.update s.net.fds fd (some c) fd = some c := Function.update_self ..
    have hsub : rest ⊆ s.net.backlog l := by
      rw [hback]
      exact List.subset_cons_self c rest
    simp only [hfd]
    refine ⟨⟨hrunning, fun o ho => ?_, ?_, ?_⟩, h.net.accept hback hpos hfree hother, h.data,
      fun fd' hfd' => ?_, fun d hd => ?_⟩
    · obtain ⟨d, hd, rfl⟩ := h.sound.touched o ho
      exact ⟨d, List.mem_append_left _ hd, rfl⟩
    · exact List.nodup_append.mpr ⟨h.sound.nodup, List.nodup_singleton c, fun d hd e he hde =>
        hnew (List.mem_singleton.mp he ▸ hde ▸ hd)⟩
    · unfold State.serving State.goto
      simp only [Pc.socket, Option.bind_some, hfd]
      rw [hclosed]
      simp [Pc.socket]
    · cases hfd'
      exact ⟨c, hfd⟩
    · rcases List.mem_append.mp hd with hd | hd
      · have hold := (h.taken d hd).fewer hsub
        exact ⟨hold.opened, hold.gone⟩
      · rw [List.mem_singleton.mp hd]
        exact ⟨htaken.opened, htaken.gone⟩
  | eagain hback => exact absurd hback (hserved.2 l (by rw [hpc]; rfl))
  | error => exact absurd rfl hserved.1

theorem read {fd : Int} {evs : List Int} {rs : List ReadOutcome} (h : Inv s)
    (hpc : s.pc = .read fd evs) (hserved : Served s (.read rs)) (hn : s.read fd evs rs = some t) :
    Inv t := by
  have hs : s.pc.socket = some fd := by
    rw [hpc]
    rfl
  obtain ⟨c, hc⟩ := h.socket fd hs
  unfold State.read at hn
  obtain ⟨⟨r, buf, net⟩, hr, rfl⟩ := Option.map_eq_some_iff.mp hn
  obtain ⟨-, rest, hread, rfl⟩ := Net.bulkRead_conn hc hr
  cases r with
  | error e => cases hserved.1 _ (bulkRead_error hread)
  | ok size =>
    obtain ⟨hsize, hbuf, -, -⟩ := bulkRead_ok (Nat.zero_le _) hread
    simp only [Conn.stream, Nat.zero_add] at hsize hbuf
    have hle := List.length_take_le dataSize (s.net.conn c).inbox
    have hlen : buf.length = dataSize := by
      rw [hbuf, blit_length (by rw [h.data]; omega), h.data]
    simp only
    split
    · rename_i hwhole
      have hall : buf = (s.net.conn c).inbox.take dataSize := by
        rw [hbuf, blit_all (by rw [h.data, ← hsize, hwhole])]
      have hinbox : dataSize ≤ (s.net.conn c).inbox.length := by
        rw [List.length_take] at hsize
        omega
      have hserving : c ∈ s.serving := by
        unfold State.serving
        rw [hs, Option.bind_some, hc]
        exact List.mem_cons_self
      have hcomputes := hserved.2 c hserving hinbox
      rw [← hall] at hcomputes
      obtain ⟨data, hdata⟩ := Option.ne_none_iff_exists'.mp hcomputes
      have hreply := calculate_length hlen hdata
      rw [hdata]
      exact h.use hs hc rfl hreply rfl ⟨by simp, by simp⟩
    · exact h.use hs hc rfl hlen rfl ⟨by simp, by simp⟩

theorem write {fd : Int} {evs : List Int} {ws : List WriteOutcome} (h : Inv s)
    (hpc : s.pc = .write fd evs) (hserved : Served s (.write ws))
    (hn : s.write fd evs ws = some t) : Inv t := by
  have hs : s.pc.socket = some fd := by
    rw [hpc]
    rfl
  obtain ⟨c, hc⟩ := h.socket fd hs
  unfold State.write at hn
  obtain ⟨⟨r, net⟩, hr, rfl⟩ := Option.map_eq_some_iff.mp hn
  obtain ⟨-, out, hwrite, rfl⟩ := Net.bulkWrite_conn hc hr
  cases r with
  | ok n => exact h.use hs hc rfl h.data rfl ⟨by simp, by simp⟩
  | error e =>
    cases hserved _ (bulkWrite_error hwrite) rfl
    exact h.use hs hc rfl h.data rfl ⟨by simp, by simp⟩

omit [DecidableEq κ] in
theorem close {fd : Int} {evs : List Int} (h : Inv s) (hpc : s.pc = .close fd evs) :
    Inv (s.close fd evs) := by
  have hs : s.pc.socket = some fd := by
    rw [hpc]
    rfl
  obtain ⟨c, hc⟩ := h.socket fd hs
  have hclosed := h.sound.closed
  unfold State.serving at hclosed
  rw [hs, Option.bind_some, hc] at hclosed
  have hmem : c ∈ s.accepted := by
    rw [hclosed]
    exact List.mem_append_right _ List.mem_cons_self
  unfold State.close
  rw [hc]
  refine ⟨⟨⟨by simp [State.goto], by simp [State.goto]⟩, fun o ho => ?_, h.sound.nodup, ?_⟩,
    h.net.close fd, h.data, fun fd' hfd' => ?_, fun d hd => ?_⟩
  · rcases List.mem_append.mp ho with ho | ho
    · exact h.sound.touched o ho
    · exact ⟨c, hmem, by rw [List.mem_singleton.mp ho, hc]⟩
  · unfold State.serving
    exact hclosed.trans (List.append_nil _).symm
  · cases hfd'
  · exact ⟨(h.taken d hd).opened, (h.taken d hd).gone⟩

theorem step (h : Inv s) (hserved : Served s act) (hn : s.next a act = some t) : Inv t := by
  unfold State.next at hn
  split at hn
  · obtain ⟨net, hnet, rfl⟩ := Option.map_eq_some_iff.mp hn
    exact h.peer hnet
  · rename_i evs hpc
    split at hn
    · cases hn
      exact h.idle (by rw [hpc]; rfl) rfl ⟨by simp, by simp⟩
    · cases hn
  · rename_i hpc
    cases hn
    exact h.idle (by rw [hpc]; rfl) rfl ⟨by simp, by simp⟩
  · rename_i o l evs hpc
    exact h.accept hpc hserved hn
  · rename_i rs fd evs hpc
    exact h.read hpc hserved hn
  · rename_i ws fd evs hpc
    exact h.write hpc hserved hn
  · rename_i fd evs hpc
    cases hn
    exact h.close hpc
  · cases hn

omit [DecidableEq κ] in
theorem init (h : Start a s) : Inv s := by
  refine ⟨⟨?_, fun o ho => ?_, ?_, ?_⟩, h.net.ok, h.data, fun fd hfd => ?_, fun c hc => ?_⟩
  · rw [h.pc]
    exact ⟨by simp, by simp⟩
  · rw [h.touched] at ho
    cases ho
  · rw [h.accepted]
    exact List.nodup_nil
  · unfold State.serving
    rw [h.accepted, h.closed, h.pc]
    rfl
  · rw [h.pc] at hfd
    cases hfd
  · rw [h.accepted] at hc
    cases hc

end Inv

theorem inv_reach (h : (server κ a).ReachIf Served s) : Inv s :=
  h.inv (fun _ hs => .init hs) fun _ _ _ _ hi hc hn => hi.step hc hn

/-! ## Progress -/

omit [DecidableEq κ] in
theorem serving_eq {fd : Int} {c : κ} (hs : s.pc.socket = some fd) (hc : s.net.fds fd = some c) :
    s.serving = [c] := by
  unfold State.serving
  rw [hs, Option.bind_some, hc]
  rfl

theorem read_cases {fd : Int} {c : κ} {evs : List Int} {rs : List ReadOutcome} (h : Inv s)
    (hc : s.net.fds fd = some c) (hn : s.read fd evs rs = some t) :
    t.closed = s.closed ∧ t.net.fds = s.net.fds ∧
      ((t.pc = .ended .exited ∨ t.pc = .ended .trapped) ∨
        (t.pc = .write fd evs ∨ t.pc = .close fd evs) ∧ Complete (s.net.conn c)) := by
  unfold State.read at hn
  obtain ⟨⟨r, buf, net⟩, hr, rfl⟩ := Option.map_eq_some_iff.mp hn
  obtain ⟨-, rest, hread, rfl⟩ := Net.bulkRead_conn hc hr
  cases r with
  | error e => exact ⟨rfl, rfl, .inl (.inl rfl)⟩
  | ok size =>
    obtain ⟨hsize, hbuf, -, hend⟩ := bulkRead_ok (Nat.zero_le _) hread
    simp only [Conn.stream, Nat.zero_add, List.length_take] at hsize hbuf hend
    simp only
    split
    · rename_i hwhole
      have hinbox : dataSize ≤ (s.net.conn c).inbox.length := by omega
      have hall : buf = (s.net.conn c).inbox.take dataSize := by
        rw [hbuf, blit_all]
        rw [h.data, List.length_take, Nat.min_eq_left hinbox]
      split
      · exact ⟨rfl, rfl, .inl (.inr rfl)⟩
      · rename_i data hdata
        refine ⟨rfl, rfl, .inr ⟨.inl rfl, .inr hinbox, fun _ => ?_⟩⟩
        rw [← hall, hdata]
        nofun
    · rename_i hshort
      have hinbox : (s.net.conn c).inbox.length < dataSize := by omega
      exact ⟨rfl, rfl, .inr ⟨.inr rfl, .inl (hend hinbox), fun hle => by omega⟩⟩

theorem next_ended {why : Stop} (hpc : s.pc = .ended why) (hown : act.own = true) :
    s.next a act = none := by
  unfold State.next
  rw [hpc]
  cases act with
  | peer p => cases hown
  | _ => rfl

theorem next_read {fd : Int} {evs : List Int} (hpc : s.pc = .read fd evs) (hown : act.own = true)
    (hn : s.next a act = some t) : ∃ rs, s.read fd evs rs = some t := by
  unfold State.next at hn
  rw [hpc] at hn
  cases act with
  | peer p => cases hown
  | read rs => exact ⟨rs, hn⟩
  | _ => cases hn

def wholeRead : List ReadOutcome := [.data (dataSize - 1), .data (dataSize - 1)]

theorem exists_read {fd : Int} {c : κ} (evs : List Int) (hc : s.net.fds fd = some c)
    (hk : (s.net.conn c).eof = true ∨ dataSize ≤ (s.net.conn c).inbox.length) :
    ∃ t, s.read fd evs wholeRead = some t := by
  obtain ⟨n, buf, rest, hr⟩ := bulkRead_whole (s := (s.net.conn c).stream) hk
    (m := dataSize - 1) (by decide) s.data 0 0
  have hnet : s.net.bulkRead fd wholeRead s.data dataSize =
      some (.ok n, buf, s.net.took c rest) := by
    unfold Net.bulkRead wholeRead
    rw [hc]
    simp only
    rw [hr]
    rfl
  unfold State.read
  rw [hnet]
  exact ⟨_, rfl⟩

theorem write_whole {fd : Int} {c : κ} (evs : List Int) (hc : s.net.fds fd = some c) :
    ∃ t, s.write fd evs [.wrote (dataSize - 1)] = some t ∧ t.pc = .close fd evs ∧
      t.closed = s.closed ∧ t.net.fds = s.net.fds := by
  have hnet : s.net.bulkWrite fd [.wrote (dataSize - 1)] s.data dataSize =
      some (.ok dataSize, s.net.wrote c (s.data.take dataSize)) := by
    unfold Net.bulkWrite
    rw [hc]
    simp only
    rw [bulkWrite_whole (by decide)]
    rfl
  unfold State.write
  rw [hnet]
  exact ⟨_, rfl, rfl, rfl, rfl⟩

namespace Finishes

theorem of_next (hown : act.own = true) (hserved : Served s act) (hn : s.next a act = some t)
    (hclosed : t.closed = s.closed) (hserving : t.serving = s.serving) (h : Finishes a t) :
    Finishes a s := by
  obtain ⟨acts, u, evs, hacts, halong, hexec, hpc, hu⟩ := h
  refine ⟨act :: acts, u, evs, List.forall_mem_cons.mpr ⟨hown, hacts⟩,
    (LTS.along_cons hn acts).mpr ⟨hserved, halong⟩, (LTS.exec_cons hn acts).trans hexec, hpc, ?_⟩
  rw [hu, hclosed, hserving]

theorem of_close {fd : Int} {c : κ} {evs : List Int} (hpc : s.pc = .close fd evs)
    (hc : s.net.fds fd = some c) : Finishes a s := by
  have hserving : s.serving = [c] := serving_eq (by rw [hpc]; rfl) hc
  have hn : s.next a .close = some (s.close fd evs) := by
    unfold State.next
    rw [hpc]
  have hclose : (s.close fd evs).pc = .events evs ∧ (s.close fd evs).closed = s.closed ++ [c] := by
    unfold State.close
    rw [hc]
    exact ⟨rfl, rfl⟩
  refine ⟨[.close], _, evs, by simp [Act.own], (LTS.along_cons hn []).mpr ⟨trivial, trivial⟩,
    LTS.exec_cons hn [], hclose.1, ?_⟩
  rw [hserving, hclose.2]

theorem of_write {fd : Int} {c : κ} {evs : List Int} (hpc : s.pc = .write fd evs)
    (hc : s.net.fds fd = some c) : Finishes a s := by
  obtain ⟨t, hn, htpc, hclosed, hfds⟩ := write_whole evs hc
  have htc : t.net.fds fd = some c := by rw [hfds, hc]
  have hstep : s.next a (.write [.wrote (dataSize - 1)]) = some t := by
    unfold State.next
    rw [hpc]
    exact hn
  refine of_next rfl ?_ hstep hclosed ?_ (of_close htpc htc)
  · intro w hw hfails
    cases List.mem_singleton.mp hw
    cases hfails
  · rw [serving_eq (by rw [htpc]; rfl) htc, serving_eq (by rw [hpc]; rfl) hc]

theorem of_read {fd : Int} {c : κ} {evs : List Int} (h : Inv s) (hpc : s.pc = .read fd evs)
    (hc : s.net.fds fd = some c) (hk : Complete (s.net.conn c)) : Finishes a s := by
  have hserving : s.serving = [c] := serving_eq (by rw [hpc]; rfl) hc
  obtain ⟨t, hn⟩ := exists_read evs hc hk.1
  have hserved : Served s (.read wholeRead) := by
    refine ⟨by decide, fun d hd => ?_⟩
    rw [hserving] at hd
    cases List.mem_singleton.mp hd
    exact hk.2
  have hnext : s.next a (.read wholeRead) = some t := by
    unfold State.next
    rw [hpc]
    exact hn
  have hrun := (h.step hserved hnext).sound.running
  obtain ⟨hclosed, hfds, hcases⟩ := read_cases h hc hn
  have htc : t.net.fds fd = some c := by rw [hfds, hc]
  rcases hcases with hended | ⟨hpc' | hpc', -⟩
  · exact absurd hended (not_or.mpr hrun)
  · refine of_next rfl hserved hnext hclosed ?_ (of_write hpc' htc)
    rw [hserving, serving_eq (by rw [hpc']; rfl) htc]
  · refine of_next rfl hserved hnext hclosed ?_ (of_close hpc' htc)
    rw [hserving, serving_eq (by rw [hpc']; rfl) htc]

theorem complete {fd : Int} {c : κ} {evs : List Int} (h : Inv s) (hpc : s.pc = .read fd evs)
    (hc : s.net.fds fd = some c) (hf : Finishes a s) : Complete (s.net.conn c) := by
  obtain ⟨acts, t, evs', hacts, -, hexec, ht, -⟩ := hf
  cases acts with
  | nil =>
    cases hexec
    cases hpc.symm.trans ht
  | cons act acts =>
    obtain ⟨u, hn, hrest⟩ := LTS.exec_cons_some.mp hexec
    obtain ⟨hown, hacts⟩ := List.forall_mem_cons.mp hacts
    obtain ⟨rs, hread⟩ := next_read hpc hown hn
    obtain ⟨-, -, hcases⟩ := read_cases h hc hread
    refine (hcases.resolve_left fun hended => ?_).2
    have hstuck : ∀ why, u.pc ≠ .ended why := fun why hwhy => by
      cases acts with
      | nil =>
        cases hrest
        cases hwhy.symm.trans ht
      | cons act acts =>
        obtain ⟨v, hv, -⟩ := LTS.exec_cons_some.mp hrest
        have hnone := next_ended (a := a) hwhy (hacts act List.mem_cons_self)
        cases hnone.symm.trans hv
    exact hended.elim (hstuck _) (hstuck _)

end Finishes

/-- **Served clients**: as long as every step meets the condition, the server keeps running, uses
only descriptors that `add_new_client` has returned, and closes each accepted connection once: it
comes to the `close` on its own if and only if the client has sent its request or ended its
stream. -/
theorem served_clients (h : (server κ a).ReachIf Served s) :
    Sound s ∧ (s.pc.socket.isSome → (Finishes a s ↔ Requested s)) := by
  have hinv := inv_reach h
  refine ⟨hinv.sound, fun hs => ?_⟩
  obtain ⟨fd, hfd⟩ := Option.isSome_iff_exists.mp hs
  obtain ⟨c, hc⟩ := hinv.socket fd hfd
  have hserving := serving_eq hfd hc
  constructor
  · intro hf fd' evs hpc d hd
    rw [hserving] at hd
    cases List.mem_singleton.mp hd
    rw [hpc] at hfd
    cases hfd
    exact hf.complete hinv hpc hc
  · intro hreq
    cases hpc : s.pc with
    | read fd' evs =>
      rw [hpc] at hfd
      cases hfd
      exact .of_read hinv hpc hc (hreq _ evs hpc c (hserving ▸ List.mem_singleton_self c))
    | write fd' evs =>
      rw [hpc] at hfd
      cases hfd
      exact .of_write hpc hc
    | close fd' evs =>
      rw [hpc] at hfd
      cases hfd
      exact .of_close hpc hc
    | _ =>
      rw [hpc] at hfd
      cases hfd

/-! ## Runs -/

def sockets : Args := ⟨3, 4⟩

def State.idle (κ : Type) : State κ where
  pc := .events []
  data := List.replicate dataSize 0
  net := Net.idle κ
  accepted := []
  closed := []
  touched := []

omit [DecidableEq κ] in
theorem idle_start : Start sockets (State.idle κ) :=
  ⟨rfl, List.length_replicate, Net.idle_start,
    by simp [sockets, Args.epoll, State.idle, Net.idle], rfl, rfl, rfl⟩

/-- Two clients in one batch: one asks for 1 + 2 and is answered in two pieces, the other leaves
after a word. -/
def twoClients : List (Act Bool) :=
  [.peer (.connect 3 true), .peer (.connect 4 false),
    .peer (.send true (htonl 1 ++ (htonl 2 ++ (htonl 0 ++ (htonl 43 ++ htonl 1))))), .pwait [3, 4],
    .accept (.conn 5), .read [.data 6, .data 19], .write [.wrote 3, .wrote 19], .close,
    .accept (.conn 5), .peer (.send false (htonl 7)), .peer (.close false)]

theorem served_clients_two : ∃ s,
    (server Bool sockets).execIf Served (.idle Bool) twoClients = some s ∧ s.pc = .read 5 [] ∧
      s.closed = [true] ∧ Sound s ∧ Finishes sockets s := by
  have hrun : ((server Bool sockets).execIf Served (.idle Bool) twoClients).map
      (fun s => (s.pc, s.closed, s.serving, (s.net.conn false).eof,
        (s.net.conn false).inbox.length)) = some (.read 5 [], [true], [false], true, 4) := by
    decide +kernel
  obtain ⟨s, hs, heq⟩ := Option.map_eq_some_iff.mp hrun
  simp only [Prod.mk.injEq] at heq
  obtain ⟨hpc, hclosed, hserving, heof, hlen⟩ := heq
  obtain ⟨hsound, hfinishes⟩ := served_clients (LTS.ReachIf.execIf (.init idle_start) hs)
  refine ⟨s, hs, hpc, hclosed, hsound, (hfinishes (by rw [hpc]; rfl)).mpr fun fd evs _ c hc => ?_⟩
  rw [hserving] at hc
  cases List.mem_singleton.mp hc
  refine ⟨.inl heof, fun hle => ?_⟩
  rw [hlen] at hle
  exact absurd hle (by decide)

def resets : List (Act Bool) :=
  [.peer (.connect 4 true), .pwait [4], .accept (.conn 5), .peer (.send true (htonl 1)),
    .peer (.reset true), .read [.data 19, .error .other]]

/-- **A client that resets its connection** ends the server: `read` fails. -/
theorem ended_by_reset : ∃ s, (server Bool sockets).Reach s ∧ s.pc = .ended .exited ∧
    s.accepted = [true] ∧ s.closed = [] ∧ ¬ Sound s := by
  have hrun : ((server Bool sockets).exec (.idle Bool) resets).map
      (fun s => (s.pc, s.accepted, s.closed)) = some (.ended .exited, [true], []) := by
    decide +kernel
  obtain ⟨s, hs, heq⟩ := Option.map_eq_some_iff.mp hrun
  simp only [Prod.mk.injEq] at heq
  obtain ⟨hpc, haccepted, hclosed⟩ := heq
  exact ⟨s, LTS.Reach.exec (.init idle_start) hs, hpc, haccepted, hclosed,
    fun hsound => hsound.running.1 hpc⟩

/-- A client sends one word, and nothing more. -/
def keepsOpen : List (Act Bool) :=
  [.peer (.connect 3 true), .pwait [3], .accept (.conn 5), .peer (.send true (htonl 1))]

/-- **A client that keeps its connection open** is never closed: the server waits in `bulk_read`. -/
theorem kept_waiting : ∃ s, (server Bool sockets).ReachIf Served s ∧ s.pc = .read 5 [] ∧
    ¬ Finishes sockets s := by
  have hrun : ((server Bool sockets).execIf Served (.idle Bool) keepsOpen).map
      (fun s => (s.pc, s.net.fds 5, (s.net.conn true).eof, (s.net.conn true).inbox.length)) =
      some (.read 5 [], some true, false, 4) := by decide +kernel
  obtain ⟨s, hs, heq⟩ := Option.map_eq_some_iff.mp hrun
  simp only [Prod.mk.injEq] at heq
  obtain ⟨hpc, hfd, heof, hlen⟩ := heq
  have hreach := LTS.ReachIf.execIf (.init idle_start) hs
  refine ⟨s, hreach, hpc, fun hf => ?_⟩
  have hcomplete := (hf.complete (inv_reach hreach) hpc hfd).1
  rw [heof, hlen] at hcomplete
  exact absurd hcomplete (by decide)

end Ops.SocketCalc
