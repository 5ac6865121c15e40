import Ops.Logger.Process

/-!
# Packet boundaries

The echo of a stream is the echo of its chunks, each without its first byte (`echoed_chunks`), and
every way of cutting it into chunks of 1 to 1023 bytes is a run (`cut_run`). The echo is the same
for all of them if and only if there is nothing to cut (`independent_iff`).
-/

namespace Ops.Logger

open Posix

variable {κ : Type} [DecidableEq κ] {sfd : Int} {s t : State κ} {act : Act κ} {c : κ}
variable {x y : List Byte}

/-! ## What should hold -/

/-- The client has not left. -/
def Stays (k : Conn) : Prop := k.eof = false ∧ k.reset = false

/-- The client has sent `x`, and the server has read and answered it. -/
structure Answered (s : State κ) (c : κ) (x : List Byte) : Prop where
  stays : Stays (s.net.conn c)
  got : (s.net.conn c).got = x
  inbox : (s.net.conn c).inbox = []
  echoed : ∀ fd bytes evs, s.pc = .echo fd bytes evs → s.net.fds fd ≠ some c

/-- In any two runs the answer is the same. -/
def Independent (c : κ) (x : List Byte) : Prop :=
  ∀ sfd s s', (server κ sfd).Reach s → (server κ sfd).Reach s' → Answered s c x →
    Answered s' c x → (s.net.conn c).out = (s'.net.conn c).out

/-! ## The echo of chunks -/

/-- What `read` hands over. -/
def IsChunk (chunk : List Byte) : Prop := chunk ≠ [] ∧ chunk.length < bufferSize

/-- `got` is cut into chunks, and `out` are their echoes. -/
def Cut (got out : List Byte) : Prop :=
  ∃ chunks : List (List Byte), (∀ chunk ∈ chunks, IsChunk chunk) ∧ got = chunks.flatten ∧
    out = chunks.flatMap (List.drop 1)

/-- The bytes that will be written to `c`. -/
def State.owed (s : State κ) (c : κ) : List Byte :=
  match s.pc with
  | .echo fd bytes _ => if s.net.fds fd = some c then bytes.drop 1 else []
  | _ => []

/-- Clients that stay are answered chunk by chunk. -/
def Cuts (s : State κ) : Prop :=
  ∀ c, Stays (s.net.conn c) → Cut (s.net.conn c).got ((s.net.conn c).out ++ s.owed c)

theorem Cut.next {got out chunk : List Byte} (h : Cut got out) (hchunk : IsChunk chunk) :
    Cut (got ++ chunk) (out ++ chunk.drop 1) := by
  obtain ⟨chunks, hall, rfl, rfl⟩ := h
  refine ⟨chunks ++ [chunk], fun k hk => ?_, by simp, by simp⟩
  rcases List.mem_append.mp hk with hk | hk
  · exact hall k hk
  · rw [List.mem_singleton.mp hk]
    exact hchunk

theorem Cut.cons {got out chunk : List Byte} (hchunk : IsChunk chunk) (h : Cut got out) :
    Cut (chunk ++ got) (chunk.drop 1 ++ out) := by
  obtain ⟨chunks, hall, rfl, rfl⟩ := h
  exact ⟨chunk :: chunks, List.forall_mem_cons.mpr ⟨hchunk, hall⟩, rfl, rfl⟩

theorem Cut.bytes (x : List Byte) : Cut x [] := by
  induction x with
  | nil => exact ⟨[], by simp, rfl, rfl⟩
  | cons b x ih =>
    have hchunk : IsChunk [b] := ⟨by simp, by simp [bufferSize]⟩
    exact ih.cons hchunk

theorem Cut.short {got out : List Byte} (h : Cut got out) (hlen : got.length ≤ 1) : out = [] := by
  obtain ⟨chunks, hall, rfl, rfl⟩ := h
  refine List.flatMap_eq_nil_iff.mpr fun chunk hchunk => List.drop_of_length_le ?_
  have hsub : chunk.length ≤ chunks.flatten.length := by
    exact (List.sublist_flatten_of_mem hchunk).length_le
  omega

theorem owed_events {evs : List Int} (hpc : s.pc = .events evs) (c : κ) :
    s.owed c = [] := by
  unfold State.owed
  rw [hpc]

namespace Cuts

theorem same (h : Cuts s) (hsame : ∀ c, Stays (t.net.conn c) → Stays (s.net.conn c) ∧
    (t.net.conn c).got = (s.net.conn c).got ∧
      (t.net.conn c).out ++ t.owed c = (s.net.conn c).out ++ s.owed c) : Cuts t := by
  intro c hstays
  obtain ⟨hold, hgot, hout⟩ := hsame c hstays
  rw [hgot, hout]
  exact h c hold

theorem peer {p : Peer κ} {net : Net κ} {epoll : Epoll} (h : Cuts s)
    (hp : s.net.peer p = some net) : Cuts { s with net := net, epoll := epoll } := by
  have hgrows := Net.peer_grows hp
  refine h.same fun c (hstays : Stays (net.conn c)) => ⟨⟨?_, ?_⟩, hgrows.got c, ?_⟩
  · by_contra hleft
    cases hstays.1.symm.trans (hgrows.eof c (Bool.not_eq_false _ ▸ hleft))
  · by_contra hleft
    cases hstays.2.symm.trans (hgrows.reset c (Bool.not_eq_false _ ▸ hleft))
  · rw [hgrows.out c]
    unfold State.owed
    simp only [hgrows.fds]

theorem goto {epoll : Epoll} {net : Net κ} {pc : Pc} (h : Cuts s) (hconn : net.conn = s.net.conn)
    (hs : ∀ c, Stays (s.net.conn c) → s.owed c = [])
    (hpc : ∀ fd bytes evs, pc ≠ .echo fd bytes evs) :
    Cuts ({ s with net := net, epoll := epoll }.goto pc) := by
  refine h.same fun c (hstays : Stays (net.conn c)) => ?_
  have howed : State.owed ({ s with net := net, epoll := epoll }.goto pc) c = [] := by
    unfold State.owed
    split
    · rename_i fd bytes evs heq
      exact absurd heq (hpc fd bytes evs)
    · rfl
  rw [hconn] at hstays
  rw [howed, hs c hstays]
  simp only [State.goto, hconn]
  exact ⟨hstays, trivial, trivial⟩

theorem accept {evs : List Int} {o : AcceptOutcome} (h : Cuts s) (hpc : s.pc = .events (sfd :: evs))
    (hn : s.accept sfd evs o = some t) : Cuts t := by
  have hs : ∀ c, Stays (s.net.conn c) → s.owed c = [] := fun c _ => owed_events hpc c
  unfold State.accept at hn
  split at hn
  · cases hn
  · obtain ⟨⟨r, net⟩, hr, rfl⟩ := Option.map_eq_some_iff.mp hn
    have hconn : net.conn = s.net.conn := by
      cases Net.addNewClient_accepts hr with
      | conn | eagain | error => rfl
    cases r with
    | none => exact h.goto hconn hs (by simp)
    | some cfd =>
      simp only [State.add]
      split
      · exact h.goto hconn hs (by simp)
      · exact h.goto hconn hs (by simp)

theorem read {fd : Int} {evs : List Int} {fails : Bool} (h : Cuts s)
    (hpc : s.pc = .events (fd :: evs)) (hn : s.read fd evs fails = some t) : Cuts t := by
  unfold State.read at hn
  obtain ⟨⟨r, net⟩, hr, rfl⟩ := Option.map_eq_some_iff.mp hn
  rcases Net.read_cases (by decide) hr with
    ⟨rfl, hr, -⟩ | ⟨c, b, bytes, hfd, hbytes, rfl, rfl, rfl⟩
  · have hskip : Cuts ({ s with net := s.net }.goto (.events evs)) :=
      h.goto rfl (fun c _ => owed_events hpc c) (by simp)
    rcases hr with rfl | ⟨e, rfl⟩
    · exact hskip
    · exact hskip
  · have hchunk : IsChunk (b :: bytes) := by
      refine ⟨List.cons_ne_nil b bytes, ?_⟩
      rw [← hbytes, List.length_take]
      exact Nat.lt_of_le_of_lt (Nat.min_le_left _ _) (by decide)
    have howed : ∀ d, State.owed ({ s with
        net := s.net.took c ((s.net.conn c).inbox.drop (bufferSize - 1)) }.goto
          (.echo fd (b :: bytes) evs)) d = if c = d then bytes else [] := by
      intro d
      show (if s.net.fds fd = some d then _ else _) = _
      simp only [hfd, Option.some.injEq]
      rfl
    intro d hstays
    rw [howed]
    by_cases hd : d = c
    · subst hd
      simp only [State.goto, Net.took, Net.setConn_self] at hstays ⊢
      have hcut := (h d hstays).next hchunk
      rw [owed_events hpc, List.append_nil] at hcut
      rw [Net.take_got, hbytes, if_pos trivial]
      exact hcut
    · simp only [State.goto, Net.took, Net.setConn_of_ne _ hd] at hstays ⊢
      have hcut := h d hstays
      rw [owed_events hpc] at hcut
      rwa [if_neg (Ne.symm hd)]

theorem echo {fd : Int} {bytes : List Byte} {evs : List Int} {error : Option Errno} (h : Cuts s)
    (hpc : s.pc = .echo fd bytes evs) (hn : s.echo fd bytes evs error = some t) : Cuts t := by
  have howed : ∀ d, s.owed d = if s.net.fds fd = some d then bytes.drop 1 else [] := by
    intro d
    unfold State.owed
    rw [hpc]
  unfold State.echo at hn
  obtain ⟨⟨r, net⟩, hr, rfl⟩ := Option.map_eq_some_iff.mp hn
  rcases Net.write_cases hr with ⟨rfl, rfl, c, hfd, rfl⟩ | ⟨e, rfl, rfl, rfl, c, hfd, hleft⟩ |
    ⟨e, rfl, rfl, rfl, hreset⟩
  · refine h.same fun d hstays => ?_
    by_cases hd : d = c
    · subst hd
      simp only [State.goto, Net.wrote, Net.setConn_self] at hstays ⊢
      refine ⟨hstays, trivial, ?_⟩
      rw [howed, if_pos hfd]
      exact List.append_nil _
    · have hne : s.net.fds fd ≠ some d := fun heq => hd (Option.some.inj (heq.symm.trans hfd))
      rw [howed, if_neg hne]
      simp only [State.goto, Net.wrote, Net.setConn_of_ne _ hd] at hstays ⊢
      exact ⟨hstays, trivial, rfl⟩
  · refine h.goto rfl (fun d hstays => ?_) (by simp)
    rw [howed, if_neg]
    intro heq
    cases hfd.symm.trans heq
    rw [hstays.1, hstays.2] at hleft
    simp at hleft
  · refine h.goto rfl (fun d hstays => ?_) (by simp)
    rw [howed, if_neg]
    intro heq
    cases hstays.2.symm.trans (hreset d heq)

theorem step (h : Cuts s) (hn : s.next sfd act = some t) : Cuts t := by
  unfold State.next at hn
  split at hn
  · obtain ⟨net, hnet, rfl⟩ := Option.map_eq_some_iff.mp hn
    exact h.peer hnet
  · rename_i evs hpc
    obtain ⟨epoll, -, rfl⟩ := Option.map_eq_some_iff.mp hn
    exact h.goto rfl (fun c _ => owed_events hpc c) (by simp)
  · rename_i o fd evs hpc
    split at hn
    · rename_i hfd
      rw [hfd] at hpc
      exact h.accept hpc hn
    · cases hn
  · rename_i fails fd evs hpc
    split at hn
    · cases hn
    · exact h.read hpc hn
  · rename_i error fd bytes evs hpc
    exact h.echo hpc hn
  · cases hn

theorem init (h : Start sfd s) : Cuts s := by
  intro c _
  rw [owed_events h.pc, h.net.conn c]
  exact ⟨[], by simp, rfl, rfl⟩

end Cuts

theorem cuts (h : (server κ sfd).Reach s) : Cuts s :=
  h.inv (I := Cuts) (fun _ hs => .init hs) fun _ _ _ _ hi hn => hi.step hn

/-- However the network cuts a stream, its echo is that of the chunks. -/
theorem echoed_chunks (h : (server κ sfd).Reach s) (ha : Answered s c x) :
    Cut x (s.net.conn c).out := by
  have hcut := cuts h c ha.stays
  have howed : s.owed c = [] := by
    unfold State.owed
    split
    · rename_i fd bytes evs hpc
      rw [if_neg (ha.echoed fd bytes evs hpc)]
    · rfl
  rwa [howed, List.append_nil, ha.got] at hcut

/-! ## Every way of cutting a stream -/

/-- The client is on descriptor 5. -/
structure Serves (s : State κ) (c : κ) (k : Conn) (pc : Pc) : Prop where
  reach : (server κ 3).Reach s
  pc : s.pc = pc
  fds : s.net.fds 5 = some c
  watched : 5 ∈ s.epoll.watched
  conn : s.net.conn c = k

theorem joined (c : κ) : ∃ s, Serves s c { Conn.unused with opened := true } (.events []) := by
  have hrun : ∃ s, (server κ 3).exec (.idle κ)
      [.peer (.connect 3 c), .wait [3], .accept (.conn 5)] = some s ∧ s.pc = .events [] ∧
        s.net.fds 5 = some c ∧ s.epoll.watched = [5, 3] ∧
          s.net.conn = Function.update (Net.idle κ).conn c { Conn.unused with opened := true } :=
    ⟨_, rfl, rfl, rfl, rfl, rfl⟩
  obtain ⟨s, hs, hpc, hfds, hwatched, hconn⟩ := hrun
  refine ⟨s, LTS.Reach.exec (.init idle_start) hs, hpc, hfds, ?_, ?_⟩
  · rw [hwatched]
    exact List.mem_cons_self
  · rw [hconn, Function.update_self]

namespace Serves

variable {k : Conn} {chunk : List Byte}

theorem send (h : Serves s c k (.events [])) (hk : k.connected = true) (hchunk : chunk ≠ []) :
    ∃ t, Serves t c { k with inbox := k.inbox ++ chunk } (.events []) ∧ t.epoll.armed 5 = true := by
  obtain ⟨net, hnet⟩ : ∃ net, net = s.net.setConn c { k with inbox := k.inbox ++ chunk } :=
    ⟨_, rfl⟩
  have hpeer : s.net.peer (.send c chunk) = some net := by
    have hconnected : (s.net.conn c).connected = true := by rw [h.conn, hk]
    rw [hnet, ← h.conn]
    exact if_pos hconnected
  have hnext : (server κ 3).next s (.peer (.send c chunk)) = some { s with
      net := net, epoll := s.epoll.arrive s.net (.send c chunk) } := by
    show (s.net.peer (.send c chunk)).map _ = _
    rw [hpeer]
    rfl
  refine ⟨_, ⟨h.reach.step hnext, h.pc, ?_, h.watched, ?_⟩, ?_⟩
  · rw [hnet]
    exact h.fds
  · rw [hnet]
    exact Net.setConn_self ..
  · unfold Epoll.arrive Epoll.arrives
    simp [h.fds, hchunk]

theorem wait (h : Serves s c k (.events [])) (hk : k.inbox ≠ []) (harmed : s.epoll.armed 5 = true) :
    ∃ t, Serves t c k (.events [5]) := by
  have hready : s.net.ready 5 = true := by
    unfold Net.ready
    rw [h.fds]
    simp [h.conn, hk]
  have hbatch : s.net.batch s.epoll.watched maxEvents [5] = true ∧
      ∀ fd ∈ [5], s.epoll.armed fd = true := by
    refine ⟨Net.batch_iff.mpr ⟨by simp, by decide, by simp, ?_⟩, by simpa using harmed⟩
    simpa using ⟨h.watched, hready⟩
  obtain ⟨epoll, hepoll⟩ : ∃ epoll, s.epoll.wait s.net maxEvents [5] = some epoll :=
    ⟨_, if_pos hbatch⟩
  have hnext : (server κ 3).next s (.wait [5]) =
      some ({ s with epoll := epoll }.goto (.events [5])) := by
    show State.next 3 s (.wait [5]) = _
    unfold State.next
    simp only [h.pc, hepoll, Option.map_some]
  refine ⟨_, h.reach.step hnext, rfl, h.fds, ?_, h.conn⟩
  simp only [State.goto, (Epoll.wait_spec hepoll).1]
  exact h.watched

theorem read (h : Serves s c k (.events [5])) (hk : k.inbox = chunk) (hchunk : IsChunk chunk) :
    ∃ t, Serves t c { k with got := k.got ++ chunk, inbox := [] } (.echo 5 chunk []) := by
  obtain ⟨first, bytes, rfl⟩ := List.exists_cons_of_ne_nil hchunk.1
  have hlen : (first :: bytes).length ≤ bufferSize - 1 := Nat.le_pred_of_lt hchunk.2
  have hread : s.net.read 5 (bufferSize - 1) false =
      some (.ok (first :: bytes), s.net.took c []) := by
    unfold Net.read
    rw [h.fds]
    simp only [h.conn, hk, List.take_of_length_le hlen, List.drop_of_length_le hlen]
    rfl
  have hnext : (server κ 3).next s (.read false) =
      some ({ s with net := s.net.took c [] }.goto (.echo 5 (first :: bytes) [])) := by
    show State.next 3 s (.read false) = _
    unfold State.next
    rw [h.pc]
    show (if (5 : Int) = 3 then none else s.read 5 [] false) = _
    rw [if_neg (by decide)]
    unfold State.read
    rw [hread]
    rfl
  refine ⟨_, h.reach.step hnext, rfl, h.fds, h.watched, ?_⟩
  refine (Net.setConn_self ..).trans ?_
  rw [h.conn]
  unfold Conn.take
  simp [hk]

theorem echo (h : Serves s c k (.echo 5 chunk [])) :
    ∃ t, Serves t c { k with out := k.out ++ chunk.drop 1 } (.events []) := by
  have hwrite : s.net.write 5 (chunk.drop 1) none = some (none, s.net.wrote c (chunk.drop 1)) := by
    unfold Net.write
    rw [h.fds]
  have hnext : (server κ 3).next s (.echo none) =
      some ({ s with net := s.net.wrote c (chunk.drop 1) }.goto (.events [])) := by
    show State.next 3 s (.echo none) = _
    unfold State.next
    simp only [h.pc, State.echo, hwrite, Option.map_some]
    rfl
  refine ⟨_, h.reach.step hnext, rfl, h.fds, h.watched, ?_⟩
  rw [← h.conn]
  exact Net.setConn_self ..

theorem next (h : Serves s c k (.events [])) (hk : k.connected = true) (hempty : k.inbox = [])
    (hchunk : IsChunk chunk) :
    ∃ t, Serves t c { k with got := k.got ++ chunk, out := k.out ++ chunk.drop 1 } (.events []) := by
  obtain ⟨u, hu, harmed⟩ := h.send hk hchunk.1
  rw [hempty, List.nil_append] at hu
  obtain ⟨v, hv⟩ := hu.wait hchunk.1 harmed
  obtain ⟨w, hw⟩ := hv.read rfl hchunk
  obtain ⟨t, ht⟩ := hw.echo
  refine ⟨t, ht.reach, ht.pc, ht.fds, ht.watched, ht.conn.trans ?_⟩
  rw [← hempty]

theorem chunks {chunks : List (List Byte)} (h : Serves s c k (.events [])) (hk : k.connected = true)
    (hempty : k.inbox = []) (hall : ∀ chunk ∈ chunks, IsChunk chunk) :
    ∃ t, Serves t c { k with
      got := k.got ++ chunks.flatten
      out := k.out ++ chunks.flatMap (List.drop 1) } (.events []) := by
  induction chunks generalizing s k with
  | nil =>
    refine ⟨s, h.reach, h.pc, h.fds, h.watched, h.conn.trans ?_⟩
    simp
  | cons chunk chunks ih =>
    obtain ⟨hchunk, hrest⟩ := List.forall_mem_cons.mp hall
    obtain ⟨u, hu⟩ := h.next hk hempty hchunk
    obtain ⟨t, ht⟩ := ih hu hk hempty hrest
    refine ⟨t, ht.reach, ht.pc, ht.fds, ht.watched, ht.conn.trans ?_⟩
    simp only [List.flatten_cons, List.flatMap_cons, List.append_assoc]

end Serves

theorem cut_run (c : κ) (h : Cut x y) :
    ∃ s, (server κ 3).Reach s ∧ Answered s c x ∧ (s.net.conn c).out = y := by
  obtain ⟨chunks, hall, rfl, rfl⟩ := h
  obtain ⟨u, hu⟩ := joined c
  obtain ⟨s, hs⟩ := hu.chunks rfl rfl hall
  refine ⟨s, hs.reach, ⟨?_, ?_, ?_, fun fd bytes evs hpc => ?_⟩, ?_⟩
  · rw [hs.conn]
    exact ⟨rfl, rfl⟩
  · rw [hs.conn]
    rfl
  · rw [hs.conn]
    rfl
  · cases hs.pc.symm.trans hpc
  · rw [hs.conn]
    rfl

/-- **Packet boundaries**: the echo of a stream does not depend on them if and only if the stream has
at most one byte. -/
theorem independent_iff (c : κ) (x : List Byte) : Independent c x ↔ x.length ≤ 1 := by
  constructor
  · intro h
    by_contra hlong
    match x, hlong with
    | [], hlong => exact hlong (Nat.zero_le _)
    | [_], hlong => exact hlong (Nat.le_refl _)
    | a :: b :: rest, _ =>
      obtain ⟨s, hs, hans, hout⟩ := cut_run c (Cut.bytes (a :: b :: rest))
      have hchunk : IsChunk [a, b] := ⟨by simp, by simp [bufferSize]⟩
      obtain ⟨s', hs', hans', hout'⟩ := cut_run c ((Cut.bytes rest).cons hchunk)
      have heq := h 3 s s' hs hs' hans hans'
      rw [hout, hout'] at heq
      cases heq
  · intro hshort sfd s s' hs hs' hans hans'
    rw [(echoed_chunks hs hans).short hshort, (echoed_chunks hs' hans').short hshort]

/-- **Two bytes**: echoed without the first one, or not at all. -/
theorem not_independent : ¬ Independent true [104, 105] := by
  intro h
  have hwhole : Cut [104, 105] [105] := ⟨[[104, 105]], by simp [IsChunk, bufferSize], rfl, rfl⟩
  obtain ⟨s, hs, hans, hout⟩ := cut_run true hwhole
  obtain ⟨s', hs', hans', hout'⟩ := cut_run true (Cut.bytes [104, 105])
  have heq := h 3 s s' hs hs' hans hans'
  rw [hout, hout'] at heq
  cases heq

end Ops.Logger
