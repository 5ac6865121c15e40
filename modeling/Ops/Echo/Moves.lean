import Ops.Echo.Process

/-!
# The steps of the addressed echo server

`Moves` lists what a step can do. It ends the server only where it is `Fatal`.
-/

namespace Ops.Echo

open Posix

variable {κ : Type} [DecidableEq κ] {sfd : Int} {s t : State κ} {act : Act κ}

def Pc.client : Pc → Option Int
  | .address nfd _ | .welcome nfd _ _ | .echo nfd _ _ => some nfd
  | .events _ | .refuse _ _ | .ended _ => none

def Pc.refusing : Pc → Bool
  | .refuse _ _ => true
  | _ => false

/-- What can end the server: `accept` fails, a client is refused, or has left. -/
def Fatal (s : State κ) (act : Act κ) : Prop :=
  act = .accept .error ∨ s.pc.refusing = true ∨
    ∃ fd, s.pc.client = some fd ∧ (∀ evs, s.pc = .address fd evs → ∃ rs, act = .address rs) ∧
      ∀ c, s.net.fds fd = some c → (s.net.conn c).connected = false

inductive Moves (sfd : Int) (s : State κ) : Act κ → State κ → Prop where
  | peer {p : Peer κ} {net : Net κ} : s.net.peer p = some net →
      Moves sfd s (.peer p) { s with net := net, epoll := s.epoll.arrive s.net p }
  | wait {evs : List Int} {epoll : Epoll} : s.pc = .events [] →
      s.epoll.wait s.net MAX_EVENTS evs = some epoll →
      Moves sfd s (.wait evs) ({ s with epoll := epoll }.goto (.events evs))
  | accepted {nfd : Int} {evs : List Int} {c : κ} {rest : List κ} : s.pc = .events (sfd :: evs) →
      s.net.backlog sfd = c :: rest → 0 ≤ nfd → s.net.fds nfd = none → s.net.other nfd = false →
      Moves sfd s (.accept (.conn nfd)) ({ s with net := { s.net with
        backlog := Function.update s.net.backlog sfd rest
        fds := Function.update s.net.fds nfd (some c) } }.goto (.address nfd evs))
  | introduced {nfd : Int} {evs : List Int} {rs : List ReadOutcome} {c : κ} {b : Byte}
      {rest : List Byte} : s.pc = .address nfd evs → s.net.fds nfd = some c →
      (s.net.conn c).inbox = b :: rest →
      Moves sfd s (.address rs) (State.assign { s with net := s.net.took c rest } nfd evs b)
  | welcomed {nfd : Int} {b : Byte} {evs : List Int} {ws : List WriteOutcome} {c : κ}
      {out : List Byte} : s.pc = .welcome nfd b evs → s.net.fds nfd = some c →
      out = [b] ∨ (s.net.conn c).reset = true →
      Moves sfd s (.write ws) (State.add { s with net := s.net.wrote c out } nfd evs)
  | nothing {fd : Int} {evs : List Int} {fails : Bool} : s.pc = .events (fd :: evs) → fd ≠ sfd →
      (∀ c, s.net.fds fd = some c →
        (s.net.conn c).reset = true ∨ (s.net.conn c).inbox = [] ∧ (s.net.conn c).eof = true) →
      Moves sfd s (.read fails) (s.goto (.events evs))
  | read {fd : Int} {evs : List Int} {c : κ} : s.pc = .events (fd :: evs) → fd ≠ sfd →
      s.net.fds fd = some c → (s.net.conn c).inbox ≠ [] →
      Moves sfd s (.read false)
        ({ s with net := s.net.took c ((s.net.conn c).inbox.drop (bufferSize - 1)) }.goto
          (.echo fd ((s.net.conn c).inbox.take (bufferSize - 1)) evs))
  | echoed {fd : Int} {bytes : List Byte} {evs : List Int} {c : κ} : s.pc = .echo fd bytes evs →
      s.net.fds fd = some c →
      Moves sfd s (.echo none) ({ s with net := s.net.wrote c bytes }.goto (.events evs))
  | unechoed {fd : Int} {bytes : List Byte} {evs : List Int} {e : Errno} :
      s.pc = .echo fd bytes evs → (∀ c, s.net.fds fd = some c → (s.net.conn c).reset = true) →
      Moves sfd s (.echo (some e)) (s.goto (.events evs))
  | ended {act : Act κ} {t : State κ} {why : Stop} : Fatal s act → t.net.Ok → t.pc = .ended why →
      t.clients = s.clients → t.epoll = s.epoll → Moves sfd s act t

/-- The server talks to a connection. -/
structure Placed (s : State κ) : Prop where
  net : s.net.Ok
  client : ∀ fd, s.pc.client = some fd → ∃ c, s.net.fds fd = some c

/-! ## The calls -/

theorem accept_moves {evs : List Int} {o : AcceptOutcome} (h : s.net.Ok)
    (hpc : s.pc = .events (sfd :: evs)) (hn : s.accept sfd evs o = some t) :
    Moves sfd s (.accept o) t := by
  unfold State.accept at hn
  split at hn
  · cases hn
  · rename_i hblocks
    obtain ⟨⟨r, net⟩, hr, rfl⟩ := Option.map_eq_some_iff.mp hn
    cases Net.addNewClient_accepts hr with
    | conn hback hpos hfree hother => exact .accepted hpc hback hpos hfree hother
    | eagain => exact absurd rfl hblocks
    | error => exact .ended (.inl rfl) ((Net.addNewClient_accepts hr).ok h) rfl rfl rfl

theorem left_moves {fd : Int} {why : Stop} (hclient : s.pc.client = some fd)
    (hact : ∀ evs, s.pc = .address fd evs → ∃ rs, act = .address rs)
    (hleft : ∀ c, s.net.fds fd = some c → (s.net.conn c).eof = true ∨ (s.net.conn c).reset = true)
    (hok : t.net.Ok) (hpc : t.pc = .ended why) (hclients : t.clients = s.clients)
    (hepoll : t.epoll = s.epoll) : Moves sfd s act t := by
  refine .ended (.inr (.inr ⟨fd, hclient, hact, fun c hc => ?_⟩)) hok hpc hclients hepoll
  refine Bool.eq_false_iff.mpr fun hconnected => ?_
  obtain ⟨-, heof, hreset⟩ := Net.connected_iff.mp hconnected
  have hgone := hleft c hc
  rw [heof, hreset] at hgone
  simp at hgone

theorem introduce_moves {nfd : Int} {evs : List Int} {rs : List ReadOutcome} (h : s.net.Ok)
    (hpc : s.pc = .address nfd evs) (hn : s.introduce nfd evs rs = some t) :
    Moves sfd s (.address rs) t := by
  have hclient : s.pc.client = some nfd := by
    rw [hpc]
    rfl
  have hgone : ∀ {u : State κ} {why : Stop} {c : κ}, s.net.fds nfd = some c →
      (s.net.conn c).eof = true ∨ (s.net.conn c).reset = true → u.net.Ok → u.pc = .ended why →
      u.clients = s.clients → u.epoll = s.epoll → Moves sfd s (.address rs) u := by
    intro u why c hc hleft
    refine left_moves hclient (fun _ _ => ⟨rs, rfl⟩) fun d hd => ?_
    cases hc.symm.trans hd
    exact hleft
  unfold State.introduce at hn
  cases hfd : s.net.fds nfd with
  | none =>
    rw [hfd] at hn
    cases hn
    refine left_moves hclient (fun _ _ => ⟨rs, rfl⟩) (fun d hd => ?_) h rfl rfl rfl
    cases hfd.symm.trans hd
  | some c =>
    rw [hfd] at hn
    simp only at hn
    split at hn
    · rename_i hreads
      obtain ⟨⟨ret, buf, rest⟩, hr, rfl⟩ := Option.map_eq_some_iff.mp hn
      rw [bulk_read_one] at hr
      cases ret with
      | error e =>
        exact hgone hfd (.inr (Net.reads_error hreads (bulkRead_error hr))) (h.took c rest) rfl rfl rfl
      | ok n =>
        obtain ⟨hlen, hbuf, hrest, heof⟩ := bulkRead_ok (Nat.zero_le _) hr
        unfold Conn.stream at hlen hbuf hrest heof
        cases hinbox : (s.net.conn c).inbox with
        | nil =>
          rw [hinbox] at hlen heof
          cases hlen
          exact hgone hfd (.inl (heof (by simp))) (h.took c rest) rfl rfl rfl
        | cons b more =>
          rw [hinbox] at hlen hbuf hrest
          simp only [List.take_succ_cons, List.take_zero, List.drop_succ_cons, List.drop_zero] at *
          cases hlen
          rw [hbuf, hrest]
          exact .introduced hpc hfd hinbox
    · cases hn

theorem bulk_write_cases {nfd : Int} {buf : List Byte} {ws : List WriteOutcome}
    {next : State κ → State κ} (hn : s.bulk_write nfd buf ws next = some t) :
    ∃ r net, s.net.bulkWrite nfd ws buf buf.length = some (r, net) ∧
      (r = .error .epipe ∧ t = { s with net := net }.goto (.ended .sigpipe) ∨
        r ≠ .error .epipe ∧ t = next { s with net := net }) := by
  unfold State.bulk_write at hn
  obtain ⟨⟨r, net⟩, hr, rfl⟩ := Option.map_eq_some_iff.mp hn
  refine ⟨r, net, hr, ?_⟩
  rcases r with (_ | _ | _) | n
  · exact .inr ⟨by simp, rfl⟩
  · exact .inl ⟨rfl, rfl⟩
  · exact .inr ⟨by simp, rfl⟩
  · exact .inr ⟨by simp, rfl⟩

omit [DecidableEq κ] in
theorem add_minus_one (h : s.net.Ok) (evs : List Int) :
    s.add (-1) evs = s.goto (.ended .exited) := by
  have hfds : s.net.fds (-1) = none := by
    by_contra hfd
    obtain ⟨c, hc⟩ := Option.ne_none_iff_exists'.mp hfd
    have hpos := (h.held _ c hc).2.1
    omega
  have hother : s.net.other (-1) = false := by
    by_contra hother
    have hpos := h.other (-1) (Bool.not_eq_false _ ▸ hother)
    omega
  unfold State.add Epoll.add
  rw [if_pos (.inl (Net.isOpen_false.mpr ⟨hfds, hother⟩))]

theorem refuse_moves {nfd : Int} {evs : List Int} {ws : List WriteOutcome} (h : s.net.Ok)
    (hpc : s.pc = .refuse nfd evs)
    (hn : (s.bulk_write nfd msg ws fun s => State.add { s with net := s.net.close nfd } (-1) evs) =
      some t) : Moves sfd s (.write ws) t := by
  have hfatal : Fatal s (.write ws) := .inr (.inl (by rw [hpc]; rfl))
  obtain ⟨r, net, hr, ⟨-, rfl⟩ | ⟨-, rfl⟩⟩ := bulk_write_cases hn
  · exact .ended hfatal (h.bulkWrite hr) rfl rfl rfl
  · have hok := (h.bulkWrite hr).close nfd
    rw [add_minus_one hok]
    exact .ended hfatal hok rfl rfl rfl

theorem welcome_moves {nfd : Int} {b : Byte} {evs : List Int} {ws : List WriteOutcome}
    (h : Placed s) (hpc : s.pc = .welcome nfd b evs)
    (hn : (s.bulk_write nfd [b] ws fun s => s.add nfd evs) = some t) :
    Moves sfd s (.write ws) t := by
  have hclient : s.pc.client = some nfd := by
    rw [hpc]
    rfl
  obtain ⟨r, net, hr, ht⟩ := bulk_write_cases hn
  obtain ⟨c, hfd⟩ := h.client nfd hclient
  obtain ⟨hwrites, out, hwrite, rfl⟩ := Net.bulkWrite_conn hfd hr
  cases r with
  | ok n =>
    obtain ⟨-, hout⟩ := bulkWrite_ok hwrite
    rcases ht with ⟨hepipe, -⟩ | ⟨-, rfl⟩
    · cases hepipe
    · exact .welcomed hpc hfd (.inl hout)
  | error e =>
    rcases Net.writes_error hwrites (bulkWrite_error hwrite) with ⟨rfl, hleft⟩ | ⟨rfl, hreset⟩
    · rcases ht with ⟨-, rfl⟩ | ⟨hne, -⟩
      · refine left_moves hclient (by rw [hpc]; simp) (fun d hd => ?_) (h.net.wrote c out) rfl
          rfl rfl
        cases hfd.symm.trans hd
        exact hleft
      · exact absurd rfl hne
    · rcases ht with ⟨hepipe, -⟩ | ⟨-, rfl⟩
      · cases hepipe
      · exact .welcomed hpc hfd (.inr hreset)

theorem read_moves {fd : Int} {evs : List Int} {fails : Bool} (hpc : s.pc = .events (fd :: evs))
    (hne : fd ≠ sfd) (hn : s.read fd evs fails = some t) : Moves sfd s (.read fails) t := by
  unfold State.read at hn
  obtain ⟨⟨r, net⟩, hr, rfl⟩ := Option.map_eq_some_iff.mp hn
  rcases Net.read_cases (by decide) hr with
    ⟨rfl, hr, hleft⟩ | ⟨c, b, bytes, hfd, hbytes, rfl, rfl, rfl⟩
  · have hnothing : Moves sfd s (.read fails) _ := .nothing hpc hne hleft
    rcases hr with rfl | ⟨e, rfl⟩
    · exact hnothing
    · exact hnothing
  · have hinbox : (s.net.conn c).inbox ≠ [] := by
      intro hempty
      rw [hempty, List.take_nil] at hbytes
      cases hbytes
    have hread := Moves.read hpc hne hfd hinbox
    rwa [hbytes] at hread

theorem echo_moves {fd : Int} {bytes : List Byte} {evs : List Int} {error : Option Errno}
    (h : s.net.Ok) (hpc : s.pc = .echo fd bytes evs) (hn : s.echo fd bytes evs error = some t) :
    Moves sfd s (.echo error) t := by
  have hclient : s.pc.client = some fd := by
    rw [hpc]
    rfl
  unfold State.echo at hn
  obtain ⟨⟨r, net⟩, hr, rfl⟩ := Option.map_eq_some_iff.mp hn
  rcases Net.write_cases hr with ⟨rfl, rfl, c, hfd, rfl⟩ | ⟨e, rfl, rfl, rfl, c, hfd, hleft⟩ |
    ⟨e, rfl, rfl, rfl, hreset⟩
  · exact .echoed hpc hfd
  · refine left_moves hclient (by rw [hpc]; simp) (fun d hd => ?_) h rfl rfl rfl
    cases hfd.symm.trans hd
    exact hleft
  · exact .unechoed hpc hreset

/-! ## All steps -/

theorem next_moves (h : Placed s) (hn : s.next sfd act = some t) : Moves sfd s act t := by
  unfold State.next at hn
  split at hn
  · obtain ⟨net, hnet, rfl⟩ := Option.map_eq_some_iff.mp hn
    exact .peer hnet
  · rename_i evs hpc
    obtain ⟨epoll, hepoll, rfl⟩ := Option.map_eq_some_iff.mp hn
    exact .wait hpc hepoll
  · rename_i o fd evs hpc
    split at hn
    · rename_i hfd
      subst hfd
      exact accept_moves h.net hpc hn
    · cases hn
  · rename_i rs nfd evs hpc
    exact introduce_moves h.net hpc hn
  · rename_i ws nfd evs hpc
    exact refuse_moves h.net hpc hn
  · rename_i ws nfd b evs hpc
    exact welcome_moves h hpc hn
  · rename_i fails fd evs hpc
    split at hn
    · cases hn
    · rename_i hne
      exact read_moves hpc hne hn
  · rename_i error fd bytes evs hpc
    exact echo_moves h.net hpc hn
  · cases hn

omit [DecidableEq κ] in
theorem add_cases (s : State κ) (nfd : Int) (evs : List Int) :
    (∃ why, s.add nfd evs = s.goto (.ended why)) ∧ (s.net.isOpen nfd = false ∨ nfd ∈ s.epoll.watched) ∨
      s.add nfd evs = { s with
        epoll := ⟨nfd :: s.epoll.watched, Function.update s.epoll.armed nfd (s.net.ready nfd)⟩
        }.goto (.events evs) := by
  unfold State.add Epoll.add
  by_cases hfails : s.net.isOpen nfd = false ∨ nfd ∈ s.epoll.watched
  · rw [if_pos hfails]
    exact .inl ⟨⟨_, rfl⟩, hfails⟩
  · rw [if_neg hfails]
    exact .inr rfl

omit [DecidableEq κ] in
theorem assign_cases (s : State κ) (nfd : Int) (evs : List Int) (b : Byte) :
    (s.assign nfd evs b = s.goto (.refuse nfd evs) ∧ ∀ k, slot b = some k → s.clients k ≠ 0) ∨
      ∃ k, slot b = some k ∧ s.clients k = 0 ∧ s.assign nfd evs b =
        { s with clients := Function.update s.clients k nfd }.goto (.welcome nfd b evs) := by
  unfold State.assign
  cases hslot : slot b with
  | none => exact .inl ⟨rfl, by simp⟩
  | some k =>
    simp only
    by_cases hused : s.clients k ≠ 0
    · rw [if_pos hused]
      refine .inl ⟨rfl, fun k' hk' => ?_⟩
      cases hk'
      exact hused
    · rw [if_neg hused]
      exact .inr ⟨k, rfl, not_not.mp hused, rfl⟩

namespace Placed

omit [DecidableEq κ] in
theorem events {t : State κ} {evs : List Int} (hok : t.net.Ok) (hpc : t.pc = .events evs) :
    Placed t := by
  refine ⟨hok, fun fd hfd => ?_⟩
  rw [hpc] at hfd
  cases hfd

theorem moves (h : Placed s) (hm : Moves sfd s act t) : Placed t := by
  cases hm with
  | peer hp =>
    refine ⟨h.net.peer hp, fun fd hfd => ?_⟩
    simp only [(Net.peer_grows hp).fds]
    exact h.client fd hfd
  | wait => exact .events h.net rfl
  | accepted hpc hback hpos hfree hother =>
    refine ⟨h.net.accept hback hpos hfree hother, fun fd hfd => ?_⟩
    cases hfd
    exact ⟨_, Function.update_self ..⟩
  | @introduced nfd evs rs c b rest hpc hfd hinbox =>
    have hok := h.net.took c rest
    rcases assign_cases { s with net := s.net.took c rest } nfd evs b with
      ⟨heq, -⟩ | ⟨k, -, -, heq⟩
    · rw [heq]
      exact ⟨hok, by simp [State.goto, Pc.client]⟩
    · rw [heq]
      refine ⟨hok, fun fd hclient => ?_⟩
      cases hclient
      exact ⟨c, hfd⟩
  | @welcomed nfd b evs ws c out hpc hfd hout =>
    have hok := h.net.wrote c out
    rcases add_cases { s with net := s.net.wrote c out } nfd evs with ⟨⟨why, heq⟩, -⟩ | heq
    · rw [heq]
      exact ⟨hok, by simp [State.goto, Pc.client]⟩
    · rw [heq]
      exact .events hok rfl
  | nothing | unechoed => exact .events h.net rfl
  | read hpc hne hfd =>
    refine ⟨h.net.took _ _, fun fd hclient => ?_⟩
    cases hclient
    exact ⟨_, hfd⟩
  | echoed => exact .events (h.net.wrote _ _) rfl
  | ended hfatal hok hpc =>
    refine ⟨hok, fun fd hfd => ?_⟩
    rw [hpc] at hfd
    cases hfd

omit [DecidableEq κ] in
theorem init (h : Start sfd s) : Placed s := .events h.net.ok h.pc

end Placed

end Ops.Echo
