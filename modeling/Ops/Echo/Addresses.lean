import Ops.Echo.Moves

/-!
# The table of addresses

The server ends at a client that it should refuse, and at one that leaves before it has sent its
address; an entry of `clients` is never cleared. As long as nobody leaves and every address is
right and free, the table says who is connected (`usable`).
-/

namespace Ops.Echo

open Posix

variable {κ : Type} [DecidableEq κ] {sfd : Int} {s t : State κ} {act : Act κ}

/-! ## What should hold -/

/-- The connection has introduced itself with the address of entry `k`. -/
def State.Introduced (s : State κ) (c : κ) (k : Fin MAX_CLIENTS) : Prop :=
  (s.net.conn c).got.head?.bind slot = some k

/-- The server has not ended, a refusal changes neither table, and an entry of `clients` is in use
exactly as long as its client is connected. -/
structure Usable (sfd : Int) (s : State κ) : Prop where
  running : ∀ why, s.pc ≠ .ended why
  refused : ∀ act t, s.next sfd act = some t → s.pc.refusing = true ∨ t.pc.refusing = true →
    t.clients = s.clients ∧ t.epoll.watched = s.epoll.watched
  table : ∀ k, s.clients k ≠ 0 ↔ ∃ c, s.Introduced c k ∧ (s.net.conn c).connected = true

/-- The client that is asked for its address. -/
def State.newcomer (s : State κ) : List κ :=
  match s.pc with
  | .address nfd _ => (s.net.fds nfd).toList
  | _ => []

/-- Nobody who has introduced itself leaves, `accept` does not fail, and the address of a client,
which is still connected then, is right and free. -/
def Fine (s : State κ) : Act κ → Prop
  | .peer (.close c) | .peer (.reset c) => ∀ k, s.net.fds (s.clients k) ≠ some c
  | .accept o => o ≠ .error
  | .address _ => ∀ c ∈ s.newcomer, (s.net.conn c).connected = true ∧
    ∃ k, (s.net.conn c).inbox.head?.bind slot = some k ∧ s.clients k = 0
  | _ => True

instance : ∀ act, Decidable (Fine s act)
  | .peer (.close _) | .peer (.reset _) => inferInstanceAs (Decidable (∀ _, _))
  | .accept _ => inferInstanceAs (Decidable (_ ≠ _))
  | .address _ => inferInstanceAs (Decidable (∀ c ∈ s.newcomer, _))
  | .peer (.connect _ _) | .peer (.send _ _) | .peer (.abort _ _) | .wait _ | .write _ | .read _
  | .echo _ => .isTrue trivial

/-! ## Refusals -/

theorem Moves.refused (h : Moves sfd s act t)
    (hr : s.pc.refusing = true ∨ t.pc.refusing = true) :
    t.clients = s.clients ∧ t.epoll.watched = s.epoll.watched := by
  have hother : s.pc.refusing = false → t.pc.refusing = false →
      t.clients = s.clients ∧ t.epoll.watched = s.epoll.watched := by
    intro hs ht
    rw [hs, ht] at hr
    simp at hr
  cases h with
  | peer => exact ⟨rfl, rfl⟩
  | wait hpc | accepted hpc | nothing hpc | read hpc | echoed hpc | unechoed hpc =>
    exact hother (by rw [hpc]; rfl) rfl
  | @introduced nfd evs rs c b rest hpc =>
    rcases assign_cases { s with net := s.net.took c rest } nfd evs b with
      ⟨heq, -⟩ | ⟨k, -, -, heq⟩
    · rw [heq]
      exact ⟨rfl, rfl⟩
    · rw [heq] at hother ⊢
      exact hother (by rw [hpc]; rfl) rfl
  | @welcomed nfd b evs ws c out hpc =>
    rcases add_cases { s with net := s.net.wrote c out } nfd evs with ⟨⟨why, heq⟩, -⟩ | heq
    · rw [heq]
      exact ⟨rfl, rfl⟩
    · rw [heq] at hother ⊢
      exact hother (by rw [hpc]; rfl) rfl
  | ended hfatal hok hpc hclients hepoll => exact ⟨hclients, by rw [hepoll]⟩

/-! ## The invariant -/

/-- The descriptor is in the table. -/
def State.Registered (s : State κ) (fd : Int) : Prop := fd ≠ 0 ∧ ∃ k, s.clients k = fd

/-- Where the events and the client of a step come from. -/
def State.Known (s : State κ) : Pc → Prop
  | .events evs => evs ⊆ s.epoll.watched
  | .address nfd evs => evs ⊆ s.epoll.watched ∧ nfd ∉ s.epoll.watched ∧ nfd ≠ 0 ∧
    ∃ c, s.net.fds nfd = some c ∧ (s.net.conn c).got = []
  | .welcome nfd _ evs => evs ⊆ s.epoll.watched ∧ nfd ∉ s.epoll.watched ∧ s.Registered nfd
  | .echo fd _ evs => evs ⊆ s.epoll.watched ∧ s.Registered fd
  | .refuse _ _ | .ended _ => False

/-- The table holds the connections that were read from, which are all connected. -/
structure Inv (sfd : Int) (s : State κ) : Prop where
  placed : Placed s
  listens : s.net.other sfd = true
  watched : ∀ fd ∈ s.epoll.watched, fd = sfd ∨ s.Registered fd
  entry : ∀ k, s.clients k ≠ 0 → ∃ c, s.net.fds (s.clients k) = some c ∧ s.Introduced c k ∧
    (s.net.conn c).connected = true
  read : ∀ c, (s.net.conn c).got ≠ [] → ∃ k, s.clients k ≠ 0 ∧ s.net.fds (s.clients k) = some c
  pc : s.Known s.pc

namespace Inv

omit [DecidableEq κ] in
theorem registered (h : Inv sfd s) {fd : Int} (hfd : s.Registered fd) :
    ∃ c, s.net.fds fd = some c ∧ (∃ k, s.Introduced c k) ∧ (s.net.conn c).connected = true := by
  obtain ⟨hne, k, rfl⟩ := hfd
  obtain ⟨c, hc, hk, hconnected⟩ := h.entry k hne
  exact ⟨c, hc, ⟨k, hk⟩, hconnected⟩

omit [DecidableEq κ] in
theorem table (h : Inv sfd s) (k : Fin MAX_CLIENTS) :
    s.clients k ≠ 0 ↔ ∃ c, s.Introduced c k ∧ (s.net.conn c).connected = true := by
  constructor
  · intro hk
    obtain ⟨c, -, hc⟩ := h.entry k hk
    exact ⟨c, hc⟩
  · rintro ⟨c, hc, -⟩
    have hgot : (s.net.conn c).got ≠ [] := by
      intro hempty
      unfold State.Introduced at hc
      rw [hempty] at hc
      cases hc
    obtain ⟨k', hk', hfd⟩ := h.read c hgot
    obtain ⟨d, hd, hintro, -⟩ := h.entry k' hk'
    cases hfd.symm.trans hd
    cases hintro.symm.trans hc
    exact hk'

/-- A transfer on a connection whose first byte stays as it was. -/
theorem setConn {c : κ} {k : Conn} {pc : Pc} (h : Inv sfd s)
    (hm : Placed ({ s with net := s.net.setConn c k }.goto pc))
    (hhead : k.got.head? = (s.net.conn c).got.head?)
    (hconnected : k.connected = (s.net.conn c).connected)
    (hpc : State.Known { s with net := s.net.setConn c k } pc) :
    Inv sfd ({ s with net := s.net.setConn c k }.goto pc) := by
  have hsame : ∀ d, ((s.net.setConn c k).conn d).got.head? = (s.net.conn d).got.head? ∧
      ((s.net.setConn c k).conn d).connected = (s.net.conn d).connected := by
    intro d
    by_cases hd : d = c
    · subst hd
      rw [Net.setConn_self]
      exact ⟨hhead, hconnected⟩
    · rw [Net.setConn_of_ne _ hd]
      exact ⟨rfl, rfl⟩
  refine ⟨hm, h.listens, h.watched, fun j hj => ?_, fun d hd => ?_, hpc⟩
  · obtain ⟨d, hd, hintro, hdconn⟩ := h.entry j hj
    refine ⟨d, hd, ?_, (hsame d).2.trans hdconn⟩
    show ((s.net.setConn c k).conn d).got.head?.bind slot = some j
    rw [(hsame d).1]
    exact hintro
  · refine h.read d fun hempty => hd ?_
    have hnone := (hsame d).1
    rw [hempty] at hnone
    exact List.head?_eq_none_iff.mp hnone

omit [DecidableEq κ] in
theorem goto {pc : Pc} (h : Inv sfd s) (hm : Placed (s.goto pc)) (hpc : s.Known pc) :
    Inv sfd (s.goto pc) :=
  ⟨hm, h.listens, h.watched, h.entry, h.read, hpc⟩

theorem peer {p : Peer κ} {net : Net κ} (h : Inv sfd s) (hfine : Fine s (.peer p))
    (hp : s.net.peer p = some net)
    (hm : Placed { s with net := net, epoll := s.epoll.arrive s.net p }) :
    Inv sfd { s with net := net, epoll := s.epoll.arrive s.net p } := by
  have hgrows := Net.peer_grows hp
  have hstay : ∀ k c, s.net.fds (s.clients k) = some c → (s.net.conn c).connected = true →
      (net.conn c).connected = true := by
    intro k c hc hconnected
    refine Net.peer_connected hp ?_ ?_ hconnected
    · rintro rfl
      exact hfine k hc
    · rintro rfl
      exact hfine k hc
  refine ⟨hm, ?_, h.watched, fun k hk => ?_, fun c hc => ?_, ?_⟩
  · simp only [hgrows.other]
    exact h.listens
  · obtain ⟨c, hc, hintro, hconnected⟩ := h.entry k hk
    refine ⟨c, by simp only [hgrows.fds]; exact hc, ?_, hstay k c hc hconnected⟩
    unfold State.Introduced
    rw [hgrows.got]
    exact hintro
  · simp only [hgrows.got] at hc
    simp only [hgrows.fds]
    exact h.read c hc
  · have hknown : ∀ pc, s.Known pc →
        State.Known { s with net := net, epoll := s.epoll.arrive s.net p } pc := by
      intro pc hpc
      cases pc with
      | address nfd evs =>
        obtain ⟨hevs, hnew, hne, c, hc, hgot⟩ := hpc
        exact ⟨hevs, hnew, hne, c, by simp only [hgrows.fds]; exact hc, by rw [hgrows.got, hgot]⟩
      | events evs | welcome nfd b evs | echo fd bytes evs => exact hpc
      | refuse nfd evs | ended why => exact hpc.elim
    exact hknown s.pc h.pc

theorem introduced {nfd : Int} {evs : List Int} {rs : List ReadOutcome} {c : κ} {b : Byte}
    {rest : List Byte} (h : Inv sfd s) (hfine : Fine s (.address rs)) (hpc : s.pc = .address nfd evs)
    (hfd : s.net.fds nfd = some c) (hinbox : (s.net.conn c).inbox = b :: rest)
    (hm : Placed (State.assign { s with net := s.net.took c rest } nfd evs b)) :
    Inv sfd (State.assign { s with net := s.net.took c rest } nfd evs b) := by
  have hknown := h.pc
  rw [hpc] at hknown
  obtain ⟨hevs, hnew, hne, d, hd, hgot⟩ := hknown
  cases hfd.symm.trans hd
  have hnewcomer : c ∈ s.newcomer := by
    unfold State.newcomer
    rw [hpc]
    simp [hfd]
  obtain ⟨hconnected, k, hk, hfree⟩ := hfine c hnewcomer
  have hslot : slot b = some k := by
    rwa [hinbox] at hk
  have htook : (s.net.conn c).take rest = { s.net.conn c with got := [b], inbox := rest } := by
    unfold Conn.take
    rw [hgot, hinbox]
    simp
  have hother : ∀ j, s.clients j ≠ 0 → j ≠ k := by
    rintro j hj rfl
    exact hj hfree
  rcases assign_cases { s with net := s.net.took c rest } nfd evs b with
    ⟨-, hused⟩ | ⟨k', hk', -, heq⟩
  · exact absurd hfree (hused k hslot)
  cases hslot.symm.trans hk'
  rw [heq] at hm ⊢
  have hentry : ∀ j, j ≠ k → Function.update s.clients k nfd j = s.clients j :=
    fun j hj => Function.update_of_ne hj ..
  have hself : Function.update s.clients k nfd k = nfd := Function.update_self ..
  refine ⟨hm, h.listens, fun fd hwatched => ?_, fun j hj => ?_, fun e he => ?_,
    hevs, hnew, hne, k, hself⟩
  · rcases h.watched fd hwatched with hlisten | ⟨hpos, j, rfl⟩
    · exact .inl hlisten
    · exact .inr ⟨hpos, j, hentry j (hother j hpos)⟩
  · by_cases hjk : j = k
    · subst hjk
      refine ⟨c, by simp only [State.goto, hself]; exact hfd, ?_, ?_⟩
      · show ((s.net.took c rest).conn c).got.head?.bind slot = some j
        rw [Net.took_conn, if_pos rfl, htook]
        exact hslot
      · show ((s.net.took c rest).conn c).connected = true
        rw [Net.took_conn, if_pos rfl, htook]
        exact hconnected
    · simp only [State.goto, hentry j hjk] at hj ⊢
      obtain ⟨e, he, hintro, heconn⟩ := h.entry j hj
      have hec : e ≠ c := by
        rintro rfl
        unfold State.Introduced at hintro
        rw [hgot] at hintro
        cases hintro
      refine ⟨e, he, ?_, ?_⟩
      · show ((s.net.took c rest).conn e).got.head?.bind slot = some j
        rw [Net.took_conn, if_neg hec]
        exact hintro
      · show ((s.net.took c rest).conn e).connected = true
        rw [Net.took_conn, if_neg hec]
        exact heconn
  · by_cases hec : e = c
    · subst hec
      exact ⟨k, by simp only [State.goto, hself]; exact hne, by simp only [State.goto, hself]; exact hfd⟩
    · have hgot' : (s.net.conn e).got ≠ [] := by
        have hread : ((s.net.took c rest).conn e).got ≠ [] := he
        rwa [Net.took_conn, if_neg hec] at hread
      obtain ⟨j, hj, hje⟩ := h.read e hgot'
      have hjk := hother j hj
      exact ⟨j, by simp only [State.goto, hentry j hjk]; exact hj,
        by simp only [State.goto, hentry j hjk]; exact hje⟩

theorem moves (h : Inv sfd s) (hfine : Fine s act) (hm : Moves sfd s act t) : Inv sfd t := by
  have hplaced := h.placed.moves hm
  have hpc := h.pc
  cases hm with
  | peer hp => exact h.peer hfine hp hplaced
  | @wait evs epoll _ hwait =>
    unfold Epoll.wait at hwait
    split at hwait
    · rename_i hbatch
      cases hwait
      obtain ⟨-, -, -, hevs⟩ := Net.batch_iff.mp hbatch.1
      exact ⟨hplaced, h.listens, h.watched, h.entry, h.read, fun fd hfd => (hevs fd hfd).1⟩
    · cases hwait
  | @accepted nfd evs c rest hs hback hpos hfree hother =>
    rw [hs] at hpc
    have hnew : nfd ∉ s.epoll.watched := by
      intro hmem
      rcases h.watched nfd hmem with rfl | hregistered
      · cases hother.symm.trans h.listens
      · obtain ⟨d, hd, -⟩ := h.registered hregistered
        cases hfree.symm.trans hd
    have hfds : ∀ fd d, s.net.fds fd = some d →
        Function.update s.net.fds nfd (some c) fd = some d := by
      intro fd d hd
      have hne : fd ≠ nfd := by
        rintro rfl
        cases hfree.symm.trans hd
      rwa [Function.update_of_ne hne]
    refine ⟨hplaced, h.listens, h.watched, fun k hk => ?_, fun d hd => ?_, ?_, hnew, ?_, c, ?_, ?_⟩
    · obtain ⟨d, hd, hrest⟩ := h.entry k hk
      exact ⟨d, hfds _ d hd, hrest⟩
    · obtain ⟨k, hk, hfd⟩ := h.read d hd
      exact ⟨k, hk, hfds _ d hfd⟩
    · exact fun fd hfd => hpc (List.mem_cons_of_mem _ hfd)
    · rintro rfl
      cases hother.symm.trans h.placed.net.zero
    · exact Function.update_self ..
    · -- a connection in the queue is on no descriptor
      by_contra hgot
      obtain ⟨k, -, hfd⟩ := h.read c hgot
      have hqueued : c ∈ s.net.backlog sfd := by
        rw [hback]
        exact List.mem_cons_self
      exact (h.placed.net.queued sfd c hqueued).2 _ hfd
  | introduced hs hfd hinbox => exact h.introduced hfine hs hfd hinbox hplaced
  | @welcomed nfd b evs ws c out hs hfd hout =>
    rw [hs] at hpc
    obtain ⟨hevs, hnew, hregistered⟩ := hpc
    have hwrote : Inv sfd ({ s with net := s.net.wrote c out }.goto (.welcome nfd b evs)) :=
      h.setConn ⟨h.placed.net.wrote c out, by rintro _ ⟨⟩; exact ⟨c, hfd⟩⟩ rfl rfl
        ⟨hevs, hnew, hregistered⟩
    rcases add_cases { s with net := s.net.wrote c out } nfd evs with ⟨-, hfails⟩ | heq
    · have hopen : (s.net.wrote c out).isOpen nfd = true := by
        unfold Net.isOpen
        show ((s.net.fds nfd).isSome || _) = true
        rw [hfd]
        rfl
      rcases hfails with hclosed | hmem
      · cases hopen.symm.trans hclosed
      · exact absurd hmem hnew
    · rw [heq] at hplaced ⊢
      refine ⟨hplaced, h.listens, fun fd hmem => ?_, hwrote.entry, hwrote.read,
        fun fd hmem => List.mem_cons_of_mem _ (hevs hmem)⟩
      rcases List.mem_cons.mp hmem with rfl | hmem
      · exact .inr hregistered
      · exact h.watched fd hmem
  | @nothing fd evs fails hs =>
    rw [hs] at hpc
    exact h.goto hplaced fun fd' hfd' => hpc (List.mem_cons_of_mem _ hfd')
  | @read fd evs c hs hne hfd hinbox =>
    rw [hs] at hpc
    have hregistered := (h.watched fd (hpc List.mem_cons_self)).resolve_left hne
    obtain ⟨d, hd, ⟨k, hintro⟩, -⟩ := h.registered hregistered
    cases hfd.symm.trans hd
    have hhead : ∀ more, ((s.net.conn c).got ++ more).head? = (s.net.conn c).got.head? := by
      intro more
      unfold State.Introduced at hintro
      cases hgot : (s.net.conn c).got with
      | nil =>
        rw [hgot] at hintro
        cases hintro
      | cons b got => rfl
    exact h.setConn hplaced (hhead _) rfl
      ⟨fun fd' hfd' => hpc (List.mem_cons_of_mem _ hfd'), hregistered⟩
  | @echoed fd bytes evs c hs hfd =>
    rw [hs] at hpc
    exact h.setConn hplaced rfl rfl hpc.1
  | @unechoed fd bytes evs e hs =>
    rw [hs] at hpc
    exact h.goto hplaced hpc.1
  | @ended act t why hfatal =>
    exfalso
    rcases hfatal with rfl | hrefusing | ⟨fd, hclient, haddress, hleft⟩
    · exact hfine rfl
    · cases hs : s.pc with
      | refuse nfd evs =>
        rw [hs] at hpc
        exact hpc
      | events | address | welcome | echo | ended =>
        rw [hs] at hrefusing
        cases hrefusing
    · have htalk : ∀ {c}, s.net.fds fd = some c → (s.net.conn c).connected = true → False := by
        intro c hc hconnected
        cases (hleft c hc).symm.trans hconnected
      cases hs : s.pc with
      | address nfd evs =>
        rw [hs] at hclient hpc
        cases hclient
        obtain ⟨rs, rfl⟩ := haddress evs hs
        obtain ⟨-, -, -, c, hc, -⟩ := hpc
        refine htalk hc (hfine c ?_).1
        unfold State.newcomer
        rw [hs]
        simp [hc]
      | welcome nfd b evs =>
        rw [hs] at hclient hpc
        cases hclient
        obtain ⟨c, hc, -, hconnected⟩ := h.registered hpc.2.2
        exact htalk hc hconnected
      | echo fd' bytes evs =>
        rw [hs] at hclient hpc
        cases hclient
        obtain ⟨c, hc, -, hconnected⟩ := h.registered hpc.2
        exact htalk hc hconnected
      | events | refuse | ended =>
        rw [hs] at hclient
        cases hclient

omit [DecidableEq κ] in
theorem init (h : Start sfd s) : Inv sfd s := by
  refine ⟨.init h, h.listens, fun fd hfd => ?_, fun k hk => absurd (h.clients k) hk,
    fun c hc => ?_, ?_⟩
  · rw [h.watched, List.mem_singleton] at hfd
    exact .inl hfd
  · rw [h.net.conn c] at hc
    exact absurd rfl hc
  · rw [h.pc]
    exact List.nil_subset _

theorem uses (h : Inv sfd s) : Usable sfd s := by
  refine ⟨fun why hs => ?_, fun act t hn hr => (next_moves h.placed hn).refused hr, h.table⟩
  have hpc := h.pc
  rw [hs] at hpc
  exact hpc

end Inv

/-- **A usable server**: as long as every step meets the condition, the server does not end, and its
table says who is connected. -/
theorem usable (h : (server κ sfd).ReachIf Fine s) : Usable sfd s :=
  (h.inv (I := Inv sfd) (fun _ hs => .init hs) fun _ _ _ _ hi hfine hn =>
    hi.moves hfine (next_moves hi.placed hn)).uses

/-! ## Runs -/

/-- Two clients with the addresses 1 and 8. -/
theorem usable_two : ∃ s,
    (server Bool 3).execIf Fine (.idle Bool) (joins true 49 5 ++ joins false 56 6) = some s ∧
      (s.clients 0, s.clients 7) = (5, 6) ∧ Usable 3 s := by
  have hrun : ((server Bool 3).execIf Fine (.idle Bool) (joins true 49 5 ++ joins false 56 6)).map
      (fun s => (s.clients 0, s.clients 7)) = some (5, 6) := by decide +kernel
  obtain ⟨s, hs, hclients⟩ := Option.map_eq_some_iff.mp hrun
  exact ⟨s, hs, hclients, usable (LTS.ReachIf.execIf (.init idle_start) hs)⟩

/-- **A refusal and a departure**: the second client with the address 1 ends the server, and after
the first one has left its entry is still in use. -/
theorem not_usable :
    (∃ s, (server Bool 3).Reach s ∧ s.pc = .ended .exited ∧ ¬ Usable 3 s) ∧
      ∃ s, (server Bool 3).Reach s ∧ s.pc = .events [] ∧ s.clients 0 = 5 ∧ ¬ Usable 3 s := by
  constructor
  · have hrun : ((server Bool 3).exec (.idle Bool) (joins true 49 5 ++ joins false 49 6)).map
        (·.pc) = some (.ended .exited) := by decide +kernel
    obtain ⟨s, hs, hpc⟩ := Option.map_eq_some_iff.mp hrun
    exact ⟨s, LTS.Reach.exec (.init idle_start) hs, hpc, fun h => h.running _ hpc⟩
  · have hrun : ((server Bool 3).exec (.idle Bool)
        (joins true 49 5 ++ [.peer (.close true), .wait [5], .read false])).map
        (fun s => ((s.pc, s.clients 0), ((s.net.conn true).connected,
          (s.net.conn false).connected))) = some ((.events [], 5), (false, false)) := by
      decide +kernel
    obtain ⟨s, hs, heq⟩ := Option.map_eq_some_iff.mp hrun
    simp only [Prod.mk.injEq] at heq
    obtain ⟨⟨hpc, hclients⟩, htrue, hfalse⟩ := heq
    refine ⟨s, LTS.Reach.exec (.init idle_start) hs, hpc, hclients, fun h => ?_⟩
    obtain ⟨c, -, hconnected⟩ := (h.table 0).mp (by rw [hclients]; decide)
    cases c with
    | true => cases htrue.symm.trans hconnected
    | false => cases hfalse.symm.trans hconnected

end Ops.Echo
