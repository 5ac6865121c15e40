import Ops.Echo.Moves

/-!
# Nothing is forgotten

An arrival is reported once, and answered with one `accept` or one `read` of at most 1023 bytes:
what that leaves waits for the next arrival. As long as it leaves nothing, or something has arrived
meanwhile, nothing is left when the server blocks in `epoll_wait` (`settled`).
-/

namespace Ops.Echo

open Posix

variable {κ : Type} [DecidableEq κ] {sfd : Int} {s t : State κ} {act : Act κ}

/-! ## What should hold -/

def State.Blocked (s : State κ) : Prop := s.pc = .events [] ∧ s.epoll.Blocks s.net

instance : Decidable s.Blocked := inferInstanceAs (Decidable (_ ∧ _))

/-- Nobody waits to be accepted, and what the clients have sent is read and echoed. -/
structure Settled (sfd : Int) (s : State κ) : Prop where
  queue : s.net.backlog sfd = []
  read : ∀ fd ∈ s.epoll.watched, ∀ c, s.net.fds fd = some c → (s.net.conn c).reset = false →
    (s.net.conn c).inbox = []
  echoed : ∀ fd ∈ s.epoll.watched, ∀ c, s.net.fds fd = some c → (s.net.conn c).reset = false →
    (s.net.conn c).out = (s.net.conn c).sent

def Pc.event : Pc → List Int
  | .events (fd :: _) => [fd]
  | _ => []

/-- A call takes everything, or there has been another arrival. -/
def Drained (s : State κ) : Act κ → Prop
  | .accept _ => ∀ l ∈ s.pc.event, (s.net.backlog l).length ≤ 1 ∨ s.epoll.armed l = true
  | .read _ => ∀ fd ∈ s.pc.event, ∀ c ∈ (s.net.fds fd).toList,
    (s.net.conn c).inbox.length < bufferSize ∨ s.epoll.armed fd = true
  | _ => True

instance : ∀ act, Decidable (Drained s act)
  | .accept _ => inferInstanceAs (Decidable (∀ l ∈ s.pc.event, _))
  | .read _ => inferInstanceAs (Decidable (∀ fd ∈ s.pc.event, ∀ c ∈ (s.net.fds fd).toList, _))
  | .peer _ | .wait _ | .address _ | .write _ | .echo _ => .isTrue trivial

/-! ## The invariant -/

def Pc.reported : Pc → List Int
  | .events evs | .address _ evs | .refuse _ evs | .welcome _ _ evs | .echo _ _ evs => evs
  | .ended _ => []

/-- What was read and is not echoed. -/
def Pc.owed (fd : Int) : Pc → List Byte
  | .welcome nfd b _ => if fd = nfd then [b] else []
  | .echo fd' bytes _ => if fd = fd' then bytes else []
  | _ => []

/-- The server has ended, or will without another `epoll_wait`. -/
def Pc.doomed : Pc → Bool
  | .refuse _ _ | .ended _ => true
  | _ => false

/-- What has arrived is reported, or will be. -/
structure Awake (sfd : Int) (s : State κ) : Prop where
  placed : Placed s
  listens : s.net.other sfd = true
  listening : sfd ∈ s.epoll.watched
  watched : ∀ fd ∈ s.epoll.watched, fd = sfd ∨ ∃ c, s.net.fds fd = some c
  queue : s.net.backlog sfd ≠ [] → s.epoll.armed sfd = true ∨ sfd ∈ s.pc.reported
  unread : ∀ fd ∈ s.epoll.watched, ∀ c, s.net.fds fd = some c → (s.net.conn c).reset = false →
    (s.net.conn c).inbox ≠ [] → s.epoll.armed fd = true ∨ fd ∈ s.pc.reported
  echoed : ∀ fd c, s.net.fds fd = some c → (s.net.conn c).reset = false →
    (s.net.conn c).out ++ s.pc.owed fd = (s.net.conn c).got
  fresh : ∀ c, (∀ fd, s.net.fds fd ≠ some c) → (s.net.conn c).got = [] ∧ (s.net.conn c).out = []
  asked : ∀ nfd evs, s.pc = .address nfd evs → ∀ c, s.net.fds nfd = some c →
    (s.net.conn c).got = [] ∧ (s.net.conn c).out = []

/-- The server is awake, or ends. -/
def Alert (sfd : Int) (s : State κ) : Prop := Placed s ∧ (s.pc.doomed = true ∨ Awake sfd s)

theorem doomed_moves (h : s.pc.doomed = true) (hm : Moves sfd s act t) : t.pc.doomed = true := by
  have hother : ∀ {pc : Pc}, s.pc = pc → pc.doomed = false → False := by
    intro pc hpc hfalse
    rw [hpc, hfalse] at h
    cases h
  cases hm with
  | peer => exact h
  | wait hpc | accepted hpc | introduced hpc | welcomed hpc | nothing hpc | read hpc | echoed hpc
  | unechoed hpc => exact (hother hpc rfl).elim
  | ended hfatal hok hpc =>
    rw [hpc]
    rfl

namespace Awake

omit [DecidableEq κ] in
theorem connection_ne (h : Awake sfd s) {fd : Int} {c : κ} (hfd : s.net.fds fd = some c) :
    fd ≠ sfd := by
  rintro rfl
  cases (h.placed.net.held _ c hfd).2.2.symm.trans h.listens

omit [DecidableEq κ] in
theorem settles (h : Awake sfd s) (hb : s.Blocked) : Settled sfd s := by
  obtain ⟨hpc, hblocks⟩ := hb
  have hfds : s.net.fds sfd = none := by
    by_contra hne
    obtain ⟨c, hc⟩ := Option.ne_none_iff_exists'.mp hne
    exact h.connection_ne hc rfl
  have harmed : ∀ {fd : Int}, s.epoll.armed fd = true ∨ fd ∈ s.pc.reported →
      s.epoll.armed fd = true := by
    intro fd hor
    rw [hpc] at hor
    exact hor.resolve_right (List.not_mem_nil)
  have hread : ∀ fd ∈ s.epoll.watched, ∀ c, s.net.fds fd = some c →
      (s.net.conn c).reset = false → (s.net.conn c).inbox = [] := fun fd hmem c hc hreset =>
    hblocks.inbox hmem hc fun hne => harmed (h.unread fd hmem c hc hreset hne)
  refine ⟨hblocks.queue h.listening hfds fun hne => harmed (h.queue hne), hread,
    fun fd hmem c hc hreset => ?_⟩
  have hout := h.echoed fd c hc hreset
  rw [hpc] at hout
  unfold Conn.sent
  rw [hread fd hmem c hc hreset, List.append_nil, ← hout]
  exact (List.append_nil _).symm

theorem peer {p : Peer κ} {net : Net κ} (h : Awake sfd s) (hp : s.net.peer p = some net)
    (hplaced : Placed { s with net := net, epoll := s.epoll.arrive s.net p }) :
    Awake sfd { s with net := net, epoll := s.epoll.arrive s.net p } := by
  have hgrows := Net.peer_grows hp
  have hreset : ∀ c, (net.conn c).reset = false → (s.net.conn c).reset = false := by
    intro c hc
    by_contra hne
    cases hc.symm.trans (hgrows.reset c (Bool.not_eq_false _ ▸ hne))
  have harmed : ∀ {fd : Int}, (s.epoll.armed fd = true ∨ fd ∈ s.pc.reported) ∨
      Epoll.arrives s.net fd p = true →
        (s.epoll.arrive s.net p).armed fd = true ∨ fd ∈ s.pc.reported := by
    intro fd hor
    unfold Epoll.arrive
    rw [Bool.or_eq_true]
    rcases hor with (harmed | hreported) | harrives
    · exact .inl (.inl harmed)
    · exact .inr hreported
    · exact .inl (.inr harrives)
  have hfds : ∀ {fd c}, net.fds fd = some c → s.net.fds fd = some c := by
    intro fd c hc
    rwa [hgrows.fds] at hc
  refine ⟨hplaced, by simp only [hgrows.other]; exact h.listens, h.listening, fun fd hmem => ?_,
    fun hqueue => ?_, fun fd hmem c hc hnew hunread => ?_, fun fd c hc hnew => ?_,
    fun c hc => ?_, fun nfd evs hpc c hc => ?_⟩
  · simp only [hgrows.fds]
    exact h.watched fd hmem
  · exact harmed ((Epoll.arrives_backlog hp hqueue).imp h.queue id)
  · exact harmed ((Epoll.arrives_inbox hp (hfds hc) hunread).imp
      (h.unread fd hmem c (hfds hc) (hreset c hnew)) id)
  · simp only [hgrows.out, hgrows.got]
    exact h.echoed fd c (hfds hc) (hreset c hnew)
  · simp only [hgrows.fds] at hc
    simp only [hgrows.out, hgrows.got]
    exact h.fresh c hc
  · simp only [hgrows.out, hgrows.got]
    exact h.asked nfd evs hpc c (hfds hc)

omit [DecidableEq κ] in
theorem wait {evs : List Int} {epoll : Epoll} (h : Awake sfd s) (hpc : s.pc = .events [])
    (hwait : s.epoll.wait s.net MAX_EVENTS evs = some epoll)
    (hplaced : Placed ({ s with epoll := epoll }.goto (.events evs))) :
    Awake sfd ({ s with epoll := epoll }.goto (.events evs)) := by
  obtain ⟨hwatched, -, harmed⟩ := Epoll.wait_spec hwait
  have hreported : ∀ {fd : Int}, s.epoll.armed fd = true ∨ fd ∈ s.pc.reported →
      epoll.armed fd = true ∨ fd ∈ evs := by
    intro fd hor
    rw [hpc] at hor
    exact harmed fd (hor.resolve_right List.not_mem_nil)
  refine ⟨hplaced, h.listens, by simp only [State.goto, hwatched]; exact h.listening,
    fun fd hmem => ?_, fun hqueue => hreported (h.queue hqueue), fun fd hmem c hc hnew hunread => ?_,
    fun fd c hc hnew => ?_, h.fresh, by rintro nfd evs' ⟨⟩⟩
  · simp only [State.goto, hwatched] at hmem
    exact h.watched fd hmem
  · simp only [State.goto, hwatched] at hmem
    exact hreported (h.unread fd hmem c hc hnew hunread)
  · have hout := h.echoed fd c hc hnew
    rw [hpc] at hout
    exact hout

omit [DecidableEq κ] in
theorem skip {pc : Pc} (h : Awake sfd s) (hplaced : Placed (s.goto pc))
    (hreported : ∀ fd ∈ s.pc.reported, fd ∈ pc.reported ∨ fd ≠ sfd ∧ ∀ c, s.net.fds fd = some c →
      (s.net.conn c).reset = true ∨ (s.net.conn c).inbox = [])
    (howed : ∀ fd c, s.net.fds fd = some c → (s.net.conn c).reset = false →
      pc.owed fd = s.pc.owed fd)
    (hasked : ∀ nfd evs, pc ≠ .address nfd evs) : Awake sfd (s.goto pc) := by
  refine ⟨hplaced, h.listens, h.listening, h.watched, fun hqueue => ?_,
    fun fd hmem c hc hnew hunread => ?_, fun fd c hc hnew => ?_, h.fresh,
    fun nfd evs hpc => absurd hpc (hasked nfd evs)⟩
  · rcases h.queue hqueue with harmed | hold
    · exact .inl harmed
    · exact .inr ((hreported sfd hold).resolve_right fun hne => hne.1 rfl)
  · rcases h.unread fd hmem c hc hnew hunread with harmed | hold
    · exact .inl harmed
    · refine .inr ((hreported fd hold).resolve_right fun hdone => ?_)
      rcases hdone.2 c hc with hreset | hempty
      · cases hnew.symm.trans hreset
      · exact hunread hempty
  · have hout := h.echoed fd c hc hnew
    rwa [← howed fd c hc hnew] at hout

theorem talk {fd : Int} {c : κ} {k : Conn} {pc : Pc} (h : Awake sfd s)
    (hfd : s.net.fds fd = some c) (hplaced : Placed ({ s with net := s.net.setConn c k }.goto pc))
    (hreset : k.reset = (s.net.conn c).reset)
    (hreported : ∀ fd' ∈ s.pc.reported, fd' ≠ fd → fd' ∈ pc.reported)
    (hunread : fd ∈ s.epoll.watched → k.reset = false → k.inbox ≠ [] →
      s.epoll.armed fd = true ∨ fd ∈ pc.reported)
    (hechoed : k.reset = false → k.out ++ pc.owed fd = k.got)
    (howed : ∀ fd', fd' ≠ fd → s.pc.owed fd' = [] ∧ pc.owed fd' = [])
    (hasked : ∀ nfd evs, pc ≠ .address nfd evs) :
    Awake sfd ({ s with net := s.net.setConn c k }.goto pc) := by
  have hother : ∀ {fd' d}, s.net.fds fd' = some d → fd' ≠ fd →
      (s.net.setConn c k).conn d = s.net.conn d := by
    intro fd' d hd hne
    refine Net.setConn_of_ne _ ?_ k
    rintro rfl
    exact hne (h.placed.net.inj fd' fd d hd hfd)
  refine ⟨hplaced, h.listens, h.listening, h.watched, fun hqueue => ?_,
    fun fd' hmem d hd hnew hne => ?_, fun fd' d hd hnew => ?_, fun d hd => ?_,
    fun nfd evs hpc => absurd hpc (hasked nfd evs)⟩
  · exact (h.queue hqueue).imp id fun hold => hreported sfd hold (h.connection_ne hfd).symm
  · by_cases heq : fd' = fd
    · subst heq
      cases hfd.symm.trans hd
      simp only [State.goto, Net.setConn_self] at hnew hne
      exact hunread hmem hnew hne
    · simp only [State.goto, hother hd heq] at hnew hne
      exact (h.unread fd' hmem d hd hnew hne).imp id fun hold => hreported fd' hold heq
  · by_cases heq : fd' = fd
    · subst heq
      cases hfd.symm.trans hd
      simp only [State.goto, Net.setConn_self] at hnew ⊢
      exact hechoed hnew
    · simp only [State.goto, hother hd heq] at hnew ⊢
      have hout := h.echoed fd' d hd hnew
      rw [(howed fd' heq).1] at hout
      rwa [(howed fd' heq).2]
  · have hdc : d ≠ c := by
      rintro rfl
      exact hd fd hfd
    simp only [State.goto, Net.setConn_of_ne _ hdc]
    exact h.fresh d hd

omit [DecidableEq κ] in
/-- A connection is taken from the queue: it is the last one there, or the socket is armed. -/
theorem accepted {nfd : Int} {evs : List Int} {c : κ} {rest : List κ} (h : Awake sfd s)
    (hpc : s.pc = .events (sfd :: evs)) (hback : s.net.backlog sfd = c :: rest)
    (hfree : s.net.fds nfd = none) (hdrained : rest = [] ∨ s.epoll.armed sfd = true)
    (hplaced : Placed ({ s with net := { s.net with
      backlog := Function.update s.net.backlog sfd rest
      fds := Function.update s.net.fds nfd (some c) } }.goto (.address nfd evs))) :
    Awake sfd ({ s with net := { s.net with
      backlog := Function.update s.net.backlog sfd rest
      fds := Function.update s.net.fds nfd (some c) } }.goto (.address nfd evs)) := by
  have hqueued : c ∈ s.net.backlog sfd := by
    rw [hback]
    exact List.mem_cons_self
  have hself : Function.update s.net.fds nfd (some c) nfd = some c := Function.update_self ..
  have hold : ∀ {fd d}, s.net.fds fd = some d → Function.update s.net.fds nfd (some c) fd = some d := by
    intro fd d hd
    rwa [Function.update_of_ne]
    rintro rfl
    cases hfree.symm.trans hd
  have hnew : ∀ {fd d}, Function.update s.net.fds nfd (some c) fd = some d →
      fd = nfd ∧ d = c ∨ s.net.fds fd = some d := by
    intro fd d hd
    by_cases hfd : fd = nfd
    · subst hfd
      exact .inl ⟨rfl, (Option.some.inj (hself.symm.trans hd)).symm⟩
    · rw [Function.update_of_ne hfd] at hd
      exact .inr hd
  have hc := h.fresh c (h.placed.net.queued sfd c hqueued).2
  refine ⟨hplaced, h.listens, h.listening, fun fd hmem => ?_, fun hqueue => ?_,
    fun fd hmem d hd hreset hunread => ?_, fun fd d hd hreset => ?_, fun d hd => ?_,
    fun nfd' evs' hpc' d hd => ?_⟩
  · exact (h.watched fd hmem).imp id fun ⟨d, hd⟩ => ⟨d, hold hd⟩
  · refine .inl (hdrained.resolve_left fun hempty => hqueue ?_)
    rw [hempty]
    exact Function.update_self ..
  · rcases hnew hd with ⟨rfl, rfl⟩ | hd'
    · -- the new descriptor is not watched yet
      rcases h.watched fd hmem with rfl | ⟨e, he⟩
      · have hopen := hplaced.net.held fd d hself
        cases hopen.2.2.symm.trans h.listens
      · cases hfree.symm.trans he
    · refine (h.unread fd hmem d hd' hreset hunread).imp id fun hreported => ?_
      rw [hpc] at hreported
      rcases List.mem_cons.mp hreported with heq | hrest
      · exact absurd heq (h.connection_ne hd')
      · exact hrest
  · rcases hnew hd with ⟨rfl, rfl⟩ | hd'
    · show (s.net.conn d).out ++ [] = (s.net.conn d).got
      rw [hc.1, hc.2, List.append_nil]
    · have hout := h.echoed fd d hd' hreset
      rw [hpc] at hout
      exact hout
  · exact h.fresh d fun fd hfd => hd fd (hold hfd)
  · cases hpc'
    cases hself.symm.trans hd
    exact hc

omit [DecidableEq κ] in
/-- A descriptor is watched from now on, and armed if there is something to read. -/
theorem add {nfd : Int} {c : κ} {epoll : Epoll} (h : Awake sfd s) (hfd : s.net.fds nfd = some c)
    (hepoll : epoll = ⟨nfd :: s.epoll.watched,
      Function.update s.epoll.armed nfd (s.net.ready nfd)⟩)
    (hplaced : Placed { s with epoll := epoll }) : Awake sfd { s with epoll := epoll } := by
  subst hepoll
  have harmed : ∀ {fd}, fd ≠ nfd → s.epoll.armed fd = true ∨ fd ∈ s.pc.reported →
      Function.update s.epoll.armed nfd (s.net.ready nfd) fd = true ∨ fd ∈ s.pc.reported := by
    intro fd hne hor
    rwa [Function.update_of_ne hne]
  refine ⟨hplaced, h.listens, List.mem_cons_of_mem _ h.listening, fun fd hmem => ?_,
    fun hqueue => harmed (h.connection_ne hfd).symm (h.queue hqueue),
    fun fd hmem d hd hreset hunread => ?_, h.echoed, h.fresh, h.asked⟩
  · rcases List.mem_cons.mp hmem with rfl | hmem
    · exact .inr ⟨c, hfd⟩
    · exact h.watched fd hmem
  · by_cases heq : fd = nfd
    · subst heq
      left
      show Function.update s.epoll.armed fd (s.net.ready fd) fd = true
      rw [Function.update_self]
      unfold Net.ready
      rw [hd]
      simp [hunread]
    · exact harmed heq (h.unread fd ((List.mem_cons.mp hmem).resolve_left heq) d hd hreset hunread)

theorem moves (h : Awake sfd s) (hdrained : Drained s act) (hm : Moves sfd s act t) :
    t.pc.doomed = true ∨ Awake sfd t := by
  have hplaced := h.placed.moves hm
  cases hm with
  | peer hp => exact .inr (h.peer hp hplaced)
  | wait hpc hwait => exact .inr (h.wait hpc hwait hplaced)
  | @accepted nfd evs c rest hpc hback hpos hfree =>
    refine .inr (h.accepted hpc hback hfree ?_ hplaced)
    refine (hdrained sfd (by rw [hpc]; exact List.mem_cons_self)).imp (fun hlen => ?_) id
    rw [hback, List.length_cons] at hlen
    exact List.eq_nil_of_length_eq_zero (by omega)
  | @introduced nfd evs rs c b rest hpc hfd hinbox =>
    rcases assign_cases { s with net := s.net.took c rest } nfd evs b with
      ⟨heq, -⟩ | ⟨k, -, -, heq⟩
    · rw [heq]
      exact .inl rfl
    · rw [heq] at hplaced ⊢
      right
      obtain ⟨hgot, hout⟩ := h.asked nfd evs hpc c hfd
      have htook : (s.net.conn c).take rest = { s.net.conn c with got := [b], inbox := rest } := by
        unfold Conn.take
        rw [hgot, hinbox]
        simp
      have hwelcome : Awake sfd ({ s with net := s.net.took c rest }.goto (.welcome nfd b evs)) := by
        refine h.talk hfd ⟨hplaced.net, hplaced.client⟩ rfl (fun fd hmem _ => ?_)
          (fun hmem hreset _ => ?_) (fun _ => ?_) (fun fd hne => ?_) (by simp)
        · rwa [hpc] at hmem
        · have hunread := h.unread nfd hmem c hfd hreset (by rw [hinbox]; simp)
          rwa [hpc] at hunread
        · rw [htook]
          show (s.net.conn c).out ++ (if nfd = nfd then [b] else []) = [b]
          rw [hout, if_pos rfl]
          rfl
        · rw [hpc]
          exact ⟨rfl, if_neg hne⟩
      exact ⟨hplaced, hwelcome.listens, hwelcome.listening, hwelcome.watched, hwelcome.queue,
        hwelcome.unread, hwelcome.echoed, hwelcome.fresh, hwelcome.asked⟩
  | @welcomed nfd b evs ws c out hpc hfd hout =>
    rcases add_cases { s with net := s.net.wrote c out } nfd evs with ⟨⟨why, heq⟩, -⟩ | heq
    · rw [heq]
      exact .inl rfl
    · rw [heq] at hplaced ⊢
      have hwrote : Awake sfd ({ s with net := s.net.wrote c out }.goto (.events evs)) := by
        refine h.talk hfd (.events hplaced.net rfl) rfl (fun fd hmem _ => ?_)
          (fun hmem hreset hunread => ?_) (fun hreset => ?_) (fun fd hne => ?_) (by simp)
        · rwa [hpc] at hmem
        · have hold := h.unread nfd hmem c hfd hreset hunread
          rwa [hpc] at hold
        · have hold := h.echoed nfd c hfd hreset
          rw [hpc] at hold
          have hbyte : out = [b] := by
            refine hout.resolve_right fun hlost => ?_
            cases hreset.symm.trans hlost
          rw [hbyte]
          refine (List.append_nil _).trans (Eq.trans ?_ hold)
          simp [Pc.owed]
        · rw [hpc]
          exact ⟨if_neg hne, rfl⟩
      exact .inr (hwrote.add hfd rfl hplaced)
  | @nothing fd evs fails hpc hne hempty =>
    refine .inr (h.skip hplaced (fun fd' hmem => ?_) (fun _ _ _ _ => ?_) (by simp))
    · rw [hpc] at hmem
      rcases List.mem_cons.mp hmem with rfl | hmem
      · exact .inr ⟨hne, fun c hc => (hempty c hc).imp id And.left⟩
      · exact .inl hmem
    · rw [hpc]
      rfl
  | @read fd evs c hpc hne hfd hinbox =>
    refine .inr (h.talk hfd hplaced rfl (fun fd' hmem hfd' => ?_) (fun _ _ hunread => ?_)
      (fun hreset => ?_) (fun fd' hfd' => ?_) (by simp))
    · rw [hpc] at hmem
      exact (List.mem_cons.mp hmem).resolve_left hfd'
    · have hshort := hdrained fd (by rw [hpc]; exact List.mem_cons_self) c (by simp [hfd])
      refine .inl (hshort.resolve_left fun hlen => hunread ?_)
      exact List.drop_of_length_le (Nat.le_pred_of_lt hlen)
    · have hold := h.echoed fd c hfd hreset
      rw [hpc] at hold
      have hout : (s.net.conn c).out = (s.net.conn c).got := (List.append_nil _).symm.trans hold
      show (s.net.conn c).out ++ (if fd = fd then _ else []) = _
      rw [if_pos rfl, Net.take_got, hout]
    · rw [hpc]
      exact ⟨rfl, if_neg hfd'⟩
  | @echoed fd bytes evs c hpc hfd =>
    refine .inr (h.talk hfd hplaced rfl (fun fd' hmem _ => ?_) (fun hmem hreset hunread => ?_)
      (fun hreset => ?_) (fun fd' hfd' => ?_) (by simp))
    · rwa [hpc] at hmem
    · have hold := h.unread fd hmem c hfd hreset hunread
      rwa [hpc] at hold
    · have hold := h.echoed fd c hfd hreset
      rw [hpc] at hold
      refine (List.append_nil _).trans (Eq.trans ?_ hold)
      simp [Pc.owed]
    · rw [hpc]
      exact ⟨if_neg hfd', rfl⟩
  | @unechoed fd bytes evs e hpc hreset =>
    refine .inr (h.skip hplaced (fun fd' hmem => ?_) (fun fd' d hd hnew => ?_) (by simp))
    · rw [hpc] at hmem
      exact .inl hmem
    · rw [hpc]
      refine (if_neg ?_).symm
      rintro rfl
      cases hnew.symm.trans (hreset d hd)
  | ended hfatal hok hpc =>
    left
    rw [hpc]
    rfl

omit [DecidableEq κ] in
theorem init (h : Start sfd s) : Awake sfd s := by
  have hbacklog : s.net.backlog sfd = [] := h.net.backlog sfd
  have hfds : ∀ {fd c}, s.net.fds fd ≠ some c := by
    intro fd c hc
    cases (h.net.fds fd).symm.trans hc
  refine ⟨.init h, h.listens, by rw [h.watched]; exact List.mem_cons_self, fun fd hmem => ?_,
    fun hne => absurd hbacklog hne, fun fd _ c hc => absurd hc hfds, fun fd c hc => absurd hc hfds,
    fun c _ => ?_, fun nfd evs _ c hc => absurd hc hfds⟩
  · rw [h.watched, List.mem_singleton] at hmem
    exact .inl hmem
  · rw [h.net.conn c]
    exact ⟨rfl, rfl⟩

end Awake

theorem Alert.step (h : Alert sfd s) (hdrained : Drained s act) (hn : s.next sfd act = some t) :
    Alert sfd t := by
  obtain ⟨hplaced, hor⟩ := h
  have hm := next_moves hplaced hn
  refine ⟨hplaced.moves hm, ?_⟩
  rcases hor with hdoomed | hawake
  · exact .inl (doomed_moves hdoomed hm)
  · exact hawake.moves hdrained hm

/-- **Nothing is forgotten**: as long as every step meets the condition, nobody waits and nothing is
unread or not echoed when the server blocks. -/
theorem settled (h : (server κ sfd).ReachIf Drained s) (hb : s.Blocked) : Settled sfd s := by
  have halert : Alert sfd s := h.inv (I := Alert sfd) (fun _ hs => ⟨.init hs, .inr (.init hs)⟩)
    fun _ _ _ _ hi hd hn => hi.step hd hn
  rcases halert.2 with hdoomed | hawake
  · rw [hb.1] at hdoomed
    cases hdoomed
  · exact hawake.settles hb

/-! ## Runs -/

/-- The client with the address 1 sends two bytes, which are echoed. -/
theorem settled_two : ∃ s, (server Bool 3).execIf Drained (.idle Bool) (joins true 49 5 ++
    [.peer (.send true [104, 105]), .wait [5], .read false, .echo none]) = some s ∧
      (s.net.conn true).out = [49, 104, 105] ∧ Settled 3 s := by
  have hrun : ((server Bool 3).execIf Drained (.idle Bool) (joins true 49 5 ++
      [.peer (.send true [104, 105]), .wait [5], .read false, .echo none])).map
      (fun s => ((s.net.conn true).out, decide s.Blocked)) = some ([49, 104, 105], true) := by
    decide +kernel
  obtain ⟨s, hs, heq⟩ := Option.map_eq_some_iff.mp hrun
  simp only [Prod.mk.injEq, decide_eq_true_eq] at heq
  exact ⟨s, hs, heq.1, settled (LTS.ReachIf.execIf (.init idle_start) hs) heq.2⟩

/-- Two clients connect before the first event is reported. -/
def together : List (Act Bool) :=
  [.peer (.connect 3 true), .peer (.connect 3 false), .peer (.send true [49]), .wait [3],
    .accept (.conn 5), .address [.data 0], .write [.wrote 0]]

/-- A client sends 1024 bytes at once. -/
def tooMuch : List (Act Bool) :=
  joins true 49 5 ++
    [.peer (.send true (List.replicate 1024 7)), .wait [5], .read false, .echo none]

/-- **Two connections in one event, and 1024 bytes in one event**: the second connection and the
last byte are forgotten. -/
theorem not_settled :
    (∃ s, (server Bool 3).Reach s ∧ s.Blocked ∧ s.net.backlog 3 = [false] ∧ ¬ Settled 3 s) ∧
      ∃ s, (server Bool 3).Reach s ∧ s.Blocked ∧ (s.net.conn true).inbox = [7] ∧
        ¬ Settled 3 s := by
  constructor
  · have hrun : ((server Bool 3).exec (.idle Bool) together).map
        (fun s => (s.net.backlog 3, decide s.Blocked)) = some ([false], true) := by
      decide +kernel
    obtain ⟨s, hs, heq⟩ := Option.map_eq_some_iff.mp hrun
    simp only [Prod.mk.injEq, decide_eq_true_eq] at heq
    refine ⟨s, LTS.Reach.exec (.init idle_start) hs, heq.2, heq.1, fun h => ?_⟩
    cases h.queue.symm.trans heq.1
  · have hrun : ((server Bool 3).exec (.idle Bool) tooMuch).map
        (fun s => ((s.net.conn true).inbox, decide s.Blocked, decide ((5 : Int) ∈ s.epoll.watched),
          decide (s.net.fds 5 = some true), (s.net.conn true).reset)) =
        some ([7], true, true, true, false) := by
      decide +kernel
    obtain ⟨s, hs, heq⟩ := Option.map_eq_some_iff.mp hrun
    simp only [Prod.mk.injEq, decide_eq_true_eq] at heq
    obtain ⟨hinbox, hblocked, hwatched, hfd, hreset⟩ := heq
    refine ⟨s, LTS.Reach.exec (.init idle_start) hs, hblocked, hinbox, fun h => ?_⟩
    cases (h.read 5 hwatched true hfd hreset).symm.trans hinbox

end Ops.Echo
