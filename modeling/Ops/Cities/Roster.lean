import Ops.Cities.Frames

/-!
# Who is connected to the city server

A connection that was accepted is registered, unless its client is being greeted; after the end of
what a client sends nothing comes from it. As long as a frame that changes `cities` finds only live
connections in `clients` (`Told`), the server writes to no other socket.
-/

namespace Ops.Cities

open Posix

variable {κ : Type} [DecidableEq κ] {a : Args} {s t : State κ} {act : Act κ}
variable {cs fd : Int} {received : List Byte} {evs todo : List Int} {c : κ}

/-! ## The condition -/

/-- The client came before the first frame, and has not left. -/
def State.follower (s : State κ) (c : κ) : Bool := s.early c && (s.net.conn c).connected

/-- A socket whose client's end has not been read. -/
def State.Live (s : State κ) (fd : Int) : Prop := ∃ c ∈ s.net.fds fd, c ∉ s.left

instance : Decidable (s.Live fd) := inferInstanceAs (Decidable (∃ c ∈ s.net.fds fd, _))

/-- The order in `data` comes to all followers. None of them waits to be accepted. If the order is
in `cities` already, it was assigned by a frame, or there are no others; else the other entries of
`clients` are live sockets. -/
def Told (a : Args) (s : State κ) (client_socket : Int) : Prop :=
  ∀ e ∈ order s.data,
    (∀ c ∈ s.net.backlog a.tcp_listen_socket, s.follower c = false) ∧
    if s.cities e.1 = e.2 then
      s.assigned e.1 = true ∨
        ∀ fd ∈ s.registered, fd = client_socket ∨ ∀ c ∈ s.net.fds fd, s.follower c = false
    else ∀ fd ∈ s.clients, fd = 0 ∨ fd = client_socket ∨ s.Live fd

instance : Decidable (Told a s cs) := inferInstanceAs (Decidable (∀ e ∈ order s.data, _))

/-- The frame that a `bulk_write` has echoed. -/
def State.Tells (a : Args) (s : State κ) : Pc → Prop
  | .welcome cs _ _ => Told a (s.enter cs) cs
  | .echo cs _ _ => Told a s cs
  | .events _ | .greet _ _ | .broadcast _ _ _ _ | .ended => True

instance : ∀ pc, Decidable (s.Tells a pc)
  | .welcome cs _ _ => inferInstanceAs (Decidable (Told a (s.enter cs) cs))
  | .echo cs _ _ => inferInstanceAs (Decidable (Told a s cs))
  | .events _ | .greet _ _ | .broadcast _ _ _ _ | .ended => .isTrue trivial

/-- A client starts with a complete frame, and every order is `Told`. -/
def Heard (a : Args) (s : State κ) : Act κ → Prop
  | .read rs => Complete s (.read rs)
  | .write _ => s.Tells a s.pc
  | .peer _ | .pwait _ | .accept _ => True

instance : ∀ act, Decidable (Heard a s act)
  | .read rs => inferInstanceAs (Decidable (Complete s (.read rs)))
  | .write _ => inferInstanceAs (Decidable (s.Tells a s.pc))
  | .peer _ | .pwait _ | .accept _ => .isTrue trivial

/-! ## What holds between the steps -/

/-- The descriptor of a client that is not registered yet. -/
def Pc.newest : Pc → Option Int
  | .greet cs _ | .welcome cs _ _ => some cs
  | _ => none

/-- What the server writes to is live. -/
def State.Facing (s : State κ) : Pc → Prop
  | .welcome cs _ _ | .echo cs _ _ => s.started = true ∧ s.Live cs
  | .broadcast cs _ todo _ => (∃ fd rest, todo = fd :: rest ∧ fd ≠ 0 ∧ fd ≠ cs) ∧
    ∀ fd ∈ todo, fd = 0 ∨ fd = cs ∨ s.Live fd
  | .events _ | .greet _ _ | .ended => True

structure Roster (s : State κ) : Prop where
  held : ∀ fd c, s.net.fds fd = some c → fd ∈ s.registered ∨ s.pc.newest = some fd
  early : ∀ c, s.early c = true → (s.net.conn c).opened = true
  started : s.started = false → ∀ k, s.assigned k = false
  gone : ∀ c ∈ s.left, (s.net.conn c).inbox = [] ∧ (s.net.conn c).eof = true
  whole : ∀ c, (s.net.conn c).eof = false → (s.net.conn c).reset = false →
    dataSize ∣ (s.net.conn c).out.length
  facing : s.Facing s.pc

/-! ## Calls -/

theorem Sent.conn_eq {n n' : Net κ} {data : List Byte} (h : Sent n fd data n') (c : κ) :
    ∃ out, n'.conn c = { n.conn c with out := out } := by
  cases h with
  | conn => exact ⟨_, Net.wrote_conn ..⟩
  | other => exact ⟨_, rfl⟩

theorem Sent.backlog {n n' : Net κ} {data : List Byte} (h : Sent n fd data n') :
    n'.backlog = n.backlog := by
  cases h with
  | conn | other => rfl

theorem Sent.out {n n' : Net κ} {data : List Byte} (h : Sent n fd data n')
    (hfd : n.fds fd = some c) (hc : (n.conn c).connected = true) :
    (n'.conn c).out = (n.conn c).out ++ data := by
  cases h with
  | @conn d out hd hout =>
    cases hfd.symm.trans hd
    rw [Net.wrote_conn, if_pos rfl, hout hc]
  | other hnone => cases hfd.symm.trans hnone

theorem Sent.out_other {n n' : Net κ} {data : List Byte} (h : Sent n fd data n')
    (hfd : n.fds fd ≠ some c) : (n'.conn c).out = (n.conn c).out := by
  cases h with
  | @conn d out hd hout =>
    have hne : c ≠ d := fun hcd => hfd (hcd ▸ hd)
    rw [Net.wrote_conn, if_neg hne, List.append_nil]
  | other => rfl

theorem Sent.connected {n n' : Net κ} {data : List Byte} (h : Sent n fd data n') (c : κ) :
    (n'.conn c).connected = (n.conn c).connected := by
  obtain ⟨out, hout⟩ := h.conn_eq c
  rw [hout]
  rfl

theorem Told.sent {net : Net κ} {deeds : List (Deed κ)} {data : List Byte} (h : Told a s cs)
    (hs : Sent s.net fd data net) (hok : s.net.Ok) :
    Told a { s with net := net, deeds := deeds } cs := by
  obtain ⟨-, hfds, -⟩ := hs.same hok
  intro e he
  have hold := h e he
  unfold State.Live State.follower at *
  simp only [hfds, hs.backlog, hs.connected]
  exact hold

theorem Heard.welcomed {net : Net κ} {ws : List WriteOutcome} (h : Heard a s (.write ws))
    (hsane : Sane a s) (hpc : s.pc = .welcome cs received evs) (hs : Sent s.net cs s.data net) :
    Told a (State.enter { s.logged with net := net } cs) cs := by
  unfold Heard at h
  rw [hpc] at h
  rw [logged_eq]
  exact Told.sent (s := s.enter cs) h hs hsane.net

theorem Heard.echoed {net : Net κ} {ws : List WriteOutcome} (h : Heard a s (.write ws))
    (hsane : Sane a s) (hpc : s.pc = .echo cs received evs) (hs : Sent s.net cs s.data net) :
    Told a { s.logged with net := net } cs := by
  unfold Heard at h
  rw [hpc] at h
  rw [logged_eq]
  exact Told.sent h hs hsane.net

omit [DecidableEq κ] in
/-- `Facing` depends on no more of the sockets than their descriptors. -/
theorem facing_congr {net : Net κ} {early : κ → Bool} {deeds : List (Deed κ)} {pc : Pc}
    (h : s.Facing pc) (hfds : net.fds = s.net.fds) :
    State.Facing { s with net := net, early := early, deeds := deeds } pc := by
  cases pc with
  | events | greet | ended => trivial
  | welcome | echo | broadcast =>
    unfold State.Facing State.Live at *
    simp only [hfds]
    exact h

namespace Roster

omit [DecidableEq κ] in
theorem keep (h : Roster s) {pc : Pc} (hnewest : ∀ fd, s.pc.newest = some fd → pc.newest = some fd)
    (hfacing : s.Facing pc) : Roster (s.goto pc) :=
  ⟨fun fd c hc => (h.held fd c hc).imp id (hnewest fd), h.early, h.started, h.gone, h.whole, hfacing⟩

theorem peer {p : Peer κ} {net : Net κ} (h : Roster s) (hp : s.net.peer p = some net) :
    Roster { s with
      net := net
      early := fun c => s.early c ||
        (!s.started && decide (p = .connect a.tcp_listen_socket c)) } := by
  have hgrows := Net.peer_grows hp
  refine ⟨fun fd c hc => ?_, fun c hc => ?_, h.started, fun c hc => ?_, fun c heof hreset => ?_, ?_⟩
  · rw [hgrows.fds] at hc
    exact h.held fd c hc
  · simp only [Bool.or_eq_true, Bool.and_eq_true, decide_eq_true_eq] at hc
    rcases hc with hc | ⟨-, rfl⟩
    · exact hgrows.opened c (h.early c hc)
    · exact Net.connect_opened hp
  · obtain ⟨hinbox, heof⟩ := h.gone c hc
    exact ⟨(Net.peer_silent hp heof).trans hinbox, hgrows.eof c heof⟩
  · rw [hgrows.out]
    refine h.whole c (Bool.eq_false_iff.mpr fun h' => ?_) (Bool.eq_false_iff.mpr fun h' => ?_)
    · cases heof.symm.trans (hgrows.eof c h')
    · cases hreset.symm.trans (hgrows.reset c h')
  · exact facing_congr h.facing hgrows.fds

theorem wrote {net : Net κ} (h : Roster s) (hok : s.net.Ok)
    (hdata : s.data.length = dataSize) (hs : Sent s.net fd s.data net) :
    Roster { s.logged with net := net } := by
  obtain ⟨-, hfds, -⟩ := hs.same hok
  rw [logged_eq]
  refine ⟨fun fd c hc => ?_, fun c hc => ?_, h.started, fun c hc => ?_, fun c heof hreset => ?_, ?_⟩
  · rw [hfds] at hc
    exact h.held fd c hc
  · obtain ⟨out, hout⟩ := hs.conn_eq c
    simp only [hout]
    exact h.early c hc
  · obtain ⟨out, hout⟩ := hs.conn_eq c
    simp only [hout]
    exact h.gone c hc
  · obtain ⟨out, hout⟩ := hs.conn_eq c
    have hwhole := h.whole c (by simpa only [hout] using heof) (by simpa only [hout] using hreset)
    by_cases hfd : s.net.fds fd = some c
    · have hconnected : (s.net.conn c).connected = true :=
        Net.connected_iff.mpr ⟨(hok.held fd c hfd).1, by simpa only [hout] using heof,
          by simpa only [hout] using hreset⟩
      rw [hs.out hfd hconnected, List.length_append, hdata]
      exact Nat.dvd_add hwhole (Nat.dvd_refl _)
    · rw [hs.out_other hfd]
      exact hwhole
  · exact facing_congr h.facing hfds

omit [DecidableEq κ] in
theorem enter (h : Roster s) (hpc : s.pc = .welcome cs received evs)
    (hamount : s.clients_amount < s.clients.length) :
    Roster ((s.enter cs).goto (.echo cs received evs)) := by
  have hfacing := h.facing
  rw [hpc] at hfacing
  refine ⟨fun fd c hc => .inl ?_, h.early, h.started, h.gone, h.whole, hfacing⟩
  show fd ∈ (s.enter cs).registered
  rw [enter_registered cs hamount, List.mem_append, List.mem_singleton]
  refine (h.held fd c hc).imp id fun hnewest => ?_
  rw [hpc] at hnewest
  cases hnewest
  rfl

theorem process (h : Roster (s.goto (.echo cs received evs))) (htold : Told a s cs) :
    Roster (s.process cs received evs) := by
  have hheld : ∀ fd c, s.net.fds fd = some c → fd ∈ s.registered := fun fd c hc =>
    (h.held fd c hc).resolve_right (by simp [State.goto, Pc.newest])
  have hstarted : s.started = true := h.facing.1
  obtain ⟨pc, -, hshape⟩ := process_shape s cs received evs
  have hfacing : State.Facing (s.process cs received evs) (s.process cs received evs).pc := by
    rcases process_cases s cs received evs with ⟨-, heq⟩ | ⟨k, horder, ⟨-, heq⟩ | ⟨hne, heq⟩⟩
    · rw [heq]
      trivial
    · rw [heq]
      trivial
    · have hlive := (htold _ horder).2
      rw [if_neg hne] at hlive
      rw [heq]
      rcases broadcast_cases _ cs received evs s.clients with
        ⟨-, hgo⟩ | ⟨skipped, fd, rest, hclients, -, hzero, hcs, hgo⟩
      · rw [hgo]
        trivial
      · rw [hgo]
        refine ⟨⟨fd, rest, rfl, hzero, hcs⟩, fun fd' hfd' => hlive fd' ?_⟩
        rw [hclients]
        exact List.mem_append_right _ hfd'
  rw [hshape] at hfacing ⊢
  refine ⟨fun fd c hc => .inl (hheld fd c hc), h.early, fun hnot => ?_, h.gone, h.whole, hfacing⟩
  cases hstarted.symm.trans hnot

theorem got (h : Roster s) {pc : Pc} (heof : (s.net.conn c).inbox.length < dataSize →
      (s.net.conn c).eof = true) (hnewest : ∀ fd, s.pc.newest = some fd → pc.newest = some fd)
    (hfacing : (s.got c).Facing pc) : Roster ((s.got c).goto pc) := by
  refine ⟨fun fd d hd => (h.held fd d hd).imp id (hnewest fd), fun d hd => ?_, fun hnot => ?_,
    fun d hd => ?_, fun d hdeof hdreset => ?_, hfacing⟩
  · show ((s.net.took c _).conn d).opened = true
    rw [Net.took_opened]
    exact h.early d hd
  · exact h.started (Bool.or_eq_false_iff.mp hnot).1
  · show ((s.net.took c _).conn d).inbox = [] ∧ ((s.net.took c _).conn d).eof = true
    have hkept : d ∈ s.left ∨ d = c ∧ (s.net.conn c).inbox.length < dataSize := by
      unfold State.got State.goto at hd
      simp only at hd
      split at hd
      · exact .inl hd
      · rename_i hshort
        rw [List.length_take] at hshort
        rcases List.mem_append.mp hd with hd | hd
        · exact .inl hd
        · exact .inr ⟨List.mem_singleton.mp hd, by omega⟩
    rw [(Net.took_eof s.net c _ d).1, Net.took_conn]
    rcases hkept with hleft | ⟨rfl, hshort⟩
    · obtain ⟨hinbox, hdeof⟩ := h.gone d hleft
      refine ⟨?_, hdeof⟩
      split
      · rename_i hdc
        subst hdc
        show (s.net.conn d).inbox.drop dataSize = []
        rw [hinbox]
        rfl
      · exact hinbox
    · rw [if_pos rfl]
      exact ⟨List.drop_eq_nil_of_le (Nat.le_of_lt hshort), heof hshort⟩
  · show dataSize ∣ ((s.net.took c _).conn d).out.length
    rw [Net.took_out]
    exact h.whole d ((Net.took_eof s.net c _ d).1 ▸ hdeof) ((Net.took_eof s.net c _ d).2 ▸ hdreset)

theorem got_live (h : Roster s) (hfd : s.net.fds fd = some c)
    (hlen : (s.frame c).length = dataSize) : (s.got c).started = true ∧ (s.got c).Live fd := by
  unfold State.frame at hlen
  unfold State.got State.Live
  simp only [hlen]
  refine ⟨by simp, c, hfd, fun hmem => ?_⟩
  rw [if_pos trivial] at hmem
  rw [(h.gone c hmem).1] at hlen
  cases hlen

/-- The frame was echoed to a client that is registered then. -/
theorem welcomed {net : Net κ} (h : Roster s) (hsane : Sane a s)
    (hpc : s.pc = .welcome cs received evs) (hs : Sent s.net cs s.data net) :
    Roster ((State.enter { s.logged with net := net } cs).goto (.echo cs received evs)) := by
  have hwrote := h.wrote hsane.net hsane.data hs
  have hknown := hsane.pc
  rw [hpc] at hknown
  rw [logged_eq] at hwrote ⊢
  refine hwrote.enter hpc ?_
  show s.clients_amount < s.clients.length
  rw [hsane.clients]
  exact hknown.2.1

theorem echoed {net : Net κ} (h : Roster s) (hsane : Sane a s)
    (hpc : s.pc = .echo cs received evs) (hs : Sent s.net cs s.data net) :
    Roster (State.goto { s.logged with net := net } (.echo cs received evs)) := by
  have hwrote := h.wrote hsane.net hsane.data hs
  have hpc' : State.pc { s.logged with net := net } = .echo cs received evs :=
      (logged_pc s).trans hpc
  rw [goto_self hpc']
  exact hwrote

theorem moves (h : Roster s) (hsane : Sane a s) (hheard : Heard a s act) (hm : Moves a s act t) :
    t.pc = .ended ∨ Roster t := by
  have hfacing := h.facing
  cases hm with
  | peer hp => exact .inr (h.peer hp)
  | pwait hpc =>
    refine .inr (h.keep (fun fd hfd => ?_) trivial)
    rw [hpc] at hfd
    cases hfd
  | @accepted cs evs c rest hpc hroom hback hpos hfree hother =>
    refine .inr ⟨fun fd d hd => ?_, h.early, h.started, h.gone, h.whole, trivial⟩
    by_cases hfd : fd = cs
    · exact .inr (by rw [hfd]; rfl)
    · refine .inl ((h.held fd d ((Function.update_of_ne hfd ..).symm.trans hd)).resolve_right ?_)
      rw [hpc]
      simp [Pc.newest]
  | @surplus o cs evs net hpc hfull haccepts =>
    have hnone : ∀ fd d, s.net.fds fd = some d → fd ∈ s.registered := fun fd d hd =>
      (h.held fd d hd).resolve_right (by rw [hpc]; simp [Pc.newest])
    refine .inr ?_
    cases haccepts with
    | conn =>
      refine ⟨fun fd d hd => .inl ?_, h.early, h.started, h.gone, h.whole, trivial⟩
      obtain ⟨hne, hd⟩ := Net.close_some hd
      exact hnone fd d ((Function.update_of_ne hne ..).symm.trans hd)
    | eagain =>
      exact ⟨fun fd d hd => .inl (hnone fd d (Net.close_some hd).2), h.early, h.started, h.gone, h.whole,
        trivial⟩
  | vanished hpc =>
    refine .inr (h.keep (fun fd hfd => ?_) trivial)
    rw [hpc] at hfd
    cases hfd
  | @greeted cs evs rs c hpc hfd heof =>
    have hnewcomer : c ∈ s.newcomer := by
      unfold State.newcomer
      rw [hpc]
      simp [hfd]
    have hlen : (s.frame c).length = dataSize := by
      unfold State.frame
      rw [List.length_take, Nat.min_eq_left (hheard c hnewcomer)]
    refine .inr (h.got heof (fun fd hnewest => ?_) (h.got_live hfd hlen))
    rw [hpc] at hnewest
    exact hnewest
  | @message fd evs rs c hpc hmem hfd heof =>
    refine .inr (h.got heof (fun fd' hnewest => ?_) ?_)
    · rw [hpc] at hnewest
      cases hnewest
    · split
      · rename_i hlen
        exact h.got_live hfd hlen
      · trivial
  | @welcomed cs received evs ws net hpc hsent =>
    exact .inr (process (h.welcomed hsane hpc hsent) (hheard.welcomed hsane hpc hsent))
  | @echoed cs received evs ws net hpc hsent =>
    exact .inr (process (h.echoed hsane hpc hsent) (hheard.echoed hsane hpc hsent))
  | @sent cs fd received todo evs ws net hpc hsent =>
    have hwrote := h.wrote hsane.net hsane.data hsent
    have hpc' : State.pc { s.logged with net := net } = .broadcast cs received (fd :: todo) evs :=
      (logged_pc s).trans hpc
    have hnewest : ∀ {pc : Pc} (fd : Int),
        (State.pc { s.logged with net := net }).newest = some fd → pc.newest = some fd := by
      intro pc fd hfd
      rw [hpc'] at hfd
      cases hfd
    have hbroadcast := hwrote.facing
    rw [hpc'] at hbroadcast
    refine .inr ?_
    rcases broadcast_cases { s.logged with net := net } cs received evs todo with
      ⟨-, heq⟩ | ⟨skipped, fd', rest, htodo, -, hzero, hcs, heq⟩
    · rw [heq]
      exact hwrote.keep hnewest trivial
    · rw [heq]
      refine hwrote.keep hnewest ⟨⟨fd', rest, rfl, hzero, hcs⟩, fun fd'' hfd'' => ?_⟩
      refine hbroadcast.2 fd'' (List.mem_cons_of_mem _ ?_)
      rw [htodo]
      exact List.mem_append_right _ hfd''
  | ended hfatal hpc => exact .inl hpc

omit [DecidableEq κ] in
theorem init (h : Start a s) : Roster s := by
  refine ⟨fun fd c hc => ?_, fun c hc => ?_, fun _ => h.assigned, fun c hc => ?_, fun c _ _ => ?_, ?_⟩
  · rw [h.net.fds fd] at hc
    cases hc
  · rw [h.early c] at hc
    cases hc
  · rw [h.left] at hc
    cases hc
  · rw [h.net.conn c]
    exact Nat.dvd_zero _
  · rw [h.pc]
    trivial

end Roster

end Ops.Cities
