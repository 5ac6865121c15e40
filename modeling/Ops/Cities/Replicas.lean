import Ops.Cities.Roster
import Ops.Lib.Blocks
import Ops.Lib.Replica

/-!
# Clients that agree with the city server

A client that folds the frames it gets has a replica of `cities`. It misses an order that the server
takes from what was on the stack in `cities`, or that comes while it waits to be accepted; and the
broadcast goes to every entry of `clients`, whatever is there. As long as every order is `Told`,
the server writes to the clients that are connected, and all that came before the first
frame agree with it (`agreeing`).
-/

namespace Ops.Cities

open Posix

variable {κ : Type} [DecidableEq κ] {a : Args} {s t : State κ} {act : Act κ}
variable {cs fd : Int} {received : List Byte} {evs todo : List Int} {c : κ}

/-! ## What should hold -/

/-- The owners that a client knows of, by the server's rule. -/
def heard (out : List Byte) : Fin MAX_CITIES → Option Int :=
  Replica.view order (blocks dataSize out)

/-- The connection is in the queue or on a descriptor. -/
def Here (a : Args) (s : State κ) (c : κ) : Prop :=
  c ∈ s.net.backlog a.tcp_listen_socket ∨ ∃ fd, s.net.fds fd = some c

/-- No broadcast is going on. -/
def Pc.settled : Pc → Bool
  | .broadcast _ _ _ _ | .ended => false
  | .events _ | .greet _ _ | .welcome _ _ _ | .echo _ _ _ => true

/-- The deed is for a client that is connected, and a broadcast is to another one. -/
structure Deed.Addressed (d : Deed κ) : Prop where
  target : ∃ c, d.target = some c
  gone : d.gone = false
  other : d.effect = .broadcast → d.target ≠ d.origin

structure Agreeing (a : Args) (s : State κ) : Prop where
  addressed : ∀ d ∈ s.deeds, d.Addressed
  views : s.pc.settled = true → ∀ c, s.follower c = true → Here a s c →
    Replica.Agrees s.assigned s.cities (heard (s.net.conn c).out)

/-! ## What holds between the steps -/

/-- The frame that a broadcast has yet to write to `fd`. -/
def State.owed (s : State κ) (fd : Int) : List Byte :=
  match s.pc with
  | .broadcast cs _ todo _ => if fd ∈ todo ∧ fd ≠ cs then s.data else []
  | _ => []

/-- The followers on a descriptor, with what they are owed; nothing was assigned as long as there
are others. -/
structure Replicated (a : Args) (s : State κ) : Prop where
  listed : ∀ c, s.follower c = true → Here a s c →
    (∃ fd ∈ s.registered, s.net.fds fd = some c) ∨ ∀ k, s.assigned k = false
  agree : ∀ fd ∈ s.registered, ∀ c, s.net.fds fd = some c → s.follower c = true →
    Replica.Agrees s.assigned s.cities (heard ((s.net.conn c).out ++ s.owed fd))

/-- Only the client of the event has heard the frame in `data`. -/
structure Echoed (a : Args) (s : State κ) (cs : Int) : Prop where
  listed : ∀ c, s.follower c = true → Here a s c →
    (∃ fd ∈ s.registered, s.net.fds fd = some c) ∨ ∀ k, s.assigned k = false
  others : ∀ fd ∈ s.registered, fd ≠ cs → ∀ c, s.net.fds fd = some c → s.follower c = true →
    Replica.Agrees s.assigned s.cities (heard (s.net.conn c).out)
  own : ∀ c, s.net.fds cs = some c → s.follower c = true → ∃ v,
    Replica.Agrees s.assigned s.cities v ∧
      heard (s.net.conn c).out = Replica.hear order v s.data

theorem heard_append {out data : List Byte} (hout : dataSize ∣ out.length)
    (hdata : data.length = dataSize) :
    heard (out ++ data) = Replica.hear order (heard out) data := by
  obtain ⟨n, hn⟩ := hout
  unfold heard
  rw [blocks_append_block hn hdata (by decide), Replica.view_append]

omit [DecidableEq κ] in
theorem owed_settled (h : s.pc.settled = true) (fd : Int) : s.owed fd = [] := by
  unfold State.owed
  split
  · rename_i hpc
    rw [hpc] at h
    cases h
  · rfl

omit [DecidableEq κ] in
theorem owed_broadcast (s : State κ) (cs : Int) (received : List Byte) (evs todo : List Int)
    (hzero : fd ≠ 0) : (s.broadcast cs received evs todo).owed fd =
      if fd ∈ todo ∧ fd ≠ cs then s.data else [] := by
  rcases broadcast_cases s cs received evs todo with
    ⟨hall, heq⟩ | ⟨skipped, fd', rest, htodo, hskipped, -, -, heq⟩
  · rw [heq, if_neg]
    · rfl
    · rintro ⟨hmem, hcs⟩
      exact (hall fd hmem).elim hzero hcs
  · rw [heq, htodo]
    show (if fd ∈ fd' :: rest ∧ fd ≠ cs then s.data else []) = _
    refine if_congr (and_congr_left fun hcs => ?_) rfl rfl
    rw [List.mem_append]
    refine ⟨.inr, fun hmem => hmem.resolve_left fun hskip => ?_⟩
    exact (hskipped fd hskip).elim hzero hcs

omit [DecidableEq κ] in
theorem Sane.registered_pos (h : Sane a s) (hfd : fd ∈ s.registered) : fd ≠ 0 := by
  rintro rfl
  obtain ⟨c, hc⟩ := h.registered 0 hfd
  cases (h.net.held 0 c hc).2.2.symm.trans h.net.zero

omit [DecidableEq κ] in
theorem follower_iff : s.follower c = true ↔
    s.early c = true ∧ (s.net.conn c).connected = true := by
  unfold State.follower
  rw [Bool.and_eq_true]

/-! ## Steps -/

namespace Replicated

omit [DecidableEq κ] in
theorem keep (h : Replicated a s) (hregistered : t.registered = s.registered)
    (hassigned : t.assigned = s.assigned) (hcities : t.cities = s.cities)
    (hfds : ∀ fd ∈ s.registered, t.net.fds fd = s.net.fds fd)
    (hout : ∀ c, (t.net.conn c).out = (s.net.conn c).out) (howed : ∀ fd, t.owed fd = s.owed fd)
    (hfollower : ∀ c, t.follower c = true → s.follower c = true ∧ (Here a t c → Here a s c)) :
    Replicated a t := by
  refine ⟨fun c hc hhere => ?_, fun fd hmem c hfd hc => ?_⟩
  · obtain ⟨hold, hwas⟩ := hfollower c hc
    rw [hregistered, hassigned]
    refine (h.listed c hold (hwas hhere)).imp (fun ⟨fd, hmem, hfd⟩ => ⟨fd, hmem, ?_⟩) id
    rw [hfds fd hmem, hfd]
  · rw [hregistered] at hmem
    rw [hfds fd hmem] at hfd
    rw [hassigned, hcities, hout, howed]
    exact h.agree fd hmem c hfd (hfollower c hc).1

omit [DecidableEq κ] in
theorem unassigned (h : ∀ k, s.assigned k = false) : Replicated a s :=
  ⟨fun _ _ _ => .inr h, fun _ _ _ _ _ => .unassigned h⟩

theorem peer {p : Peer κ} {net : Net κ} (h : Replicated a s) (hroster : Roster s)
    (hp : s.net.peer p = some net) : Replicated a { s with
      net := net
      early := fun c => s.early c ||
        (!s.started && decide (p = .connect a.tcp_listen_socket c)) } := by
  have hgrows := Net.peer_grows hp
  cases hstarted : s.started with
  | false => exact .unassigned (hroster.started hstarted)
  | true =>
    refine h.keep rfl rfl rfl (fun fd _ => by rw [hgrows.fds]) hgrows.out (fun _ => rfl) fun c hc => ?_
    obtain ⟨hearly, hconnected⟩ := follower_iff.mp hc
    simp only [Bool.not_true, Bool.false_and, Bool.or_false] at hearly
    have hopened := hroster.early c hearly
    refine ⟨follower_iff.mpr ⟨hearly, hgrows.connected hopened hconnected⟩, ?_⟩
    rintro (hback | ⟨fd, hfd⟩)
    · rcases Net.peer_backlog hp hback with hback | hclosed
      · exact .inl hback
      · cases hopened.symm.trans hclosed
    · rw [hgrows.fds] at hfd
      exact .inr ⟨fd, hfd⟩

theorem echoed {net : Net κ} (h : Replicated a s) (hroster : Roster s) (hok : s.net.Ok)
    (hdata : s.data.length = dataSize) (hsettled : s.pc.settled = true)
    (hs : Sent s.net cs s.data net) : Echoed a { s.logged with net := net } cs := by
  obtain ⟨-, hfds, -⟩ := hs.same hok
  rw [logged_eq]
  have hfollower : ∀ c,
      State.follower { s with net := net, deeds := s.logged.deeds } c = s.follower c :=
    fun c => congrArg (s.early c && ·) (hs.connected c)
  refine ⟨fun c hc hhere => ?_, fun fd hmem hne c hfd hc => ?_, fun c hfd hc => ?_⟩
  · rw [hfollower] at hc
    unfold Here at hhere
    simp only [hs.backlog, hfds] at hhere ⊢
    exact h.listed c hc hhere
  · simp only [hfds] at hfd
    rw [hfollower] at hc
    have hother : s.net.fds cs ≠ some c := fun hcs => hne (hok.inj fd cs c hfd hcs)
    have hagree := h.agree fd hmem c hfd hc
    rw [owed_settled hsettled, List.append_nil] at hagree
    rw [hs.out_other hother]
    exact hagree
  · simp only [hfds] at hfd
    rw [hfollower] at hc
    have hconnected := (follower_iff.mp hc).2
    obtain ⟨-, heof, hreset⟩ := Net.connected_iff.mp hconnected
    refine ⟨heard (s.net.conn c).out, ?_, ?_⟩
    · rcases h.listed c hc (.inr ⟨cs, hfd⟩) with ⟨fd, hmem, hfd'⟩ | hnone
      · have hagree := h.agree fd hmem c hfd' hc
        rwa [owed_settled hsettled, List.append_nil] at hagree
      · exact .unassigned hnone
    · rw [hs.out hfd hconnected]
      exact heard_append (hroster.whole c heof hreset) hdata

end Replicated

namespace Echoed

omit [DecidableEq κ] in
theorem enter (h : Echoed a s cs) (hamount : s.clients_amount < s.clients.length) :
    Echoed a (s.enter cs) cs := by
  have hregistered := enter_registered cs hamount
  refine ⟨fun c hc hhere => ?_, fun fd hmem hne => ?_, h.own⟩
  · refine (h.listed c hc hhere).imp (fun ⟨fd, hmem, hfd⟩ => ⟨fd, ?_, hfd⟩) id
    rw [hregistered]
    exact List.mem_append_left _ hmem
  · rw [hregistered, List.mem_append, List.mem_singleton] at hmem
    exact h.others fd (hmem.resolve_right hne) hne

theorem process (h : Echoed a s cs) (hsane : Sane a (s.goto (.echo cs received evs)))
    (hroster : Roster (s.goto (.echo cs received evs))) (htold : Told a s cs) :
    Replicated a (s.process cs received evs) := by
  have hheld : ∀ fd c, s.net.fds fd = some c → fd ∈ s.registered := fun fd c hc =>
    (hroster.held fd c hc).resolve_right (by simp [State.goto, Pc.newest])
  -- who follows is registered, as soon as there is an order
  have hall : ∀ e ∈ order s.data, ∀ c, s.follower c = true → Here a s c →
      ∃ fd ∈ s.registered, s.net.fds fd = some c := by
    rintro e he c hc (hback | ⟨fd, hfd⟩)
    · cases hc.symm.trans ((htold e he).1 c hback)
    · exact ⟨fd, hheld fd c hfd, hfd⟩
  rcases process_cases s cs received evs with ⟨hnone, heq⟩ | ⟨k, horder, ⟨hsame, heq⟩ | ⟨hne, heq⟩⟩
  · rw [heq]
    refine ⟨h.listed, fun fd hmem c hfd hc => ?_⟩
    rw [owed_settled rfl, List.append_nil]
    by_cases hcs : fd = cs
    · subst hcs
      obtain ⟨v, hv, hheard⟩ := h.own c hfd hc
      show Replica.Agrees s.assigned s.cities (heard (s.net.conn c).out)
      rw [hheard, Replica.hear_none hnone]
      exact hv
    · exact h.others fd hmem hcs c hfd hc
  · rw [heq]
    refine ⟨fun c hc hhere => .inl (hall _ horder c hc hhere), fun fd hmem c hfd hc => ?_⟩
    rw [owed_settled rfl, List.append_nil]
    show Replica.Agrees (Function.update s.assigned k true) s.cities (heard (s.net.conn c).out)
    by_cases hcs : fd = cs
    · subst hcs
      obtain ⟨v, hv, hheard⟩ := h.own c hfd hc
      rw [hheard]
      exact hv.same horder hsame
    · have hknown := (htold _ horder).2
      rw [if_pos hsame] at hknown
      refine (h.others fd hmem hcs c hfd hc).unheard (hknown.resolve_right fun hnobody => ?_)
      cases hc.symm.trans ((hnobody fd hmem).resolve_left hcs c hfd)
  · rw [heq]
    refine ⟨fun c hc hhere => .inl ?_, fun fd hmem c hfd hc => ?_⟩
    · obtain ⟨pc', hgo⟩ := broadcast_goto _ cs received evs s.clients
      rw [hgo] at hc hhere ⊢
      exact hall _ horder c hc hhere
    · obtain ⟨pc', hgo⟩ := broadcast_goto { s.deed .change cs cs received with
        assigned := Function.update s.assigned k true
        cities := Function.update s.cities k (owner s.data) } cs received evs s.clients
      rw [hgo] at hmem hfd hc
      rw [owed_broadcast _ _ _ _ _ (hsane.registered_pos hmem), hgo]
      show Replica.Agrees (Function.update s.assigned k true)
        (Function.update s.cities k (owner s.data))
        (heard ((s.net.conn c).out ++ if fd ∈ s.clients ∧ fd ≠ cs then s.data else []))
      by_cases hcs : fd = cs
      · subst hcs
        obtain ⟨v, hv, hheard⟩ := h.own c hfd hc
        rw [if_neg fun hnot => hnot.2 rfl, List.append_nil, hheard]
        exact hv.update horder
      · obtain ⟨-, heof, hreset⟩ := Net.connected_iff.mp (follower_iff.mp hc).2
        have hwhole : dataSize ∣ (s.net.conn c).out.length := hroster.whole c heof hreset
        have hdata : s.data.length = dataSize := hsane.data
        rw [if_pos ⟨List.mem_of_mem_take hmem, hcs⟩, heard_append hwhole hdata]
        exact (h.others fd hmem hcs c hfd hc).update horder

end Echoed

namespace Replicated

theorem sent {net : Net κ} (h : Replicated a s) (hroster : Roster s) (hsane : Sane a s)
    (hpc : s.pc = .broadcast cs received (fd :: todo) evs) (hs : Sent s.net fd s.data net) :
    Replicated a (State.broadcast { s.logged with net := net } cs received evs todo) := by
  rw [logged_eq]
  obtain ⟨-, hfds, -⟩ := hs.same hsane.net
  have hfacing := hroster.facing
  rw [hpc] at hfacing
  obtain ⟨⟨_, _, heq, hzero, hcs⟩, -⟩ := hfacing
  cases heq
  have hfollower : ∀ c,
      State.follower { s with net := net, deeds := s.logged.deeds } c = s.follower c :=
    fun c => congrArg (s.early c && ·) (hs.connected c)
  obtain ⟨pc', hgo⟩ := broadcast_goto { s with net := net, deeds := s.logged.deeds } cs received
    evs todo
  refine ⟨fun c hc hhere => ?_, fun g hmem c hg hc => ?_⟩
  · rw [hgo] at hc hhere ⊢
    unfold Here at hhere
    simp only [State.goto, hs.backlog, hfds] at hhere ⊢
    exact h.listed c ((hfollower c).symm.trans hc) hhere
  · have hmem' : g ∈ s.registered := by
      rw [hgo] at hmem
      exact hmem
    have hgs : s.net.fds g = some c := by
      rw [hgo] at hg
      rw [← hfds]
      exact hg
    have hcs' : s.follower c = true := by
      rw [hgo] at hc
      exact (hfollower c).symm.trans hc
    have hconnected := (follower_iff.mp hcs').2
    obtain ⟨-, heof, hreset⟩ := Net.connected_iff.mp hconnected
    have hwhole := hroster.whole c heof hreset
    have hagree := h.agree g hmem' c hgs hcs'
    have howed : s.owed g = if g ∈ fd :: todo ∧ g ≠ cs then s.data else [] := by
      unfold State.owed
      rw [hpc]
    rw [owed_broadcast _ _ _ _ _ (hsane.registered_pos hmem'), hgo]
    rw [howed] at hagree
    show Replica.Agrees s.assigned s.cities
      (heard ((net.conn c).out ++ if g ∈ todo ∧ g ≠ cs then s.data else []))
    by_cases hgf : g = fd
    · subst hgf
      rw [if_pos ⟨List.mem_cons_self, hcs⟩, heard_append hwhole hsane.data] at hagree
      rw [hs.out hgs hconnected]
      split
      · have hboth : dataSize ∣ ((s.net.conn c).out ++ s.data).length := by
          rw [List.length_append, hsane.data]
          exact Nat.dvd_add hwhole (Nat.dvd_refl _)
        rw [heard_append hboth hsane.data, heard_append hwhole hsane.data, Replica.hear_hear]
        exact hagree
      · rw [List.append_nil, heard_append hwhole hsane.data]
        exact hagree
    · have hother : s.net.fds fd ≠ some c := fun hfd => hgf (hsane.net.inj g fd c hgs hfd)
      rw [hs.out_other hother]
      simp only [List.mem_cons, hgf, false_or] at hagree
      exact hagree

theorem got (h : Replicated a s) (c : κ) {pc : Pc} (hs : s.pc.settled = true)
    (hpc : pc.settled = true) : Replicated a ((s.got c).goto pc) := by
  have hfollower : ∀ d, State.follower ((s.got c).goto pc) d = s.follower d := by
    intro d
    show (s.early d && ((s.net.took c _).conn d).connected) = s.follower d
    unfold Conn.connected
    rw [Net.took_opened, (Net.took_eof s.net c _ d).1, (Net.took_eof s.net c _ d).2]
    rfl
  refine h.keep rfl rfl rfl (fun _ _ => rfl) (Net.took_out s.net c _) (fun fd => ?_) fun d hd => ?_
  · rw [owed_settled hs, owed_settled hpc]
  · rw [hfollower] at hd
    exact ⟨hd, id⟩

omit [DecidableEq κ] in
theorem queue {net : Net κ} {rest : List κ} {pc : Pc} (h : Replicated a s) (hsane : Sane a s)
    (hback : s.net.backlog a.tcp_listen_socket = c :: rest) (hfree : s.net.fds cs = none)
    (hs : s.pc.settled = true) (hpc : pc.settled = true) (hconn : net.conn = s.net.conn)
    (hrest : net.backlog = Function.update s.net.backlog a.tcp_listen_socket rest)
    (hfds : ∀ fd, fd ≠ cs → net.fds fd = s.net.fds fd)
    (hcs : ∀ d, net.fds cs = some d → d = c) : Replicated a ({ s with net := net }.goto pc) := by
  refine h.keep rfl rfl rfl (fun fd hmem => ?_) (fun d => ?_) (fun fd => ?_) fun d hd => ⟨?_, ?_⟩
  · refine hfds fd ?_
    rintro rfl
    obtain ⟨d, hd⟩ := hsane.registered fd hmem
    cases hfree.symm.trans hd
  · show (net.conn d).out = (s.net.conn d).out
    rw [hconn]
  · rw [owed_settled hs, owed_settled hpc]
  · rw [follower_iff] at hd ⊢
    rwa [← hconn]
  · have hmem : c ∈ s.net.backlog a.tcp_listen_socket := by
      rw [hback]
      exact List.mem_cons_self
    have hfewer : rest ⊆ s.net.backlog a.tcp_listen_socket := by
      rw [hback]
      exact List.subset_cons_self c rest
    rintro (hqueued | ⟨fd, hfd⟩)
    · exact .inl (Net.mem_fewer hfewer (hrest ▸ hqueued))
    · by_cases hfdcs : fd = cs
      · subst hfdcs
        rw [hcs d hfd]
        exact .inl hmem
      · exact .inr ⟨fd, (hfds fd hfdcs).symm.trans hfd⟩

theorem moves (h : Replicated a s) (hroster : Roster s) (hsane : Sane a s) (hheard : Heard a s act)
    (hm : Moves a s act t) : t.pc = .ended ∨ Replicated a t := by
  have hplain : ∀ {pc : Pc}, s.pc.settled = true → pc.settled = true →
      Replicated a (s.goto pc) := by
    intro pc hs hpc
    refine h.keep rfl rfl rfl (fun _ _ => rfl) (fun _ => rfl) (fun fd => ?_) fun _ hc => ⟨hc, id⟩
    rw [owed_settled hs, owed_settled hpc]
  cases hm with
  | peer hp => exact .inr (h.peer hroster hp)
  | pwait hpc | vanished hpc => exact .inr (hplain (by rw [hpc]; rfl) rfl)
  | @accepted cs evs c rest hpc hroom hback hpos hfree hother =>
    refine .inr (h.queue hsane hback hfree (by rw [hpc]; rfl) rfl rfl rfl
      (fun fd hne => Function.update_of_ne hne ..) fun d hd => ?_)
    cases (Function.update_self ..).symm.trans hd
    rfl
  | @surplus o cs evs net hpc hfull haccepts =>
    refine .inr ?_
    cases haccepts with
    | conn hback hpos hfree hother =>
      refine h.queue hsane hback hfree (by rw [hpc]; rfl) rfl rfl rfl (fun fd hne => ?_) fun d hd => ?_
      · exact (Function.update_of_ne hne ..).trans (Function.update_of_ne hne ..)
      · cases (Function.update_self ..).symm.trans hd
    | eagain =>
      refine h.keep rfl rfl rfl (fun fd hmem => Function.update_of_ne ?_ ..) (fun _ => rfl)
        (fun fd => ?_) fun d hd => ⟨hd, Or.imp id fun ⟨fd, hfd⟩ => ⟨fd, (Net.close_some hfd).2⟩⟩
      · rintro rfl
        obtain ⟨d, hd⟩ := hsane.registered _ hmem
        have hpos := (hsane.net.held _ d hd).2.1
        omega
      · rw [owed_settled (s := s) (by rw [hpc]; rfl), owed_settled rfl]
  | greeted hpc => exact .inr (h.got _ (by rw [hpc]; rfl) rfl)
  | message hpc =>
    refine .inr (h.got _ (by rw [hpc]; rfl) ?_)
    split
    · rfl
    · rfl
  | @welcomed cs received evs ws net hpc hsent =>
    have hechoed := h.echoed hroster hsane.net hsane.data (by rw [hpc]; rfl) hsent
    have hwelcome : State.pc { s.logged with net := net } = .welcome cs received evs :=
      (logged_pc s).trans hpc
    have hsane' := ((hsane.wrote hsent).enter hwelcome).1
    have hroster' := hroster.welcomed hsane hpc hsent
    have htold := hheard.welcomed hsane hpc hsent
    have hknown := hsane.pc
    rw [hpc] at hknown
    rw [logged_eq] at hechoed hsane' hroster' htold ⊢
    refine .inr (Echoed.process (hechoed.enter ?_) hsane' hroster' htold)
    show s.clients_amount < s.clients.length
    rw [hsane.clients]
    exact hknown.2.1
  | @echoed cs received evs ws net hpc hsent =>
    have hechoed := h.echoed hroster hsane.net hsane.data (by rw [hpc]; rfl) hsent
    have hecho : State.pc { s.logged with net := net } = .echo cs received evs :=
      (logged_pc s).trans hpc
    have hsane' := hsane.wrote hsent
    rw [← goto_self hecho] at hsane'
    have hroster' := hroster.echoed hsane hpc hsent
    have htold := hheard.echoed hsane hpc hsent
    rw [logged_eq] at hechoed hsane' hroster' htold ⊢
    exact .inr (hechoed.process hsane' hroster' htold)
  | @sent cs fd received todo evs ws net hpc hsent =>
    exact .inr (h.sent hroster hsane hpc hsent)
  | ended hfatal hpc => exact .inl hpc

omit [DecidableEq κ] in
theorem init (h : Start a s) : Replicated a s := .unassigned h.assigned

end Replicated

/-! ## What is recorded -/

theorem deed_addressed {effect : Effect} (hdeeds : ∀ d ∈ s.deeds, d.Addressed)
    (hlive : s.Live fd) (hother : effect = .broadcast → s.net.fds fd ≠ s.net.fds cs) :
    ∀ d ∈ (s.deed effect cs fd received).deeds, d.Addressed := by
  obtain ⟨c, hfd, hleft⟩ := hlive
  refine deed_forall hdeeds ⟨⟨c, hfd⟩, ?_, hother⟩
  rw [Option.mem_def.mp hfd]
  simp [hleft]

theorem Roster.logged_addressed (h : Roster s) (hsane : Sane a s)
    (hdeeds : ∀ d ∈ s.deeds, d.Addressed) : ∀ d ∈ s.logged.deeds, d.Addressed := by
  have hfacing := h.facing
  unfold State.logged
  split
  · rename_i hpc
    rw [hpc] at hfacing
    exact deed_addressed hdeeds hfacing.2 (by simp)
  · rename_i hpc
    rw [hpc] at hfacing
    exact deed_addressed hdeeds hfacing.2 (by simp)
  · rename_i cs received fd todo evs hpc
    rw [hpc] at hfacing
    obtain ⟨⟨_, _, heq, hzero, hcs⟩, hall⟩ := hfacing
    cases heq
    have hlive := ((hall fd List.mem_cons_self).resolve_left hzero).resolve_left hcs
    refine deed_addressed hdeeds hlive fun _ hsame => hcs ?_
    obtain ⟨c, hfd, -⟩ := hlive
    exact hsane.net.inj fd cs c hfd (hsame.symm.trans hfd)
  · exact hdeeds

theorem process_addressed (hdeeds : ∀ d ∈ s.deeds, d.Addressed) (hlive : s.Live cs) :
    ∀ d ∈ (s.process cs received evs).deeds, d.Addressed :=
  process_deeds hdeeds (deed_addressed hdeeds hlive (by simp))

theorem Roster.moves_addressed (h : Roster s) (hsane : Sane a s) (hm : Moves a s act t)
    (hdeeds : ∀ d ∈ s.deeds, d.Addressed) : ∀ d ∈ t.deeds, d.Addressed := by
  have hlogged := h.logged_addressed hsane hdeeds
  cases hm with
  | peer | pwait | accepted | surplus | vanished | greeted | message => exact hdeeds
  | welcomed hpc hsent =>
    exact process_addressed hlogged (h.welcomed hsane hpc hsent).facing.2
  | echoed hpc hsent => exact process_addressed hlogged (h.echoed hsane hpc hsent).facing.2
  | @sent cs fd received todo evs ws net hpc hsent =>
    obtain ⟨pc, hgo⟩ := broadcast_goto { s.logged with net := net } cs received evs todo
    rw [hgo]
    exact hlogged
  | ended hfatal hpc hended =>
    rw [hended]
    exact hlogged

/-! ## Runs -/

/-- The replicas, unless the server has ended. -/
structure Keeping (a : Args) (s : State κ) : Prop where
  addressed : ∀ d ∈ s.deeds, d.Addressed
  running : s.pc = .ended ∨ Sane a s ∧ Roster s ∧ Replicated a s

namespace Keeping

theorem step (h : Keeping a s) (hheard : Heard a s act) (hn : s.next a act = some t) :
    Keeping a t := by
  rcases h.running with hended | ⟨hsane, hroster, hreplicated⟩
  · obtain ⟨hpc, hquiet⟩ := ended_next hended hn
    exact ⟨by rw [hquiet.deeds]; exact h.addressed, .inl hpc⟩
  · have hm := next_moves hsane hn
    refine ⟨hroster.moves_addressed hsane hm h.addressed, ?_⟩
    rcases hsane.moves hm with hpc | hsane'
    · exact .inl hpc
    · rcases hroster.moves hsane hheard hm with hpc | hroster'
      · exact .inl hpc
      · exact (hreplicated.moves hroster hsane hheard hm).imp id fun hr => ⟨hsane', hroster', hr⟩

omit [DecidableEq κ] in
theorem init (h : Start a s) : Keeping a s := by
  refine ⟨fun d hd => ?_, .inr ⟨.init h, .init h, .init h⟩⟩
  rw [h.deeds] at hd
  cases hd

omit [DecidableEq κ] in
theorem agrees (h : Keeping a s) : Agreeing a s := by
  refine ⟨h.addressed, fun hsettled c hc hhere => ?_⟩
  rcases h.running with hended | ⟨-, -, hreplicated⟩
  · rw [hended] at hsettled
    cases hsettled
  · rcases hreplicated.listed c hc hhere with ⟨fd, hmem, hfd⟩ | hnone
    · have hagree := hreplicated.agree fd hmem c hfd hc
      rwa [owed_settled hsettled, List.append_nil] at hagree
    · exact .unassigned hnone

end Keeping

/-- **Replicas agree**: as long as every client starts with a complete frame and every order is
told, the server writes to clients that are connected, a broadcast to others than its originator,
and who came before the first frame knows the owner of every city that a frame has assigned. -/
theorem agreeing (h : (server κ a).ReachIf (Heard a) s) : Agreeing a s :=
  (h.inv (I := Keeping a) (fun _ hs => .init hs) fun _ _ _ _ hi hc hn => hi.step hc hn).agrees

def twoClients : List (Act Bool) :=
  [.peer (.connect 4 true), .peer (.connect 4 false), .peer (.send true [120, 48, 49, 46]),
    .peer (.send false [120, 48, 49, 46]), .pwait [4], .accept (.conn 5), .read [.data 3],
    .write [.wrote 3], .pwait [4], .accept (.conn 6), .read [.data 3], .write [.wrote 3]]

def firstTakes : List (Act Bool) :=
  [.peer (.send true [112, 48, 49, 46]), .pwait [5], .read [.data 3], .write [.wrote 3]]

theorem agreeing_two : ∃ s, (server Bool sockets).execIf (Heard sockets) (.idle Bool)
    (twoClients ++ firstTakes ++ [.write [.wrote 3]]) = some s ∧ s.follower false = true ∧
    s.assigned 0 = true ∧ heard (s.net.conn false).out 0 = some 1 ∧ Agreeing sockets s := by
  have hrun : ((server Bool sockets).execIf (Heard sockets) (.idle Bool)
      (twoClients ++ firstTakes ++ [.write [.wrote 3]])).map
      (fun s => (s.follower false, s.assigned 0, heard (s.net.conn false).out 0)) =
      some (true, true, some 1) := by decide +kernel
  obtain ⟨s, hs, heq⟩ := Option.map_eq_some_iff.mp hrun
  simp only [Prod.mk.injEq] at heq
  exact ⟨s, hs, heq.1, heq.2.1, heq.2.2, agreeing (LTS.ReachIf.execIf (.init idle_start) hs)⟩

omit [DecidableEq κ] in
theorem idle_cities (cities : Fin MAX_CITIES → Int) :
    Start sockets { State.idle κ with cities := cities } :=
  ⟨rfl, rfl, rfl, rfl, rfl, Net.idle_start, idle_start.listens, rfl, fun _ => rfl, rfl, fun _ => rfl,
    rfl⟩

theorem not_views {s : State Bool} (hsettled : s.pc.settled = true)
    (hfollower : s.follower false = true) (hhere : Here sockets s false)
    (hassigned : s.assigned 0 = true) (hheard : heard (s.net.conn false).out 0 = none) :
    ¬ Agreeing sockets s := by
  intro h
  have hsome := h.views hsettled false hfollower hhere 0 hassigned
  cases hheard.symm.trans hsome

/-- **A broadcast to nobody, and none where one is due**: to the descriptor of a client that has
left; where `cities` starts with the owner in the frame; and for a client in the queue. -/
theorem not_agreeing :
    (∃ s, (server Bool sockets).exec (.idle Bool) (takesFirst true 5 ++
      [.peer (.close true), .pwait [5], .read [.data 0], .peer (.connect 4 false),
        .peer (.send false [103, 48, 49, 46]), .pwait [4], .accept (.conn 6), .read [.data 3],
        .write [.wrote 3], .write [.error .epipe]]) = some s ∧ ¬ Agreeing sockets s) ∧
    (∃ s₀ s, Start sockets s₀ ∧
      (server Bool sockets).exec s₀ (twoClients ++ firstTakes) = some s ∧
        ¬ Agreeing sockets s) ∧
    ∃ s, (server Bool sockets).exec (.idle Bool)
      (.peer (.connect 4 true) :: .peer (.connect 4 false) :: (takesFirst true 5).tail) = some s ∧
        ¬ Agreeing sockets s := by
  refine ⟨?_, ?_, ?_⟩
  · have hrun : ((server Bool sockets).exec (.idle Bool) (takesFirst true 5 ++
        [.peer (.close true), .pwait [5], .read [.data 0], .peer (.connect 4 false),
          .peer (.send false [103, 48, 49, 46]), .pwait [4], .accept (.conn 6), .read [.data 3],
          .write [.wrote 3], .write [.error .epipe]])).map (fun s => s.deeds.map (·.gone)) =
        some [false, false, false, false, true] := by decide +kernel
    obtain ⟨s, hs, hgone⟩ := Option.map_eq_some_iff.mp hrun
    refine ⟨s, hs, fun h => ?_⟩
    have hmem : true ∈ s.deeds.map (·.gone) := by
      rw [hgone]
      simp
    obtain ⟨d, hd, hdgone⟩ := List.mem_map.mp hmem
    cases hdgone.symm.trans (h.addressed d hd).gone
  · have hrun : ((server Bool sockets).exec { State.idle Bool with cities := fun _ => 1 }
        (twoClients ++ firstTakes)).map (fun s => (s.pc.settled, s.follower false, s.net.fds 6,
          s.assigned 0, heard (s.net.conn false).out 0)) =
        some (true, true, some false, true, none) := by decide +kernel
    obtain ⟨s, hs, heq⟩ := Option.map_eq_some_iff.mp hrun
    simp only [Prod.mk.injEq] at heq
    obtain ⟨hsettled, hfollower, hfd, hassigned, hheard⟩ := heq
    exact ⟨_, s, idle_cities fun _ => 1, hs,
      not_views hsettled hfollower (.inr ⟨6, hfd⟩) hassigned hheard⟩
  · have hrun : ((server Bool sockets).exec (.idle Bool)
        (.peer (.connect 4 true) :: .peer (.connect 4 false) :: (takesFirst true 5).tail)).map
        (fun s => (s.pc.settled, s.follower false, s.net.backlog 4, s.assigned 0,
          heard (s.net.conn false).out 0)) = some (true, true, [false], true, none) := by
      decide +kernel
    obtain ⟨s, hs, heq⟩ := Option.map_eq_some_iff.mp hrun
    simp only [Prod.mk.injEq] at heq
    obtain ⟨hsettled, hfollower, hback, hassigned, hheard⟩ := heq
    have hqueued : false ∈ s.net.backlog 4 := by
      rw [hback]
      exact List.mem_cons_self
    exact ⟨s, hs, not_views hsettled hfollower (.inl hqueued) hassigned hheard⟩

end Ops.Cities
