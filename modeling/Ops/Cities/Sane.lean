import Ops.Cities.Moves

/-!
# What always holds at the city server

Every state that is reached is `Sane`, unless the server has ended: a descriptor is registered once
its connection is accepted and has sent something, and stays registered.
-/

namespace Ops.Cities

open Posix

variable {κ : Type} [DecidableEq κ] {a : Args} {s t : State κ} {act : Act κ}
variable {cs fd : Int} {received : List Byte} {evs todo : List Int} {c : κ}

omit [DecidableEq κ] in
theorem enter_registered (cs : Int) (h : s.clients_amount < s.clients.length) :
    (s.enter cs).registered = s.registered ++ [cs] := by
  unfold State.registered State.enter
  simp only
  rw [List.take_add_one, List.take_set_of_le (Nat.le_refl _), List.getElem?_set_self h]
  rfl

theorem Sent.same {n n' : Net κ} {data : List Byte} (h : Sent n fd data n') (hok : n.Ok) :
    n'.Ok ∧ n'.fds = n.fds ∧ n'.other = n.other := by
  cases h with
  | conn => exact ⟨hok.wrote _ _, rfl, rfl⟩
  | other => exact ⟨hok, rfl, rfl⟩

/-- What is left of an event: the next one, or a broadcast. -/
inductive Goes (s : State κ) (cs : Int) (received : List Byte) (evs : List Int) : Pc → Prop where
  | events : Goes s cs received evs (.events evs)
  | broadcast {fd : Int} {rest : List Int} : fd ≠ 0 → fd ≠ cs → fd :: rest <:+ s.clients →
      Goes s cs received evs (.broadcast cs received (fd :: rest) evs)

theorem process_shape (s : State κ) (cs : Int) (received : List Byte) (evs : List Int) :
    ∃ pc, Goes s cs received evs pc ∧ s.process cs received evs = { s with
      cities := (s.process cs received evs).cities
      assigned := (s.process cs received evs).assigned
      deeds := (s.process cs received evs).deeds
      pc := pc } := by
  rcases process_cases s cs received evs with ⟨-, heq⟩ | ⟨k, -, ⟨-, heq⟩ | ⟨-, heq⟩⟩
  · rw [heq]
    exact ⟨_, .events, rfl⟩
  · rw [heq]
    exact ⟨_, .events, rfl⟩
  · rw [heq]
    rcases broadcast_cases _ cs received evs s.clients with
      ⟨-, hgo⟩ | ⟨skipped, fd, rest, hclients, -, hne, hcs, hgo⟩
    · rw [hgo]
      exact ⟨_, .events, rfl⟩
    · rw [hgo]
      exact ⟨_, .broadcast hne hcs ⟨skipped, hclients.symm⟩, rfl⟩

/-- What holds of a new deed, and of all that was recorded before. -/
theorem deed_forall {P : Deed κ → Prop} {effect : Effect} (h : ∀ d ∈ s.deeds, P d)
    (hnew : P ⟨effect, s.net.fds cs, s.net.fds fd, (s.net.fds fd).any (· ∈ s.left), received,
      s.data⟩) : ∀ d ∈ (s.deed effect cs fd received).deeds, P d := by
  intro d hd
  rcases List.mem_append.mp hd with hd | hd
  · exact h d hd
  · rw [List.mem_singleton.mp hd]
    exact hnew

/-- What holds of a change, and of all that was recorded before. -/
theorem process_deeds {P : Deed κ → Prop} (h : ∀ d ∈ s.deeds, P d)
    (hchange : ∀ d ∈ (s.deed .change cs cs received).deeds, P d) :
    ∀ d ∈ (s.process cs received evs).deeds, P d := by
  rcases process_cases s cs received evs with ⟨-, heq⟩ | ⟨k, -, ⟨-, heq⟩ | ⟨-, heq⟩⟩
  · rw [heq]
    exact h
  · rw [heq]
    exact h
  · obtain ⟨pc, hgo⟩ := broadcast_goto { s.deed .change cs cs received with
      assigned := Function.update s.assigned k true
      cities := Function.update s.cities k (owner s.data) } cs received evs s.clients
    rw [heq, hgo]
    exact hchange

omit [DecidableEq κ] in
/-- `Known` depends on no more of the sockets than their descriptors. -/
theorem known_congr {net : Net κ} {early : κ → Bool} {deeds : List (Deed κ)} {pc : Pc}
    (h : s.Known pc) (hfds : net.fds = s.net.fds) :
    State.Known { s with net := net, early := early, deeds := deeds } pc := by
  cases pc with
  | events | echo | broadcast | ended => exact h
  | greet cs evs =>
    unfold State.Known at *
    simp only [hfds]
    exact h
  | welcome cs received evs =>
    unfold State.Known at *
    simp only [hfds]
    exact h

namespace Sane

omit [DecidableEq κ] in
theorem keep (h : Sane a s) (hnet : t.net.Ok) (hother : t.net.other = s.net.other)
    (hfds : ∀ fd c, s.net.fds fd = some c → t.net.fds fd = some c)
    (hdata : t.data.length = dataSize) (hclients : t.clients = s.clients)
    (hamount : t.clients_amount = s.clients_amount) (hepoll : t.epoll = s.epoll)
    (hpc : t.Known t.pc) : Sane a t := by
  have hregistered : t.registered = s.registered := by
    unfold State.registered
    rw [hclients, hamount]
  refine ⟨hnet, by rw [hother]; exact h.listens, hdata, by rw [hclients]; exact h.clients,
    by rw [hamount]; exact h.amount, fun fd hfd => ?_, fun fd hfd => ?_, hpc⟩
  · rw [hregistered] at hfd
    obtain ⟨c, hc⟩ := h.registered fd hfd
    exact ⟨c, hfds fd c hc⟩
  · rw [hregistered]
    rw [hepoll] at hfd
    exact h.epoll fd hfd

omit [DecidableEq κ] in
theorem not_watched (h : Sane a s) (hfree : s.net.fds cs = none) (hother : s.net.other cs = false) :
    cs ∉ s.epoll := by
  intro hmem
  rcases h.epoll cs hmem with rfl | rfl | hregistered
  · cases hother.symm.trans h.listens.1
  · cases hother.symm.trans h.listens.2
  · obtain ⟨c, hc⟩ := h.registered cs hregistered
    cases hfree.symm.trans hc

omit [DecidableEq κ] in
theorem got_length (h : Sane a s) (c : κ) :
    (blit s.data 0 ((s.net.conn c).inbox.take dataSize)).length = dataSize := by
  have hlen : ((s.net.conn c).inbox.take dataSize).length ≤ dataSize := by
    rw [List.length_take]
    exact Nat.min_le_left _ _
  rw [blit_length (by rw [h.data, Nat.zero_add]; exact hlen), h.data]

theorem process {pc : Pc} (h : Sane a (s.goto pc)) (hevs : evs ⊆ s.epoll)
    (hcs : cs ∈ s.registered) : Sane a (s.process cs received evs) := by
  obtain ⟨pc', hgoes, heq⟩ := process_shape s cs received evs
  rw [heq]
  refine h.keep h.net rfl (fun _ _ => id) h.data rfl rfl rfl ?_
  cases hgoes with
  | events => exact hevs
  | broadcast => exact ⟨hevs, hcs⟩

omit [DecidableEq κ] in
theorem enter (h : Sane a s) (hpc : s.pc = .welcome cs received evs) : Sane a ((s.enter cs).goto
    (.echo cs received evs)) ∧ evs ⊆ (s.enter cs).epoll ∧ cs ∈ (s.enter cs).registered := by
  have hknown := h.pc
  rw [hpc] at hknown
  obtain ⟨hevs, hamount, hnew, c, hc⟩ := hknown
  have hregistered := enter_registered cs (s := s) (by rw [h.clients]; exact hamount)
  have hevs' : evs ⊆ (s.enter cs).epoll := fun fd hfd => List.mem_cons_of_mem _ (hevs hfd)
  have hcs : cs ∈ (s.enter cs).registered := by
    rw [hregistered]
    exact List.mem_append_right _ List.mem_cons_self
  refine ⟨⟨h.net, h.listens, h.data, ?_, hamount, fun fd hfd => ?_, fun fd hfd => ?_,
    hevs', hcs⟩, hevs', hcs⟩
  · exact (List.length_set ..).trans h.clients
  · rw [show State.registered ((s.enter cs).goto (.echo cs received evs)) = (s.enter cs).registered
      from rfl, hregistered, List.mem_append, List.mem_singleton] at hfd
    rcases hfd with hfd | rfl
    · exact h.registered fd hfd
    · exact ⟨c, hc⟩
  · show _ ∨ _ ∨ fd ∈ (s.enter cs).registered
    rw [hregistered, List.mem_append, List.mem_singleton]
    rcases List.mem_cons.mp hfd with rfl | hfd
    · exact .inr (.inr (.inr rfl))
    · exact (h.epoll fd hfd).imp id (Or.imp id .inl)

theorem wrote {data : List Byte} {net : Net κ} (h : Sane a s) (hs : Sent s.net fd data net) :
    Sane a { s.logged with net := net } := by
  obtain ⟨hok, hfds, hother⟩ := hs.same h.net
  rw [logged_eq]
  exact h.keep hok hother (fun fd c hc => by rw [hfds]; exact hc) h.data rfl rfl rfl
    (known_congr h.pc hfds)

theorem peer {p : Peer κ} {net : Net κ} {early : κ → Bool} (h : Sane a s)
    (hp : s.net.peer p = some net) : Sane a { s with net := net, early := early } := by
  have hgrows := Net.peer_grows hp
  exact h.keep (h.net.peer hp) hgrows.other (fun fd c hc => by rw [hgrows.fds]; exact hc) h.data
    rfl rfl rfl (known_congr h.pc hgrows.fds)

theorem moves (h : Sane a s) (hm : Moves a s act t) : t.pc = .ended ∨ Sane a t := by
  have hknown := h.pc
  cases hm with
  | peer hp => exact .inr (h.peer hp)
  | @pwait evs hpc hbatch =>
    obtain ⟨-, -, -, hevs⟩ := Net.batch_iff.mp hbatch
    exact .inr (h.keep h.net rfl (fun _ _ => id) h.data rfl rfl rfl fun fd hfd => (hevs fd hfd).1)
  | @accepted cs evs c rest hpc hroom hback hpos hfree hother =>
    rw [hpc] at hknown
    refine .inr (h.keep (h.net.accept hback hpos hfree hother) rfl (fun fd d hd => ?_) h.data rfl rfl
      rfl ⟨fun fd hfd => hknown (List.mem_cons_of_mem _ hfd), ?_, .inr ⟨?_, c, ?_⟩⟩)
    · show Function.update s.net.fds cs (some c) fd = some d
      rw [Function.update_of_ne]
      · exact hd
      · rintro rfl
        cases hfree.symm.trans hd
    · exact Nat.lt_of_le_of_ne h.amount hroom
    · exact h.not_watched hfree hother
    · exact Function.update_self ..
  | @surplus o cs evs net hpc hfull haccepts =>
    rw [hpc] at hknown
    have hok := haccepts.ok h.net
    refine .inr (h.keep (hok.close cs) ?_ (fun fd d hd => ?_) h.data rfl rfl rfl
      fun fd hfd => hknown (List.mem_cons_of_mem _ hfd))
    · cases haccepts with
      | conn | eagain => rfl
    · show Function.update net.fds cs none fd = some d
      cases haccepts with
      | conn hback hpos hfree hother =>
        have hne : fd ≠ cs := by
          rintro rfl
          cases hfree.symm.trans hd
        rw [Function.update_of_ne hne]
        exact (Function.update_of_ne hne ..).trans hd
      | eagain =>
        rw [Function.update_of_ne]
        · exact hd
        · rintro rfl
          have hpos := (h.net.held _ d hd).2.1
          omega
  | vanished hpc hroom =>
    rw [hpc] at hknown
    refine .inr (h.keep h.net rfl (fun _ _ => id) h.data rfl rfl rfl
      ⟨fun fd hfd => hknown (List.mem_cons_of_mem _ hfd), ?_, .inl rfl⟩)
    exact Nat.lt_of_le_of_ne h.amount hroom
  | @greeted cs evs rs c hpc hfd =>
    rw [hpc] at hknown
    refine .inr (h.keep (h.net.took c _) rfl (fun _ _ => id) (h.got_length c) rfl rfl rfl
      ⟨hknown.1, hknown.2.1, ?_, c, hfd⟩)
    refine (hknown.2.2.resolve_left ?_).1
    rintro rfl
    have hpos := (h.net.held _ c hfd).2.1
    omega
  | @message fd evs rs c hpc hmem hfd =>
    rw [hpc] at hknown
    have hevs : evs ⊆ s.epoll := fun fd' hfd' => hknown (List.mem_cons_of_mem _ hfd')
    refine .inr (h.keep (h.net.took c _) rfl (fun _ _ => id) (h.got_length c) rfl rfl rfl ?_)
    show State.Known _ (if _ then _ else _)
    split
    · exact ⟨hevs, hmem⟩
    · exact hevs
  | @welcomed cs received evs ws net hpc hsent =>
    have hwrote := h.wrote hsent
    have hwelcome : State.pc { s.logged with net := net } = .welcome cs received evs :=
      (logged_pc s).trans hpc
    obtain ⟨henter, hevs, hcs⟩ := hwrote.enter hwelcome
    exact .inr (henter.process hevs hcs)
  | @echoed cs received evs ws net hpc hsent =>
    rw [hpc] at hknown
    have hwrote := h.wrote hsent
    have hevs : evs ⊆ State.epoll { s.logged with net := net } := by
      rw [logged_eq]
      exact hknown.1
    have hcs : cs ∈ State.registered { s.logged with net := net } := by
      rw [logged_eq]
      exact hknown.2
    have hecho : State.pc { s.logged with net := net } = .echo cs received evs :=
      (logged_pc s).trans hpc
    rw [← goto_self hecho] at hwrote
    exact .inr (hwrote.process hevs hcs)
  | @sent cs fd received todo evs ws net hpc hsent =>
    rw [hpc] at hknown
    have hwrote := h.wrote hsent
    obtain ⟨hevs, hcs⟩ := hknown
    rcases broadcast_cases { s.logged with net := net } cs received evs todo with
      ⟨-, heq⟩ | ⟨skipped, fd', rest, -, -, -, -, heq⟩
    · rw [heq]
      refine .inr (hwrote.keep hwrote.net rfl (fun _ _ => id) hwrote.data rfl rfl rfl ?_)
      show evs ⊆ State.epoll { s.logged with net := net }
      rw [logged_eq]
      exact hevs
    · rw [heq]
      refine .inr (hwrote.keep hwrote.net rfl (fun _ _ => id) hwrote.data rfl rfl rfl ⟨?_, ?_⟩)
      · show evs ⊆ State.epoll { s.logged with net := net }
        rw [logged_eq]
        exact hevs
      · show cs ∈ State.registered { s.logged with net := net }
        rw [logged_eq]
        exact hcs
  | ended hfatal hpc => exact .inl hpc

omit [DecidableEq κ] in
theorem init (h : Start a s) : Sane a s := by
  have hregistered : s.registered = [] := by
    unfold State.registered
    rw [h.clients_amount]
    rfl
  have hlisten : ∀ l ∈ [a.tcp_listen_socket, a.local_listen_socket], s.net.other l = true := by
    rw [← h.epoll]
    exact h.listens
  refine ⟨h.net.ok, ⟨hlisten _ (by simp), hlisten _ (by simp)⟩, h.data, h.clients,
    by rw [h.clients_amount]; exact Nat.zero_le _, fun fd hfd => ?_, fun fd hfd => ?_, ?_⟩
  · rw [hregistered] at hfd
    cases hfd
  · rw [h.epoll] at hfd
    rcases List.mem_cons.mp hfd with rfl | hfd
    · exact .inr (.inl rfl)
    · exact .inl (List.mem_singleton.mp hfd)
  · rw [h.pc]
    exact List.nil_subset _

end Sane

end Ops.Cities
