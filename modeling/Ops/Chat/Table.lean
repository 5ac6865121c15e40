import Ops.Chat.Moves

/-!
# The client table, the epoll set and the open descriptors

Three records of who is in the chat: the slots of `clients`, the descriptors in
`epoll` and the descriptors that are open. `Table` says how they agree at every
point of `do_server`: a connection just accepted is open before it has a slot
(`seated`), and has its slot before it is registered. So no step ever meets a
descriptor that is not open or not registered.
-/

namespace Ops.Chat

open Ops.Posix

variable {κ : Type}

def Pc.batch : Pc → List Event
  | .events evs => evs
  | .greet _ evs => evs
  | .refused _ evs => evs
  | .echo _ _ evs => evs
  | .forward _ _ _ evs => evs
  | .ended _ => []

/-- The open descriptor that is not registered. -/
def Pc.fresh : Pc → Option Nat
  | .greet fd _ => some fd
  | .refused fd _ => some fd
  | .echo fd _ _ => some fd
  | _ => none

/-- The open descriptor that has no slot. -/
def Pc.unseated : Pc → Option Nat
  | .greet fd _ => some fd
  | .refused fd _ => some fd
  | _ => none

/-- The connections that should have a slot. -/
def State.seated (s : State κ) (fd : Nat) : Option κ :=
  if s.pc.unseated = some fd then none else s.fds fd

def Pc.Running (pc : Pc) : Prop := ∀ why, pc ≠ .ended why

structure Table (a : Args) (s : State κ) : Prop where
  slots : ∀ i j fd, (s.clients i).fd = some fd → (s.clients j).fd = some fd → i = j
  held : ∀ fd, s.seated fd ≠ none ↔ ∃ i, (s.clients i).fd = some fd
  polled : ∀ fd, fd ∈ s.epoll ↔ fd = a.serverFd ∨ (s.fds fd ≠ none ∧ s.pc.fresh ≠ some fd)
  server : s.fds a.serverFd = none
  nodup : s.epoll.Nodup
  fresh : ∀ fd, s.pc.fresh = some fd → s.fds fd ≠ none
  batch : (s.pc.batch.map Prod.fst).Nodup
  batched : ∀ e ∈ s.pc.batch, e.1 ∈ s.epoll
  queue : (a.serverFd, true) ∈ s.pc.batch → s.backlog ≠ []

/-! ## Seats -/

theorem seated_all {s : State κ} (h : s.pc.unseated = none) : s.seated = s.fds := by
  funext fd
  rw [State.seated, h, if_neg (by simp)]

theorem seated_congr {s t : State κ} (hfds : t.fds = s.fds)
    (hpc : t.pc.unseated = s.pc.unseated) : t.seated = s.seated := by
  funext fd
  rw [State.seated, State.seated, hfds, hpc]

theorem seated_self {s : State κ} {fd : Nat} (h : s.pc.unseated = some fd) :
    s.seated fd = none := by
  rw [State.seated, if_pos h]

theorem seated_other {s : State κ} {fd fd' : Nat} (h : s.pc.unseated = some fd) (hne : fd' ≠ fd) :
    s.seated fd' = s.fds fd' := by
  rw [State.seated, h, if_neg fun he => hne (Option.some.inj he).symm]

theorem fds_of_seated {s : State κ} {fd : Nat} {c : κ} (h : s.seated fd = some c) :
    s.fds fd = some c := by
  unfold State.seated at h
  split at h
  · cases h
  · exact h

theorem seated_accept {s t : State κ} {fd : Nat} {evs : List Event} {c : κ}
    (hs : s.pc.unseated = none) (hfd : s.fds fd = none) (ht : t.pc = .greet fd evs)
    (hfds : t.fds = Function.update s.fds fd (some c)) : t.seated = s.seated := by
  have hun : t.pc.unseated = some fd := by rw [ht]; rfl
  funext fd'
  rw [seated_all hs]
  by_cases hfd' : fd' = fd
  · rw [hfd', seated_self hun, hfd]
  · rw [seated_other hun hfd', hfds, Function.update_of_ne hfd']

theorem seated_refuse {s t : State κ} {fd : Nat} {evs : List Event}
    (hs : s.pc = .refused fd evs) (ht : t.pc.unseated = none)
    (hfds : t.fds = Function.update s.fds fd none) : t.seated = s.seated := by
  have hun : s.pc.unseated = some fd := by rw [hs]; rfl
  funext fd'
  rw [seated_all ht, hfds]
  by_cases hfd' : fd' = fd
  · rw [hfd', seated_self hun, Function.update_self]
  · rw [seated_other hun hfd', Function.update_of_ne hfd']

/-! ## One slot changes -/

theorem addAuthorizedUser_some {key : CString} {clients clients' : Clients} {fd : Nat}
    {buf : List Byte} (h : addAuthorizedUser key clients fd buf = some clients') :
    ∃ i name, (clients i).fd = none ∧ clients' = Function.update clients i ⟨some fd, name⟩ := by
  unfold addAuthorizedUser at h
  split at h
  · cases h
  · obtain ⟨i, hi, rfl⟩ := Option.map_eq_some_iff.mp h
    exact ⟨i, _, by simpa using List.find?_some hi, rfl⟩

theorem slot_some {s : State κ} {fd : Nat} {i : Fin maxClientCount} (h : s.slot fd = some i) :
    (s.clients i).fd = some fd := by
  simpa using List.find?_some h

theorem slot_none {s : State κ} {fd : Nat} (h : s.slot fd = none) (i : Fin maxClientCount) :
    (s.clients i).fd ≠ some fd := by
  simpa using List.find?_eq_none.mp h i (List.mem_finRange i)

theorem interrupt_stops (s : State κ) (sigint : Bool) : ¬ (s.interrupt sigint).pc.Running := by
  intro hrun
  cases sigint with
  | false => exact hrun .exited rfl
  | true => exact hrun .interrupted rfl

theorem update_fd (clients : Clients) (i j : Fin maxClientCount) (c : Client) :
    (Function.update clients i c j).fd = if j = i then c.fd else (clients j).fd := by
  by_cases h : j = i
  · subst h; simp
  · simp [h]

theorem held_other {clients : Clients} {i : Fin maxClientCount} {c : Client} {fd : Nat}
    (hnew : c.fd ≠ some fd) (hold : (clients i).fd ≠ some fd) :
    (∃ j, (clients j).fd = some fd) ↔ ∃ j, (Function.update clients i c j).fd = some fd := by
  constructor
  · rintro ⟨j, hj⟩
    have hji : j ≠ i := fun h => hold (h ▸ hj)
    exact ⟨j, by rw [update_fd, if_neg hji, hj]⟩
  · rintro ⟨j, hj⟩
    rw [update_fd] at hj
    split at hj
    · exact absurd hj hnew
    · exact ⟨j, hj⟩

theorem Table.accept {a : Args} {s : State κ} (h : Table a s) {fd : Nat} {evs : List Event}
    (hpc : s.pc = .events ((a.serverFd, true) :: evs)) (hfd : s.fds fd = none)
    (hne : fd ≠ a.serverFd) (t : State κ) (c : κ) (ht : t.pc = .greet fd evs)
    (hc : t.clients = s.clients) (hf : t.fds = Function.update s.fds fd (some c))
    (he : t.epoll = s.epoll) : Table a t := by
  have hfds : ∀ fd', t.fds fd' = if fd' = fd then some c else s.fds fd' := fun fd' => by
    rw [hf, Function.update_apply]
  have hfresh : s.pc.fresh = none := by rw [hpc]; rfl
  have hbatch : s.pc.batch = (a.serverFd, true) :: evs := by rw [hpc]; rfl
  have hnodup := h.batch
  rw [hbatch, List.map_cons, List.nodup_cons] at hnodup
  refine ⟨hc ▸ h.slots, ?_, ?_, ?_, he ▸ h.nodup, ?_, ?_, ?_, ?_⟩
  · rw [seated_accept (by rw [hpc]; rfl) hfd ht hf, hc]
    exact h.held
  · intro fd'
    rw [he, h.polled, hfds, ht, hfresh]
    by_cases hfd' : fd' = fd
    · subst hfd'; simp [hfd, hne, Pc.fresh]
    · rw [if_neg hfd']
      simp [Pc.fresh, Ne.symm hfd']
  · rw [hfds, if_neg (Ne.symm hne)]; exact h.server
  · intro fd' hfd'
    rw [ht] at hfd'
    cases hfd'
    rw [hfds, if_pos rfl]
    simp
  · rw [ht]; exact hnodup.2
  · intro e' he'
    rw [ht] at he'
    rw [he]
    exact h.batched e' (hbatch ▸ List.mem_cons_of_mem _ he')
  · intro hq
    rw [ht] at hq
    exact absurd (List.mem_map.mpr ⟨_, hq, rfl⟩) hnodup.1

theorem Table.join {a : Args} {s : State κ} (h : Table a s) {i : Fin maxClientCount} {fd : Nat}
    {name buf : List Byte} {evs : List Event} (hpc : s.pc = .greet fd evs)
    (hi : (s.clients i).fd = none) (t : State κ) (ht : t.pc = .echo fd buf evs)
    (hc : t.clients = Function.update s.clients i ⟨some fd, name⟩) (hf : t.fds = s.fds)
    (he : t.epoll = s.epoll) (hq : t.backlog = s.backlog) : Table a t := by
  have hun : s.pc.unseated = some fd := by rw [hpc]; rfl
  have hopen : s.fds fd ≠ none := h.fresh fd (by rw [hpc]; rfl)
  have hout : ∀ j, (s.clients j).fd ≠ some fd := fun j hj =>
    (h.held fd).mpr ⟨j, hj⟩ (seated_self hun)
  have hcl : ∀ j, (t.clients j).fd = if j = i then some fd else (s.clients j).fd := fun j => by
    rw [hc, update_fd]
  have hfresh : t.pc.fresh = s.pc.fresh := by rw [ht, hpc]; rfl
  have hbatch : t.pc.batch = s.pc.batch := by rw [ht, hpc]; rfl
  refine ⟨?_, ?_, ?_, hf ▸ h.server, he ▸ h.nodup, by rw [hfresh, hf]; exact h.fresh,
    hbatch ▸ h.batch, by rw [hbatch, he]; exact h.batched, by rw [hbatch, hq]; exact h.queue⟩
  · intro j k fd' hj hk
    rw [hcl] at hj hk
    split at hj <;> split at hk
    · rename_i h1 h2; rw [h1, h2]
    · cases hj; exact absurd hk (hout k)
    · cases hk; exact absurd hj (hout j)
    · exact h.slots j k fd' hj hk
  · intro fd'
    rw [seated_all (by rw [ht]; rfl), hf]
    by_cases hfd' : fd' = fd
    · subst hfd'
      exact iff_of_true hopen ⟨i, by rw [hcl, if_pos rfl]⟩
    · rw [← seated_other hun hfd', h.held, hc]
      exact held_other (fun h => hfd' (Option.some.inj h).symm) (by rw [hi]; nofun)
  · rw [hf, he, hfresh]
    exact h.polled

theorem Table.echo {a : Args} {s : State κ} (h : Table a s) {fd : Nat} {buf : List Byte}
    {evs : List Event} (hpc : s.pc = .echo fd buf evs) (hmem : fd ∉ s.epoll) (t : State κ)
    (ht : t.pc = .events evs) (hc : t.clients = s.clients) (hf : t.fds = s.fds)
    (he : t.epoll = fd :: s.epoll) (hq : t.backlog = s.backlog) : Table a t := by
  have hopen : s.fds fd ≠ none := h.fresh fd (by rw [hpc]; rfl)
  have hfresh : s.pc.fresh = some fd := by rw [hpc]; rfl
  have hbatch : t.pc.batch = s.pc.batch := by rw [ht, hpc]; rfl
  refine ⟨hc ▸ h.slots, ?_, fun fd' => ?_, hf ▸ h.server, ?_, ?_, hbatch ▸ h.batch, ?_,
    by rw [hbatch, hq]; exact h.queue⟩
  · rw [seated_congr hf (by rw [ht, hpc]; rfl), hc]
    exact h.held
  · rw [he, List.mem_cons, h.polled, hf, ht, hfresh]
    by_cases hfd' : fd' = fd
    · subst hfd'; simp [hopen, Pc.fresh]
    · simp [hfd', Ne.symm hfd', Pc.fresh]
  · rw [he]
    exact List.nodup_cons.mpr ⟨hmem, h.nodup⟩
  · intro fd' hfd'
    rw [ht] at hfd'; cases hfd'
  · rw [hbatch, he]
    exact fun e' he' => List.mem_cons_of_mem _ (h.batched e' he')

theorem Table.refuse {a : Args} {s : State κ} (h : Table a s) {fd : Nat} {evs : List Event}
    (hpc : s.pc = .refused fd evs) (t : State κ) (ht : t.pc = .events evs)
    (hc : t.clients = s.clients) (hf : t.fds = Function.update s.fds fd none)
    (he : t.epoll = s.epoll) (hq : t.backlog = s.backlog) : Table a t := by
  have hopen : s.fds fd ≠ none := h.fresh fd (by rw [hpc]; rfl)
  have hne : fd ≠ a.serverFd := by
    rintro rfl
    exact hopen h.server
  have hfds : ∀ fd', t.fds fd' = if fd' = fd then none else s.fds fd' := fun fd' => by
    rw [hf, Function.update_apply]
  have hfresh : s.pc.fresh = some fd := by rw [hpc]; rfl
  have hbatch : t.pc.batch = s.pc.batch := by rw [ht, hpc]; rfl
  refine ⟨hc ▸ h.slots, ?_, fun fd' => ?_, ?_, he ▸ h.nodup, ?_, hbatch ▸ h.batch,
    by rw [hbatch, he]; exact h.batched, by rw [hbatch, hq]; exact h.queue⟩
  · rw [seated_refuse hpc (by rw [ht]; rfl) hf, hc]
    exact h.held
  · rw [he, h.polled, hfds, ht, hfresh]
    by_cases hfd' : fd' = fd
    · subst hfd'; simp [hne]
    · simp [hfd', Ne.symm hfd', Pc.fresh]
  · rw [hfds, if_neg (Ne.symm hne)]; exact h.server
  · intro fd' hfd'
    rw [ht] at hfd'; cases hfd'

/-- A descriptor leaves the table, the epoll set and the open descriptors. -/
theorem Table.leave {a : Args} {s : State κ} (h : Table a s) {i : Fin maxClientCount} {fd : Nat}
    {b : Bool} {evs : List Event} (hpc : s.pc = .events ((fd, b) :: evs)) (hne : fd ≠ a.serverFd)
    (hi : (s.clients i).fd = some fd) (t : State κ) (ht : t.pc = .events evs)
    (hc : t.clients = Function.update s.clients i { s.clients i with fd := none })
    (hf : t.fds = Function.update s.fds fd none) (he : t.epoll = s.epoll.erase fd)
    (hq : t.backlog = s.backlog) : Table a t := by
  have hfds : ∀ fd', t.fds fd' = if fd' = fd then none else s.fds fd' := fun fd' => by
    rw [hf, Function.update_apply]
  have hcl : ∀ j, (t.clients j).fd = if j = i then none else (s.clients j).fd := fun j => by
    rw [hc, update_fd]
  have hfresh : s.pc.fresh = none := by rw [hpc]; rfl
  have hbatch : s.pc.batch = (fd, b) :: evs := by rw [hpc]; rfl
  have hnodup := h.batch
  rw [hbatch, List.map_cons, List.nodup_cons] at hnodup
  have hepoll : ∀ fd', fd' ∈ t.epoll ↔ fd' ≠ fd ∧ fd' ∈ s.epoll := fun fd' => by
    rw [he, h.nodup.mem_erase_iff]
  refine ⟨?_, ?_, ?_, ?_, ?_, ?_, ?_, ?_, ?_⟩
  · intro j k fd' hj hk
    rw [hcl] at hj hk
    split at hj
    · cases hj
    · split at hk
      · cases hk
      · exact h.slots j k fd' hj hk
  · intro fd'
    rw [seated_all (by rw [ht]; rfl), hfds]
    by_cases hfd' : fd' = fd
    · subst hfd'
      simp only [if_true, ne_eq, not_true_eq_false, false_iff, not_exists]
      intro j hj
      rw [hcl] at hj
      split at hj
      · cases hj
      · rename_i hji; exact hji (h.slots j i fd' hj hi)
    · rw [if_neg hfd', ← seated_all (by rw [hpc]; rfl), h.held, hc]
      exact held_other nofun fun h => hfd' (Option.some.inj (hi.symm.trans h)).symm
  · intro fd'
    rw [hepoll, h.polled, hfds, ht, hfresh]
    by_cases hfd' : fd' = fd
    · subst hfd'; simp [hne]
    · simp [hfd', Pc.fresh]
  · rw [hfds, if_neg (Ne.symm hne)]; exact h.server
  · rw [he]; exact h.nodup.erase _
  · intro fd' hfd'
    rw [ht] at hfd'; cases hfd'
  · rw [ht]; exact hnodup.2
  · intro e he'
    rw [ht] at he'
    refine (hepoll e.1).mpr ⟨?_, h.batched e (hbatch ▸ List.mem_cons_of_mem _ he')⟩
    rintro rfl
    exact hnodup.1 (List.mem_map.mpr ⟨e, he', rfl⟩)
  · intro hmem
    rw [ht] at hmem
    rw [hq]
    exact h.queue (hbatch ▸ List.mem_cons_of_mem _ hmem)

theorem Table.frame {a : Args} {s t : State κ} (h : Table a s) (hc : t.clients = s.clients)
    (hf : t.fds = s.fds) (he : t.epoll = s.epoll) (hfresh : t.pc.fresh = s.pc.fresh)
    (hun : t.pc.unseated = s.pc.unseated) (hbatch : (t.pc.batch.map Prod.fst).Nodup)
    (hb : ∀ e ∈ t.pc.batch, e.1 ∈ s.epoll)
    (hq : (a.serverFd, true) ∈ t.pc.batch → t.backlog ≠ []) : Table a t where
  slots := hc ▸ h.slots
  held := by rw [seated_congr hf hun, hc]; exact h.held
  polled := by rw [hf, he, hfresh]; exact h.polled
  server := hf ▸ h.server
  nodup := he ▸ h.nodup
  fresh := by rw [hf, hfresh]; exact h.fresh
  batch := hbatch
  batched := by rw [he]; exact hb
  queue := hq

theorem Table.done {a : Args} {s t : State κ} (h : Table a s) {e : Event} {evs : List Event}
    (hpc : s.pc = .events (e :: evs)) (hc : t.clients = s.clients) (hf : t.fds = s.fds)
    (he : t.epoll = s.epoll) (hfresh : t.pc.fresh = none) (hun : t.pc.unseated = none)
    (hbatch : t.pc.batch = evs) (hq : t.backlog = s.backlog) : Table a t := by
  have h1 := h.batch
  have h2 := h.batched
  have h3 := h.queue
  rw [hpc] at h1 h2 h3
  have hnodup := List.nodup_cons.mp h1
  refine h.frame hc hf he (by rw [hfresh, hpc]; rfl) (by rw [hun, hpc]; rfl) ?_ ?_ ?_
  · rw [hbatch]; exact hnodup.2
  · rw [hbatch]; exact fun e' he' => h2 e' (List.mem_cons_of_mem _ he')
  · rw [hbatch, hq]
    exact fun hmem => h3 (List.mem_cons_of_mem _ hmem)

/-- Where an event of a client is handled, its descriptor is open and has a slot. -/
theorem Table.polled_open {a : Args} {s : State κ} (h : Table a s) {fd : Nat} {b : Bool}
    {evs : List Event} (hpc : s.pc = .events ((fd, b) :: evs)) (hne : fd ≠ a.serverFd) :
    fd ∈ s.epoll ∧ s.fds fd ≠ none ∧ ∃ i, (s.clients i).fd = some fd := by
  have hmem : fd ∈ s.epoll := h.batched (fd, b) (by rw [hpc]; exact List.mem_cons_self)
  have hopen : s.fds fd ≠ none := (((h.polled fd).mp hmem).resolve_left hne).1
  refine ⟨hmem, hopen, (h.held fd).mp ?_⟩
  rwa [seated_all (by rw [hpc]; rfl)]

/-- The records agree, so every descriptor is where the code expects it. -/
theorem Table.not_broken {a : Args} {s : State κ} (h : Table a s) :
    ¬ ((∃ fd evs, s.pc = .greet fd evs ∧ s.fds fd = none) ∨
      (∃ fd buf evs, s.pc = .echo fd buf evs ∧ (s.fds fd = none ∨ fd ∈ s.epoll)) ∨
      (∃ fd evs, s.pc = .events ((fd, true) :: evs) ∧ fd ≠ a.serverFd ∧
        (s.fds fd = none ∨ fd ∉ s.epoll ∨ s.slot fd = none)) ∨
      (∃ fd buf i todo evs t, s.pc = .forward fd buf (i :: todo) evs ∧
        (s.clients i).fd = some t ∧ s.fds t = none)) := by
  rintro (⟨fd, evs, hpc, hbad⟩ | ⟨fd, buf, evs, hpc, hbad⟩ | ⟨fd, evs, hpc, hne, hbad⟩ |
    ⟨fd, buf, i, todo, evs, t, hpc, hi, ht⟩)
  · exact h.fresh fd (by rw [hpc]; rfl) hbad
  · have hfd : s.fds fd ≠ none := h.fresh fd (by rw [hpc]; rfl)
    rcases hbad with hbad | hbad
    · exact hfd hbad
    · rcases (h.polled fd).mp hbad with rfl | ⟨-, hfresh⟩
      · exact hfd h.server
      · rw [hpc] at hfresh; exact hfresh rfl
  · obtain ⟨hmem, hfd, i, hi⟩ := h.polled_open hpc hne
    rcases hbad with hbad | hbad | hbad
    · exact hfd hbad
    · exact hbad hmem
    · exact slot_none hbad i hi
  · refine (h.held t).mpr ⟨i, hi⟩ ?_
    rw [seated_all (by rw [hpc]; rfl), ht]

variable [DecidableEq κ]

/-- **A step keeps the records in agreement**, or ends the server. -/
theorem Table.moves {a : Args} {s t : State κ} {act : Act κ} (h : Table a s) (hm : Moves a s act t) :
    t.pc.Running → Table a t := by
  intro hrun
  cases hm with
  | connect =>
    exact h.frame rfl rfl rfl rfl rfl h.batch h.batched
      fun _ => List.append_ne_nil_of_right_ne_nil _ (by simp)
  | client => exact h.frame rfl rfl rfl rfl rfl h.batch h.batched h.queue
  | pwait hpc hnodup hmem =>
    refine h.frame rfl rfl rfl (by rw [hpc]; rfl) (by rw [hpc]; rfl) hnodup
      (fun e he => (hmem e he).1) fun hq => ?_
    have hready := (hmem _ hq).2 rfl
    simpa [State.ready] using hready
  | interrupt => exact absurd hrun (interrupt_stops s _)
  | skip hpc => exact h.done hpc rfl rfl rfl rfl rfl rfl rfl
  | accept hpc _ hfd hne => exact h.accept hpc hfd hne _ _ rfl rfl rfl rfl
  | join hpc _ _ _ hadd =>
    obtain ⟨i, name, hi, rfl⟩ := addAuthorizedUser_some hadd
    exact h.join hpc hi _ rfl rfl rfl rfl rfl
  | refuse hpc => exact h.refuse hpc _ rfl rfl rfl rfl rfl
  | echo hpc _ hmem => exact h.echo hpc hmem _ rfl rfl rfl rfl rfl
  | say hpc => exact h.done hpc rfl rfl rfl rfl rfl rfl rfl
  | leave hpc hne _ hslot => exact h.leave hpc hne (slot_some hslot) _ rfl rfl rfl rfl rfl
  | again hpc => exact h.done hpc rfl rfl rfl rfl rfl rfl rfl
  | turnAway hpc | pass hpc | deliver hpc | forwarded hpc =>
    have h1 := h.batch
    have h2 := h.batched
    have h3 := h.queue
    rw [hpc] at h1 h2 h3
    exact h.frame rfl rfl rfl (by rw [hpc]; rfl) (by rw [hpc]; rfl) h1 h2 h3
  | broken hbad => exact absurd hbad h.not_broken
  | readFails _ _ _ _ ht => exact absurd ht (hrun _)
  | writeFails _ _ ht => exact absurd ht (hrun _)

theorem Moves.ended {a : Args} {s t : State κ} {act : Act κ} {why : Stop} (hm : Moves a s act t)
    (hpc : s.pc = .ended why) : ¬ t.pc.Running := by
  intro hrun
  cases hm with
  | connect | client => exact hrun why hpc
  | interrupt => exact absurd hrun (interrupt_stops s _)
  | pwait h | skip h | accept h | turnAway h | join h | refuse h | echo h | say h | leave h
  | again h | pass h | deliver h | forwarded h => rw [hpc] at h; cases h
  | broken h =>
    rcases h with ⟨_, _, h, -⟩ | ⟨_, _, _, h, -⟩ | ⟨_, _, h, -⟩ | ⟨_, _, _, _, _, _, h, -⟩ <;>
      (rw [hpc] at h; cases h)
  | readFails _ _ _ _ ht => exact absurd ht (hrun _)
  | writeFails _ _ ht => exact absurd ht (hrun _)

theorem running_of_next {a : Args} {s t : State κ} {act : Act κ} (h : s.next a act = some t)
    (ht : t.pc.Running) : s.pc.Running :=
  fun _ hpc => (next_moves h).ended hpc ht

theorem table_reach {a : Args} {s : State κ} (h : (chat κ a).Reach s) :
    s.pc.Running → Table a s := by
  refine h.inv_while (R := fun s => s.pc.Running) (I := Table a) ?_ (fun _ _ _ => running_of_next) ?_
  · rintro s ⟨hpc, hc, he, hf, -⟩
    refine ⟨?_, ?_, ?_, hf _, ?_, ?_, ?_, ?_, ?_⟩
    · intro i j fd hi
      rw [hc] at hi; cases hi
    · intro fd
      rw [seated_all (by rw [hpc]; rfl)]
      simp [hf, hc]
    · intro fd
      simp [hf, he]
    · rw [he]; exact List.nodup_singleton _
    · rw [hpc]; intro fd hfd; cases hfd
    · rw [hpc]; exact List.nodup_nil
    · rw [hpc]; intro e he; cases he
    · rw [hpc]; intro hq; cases hq
  · exact fun _ _ _ _ _ ih _ hn hrun => ih.moves (next_moves hn) hrun

/-! ## Between two events -/

/-- The descriptors of the table, slot by slot. -/
def registered (clients : Clients) : List Nat :=
  (List.finRange maxClientCount).filterMap fun i => (clients i).fd

omit [DecidableEq κ] in
theorem Table.perm {a : Args} {s : State κ} (h : Table a s) {evs : List Event}
    (hpc : s.pc = .events evs) : (s.epoll.erase a.serverFd).Perm (registered s.clients) := by
  have hnodup : (registered s.clients).Nodup := by
    refine List.Nodup.filterMap (fun i j fd hi hj => ?_) (List.nodup_finRange _)
    exact h.slots i j fd hi hj
  have hfresh : s.pc.fresh = none := by rw [hpc]; rfl
  refine (List.perm_ext_iff_of_nodup (h.nodup.erase _) hnodup).mpr fun fd => ?_
  rw [h.nodup.mem_erase_iff, h.polled, ← seated_all (by rw [hpc]; rfl), h.held, hfresh]
  simp only [registered, List.mem_filterMap, List.mem_finRange, true_and, ne_eq, reduceCtorEq,
    not_false_eq_true, and_true]
  constructor
  · rintro ⟨hne, h1⟩; exact h1.resolve_left hne
  · rintro ⟨i, hi⟩
    refine ⟨?_, .inr ⟨i, hi⟩⟩
    rintro rfl
    exact (h.held _).mpr ⟨i, hi⟩ (by rw [seated_all (by rw [hpc]; rfl), h.server])

theorem registered_full {clients : Clients} (h : freeSlot clients = none) :
    (registered clients).length = maxClientCount := by
  have hsome : ∀ i, ∃ fd, (clients i).fd = some fd := by
    intro i
    have := List.find?_eq_none.mp h i (List.mem_finRange i)
    simp only [decide_eq_true_eq] at this
    exact Option.ne_none_iff_exists'.mp this
  choose g hg using hsome
  have hmap : registered clients = (List.finRange maxClientCount).map g := by
    unfold registered
    rw [← List.filterMap_eq_map]
    exact List.filterMap_congr fun i _ => hg i
  rw [hmap, List.length_map, List.length_finRange]

/-- Nothing of a descriptor is left. -/
structure State.Forgotten (s : State κ) (fd : Nat) : Prop where
  slot : ∀ i, (s.clients i).fd ≠ some fd
  epoll : fd ∉ s.epoll
  closed : s.fds fd = none

theorem bulkRead_end {rs : List ReadOutcome} {k : Conn} {stack : List Byte} {r : ReadResult}
    (hk : k.inbox = []) (hrs : ∀ e, .error e ∉ rs)
    (h : bulkRead rs k.stream stack 0 0 buffSize = some r) :
    ∃ buf rest, r = ⟨.ok 0, buf, rest⟩ := by
  obtain ⟨ret, buf, rest⟩ := r
  cases ret with
  | error e => exact absurd (bulkRead_error h) (hrs e)
  | ok n =>
    obtain ⟨hn, -⟩ := bulkRead_ok (Nat.zero_le _) h
    rw [Conn.stream, hk, List.take_nil, List.length_nil] at hn
    rw [hn]
    exact ⟨buf, rest, rfl⟩

omit [DecidableEq κ] in
theorem hangup_slot {s : State κ} {fd : Nat} {i : Fin maxClientCount} (hmem : fd ∈ s.epoll)
    (hslot : s.slot fd = some i) (c : κ) (evs : List Event) :
    s.hangup c fd evs = { s with
      pc := .events evs
      epoll := s.epoll.erase fd
      clients := Function.update s.clients i { s.clients i with fd := none }
      fds := Function.update s.fds fd none
      hist := .leave c :: s.hist } := by
  have hslot' : State.slot { s with pc := .events evs, epoll := s.epoll.erase fd } fd = some i :=
    hslot
  unfold State.hangup
  rw [if_pos hmem]
  simp only [hslot']

theorem Table.hangup {a : Args} {s t : State κ} (h : Table a s) {fd : Nat} {evs : List Event}
    {c : κ} (hpc : s.pc = .events ((fd, true) :: evs)) (hne : fd ≠ a.serverFd) (hfd : s.fds fd = some c)
    (hin : (s.conn c).inbox = []) {stack : List Byte} {rs : List ReadOutcome}
    (hrs : ∀ e, .error e ∉ rs) (hn : s.next a (.read stack rs) = some t) :
    t.pc = .events evs ∧ t.Forgotten fd := by
  obtain ⟨hmem, -, i, hi⟩ := h.polled_open hpc hne
  simp only [State.next, hpc, if_neg hne, State.read, hfd] at hn
  split at hn
  · rename_i hg
    cases hr : bulkRead rs (s.conn c).stream stack 0 0 buffSize with
    | none =>
      rw [hr] at hn
      cases hn
    | some r =>
      obtain ⟨buf, rest, rfl⟩ := bulkRead_end hin hrs hr
      rw [hr] at hn
      obtain ⟨j, hj⟩ : ∃ j, s.slot fd = some j :=
        Option.ne_none_iff_exists'.mp fun hnone => slot_none hnone i hi
      have hleave := hangup_slot (s := s.took c rest) hmem hj c evs
      simp only [if_neg (Nat.lt_irrefl 0), Option.some.injEq, hleave] at hn
      subst hn
      refine ⟨rfl, fun k hk => ?_, ?_, Function.update_self ..⟩
      · have hk' : (Function.update s.clients j { s.clients j with fd := none } k).fd = some fd :=
          hk
        rw [update_fd] at hk'
        split at hk'
        · cases hk'
        · rename_i hkj
          exact hkj (h.slots k j fd hk' (slot_some hj))
      · exact fun hin => (h.nodup.mem_erase_iff.mp hin).1 rfl
  · cases hn

/-- **The table between two events.** Its descriptors are distinct, they are the
clients registered in `epoll` and the accepted sockets that are open; there are
at most `maxClientCount`, and with fewer there is a free slot. The event of a
client that has ended its stream leaves nothing of its descriptor. -/
theorem clients_table {a : Args} {s : State κ} (h : (chat κ a).Reach s) {evs : List Event}
    (hpc : s.pc = .events evs) :
    (∀ i j fd, (s.clients i).fd = some fd → (s.clients j).fd = some fd → i = j) ∧
      (∀ fd, (∃ i, (s.clients i).fd = some fd) ↔ fd ∈ s.epoll ∧ fd ≠ a.serverFd) ∧
      (∀ fd, (∃ i, (s.clients i).fd = some fd) ↔ s.fds fd ≠ none) ∧
      s.epoll.Nodup ∧ (s.epoll.erase a.serverFd).length ≤ maxClientCount ∧
      ((s.epoll.erase a.serverFd).length < maxClientCount → freeSlot s.clients ≠ none) ∧
      ∀ fd rest c stack rs t, evs = (fd, true) :: rest → fd ≠ a.serverFd → s.fds fd = some c →
        (s.conn c).inbox = [] → (∀ e, .error e ∉ rs) → s.next a (.read stack rs) = some t →
        t.pc = .events rest ∧ t.Forgotten fd := by
  have ht := table_reach h (by rw [hpc]; intro why hw; cases hw)
  have hlen := (ht.perm hpc).length_eq
  refine ⟨ht.slots, fun fd => ?_, fun fd => ?_, ht.nodup, ?_, ?_, ?_⟩
  · have hmem := (ht.perm hpc).mem_iff (a := fd)
    rw [ht.nodup.mem_erase_iff] at hmem
    simp only [registered, List.mem_filterMap, List.mem_finRange, true_and] at hmem
    rw [← hmem, and_comm]
  · rw [← seated_all (by rw [hpc]; rfl), ht.held]
  · rw [hlen]
    exact (List.length_filterMap_le _ _).trans (List.length_finRange ..).le
  · intro hlt hnone
    rw [hlen, registered_full hnone] at hlt
    exact absurd hlt (lt_irrefl _)
  · rintro fd rest c stack rs t rfl hne hfd hin hrs hn
    exact ht.hangup hpc hne hfd hin hrs hn

/-- Two clients are let in, a third one with a wrong key is turned away on descriptor 7, and the
first one leaves. -/
theorem clients_table_two : ∃ s t : State (Option Bool), (chat _ lobby).Reach s ∧
    registered s.clients = [5, 6] ∧ s.fds 7 = none ∧
    (s.epoll.erase lobby.serverFd).length ≤ maxClientCount ∧
    s.next lobby (.read zeros [.data 0]) = some t ∧ t.Forgotten 5 := by
  let acts : List (Act (Option Bool)) := joining (some true) 5 ++ joining (some false) 6 ++
    [.connect none, .send none zeros, .pwait [(3, true)], .accept 7, .authorize zeros [.data 511],
      .refuse, .close (some true), .pwait [(5, true)]]
  have hrun : ((chat _ lobby).exec (.idle (Option Bool)) acts).map
      (fun s => (s.pc, registered s.clients, s.fds 7, s.fds 5)) =
        some (.events [(5, true)], [5, 6], none, some (some true)) := by decide +kernel
  have hread : ((chat _ lobby).exec (.idle (Option Bool)) acts).map
      (fun s => ((s.conn (some true)).inbox, (s.next lobby (.read zeros [.data 0])).isSome)) =
        some ([], true) := by decide +kernel
  obtain ⟨s, hs, heq⟩ := Option.map_eq_some_iff.mp hrun
  rw [hs, Option.map_some, Option.some.injEq] at hread
  simp only [Prod.mk.injEq] at heq hread
  obtain ⟨hpc, hreg, hseven, hfive⟩ := heq
  obtain ⟨t, ht⟩ := Option.isSome_iff_exists.mp hread.2
  have hr := LTS.Reach.exec (.init idle_start) hs
  obtain ⟨-, -, -, -, hlen, -, hhang⟩ := clients_table hr hpc
  exact ⟨s, t, hr, hreg, hseven, hlen, ht,
    (hhang 5 [] (some true) zeros [.data 0] t rfl (by decide) hfive hread.1 (by simp)
      ht).2⟩

end Ops.Chat
