import Mathlib.Data.Fintype.EquivFin
import Ops.Chat.Broadcast

/-!
# The service goes on

As long as no call is on a connection that was reset, no stream stops inside a greeting or message
and every client reads what it is sent, the server does not end, everybody is sent what they are to
hear, and the server only waits in `epoll_pwait` (`service_goes_on`). A write to a connection that
was reset ends the process: `SIGPIPE` has its default action.
-/

namespace Ops.Chat

open Ops.Posix

variable {κ : Type} [DecidableEq κ] {a : Args} {s t : State κ}

/-- A `bulk_read` does not wait: a buffer is there, or the stream has ended. -/
def Conn.Whole (k : Conn) : Prop := k.eof = true ∨ buffSize ≤ k.inbox.length

/-- No signal, no call on a connection that was reset (nor `EAGAIN`, which a blocking socket does
not give), and no client that keeps the server waiting. -/
structure Undisturbed (s : State κ) (act : Act κ) : Prop where
  signal : ∀ b, act ≠ .interrupt b
  peer : ∀ c, s.peer act = some c → (s.conn c).reset = false
  blocking : ∀ rs, (∃ stack, act = .authorize stack rs) ∨ (∃ stack, act = .read stack rs) →
    .error .eagain ∉ rs
  /-- Who is accepted has sent its greeting or ended its stream, and can be sent the echo. -/
  greeting : ∀ fd, act = .accept fd → ∀ c, s.backlog.head? = some c →
    (s.conn c).Whole ∧ buffSize ≤ (s.conn c).room
  /-- Who is reported has sent a whole message or ended its stream. -/
  message : ∀ evs, act = .pwait evs → ∀ fd, (fd, true) ∈ evs → ∀ c, s.fds fd = some c →
    (s.conn c).Whole
  /-- The send buffers have room for a message that is read. -/
  room : ∀ stack rs, act = .read stack rs → ∀ fd c, s.fds fd = some c → buffSize ≤ (s.conn c).room

/-- **An undisturbed step does not end the server.** -/
theorem Undisturbed.running {act : Act κ} (h : Undisturbed s act)
    (htab : Table a s) (hs : s.pc.Running) (hm : Moves a s act t) : t.pc.Running := by
  cases hm with
  | connect | client => exact hs
  | interrupt => exact absurd rfl (h.signal _)
  | broken hbad => exact absurd hbad htab.not_broken
  | readFails hact he hpeer herr =>
    rcases herr with rfl | hreset
    · exact absurd he (h.blocking _ hact)
    · rw [h.peer _ hpeer] at hreset; cases hreset
  | writeFails hpeer hreset =>
    rw [h.peer _ hpeer] at hreset; cases hreset
  | pwait | skip | accept | turnAway | join | refuse | echo | say | leave | again | pass | deliver
  | forwarded =>
    intro why hw; cases hw

/-! ## Nobody keeps the server waiting -/

/-- What the server is going to read is there, and what it is going to write has room. -/
structure Attended (s : State κ) : Prop where
  greet : ∀ fd evs, s.pc = .greet fd evs → ∀ c, s.fds fd = some c →
    (s.conn c).Whole ∧ buffSize ≤ (s.conn c).room
  batch : ∀ fd, (fd, true) ∈ s.pc.batch → ∀ c, s.fds fd = some c → (s.conn c).Whole
  awaited : ∀ c, s.awaits c = true → buffSize ≤ (s.conn c).room

theorem Conn.Whole.same {k k' : Conn} (h : k.Whole) (hk : k.SameStream k') : k'.Whole := by
  obtain ⟨-, hin, heof⟩ := hk
  rw [Conn.Whole, hin, heof]
  exact h

theorem awaits_fds {c : κ} (h : s.awaits c = true) : ∃ fd, s.fds fd = some c := by
  unfold State.awaits at h
  split at h
  · exact ⟨_, of_decide_eq_true h⟩
  · obtain ⟨i, -, hi⟩ := List.any_eq_true.mp h
    obtain ⟨u, -, -, hu⟩ := reaches_iff.mp hi
    exact ⟨u, hu⟩
  · cases h

theorem Attended.settle (h : Attended s) (hgreet : ∀ fd evs, t.pc ≠ .greet fd evs)
    (hbatch : ∀ e ∈ t.pc.batch, e ∈ s.pc.batch) (hquiet : ∀ c, t.awaits c = false)
    (hconn : ∀ fd c, (fd, true) ∈ t.pc.batch → t.fds fd = some c →
      s.fds fd = some c ∧ (s.conn c).SameStream (t.conn c)) : Attended t where
  greet fd evs hpc := absurd hpc (hgreet fd evs)
  batch fd hfd c hc := by
    obtain ⟨hold, hsame⟩ := hconn fd c hfd hc
    exact (h.batch fd (hbatch _ hfd) c hold).same hsame
  awaited c hc := by
    rw [hquiet] at hc
    cases hc

theorem sameStream_refl (k : Conn) : k.SameStream k := ⟨rfl, rfl, rfl⟩

theorem took_batch (hacc : Account s) {fd fd' : Nat} {b c : κ} (rest : List Byte)
    (hfd : s.fds fd = some c) (hne : fd' ≠ fd) (hb : s.fds fd' = some b) :
    (s.conn b).SameStream ((s.took c rest).conn b) := by
  have hbc : b ≠ c := by
    rintro rfl
    exact hne (hacc.inj fd' fd b hb hfd)
  rw [took_other s hbc]
  exact sameStream_refl _

omit [DecidableEq κ] in
/-- What is reported is registered, and so another descriptor than the one being admitted. -/
theorem Table.batch_ne (h : Table a s) {fd fd' : Nat} {b : Bool} (hfresh : s.pc.fresh = some fd)
    (hmem : (fd', b) ∈ s.pc.batch) : fd' ≠ fd := by
  rintro rfl
  rcases (h.polled fd').mp (h.batched _ hmem) with rfl | ⟨-, hne⟩
  · exact h.fresh _ hfresh h.server
  · exact hne hfresh

omit [DecidableEq κ] in
theorem Table.tail_ne (h : Table a s) {fd fd' : Nat} {b b' : Bool} {evs : List Event}
    (hpc : s.pc = .events ((fd, b) :: evs)) (hmem : (fd', b') ∈ evs) : fd' ≠ fd := by
  have hnodup := h.batch
  rw [hpc] at hnodup
  rintro rfl
  exact (List.nodup_cons.mp hnodup).1 (List.mem_map.mpr ⟨_, hmem, rfl⟩)

theorem Attended.client (h : Attended s) {c : κ} {k : Conn} {bytes : List Byte}
    (hin : k.inbox = (s.conn c).inbox ++ bytes)
    (heof : (s.conn c).eof = true → k.eof = true ∧ bytes = [])
    (hroom : (s.conn c).room ≤ k.room) : Attended (s.setConn c k) := by
  have hwhole : ∀ b, (s.conn b).Whole → ((s.setConn c k).conn b).Whole := by
    intro b hb
    rw [setConn_conn]
    split
    · rename_i hbc
      subst hbc
      refine hb.imp (fun he => (heof he).1) fun hlen => ?_
      rw [hin, List.length_append]
      omega
    · exact hb
  have hgrow : ∀ b, (s.conn b).room ≤ ((s.setConn c k).conn b).room := by
    intro b
    rw [setConn_conn]
    split
    · rename_i hbc
      subst hbc
      exact hroom
    · exact Nat.le_refl _
  exact ⟨fun fd evs hpc b hb => (h.greet fd evs hpc b hb).imp (hwhole b) (hgrow b).trans',
    fun fd hfd b hb => hwhole b (h.batch fd hfd b hb),
    fun b hb => (h.awaited b hb).trans (hgrow b)⟩

theorem Attended.connect {c : κ} (h : Attended s) (hacc : Account s)
    (ho : (s.conn c).opened = false) {backlog : List κ} {room : Nat} :
    Attended { s.setConn c { s.conn c with opened := true, room := room } with
      backlog := backlog } := by
  have hconn : ∀ b fd, s.fds fd = some b →
      (s.setConn c { s.conn c with opened := true, room := room }).conn b = s.conn b := by
    intro b fd hb
    rw [setConn_conn, if_neg]
    rintro rfl
    rw [hacc.opened fd b hb] at ho
    cases ho
  refine ⟨fun fd evs hpc b hb => ?_, fun fd hfd b hb => ?_, fun b hb => ?_⟩
  · exact (hconn b fd hb).symm ▸ h.greet fd evs hpc b hb
  · exact (hconn b fd hb).symm ▸ h.batch fd hfd b hb
  · obtain ⟨fd, hfd⟩ := awaits_fds (s := s) hb
    exact (hconn b fd hfd).symm ▸ h.awaited b hb

theorem took_room (s : State κ) (c b : κ) (rest : List Byte) :
    ((s.took c rest).conn b).room = (s.conn b).room := by
  by_cases hbc : b = c
  · rw [hbc, took_self]
  · rw [took_other s hbc]

/-- Who is still to be sent the message has room for it. -/
theorem Attended.rest {fd : Nat} {buf : List Byte} {i : Fin maxClientCount}
    {todo : List (Fin maxClientCount)} {evs : List Event} (h : Attended s)
    (hpc : s.pc = .forward fd buf (i :: todo) evs) {c : κ}
    (hc : todo.any (s.reaches fd c) = true) : buffSize ≤ (s.conn c).room := by
  refine h.awaited c ?_
  rw [awaits_forward hpc]
  exact Bool.or_eq_true_iff.mpr (.inr hc)

/-- **A step keeps the server attended.** -/
theorem Attended.moves {act : Act κ} (h : Attended s) (hacc : Account s) (htab : Table a s)
    (hu : Undisturbed s act) (hm : Moves a s act t) (hrun : t.pc.Running) : Attended t := by
  cases hm with
  | connect ho => exact h.connect hacc ho
  | client _ _ _ _ hin heof hroom => exact h.client hin heof hroom
  | pwait =>
    exact ⟨nofun, fun fd hfd c hc => hu.message _ rfl fd hfd c hc, nofun⟩
  | interrupt => exact absurd rfl (hu.signal _)
  | skip hpc =>
    exact h.settle nofun (fun e he => by rw [hpc]; exact List.mem_cons_of_mem _ he) (fun _ => rfl)
      fun _ c _ hc => ⟨hc, sameStream_refl (s.conn c)⟩
  | @accept evs fd c _ hpc hback hfd hne =>
    refine ⟨?_, fun fd' hfd' b hb => ?_, nofun⟩
    · rintro _ _ ⟨⟩ b hb
      have hupd : Function.update s.fds fd (some c) fd = some b := hb
      rw [Function.update_self] at hupd
      cases hupd
      exact hu.greeting fd rfl c (by rw [hback]; rfl)
    · have hmem : (fd', true) ∈ s.pc.batch := by
        rw [hpc]
        exact List.mem_cons_of_mem _ hfd'
      have hother : fd' ≠ fd := by
        rintro rfl
        rcases (htab.polled fd').mp (htab.batched _ hmem) with he | ⟨hopen, -⟩
        · exact hne he
        · exact hopen hfd
      have hupd : Function.update s.fds fd (some c) fd' = some b := hb
      rw [Function.update_of_ne hother] at hupd
      exact h.batch fd' hmem b hupd
  | @turnAway fd _ _ rest _ c hpc hfd =>
    refine h.settle nofun (fun e he => by rw [hpc]; exact he) (fun _ => rfl) fun fd' b hmem hb => ?_
    have hfresh : s.pc.fresh = some fd := by rw [hpc]; rfl
    have hne := htab.batch_ne hfresh (by rw [hpc]; exact hmem)
    exact ⟨hb, took_batch hacc rest hfd hne hb⟩
  | @join fd _ _ _ _ rest _ c _ hpc hfd =>
    refine ⟨nofun, fun fd' hmem b hb => ?_, fun b hb => ?_⟩
    · have hmem' : (fd', true) ∈ s.pc.batch := by
        rw [hpc]
        exact hmem
      have hfresh : s.pc.fresh = some fd := by rw [hpc]; rfl
      have hne := htab.batch_ne hfresh hmem'
      exact (h.batch fd' hmem' b hb).same (took_batch hacc rest hfd hne hb)
    · have hb' : s.fds fd = some b := of_decide_eq_true hb
      show buffSize ≤ ((s.took c rest).conn b).room
      rw [took_room]
      exact (h.greet fd _ hpc b hb').2
  | @refuse fd _ hpc =>
    refine h.settle nofun (fun e he => by rw [hpc]; exact he) (fun _ => rfl) fun fd' b _ hb => ?_
    have hupd : Function.update s.fds fd none fd' = some b := hb
    rw [Function.update_apply] at hupd
    split at hupd
    · cases hupd
    · exact ⟨hupd, sameStream_refl _⟩
  | @echo _ _ _ _ c hpc =>
    exact h.settle nofun (fun e he => by rw [hpc]; exact he) (fun _ => rfl)
      fun _ b _ hb => ⟨hb, (wrote_same s c _ b).1⟩
  | @say fd _ _ _ _ rest _ c hpc _ hfd =>
    refine ⟨nofun, fun fd' hmem b hb => ?_, fun b hb => ?_⟩
    · have hmem' : (fd', true) ∈ s.pc.batch := by
        rw [hpc]
        exact List.mem_cons_of_mem _ hmem
      exact (h.batch fd' hmem' b hb).same (took_batch hacc rest hfd (htab.tail_ne hpc hmem) hb)
    · obtain ⟨fd', hb'⟩ := awaits_fds hb
      show buffSize ≤ ((s.took c rest).conn b).room
      rw [took_room]
      exact hu.room _ _ rfl fd' b hb'
  | @leave fd _ _ rest _ c _ hpc _ hfd =>
    refine h.settle nofun (fun e he => by rw [hpc]; exact List.mem_cons_of_mem _ he) (fun _ => rfl)
      fun fd' b hmem hb => ?_
    have hne := htab.tail_ne hpc hmem
    have hupd : Function.update s.fds fd none fd' = some b := hb
    rw [Function.update_of_ne hne] at hupd
    exact ⟨hupd, took_batch hacc rest hfd hne hupd⟩
  | again _ he => exact absurd he (hu.blocking _ (.inr ⟨_, rfl⟩))
  | pass hpc =>
    exact ⟨nofun, fun fd hmem b hb => h.batch fd (by rw [hpc]; exact hmem) b hb,
      fun b hb => h.rest hpc hb⟩
  | @deliver fd u _ i todo _ _ c hpc hi _ hfd =>
    have htodo : (i :: todo).Nodup := by
      have hnodup := hacc.todo
      rwa [hpc] at hnodup
    refine ⟨nofun, fun fd' hmem b hb => ?_, fun b hb => ?_⟩
    · exact (h.batch fd' (by rw [hpc]; exact hmem) b hb).same (wrote_same s c _ b).1
    · have hany : todo.any (s.reaches fd b) = true := hb
      have hbc : b ≠ c := by
        rintro rfl
        rw [hacc.reaches_once htab htodo hi hfd] at hany
        cases hany
      show buffSize ≤ ((s.wrote c _).conn b).room
      rw [State.wrote, setConn_conn, if_neg hbc]
      exact h.rest hpc hany
  | forwarded hpc =>
    exact h.settle nofun (fun e he => by rw [hpc]; exact he) (fun _ => rfl)
      fun _ c _ hc => ⟨hc, sameStream_refl (s.conn c)⟩
  | broken hbad => exact absurd hbad htab.not_broken
  | readFails _ _ _ _ ht => exact absurd ht (hrun _)
  | writeFails _ _ ht => exact absurd ht (hrun _)

theorem running_reach (h : (chat κ a).ReachIf Undisturbed s) : s.pc.Running := by
  refine LTS.ReachIf.inv (I := fun s : State κ => s.pc.Running) ?_ ?_ h
  · rintro s ⟨hpc, -⟩
    rw [hpc]; intro why hw; cases hw
  · intro s act t hr hs hu hn
    exact hu.running (table_reach hr.reach hs) hs (next_moves hn)

theorem attended_reach (h : (chat κ a).ReachIf Undisturbed s) : Attended s := by
  refine LTS.ReachIf.inv (I := fun s : State κ => Attended s) ?_ ?_ h
  · rintro s ⟨hpc, -⟩
    refine ⟨by rw [hpc]; nofun, by rw [hpc]; nofun, fun c hc => ?_⟩
    unfold State.awaits at hc
    rw [hpc] at hc
    cases hc
  · intro s act t hr ih hu hn
    have hs := running_reach hr
    have htab := table_reach hr.reach hs
    have hm := next_moves hn
    exact ih.moves (account_reach hr.reach hs) htab hu hm (hu.running htab hs hm)

/-! ## Progress -/

def Act.ofServer : Act κ → Bool
  | .connect _ | .send _ _ | .recv _ _ | .close _ | .reset _ | .interrupt _ => false
  | _ => true

/-- The outcomes of calls that get all they want at once. -/
def wholeRead : List ReadOutcome := [.data (buffSize - 1), .data (buffSize - 1)]
def wholeWrite : List WriteOutcome := [.wrote (buffSize - 1)]

omit [DecidableEq κ] in
theorem Table.exists_fd (h : Table a s) {evs : List Event} (hpc : s.pc = .events evs) :
    ∃ fd, s.fds fd = none ∧ fd ≠ a.serverFd := by
  obtain ⟨fd, hfd⟩ := Infinite.exists_notMem_finset (a.serverFd :: registered s.clients).toFinset
  simp only [List.mem_toFinset, List.mem_cons, not_or, registered, List.mem_filterMap,
    List.mem_finRange, true_and] at hfd
  refine ⟨fd, ?_, hfd.1⟩
  by_contra hne
  exact hfd.2 ((h.held fd).mp (by rwa [seated_all (by rw [hpc]; rfl)]))

omit [DecidableEq κ] in
theorem exists_accept {fd : Nat} {c : κ} {backlog : List κ} (hback : s.backlog = c :: backlog)
    (hfd : s.fds fd = none) (hne : fd ≠ a.serverFd) (evs : List Event) :
    ∃ t, s.accept a evs fd = some t := by
  simp only [State.accept, hback, if_pos (And.intro hfd hne)]
  exact ⟨_, rfl⟩

theorem exists_bulkRead {k : Conn} (hk : k.Whole) :
    ∃ n buf rest, bulkRead wholeRead k.stream zeros 0 0 buffSize = some ⟨.ok n, buf, rest⟩ :=
  bulkRead_whole (s := k.stream) hk (by decide) zeros 0 0

theorem exists_authorize {fd : Nat} {c : κ} (hfd : s.fds fd = some c) (evs : List Event)
    (hk : (s.conn c).Whole) : ∃ t, s.authorize a fd evs zeros wholeRead = some t := by
  obtain ⟨n, buf, rest, hr⟩ := exists_bulkRead hk
  have hg : zeros.length = buffSize ∧ (s.conn c).reads wholeRead = true :=
    ⟨List.length_replicate, rfl⟩
  simp only [State.authorize, hfd, if_pos hg, hr]
  split <;> exact ⟨_, rfl⟩

theorem exists_read (evs : List Event) {fd : Nat} {c : κ} (hfd : s.fds fd = some c)
    (hk : (s.conn c).Whole) : ∃ t, s.read fd evs zeros wholeRead = some t := by
  obtain ⟨n, buf, rest, hr⟩ := exists_bulkRead hk
  have hg : zeros.length = buffSize ∧ (s.conn c).reads wholeRead = true :=
    ⟨List.length_replicate, rfl⟩
  simp only [State.read, hfd, if_pos hg, hr]
  split <;> exact ⟨_, rfl⟩

theorem exists_echo {fd : Nat} {c : κ} (hfd : s.fds fd = some c) (buf : List Byte)
    (evs : List Event) (hroom : buffSize ≤ (s.conn c).room) :
    ∃ t, s.echo fd buf evs wholeWrite = some t := by
  have hw : (s.conn c).writes wholeWrite = true := Conn.writes_of_room hroom
  simp only [State.echo, hfd]
  rw [if_pos hw, wholeWrite, bulkWrite_whole (by decide)]
  simp only
  split <;> exact ⟨_, rfl⟩

theorem exists_forward {fd : Nat} {buf : List Byte} {i : Fin maxClientCount}
    {todo : List (Fin maxClientCount)} {evs : List Event}
    (hroom : ∀ u c, (s.clients i).fd = some u → u ≠ fd → s.fds u = some c →
      buffSize ≤ (s.conn c).room) : ∃ t, s.forward fd buf i todo evs wholeWrite = some t := by
  unfold State.forward
  split
  · exact ⟨_, rfl⟩
  · rename_i u hu
    split
    · exact ⟨_, rfl⟩
    · rename_i hne
      split
      · exact ⟨_, rfl⟩
      · rename_i c hc
        have hw : (s.conn c).writes wholeWrite = true := Conn.writes_of_room (hroom u c hu hne hc)
        rw [if_pos hw, wholeWrite, bulkWrite_whole (by decide)]
        exact ⟨_, rfl⟩

/-- **The server only waits in `epoll_pwait`.** -/
theorem progress (h : Table a s) (hatt : Attended s) (hrun : s.pc.Running)
    (hpc : s.pc ≠ .events []) : ∃ act t, act.ofServer = true ∧ s.next a act = some t := by
  cases hs : s.pc with
  | ended why => exact absurd hs (hrun why)
  | greet fd evs =>
    obtain ⟨c, hc⟩ := Option.ne_none_iff_exists'.mp (h.fresh fd (by rw [hs]; rfl))
    obtain ⟨t, ht⟩ := exists_authorize (a := a) hc evs (hatt.greet fd evs hs c hc).1
    exact ⟨.authorize zeros wholeRead, t, rfl, by simp only [State.next, hs, ht]⟩
  | refused fd evs => exact ⟨.refuse, s.refuse fd evs, rfl, by simp only [State.next, hs]⟩
  | echo fd buf evs =>
    obtain ⟨c, hc⟩ := Option.ne_none_iff_exists'.mp (h.fresh fd (by rw [hs]; rfl))
    have haw : s.awaits c = true := by
      unfold State.awaits
      rw [hs]
      exact decide_eq_true hc
    obtain ⟨t, ht⟩ := exists_echo hc buf evs (hatt.awaited c haw)
    exact ⟨.echo wholeWrite, t, rfl, by simp only [State.next, hs, ht]⟩
  | forward fd buf todo evs =>
    cases todo with
    | nil =>
      exact ⟨.forward wholeWrite, { s with pc := .events evs }, rfl, by simp only [State.next, hs]⟩
    | cons i todo =>
      have hroom : ∀ u c, (s.clients i).fd = some u → u ≠ fd → s.fds u = some c →
          buffSize ≤ (s.conn c).room := by
        intro u c hu hne hc
        refine hatt.awaited c ?_
        rw [awaits_forward hs]
        exact Bool.or_eq_true_iff.mpr (.inl (reaches_iff.mpr ⟨u, hu, hne, hc⟩))
      obtain ⟨t, ht⟩ : ∃ t, s.forward fd buf i todo evs wholeWrite = some t := exists_forward hroom
      exact ⟨.forward wholeWrite, t, rfl, by simp only [State.next, hs, ht]⟩
  | events evs =>
    rcases evs with _ | ⟨⟨fd, b⟩, evs⟩
    · exact absurd hs hpc
    · cases b with
      | false => exact ⟨.skip, { s with pc := .events evs }, rfl, by simp only [State.next, hs]⟩
      | true =>
        by_cases hfd : fd = a.serverFd
        · subst hfd
          have hq := h.queue (by rw [hs]; exact List.mem_cons_self)
          obtain ⟨c, backlog, hback⟩ := List.exists_cons_of_ne_nil hq
          obtain ⟨fd, hnone, hne⟩ := h.exists_fd hs
          obtain ⟨t, ht⟩ := exists_accept hback hnone hne evs
          exact ⟨.accept fd, t, rfl, by simp only [State.next, hs, if_true, ht]⟩
        · obtain ⟨-, hopen, -⟩ := h.polled_open hs hfd
          obtain ⟨c, hc⟩ := Option.ne_none_iff_exists'.mp hopen
          have hwhole := hatt.batch fd (by rw [hs]; exact List.mem_cons_self) c hc
          obtain ⟨t, ht⟩ := exists_read evs hc hwhole
          exact ⟨.read zeros wholeRead, t, rfl, by simp only [State.next, hs, if_neg hfd, ht]⟩

/-- **The service goes on** while no client disturbs it: the server has not ended, it has a next
step unless it waits for events, and between two events everybody has been sent what they are to
hear. -/
theorem service_goes_on (h : (chat κ a).ReachIf Undisturbed s) :
    s.pc.Running ∧
      (s.pc ≠ .events [] → ∃ act t, act.ofServer = true ∧ s.next a act = some t) ∧
      ∀ evs, s.pc = .events evs → ∀ c,
        (s.conn c).out = greeting c s.hist ++ ((heard c s.hist).map Prod.snd).flatten := by
  have hrun := running_reach h
  have htab := table_reach h.reach hrun
  exact ⟨hrun, progress htab (attended_reach h) hrun, fun evs hpc c => out_eq h.reach hpc c⟩

/-- `Undisturbed`, for two clients. -/
def quiet (s : State Bool) : Act Bool → Bool
  | .interrupt _ => false
  | .accept _ => decide (∀ c, s.backlog.head? = some c →
    ((s.conn c).eof = true ∨ buffSize ≤ (s.conn c).inbox.length) ∧ buffSize ≤ (s.conn c).room)
  | .pwait evs => decide (∀ e ∈ evs, ∀ c, s.fds e.1 = some c →
    (s.conn c).eof = true ∨ buffSize ≤ (s.conn c).inbox.length)
  | .authorize _ rs => decide (.error .eagain ∉ rs ∧ ∀ c, (s.conn c).reset = false)
  | .read _ rs => decide (.error .eagain ∉ rs ∧ (∀ c, (s.conn c).reset = false) ∧
    ∀ c, buffSize ≤ (s.conn c).room)
  | _ => decide (∀ c, (s.conn c).reset = false)

theorem undisturbed_of_quiet {s : State Bool} {act : Act Bool} (h : quiet s act = true) :
    Undisturbed s act := by
  cases act with
  | interrupt => cases h
  | accept fd =>
    exact ⟨nofun, nofun, by simp, fun _ _ c hc => of_decide_eq_true h c hc, nofun, nofun⟩
  | pwait evs =>
    refine ⟨nofun, nofun, by simp, nofun, ?_, nofun⟩
    rintro _ ⟨⟩ fd hfd c hc
    exact of_decide_eq_true h (fd, true) hfd c hc
  | authorize stack rs =>
    obtain ⟨hrs, hreset⟩ := of_decide_eq_true h
    refine ⟨nofun, fun c _ => hreset c, ?_, nofun, nofun, nofun⟩
    rintro _ (⟨_, ⟨⟩⟩ | ⟨_, ⟨⟩⟩)
    exact hrs
  | read stack rs =>
    obtain ⟨hrs, hreset, hroom⟩ := of_decide_eq_true h
    refine ⟨nofun, fun c _ => hreset c, ?_, nofun, nofun, fun _ _ _ _ c _ => hroom c⟩
    rintro _ (⟨_, ⟨⟩⟩ | ⟨_, ⟨⟩⟩)
    exact hrs
  | connect | send | recv | close | reset | skip | refuse | echo | forward =>
    exact ⟨nofun, fun c _ => of_decide_eq_true h c, by simp, nofun, nofun, nofun⟩

/-- Two clients are in, and a message of the one is about to be sent to the other. -/
theorem service_goes_on_message : ∃ s : State Bool,
    (∃ buf, s.pc = .forward 5 buf [1, 2, 3] []) ∧ s.pc.Running ∧
    ∃ act t, act.ofServer = true ∧ s.next lobby act = some t := by
  let acts : List (Act Bool) := joining true 5 ++ joining false 6 ++ [.send true hello,
    .pwait [(5, true)], .read zeros [.data (buffSize - 1)], .forward []]
  have hrun : ((chat Bool lobby).execIf (fun s act => quiet s act = true) (.idle Bool) acts).map
      (fun s => s.pc) = some (.forward 5 hello [1, 2, 3] []) := by decide +kernel
  obtain ⟨s, hs, hpc⟩ := Option.map_eq_some_iff.mp hrun
  have hquiet : (chat Bool lobby).ReachIf (fun s act => quiet s act = true) s :=
    LTS.ReachIf.execIf (.init idle_start) hs
  obtain ⟨hrunning, hstep, -⟩ := service_goes_on (hquiet.mono fun _ _ => undisturbed_of_quiet)
  exact ⟨s, ⟨hello, hpc⟩, hrunning, hstep (by rw [hpc]; nofun)⟩

/-- Client 6 resets its connection, and client 5 says something: the write to
client 6 ends the server. -/
theorem service_ended_by_reset : ∃ s : State Bool,
    (chat Bool lobby).ReachIf (fun _ act => ∀ b, act ≠ .interrupt b) s ∧ s.pc = .ended .sigpipe := by
  have hrun : ((chat Bool lobby).exec (.idle Bool)
      (joining true 5 ++ joining false 6 ++ [.send true hello, .reset false, .pwait [(5, true)],
        .read zeros [.data (buffSize - 1)], .forward [], .forward [.error .epipe]])).map
      (fun s => s.pc) = some (.ended .sigpipe) := by decide +kernel
  obtain ⟨s, hs, hpc⟩ := Option.map_eq_some_iff.mp hrun
  exact ⟨s, LTS.ReachIf.exec (.init idle_start) (by simp [joining]) hs, hpc⟩

end Ops.Chat
