import Ops.Chat.Broadcast

/-!
# Messages and the streams they are cut from

`bulk_read` cuts a client's stream into buffers: the greeting, then the messages.
While no stream ends inside a message (`WholeMessages`) what is said are complete
blocks of the sender's stream (`faithful_broadcast`); a shorter piece at its end
is forwarded with whatever the stack held behind it.
-/

namespace Ops.Chat

open Ops.Posix

variable {κ : Type} [DecidableEq κ]

/-- A `bulk_read` for a client finds a message in full or none (and does not fail
with `EAGAIN`, which a blocking socket does not do). -/
def WholeMessages (s : State κ) : Act κ → Prop
  | .read _ rs => .error .eagain ∉ rs ∧ ∀ fd b evs c, s.pc = .events ((fd, b) :: evs) →
      s.fds fd = some c → buffSize ≤ (s.conn c).inbox.length ∨ (s.conn c).inbox = []
  | _ => True

/-- The stream of a member is cut into its greeting and what it has said; or it
ended inside the greeting. -/
def Cut (k : Conn) (msgs : List (List Byte)) : Prop :=
  (∃ taken, k.sent = taken ++ k.inbox ∧ taken.length = buffSize * (msgs.length + 1) ∧
    msgs = blocks buffSize (taken.drop buffSize)) ∨
  (k.eof = true ∧ k.inbox = [] ∧ msgs = [])

structure Framed (s : State κ) : Prop where
  unread : ∀ c, (s.conn c).opened = false ∨ c ∈ s.newcomers → (s.conn c).inbox = (s.conn c).sent
  cut : ∀ fd c, s.seated fd = some c → Cut (s.conn c) (said c s.hist)
  spoken : ∀ c, said c s.hist <+: blocks buffSize ((s.conn c).sent.drop buffSize)

theorem Cut.greeted {k k' : Conn} {rs : List ReadOutcome} {stack buf rest : List Byte} {n : Nat}
    (hk : k.inbox = k.sent) (h : bulkRead rs k.stream stack 0 0 buffSize = some ⟨.ok n, buf, rest⟩)
    (hsent : k'.sent = k.sent) (hinbox : k'.inbox = rest) (heof : k'.eof = k.eof) : Cut k' [] := by
  obtain ⟨-, -, hrest, hend⟩ := bulkRead_ok (Nat.zero_le _) h
  have hrest' : k'.inbox = k.sent.drop buffSize := by rw [hinbox, hrest, ← hk]; rfl
  by_cases hlen : buffSize ≤ k.sent.length
  · refine .inl ⟨k.sent.take buffSize, ?_, ?_, ?_⟩
    · rw [hsent, hrest', List.take_append_drop]
    · rw [List.length_take, Nat.min_eq_left hlen]; rfl
    · rw [List.drop_of_length_le (List.length_take_le ..)]; rfl
  · refine .inr ⟨?_, ?_, rfl⟩
    · rw [heof]
      refine hend ?_
      show k.inbox.length < buffSize
      rw [hk]; omega
    · rw [hrest', List.drop_of_length_le (by omega)]

theorem Cut.said {k k' : Conn} {msgs : List (List Byte)} {rs : List ReadOutcome}
    {stack buf rest : List Byte} {n : Nat} (hk : Cut k msgs) (hlen : stack.length = buffSize)
    (hn : 0 < n) (h : bulkRead rs k.stream stack 0 0 buffSize = some ⟨.ok n, buf, rest⟩)
    (hwhole : buffSize ≤ k.inbox.length ∨ k.inbox = []) (hsent : k'.sent = k.sent)
    (hinbox : k'.inbox = rest) :
    Cut k' (msgs ++ [buf]) ∧ msgs ++ [buf] <+: blocks buffSize (k'.sent.drop buffSize) := by
  obtain ⟨hn', hbuf, hrest, -⟩ := bulkRead_ok (Nat.zero_le _) h
  have hne : k.inbox ≠ [] := by
    intro h0
    rw [Conn.stream, h0] at hn'
    simp at hn'
    omega
  have hin : buffSize ≤ k.inbox.length := hwhole.resolve_right hne
  have htake : (k.inbox.take buffSize).length = buffSize := by
    rw [List.length_take, Nat.min_eq_left hin]
  have hbuf' : buf = k.inbox.take buffSize := by
    rw [hbuf, Conn.stream, blit_all (by rw [hlen, htake])]
  rcases hk with ⟨taken, h1, h2, h3⟩ | ⟨-, h0, -⟩
  · have hdrop : (taken ++ k.inbox.take buffSize).drop buffSize =
        taken.drop buffSize ++ k.inbox.take buffSize :=
      List.drop_append_of_le_length (by rw [h2, Nat.mul_succ]; omega)
    have hblocks : msgs ++ [buf] =
        blocks buffSize ((taken ++ k.inbox.take buffSize).drop buffSize) := by
      rw [hdrop, blocks_append_block (n := msgs.length) ?_ htake (by decide), ← h3, hbuf']
      rw [List.length_drop, h2, Nat.mul_succ, Nat.add_sub_cancel]
    have hall : k'.sent = (taken ++ k.inbox.take buffSize) ++ k'.inbox := by
      rw [hsent, hinbox, hrest, h1, List.append_assoc, Conn.stream, List.take_append_drop]
    refine ⟨.inl ⟨_, hall, ?_, hblocks⟩, ?_⟩
    · simp only [List.length_append, htake, h2, List.length_singleton, Nat.mul_succ]
    · have hle : buffSize ≤ (taken ++ k.inbox.take buffSize).length := by
        rw [List.length_append, htake]; omega
      rw [hblocks, hall, List.drop_append_of_le_length hle]
      exact blocks_mono _ _ _
  · exact absurd h0 hne

theorem Cut.more {k k' : Conn} {msgs : List (List Byte)} {bytes : List Byte} (h : Cut k msgs)
    (hsent : k'.sent = k.sent ++ bytes) (hinbox : k'.inbox = k.inbox ++ bytes)
    (heof : k.eof = true → k'.eof = true ∧ bytes = []) : Cut k' msgs := by
  rcases h with ⟨taken, h1, h2, h3⟩ | ⟨h1, h2, h3⟩
  · exact .inl ⟨taken, by rw [hsent, hinbox, h1, List.append_assoc], h2, h3⟩
  · obtain ⟨h4, h5⟩ := heof h1
    exact .inr ⟨h4, by rw [hinbox, h2, h5]; rfl, h3⟩

theorem blocks_more {k k' : Conn} {bytes : List Byte} (h : k'.sent = k.sent ++ bytes) :
    blocks buffSize (k.sent.drop buffSize) <+: blocks buffSize (k'.sent.drop buffSize) := by
  rw [h, List.drop_append]
  exact blocks_mono _ _ _

theorem Cut.same {k k' : Conn} {msgs : List (List Byte)} (h : Cut k msgs) (hk : k.SameStream k') :
    Cut k' msgs := by
  obtain ⟨h1, h2, h3⟩ := hk
  unfold Cut
  rw [h1, h2, h3]
  exact h

/-- A step in which no stream is read and nobody is let in or speaks. -/
theorem Framed.frame {s t : State κ} (h : Framed s)
    (hnew : ∀ c, (t.conn c).opened = false ∨ c ∈ t.newcomers →
      (s.conn c).opened = false ∨ c ∈ s.newcomers)
    (hseat : t.seated = s.seated) (hhist : t.hist = s.hist)
    (hconn : ∀ c, (s.conn c).SameStream (t.conn c)) : Framed t where
  unread c hc := by rw [(hconn c).1, (hconn c).2.1]; exact h.unread c (hnew c hc)
  cut fd c hfd := by
    rw [hhist]
    exact (h.cut fd c (hseat ▸ hfd)).same (hconn c)
  spoken c := by rw [hhist, (hconn c).1]; exact h.spoken c

theorem Framed.frame_pc {s t : State κ} (h : Framed s) (hseat : t.seated = s.seated)
    (hnew : t.newcomers = s.newcomers) (hhist : t.hist = s.hist)
    (hconn : ∀ c, (s.conn c).SameStream (t.conn c) ∧ (t.conn c).opened = (s.conn c).opened) :
    Framed t :=
  h.frame (fun c hc => by rwa [(hconn c).2, hnew] at hc) hseat hhist fun c => (hconn c).1

/-- Somebody is let in: the greeting is the first block of its stream. -/
theorem Framed.join {s t : State κ} (h : Framed s) (hacc : Account s) {fd n : Nat} {c : κ}
    {evs : List Event} {stack buf rest : List Byte} {rs : List ReadOutcome}
    (hpc : s.pc = .greet fd evs) (hfd : s.fds fd = some c)
    (hr : bulkRead rs (s.conn c).stream stack 0 0 buffSize = some ⟨.ok n, buf, rest⟩)
    (hconn : t.conn = (s.took c rest).conn) (htpc : t.pc = .echo fd buf evs) (hfds : t.fds = s.fds)
    (hback : t.backlog = s.backlog) (hhist : t.hist = .join c buf :: s.hist) : Framed t := by
  have hold := newcomers_greet hpc hfd
  have hnew : t.newcomers = s.backlog := by rw [newcomers_backlog (by rw [htpc]; rfl), hback]
  have hmem : c ∈ s.newcomers := hold ▸ List.mem_cons_self
  have hqueue : (c :: s.backlog).Nodup := hold ▸ hacc.queue
  have hsaid : ∀ b, said b t.hist = said b s.hist := fun b => by rw [hhist]; rfl
  refine ⟨fun b hb => ?_, fun fd' b hfd' => ?_, fun b => ?_⟩
  · rw [hconn, hnew, (took_conn s c rest b).1] at hb
    have hbc : b ≠ c := by
      rintro rfl
      rcases hb with hb | hb
      · rw [(hacc.queued b hmem).1] at hb; cases hb
      · exact (List.nodup_cons.mp hqueue).1 hb
    rw [hconn, took_other s hbc]
    exact h.unread b (hb.imp id fun hq => hold ▸ List.mem_cons_of_mem _ hq)
  · rw [hsaid, hconn]
    rw [seated_all (by rw [htpc]; rfl), hfds] at hfd'
    by_cases hbc : b = c
    · subst hbc
      rw [(hacc.silent b (.inr hmem)).2.2]
      exact Cut.greeted (h.unread b (.inr hmem)) hr (took_sent s b rest b) (by rw [took_self])
        (by rw [took_self])
    · rw [took_other s hbc]
      refine h.cut fd' b ?_
      have hun : s.pc.unseated = some fd := by rw [hpc]; rfl
      rwa [seated_other hun]
      rintro rfl
      rw [hfd] at hfd'
      cases hfd'
      exact hbc rfl
  · rw [hsaid, hconn, took_sent]
    exact h.spoken b

theorem Framed.say {s t : State κ} (h : Framed s) (hacc : Account s) {fd n : Nat} {c : κ}
    {stack buf rest : List Byte} {rs : List ReadOutcome} (hfd : s.seated fd = some c)
    (hlen : stack.length = buffSize) (hn : 0 < n)
    (hr : bulkRead rs (s.conn c).stream stack 0 0 buffSize = some ⟨.ok n, buf, rest⟩)
    (hwhole : buffSize ≤ (s.conn c).inbox.length ∨ (s.conn c).inbox = [])
    (hconn : t.conn = (s.took c rest).conn) (hseat : t.seated = s.seated)
    (hnew : t.newcomers = s.newcomers) (hhist : t.hist = .say c buf :: s.hist) : Framed t := by
  have hself : said c t.hist = said c s.hist ++ [buf] := by rw [hhist, said, if_pos rfl]
  have hother : ∀ b, b ≠ c → said b t.hist = said b s.hist := fun b hb => by
    rw [hhist, said, if_neg (Ne.symm hb), List.append_nil]
  obtain ⟨hcut, hpre⟩ := (h.cut fd c hfd).said hlen hn hr hwhole (took_sent s c rest c)
    (show ((s.took c rest).conn c).inbox = rest by rw [took_self])
  refine ⟨fun b hb => ?_, fun fd' b hfd' => ?_, fun b => ?_⟩
  · rw [hconn, hnew, (took_conn s c rest b).1] at hb
    have hbc : b ≠ c := by rintro rfl; exact hacc.not_new hfd hb
    rw [hconn, took_other s hbc]
    exact h.unread b hb
  · rw [hconn]
    by_cases hbc : b = c
    · rw [hbc, hself]; exact hcut
    · rw [hother b hbc, took_other s hbc]
      exact h.cut fd' b (hseat ▸ hfd')
  · rw [hconn]
    by_cases hbc : b = c
    · rw [hbc, hself]; exact hpre
    · rw [hother b hbc, took_sent]
      exact h.spoken b

/-- Somebody leaves, or is turned away: its stream is read no more. -/
theorem Framed.drop {s t : State κ} (h : Framed s) {c : κ} (rest : List Byte)
    (hopen : (s.conn c).opened = true) (hqueue : c ∉ t.newcomers)
    (hnew : ∀ b, b ∈ t.newcomers → b ∈ s.newcomers) (hconn : t.conn = (s.took c rest).conn)
    (hseat : ∀ fd b, t.seated fd = some b → b ≠ c ∧ s.seated fd = some b)
    (hsaid : ∀ b, said b t.hist = said b s.hist) : Framed t := by
  refine ⟨fun b hb => ?_, fun fd b hfd => ?_, fun b => ?_⟩
  · rw [hconn, (took_conn s c rest b).1] at hb
    have hbc : b ≠ c := by
      rintro rfl
      rcases hb with hb | hb
      · rw [hopen] at hb; cases hb
      · exact hqueue hb
    rw [hconn, took_other s hbc]
    exact h.unread b (hb.imp id (hnew b))
  · obtain ⟨hbc, hfd'⟩ := hseat fd b hfd
    rw [hsaid, hconn, took_other s hbc]
    exact h.cut fd b hfd'
  · rw [hsaid, hconn, took_sent]
    exact h.spoken b

/-- **A step on whole messages keeps the streams cut at messages.** -/
theorem Framed.moves {a : Args} {s t : State κ} {act : Act κ} (h : Framed s) (hacc : Account s)
    (hw : WholeMessages s act) (htab : Table a s) (hm : Moves a s act t) (hrun : t.pc.Running) :
    Framed t := by
  cases hm with
  | @connect c ho =>
    have hconn : ∀ b, b ≠ c →
        (s.setConn c { s.conn c with opened := true, room := a.sndbuf }).conn b = s.conn b :=
      fun b hb => by rw [setConn_conn, if_neg hb]
    refine h.frame (fun b hb => ?_) rfl rfl fun b => ?_
    · by_cases hbc : b = c
      · rw [hbc]; exact .inl ho
      · rcases hb with hb | hb
        · exact .inl (congrArg Conn.opened (hconn b hbc) ▸ hb)
        · have hsplit : b ∈ s.newcomers ++ [c] := by
            rw [State.newcomers, List.append_assoc]
            exact hb
          exact .inr ((List.mem_append.mp hsplit).resolve_right fun he =>
            hbc (List.mem_singleton.mp he))
    · show (s.conn b).SameStream ((s.setConn c _).conn b)
      rw [setConn_conn]
      by_cases hbc : b = c
      · rw [if_pos hbc, hbc]; exact ⟨rfl, rfl, rfl⟩
      · rw [if_neg hbc]; exact ⟨rfl, rfl, rfl⟩
  | @client _ c k bytes ho ho' _ hsent hinbox heof =>
    have hk : (s.setConn c k).conn c = k := by rw [setConn_conn, if_pos rfl]
    have hb : ∀ b, b ≠ c → (s.setConn c k).conn b = s.conn b := fun b hb => by
      rw [setConn_conn, if_neg hb]
    refine ⟨fun b hnew => ?_, fun fd b hfd => ?_, fun b => ?_⟩
    · by_cases hbc : b = c
      · subst hbc
        rw [hk] at hnew ⊢
        rw [hsent, hinbox, h.unread b]
        exact hnew.imp (fun ho => by rw [ho'] at ho; cases ho) id
      · rw [hb b hbc] at hnew ⊢
        exact h.unread b hnew
    · by_cases hbc : b = c
      · subst hbc
        rw [hk]
        exact (h.cut fd b hfd).more hsent hinbox heof
      · rw [hb b hbc]
        exact h.cut fd b hfd
    · by_cases hbc : b = c
      · subst hbc
        rw [hk]
        exact (h.spoken b).trans (blocks_more hsent)
      · rw [hb b hbc]
        exact h.spoken b
  | pwait hpc | skip hpc | pass hpc | forwarded hpc =>
    exact h.frame_pc (seated_congr rfl (by rw [hpc]; rfl))
      (newcomers_congr rfl (by rw [hpc]; rfl) rfl) rfl fun _ => ⟨⟨rfl, rfl, rfl⟩, rfl⟩
  | interrupt => exact absurd hrun (interrupt_stops s _)
  | @accept _ fd c _ hpc hback hfd =>
    refine h.frame_pc (seated_accept (by rw [hpc]; rfl) hfd rfl rfl) ?_ rfl
      fun _ => ⟨⟨rfl, rfl, rfl⟩, rfl⟩
    rw [newcomers_backlog (s := s) (by rw [hpc]; rfl), hback]
    exact newcomers_greet rfl (Function.update_self ..)
  | @turnAway fd evs _ rest _ c hpc hfd =>
    have hsame := seated_congr (s := s) (t := { s.took c rest with pc := .refused fd evs }) rfl
      (by rw [hpc]; rfl)
    have hold := newcomers_greet hpc hfd
    have hmem : c ∈ s.newcomers := hold ▸ List.mem_cons_self
    have hqueue : (c :: s.backlog).Nodup := hold ▸ hacc.queue
    refine h.drop rest (hacc.queued c hmem).1 (List.nodup_cons.mp hqueue).1
      (fun b hb => hold ▸ List.mem_cons_of_mem _ hb) rfl (fun fd' b hseat => ?_) fun _ => rfl
    have hold' : s.seated fd' = some b := hsame ▸ hseat
    refine ⟨?_, hold'⟩
    rintro rfl
    exact (hacc.queued b hmem).2 fd' hold'
  | join hpc hfd _ hr => exact h.join hacc hpc hfd hr rfl rfl rfl rfl rfl
  | refuse hpc =>
    exact h.frame_pc (seated_refuse hpc rfl rfl)
      ((newcomers_backlog rfl).trans (newcomers_backlog (by rw [hpc]; rfl)).symm) rfl
      fun _ => ⟨⟨rfl, rfl, rfl⟩, rfl⟩
  | @echo _ _ _ _ c hpc | @deliver _ _ _ _ _ _ _ c hpc =>
    exact h.frame_pc (seated_congr rfl (by rw [hpc]; rfl))
      (newcomers_congr rfl (by rw [hpc]; rfl) rfl) rfl fun b => wrote_same s c _ b
  | @say fd n evs stack buf rest rs c hpc _ hfd hlen hn hr =>
    have hin : s.seated fd = some c := by rwa [seated_all (by rw [hpc]; rfl)]
    exact h.say hacc hin hlen hn hr (hw.2 fd true evs c hpc hfd) rfl
      (seated_congr rfl (by rw [hpc]; rfl)) (newcomers_congr rfl (by rw [hpc]; rfl) rfl) rfl
  | @leave fd _ _ rest _ c _ hpc _ hfd =>
    have hseat : s.seated = s.fds := seated_all (by rw [hpc]; rfl)
    have hnew := newcomers_backlog (s := s) (by rw [hpc]; rfl)
    have hin : s.seated fd = some c := hseat ▸ hfd
    refine h.drop rest (hacc.opened fd c hfd) (fun hq => hacc.not_new hin (.inr (hnew ▸ hq)))
      (fun _ hb => hnew ▸ hb) rfl (fun fd' b hfd' => ?_) fun _ => rfl
    have hupd : Function.update s.fds fd none fd' = some b := hfd'
    rw [Function.update_apply] at hupd
    split at hupd
    · cases hupd
    · rename_i hne
      refine ⟨?_, hseat ▸ hupd⟩
      rintro rfl
      exact hne (hacc.inj fd' fd b hupd hfd)
  | again _ he => exact absurd he hw.1
  | broken hbad => exact absurd hbad htab.not_broken
  | readFails _ _ _ _ ht => exact absurd ht (hrun _)
  | writeFails _ _ ht => exact absurd ht (hrun _)

theorem framed_reach {a : Args} {s : State κ} (h : (chat κ a).ReachIf WholeMessages s) :
    s.pc.Running → Framed s := by
  refine h.inv_while (R := fun s => s.pc.Running) (I := Framed) ?_ (fun _ _ _ => running_of_next) ?_
  · rintro s ⟨-, -, -, hf, hk, -, hh⟩
    refine ⟨fun c _ => by rw [hk], fun fd c hfd => ?_, fun c => ?_⟩
    · rw [State.seated, hf, ite_self] at hfd; cases hfd
    · rw [hh]; exact List.nil_prefix ..
  · exact fun _ _ _ hr hs ih hw hn hrun =>
      ih.moves (account_reach hr.reach hs) hw (table_reach hr.reach hs) (next_moves hn) hrun

/-- **Faithful broadcast.** While no stream ends inside a message: the members are
the clients in the table, and who speaks is one; what is heard from a peer are
complete blocks of its stream, in order, and nobody hears itself; and what was
written to a connection is its greeting and what it is to hear, up to the message
that is being forwarded. -/
theorem faithful_broadcast {a : Args} {s : State κ} (h : (chat κ a).ReachIf WholeMessages s)
    (hrun : s.pc.Running) :
    (∀ c, member c s.hist = true ↔ ∃ i fd, (s.clients i).fd = some fd ∧ s.fds fd = some c) ∧
      Authorised s.hist ∧
      (∀ b c, (ofTag b (heard c s.hist)).Sublist
        (blocks buffSize ((s.conn b).sent.drop buffSize))) ∧
      (∀ c, ofTag c (heard c s.hist) = []) ∧
      (∀ c, (s.conn c).out <+: greeting c s.hist ++ ((heard c s.hist).map Prod.snd).flatten) ∧
      ∀ evs, s.pc = .events evs → ∀ c,
        (s.conn c).out = greeting c s.hist ++ ((heard c s.hist).map Prod.snd).flatten := by
  have hframed := framed_reach h hrun
  have hacc := account_reach h.reach hrun
  refine ⟨fun c => ?_, hacc.authorised, fun b c => ?_, fun c => heard_self c _, fun c => ?_,
    fun evs hpc c => ?_⟩
  · rw [hacc.member c]
    constructor
    · rintro ⟨fd, hfd⟩
      obtain ⟨i, hi⟩ := ((table_reach h.reach hrun).held fd).mp (by rw [hfd]; simp)
      exact ⟨i, fd, hi, fds_of_seated hfd⟩
    · rintro ⟨i, fd, hi, hfd⟩
      obtain ⟨b, hb⟩ := Option.ne_none_iff_exists'.mp
        (((table_reach h.reach hrun).held fd).mpr ⟨i, hi⟩)
      obtain rfl : b = c := Option.some.inj ((fds_of_seated hb).symm.trans hfd)
      exact ⟨fd, hb⟩
  · exact (heard_sublist b c s.hist).trans (hframed.spoken b).sublist
  · rw [← hacc.paid c]
    exact List.prefix_append ..
  · exact out_eq h.reach hpc c

/-- The broadcast of what client 5 has said to slots 0 to 3, of which 0 is its own
and 1 the other client's. -/
def broadcasting : List (Act Bool) :=
  [.forward [], .forward [.wrote (buffSize - 1)], .forward [], .forward [], .forward []]

/-- One whole message between two clients. -/
theorem faithful_broadcast_one : ∃ s : State Bool, (chat Bool lobby).ReachIf WholeMessages s ∧
    s.hist.length = 3 ∧
    (s.conn false).out = greeting false s.hist ++ ((heard false s.hist).map Prod.snd).flatten := by
  let greet : List (Act Bool) :=
    joining true 5 ++ joining false 6 ++ [.send true hello, .pwait [(5, true)]]
  have hgreet : ((chat Bool lobby).exec (.idle Bool) greet).map
      (fun s => (s.pc, s.fds 5, (s.conn true).inbox.length)) =
        some (.events [(5, true)], some true, buffSize) := by decide +kernel
  have hrun : ((chat Bool lobby).exec (.idle Bool)
      (greet ++ (.read zeros [.data (buffSize - 1)] :: broadcasting))).map
        (fun s => (s.pc, s.hist.length)) = some (.events [], 3) := by decide +kernel
  obtain ⟨s1, hs1, heq⟩ := Option.map_eq_some_iff.mp hgreet
  simp only [Prod.mk.injEq] at heq
  obtain ⟨hpc1, hfd1, hin1⟩ := heq
  obtain ⟨s, hs, heq⟩ := Option.map_eq_some_iff.mp hrun
  obtain ⟨hpc, hlen⟩ := Prod.mk.inj heq
  rw [LTS.exec_append, hs1, Option.bind_some] at hs
  obtain ⟨s2, hs2, hrest⟩ := Option.bind_eq_some_iff.mp hs
  -- only the step that reads has a condition
  have hr1 : (chat Bool lobby).ReachIf WholeMessages s1 :=
    LTS.ReachIf.exec (.init idle_start) (by simp [greet, joining, WholeMessages]) hs1
  have hwhole : WholeMessages s1 (.read zeros [.data (buffSize - 1)]) := by
    refine ⟨by simp, fun fd b evs c hpc' hfd => .inl ?_⟩
    rw [hpc1] at hpc'; cases hpc'
    rw [hfd1] at hfd; cases hfd
    exact hin1.ge
  have hr : (chat Bool lobby).ReachIf WholeMessages s :=
    LTS.ReachIf.exec (.next hr1 hwhole hs2) (by simp [broadcasting, WholeMessages]) hrest
  have hpc' : s.pc.Running := by rw [hpc]; intro why hw; cases hw
  exact ⟨s, hr, hlen, (faithful_broadcast hr hpc').2.2.2.2.2 [] hpc false⟩

/-- One byte behind the greeting, and the end of the stream: the other client is
sent a whole buffer. -/
theorem broadcast_cut : ∃ s : State Bool, (chat Bool lobby).Reach s ∧ s.pc = .events [] ∧
    (s.conn true).sent = hello ++ [120] ∧ (s.conn false).out = hello ++ 120 :: List.replicate 511 0 ∧
    ¬ (ofTag true (heard false s.hist)).Sublist
      (blocks buffSize ((s.conn true).sent.drop buffSize)) := by
  have hrun : ((chat Bool lobby).exec (.idle Bool)
      (joining true 5 ++ joining false 6 ++ [.send true [120], .close true, .pwait [(5, true)],
        .read zeros [.data (buffSize - 1), .data (buffSize - 1)]] ++ broadcasting)).map
      (fun s => (s.pc, (s.conn true).sent, (s.conn false).out,
        (ofTag true (heard false s.hist)).length,
        blocks buffSize ((s.conn true).sent.drop buffSize))) =
        some (.events [], hello ++ [120], hello ++ 120 :: List.replicate 511 0, 1, []) := by
    decide +kernel
  obtain ⟨s, hs, heq⟩ := Option.map_eq_some_iff.mp hrun
  simp only [Prod.mk.injEq] at heq
  obtain ⟨hpc, hsent, hout, hheard, hblocks⟩ := heq
  refine ⟨s, LTS.Reach.exec (.init idle_start) hs, hpc, hsent, hout, fun hsub => ?_⟩
  have hlen := hsub.length_le
  rw [hheard, hblocks] at hlen
  exact absurd hlen (by decide)

end Ops.Chat
