import Ops.Chat.Table
import Ops.Lib.Blocks
import Ops.Lib.Logs

/-!
# Who hears what

The history of the chat says who is in it (`member`) and what each connection is
to be sent (`heard`). `Account` ties it to the bytes that went out: they are the
echo of the greeting and what the others said, up to what the server is still
writing.
-/

namespace Ops.Chat

open Ops.Posix

variable {κ : Type} [DecidableEq κ]

/-! ## The history -/

/-- Whether `c` is in the chat. -/
def member (c : κ) : List (Happening κ) → Bool
  | [] => false
  | .join b _ :: h => b = c || member c h
  | .leave b :: h => b ≠ c && member c h
  | .say _ _ :: h => member c h

/-- What `c` is to be sent, and whose it is: what the others say while `c` is in
the chat, each block once and in this order. -/
def heard (c : κ) : List (Happening κ) → List (κ × List Byte)
  | [] => []
  | .say b buf :: h => heard c h ++ if b ≠ c ∧ member c h = true then [(b, buf)] else []
  | .join _ _ :: h => heard c h
  | .leave _ :: h => heard c h

def greeting (c : κ) : List (Happening κ) → List Byte
  | [] => []
  | .join b buf :: h => if b = c then buf else greeting c h
  | .leave _ :: h => greeting c h
  | .say _ _ :: h => greeting c h

def said (c : κ) : List (Happening κ) → List (List Byte)
  | [] => []
  | .say b buf :: h => said c h ++ if b = c then [buf] else []
  | .join _ _ :: h => said c h
  | .leave _ :: h => said c h

/-- Who speaks is in the chat. -/
def Authorised : List (Happening κ) → Prop
  | [] => True
  | .say b _ :: h => member b h = true ∧ Authorised h
  | .join _ _ :: h => Authorised h
  | .leave _ :: h => Authorised h

theorem heard_sublist (a c : κ) (h : List (Happening κ)) :
    (ofTag a (heard c h)).Sublist (said a h) := by
  induction h with
  | nil => exact List.Sublist.slnil
  | cons x h ih =>
    cases x with
    | join | leave => exact ih
    | say b buf =>
      simp only [heard, said, ofTag_append]
      refine ih.append ?_
      by_cases hb : b = a
      · subst hb
        rw [if_pos rfl]
        split
        · rw [ofTag_cons_self]; exact List.Sublist.refl _
        · exact List.nil_sublist _
      · rw [if_neg hb]
        split
        · rw [ofTag_cons_ne hb]; exact List.Sublist.refl _
        · exact List.Sublist.refl _

theorem heard_self (c : κ) (h : List (Happening κ)) : ofTag c (heard c h) = [] := by
  induction h with
  | nil => rfl
  | cons x h ih =>
    cases x with
    | join | leave => exact ih
    | say b buf =>
      simp only [heard, ofTag_append, ih, List.nil_append]
      split
      · rename_i hb; rw [ofTag_cons_ne hb.1]; rfl
      · rfl

/-! ## The account of the bytes that went out -/

/-- What the server is writing. -/
def Pc.buf : Pc → List Byte
  | .echo _ buf _ => buf
  | .forward _ buf _ _ => buf
  | _ => []

/-- What is being written is a whole buffer. -/
def Pc.Full : Pc → Prop
  | .echo _ buf _ => buf.length = buffSize
  | .forward _ buf _ _ => buf.length = buffSize
  | _ => True

def Pc.todo : Pc → List (Fin maxClientCount)
  | .forward _ _ todo _ => todo
  | _ => []

/-- Whether the broadcast for `fd` writes to `c` at slot `i`. -/
def State.reaches (s : State κ) (fd : Nat) (c : κ) (i : Fin maxClientCount) : Bool :=
  match (s.clients i).fd with
  | some t => t ≠ fd && s.fds t = some c
  | none => false

/-- Whether `c` is still to be written to. -/
def State.awaits (s : State κ) (c : κ) : Bool :=
  match s.pc with
  | .echo fd _ _ => s.fds fd = some c
  | .forward fd _ todo _ => todo.any (s.reaches fd c)
  | _ => false

/-- What `c` has been sent, with what it is still to be sent of this message. -/
def State.paid (s : State κ) (c : κ) : List Byte :=
  (s.conn c).out ++ if s.awaits c then s.pc.buf else []

/-- The descriptor whose greeting is not read yet. -/
def Pc.arriving : Pc → Option Nat
  | .greet fd _ => some fd
  | _ => none

/-- The connections the server has read nothing of. -/
def State.newcomers (s : State κ) : List κ := (s.pc.arriving.bind s.fds).toList ++ s.backlog

structure Account (s : State κ) : Prop where
  inj : ∀ fd fd' c, s.fds fd = some c → s.fds fd' = some c → fd = fd'
  queue : s.newcomers.Nodup
  queued : ∀ c ∈ s.newcomers, (s.conn c).opened = true ∧ ∀ fd, s.seated fd ≠ some c
  opened : ∀ fd c, s.fds fd = some c → (s.conn c).opened = true
  silent : ∀ c, (s.conn c).opened = false ∨ c ∈ s.newcomers →
    greeting c s.hist = [] ∧ heard c s.hist = [] ∧ said c s.hist = []
  member : ∀ c, member c s.hist = true ↔ ∃ fd, s.seated fd = some c
  full : s.pc.Full
  todo : s.pc.todo.Nodup
  paid : ∀ c, s.paid c = greeting c s.hist ++ ((heard c s.hist).map Prod.snd).flatten
  authorised : Authorised s.hist

theorem reaches_iff {s : State κ} {fd : Nat} {c : κ} {i : Fin maxClientCount} :
    s.reaches fd c i = true ↔ ∃ t, (s.clients i).fd = some t ∧ t ≠ fd ∧ s.fds t = some c := by
  unfold State.reaches
  split
  · rename_i t ht
    simp [ht]
  · rename_i ht
    simp [ht]

theorem setConn_conn (s : State κ) (c : κ) (k : Conn) (b : κ) :
    (s.setConn c k).conn b = if b = c then k else s.conn b := by
  simp only [State.setConn, Function.update_apply]

theorem took_conn (s : State κ) (c : κ) (rest : List Byte) (b : κ) :
    ((s.took c rest).conn b).opened = (s.conn b).opened ∧
      ((s.took c rest).conn b).out = (s.conn b).out := by
  rw [State.took, setConn_conn]
  by_cases hb : b = c
  · rw [if_pos hb, hb]; exact ⟨rfl, rfl⟩
  · rw [if_neg hb]; exact ⟨rfl, rfl⟩

/-- The three parts of a connection that reading and cutting depend on. -/
def Conn.SameStream (k k' : Conn) : Prop := k'.sent = k.sent ∧ k'.inbox = k.inbox ∧ k'.eof = k.eof

theorem wrote_same (s : State κ) (c : κ) (bytes : List Byte) (b : κ) :
    (s.conn b).SameStream ((s.wrote c bytes).conn b) ∧
      ((s.wrote c bytes).conn b).opened = (s.conn b).opened := by
  rw [State.wrote, setConn_conn]
  by_cases hb : b = c
  · rw [if_pos hb, hb]; exact ⟨⟨rfl, rfl, rfl⟩, rfl⟩
  · rw [if_neg hb]; exact ⟨⟨rfl, rfl, rfl⟩, rfl⟩

theorem took_other (s : State κ) {c b : κ} (h : b ≠ c) (rest : List Byte) :
    (s.took c rest).conn b = s.conn b := by
  rw [State.took, setConn_conn, if_neg h]

theorem took_self (s : State κ) (c : κ) (rest : List Byte) :
    (s.took c rest).conn c = { s.conn c with inbox := rest } := by
  rw [State.took, setConn_conn, if_pos rfl]

theorem took_sent (s : State κ) (c : κ) (rest : List Byte) (b : κ) :
    ((s.took c rest).conn b).sent = (s.conn b).sent := by
  by_cases hb : b = c
  · rw [hb, took_self]
  · rw [took_other s hb]

theorem awaits_forward {s : State κ} {fd : Nat} {buf : List Byte} {i : Fin maxClientCount}
    {todo : List (Fin maxClientCount)} {evs : List Event}
    (hpc : s.pc = .forward fd buf (i :: todo) evs) (c : κ) : s.awaits c = (s.reaches fd c i || todo.any (s.reaches fd c)) := by
  simp only [State.awaits, hpc, List.any_cons]

theorem paid_quiet {s : State κ} (h : s.pc.buf = []) (c : κ) : s.paid c = (s.conn c).out := by
  rw [State.paid, h, ite_self, List.append_nil]

theorem paid_events {s : State κ} {evs : List Event} (hpc : s.pc = .events evs) (c : κ) :
    s.paid c = (s.conn c).out :=
  paid_quiet (by rw [hpc]; rfl) c

omit [DecidableEq κ] in
theorem newcomers_backlog {s : State κ} (h : s.pc.arriving = none) : s.newcomers = s.backlog := by
  rw [State.newcomers, h]
  rfl

omit [DecidableEq κ] in
theorem newcomers_greet {s : State κ} {fd : Nat} {evs : List Event} {c : κ}
    (hpc : s.pc = .greet fd evs) (hfd : s.fds fd = some c) : s.newcomers = c :: s.backlog := by
  rw [State.newcomers, hpc]
  simp only [Pc.arriving, Option.bind_some, hfd]
  rfl

omit [DecidableEq κ] in
theorem newcomers_congr {s t : State κ} (hfds : t.fds = s.fds)
    (hpc : t.pc.arriving = s.pc.arriving) (hback : t.backlog = s.backlog) :
    t.newcomers = s.newcomers := by
  rw [State.newcomers, State.newcomers, hfds, hpc, hback]

theorem Account.not_new {s : State κ} (h : Account s) {fd : Nat} {c : κ}
    (hfd : s.seated fd = some c) : ¬ ((s.conn c).opened = false ∨ c ∈ s.newcomers) := by
  rintro (ho | hq)
  · rw [h.opened fd c (fds_of_seated hfd)] at ho; cases ho
  · exact (h.queued c hq).2 fd hfd

/-- A step in which nobody joins, leaves or speaks. -/
theorem Account.frame {s t : State κ} (h : Account s) (hseat : t.seated = s.seated)
    (hinj : ∀ fd fd' c, t.fds fd = some c → t.fds fd' = some c → fd = fd')
    (hopened : ∀ fd c, t.fds fd = some c → (t.conn c).opened = true) (hhist : t.hist = s.hist)
    (hopen : ∀ c, (s.conn c).opened = true → (t.conn c).opened = true)
    (hqueue : t.newcomers.Nodup) (hqueued : ∀ c ∈ t.newcomers, (t.conn c).opened = true ∧
      ((s.conn c).opened = false ∨ c ∈ s.newcomers))
    (hfull : t.pc.Full) (htodo : t.pc.todo.Nodup)
    (hpaid : ∀ c, t.paid c = s.paid c) : Account t where
  inj := hinj
  queue := hqueue
  queued c hc := by
    obtain ⟨h1, h2⟩ := hqueued c hc
    exact ⟨h1, fun fd hfd => h.not_new (hseat ▸ hfd) h2⟩
  opened := hopened
  silent c hc := by
    rw [hhist]
    refine h.silent c (hc.elim (fun ho => .inl ?_) fun hq => (hqueued c hq).2)
    by_contra hs
    rw [hopen c (by simpa using hs)] at ho
    cases ho
  member := by rw [hhist, hseat]; exact h.member
  full := hfull
  todo := htodo
  paid c := by rw [hpaid, hhist]; exact h.paid c
  authorised := hhist ▸ h.authorised

/-- The same, with the connections and the backlog as they were. -/
theorem Account.frame_pc {s t : State κ} (h : Account s) (hfds : t.fds = s.fds)
    (hun : t.pc.unseated = s.pc.unseated) (harr : t.pc.arriving = s.pc.arriving)
    (hhist : t.hist = s.hist) (hopen : ∀ c, (t.conn c).opened = (s.conn c).opened)
    (hback : t.backlog = s.backlog) (hfull : t.pc.Full)
    (htodo : t.pc.todo.Nodup) (hpaid : ∀ c, t.paid c = s.paid c) : Account t := by
  have hnew := newcomers_congr hfds harr hback
  exact h.frame (seated_congr hfds hun) (hfds ▸ h.inj)
    (fun fd c hc => by rw [hopen]; exact h.opened fd c (hfds ▸ hc)) hhist
    (fun c hc => by rw [hopen, hc]) (hnew ▸ h.queue)
    (fun c hc => ⟨by rw [hopen]; exact (h.queued c (hnew ▸ hc)).1, .inr (hnew ▸ hc)⟩)
    hfull htodo hpaid

/-- `bulk_read` fills the buffer or leaves its end as it was. -/
theorem bulkRead_full {rs : List ReadOutcome} {k : Stream} {stack buf rest : List Byte} {n : Nat}
    (hlen : stack.length = buffSize)
    (h : bulkRead rs k stack 0 0 buffSize = some ⟨.ok n, buf, rest⟩) : buf.length = buffSize := by
  rw [(bulkRead_ok (Nat.zero_le _) h).2.1, blit_length, hlen]
  rw [List.length_take, hlen]
  omega

theorem Account.accept {s t : State κ} (h : Account s) {e : Event} {evs : List Event} {fd : Nat}
    {c : κ} {backlog : List κ} (hpc : s.pc = .events (e :: evs)) (hback : s.backlog = c :: backlog)
    (hfd : s.fds fd = none) (htpc : t.pc = .greet fd evs)
    (hfds : t.fds = Function.update s.fds fd (some c)) (htback : t.backlog = backlog)
    (hconn : t.conn = s.conn) (hhist : t.hist = s.hist) : Account t := by
  have hun : s.pc.unseated = none := by rw [hpc]; rfl
  have harr : s.pc.arriving = none := by rw [hpc]; rfl
  have hfd' : ∀ fd', t.fds fd' = if fd' = fd then some c else s.fds fd' := fun fd' => by
    rw [hfds, Function.update_apply]
  have hnew : t.newcomers = s.newcomers := by
    rw [newcomers_greet htpc (by rw [hfd', if_pos rfl]), newcomers_backlog harr, hback, htback]
  have hmem : c ∈ s.newcomers := by
    rw [newcomers_backlog harr, hback]
    exact List.mem_cons_self
  have hnone : ∀ fd', s.fds fd' ≠ some c := fun fd' => by
    rw [← seated_all hun]
    exact (h.queued c hmem).2 fd'
  refine h.frame (seated_accept hun hfd htpc hfds) ?_ ?_ hhist (fun b hb => by rw [hconn, hb])
    (hnew ▸ h.queue) (fun b hb => ?_) ?_ ?_ fun b => ?_
  · intro fd1 fd2 b h1 h2
    rw [hfd'] at h1 h2
    split at h1 <;> split at h2
    · rename_i h3 h4; rw [h3, h4]
    · cases h1; exact absurd h2 (hnone fd2)
    · cases h2; exact absurd h1 (hnone fd1)
    · exact h.inj fd1 fd2 b h1 h2
  · intro fd1 b h1
    rw [hconn]
    rw [hfd'] at h1
    split at h1
    · cases h1; exact (h.queued c hmem).1
    · exact h.opened fd1 b h1
  · rw [hnew] at hb
    exact ⟨by rw [hconn]; exact (h.queued b hb).1, .inr hb⟩
  · rw [htpc]; exact trivial
  · rw [htpc]; exact List.nodup_nil
  · rw [paid_quiet (by rw [htpc]; rfl), paid_quiet (by rw [hpc]; rfl), hconn]

theorem Account.turnAway {s t : State κ} (h : Account s) {fd : Nat} {evs : List Event} {c : κ}
    {rest : List Byte} (hpc : s.pc = .greet fd evs) (hfd : s.fds fd = some c)
    (htpc : t.pc = .refused fd evs) (hfds : t.fds = s.fds) (hback : t.backlog = s.backlog)
    (hconn : t.conn = (s.took c rest).conn) (hhist : t.hist = s.hist) : Account t := by
  have hc : ∀ b, (t.conn b).opened = (s.conn b).opened ∧ (t.conn b).out = (s.conn b).out :=
    fun b => hconn ▸ took_conn s c rest b
  have hold := newcomers_greet hpc hfd
  have hnew : t.newcomers = s.backlog := by rw [newcomers_backlog (by rw [htpc]; rfl), hback]
  have hqueue := h.queue
  rw [hold] at hqueue
  refine h.frame (seated_congr hfds (by rw [htpc, hpc]; rfl)) (hfds ▸ h.inj)
    (fun fd1 b h1 => by rw [(hc b).1]; exact h.opened fd1 b (hfds ▸ h1)) hhist
    (fun b hb => by rw [(hc b).1, hb]) (hnew ▸ (List.nodup_cons.mp hqueue).2) (fun b hb => ?_)
    ?_ ?_ fun b => ?_
  · have hbs : b ∈ s.newcomers := by
      rw [hold]
      exact List.mem_cons_of_mem _ (hnew ▸ hb)
    exact ⟨by rw [(hc b).1]; exact (h.queued b hbs).1, .inr hbs⟩
  · rw [htpc]; exact trivial
  · rw [htpc]; exact List.nodup_nil
  · rw [paid_quiet (by rw [htpc]; rfl), paid_quiet (by rw [hpc]; rfl), (hc b).2]

theorem Account.refuse {s t : State κ} (h : Account s) {fd : Nat} {evs : List Event}
    (hpc : s.pc = .refused fd evs) (htpc : t.pc = .events evs)
    (hfds : t.fds = Function.update s.fds fd none) (hback : t.backlog = s.backlog)
    (hconn : t.conn = s.conn) (hhist : t.hist = s.hist) : Account t := by
  have hsome : ∀ fd' b, t.fds fd' = some b → s.fds fd' = some b := by
    intro fd' b h1
    rw [hfds, Function.update_apply] at h1
    split at h1
    · cases h1
    · exact h1
  have hnew : t.newcomers = s.newcomers := by
    rw [newcomers_backlog (by rw [htpc]; rfl), newcomers_backlog (by rw [hpc]; rfl), hback]
  refine h.frame (seated_refuse hpc (by rw [htpc]; rfl) hfds)
    (fun fd1 fd2 b h1 h2 => h.inj fd1 fd2 b (hsome _ _ h1) (hsome _ _ h2))
    (fun fd1 b h1 => by rw [hconn]; exact h.opened fd1 b (hsome _ _ h1)) hhist
    (fun b hb => by rw [hconn, hb]) (hnew ▸ h.queue)
    (fun b hb => ⟨by rw [hconn]; exact (h.queued b (hnew ▸ hb)).1, .inr (hnew ▸ hb)⟩) ?_ ?_
    fun b => ?_
  · rw [htpc]; exact trivial
  · rw [htpc]; exact List.nodup_nil
  · rw [paid_quiet (by rw [htpc]; rfl), paid_quiet (by rw [hpc]; rfl), hconn]

theorem Account.join {s t : State κ} (h : Account s) {evs : List Event} {fd : Nat}
    {c : κ} {buf rest : List Byte} (hpc : s.pc = .greet fd evs) (hfd : s.fds fd = some c)
    (hlen : buf.length = buffSize) (htpc : t.pc = .echo fd buf evs)
    (hconn : t.conn = (s.took c rest).conn) (hfds : t.fds = s.fds) (htback : t.backlog = s.backlog)
    (hhist : t.hist = .join c buf :: s.hist) : Account t := by
  have hun : s.pc.unseated = some fd := by rw [hpc]; rfl
  have hold := newcomers_greet hpc hfd
  have hnew : t.newcomers = s.backlog := by rw [newcomers_backlog (by rw [htpc]; rfl), htback]
  have hmem : c ∈ s.newcomers := by rw [hold]; exact List.mem_cons_self
  have hsub : ∀ b ∈ t.newcomers, b ∈ s.newcomers := fun b hb => by
    rw [hold]; exact List.mem_cons_of_mem _ (hnew ▸ hb)
  have hqueue := h.queue
  rw [hold, List.nodup_cons] at hqueue
  have hfd' : ∀ fd', t.seated fd' = if fd' = fd then some c else s.seated fd' := fun fd' => by
    rw [seated_all (by rw [htpc]; rfl), hfds]
    by_cases he : fd' = fd
    · rw [if_pos he, he, hfd]
    · rw [if_neg he, seated_other hun he]
  have hc : ∀ b, (t.conn b).opened = (s.conn b).opened ∧ (t.conn b).out = (s.conn b).out :=
    fun b => hconn ▸ took_conn s c rest b
  obtain ⟨hgreet, hheard, -⟩ := h.silent c (.inr hmem)
  refine ⟨hfds ▸ h.inj, hnew ▸ hqueue.2, ?_, ?_, ?_, ?_, ?_, ?_, ?_, ?_⟩
  · intro b hb
    refine ⟨by rw [(hc b).1]; exact (h.queued b (hsub b hb)).1, fun fd1 h1 => ?_⟩
    rw [hfd'] at h1
    split at h1
    · cases h1; exact hqueue.1 (hnew ▸ hb)
    · exact (h.queued b (hsub b hb)).2 fd1 h1
  · intro fd1 b h1
    rw [(hc b).1]
    exact h.opened fd1 b (hfds ▸ h1)
  · intro b hb
    have hbc : c ≠ b := by
      rintro rfl
      rcases hb with hb | hb
      · rw [(hc c).1, (h.queued c hmem).1] at hb; cases hb
      · exact hqueue.1 (hnew ▸ hb)
    have hbs : (s.conn b).opened = false ∨ b ∈ s.newcomers := by
      rcases hb with hb | hb
      · left; rwa [(hc b).1] at hb
      · exact .inr (hsub b hb)
    rw [hhist]
    simp only [greeting, if_neg hbc, heard, said]
    exact h.silent b hbs
  · intro b
    rw [hhist]
    simp only [Chat.member, Bool.or_eq_true, decide_eq_true_eq, h.member b]
    constructor
    · rintro (rfl | ⟨fd1, h1⟩)
      · exact ⟨fd, by rw [hfd', if_pos rfl]⟩
      · refine ⟨fd1, ?_⟩
        rw [hfd', if_neg, h1]
        rintro rfl
        rw [seated_self hun] at h1; cases h1
    · rintro ⟨fd1, h1⟩
      rw [hfd'] at h1
      split at h1
      · cases h1; exact .inl rfl
      · exact .inr ⟨fd1, h1⟩
  · rw [htpc]; exact hlen
  · rw [htpc]; exact List.nodup_nil
  · intro b
    have hpaid := h.paid b
    have hbefore : s.awaits b = false := by unfold State.awaits; rw [hpc]
    have hafter : t.awaits b = decide (b = c) := by
      unfold State.awaits
      rw [htpc]
      simp [hfds, hfd, eq_comm]
    rw [State.paid, hbefore, if_neg (by decide), List.append_nil] at hpaid
    rw [State.paid, hafter, (hc b).2, htpc, hhist]
    simp only [heard, greeting, Pc.buf, decide_eq_true_eq]
    by_cases hb : b = c
    · subst hb
      rw [if_pos rfl, if_pos rfl, hpaid, hgreet, hheard]
      simp
    · rw [if_neg hb, if_neg (Ne.symm hb), List.append_nil, hpaid]
  · rw [hhist]; exact h.authorised

theorem Account.leave {s t : State κ} (h : Account s) {e : Event} {evs : List Event} {fd : Nat}
    {c : κ} {rest : List Byte} (hpc : s.pc = .events (e :: evs)) (hfd : s.fds fd = some c)
    (htpc : t.pc = .events evs) (hconn : t.conn = (s.took c rest).conn)
    (hfds : t.fds = Function.update s.fds fd none) (hback : t.backlog = s.backlog)
    (hhist : t.hist = .leave c :: s.hist) : Account t := by
  have hfd' : ∀ fd', t.fds fd' = if fd' = fd then none else s.fds fd' := fun fd' => by
    rw [hfds, Function.update_apply]
  have hsome : ∀ fd' b, t.fds fd' = some b → s.fds fd' = some b := by
    intro fd' b h1
    rw [hfd'] at h1
    split at h1
    · cases h1
    · exact h1
  have hc : ∀ b, (t.conn b).opened = (s.conn b).opened ∧ (t.conn b).out = (s.conn b).out :=
    fun b => hconn ▸ took_conn s c rest b
  have hseat : s.seated = s.fds := seated_all (by rw [hpc]; rfl)
  have htseat : t.seated = t.fds := seated_all (by rw [htpc]; rfl)
  have hnew : t.newcomers = s.newcomers := by
    rw [newcomers_backlog (by rw [htpc]; rfl), newcomers_backlog (by rw [hpc]; rfl), hback]
  refine ⟨fun fd1 fd2 b h1 h2 => h.inj fd1 fd2 b (hsome _ _ h1) (hsome _ _ h2), hnew ▸ h.queue, ?_,
    ?_, ?_, ?_, ?_, ?_, ?_, ?_⟩
  · intro b hb
    rw [hnew] at hb
    refine ⟨by rw [(hc b).1]; exact (h.queued b hb).1, fun fd1 h1 => ?_⟩
    rw [htseat] at h1
    exact (h.queued b hb).2 fd1 (hseat ▸ hsome _ _ h1)
  · intro fd1 b h1
    rw [(hc b).1]
    exact h.opened fd1 b (hsome _ _ h1)
  · intro b hb
    rw [(hc b).1, hnew] at hb
    rw [hhist]
    exact h.silent b hb
  · intro b
    rw [hhist, htseat]
    simp only [Chat.member, Bool.and_eq_true, decide_eq_true_eq, h.member b, hseat]
    constructor
    · rintro ⟨hb, fd1, h1⟩
      refine ⟨fd1, ?_⟩
      rw [hfd', if_neg, h1]
      rintro rfl
      rw [hfd] at h1; cases h1; exact hb rfl
    · rintro ⟨fd1, h1⟩
      refine ⟨?_, fd1, hsome _ _ h1⟩
      rintro rfl
      have heq := h.inj fd1 fd c (hsome _ _ h1) hfd
      rw [hfd', if_pos heq] at h1; cases h1
  · rw [htpc]; exact trivial
  · rw [htpc]; exact List.nodup_nil
  · intro b
    have hold := h.paid b
    have hbefore : s.awaits b = false := by unfold State.awaits; rw [hpc]
    have hafter : t.awaits b = false := by unfold State.awaits; rw [htpc]
    rw [State.paid, hbefore, if_neg (by decide), List.append_nil] at hold
    rw [State.paid, hafter, if_neg (by decide), List.append_nil, (hc b).2, hhist, hold]
    rfl
  · rw [hhist]; exact h.authorised

/-- Somebody speaks. The slots that hold another client are the members but the
speaker. -/
theorem Account.say {a : Args} {s t : State κ} (h : Account s) (htab : Table a s) {e : Event}
    {evs : List Event} {fd : Nat} {c : κ} {buf rest : List Byte} (hpc : s.pc = .events (e :: evs))
    (hfd : s.fds fd = some c) (hlen : buf.length = buffSize)
    (htpc : t.pc = .forward fd buf (List.finRange maxClientCount) evs)
    (hconn : t.conn = (s.took c rest).conn) (hclients : t.clients = s.clients)
    (hfds : t.fds = s.fds) (hback : t.backlog = s.backlog)
    (hhist : t.hist = .say c buf :: s.hist) : Account t := by
  have hc : ∀ b, (t.conn b).opened = (s.conn b).opened ∧ (t.conn b).out = (s.conn b).out :=
    fun b => hconn ▸ took_conn s c rest b
  have hseat : s.seated = s.fds := seated_all (by rw [hpc]; rfl)
  have htseat : t.seated = s.fds := by rw [seated_all (by rw [htpc]; rfl), hfds]
  have hnew : t.newcomers = s.newcomers := by
    rw [newcomers_backlog (by rw [htpc]; rfl), newcomers_backlog (by rw [hpc]; rfl), hback]
  have hafter : ∀ b, t.awaits b = true ↔ c ≠ b ∧ Chat.member b s.hist = true := by
    intro b
    unfold State.awaits
    rw [htpc, h.member b, hseat]
    simp only [List.any_eq_true, List.mem_finRange, true_and, reaches_iff, hclients, hfds]
    constructor
    · rintro ⟨i, u, hi, hne, hu⟩
      refine ⟨?_, u, hu⟩
      rintro rfl
      exact hne (h.inj u fd c hu hfd)
    · rintro ⟨hne, u, hu⟩
      obtain ⟨i, hi⟩ := (htab.held u).mp (by rw [hseat, hu]; simp)
      refine ⟨i, u, hi, ?_, hu⟩
      rintro rfl
      rw [hfd] at hu; cases hu; exact hne rfl
  refine ⟨hfds ▸ h.inj, hnew ▸ h.queue, ?_, ?_, ?_, ?_, ?_, ?_, ?_, ?_⟩
  · intro b hb
    rw [hnew] at hb
    rw [(hc b).1, htseat, ← hseat]
    exact h.queued b hb
  · intro fd1 b h1
    rw [(hc b).1]
    exact h.opened fd1 b (hfds ▸ h1)
  · intro b hb
    rw [(hc b).1, hnew] at hb
    have hbc : c ≠ b := by rintro rfl; exact h.not_new (hseat ▸ hfd) hb
    have hno : Chat.member b s.hist = false := by
      rw [← Bool.not_eq_true, h.member b]
      rintro ⟨fd1, h1⟩
      exact h.not_new h1 hb
    obtain ⟨h1, h2, h3⟩ := h.silent b hb
    rw [hhist]
    simp only [greeting, heard, said, h1, h2, h3, hno, if_neg hbc]
    simp
  · intro b
    rw [hhist, htseat, ← hseat]
    exact h.member b
  · rw [htpc]; exact hlen
  · rw [htpc]; exact List.nodup_finRange _
  · intro b
    have hold := h.paid b
    have hbefore : s.awaits b = false := by unfold State.awaits; rw [hpc]
    rw [State.paid, hbefore, if_neg (by decide), List.append_nil] at hold
    rw [State.paid, (hc b).2, htpc, hhist]
    simp only [heard, greeting, Pc.buf]
    rw [hold]
    by_cases hb : c ≠ b ∧ Chat.member b s.hist = true
    · rw [if_pos hb, if_pos ((hafter b).mpr hb)]
      simp
    · rw [if_neg hb, if_neg (mt (hafter b).mp hb)]
      simp
  · rw [hhist]
    exact ⟨(h.member c).mpr ⟨fd, hseat ▸ hfd⟩, h.authorised⟩

theorem Account.wrote {s t : State κ} (h : Account s) {c : κ} (hfull : s.pc.buf.length = buffSize)
    (hconn : t.conn = (s.wrote c (s.pc.buf.take buffSize)).conn) (hc : s.awaits c = true)
    (htc : t.awaits c = false) (hother : ∀ b, b ≠ c → t.awaits b = s.awaits b)
    (hbuf : t.pc.buf = s.pc.buf ∨ ∀ b, t.awaits b = false) (hfds : t.fds = s.fds)
    (hun : t.pc.unseated = s.pc.unseated) (harr : t.pc.arriving = s.pc.arriving)
    (hback : t.backlog = s.backlog) (hhist : t.hist = s.hist)
    (hfull' : t.pc.Full) (htodo : t.pc.todo.Nodup) : Account t := by
  refine h.frame_pc hfds hun harr hhist (fun b => ?_) hback hfull' htodo fun b => ?_
  · rw [hconn, State.wrote, setConn_conn]
    by_cases hb : b = c
    · rw [if_pos hb, hb]
    · rw [if_neg hb]
  · rw [State.paid, State.paid, hconn, State.wrote, setConn_conn, List.take_of_length_le hfull.le]
    by_cases hb : b = c
    · subst hb
      rw [if_pos rfl, hc, htc]
      simp
    · rw [if_neg hb, hother b hb]
      rcases hbuf with hbuf | hbuf
      · rw [hbuf]
      · rw [← hother b hb, hbuf b]
        simp

theorem Account.connect {s : State κ} {c : κ} (h : Account s) (ho : (s.conn c).opened = false)
    (n : Nat) : Account { s.setConn c { s.conn c with opened := true, room := n } with
      backlog := s.backlog ++ [c] } := by
  have hnew : c ∉ s.newcomers := fun hq => by rw [(h.queued c hq).1] at ho; cases ho
  have hopen : ∀ b, (s.conn b).opened = true →
      ((s.setConn c { s.conn c with opened := true, room := n }).conn b).opened = true := by
    intro b hb
    rw [setConn_conn]
    split
    · rfl
    · exact hb
  have happend : State.newcomers { s.setConn c { s.conn c with opened := true, room := n } with
      backlog := s.backlog ++ [c] } = s.newcomers ++ [c] := (List.append_assoc ..).symm
  refine h.frame rfl h.inj (fun fd b hb => hopen b (h.opened fd b hb)) rfl hopen ?_ (fun b hb => ?_)
    h.full h.todo fun b => ?_
  · rw [happend]
    exact List.nodup_append.mpr ⟨h.queue, List.nodup_singleton c, fun x hx y hy => by
      rw [List.mem_singleton] at hy; rintro rfl; exact hnew (hy ▸ hx)⟩
  · rw [happend] at hb
    rcases List.mem_append.mp hb with hb | hb
    · exact ⟨hopen b (h.queued b hb).1, .inr hb⟩
    · rw [List.mem_singleton] at hb
      subst hb
      refine ⟨?_, .inl ho⟩
      show ((s.setConn b _).conn b).opened = true
      rw [setConn_conn, if_pos rfl]
  · show ((s.setConn c _).conn b).out ++ _ = _
    rw [setConn_conn]
    by_cases hb : b = c
    · rw [if_pos hb, hb]; rfl
    · rw [if_neg hb]; rfl

theorem Account.echo {s : State κ} {fd : Nat} {buf : List Byte} {evs : List Event} {c : κ}
    (h : Account s) (hpc : s.pc = .echo fd buf evs) (hfd : s.fds fd = some c) :
    Account { s.wrote c (buf.take buffSize) with pc := .events evs, epoll := fd :: s.epoll } := by
  have hbuf : s.pc.buf = buf := by rw [hpc]; rfl
  have haw : ∀ b, s.awaits b = decide (s.fds fd = some b) := fun b => by
    unfold State.awaits; rw [hpc]
  have hfull := h.full
  rw [hpc] at hfull
  refine h.wrote (c := c) (by rw [hbuf]; exact hfull) (by rw [hbuf]) (by rw [haw, hfd]; simp) rfl
    (fun b hb => ?_) (.inr fun _ => rfl) rfl (by rw [hpc]; rfl) (by rw [hpc]; rfl) rfl rfl trivial
    List.nodup_nil
  rw [haw, hfd]
  show false = _
  simp [Ne.symm hb]

theorem Account.pass {s : State κ} {fd : Nat} {buf : List Byte} {i : Fin maxClientCount}
    {todo : List (Fin maxClientCount)} {evs : List Event} (h : Account s)
    (hpc : s.pc = .forward fd buf (i :: todo) evs) (hi : ∀ t, (s.clients i).fd = some t → t = fd) :
    Account { s with pc := .forward fd buf todo evs } := by
  have hbuf : s.pc.buf = buf := by rw [hpc]; rfl
  have htodo : (i :: todo).Nodup := by have := h.todo; rw [hpc] at this; exact this
  have hno : ∀ b, s.reaches fd b i = false := fun b => by
    rw [← Bool.not_eq_true, reaches_iff]
    rintro ⟨u, hu, hne, -⟩
    exact hne (hi u hu)
  refine h.frame_pc rfl (by rw [hpc]; rfl) (by rw [hpc]; rfl) rfl (fun _ => rfl) rfl ?_
    (List.nodup_cons.mp htodo).2 fun b => ?_
  · have := h.full; rw [hpc] at this; exact this
  · have hsame : s.awaits b = todo.any (s.reaches fd b) := by
      rw [awaits_forward hpc, hno b, Bool.false_or]
    rw [State.paid, State.paid, hbuf, hsame]
    rfl

/-- Who is written to at slot `i` is not written to again: the connection has one descriptor, and
that one slot. -/
theorem Account.reaches_once {a : Args} {s : State κ} (h : Account s) (htab : Table a s)
    {fd u : Nat} {i : Fin maxClientCount} {todo : List (Fin maxClientCount)} {c : κ}
    (htodo : (i :: todo).Nodup) (hi : (s.clients i).fd = some u) (hu : s.fds u = some c) :
    todo.any (s.reaches fd c) = false := by
  rw [List.any_eq_false]
  intro j hj hr
  obtain ⟨v, hv, -, hvc⟩ := reaches_iff.mp hr
  rw [h.inj v u c hvc hu] at hv
  rw [htab.slots j i u hv hi] at hj
  exact (List.nodup_cons.mp htodo).1 hj

theorem Account.deliver {a : Args} {s : State κ} {fd u : Nat} {buf : List Byte}
    {i : Fin maxClientCount} {todo : List (Fin maxClientCount)} {evs : List Event} {c : κ}
    (h : Account s) (htab : Table a s) (hpc : s.pc = .forward fd buf (i :: todo) evs)
    (hi : (s.clients i).fd = some u) (hne : u ≠ fd) (hu : s.fds u = some c) :
    Account { s.wrote c (buf.take buffSize) with pc := .forward fd buf todo evs } := by
  have hbuf : s.pc.buf = buf := by rw [hpc]; rfl
  have htodo : (i :: todo).Nodup := by have := h.todo; rw [hpc] at this; exact this
  have haw := awaits_forward hpc
  have hreach : s.reaches fd c i = true := reaches_iff.mpr ⟨u, hi, hne, hu⟩
  have hfull := h.full
  rw [hpc] at hfull
  refine h.wrote (c := c) (by rw [hbuf]; exact hfull) (by rw [hbuf])
    (by rw [haw, hreach, Bool.true_or]) (h.reaches_once htab htodo hi hu) (fun b hb => ?_)
    (.inl hbuf.symm) rfl (by rw [hpc]; rfl) (by rw [hpc]; rfl) rfl rfl hfull
    (List.nodup_cons.mp htodo).2
  show todo.any (s.reaches fd b) = _
  have hno : s.reaches fd b i = false := by
    rw [← Bool.not_eq_true, reaches_iff]
    rintro ⟨v, hv, -, hvb⟩
    rw [hi] at hv; cases hv
    rw [hu] at hvb; cases hvb
    exact hb rfl
  rw [haw, hno, Bool.false_or]

/-- **A step keeps the account.** -/
theorem Account.moves {a : Args} {s t : State κ} {act : Act κ} (h : Account s) (htab : Table a s)
    (hm : Moves a s act t) (hrun : t.pc.Running) : Account t := by
  cases hm with
  | connect ho => exact h.connect ho _
  | @client _ c k bytes ho ho' hout =>
    refine h.frame_pc rfl rfl rfl rfl (fun b => ?_) rfl h.full h.todo fun b => ?_
    · rw [setConn_conn]
      by_cases hb : b = c
      · rw [if_pos hb, hb, ho, ho']
      · rw [if_neg hb]
    · show ((s.setConn c k).conn b).out ++ _ = _
      rw [setConn_conn]
      by_cases hb : b = c
      · rw [if_pos hb, hb, hout]; rfl
      · rw [if_neg hb]; rfl
  | pwait hpc =>
    exact h.frame_pc rfl (by rw [hpc]; rfl) (by rw [hpc]; rfl) rfl (fun _ => rfl) rfl trivial
      List.nodup_nil fun b => by rw [paid_events rfl, paid_events hpc]
  | interrupt => exact absurd hrun (interrupt_stops s _)
  | skip hpc =>
    exact h.frame_pc rfl (by rw [hpc]; rfl) (by rw [hpc]; rfl) rfl (fun _ => rfl) rfl trivial
      List.nodup_nil fun b => by rw [paid_events rfl, paid_events hpc]
  | accept hpc hback hfd => exact h.accept hpc hback hfd rfl rfl rfl rfl rfl
  | turnAway hpc hfd => exact h.turnAway hpc hfd rfl rfl rfl rfl rfl
  | join hpc hfd hlen hr => exact h.join hpc hfd (bulkRead_full hlen hr) rfl rfl rfl rfl rfl
  | refuse hpc => exact h.refuse hpc rfl rfl rfl rfl rfl
  | echo hpc hfd => exact h.echo hpc hfd
  | say hpc hne hfd hlen hpos hr =>
    exact h.say htab hpc hfd (bulkRead_full hlen hr) rfl rfl rfl rfl rfl rfl
  | leave hpc hne hfd hslot =>
    exact h.leave hpc hfd rfl rfl rfl rfl rfl
  | @again _ _ _ rest _ c hpc =>
    refine h.frame_pc rfl (by rw [hpc]; rfl) (by rw [hpc]; rfl) rfl
      (fun b => (took_conn s c rest b).1) rfl trivial List.nodup_nil fun b => ?_
    rw [paid_events rfl, paid_events hpc]
    exact (took_conn s c rest b).2
  | pass hpc hi => exact h.pass hpc hi
  | deliver hpc hi hne hu => exact h.deliver htab hpc hi hne hu
  | @forwarded fd buf evs ws hpc =>
    refine h.frame_pc rfl (by rw [hpc]; rfl) (by rw [hpc]; rfl) rfl (fun _ => rfl) rfl trivial
      List.nodup_nil fun b => ?_
    have hno : s.awaits b = false := by unfold State.awaits; rw [hpc]; rfl
    rw [paid_events rfl, State.paid, hno]
    simp
  | broken hbad => exact absurd hbad htab.not_broken
  | readFails _ _ _ _ ht => exact absurd ht (hrun _)
  | writeFails _ _ ht => exact absurd ht (hrun _)

theorem account_reach {a : Args} {s : State κ} (h : (chat κ a).Reach s) :
    s.pc.Running → Account s := by
  refine h.inv_while (R := fun s => s.pc.Running) (I := Account) ?_ (fun _ _ _ => running_of_next) ?_
  · rintro s ⟨hpc, -, -, hf, hk, hq, hh⟩
    have hnew : s.newcomers = [] := by rw [newcomers_backlog (by rw [hpc]; rfl), hq]
    refine ⟨?_, hnew ▸ List.nodup_nil, ?_, ?_, ?_, ?_, ?_, ?_, ?_, ?_⟩
    · intro fd fd' c hfd
      rw [hf] at hfd; cases hfd
    · rw [hnew]; intro c hc; cases hc
    · intro fd c hfd
      rw [hf] at hfd; cases hfd
    · rw [hh]; exact fun _ _ => ⟨rfl, rfl, rfl⟩
    · intro c
      rw [seated_all (by rw [hpc]; rfl)]
      simp [hh, hf, Chat.member]
    · rw [hpc]; exact trivial
    · rw [hpc]; exact List.nodup_nil
    · intro c
      rw [paid_events hpc, hk, hh]
      rfl
    · rw [hh]; exact trivial
  · exact fun _ _ _ hr hs ih _ hn hrun => ih.moves (table_reach hr hs) (next_moves hn) hrun

/-- **What went out.** Between two events every connection has been sent the echo
of its greeting and all it is to hear. -/
theorem out_eq {a : Args} {s : State κ} (h : (chat κ a).Reach s) {evs : List Event}
    (hpc : s.pc = .events evs) (c : κ) :
    (s.conn c).out = greeting c s.hist ++ ((heard c s.hist).map Prod.snd).flatten := by
  have hacc := account_reach h (by rw [hpc]; intro why hw; cases hw)
  rw [← hacc.paid c, paid_events hpc]

end Ops.Chat
