import Ops.Bingo.Wakeup

/-!
# Runs that finish cleanly

Each child sends one message to `pin`, which does not wait for a thread: the messages and
the children that are still to send are never more than they are at the start. The parent looks at
`children_left` before it sends, and a child that has stopped receiving still counts there until its
decrement is stored: when `pout` is full then, the parent waits for nobody (`clean_iff`).
-/

namespace Ops.Bingo

open Posix

variable {n i j rand rand' : Nat} {old : Old} {s t : State} {act : Act}

/-- The child is still to receive a number. -/
def Child.waits : Child → Bool
  | .unborn | .start | .receive _ _ => true
  | _ => false

/-- The parent waits in `mq_send`, and no child is left to receive. -/
def Stranded (n : Nat) (s : State) : Prop :=
  (∃ ni, s.parent = .send ni) ∧ maxmsg ≤ s.pout.msgs.length ∧ ∀ i < n, (s.child i).waits = false

/-- No `mq_send` of a child has failed, and the parent does not wait for nobody. -/
structure Clean (n : Nat) (s : State) : Prop where
  sent : s.killed ≠ some .send
  free : ¬ Stranded n s

/-- When the parent checks and `pout` is full, a child is still to receive, or every child is
reaped and counted off. -/
def Timely (n : Nat) (s : State) : Act → Prop
  | .parent _ => s.parent = .check → maxmsg ≤ s.pout.msgs.length →
    (∃ i < n, (s.child i).waits = true) ∨ ∀ i < n, s.child i = .counted
  | _ => True

/-- No two changes of `children_left` overlap, and the parent checks in time. -/
def Calm (n : Nat) (s : State) (act : Act) : Prop := Whole s act ∧ Timely n s act

/-- The child is still to send its message. -/
def Child.unsent : Child → Bool
  | .unborn | .start | .receive _ _ | .send _ => true
  | _ => false

def State.unsent (n : Nat) (s : State) : Nat :=
  (List.range n).countP fun i => (s.child i).unsent

structure Fits (n : Nat) (old : Old) (s : State) : Prop where
  room : s.pin.msgs.length + s.unsent n ≤ old.pin.length + n
  pout : s.pout.msgs.length ≤ maxmsg
  sent : s.killed ≠ some .send

/-! ## The messages -/

theorem childLoop_unsent (i life bingo : Nat) : (childLoop i life bingo).unsent = true := by
  cases life <;> rfl

theorem number_unsent (i life bingo ni : Nat) :
    (if bingo = ni then .send (bingo, 1) else childLoop i life bingo : Child).unsent = true := by
  split
  · rfl
  · exact childLoop_unsent i life bingo

theorem Fits.frame (h : Fits n old s) (hchild : ∀ q, (t.child q).unsent = (s.child q).unsent)
    (hpin : t.pin.msgs.length ≤ s.pin.msgs.length) (hpout : t.pout.msgs.length ≤ maxmsg)
    (hkilled : t.killed ≠ some .send) : Fits n old t := by
  have hroom := h.room
  have hsame : t.unsent n = s.unsent n := countP_same fun q _ => hchild q
  exact ⟨by omega, hpout, hkilled⟩

theorem unsent_send {m : Nat × Nat} (hbirths : Births n s) (hi : s.child i = .send m)
    (hchild : t.child = Function.update s.child i .leaving) : s.unsent n = t.unsent n + 1 := by
  have hn : i < n := by
    by_contra hge
    rw [hbirths.bound i (Nat.not_lt.mp hge)] at hi
    cases hi
  unfold State.unsent
  rw [hchild]
  exact countP_fall List.nodup_range (List.mem_range.mpr hn) (by rw [hi]; rfl)
    (by rw [Function.update_self]; rfl) fun q hq => by rw [Function.update_of_ne hq]

theorem Fits.moves (hle : old.pin.length + n ≤ maxmsg) (h : Fits n old s) (hbirths : Births n s)
    (hreaps : Reaps s) (hm : Moves n s act t) : Fits n old t := by
  have hroom := h.room
  cases hm with
  | fork hp =>
    have hunborn := hbirths.below _ (by rw [hp]; exact Nat.lt_succ_self _)
    exact h.frame (update_same (by rw [hunborn]; rfl)) (Nat.le_refl _) h.pout h.sent
  | load | store | register | stop | draw | retry | again | close | exit | forkFails | deliver |
    reaped | loads | empty | agreed | print | renew | done =>
    exact h.frame (fun _ => rfl) (Nat.le_refl _) h.pout h.sent
  | busy | failed | renewBusy | lost | closed | closedNotify =>
    exact h.frame (fun _ => rfl) (Nat.le_refl _) h.pout nofun
  | number hp hlt =>
    refine h.frame (fun _ => rfl) (Nat.le_refl _) ?_ h.sent
    simp only [Mqueue.send_msgs, Mqueue.insert_length]
    exact hlt
  | echild =>
    exact h.frame (fun q => congrArg (fun f => (f q).unsent) echild_child)
      (Nat.le_of_eq (congrArg (fun q : Mqueue Nat => q.msgs.length) echild_pin))
      (Nat.le_trans (Nat.le_of_eq (congrArg (fun q : Mqueue Nat => q.msgs.length) echild_pout))
        h.pout) (by rw [State.setHandler, echild_killed]; exact h.sent)
  | reap _ hc | leave hc =>
    exact h.frame (update_same (by rw [hc]; rfl)) (Nat.le_refl _) h.pout h.sent
  | stores hw =>
    have hreaped := (hreaps.reaped _).mpr ⟨_, by rw [State.reaping, hw]; rfl⟩
    exact h.frame (update_same (by rw [hreaped]; rfl)) (Nat.le_refl _) h.pout h.sent
  | start hc =>
    exact h.frame (update_same (by rw [hc]; exact childLoop_unsent ..)) (Nat.le_refl _) h.pout
      h.sent
  | receive hc hreceive =>
    refine h.frame (update_same (by rw [hc]; exact number_unsent ..)) (Nat.le_refl _) ?_ h.sent
    have hpout := h.pout
    rw [(Mqueue.receive_some.mp hreceive).1, List.length_cons] at hpout
    exact Nat.le_of_succ_le hpout
  | @send i _ _ m hc hlt =>
    have hcount := unsent_send (t := s.sends i m) hbirths hc sends_child
    refine ⟨?_, by rw [sends_pout]; exact h.pout, by rw [sends_killed]; exact h.sent⟩
    rw [sends_pin, Mqueue.send_msgs, Mqueue.insert_length]
    omega
  | @full i _ _ m hc hfull =>
    have hcount := unsent_send (t := s.setChild i .leaving) hbirths hc rfl
    omega
  | take _ _ hreceive =>
    refine h.frame (fun _ => rfl) ?_ h.pout h.sent
    rw [(Mqueue.receive_some.mp hreceive).1]
    exact Nat.le_succ _

theorem begun_fits (n : Nat) (old : Old) : Fits n old (begun n old) := by
  refine ⟨Nat.add_le_add_left ?_ _, old.pout_le, nofun⟩
  exact List.countP_le_length.trans (Nat.le_of_eq List.length_range)

/-! ## The parent -/

/-- The parent is at its `mq_send`, or is to call it again. -/
def Parent.sending : Parent → Bool
  | .send _ | .interrupted _ | .eintr _ _ => true
  | _ => false

/-- The parent is to send to a full `pout`, and no child is left to receive. -/
structure Stuck (n : Nat) (s : State) : Prop where
  sending : s.parent.sending = true
  full : maxmsg ≤ s.pout.msgs.length
  nobody : ∀ i < n, (s.child i).waits = false

theorem Stranded.stuck (h : Stranded n s) : Stuck n s := by
  obtain ⟨⟨ni, hsend⟩, hfull, hnobody⟩ := h
  exact ⟨by rw [hsend]; rfl, hfull, hnobody⟩

theorem Stuck.congr (h : Stuck n t) (hparent : t.parent.sending = s.parent.sending)
    (hpout : t.pout = s.pout) (hwaits : ∀ q, (t.child q).waits = (s.child q).waits) :
    Stuck n s := by
  obtain ⟨hsending, hfull, hnobody⟩ := h
  exact ⟨hparent ▸ hsending, hpout ▸ hfull, fun i hi => hwaits i ▸ hnobody i hi⟩

theorem createLoop_sending (k : Nat) : (createLoop k).sending = false := by
  cases k <;> rfl

theorem stuck_back (hpout : s.pout.msgs.length ≤ maxmsg) (hreaps : Reaps s)
    (hm : Moves n s act t) (h : Stuck n t) : Stuck n s ∨
      (∃ rand, act = .parent rand) ∧ s.parent = .check ∧ s.childrenLeft ≠ 0 ∧
        maxmsg ≤ s.pout.msgs.length ∧ ∀ i < n, (s.child i).waits = false := by
  have hnot : t.parent.sending ≠ false := by
    rw [h.sending]
    nofun
  cases hm with
  | fork | load | register | stop | number | close | exit | forkFails => exact absurd rfl hnot
  | store => exact absurd (createLoop_sending _) hnot
  | draw hp hleft => exact .inr ⟨⟨_, rfl⟩, hp, hleft, h.full, h.nobody⟩
  | retry hp | again hp => exact .inl (h.congr (by rw [hp]; rfl) rfl fun _ => rfl)
  | busy | failed | reaped | loads | full | take | empty | agreed | lost | print | renew | closed |
    renewBusy | closedNotify | done => exact .inl (h.congr rfl rfl fun _ => rfl)
  | deliver =>
    exact .inl (h.congr (interrupt_same (f := Parent.sending) (fun _ => rfl) s _) rfl fun _ => rfl)
  | echild =>
    refine .inl (h.congr (echild_same (f := Parent.sending) (fun _ _ => rfl) s _) echild_pout ?_)
    exact fun q => congrArg (fun f => (f q).waits) echild_child
  | start hc | reap _ hc | leave hc => exact .inl (h.congr rfl rfl (update_same (by rw [hc]; rfl)))
  | stores hw =>
    have hreaped := (hreaps.reaped _).mpr ⟨_, by rw [State.reaping, hw]; rfl⟩
    exact .inl (h.congr rfl rfl (update_same (by rw [hreaped]; rfl)))
  | send hc =>
    refine .inl (h.congr (by rw [sends_parent]) sends_pout ?_)
    rw [sends_child]
    exact update_same (by rw [hc]; rfl)
  | receive hc hreceive =>
    have hfull := h.full
    rw [(Mqueue.receive_some.mp hreceive).1, List.length_cons] at hpout
    exact absurd hfull (Nat.not_le.mpr hpout)

theorem stuck_step (hfits : Fits n old s) (haccount : Account n s)
    (hexact : Exact s.childrenLeft (s.due n) s.held) (hfree : ¬ Stuck n s) (hcalm : Calm n s act)
    (hm : Moves n s act t) : ¬ Stuck n t := by
  intro ht
  rcases stuck_back hfits.pout haccount.reaps hm ht with
    hs | ⟨⟨rand, rfl⟩, hcheck, hleft, hfull, hnobody⟩
  · exact hfree hs
  · rcases hcalm.2 hcheck hfull with ⟨i, hi, hwaits⟩ | hcounted
    · rw [hnobody i hi] at hwaits
      cases hwaits
    · have hdue : s.due n = 0 := by
        have hnone : (List.range n).countP (fun i => (s.child i).uncounted) = 0 := by
          refine List.countP_eq_zero.mpr fun i hi => ?_
          rw [hcounted i (List.mem_range.mp hi)]
          nofun
        unfold State.due
        rw [hnone, hcheck]
        rfl
      exact hleft (hexact.count.trans hdue)

theorem clean_reach (hle : old.pin.length + n ≤ maxmsg) (h : (bingo n old).ReachIf (Calm n) s) :
    Clean n s := by
  have hall : Account n s ∧ Exact s.childrenLeft (s.due n) s.held ∧ Fits n old s ∧
      ¬ Stuck n s := by
    refine h.inv (I := fun s => Account n s ∧ Exact s.childrenLeft (s.due n) s.held ∧ Fits n old s ∧
      ¬ Stuck n s) (fun s hs => ?_) ?_
    · obtain rfl : s = begun n old := hs
      refine ⟨begun_account n old, begun_exact n old, begun_fits n old, fun h => ?_⟩
      have hsending := h.sending
      rw [show (begun n old).parent = createLoop n from rfl, createLoop_sending] at hsending
      cases hsending
    · rintro u act v - ⟨haccount, hexact, hfits, hfree⟩ hcalm hstep
      have hm := next_moves hstep
      obtain ⟨haccount', hiff⟩ := haccount.moves hm
      exact ⟨haccount', hiff.mpr ⟨hexact, hcalm.1⟩,
        hfits.moves hle haccount.births haccount.reaps hm,
        stuck_step hfits haccount hexact hfree hcalm hm⟩
  obtain ⟨-, -, hfits, hfree⟩ := hall
  exact ⟨hfits.sent, mt Stranded.stuck hfree⟩

/-! ## A thread that is late

The children play one after the other, and no thread runs. -/

/-- No `SIGCHLD` is handled, nothing has failed, and the children from `j` on have not begun. -/
structure Ready (n : Nat) (old : Old) (j : Nat) (s : State) : Prop where
  reach : (bingo n old).ReachIf (Calm n) s
  handler : s.handler none = none
  alive : s.killed = none
  later : ∀ i, j ≤ i → i < n → s.child i = .start

theorem next_main (hhandler : s.handler none = none) (halive : s.killed = none)
    (hstep : s.mainFlow rand = some t) : (bingo n old).next s (.parent rand) = some t := by
  have hparent : s.parent ≠ .exited := by
    intro hexited
    rw [State.mainFlow, hexited] at hstep
    cases hstep
  simp [bingo, State.next, hhandler, halive, hparent, hstep]

theorem next_child (halive : s.killed = none) (hstep : s.childWork i rand rand' = some t) :
    (bingo n old).next s (.child i rand rand') = some t := by
  simp [bingo, State.next, halive, hstep]

theorem calm_parent (hcheck : s.parent ≠ .check) : Calm n s (.parent rand) :=
  ⟨trivial, fun h => absurd h hcheck⟩

theorem calm_child : Calm n s (.child i rand rand') := ⟨trivial, trivial⟩

theorem create_all (n : Nat) (old : Old) {d : Nat} (hd : d ≤ n) : ∃ s, Ready n old (n - d) s ∧
    s.parent = createLoop (n - d) ∧ s.childrenLeft = d ∧ s.pin = ⟨old.pin, false⟩ := by
  induction d with
  | zero =>
    exact ⟨begun n old, ⟨.init rfl, rfl, rfl, fun i hge hlt => absurd hlt (by omega)⟩, rfl, rfl,
      rfl⟩
  | succ d ih =>
    obtain ⟨s, ⟨hreach, hhandler, halive, hlater⟩, hparent, hleft, hpin⟩ := ih (by omega)
    obtain ⟨k, hk⟩ : ∃ k, n - d = k + 1 := ⟨n - d - 1, by omega⟩
    have hk' : n - (d + 1) = k := by omega
    rw [hk] at hparent hlater
    rw [hk']
    have hfork : (bingo n old).next s (.parent 0) =
        some { s.setChild k .start with parent := .load k } := by
      refine next_main hhandler halive ?_
      rw [State.mainFlow, hparent]
      rfl
    have hload : (bingo n old).next { s.setChild k .start with parent := .load k } (.parent 0) =
        some { s.setChild k .start with parent := .store k s.childrenLeft } :=
      next_main (by exact hhandler) (by exact halive) (by rfl)
    have hstore : (bingo n old).next { s.setChild k .start with
          parent := .store k s.childrenLeft } (.parent 0) =
        some { s.setChild k .start with
          childrenLeft := s.childrenLeft + 1, parent := createLoop k } :=
      next_main (by exact hhandler) (by exact halive) (by rfl)
    have hreach' := ((hreach.next (calm_parent (by rw [hparent]; nofun)) hfork).next
      (calm_parent (by nofun)) hload).next (calm_parent (by nofun)) hstore
    refine ⟨_, ⟨hreach', hhandler, halive, fun i hge hlt => ?_⟩, rfl, ?_, hpin⟩
    · show Function.update s.child k .start i = .start
      by_cases hik : i = k
      · rw [hik, Function.update_self]
      · rw [Function.update_of_ne hik]
        exact hlater i (by omega) hlt
    · show s.childrenLeft + 1 = ((d + 1 : Nat) : Int)
      rw [hleft]
      rfl

/-- The parent is in its loop, and children below `j` have sent their messages. -/
structure Round (n : Nat) (old : Old) (j : Nat) (s : State) : Prop extends Ready n old j s where
  check : s.parent = .check
  left : s.childrenLeft = n
  pin : s.pin.msgs.length = old.pin.length + j

theorem first_round (n : Nat) (old : Old) : ∃ s, Round n old 0 s := by
  obtain ⟨s, ⟨hreach, hhandler, halive, hlater⟩, hparent, hleft, hpin⟩ :=
    create_all n old (Nat.le_refl n)
  rw [Nat.sub_self] at hparent hlater
  have hnotify : (bingo n old).next s (.parent 0) =
      some { s with pin := ⟨old.pin, true⟩, parent := .check } := by
    refine next_main hhandler halive ?_
    rw [State.mainFlow, hparent, hpin]
    rfl
  have hreach' := hreach.next (calm_parent (by rw [hparent]; nofun)) hnotify
  exact ⟨_, ⟨hreach', hhandler, halive, hlater⟩, rfl, hleft, rfl⟩

theorem Round.number (h : Round n old j s) (hj : j < n) :
    ∃ t, Round n old j t ∧ t.pout.msgs ≠ [] := by
  obtain ⟨⟨hreach, hhandler, halive, hlater⟩, hcheck, hleft, hpin⟩ := h
  by_cases hempty : s.pout.msgs = []
  · have hchecks : (bingo n old).next s (.parent 0) =
        some { s with parent := .send (0 % maxNum) } := by
      refine next_main hhandler halive ?_
      rw [State.mainFlow, hcheck]
      show some { s with parent := if s.childrenLeft = 0 then .close else .send (0 % maxNum) } = _
      rw [if_neg (by omega)]
    have hsends : (bingo n old).next { s with parent := .send (0 % maxNum) } (.parent 0) =
        some { s with pout := s.pout.send (0 % maxNum, 0) false, parent := .check } := by
      refine next_main (by exact hhandler) (by exact halive) (if_pos ?_)
      rw [hempty]
      exact Nat.succ_pos 9
    have hcalm : Calm n s (.parent 0) :=
      ⟨trivial, fun _ _ => .inl ⟨j, hj, by rw [hlater j (Nat.le_refl j) hj]; rfl⟩⟩
    have hreach' := (hreach.next hcalm hchecks).next (calm_parent (by nofun)) hsends
    refine ⟨_, ⟨⟨hreach', hhandler, halive, hlater⟩, rfl, hleft, hpin⟩, ?_⟩
    exact Mqueue.insert_ne_nil (0 % maxNum, 0) s.pout.msgs
  · exact ⟨s, ⟨⟨hreach, hhandler, halive, hlater⟩, hcheck, hleft, hpin⟩, hempty⟩

/-- Child `j` has received its only number, and is about to send its message. -/
theorem Round.plays (h : Round n old j s) (hj : j < n) (hpout : s.pout.msgs ≠ []) :
    ∃ t, Ready n old (j + 1) t ∧ t.parent = .check ∧ t.childrenLeft = n ∧
      t.pin.msgs.length = old.pin.length + j ∧ ∃ m, t.child j = .send m := by
  obtain ⟨⟨hreach, hhandler, halive, hlater⟩, hcheck, hleft, hpin⟩ := h
  have hbegins : (bingo n old).next s (.child j 0 0) = some (s.setChild j (.receive 0 0)) := by
    refine next_child halive ?_
    rw [State.childWork, hlater j (Nat.le_refl j) hj]
    rfl
  obtain ⟨⟨⟨ni, prio⟩, pout⟩, hreceive⟩ :=
    Option.ne_none_iff_exists'.mp (mt Mqueue.receive_none.mp hpout)
  have hnumber : ∃ m, (if 0 = ni then .send (0, 1) else childLoop j 0 0) = Child.send m := by
    split
    · exact ⟨_, rfl⟩
    · exact ⟨_, rfl⟩
  obtain ⟨m, hm⟩ := hnumber
  have hreceives : (bingo n old).next (s.setChild j (.receive 0 0)) (.child j 0 0) =
      some { (s.setChild j (.receive 0 0)).setChild j (.send m) with pout := pout } := by
    refine next_child (by exact halive) ?_
    simp only [State.childWork, State.setChild, Function.update_self, hreceive, hm]
  have hreach' := (hreach.next calm_child hbegins).next calm_child hreceives
  refine ⟨_, ⟨hreach', hhandler, halive, fun i hge hlt => ?_⟩, hcheck, hleft, hpin, m, ?_⟩
  · show Function.update (Function.update s.child j _) j _ i = .start
    rw [Function.update_of_ne (by omega), Function.update_of_ne (by omega)]
    exact hlater i (by omega) hlt
  · exact Function.update_self ..

theorem Round.round (h : Round n old j s) (hj : j < n) (hroom : old.pin.length + j < maxmsg) :
    ∃ t, Round n old (j + 1) t := by
  obtain ⟨t, ht, hpout⟩ := h.number hj
  obtain ⟨u, ⟨hreach, hhandler, halive, hlater⟩, hcheck, hleft, hpin, m, hm⟩ := ht.plays hj hpout
  have hsend : (bingo n old).next u (.child j 0 0) = some (u.sends j m) := by
    refine next_child halive ?_
    rw [State.childWork, hm]
    exact if_pos (hpin ▸ hroom)
  refine ⟨_, ⟨hreach.next calm_child hsend, by rw [sends_handler, hhandler],
    by rw [sends_killed, halive], fun i hge hlt => ?_⟩, by rw [sends_parent, hcheck],
    by rw [sends_left, hleft], ?_⟩
  · rw [sends_child, Function.update_of_ne (by omega)]
    exact hlater i hge hlt
  · rw [sends_pin, Mqueue.send_msgs, Mqueue.insert_length, hpin]
    omega

theorem rounds (n : Nat) (old : Old) (hj : j ≤ n) (hroom : old.pin.length + j ≤ maxmsg) :
    ∃ s, Round n old j s := by
  induction j with
  | zero => exact first_round n old
  | succ j ih =>
    obtain ⟨s, hs⟩ := ih (by omega) (by omega)
    exact hs.round (by omega) (by omega)

theorem full_pin_kills (hfull : maxmsg < old.pin.length + n) :
    ∃ s, (bingo n old).ReachIf (Calm n) s ∧ s.killed = some .send := by
  have hold := old.pin_le
  obtain ⟨j, hj⟩ : ∃ j, old.pin.length + j = maxmsg := ⟨maxmsg - old.pin.length, by omega⟩
  obtain ⟨s, hs⟩ := rounds n old (j := j) (by omega) (by omega)
  obtain ⟨t, ht, hpout⟩ := hs.number (by omega)
  obtain ⟨u, ⟨hreach, -, halive, -⟩, -, -, hpin, m, hm⟩ := ht.plays (by omega) hpout
  have hsend : (bingo n old).next u (.child j 0 0) = some (u.kill .send) := by
    refine next_child halive ?_
    rw [State.childWork, hm]
    exact if_neg (by omega)
  exact ⟨_, hreach.next calm_child hsend, rfl⟩

/-! ## Runs that finish cleanly -/

theorem untimely_stranded (haccount : Account n s) (hstep : (bingo n old).next s act = some t)
    (hact : ¬ Timely n s act) : Stranded n t := by
  cases act with
  | parent rand =>
    unfold Timely at hact
    simp only [not_forall, not_or, not_exists, not_and, Bool.not_eq_true] at hact
    obtain ⟨hcheck, hfull, hnobody, i, hi, hcounted⟩ := hact
    have huncounted : (s.child i).uncounted = true := by
      have hwaits := hnobody i hi
      cases hc : s.child i with
      | unborn => rw [hc] at hwaits; cases hwaits
      | counted => exact absurd hc hcounted
      | _ => rfl
    have hdue : 0 < s.due n := by
      have hpos : 0 < (List.range n).countP fun i => (s.child i).uncounted :=
        List.countP_pos_iff.mpr ⟨i, List.mem_range.mpr hi, huncounted⟩
      unfold State.due
      rw [hcheck]
      show (0 : Int) < _ - 0
      omega
    have hlow := haccount.drifts.low
    cases next_moves hstep with
    | draw => exact ⟨⟨_, rfl⟩, hfull, hnobody⟩
    | stop _ hleft => omega
    | fork hp | load hp | store hp | register hp | busy hp | number hp | retry hp | again hp
    | failed hp | close hp | exit hp =>
      rw [hcheck] at hp
      cases hp
  | _ => exact absurd trivial hact

/-- **Clean runs**, for every number of children: the runs whose steps are all calm are clean if
and only if all messages fit into `pin`; a check that is not timely ends in a state that is not. -/
theorem clean_iff (n : Nat) (old : Old) :
    ((∀ s, (bingo n old).ReachIf (Calm n) s → Clean n s) ↔ old.pin.length + n ≤ maxmsg) ∧
      ∀ s act t, (bingo n old).Reach s → (bingo n old).next s act = some t → ¬ Timely n s act →
        ¬ Clean n t := by
  refine ⟨⟨fun hall => ?_, fun hle s hs => clean_reach hle hs⟩, fun s act t hs hstep hact hclean =>
    hclean.free (untimely_stranded (account_reach hs) hstep hact)⟩
  by_contra hfull
  obtain ⟨s, hs, hkilled⟩ := full_pin_kills (Nat.not_le.mp hfull)
  exact (hall s hs).sent hkilled

/-- One child receives its only number, and before it sends its message the parent sends ten more
and waits for room. -/
theorem parent_stranded : ∃ s, (bingo 1 .empty).Reach s ∧ ¬ Clean 1 s := by
  have hrun : ((bingo 1 .empty).exec (begun 1 .empty) (List.replicate 6 (.parent 0) ++
      [.child 0 0 1, .child 0 0 0] ++ List.replicate 21 (.parent 0))).map
      (fun s => ((s.parent, s.pout.msgs.length), (s.child 0).waits)) =
      some ((.send 0, 10), false) := by decide +kernel
  obtain ⟨s, hs, heq⟩ := Option.map_eq_some_iff.mp hrun
  simp only [Prod.mk.injEq] at heq
  obtain ⟨⟨hparent, hlength⟩, hwaits⟩ := heq
  refine ⟨s, LTS.Reach.exec (.init rfl) hs, fun hclean => hclean.free
    ⟨⟨0, hparent⟩, Nat.le_of_eq hlength.symm, fun i hi => ?_⟩⟩
  obtain rfl : i = 0 := by omega
  exact hwaits

end Ops.Bingo
