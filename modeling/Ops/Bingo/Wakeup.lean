import Ops.Bingo.Count

/-!
# Lost messages

A thread empties `pin` and then registers it. A message that arrives after `EAGAIN` and before
`mq_notify` finds the queue empty and not registered, and from then on nobody comes to the queue.
When the process ends, what is in `pin` and what a thread has received and not yet printed goes with
it (`messages_printed_iff`).
-/

namespace Ops.Bingo

open Posix

variable {n i k rand rand' : Nat} {w : Flow} {old : Old} {s t : State} {act : Act}

/-- The message that the thread has received. -/
def Thread.prints : Thread → Option (Nat × Nat)
  | .print m => some m
  | _ => none

def Ended (s : State) : Prop := s.parent = .exited ∨ s.killed.isSome = true

/-- Nothing waits in `pin`, or a thread is still to come to it; no thread has ended with a
message. -/
structure Served (s : State) : Prop where
  pin : s.pin.msgs = [] ∨ ¬ Ended s ∧ ∃ k, (s.thread k).receives = true
  ended : Ended s → ∀ k, (s.thread k).prints = none

/-- The step ends the process of the parent: the loop is done, `fork` fails, or an `errno` was
changed or is `EBADF`. -/
def Last (s : State) : Act → Prop
  | .parent _ => s.parent = .leave ∨ ∃ ni, s.parent = .eintr ni false
  | .forkFails => True
  | .thread k => s.thread k = .eagain false ∨
    s.parent.opened = false ∧ (s.thread k = .receive ∨ s.thread k = .notify)
  | _ => False

/-- A message fits, and is notified or a thread is still to receive it. The process ends when
nothing is left in `pin` or received and not printed. -/
def Heard (s : State) : Act → Prop
  | .child i _ _ => ∀ m, s.child i = .send m → s.pin.msgs.length < maxmsg ∧
    (s.pin.fires false = true ∨ ¬ Ended s ∧ ∃ k, (s.thread k).receives = true)
  | act => Last s act → s.pin.msgs = [] ∧ ∀ k, (s.thread k).prints = none

theorem Served.congr (hpin : t.pin.msgs = s.pin.msgs)
    (hreceives : ∀ k, (t.thread k).receives = (s.thread k).receives)
    (hprints : ∀ k, (t.thread k).prints = (s.thread k).prints) (hended : Ended t ↔ Ended s) :
    Served t ↔ Served s := by
  have hany : (∃ k, (t.thread k).receives = true) ↔ ∃ k, (s.thread k).receives = true :=
    exists_congr fun k => by rw [hreceives k]
  constructor
  · rintro ⟨hserved, hlast⟩
    rw [hpin, hended, hany] at hserved
    exact ⟨hserved, fun h k => hprints k ▸ hlast (hended.mpr h) k⟩
  · rintro ⟨hserved, hlast⟩
    rw [← hpin, ← hended, ← hany] at hserved
    exact ⟨hserved, fun h k => (hprints k).trans (hlast (hended.mp h) k)⟩

/-- A thread is at a call that neither receives nor prints, and goes on to another. -/
theorem thread_congr {x : Thread} (hreceives : x.receives = (s.thread k).receives)
    (hprints : x.prints = (s.thread k).prints) :
    (∀ l, (Function.update s.thread k x l).receives = (s.thread l).receives) ∧
      ∀ l, (Function.update s.thread k x l).prints = (s.thread l).prints :=
  ⟨update_same hreceives, update_same hprints⟩

theorem Served.last (hthread : t.thread = s.thread) (hpin : t.pin.msgs = s.pin.msgs)
    (hs : ¬ Ended s) (ht : Ended t) :
    Served t ↔ Served s ∧ (s.pin.msgs = [] ∧ ∀ k, (s.thread k).prints = none) := by
  constructor
  · rintro ⟨hserved, hlast⟩
    have hempty := hserved.resolve_right fun h => h.1 ht
    rw [hpin] at hempty
    rw [hthread] at hlast
    exact ⟨⟨.inl hempty, fun h => absurd h hs⟩, hempty, hlast ht⟩
  · rintro ⟨-, hempty, hnone⟩
    exact ⟨.inl (hpin.trans hempty), fun _ => by rw [hthread]; exact hnone⟩

theorem send_served {m : Nat × Nat} (hthreads : Threads s) (halive : s.killed = none) :
    Served (s.sends i m) ↔ Served s ∧
      (s.pin.fires false = true ∨ ¬ Ended s ∧ ∃ k, (s.thread k).receives = true) := by
  have hended : Ended (s.sends i m) ↔ Ended s := by
    rw [Ended, Ended, sends_parent, sends_killed]
  have hne : (s.sends i m).pin.msgs ≠ [] := by
    rw [sends_pin]
    exact Mqueue.insert_ne_nil m s.pin.msgs
  cases hfires : s.pin.fires false with
  | true =>
    obtain ⟨hreg, hempty, -⟩ := Mqueue.fires_iff.mp hfires
    have hlive : ¬ Ended s := by
      rintro (hexited | hkilled)
      · rw [hthreads.closed (by rw [hexited]; rfl)] at hreg
        cases hreg
      · rw [halive] at hkilled
        cases hkilled
    have hborn : ((s.sends i m).thread s.born).receives = true := by
      simp [State.sends, hfires, State.setThread, Thread.receives]
    refine iff_of_true ⟨.inr ⟨mt hended.mp hlive, s.born, hborn⟩, fun h => ?_⟩
      ⟨⟨.inl hempty, fun h => absurd h hlive⟩, .inl rfl⟩
    exact absurd (hended.mp h) hlive
  | false =>
    have hthread : (s.sends i m).thread = s.thread := by simp [State.sends, hfires, State.setChild]
    constructor
    · rintro ⟨hserved, -⟩
      have hlive := hserved.resolve_left hne
      rw [hended, hthread] at hlive
      exact ⟨⟨.inr hlive, fun h => absurd h hlive.1⟩, .inr hlive⟩
    · rintro ⟨-, hheard⟩
      have hlive := hheard.resolve_left Bool.false_ne_true
      refine ⟨.inr ?_, fun h => absurd (hended.mp h) hlive.1⟩
      rw [hended, hthread]
      exact hlive

theorem Thread.echild_receives (x : Thread) : x.echild.receives = x.receives := by
  cases x <;> rfl

theorem Thread.echild_prints (x : Thread) : x.echild.prints = x.prints := by
  cases x <;> rfl

theorem echild_thread {β : Type} {f : Thread → β} (h : ∀ x : Thread, f x.echild = f x) (l : Nat) :
    f ((s.echild w).thread l) = f (s.thread l) := by
  cases w with
  | none => rfl
  | some k => exact update_same (h (s.thread k)) l

theorem not_ended (hstep : (bingo n old).next s act = some t)
    (hact : ∀ i rand rand', act ≠ .child i rand rand') : ¬ Ended s := by
  rintro (hexited | hkilled)
  · obtain ⟨i, rand, rand', rfl⟩ := child_of_exited hstep hexited
    exact hact i rand rand' rfl
  · rw [alive_of_next hstep] at hkilled
    cases hkilled

theorem createLoop_exited (k : Nat) : createLoop k ≠ .exited := by
  cases k <;> nofun

theorem stays (hs : ¬ Ended s) (hparent : t.parent ≠ .exited) (hkilled : t.killed = s.killed) :
    Ended t ↔ Ended s := by
  refine iff_of_false ?_ hs
  rintro (h | h)
  · exact hparent h
  · exact hs (.inr (hkilled ▸ h))

theorem main_heard (hleave : s.parent ≠ .leave) (hkept : ∀ ni, s.parent ≠ .eintr ni false) :
    Heard s (.parent rand) := by
  rintro (h | ⟨ni, h⟩)
  · exact absurd h hleave
  · exact absurd h (hkept ni)

theorem thread_heard (hkept : s.thread k ≠ .eagain false) (hopened : s.parent.opened = false →
    s.thread k ≠ .receive ∧ s.thread k ≠ .notify) : Heard s (.thread k) := by
  rintro (h | ⟨hc, h | h⟩)
  · exact absurd h hkept
  · exact absurd h (hopened hc).1
  · exact absurd h (hopened hc).2

theorem child_heard (hc : ∀ m, s.child i ≠ .send m) : Heard s (.child i rand rand') :=
  fun m hm => absurd hm (hc m)

theorem served_of_receives (hs : ¬ Ended s) (hk : (s.thread k).receives = true) : Served s :=
  ⟨.inr ⟨hs, k, hk⟩, fun h => absurd h hs⟩

theorem served_of_empty (hs : ¬ Ended s) (hempty : s.pin.msgs = []) : Served s :=
  ⟨.inl hempty, fun h => absurd h hs⟩

/-- Thread `k` is still to receive before and after the step. -/
theorem served_receives {x : Thread} (hs : ¬ Ended s) (ht : ¬ Ended t)
    (hk : (s.thread k).receives = true) (hthread : t.thread = Function.update s.thread k x)
    (hx : x.receives = true) (hheard : Heard s act) : Served t ↔ Served s ∧ Heard s act := by
  refine iff_of_true (served_of_receives (k := k) ht ?_) ⟨served_of_receives hs hk, hheard⟩
  rw [hthread, Function.update_self, hx]

theorem served_step (hthreads : Threads s) (hstep : (bingo n old).next s act = some t) :
    Served t ↔ Served s ∧ Heard s act := by
  have halive := alive_of_next hstep
  have hframe : t.pin.msgs = s.pin.msgs → ((∀ k, (t.thread k).receives = (s.thread k).receives) ∧
      ∀ k, (t.thread k).prints = (s.thread k).prints) → (Ended t ↔ Ended s) → Heard s act →
      (Served t ↔ Served s ∧ Heard s act) := fun hpin hthread hended hheard =>
    (Served.congr hpin hthread.1 hthread.2 hended).trans (and_iff_left hheard).symm
  have hlast : t.thread = s.thread → t.pin.msgs = s.pin.msgs → ¬ Ended s → Ended t →
      (Heard s act ↔ s.pin.msgs = [] ∧ ∀ k, (s.thread k).prints = none) →
      (Served t ↔ Served s ∧ Heard s act) := fun hthread hpin hs ht hheard =>
    (Served.last hthread hpin hs ht).trans (and_congr_right fun _ => hheard.symm)
  have hlive := not_ended hstep
  cases next_moves hstep with
  | fork hp | load hp | register hp | draw hp | number hp | stop hp | retry hp | again hp
  | close hp =>
    exact hframe rfl ⟨fun _ => rfl, fun _ => rfl⟩ (stays (hlive nofun) nofun rfl)
      (main_heard (by rw [hp]; nofun) (by rw [hp]; nofun))
  | store hp =>
    exact hframe rfl ⟨fun _ => rfl, fun _ => rfl⟩ (stays (hlive nofun) (createLoop_exited _) rfl)
      (main_heard (by rw [hp]; nofun) (by rw [hp]; nofun))
  | exit hp =>
    exact hlast rfl rfl (hlive nofun) (.inl rfl) ⟨fun h => h (.inl hp), fun h _ => h⟩
  | failed hp =>
    exact hlast rfl rfl (hlive nofun) (.inr rfl) ⟨fun h => h (.inr ⟨_, hp⟩), fun h _ => h⟩
  | forkFails =>
    exact hlast rfl rfl (hlive nofun) (.inl rfl) ⟨fun h => h trivial, fun h _ => h⟩
  | busy hp hreg =>
    rw [(hthreads.early (by rw [hp]; rfl)).1] at hreg
    cases hreg
  | @deliver w =>
    refine hframe rfl ⟨fun _ => rfl, fun _ => rfl⟩ (stays (hlive nofun) ?_ rfl) False.elim
    have hparent := interrupt_same (f := fun p => p = .exited) (fun _ => by simp) s w
    exact fun h => hlive nofun (.inl (hparent.mp h))
  | reap | reaped | loads | stores =>
    exact hframe rfl ⟨fun _ => rfl, fun _ => rfl⟩ Iff.rfl False.elim
  | @echild w =>
    have hparent := echild_same (f := fun p => p = .exited) (fun _ _ => by simp) s w
    have hended := stays (t := (s.echild w).setHandler w none) (hlive nofun)
      (fun h => hlive nofun (.inl (hparent.mp h))) echild_killed
    exact hframe (congrArg Mqueue.msgs echild_pin)
      ⟨echild_thread Thread.echild_receives, echild_thread Thread.echild_prints⟩ hended False.elim
  | start hc | receive hc | leave hc =>
    exact hframe rfl ⟨fun _ => rfl, fun _ => rfl⟩ Iff.rfl (child_heard (by rw [hc]; nofun))
  | send hc hroom =>
    refine (send_served hthreads halive).trans (and_congr_right fun _ => ?_)
    constructor
    · exact fun h m _ => ⟨hroom, h⟩
    · exact fun h => (h _ hc).2
  | full hc hfull =>
    refine iff_of_false (fun h => ?_) fun h => absurd (h.2 _ hc).1 (Nat.not_lt.mpr hfull)
    have hempty : s.pin.msgs = [] := h.pin.resolve_right fun h => h.1 (.inr rfl)
    rw [hempty] at hfull
    exact absurd hfull (by decide)
  | take hk hopened =>
    refine served_receives (hlive nofun) (hlive nofun) (by rw [hk]; rfl) rfl rfl ?_
    exact thread_heard (by rw [hk]; nofun) fun hc => by rw [hopened] at hc; cases hc
  | empty hk hopened hempty =>
    refine iff_of_true (served_of_empty (hlive nofun) hempty)
      ⟨served_of_empty (hlive nofun) hempty, ?_⟩
    exact thread_heard (by rw [hk]; nofun) fun hc => by rw [hopened] at hc; cases hc
  | print hk =>
    refine served_receives (hlive nofun) (hlive nofun) (by rw [hk]; rfl) rfl rfl ?_
    exact thread_heard (by rw [hk]; nofun) fun _ => by rw [hk]; exact ⟨nofun, nofun⟩
  | agreed hk =>
    have hsame := thread_congr (s := s) (x := .notify) (by rw [hk]; rfl) (by rw [hk]; rfl)
    refine hframe rfl hsame Iff.rfl ?_
    exact thread_heard (by rw [hk]; nofun) fun _ => by rw [hk]; exact ⟨nofun, nofun⟩
  | done hk =>
    have hsame := thread_congr (s := s) (x := .ended) (by rw [hk]; rfl) (by rw [hk]; rfl)
    refine hframe rfl hsame Iff.rfl ?_
    exact thread_heard (by rw [hk]; nofun) fun _ => by rw [hk]; exact ⟨nofun, nofun⟩
  | renew hk hopened =>
    have hsame := thread_congr (s := s) (x := .done) (by rw [hk]; rfl) (by rw [hk]; rfl)
    refine hframe rfl hsame Iff.rfl ?_
    exact thread_heard (by rw [hk]; nofun) fun hc => by rw [hopened] at hc; cases hc
  | @renewBusy k hk hreg =>
    have hnone := hthreads.token hreg k
    rw [hk] at hnone
    cases hnone
  | closed hk hc =>
    exact hlast rfl rfl (hlive nofun) (.inr rfl) ⟨fun h => h (.inr ⟨hc, .inl hk⟩), fun h _ => h⟩
  | closedNotify hk hc =>
    exact hlast rfl rfl (hlive nofun) (.inr rfl) ⟨fun h => h (.inr ⟨hc, .inr hk⟩), fun h _ => h⟩
  | lost hk =>
    exact hlast rfl rfl (hlive nofun) (.inr rfl) ⟨fun h => h (.inl hk), fun h _ => h⟩

/-! ## What is printed -/

/-- The message that is received and not yet printed. -/
structure Hand (s : State) (hand : Option (Nat × Nat)) : Prop where
  held : ∀ k m, (s.thread k).prints = some m → hand = some m
  whose : ∀ m, hand = some m → ∃ k, (s.thread k).prints = some m

/-- A message that was there or sent is printed, or received, or still in `pin`. -/
def Kept (old : Old) (s : State) : Prop := ∃ hand, Hand s hand ∧
  (old.pin ++ s.sent).Perm (s.printed ++ (hand.toList ++ s.pin.msgs))

theorem Hand.congr {hand : Option (Nat × Nat)} (h : Hand s hand)
    (hprints : ∀ k, (t.thread k).prints = (s.thread k).prints) : Hand t hand where
  held k m hk := h.held k m (hprints k ▸ hk)
  whose m hm := by
    obtain ⟨k, hk⟩ := h.whose m hm
    exact ⟨k, (hprints k).trans hk⟩

theorem Kept.congr (h : Kept old s) (hprints : ∀ k, (t.thread k).prints = (s.thread k).prints)
    (hsent : t.sent = s.sent) (hprinted : t.printed = s.printed) (hpin : t.pin.msgs = s.pin.msgs) :
    Kept old t := by
  obtain ⟨hand, hhand, hperm⟩ := h
  exact ⟨hand, hhand.congr hprints, by rw [hsent, hprinted, hpin]; exact hperm⟩

theorem Thread.prints_active {x : Thread} {m : Nat × Nat} (h : x.prints = some m) :
    x = .print m := by
  cases x with
  | print m' => exact congrArg Thread.print (Option.some.inj h)
  | _ => cases h

theorem Threads.prints (h : Threads s) (hk : (s.thread k).active = true) {l : Nat} (hl : l ≠ k) :
    (s.thread l).prints = none := by
  refine Option.eq_none_iff_forall_ne_some.mpr fun m hm => hl (h.alone l k ?_ hk)
  rw [Thread.prints_active hm]
  rfl

theorem Kept.send {m : Nat × Nat} (h : Kept old s) (hthreads : Threads s) :
    Kept old (s.sends i m) := by
  obtain ⟨hand, hhand, hperm⟩ := h
  have hsent : (s.sends i m).sent = s.sent ++ [m] := by
    unfold State.sends
    dsimp only
    split <;> rfl
  have hprinted : (s.sends i m).printed = s.printed := by
    unfold State.sends
    dsimp only
    split <;> rfl
  have hprints : ∀ k, ((s.sends i m).thread k).prints = (s.thread k).prints := by
    intro k
    unfold State.sends
    dsimp only
    split
    · have hborn := hthreads.later s.born (Nat.le_refl _)
      exact update_same (f := Thread.prints) (g := s.thread) (by rw [hborn]; rfl) k
    · rfl
  refine ⟨hand, hhand.congr hprints, ?_⟩
  rw [hsent, hprinted, sends_pin, Mqueue.send_msgs]
  rw [← List.append_assoc]
  refine (hperm.append_right [m]).trans ?_
  simp only [List.append_assoc]
  exact ((Mqueue.insert_append m s.pin.msgs).symm.append_left hand.toList).append_left s.printed

theorem Kept.take {m : Nat × Nat} {pin : Mqueue Nat} (h : Kept old s) (hthreads : Threads s)
    (hk : s.thread k = .receive) (hpin : s.pin.msgs = m :: pin.msgs) :
    Kept old { s.setThread k (.print m) with pin := pin } := by
  obtain ⟨hand, hhand, hperm⟩ := h
  have hother := fun {l} => hthreads.prints (k := k) (l := l) (by rw [hk]; rfl)
  have hnone : hand = none := by
    refine Option.eq_none_iff_forall_ne_some.mpr fun m' hm' => ?_
    obtain ⟨l, hl⟩ := hhand.whose m' hm'
    by_cases hlk : l = k
    · rw [hlk, hk] at hl
      cases hl
    · rw [hother hlk] at hl
      cases hl
  refine ⟨some m, ⟨fun l m' hl => ?_, fun m' hm' => ⟨k, ?_⟩⟩, ?_⟩
  · have hl' : (Function.update s.thread k (.print m) l).prints = some m' := hl
    by_cases hlk : l = k
    · rw [hlk, Function.update_self] at hl'
      exact hl'
    · rw [Function.update_of_ne hlk, hother hlk] at hl'
      cases hl'
  · show (Function.update s.thread k (.print m) k).prints = some m'
    rw [Function.update_self]
    exact hm'
  · rw [hnone, hpin] at hperm
    exact hperm

theorem Kept.print {m : Nat × Nat} (h : Kept old s) (hthreads : Threads s)
    (hk : s.thread k = .print m) :
    Kept old { s.setThread k .receive with printed := s.printed ++ [m] } := by
  obtain ⟨hand, hhand, hperm⟩ := h
  have hsome : hand = some m := hhand.held k m (by rw [hk]; rfl)
  refine ⟨none, ⟨fun l m' hl => ?_, nofun⟩, ?_⟩
  · have hl' : (Function.update s.thread k .receive l).prints = some m' := hl
    by_cases hlk : l = k
    · rw [hlk, Function.update_self] at hl'
      cases hl'
    · rw [Function.update_of_ne hlk, hthreads.prints (by rw [hk]; rfl) hlk] at hl'
      cases hl'
  · rw [hsome] at hperm
    show (old.pin ++ s.sent).Perm (s.printed ++ [m] ++ s.pin.msgs)
    rw [List.append_assoc]
    exact hperm

theorem Kept.moves (h : Kept old s) (hthreads : Threads s) (hm : Moves n s act t) : Kept old t := by
  cases hm with
  | send => exact h.send hthreads
  | take hk _ hreceive => exact h.take hthreads hk (Mqueue.receive_some.mp hreceive).1
  | print hk => exact h.print hthreads hk
  | empty hk | agreed hk | renew hk | done hk =>
    exact h.congr (update_same (by rw [hk]; rfl)) rfl rfl rfl
  | @echild w =>
    refine h.congr (echild_thread Thread.echild_prints) ?_ ?_ (congrArg Mqueue.msgs echild_pin)
    · cases w <;> rfl
    · cases w <;> rfl
  | _ => exact h.congr (fun _ => rfl) rfl rfl rfl

theorem kept_reach (h : (bingo n old).Reach s) : Kept old s := by
  refine h.inv (I := Kept old) (fun s hs => ?_) fun u act v hr hkept hstep =>
    hkept.moves (threads_reach hr) (next_moves hstep)
  obtain rfl : s = begun n old := hs
  exact ⟨none, ⟨nofun, nofun⟩, List.Perm.of_eq (List.append_nil _)⟩

/-! ## Messages of an earlier run -/

/-- `pin` was not empty when it was registered, and no thread begins. -/
structure Unheard (s : State) : Prop where
  pin : s.pin.msgs ≠ []
  thread : ∀ k, s.thread k = .unborn

theorem Unheard.moves (h : Unheard s) (hm : Moves n s act t) : Unheard t := by
  obtain ⟨hpin, hthread⟩ := h
  cases hm with
  | @send i _ _ m =>
    have hfires : s.pin.fires false = false :=
      Bool.eq_false_iff.mpr fun h => hpin (Mqueue.fires_iff.mp h).2.1
    refine ⟨?_, fun k => ?_⟩
    · rw [sends_pin]
      exact Mqueue.insert_ne_nil m s.pin.msgs
    · simpa [State.sends, hfires, State.setChild] using hthread k
  | take hk | empty hk | agreed hk | print hk | renew hk | done hk =>
    rw [hthread] at hk
    cases hk
  | @echild w hw =>
    refine ⟨?_, fun k => ?_⟩
    · show ((s.echild w).pin).msgs ≠ []
      rw [echild_pin]
      exact hpin
    · exact (echild_thread (f := fun x => x = .unborn)
        (fun _ => propext Thread.echild_unborn) k).mpr (hthread k)
  | _ => exact ⟨hpin, hthread⟩

theorem unheard_reach (hold : old.pin ≠ []) (h : (bingo n old).Reach s) : Unheard s := by
  refine h.inv (I := Unheard) (fun s hs => ?_) fun u act v _ hu hstep =>
    hu.moves (next_moves hstep)
  obtain rfl : s = begun n old := hs
  exact ⟨hold, fun _ => rfl⟩

/-! ## Every run -/

/-- Where no thread is still to receive, or the process has ended. -/
theorem served_quiet_iff (hquiet : Ended s ∨ ∀ k, (s.thread k).receives = false) :
    Served s ↔ s.pin.msgs = [] ∧ ∀ k, (s.thread k).prints = none := by
  have hnone : (∀ k, (s.thread k).receives = false) → ∀ k, (s.thread k).prints = none := by
    refine fun h k => Option.eq_none_iff_forall_ne_some.mpr fun m hm => ?_
    have hk := h k
    rw [Thread.prints_active hm] at hk
    cases hk
  constructor
  · rintro ⟨hserved, hlast⟩
    rcases hquiet with hended | hquiet
    · exact ⟨hserved.resolve_right fun h => h.1 hended, hlast hended⟩
    · refine ⟨hserved.resolve_right fun ⟨_, k, hk⟩ => ?_, hnone hquiet⟩
      rw [hquiet k] at hk
      cases hk
  · exact fun ⟨hempty, hprints⟩ => ⟨.inl hempty, fun _ => hprints⟩

/-- **Lost messages**: when no thread is still to receive, or the process has ended, `pin` is empty
and every message is printed if and only if `pin` was empty at the start and every message was
heard. -/
theorem messages_printed_iff {acts : List Act} (h : (bingo n old).exec (begun n old) acts = some s)
    (hquiet : Ended s ∨ ∀ k, (s.thread k).receives = false) :
    (s.pin.msgs = [] ∧ s.printed.Perm s.sent) ↔
      old.pin = [] ∧ (bingo n old).Along Heard (begun n old) acts := by
  have hbegun : Served (begun n old) ↔ old.pin = [] := by
    refine ⟨fun hserved => hserved.pin.resolve_right ?_, fun hempty => ?_⟩
    · rintro ⟨-, k, hk⟩
      cases hk
    · exact ⟨.inl hempty, fun _ _ => rfl⟩
  have hrun := LTS.along_iff (L := bingo n old) (P := Heard) (I := Threads) (G := Served)
    (fun _ _ _ hi hstep => hi.moves (next_moves hstep)) (fun _ _ _ hi hstep => served_step hi hstep)
    (begun_threads n old) h
  obtain ⟨hand, hhand, hperm⟩ := kept_reach (LTS.Reach.exec (.init rfl) h)
  rw [← hbegun, ← hrun, served_quiet_iff hquiet]
  constructor
  · rintro ⟨hempty, hprinted⟩
    have hold : old.pin = [] := by
      by_contra hold
      exact (unheard_reach hold (LTS.Reach.exec (.init rfl) h)).pin hempty
    have hlength := hperm.length_eq
    simp only [hold, hempty, List.append_nil, List.nil_append, List.length_append,
      hprinted.length_eq] at hlength
    have hnone : hand = none := Option.toList_eq_nil_iff.mp (List.length_eq_zero_iff.mp (by omega))
    refine ⟨hempty, fun k => Option.eq_none_iff_forall_ne_some.mpr fun m hm => ?_⟩
    rw [hhand.held k m hm] at hnone
    cases hnone
  · intro hserved
    have hold := hbegun.mp (hrun.mp ((served_quiet_iff hquiet).mpr hserved)).1
    obtain ⟨hempty, hprints⟩ := hserved
    have hnone : hand = none := by
      refine Option.eq_none_iff_forall_ne_some.mpr fun m hm => ?_
      obtain ⟨k, hk⟩ := hhand.whose m hm
      rw [hprints k] at hk
      cases hk
    rw [hold, hnone, hempty, List.nil_append] at hperm
    exact ⟨hempty, by simpa using hperm.symm⟩

/-! ## Two runs -/

def bothPrinted : List Act :=
  creates 2 ++ List.replicate 4 (.parent 0) ++ plays 0 0 ++ plays 1 1 ++
    List.replicate 8 (.thread 0)

theorem messages_printed_two : ∃ s, (bingo 2 .empty).exec (begun 2 .empty) bothPrinted = some s ∧
    ((s.pin.msgs = [] ∧ s.printed.Perm s.sent) ↔ Old.empty.pin = [] ∧
      (bingo 2 .empty).Along Heard (begun 2 .empty) bothPrinted) ∧
    s.printed = [(0, 1), (1, 0)] := by
  have hrun : ((bingo 2 .empty).exec (begun 2 .empty) bothPrinted).map
      (fun s => (s.born, s.thread 0, s.printed)) = some (1, .ended, [(0, 1), (1, 0)]) := by
    decide +kernel
  obtain ⟨s, hs, heq⟩ := Option.map_eq_some_iff.mp hrun
  simp only [Prod.mk.injEq] at heq
  obtain ⟨hborn, hthread, hprinted⟩ := heq
  have hthreads := threads_reach (LTS.Reach.exec (.init rfl) hs)
  refine ⟨s, hs, messages_printed_iff hs (.inr fun k => ?_), hprinted⟩
  by_cases hk : k = 0
  · rw [hk, hthread]
    rfl
  · rw [hthreads.later k (by omega)]
    rfl

/-- Child 1 sends its message when the thread has met `EAGAIN` and has not registered again. -/
def oneLost : List Act :=
  creates 2 ++ List.replicate 4 (.parent 0) ++ plays 0 0 ++ List.replicate 4 (.thread 0) ++
    plays 1 1 ++ List.replicate 2 (.thread 0)

theorem message_lost : ∃ s, (bingo 2 .empty).Reach s ∧ s.parent = .check ∧ s.killed = none ∧
    (∀ k, s.thread k = .unborn ∨ s.thread k = .ended) ∧ s.pin.msgs = [(1, 0)] ∧
    s.printed = [(0, 1)] := by
  have hrun : ((bingo 2 .empty).exec (begun 2 .empty) oneLost).map
      (fun s => (s.parent, s.killed, s.born, s.thread 0)) =
      some (.check, none, 1, .ended) := by decide +kernel
  have hqueue : ((bingo 2 .empty).exec (begun 2 .empty) oneLost).map
      (fun s => (s.pin.msgs, s.printed)) = some ([(1, 0)], [(0, 1)]) := by decide +kernel
  obtain ⟨s, hs, heq⟩ := Option.map_eq_some_iff.mp hrun
  rw [hs] at hqueue
  simp only [Option.map_some, Option.some.injEq, Prod.mk.injEq] at heq hqueue
  obtain ⟨hparent, hkilled, hborn, hthread⟩ := heq
  have hreach := LTS.Reach.exec (.init rfl) hs
  refine ⟨s, hreach, hparent, hkilled, fun k => ?_, hqueue⟩
  by_cases hk : k = 0
  · rw [hk]
    exact .inr hthread
  · exact .inl ((threads_reach hreach).later k (by omega))

end Ops.Bingo
