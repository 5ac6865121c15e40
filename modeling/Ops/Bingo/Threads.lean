import Ops.Bingo.Process
import Ops.Lib.Update

/-!
# The threads of `function`

A notification is one-shot: at most one thread is between its first `mq_receive` and its
`mq_notify`, and none while `pin` is registered (`Threads`). Threads that have registered again
may still be there, as `SIGCHLD` may have stopped them.
-/

namespace Ops.Bingo

open Posix

variable {n i k rand rand' : Nat} {w : Flow} {old : Old} {s t : State} {act : Act}

/-- `pin` is not registered yet. -/
def Parent.early : Parent → Bool
  | .fork _ | .load _ | .store _ _ | .notify => true
  | _ => false

def Thread.receives : Thread → Bool
  | .receive | .print _ => true
  | _ => false

/-- The thread is still to register `pin`. -/
def Thread.active : Thread → Bool
  | .receive | .print _ | .eagain _ | .notify => true
  | _ => false

structure Threads (s : State) : Prop where
  early : s.parent.early = true → s.pin.registered = false ∧ ∀ k, s.thread k = .unborn
  later : ∀ k, s.born ≤ k → s.thread k = .unborn
  alone : ∀ k l, (s.thread k).active = true → (s.thread l).active = true → k = l
  token : s.pin.registered = true → ∀ k, (s.thread k).active = false
  closed : s.parent.opened = false → s.pin.registered = false
  handler : ∀ k, s.thread k = .unborn → s.handler (some k) = none

theorem createLoop_opened (k : Nat) : (createLoop k).opened = true := by
  cases k <;> rfl

theorem Thread.echild_active (x : Thread) : x.echild.active = x.active := by
  cases x <;> rfl

theorem Thread.echild_unborn {x : Thread} : x.echild = .unborn ↔ x = .unborn := by
  cases x <;> simp [Thread.echild]

theorem Threads.frame (h : Threads s) (hearly : t.parent.early = true → s.parent.early = true)
    (hclosed : t.parent.opened = false → t.pin.registered = false) (hthread : t.thread = s.thread)
    (hborn : t.born = s.born) (hreg : t.pin.registered = true → s.pin.registered = true)
    (hhandler : ∀ k, s.thread k = .unborn → t.handler (some k) = none) : Threads t where
  early he := by
    obtain ⟨hnone, hunborn⟩ := h.early (hearly he)
    refine ⟨Bool.eq_false_iff.mpr fun htrue => ?_, hthread ▸ hunborn⟩
    rw [hreg htrue] at hnone
    cases hnone
  later := by rw [hborn, hthread]; exact h.later
  alone := by rw [hthread]; exact h.alone
  token htrue := by rw [hthread]; exact h.token (hreg htrue)
  closed := hclosed
  handler k hk := hhandler k (hthread ▸ hk)

theorem Threads.setHandler (h : Threads s) {x : Option Handler}
    (hw : ∀ k, w = some k → s.thread k ≠ .unborn) : Threads (s.setHandler w x) := by
  refine h.frame id h.closed rfl rfl id fun k hk => ?_
  show Function.update s.handler w x (some k) = none
  rw [Function.update_of_ne fun he => hw k he.symm hk]
  exact h.handler k hk

theorem Threads.stopped (h : Threads s) {x : Handler} (hw : s.handler w = some x) :
    ∀ k, w = some k → s.thread k ≠ .unborn := by
  rintro k rfl hk
  rw [h.handler k hk] at hw
  cases hw

theorem Threads.setThread (h : Threads s) {x : Thread} {q : Mqueue Nat}
    (hk : s.thread k ≠ .unborn) (hx : x ≠ .unborn)
    (hactive : x.active = true → (s.thread k).active = true)
    (hreg : q.registered = s.pin.registered) :
    Threads { s.setThread k x with pin := q } := by
  have hpast : ∀ l, (Function.update s.thread k x l).active = true →
      (s.thread l).active = true := fun l hl =>
    update_flag (f := Thread.active) rfl hactive hl
  have hback : ∀ l, Function.update s.thread k x l = .unborn → s.thread l = .unborn := by
    intro l hl
    by_cases hlk : l = k
    · rw [hlk, Function.update_self] at hl
      exact absurd hl hx
    · rwa [Function.update_of_ne hlk] at hl
  refine ⟨fun he => absurd ((h.early he).2 k) hk, fun l hl => ?_, fun l l' hl hl' => ?_,
    fun htrue l => ?_, fun hc => hreg.trans (h.closed hc), fun l hl => h.handler l (hback l hl)⟩
  · show Function.update s.thread k x l = .unborn
    rw [Function.update_of_ne]
    · exact h.later l hl
    · rintro rfl
      exact hk (h.later l hl)
  · exact h.alone l l' (hpast l hl) (hpast l' hl')
  · refine Bool.eq_false_iff.mpr fun hl => ?_
    have hreg' : s.pin.registered = true := hreg.symm.trans htrue
    have hnone := h.token hreg' l
    rw [hpast l hl] at hnone
    cases hnone

/-- A message is sent, and begins a thread when `pin` was empty and registered. -/
theorem Threads.sends (h : Threads s) (m : Nat × Nat) : Threads (s.sends i m) := by
  unfold State.sends
  have hreg : (s.pin.send m false).registered = (s.pin.registered && !s.pin.fires false) := rfl
  cases hfires : s.pin.fires false with
  | false =>
    have hsame : (s.pin.send m false).registered = s.pin.registered := by
      rw [hreg, hfires, Bool.not_false, Bool.and_true]
    exact h.frame id (fun hc => hsame.trans (h.closed hc)) rfl rfl (fun htrue => hsame ▸ htrue)
      h.handler
  | true =>
    have hthere := (Mqueue.fires_iff.mp hfires).1
    have hnew : s.thread s.born = .unborn := h.later _ (Nat.le_refl _)
    have hnone : (s.pin.send m false).registered = false := by
      rw [hreg, hfires, Bool.not_true, Bool.and_false]
    have honly : ∀ k, (Function.update s.thread s.born .receive k).active = true → k = s.born := by
      intro k hk
      by_contra hne
      rw [Function.update_of_ne hne, h.token hthere k] at hk
      cases hk
    refine ⟨fun he => ?_, fun k hk => ?_, fun k l hk hl => (honly k hk).trans (honly l hl).symm,
      fun htrue => ?_, fun _ => hnone, fun k hk => h.handler k ?_⟩
    · rw [(h.early he).1] at hthere
      cases hthere
    · have hle : s.born + 1 ≤ k := hk
      show Function.update s.thread s.born .receive k = .unborn
      rw [Function.update_of_ne (by omega)]
      exact h.later k (by omega)
    · have htrue' : (s.pin.send m false).registered = true := htrue
      rw [hnone] at htrue'
      cases htrue'
    · have hupd : Function.update s.thread s.born .receive k = .unborn := hk
      by_cases hkb : k = s.born
      · rw [hkb, hnew]
      · rwa [Function.update_of_ne hkb] at hupd

theorem Threads.renew (h : Threads s) (hk : s.thread k = .notify)
    (hopened : s.parent.opened = true) :
    Threads { s.setThread k .done with pin := ⟨s.pin.msgs, true⟩ } := by
  have hdone := h.setThread (k := k) (x := .done) (q := s.pin) (by rw [hk]; nofun) nofun nofun rfl
  refine ⟨fun he => ?_, hdone.later, hdone.alone, fun _ l => ?_, fun hc => ?_, hdone.handler⟩
  · rw [(h.early he).2 k] at hk
    cases hk
  · refine Bool.eq_false_iff.mpr fun hl => ?_
    have hpast : (s.thread l).active = true :=
      update_flag (f := Thread.active) (p := k) rfl (fun _ => by rw [hk]; rfl) hl
    have hlk : l = k := h.alone l k hpast (by rw [hk]; rfl)
    have hactive : (Function.update s.thread k .done l).active = true := hl
    rw [hlk, Function.update_self] at hactive
    cases hactive
  · have hc' : s.parent.opened = false := hc
    rw [hopened] at hc'
    cases hc'

theorem Threads.echild (h : Threads s) (hw : ∀ k, w = some k → s.thread k ≠ .unborn) :
    Threads (s.echild w) := by
  cases w with
  | none =>
    have hearly := echild_same (f := Parent.early) (fun _ _ => rfl) s none
    have hopened := echild_same (f := Parent.opened) (fun _ _ => rfl) s none
    exact h.frame (hearly ▸ id) (fun hc => h.closed (hopened ▸ hc)) rfl rfl id h.handler
  | some k =>
    exact h.setThread (q := s.pin) (hw k rfl) (fun hx => hw k rfl (Thread.echild_unborn.mp hx))
      (by rw [Thread.echild_active]; exact id) rfl

theorem Threads.moves (h : Threads s) (hm : Moves n s act t) : Threads t := by
  cases hm with
  | fork hp | load hp | store hp =>
    refine h.frame (fun _ => by rw [hp]; rfl) (fun hc => ?_) rfl rfl id h.handler
    first
    | cases hc
    | rw [createLoop_opened] at hc; cases hc
  | stop | draw | number | retry | again => exact h.frame nofun nofun rfl rfl id h.handler
  | register hp =>
    have hnone := (h.early (by rw [hp]; rfl)).2
    exact ⟨nofun, h.later, h.alone, fun _ k => by rw [hnone k]; rfl, nofun, h.handler⟩
  | forkFails hp =>
    exact h.frame nofun (fun _ => (h.early (by rw [hp]; rfl)).1) rfl rfl id h.handler
  | close => exact h.frame nofun (fun _ => rfl) rfl rfl nofun h.handler
  | exit hp => exact h.frame nofun (fun _ => h.closed (by rw [hp]; rfl)) rfl rfl id h.handler
  | @deliver w hfree hruns =>
    have hd := h.setHandler (w := w) (x := some .waitpid) fun k hk => by
      subst hk
      exact hruns.1
    have hearly := interrupt_same (f := Parent.early) (fun _ => rfl) s w
    have hopened := interrupt_same (f := Parent.opened) (fun _ => rfl) s w
    exact hd.frame (hearly ▸ id) (fun hc => h.closed (hopened ▸ hc)) rfl rfl id hd.handler
  | reap hw | reaped hw | loads hw | stores hw =>
    have hd := fun x => h.setHandler (x := x) (h.stopped hw)
    exact (hd _).frame id h.closed rfl rfl id (hd _).handler
  | @echild w hw =>
    refine (h.echild (h.stopped hw)).setHandler fun k hk => ?_
    subst hk
    show Function.update s.thread k (s.thread k).echild k ≠ .unborn
    rw [Function.update_self]
    exact fun hx => h.stopped hw k rfl (Thread.echild_unborn.mp hx)
  | start | receive | leave | full | busy | renewBusy | closed | closedNotify | failed | lost =>
    exact h.frame id h.closed rfl rfl id h.handler
  | send => exact h.sends _
  | take hk _ hreceive =>
    exact h.setThread (by rw [hk]; nofun) nofun (fun _ => by rw [hk]; rfl)
      (Mqueue.receive_some.mp hreceive).2
  | empty hk | agreed hk =>
    exact h.setThread (q := s.pin) (by rw [hk]; nofun) nofun (fun _ => by rw [hk]; rfl) rfl
  | print hk =>
    have hd := h.setThread (q := s.pin) (x := .receive) (by rw [hk]; nofun) nofun
      (fun _ => by rw [hk]; rfl) rfl
    exact hd.frame id hd.closed rfl rfl id hd.handler
  | renew hk hopened => exact h.renew hk hopened
  | done hk => exact h.setThread (q := s.pin) (by rw [hk]; nofun) nofun nofun rfl

theorem begun_threads (n : Nat) (old : Old) : Threads (begun n old) :=
  ⟨fun _ => ⟨rfl, fun _ => rfl⟩, fun _ _ => rfl, nofun, nofun, fun _ => rfl, fun _ _ => rfl⟩

theorem threads_reach (h : (bingo n old).Reach s) : Threads s := by
  refine h.inv (I := Threads) (fun s hs => ?_) fun _ _ _ _ hi hn => hi.moves (next_moves hn)
  obtain rfl : s = begun n old := hs
  exact begun_threads n old

/-- The handlers of the main flow and of the threads there are. -/
theorem Threads.no_handler (h : Threads s) (hmain : s.handler none = none)
    (hborn : ∀ k < s.born, s.handler (some k) = none) (w : Flow) : s.handler w = none := by
  cases w with
  | none => exact hmain
  | some k =>
    by_cases hk : k < s.born
    · exact hborn k hk
    · exact h.handler k (h.later k (Nat.not_lt.mp hk))

end Ops.Bingo
