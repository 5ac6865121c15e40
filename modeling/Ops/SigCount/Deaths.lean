import Ops.SigCount.Process

/-!
# Only planned deaths

The parent counts to a hundred or takes a `SIGUSR2`, and returns when all children are reaped. At
no moment a signal can end it, if and only if nobody sends it one before its first `sigprocmask`,
while it is still creating children, and no `fork` fails (`planned_deaths`).
-/

namespace Ops.SigCount

variable {n i c : Nat} {s t : State} {act : Act}

/-- Behind the loop of `parent_work`. -/
def ParentPc.left : ParentPc → Bool
  | kill | wait | returned => true
  | fork _ | sigprocmask | sigwait | killed => false

def ChildPc.kills : ChildPc → Bool
  | kill _ => true
  | _ => false

/-- `SIGUSR1` or `SIGUSR2` is sent to the parent. -/
def State.sends (s : State) : Act → Bool
  | .parent _ _ => s.parent = .kill
  | .child i _ => (s.child i).kills
  | .usr2 => true
  | .forkFails | .deliver | .deliverChild _ => false

/-- The condition: no signal is sent to the parent before its first `sigprocmask`, and no `fork`
fails. -/
def Blocked (s : State) (act : Act) : Prop :=
  (s.sends act = true → s.masked = true) ∧ act ≠ .forkFails

instance : ∀ s act, Decidable (Blocked s act) := fun s act =>
  inferInstanceAs (Decidable ((s.sends act = true → s.masked = true) ∧ act ≠ .forkFails))

/-- The parent has not been killed, and no signal can end it now. -/
def Lives (n : Nat) (s : State) : Prop := s.parent ≠ .killed ∧ s.next n .deliver = none

/-- A step of a child moves it, or all of them die by the `SIGKILL` it sends. -/
theorem child_cases {err : Bool} (hn : s.child_work i err = some t) :
    s.child i ≠ .reaped ∧ (∃ u pc, t = { s with usr1 := u }.setChild i pc ∧
        (u = s.usr1 ∨ u = true ∧ (s.child i).kills = true)) ∨
      s.parent.gone = true ∧ t = { s with child := fun j => (s.child j).die } := by
  unfold State.child_work at hn
  obtain ⟨c, hpc⟩ : ∃ c, s.child i = c := ⟨_, rfl⟩
  rw [hpc] at hn ⊢
  cases c with
  | unborn | ended | reaped => cases hn
  | sigprocmask | loop | nanosleep k | sigpending k =>
    cases hn
    exact .inl ⟨by rintro ⟨⟩, s.usr1, _, rfl, .inl rfl⟩
  | kill k =>
    dsimp only at hn
    split at hn
    · rename_i hgone
      split at hn
      · cases hn
        exact .inr ⟨hgone, rfl⟩
      · cases hn
        exact .inl ⟨by rintro ⟨⟩, s.usr1, _, rfl, .inl rfl⟩
    · cases hn
      exact .inl ⟨by rintro ⟨⟩, true, _, rfl, .inr ⟨rfl, rfl⟩⟩

theorem forkFails_cases (hn : s.forkFails = some t) :
    (∃ k, s.parent = .fork (k + 1)) ∧
      t = { s with parent := .killed, child := fun j => (s.child j).die } := by
  unfold State.forkFails at hn
  split at hn
  · rename_i k hpc
    cases hn
    exact ⟨⟨k, hpc⟩, rfl⟩
  · cases hn

structure Planned (n : Nat) (s : State) : Prop where
  left : s.parent.left = true → s.sigCount = 100 ∨ s.received2 = true
  returned : s.parent = .returned → ∀ i < n, s.child i = .ended ∨ s.child i = .reaped

/-- What the parent knows when it has left its loop, and when it returns. -/
structure Inv (n : Nat) (s : State) : Prop where
  left : s.parent.left = true → s.sigCount = 100 ∨ s.received2 = true
  returned : s.parent = .returned → ∀ i < n, s.child i = .reaped

namespace Inv

theorem others (h : Inv n s) (hparent : t.parent = s.parent) (hcount : t.sigCount = s.sigCount)
    (hreceived : t.received2 = s.received2)
    (hchild : ∀ j, s.child j = .reaped → t.child j = .reaped) : Inv n t where
  left hl := by
    rw [hcount, hreceived]
    exact h.left (hparent ▸ hl)
  returned hr i hi := hchild i (h.returned (hparent ▸ hr) i hi)

theorem set_child {pc : ChildPc} (hi : s.child i ≠ .reaped) (j : Nat)
    (hj : s.child j = .reaped) : (s.setChild i pc).child j = .reaped := by
  have hne : j ≠ i := fun heq => hi (heq ▸ hj)
  show Function.update s.child i pc j = .reaped
  rw [Function.update_of_ne hne]
  exact hj

theorem child {err : Bool} (h : Inv n s) (hn : s.child_work i err = some t) : Inv n t := by
  obtain ⟨hlive, u, pc, rfl, -⟩ | ⟨-, rfl⟩ := child_cases hn
  · exact h.others rfl rfl rfl (set_child (s := { s with usr1 := u }) hlive)
  · refine h.others rfl rfl rfl fun j hj => ?_
    show (s.child j).die = .reaped
    rw [hj]
    rfl

theorem received {sig : Signal} (hn : s.received sig = some t) : Inv n t := by
  cases sig with
  | SIGUSR1 =>
    unfold State.received at hn
    simp only at hn
    split at hn
    · cases hn
      by_cases hlast : s.sigCount + 1 = 100
      · exact ⟨fun _ => .inl hlast, fun hr => by simp [hlast] at hr⟩
      · exact ⟨fun hl => by simp [hlast, ParentPc.left] at hl, fun hr => by simp [hlast] at hr⟩
    · cases hn
  | SIGUSR2 =>
    unfold State.received at hn
    simp only at hn
    split at hn
    · cases hn
      exact ⟨fun _ => .inr rfl, by rintro ⟨⟩⟩
    · cases hn

theorem parent {sig : Signal} (h : Inv n s) (hn : s.parentMain n sig c = some t) : Inv n t := by
  unfold State.parentMain at hn
  split at hn
  · cases hn
    exact ⟨by rintro ⟨⟩, by rintro ⟨⟩⟩
  · cases hn
    exact ⟨by rintro ⟨⟩, by rintro ⟨⟩⟩
  · cases hn
    exact ⟨by rintro ⟨⟩, by rintro ⟨⟩⟩
  · exact received hn
  · rename_i hpc
    cases hn
    exact ⟨fun _ => h.left (by rw [hpc]; rfl), by rintro ⟨⟩⟩
  · rename_i hpc
    have hleft := h.left (by rw [hpc]; rfl)
    unfold State.reap at hn
    split at hn
    · rename_i hall
      cases hn
      refine ⟨fun _ => hleft, fun _ i hi => ?_⟩
      exact of_decide_eq_true (List.all_eq_true.mp hall i (List.mem_range.mpr hi))
    · split at hn
      · cases hn
        refine ⟨fun _ => hleft, fun hr => ?_⟩
        rw [show (s.setChild c .reaped).parent = s.parent from rfl, hpc] at hr
        cases hr
      · cases hn
  · cases hn
  · cases hn

theorem step (h : Inv n s) (hn : s.next n act = some t) : Inv n t := by
  unfold State.next at hn
  split at hn
  · exact h.parent hn
  · exact h.child hn
  · obtain ⟨-, rfl⟩ := forkFails_cases hn
    exact ⟨by rintro ⟨⟩, by rintro ⟨⟩⟩
  · split at hn
    · cases hn
      exact ⟨by rintro ⟨⟩, by rintro ⟨⟩⟩
    · cases hn
  · split at hn
    · rename_i hdeliver
      cases hn
      refine h.others rfl rfl rfl (set_child ?_)
      rw [hdeliver.1]
      rintro ⟨⟩
    · cases hn
  · cases hn
    exact ⟨h.left, h.returned⟩

theorem init : Inv n (.start n) := ⟨by rintro ⟨⟩, by rintro ⟨⟩⟩

theorem planned (h : Inv n s) : Planned n s where
  left := h.left
  returned hr i hi := .inr (h.returned hr i hi)

end Inv

/-! ## The death of the parent -/

/-- Up to the `sigprocmask` of a round. -/
def ParentPc.early : ParentPc → Bool
  | fork _ | sigprocmask => true
  | sigwait | kill | wait | returned | killed => false

/-- No signal is pending before the parent has blocked it. -/
structure Quiet (s : State) : Prop where
  alive : s.parent ≠ .killed
  quiet : s.masked = false → s.usr1 = false ∧ s.usr2 = false
  masked : s.parent.early = false → s.masked = true

namespace Quiet

theorem lives (h : Quiet s) : Lives n s := by
  refine ⟨h.alive, ?_⟩
  unfold State.next
  rw [if_neg]
  rintro ⟨hmask, -, husr⟩
  obtain ⟨h1, h2⟩ := h.quiet (Bool.eq_false_iff.mpr hmask)
  rw [h1, h2] at husr
  simp at husr

theorem others (h : Quiet s) (hparent : t.parent = s.parent) (hmasked : t.masked = s.masked)
    (hsig : t.masked = false → t.usr1 = s.usr1 ∧ t.usr2 = s.usr2) : Quiet t where
  alive := hparent ▸ h.alive
  quiet hm := by
    obtain ⟨h1, h2⟩ := hsig hm
    rw [h1, h2]
    exact h.quiet (hmasked ▸ hm)
  masked hp := by
    rw [hparent] at hp
    exact hmasked ▸ h.masked hp

theorem child {err : Bool} (h : Quiet s) (hsends : (s.child i).kills = true → s.masked = true)
    (hn : s.child_work i err = some t) : Quiet t := by
  obtain ⟨-, u, pc, rfl, hu⟩ | ⟨-, rfl⟩ := child_cases hn
  · refine h.others rfl rfl fun hm => ⟨?_, rfl⟩
    rcases hu with rfl | ⟨-, hkills⟩
    · rfl
    · cases (hsends hkills).symm.trans hm
  · exact h.others rfl rfl fun _ => ⟨rfl, rfl⟩

theorem received {sig : Signal} (hm : s.masked = true) (hn : s.received sig = some t) :
    Quiet t := by
  unfold State.received at hn
  cases sig with
  | SIGUSR1 =>
    dsimp only at hn
    split at hn
    · cases hn
      refine ⟨?_, fun hf => ?_, fun _ => hm⟩
      · show ite _ _ _ ≠ _
        split
        · rintro ⟨⟩
        · rintro ⟨⟩
      · cases hm.symm.trans hf
    · cases hn
  | SIGUSR2 =>
    dsimp only at hn
    split at hn
    · cases hn
      exact ⟨by rintro ⟨⟩, fun hf => (by cases hm.symm.trans hf), fun _ => hm⟩
    · cases hn

theorem reap (h : Quiet s) (hm : s.masked = true) (hn : s.reap n c = some t) : Quiet t := by
  unfold State.reap at hn
  split at hn
  · cases hn
    exact ⟨by rintro ⟨⟩, h.quiet, fun _ => hm⟩
  · split at hn
    · cases hn
      exact h.others rfl rfl fun _ => ⟨rfl, rfl⟩
    · cases hn

theorem parent {sig : Signal} (h : Quiet s) (hn : s.parentMain n sig c = some t) : Quiet t := by
  unfold State.parentMain at hn
  split at hn
  · cases hn
    exact ⟨by rintro ⟨⟩, h.quiet, by rintro ⟨⟩⟩
  · cases hn
    exact ⟨by rintro ⟨⟩, h.quiet, by rintro ⟨⟩⟩
  · cases hn
    exact ⟨by rintro ⟨⟩, by rintro ⟨⟩, fun _ => rfl⟩
  · rename_i hpc
    exact received (h.masked (by rw [hpc]; rfl)) hn
  · rename_i hpc
    have hm := h.masked (by rw [hpc]; rfl)
    cases hn
    exact ⟨by rintro ⟨⟩, fun hf => (by cases hm.symm.trans hf), fun _ => hm⟩
  · rename_i hpc
    exact h.reap (h.masked (by rw [hpc]; rfl)) hn
  · cases hn
  · cases hn

theorem step (h : Quiet s) (hb : Blocked s act) (hn : s.next n act = some t) : Quiet t := by
  obtain ⟨hsends, hforks⟩ := hb
  cases act with
  | parent sig c => exact h.parent hn
  | child i err => exact h.child hsends hn
  | forkFails => exact absurd rfl hforks
  | deliver => cases h.lives.2.symm.trans hn
  | deliverChild i =>
    unfold State.next at hn
    simp only at hn
    split at hn
    · cases hn
      exact h.others rfl rfl fun _ => ⟨rfl, rfl⟩
    · cases hn
  | usr2 =>
    cases hn
    refine h.others rfl rfl fun hm => ?_
    cases (hsends rfl).symm.trans hm

/-- A signal that is pending and not blocked can end the parent. -/
theorem not_lives (hparent : t.parent.gone = false) (hmasked : t.masked = false)
    (hsig : t.usr1 = true ∨ t.usr2 = true) : ¬ Lives n t := by
  rintro ⟨-, hnone⟩
  unfold State.next at hnone
  rw [if_pos ⟨by rw [hmasked]; nofun, by rw [hparent]; nofun, hsig⟩] at hnone
  cases hnone

theorem lost (h : Quiet s) (hb : ¬ Blocked s act) (hn : s.next n act = some t) : ¬ Lives n t := by
  by_cases hforks : act = .forkFails
  · subst hforks
    obtain ⟨-, rfl⟩ := forkFails_cases hn
    exact fun hlives => hlives.1 rfl
  have hsends : s.sends act = true ∧ s.masked = false := by
    unfold Blocked at hb
    simp only [hforks, ne_eq, not_false_eq_true, and_true, Classical.not_imp] at hb
    exact ⟨hb.1, Bool.eq_false_iff.mpr hb.2⟩
  obtain ⟨hsends, hmasked⟩ := hsends
  have hearly : s.parent.early = true := by
    by_contra hlate
    cases (h.masked (Bool.eq_false_iff.mpr hlate)).symm.trans hmasked
  have hgone : s.parent.gone = false := by
    cases hpc : s.parent <;> rw [hpc] at hearly <;> first | rfl | cases hearly
  cases act with
  | parent sig c =>
    have hkill : s.parent = .kill := of_decide_eq_true hsends
    rw [hkill] at hearly
    cases hearly
  | child i err =>
    have hkills : (s.child i).kills = true := hsends
    have ht : s.child_work i err = some t := hn
    unfold State.child_work at ht
    cases hpc : s.child i with
    | kill k =>
      rw [hpc] at ht
      simp only [hgone] at ht
      cases ht
      exact not_lives hgone hmasked (.inl rfl)
    | _ =>
      rw [hpc] at hkills
      cases hkills
  | forkFails => exact absurd rfl hforks
  | deliver => cases hsends
  | deliverChild i => cases hsends
  | usr2 =>
    cases hn
    exact not_lives hgone hmasked (.inr rfl)

theorem start : Quiet (.start n) := ⟨by rintro ⟨⟩, fun _ => ⟨rfl, rfl⟩, by rintro ⟨⟩⟩

end Quiet

/-- **Only planned deaths.** In every run the parent leaves its loop after a hundred `SIGUSR1` or a
`SIGUSR2` and returns when all children have ended. It is alive all through the run and no signal
can end it, if and only if none is sent to it before its first `sigprocmask` and no `fork` fails. -/
theorem planned_deaths (n : Nat) (as : List Act) (s : State)
    (he : (program n).exec (.start n) as = some s) :
    Planned n s ∧ ((program n).Always (Lives n) (.start n) as ↔
      (program n).Along Blocked (.start n) as) := by
  have hr : (program n).Reach s := LTS.Reach.exec (.init rfl) he
  have hinv : Inv n s :=
    LTS.Reach.inv (fun _ hs => hs ▸ Inv.init) (fun _ _ _ _ hi hn => hi.step hn) hr
  exact ⟨hinv.planned, LTS.always_iff_along (I := Quiet) (fun _ hq => hq.lives)
    (fun _ _ _ hq hb hn => hq.step hb hn) (fun _ _ _ hq hb hn => hq.lost hb hn) Quiet.start he⟩

/-- Two children whose `SIGUSR1` merge, after the parent has blocked it, and then a `SIGUSR2`. -/
def merged : List Act :=
  List.replicate 4 (.parent .SIGUSR1 0) ++ List.replicate 5 (.child 0 false) ++
    List.replicate 5 (.child 1 false) ++
      [.parent .SIGUSR1 0, .parent .SIGUSR1 0, .usr2, .parent .SIGUSR2 0]

theorem planned_deaths_two : ∃ s, (program 2).exec (.start 2) merged = some s ∧
    s.parent = .wait ∧ s.sigCount = 1 ∧ Planned 2 s ∧
      (program 2).Always (Lives 2) (.start 2) merged := by
  have hrun : ∃ s, (program 2).execIf Blocked (.start 2) merged = some s ∧ s.parent = .wait ∧
      s.sigCount = 1 := ⟨_, rfl, rfl, rfl⟩
  obtain ⟨s, hif, hwait, hcount⟩ := hrun
  obtain ⟨he, hall⟩ := LTS.along_of_execIf hif
  obtain ⟨hplanned, hlives⟩ := planned_deaths 2 _ s he
  exact ⟨s, he, hwait, hcount, hplanned, hlives.mpr hall⟩

/-- The first child sends `SIGUSR1` while the parent has not blocked it. -/
theorem unplanned_death : ¬ ∀ s, (program 1).Reach s → s.parent ≠ .killed := by
  intro h
  have hrun : ∃ s, (program 1).exec (.start 1)
      [.parent .SIGUSR1 0, .child 0 false, .child 0 false, .child 0 false, .child 0 false,
        .child 0 false, .deliver] = some s ∧ s.parent = .killed := ⟨_, rfl, rfl⟩
  obtain ⟨s, he, hkilled⟩ := hrun
  exact h s (LTS.Reach.exec (.init rfl) he) hkilled

end Ops.SigCount
