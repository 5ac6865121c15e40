import Ops.Shm.Exclusive
import Ops.Shm.Ledger

/-!
# One generation

As long as nobody enters `mem_init`'s guarded section after an object was destroyed
(`Within`), there is one semaphore and one object that is ready, so the process in a
guarded section is alone (`Generation.alone`) and the account of the object is kept.
-/

namespace Ops.Shm

variable {π F : Type} [DecidableEq π] {s t : State π F} {act : Act π}

/-- Some object was destroyed. -/
def Ended (s : State π F) : Prop := ∃ o, o < s.objs ∧ (s.obj o).lock = .destroyed

/-- No process enters the guarded section of `mem_init` after an object was destroyed. -/
def Within (s : State π F) (act : Act π) : Prop :=
  act.outcome = .ok → (s.pc act.proc).enters = true → ¬ Ended s

instance (s : State π F) : Decidable (Ended s) :=
  inferInstanceAs (Decidable (∃ o, o < s.objs ∧ (s.obj o).lock = .destroyed))

instance (s : State π F) (act : Act π) : Decidable (Within s act) :=
  inferInstanceAs (Decidable (_ → _ → _))

/-- The object is as it was, or was ready before and is ready now. -/
def Obj.Stays (k k' : Obj π F) : Prop :=
  k' = k ∨ k.ready = true ∧ k'.ready = true ∧ (k.lock = .destroyed ↔ k'.lock = .destroyed)

omit [DecidableEq π] in
theorem Obj.Stays.lock {k k' : Obj π F} (h : k.Stays k') :
    k.lock = .destroyed ↔ k'.lock = .destroyed := by
  rcases h with h | h
  · rw [h]
  · exact h.2.2

omit [DecidableEq π] in
theorem Obj.Stays.ready {k k' : Obj π F} (h : k.Stays k') : k'.ready = k.ready := by
  rcases h with h | ⟨hs, ht, -⟩
  · rw [h]
  · rw [hs, ht]

omit [DecidableEq π] in
theorem setObj_stays {o : Nat} {k : Obj π F} (hready : (s.obj o).ready = true)
    (hk : k.ready = true) (hlock : (s.obj o).lock = .destroyed ↔ k.lock = .destroyed) (o' : Nat) :
    (s.obj o').Stays (Function.update s.obj o k o') := by
  by_cases ho : o' = o
  · subst ho
    rw [Function.update_self]
    exact .inr ⟨hready, hk, hlock⟩
  · exact .inl (Function.update_of_ne ho ..)

/-- A step that joins, leaves and opens nothing, and changes no name. -/
structure Quiet (s t : State π F) (p : π) (c : Pc) : Prop where
  pc : t.pc = Function.update s.pc p c
  obj : ∀ o, (s.obj o).Stays (t.obj o)
  objs : t.objs = s.objs
  shmName : t.shmName = s.shmName
  semName : t.semName = s.semName
  sems : t.sems = s.sems
  begun : c.begun = none
  joining : c.joining = true → (s.pc p).joining = true
  initing : c.initing = none ∨ c.initing = (s.pc p).initing
  unlinks : c.unlinks = true → (s.pc p).unlinks = true

theorem Quiet.setObj {p : π} {c : Pc} {o : Nat} {k : Obj π F} (hready : (s.obj o).ready = true)
    (hk : k.ready = true) (hlock : (s.obj o).lock = .destroyed ↔ k.lock = .destroyed)
    (hbegun : c.begun = none) (hjoining : c.joining = true → (s.pc p).joining = true)
    (hinit : c.initing = none ∨ c.initing = (s.pc p).initing)
    (hunlinks : c.unlinks = true → (s.pc p).unlinks = true) :
    Quiet s ((s.setObj o k).goto p c) p c where
  pc := rfl
  obj := setObj_stays hready hk hlock
  objs := rfl
  shmName := rfl
  semName := rfl
  sems := rfl
  begun := hbegun
  joining := hjoining
  initing := hinit
  unlinks := hunlinks

/-! ## The objects -/

structure Objects (s : State π F) : Prop where
  blank : ∀ o, o < s.objs → (s.obj o).ready = false → (s.obj o).Blank
  begun : ∀ p o, (s.pc p).begun = some o → (s.obj o).workers = 1
  one : ∀ o o', o < s.objs → o' < s.objs → (s.obj o).ready = true → (s.obj o').ready = true → o = o'

omit [DecidableEq π] in
theorem Objects.ended (h : Objects s) (he : Ended s) :
    ∃ o, o < s.objs ∧ (s.obj o).ready = true ∧ (s.obj o).lock = .destroyed := by
  obtain ⟨o, hlt, hd⟩ := he
  cases hready : (s.obj o).ready with
  | true => exact ⟨o, hlt, hready, hd⟩
  | false => rw [(h.blank o hlt hready).lock] at hd; cases hd

theorem Objects.frame {c : Pc} {p : π} (h : Objects s) (hk : Known s)
    (hpc : t.pc = Function.update s.pc p c) (hobjs : t.objs = s.objs)
    (hobj : ∀ o, t.obj o = s.obj o ∨ (s.obj o).ready = true ∧ (t.obj o).ready = true)
    (hbegun : c.begun = none) : Objects t := by
  have hready : ∀ o, (t.obj o).ready = (s.obj o).ready := fun o => by
    rcases hobj o with hsame | ⟨hs, ht⟩
    · rw [hsame]
    · rw [hs, ht]
  have hfresh : ∀ o, (s.obj o).ready = false → t.obj o = s.obj o := fun o ho => by
    rcases hobj o with hsame | ⟨hs, -⟩
    · exact hsame
    · rw [ho] at hs; cases hs
  refine ⟨fun o hlt ho => ?_, fun q o hb => ?_, fun o o' hlt hlt' ho ho' => ?_⟩
  · rw [hready] at ho
    rw [hfresh o ho]
    exact h.blank o (hobjs ▸ hlt) ho
  · have hb' := update_sub hpc (.inl hbegun) hb
    rw [hfresh o (hk.fresh _ o (Pc.begun_initing hb')).1]
    exact h.begun _ o hb'
  · rw [hready] at ho ho'
    exact h.one o o' (hobjs ▸ hlt) (hobjs ▸ hlt') ho ho'

theorem Objects.quiet {c : Pc} {p : π} (h : Objects s) (hk : Known s) (hq : Quiet s t p c) :
    Objects t :=
  h.frame hk hq.pc hq.objs (fun o => (hq.obj o).imp_right fun ho => ⟨ho.1, ho.2.1⟩) hq.begun

theorem Objects.created {x : Nat} {k : Obj π F} (h : Objects s) (hk : Known s) (hblank : k.Blank) :
    Objects ({ s.setObj s.objs k with shmName := some s.objs, objs := s.objs + 1 }.goto act.proc
      (.truncate x s.objs)) := by
  have hcases : ∀ o, o < s.objs + 1 → (Function.update s.obj s.objs k o).ready = true →
      o < s.objs ∧ (s.obj o).ready = true := fun o hlt ho => by
    by_cases hne : o = s.objs
    · rw [hne, Function.update_self, hblank.ready] at ho; cases ho
    · rw [Function.update_of_ne hne] at ho
      exact ⟨by omega, ho⟩
  refine ⟨fun o hlt ho => ?_, fun q o hq => ?_, fun o o' hlt hlt' ho ho' => ?_⟩
  · show (Function.update s.obj s.objs k o).Blank
    change (Function.update s.obj s.objs k o).ready = false at ho
    by_cases hne : o = s.objs
    · rw [hne, Function.update_self]; exact hblank
    · rw [Function.update_of_ne hne] at ho ⊢
      change o < s.objs + 1 at hlt
      exact h.blank o (by omega) ho
  · have hq' : (s.pc q).begun = some o := update_sub rfl (.inl rfl) hq
    have hlt := (hk.fresh q o (Pc.begun_initing hq')).2
    show (Function.update s.obj s.objs k o).workers = 1
    rw [Function.update_of_ne (Nat.ne_of_lt hlt)]
    exact h.begun q o hq'
  · obtain ⟨hlt, ho⟩ := hcases o hlt ho
    obtain ⟨hlt', ho'⟩ := hcases o' hlt' ho'
    exact h.one o o' hlt hlt' ho ho'

theorem Objects.stored {x o : Nat} {f f' : Field} {k : Obj π F} (h : Objects s) (hk : Known s)
    (he : Exclusive s) (hpc : s.pc act.proc = .store x o f) (hblank : k.Blank)
    (hone : k.workers = 1) : Objects ((s.setObj o k).goto act.proc (.store x o f')) := by
  have hnot : (s.obj o).ready = false := (hk.fresh act.proc o (by rw [hpc]; rfl)).1
  have hin : (s.pc act.proc).inside = some x := by rw [hpc]; rfl
  have hold : ∀ o', (Function.update s.obj o k o').ready = true →
      (s.obj o').ready = true := fun o' ho => by
    by_cases hne : o' = o
    · rw [hne, Function.update_self, hblank.ready] at ho; cases ho
    · rwa [Function.update_of_ne hne] at ho
  refine ⟨fun o' hlt ho => ?_, fun q o' hq => ?_, fun o' o'' hlt hlt' ho ho' => ?_⟩
  · show (Function.update s.obj o k o').Blank
    change (Function.update s.obj o k o').ready = false at ho
    by_cases hne : o' = o
    · rw [hne, Function.update_self]; exact hblank
    · rw [Function.update_of_ne hne] at ho ⊢
      exact h.blank o' hlt ho
  · show (Function.update s.obj o k o').workers = 1
    rcases update_cases (f := Pc.begun) rfl hq with ⟨-, hc⟩ | ⟨hne, hq⟩
    · obtain rfl : o = o' := Option.some.inj (Pc.begun_initing hc)
      rw [Function.update_self, hone]
    · exact absurd (he.only hin (Pc.begun_initing hq)) hne
  · exact h.one o' o'' hlt hlt' (hold o' ho) (hold o'' ho')

theorem Objects.published {x o : Nat} {k : Obj π F} (h : Objects s) (he : Exclusive s)
    (hpc : s.pc act.proc = .store x o .lock) (hk : k.ready = true)
    (hnone : ∀ o', o' < s.objs → (s.obj o').ready = false) :
    Objects ((s.setObj o k).goto act.proc (.post x o)) := by
  have hin : (s.pc act.proc).inside = some x := by rw [hpc]; rfl
  have honly : ∀ o', o' < s.objs → (Function.update s.obj o k o').ready = true → o' = o :=
    fun o' hlt ho => by
      by_contra hne
      rw [Function.update_of_ne hne, hnone o' hlt] at ho
      cases ho
  refine ⟨fun o' hlt ho => ?_, fun q o' hq => ?_, fun o' o'' hlt hlt' ho ho' => ?_⟩
  · show (Function.update s.obj o k o').Blank
    change (Function.update s.obj o k o').ready = false at ho
    by_cases hne : o' = o
    · rw [hne, Function.update_self, hk] at ho; cases ho
    · rw [Function.update_of_ne hne] at ho ⊢
      exact h.blank o' hlt ho
  · have hq' : (s.pc q).begun = some o' := update_sub rfl (.inl rfl) hq
    obtain rfl := he.only hin (Pc.begun_initing hq')
    rw [State.goto_self] at hq
    cases hq
  · rw [honly o' hlt ho, honly o'' hlt' ho']

/-! ## The names -/

structure Names (s : State π F) : Prop where
  named : ∀ o, o < s.objs → (s.obj o).ready = true →
    s.shmName = some o ∨ (s.obj o).lock = .destroyed
  initing : ∀ p o, (s.pc p).initing = some o → s.shmName = some o
  opened : ¬ Ended s → s.sems ≤ 1 ∧ (s.semName = none → s.sems = 0)
  empty : Ended s → ∀ p, ¬ (s.pc p).joining = true
  unlinks : ∀ p, (s.pc p).unlinks = true → Ended s

namespace Names

omit [DecidableEq π] in
theorem not_ended {p : π} (h : Names s) (hp : (s.pc p).joining = true) : ¬ Ended s := fun he =>
  h.empty he p hp

omit [DecidableEq π] in
/-- A process that initialises an object finds no other that is ready. -/
theorem unready {p : π} {o : Nat} (h : Names s) (hk : Known s) (hp : (s.pc p).initing = some o)
    (o' : Nat) (hlt : o' < s.objs) : (s.obj o').ready = false := by
  cases hready : (s.obj o').ready with
  | false => rfl
  | true =>
    rcases h.named o' hlt hready with hname | hd
    · obtain rfl := Option.some.inj (hname.symm.trans (h.initing p o hp))
      rw [(hk.fresh p o' hp).1] at hready
      cases hready
    · exact absurd ⟨o', hlt, hd⟩ (h.not_ended (Pc.initing_joining hp))

omit [DecidableEq π] in
theorem ended_stays (hobjs : t.objs = s.objs)
    (hlock : ∀ o, (s.obj o).lock = .destroyed ↔ (t.obj o).lock = .destroyed) : Ended t ↔ Ended s := by
  unfold Ended
  simp only [hobjs, hlock]

theorem frame {c : Pc} {p : π} (h : Names s) (hpc : t.pc = Function.update s.pc p c)
    (hobjs : t.objs = s.objs) (hready : ∀ o, (t.obj o).ready = (s.obj o).ready)
    (hlock : ∀ o, (s.obj o).lock = .destroyed ↔ (t.obj o).lock = .destroyed)
    (hshm : t.shmName = s.shmName) (hsem : t.semName = s.semName) (hsems : t.sems = s.sems)
    (hjoining : c.joining = true → (s.pc p).joining = true)
    (hinit : c.initing = none ∨ c.initing = (s.pc p).initing)
    (hunlinks : c.unlinks = true → (s.pc p).unlinks = true) : Names t := by
  have hended := ended_stays hobjs hlock
  refine ⟨fun o hlt ho => ?_, fun q o hq => ?_, fun he => ?_, fun he q hq => ?_, fun q hq => ?_⟩
  · rw [hshm, ← hlock o]
    exact h.named o (hobjs ▸ hlt) (hready o ▸ ho)
  · rw [hshm]
    exact h.initing q o (update_sub hpc hinit hq)
  · rw [hsems, hsem]
    exact h.opened fun hs => he (hended.mpr hs)
  · exact h.empty (hended.mp he) q (update_flag (f := Pc.joining) hpc hjoining hq)
  · exact hended.mpr (h.unlinks q (update_flag (f := Pc.unlinks) hpc hunlinks hq))

theorem quiet {c : Pc} {p : π} (h : Names s) (hq : Quiet s t p c) : Names t :=
  h.frame hq.pc hq.objs (fun o => (hq.obj o).ready) (fun o => (hq.obj o).lock) hq.shmName hq.semName
    hq.sems hq.joining hq.initing hq.unlinks

theorem newSem {entry : Option Nat} (h : Names s) (hname : s.semName = none) :
    Names ({ s.setSem s.sems 1 with semName := some s.sems, sems := s.sems + 1 }.goto act.proc
      (.clock s.sems entry)) := by
  refine ⟨h.named, fun q o hq => h.initing q o (update_sub rfl (.inl rfl) hq), fun he => ?_,
    fun he q hq => ?_, fun q hq => ?_⟩
  · have hzero := (h.opened he).2 hname
    exact ⟨Nat.succ_le_succ (Nat.le_of_eq hzero), nofun⟩
  · exact h.empty he q (update_flag (f := Pc.joining) rfl (by nofun) hq)
  · exact h.unlinks q (update_flag (f := Pc.unlinks) rfl (by nofun) hq)

theorem entered {x : Nat} (h : Names s) (hrun : ¬ Ended s) :
    Names ((s.setSem x (s.sem x - 1)).goto act.proc (.create x)) := by
  refine ⟨h.named, fun q o hq => h.initing q o (update_sub rfl (.inl rfl) hq), h.opened,
    fun he => absurd he hrun, fun q hq => ?_⟩
  exact h.unlinks q (update_flag (f := Pc.unlinks) rfl (by nofun) hq)

theorem created {x : Nat} {k : Obj π F} (h : Names s) (he : Exclusive s)
    (hpc : s.pc act.proc = .create x) (hname : s.shmName = none) (hblank : k.Blank) :
    Names ({ s.setObj s.objs k with shmName := some s.objs, objs := s.objs + 1 }.goto act.proc
      (.truncate x s.objs)) := by
  have hin : (s.pc act.proc).inside = some x := by rw [hpc]; rfl
  have hrun : ¬ Ended s := h.not_ended (p := act.proc) (by rw [hpc]; rfl)
  have hcases : ∀ o, o < s.objs + 1 → Function.update s.obj s.objs k o = k ∨
      o < s.objs ∧ Function.update s.obj s.objs k o = s.obj o := fun o hlt => by
    by_cases hne : o = s.objs
    · rw [hne, Function.update_self]; exact .inl rfl
    · exact .inr ⟨by omega, Function.update_of_ne hne ..⟩
  have hrun' : ¬ Ended ({ s.setObj s.objs k with
      shmName := some s.objs, objs := s.objs + 1 }.goto act.proc (.truncate x s.objs)) := by
    rintro ⟨o, hlt, hd⟩
    change (Function.update s.obj s.objs k o).lock = .destroyed at hd
    rcases hcases o hlt with hnew | ⟨hlt', hsame⟩
    · rw [hnew, hblank.lock] at hd; cases hd
    · exact hrun ⟨o, hlt', hsame ▸ hd⟩
  refine ⟨fun o hlt ho => ?_, fun q o hq => ?_, fun _ => ?_, fun hended => absurd hended hrun',
    fun q hq => ?_⟩
  · change (Function.update s.obj s.objs k o).ready = true at ho
    rcases hcases o hlt with hnew | ⟨hlt', hsame⟩
    · rw [hnew, hblank.ready] at ho; cases ho
    · rcases h.named o hlt' (hsame ▸ ho) with hn | hd
      · rw [hname] at hn; cases hn
      · exact absurd ⟨o, hlt', hd⟩ hrun
  · rcases update_cases (f := Pc.initing) rfl hq with ⟨-, hc⟩ | ⟨hne, hq⟩
    · exact hc
    · exact absurd (he.only hin hq) hne
  · exact h.opened hrun
  · exact absurd (h.unlinks q (update_flag (f := Pc.unlinks) rfl (by nofun) hq)) hrun

/-- The creator removes the name of the object that it gives up. -/
theorem abandoned {x o : Nat} (h : Names s) (hk : Known s) (he : Exclusive s)
    (hpc : s.pc act.proc = .abandon x o) :
    Names ({ s with shmName := none }.goto act.proc (.failPost x)) := by
  have hin : (s.pc act.proc).inside = some x := by rw [hpc]; rfl
  have hinit : (s.pc act.proc).initing = some o := by rw [hpc]; rfl
  refine ⟨fun o' hlt ho => ?_, fun q o' hq => ?_, h.opened, fun hended q hq => ?_, fun q hq => ?_⟩
  · have hnot := h.unready hk hinit o' hlt
    rw [show (s.obj o').ready = true from ho] at hnot
    cases hnot
  · rcases update_cases (f := Pc.initing) rfl hq with ⟨-, hc⟩ | ⟨hne, hq⟩
    · cases hc
    · exact absurd (he.only hin hq) hne
  · exact h.empty hended q (update_flag (f := Pc.joining) rfl (by nofun) hq)
  · exact h.unlinks q (update_flag (f := Pc.unlinks) rfl (by nofun) hq)

theorem published {x o : Nat} {k : Obj π F} (h : Names s) (hk : Known s)
    (hpc : s.pc act.proc = .store x o .lock) (hlock : k.lock = .free) :
    Names ((s.setObj o k).goto act.proc (.post x o)) := by
  have hinit : (s.pc act.proc).initing = some o := by rw [hpc]; rfl
  have hrun := h.not_ended (Pc.initing_joining hinit)
  have hrun' : ¬ Ended ((s.setObj o k).goto act.proc (.post x o)) := by
    rintro ⟨o', hlt, hd⟩
    change (Function.update s.obj o k o').lock = .destroyed at hd
    by_cases hne : o' = o
    · rw [hne, Function.update_self, hlock] at hd; cases hd
    · rw [Function.update_of_ne hne] at hd; exact hrun ⟨o', hlt, hd⟩
  refine ⟨fun o' hlt ho => ?_, fun q o' hq => ?_, fun _ => h.opened hrun,
    fun hended => absurd hended hrun', fun q hq => ?_⟩
  · change (Function.update s.obj o k o').ready = true at ho
    by_cases hne : o' = o
    · exact .inl (hne ▸ h.initing act.proc o hinit)
    · rw [Function.update_of_ne hne, h.unready hk hinit o' hlt] at ho
      cases ho
  · exact h.initing q o' (update_sub rfl (.inl rfl) hq)
  · exact absurd (h.unlinks q (update_flag (f := Pc.unlinks) rfl (by nofun) hq)) hrun

/-- The last worker destroys the mutex, alone in the guarded section. -/
theorem destroyed {x o : Nat} {k : Obj π F} (h : Names s) (hk : Known s) (he : Exclusive s)
    (hpc : s.pc act.proc = .destroyLock x o) (hlock : k.lock = .destroyed) :
    Names ((s.setObj o k).goto act.proc (.unlinkShm x)) := by
  have hin : (s.pc act.proc).inside = some x := by rw [hpc]; rfl
  have hlt := (hk.used act.proc o (by rw [hpc]; rfl)).2
  have hended : Ended ((s.setObj o k).goto act.proc (.unlinkShm x)) :=
    ⟨o, hlt, (congrArg Obj.lock (Function.update_self (f := s.obj) ..)).trans hlock⟩
  refine ⟨fun o' hlt ho => ?_, fun q o' hq => ?_, fun hrun => absurd hended hrun,
    fun _ q hq => ?_, fun _ _ => hended⟩
  · change (Function.update s.obj o k o').ready = true at ho
    show s.shmName = some o' ∨ (Function.update s.obj o k o').lock = .destroyed
    by_cases hne : o' = o
    · rw [hne, Function.update_self]; exact .inr hlock
    · rw [Function.update_of_ne hne] at ho ⊢
      exact h.named o' hlt ho
  · exact h.initing q o' (update_sub rfl (.inl rfl) hq)
  · have hq' : (s.pc q).joining = true := update_flag (f := Pc.joining) rfl (by nofun) hq
    obtain ⟨y, hy⟩ := Option.ne_none_iff_exists'.mp (Pc.joining_inside hq')
    rw [he.alone q act.proc y x hy hin, hpc] at hq'
    cases hq'

theorem unlinkedShm {x : Nat} (h : Names s) (ho : Objects s)
    (hpc : s.pc act.proc = .unlinkShm x) :
    Names ({ s with shmName := none }.goto act.proc (.unlinkSem x)) := by
  have hended : Ended s := h.unlinks act.proc (by rw [hpc]; rfl)
  refine ⟨fun o hlt hready => .inr ?_, fun q o hq => ?_, h.opened, fun _ q hq => ?_,
    fun _ _ => hended⟩
  · obtain ⟨o', hlt', hready', hd⟩ := ho.ended hended
    exact ho.one o' o hlt' hlt hready' hready ▸ hd
  · have hq' : (s.pc q).initing = some o := update_sub rfl (.inl rfl) hq
    exact absurd (Pc.initing_joining hq') (h.empty hended q)
  · exact h.empty hended q (update_flag (f := Pc.joining) rfl (by nofun) hq)

theorem unlinkedSem {x : Nat} (h : Names s) (hpc : s.pc act.proc = .unlinkSem x) :
    Names ({ s with semName := none }.goto act.proc (.finPost x)) := by
  have hended : Ended s := h.unlinks act.proc (by rw [hpc]; rfl)
  refine ⟨h.named, fun q o hq => h.initing q o (update_sub rfl (.inl rfl) hq),
    fun hrun => absurd hended hrun, fun _ q hq => ?_, fun _ _ => hended⟩
  exact h.empty hended q (update_flag (f := Pc.joining) rfl (by nofun) hq)

end Names

/-! ## Steps -/

variable {args : π → Args F}

theorem stored_blank [Zero F] (args : π → Args F) {x o : Nat} {f : Field} (h : Objects s)
    (hpc : s.pc act.proc = .store x o f) (hf : f ≠ .lock) (hblank : (s.obj o).Blank) :
    ∃ k f', s.store (args act.proc) act.proc x o f = (s.setObj o k).goto act.proc (.store x o f') ∧
      k.Blank ∧ k.workers = 1 := by
  have hone : f ≠ .workers → (s.obj o).workers = 1 := fun hne =>
    h.begun act.proc o (by rw [hpc]; cases f <;> first | rfl | exact absurd rfl hne)
  obtain ⟨hready, hlock, htried, hhit, hjoined, hleft, hzeros, hbatches⟩ := hblank
  cases f with
  | lock => exact absurd rfl hf
  | workers => exact ⟨_, _, rfl, ⟨hready, hlock, htried, hhit, hjoined, hleft, hzeros, hbatches⟩, rfl⟩
  | tried =>
    exact ⟨_, _, rfl, ⟨hready, hlock, rfl, hhit, hjoined, hleft, hzeros, hbatches⟩, hone nofun⟩
  | hit =>
    exact ⟨_, _, rfl, ⟨hready, hlock, htried, rfl, hjoined, hleft, hzeros, hbatches⟩, hone nofun⟩
  | a | b =>
    exact ⟨_, _, rfl, ⟨hready, hlock, htried, hhit, hjoined, hleft, hzeros, hbatches⟩, hone nofun⟩

theorem setObj_quiet {c : Pc} {o : Nat} {k : Obj π F} {n : Nat} (hready : (s.obj o).ready = true)
    (hk : k.ready = true) (hlock : (s.obj o).lock = .destroyed ↔ k.lock = .destroyed)
    (hkeeps : (s.pc act.proc).Keeps n c) : Quiet s ((s.setObj o k).goto act.proc c) act.proc c :=
  .setObj hready hk hlock hkeeps.begun hkeeps.joining hkeeps.initing hkeeps.unlinks

/-- **One generation**: what a step keeps of the objects and the names. -/
theorem next_generation [Zero F] (h : Objects s) (hn : Names s) (hk : Known s) (he : Exclusive s)
    (hw : Within s act) (hd : Deed args s act t) : Objects t ∧ Names t := by
  have quiet : ∀ {u : State π F} {c : Pc}, Quiet s u act.proc c → Objects u ∧ Names u :=
    fun hq => ⟨h.quiet hk hq, hn.quiet hq⟩
  have hready : ∀ {o}, (s.pc act.proc).uses = some o → (s.obj o).ready = true :=
    fun ho => (hk.used act.proc _ ho).1
  have hsame : ∀ {u : State π F} {c : Pc}, u.pc = Function.update s.pc act.proc c →
      c.begun = none → u.objs = s.objs → u.obj = s.obj → Objects u :=
    fun hpc hbegun hobjs hobj => h.frame hk hpc hobjs (fun o => .inl (congrFun hobj o)) hbegun
  cases hd with
  | moved hpc hkeeps _ _ hobj hobjs hshm hsem hsems =>
    exact quiet ⟨hpc, fun o => .inl (by rw [hobj]), hobjs, hshm, hsem, hsems, hkeeps.begun,
      hkeeps.joining, hkeeps.initing, hkeeps.unlinks⟩
  | opened hpc hname => exact ⟨hsame rfl rfl rfl rfl, hn.newSem hname⟩
  | entered hpc hok =>
    have hrun := hw hok (by rw [hpc]; rfl)
    exact ⟨hsame rfl rfl rfl rfl, hn.entered hrun⟩
  | created hpc hname hblank => exact ⟨h.created hk hblank, hn.created he hpc hname hblank⟩
  | abandoned hpc => exact ⟨hsame rfl rfl rfl rfl, hn.abandoned hk he hpc⟩
  | @stored x o f hpc hf =>
    have hinit : (s.pc act.proc).initing = some o := by rw [hpc]; rfl
    have hfresh := hk.fresh act.proc o hinit
    have hblank := h.blank o hfresh.2 hfresh.1
    obtain ⟨k, f', heq, hk', hone⟩ := stored_blank args h hpc hf hblank
    rw [heq]
    refine ⟨h.stored hk he hpc hk' hone, ?_⟩
    refine hn.frame rfl rfl (fun o' => ?_) (fun o' => ?_) rfl rfl rfl (fun _ => by rw [hpc]; rfl)
      (.inr (by rw [hpc]; rfl)) nofun
    · show (Function.update s.obj o k o').ready = (s.obj o').ready
      by_cases ho : o' = o
      · rw [ho, Function.update_self, hk'.ready, hfresh.1]
      · rw [Function.update_of_ne ho]
    · show _ ↔ (Function.update s.obj o k o').lock = .destroyed
      by_cases ho : o' = o
      · rw [ho, Function.update_self, hk'.lock, hblank.lock]
      · rw [Function.update_of_ne ho]
  | @published x o hpc =>
    have hinit : (s.pc act.proc).initing = some o := by rw [hpc]; rfl
    exact ⟨h.published he hpc rfl (hn.unready hk hinit), hn.published hk hpc rfl⟩
  | acquired hkeeps hlocks _ _ _ _ hfree =>
    have ho := hready (Pc.locks_uses hlocks)
    exact quiet (setObj_quiet ho ho (by simp only [hfree, reduceCtorEq]) hkeeps)
  | released hkeeps hlocked _ _ _ hheld =>
    have ho := hready (Pc.locked_uses hlocked)
    exact quiet (setObj_quiet ho ho (by simp only [hheld, reduceCtorEq]) hkeeps)
  | joined hpc =>
    have ho := hready (by rw [hpc]; rfl)
    exact quiet (.setObj ho ho Iff.rfl rfl (fun _ => by rw [hpc]; rfl) (.inl rfl) nofun)
  | hit hpc | tried hpc =>
    have ho := hready (by rw [hpc]; rfl)
    exact quiet (.setObj ho ho Iff.rfl rfl nofun (.inl rfl) nofun)
  | left hpc =>
    have ho := hready (by rw [hpc]; rfl)
    unfold State.leave
    split <;> exact quiet (.setObj ho ho Iff.rfl rfl nofun (.inl rfl) nofun)
  | @destroyed x o hpc =>
    have ho := hready (o := o) (by rw [hpc]; rfl)
    refine ⟨h.frame hk (c := .unlinkShm x) rfl rfl (fun o' => ?_) rfl, hn.destroyed hk he hpc rfl⟩
    by_cases hne : o' = o
    · subst hne
      exact .inr ⟨ho, (congrArg Obj.ready (Function.update_self (f := s.obj) ..)).trans ho⟩
    · exact .inl (Function.update_of_ne hne ..)
  | unlinkedShm hpc => exact ⟨hsame rfl rfl rfl rfl, hn.unlinkedShm h hpc⟩
  | unlinkedSem hpc => exact ⟨hsame rfl rfl rfl rfl, hn.unlinkedSem hpc⟩

end Ops.Shm
