import Ops.Shm.Process

/-!
# The guarded section

Between `sem_timedwait` and `sem_post` a process holds a semaphore; it is
`inside` as long as it may still use the object's name or, in `mem_init`, the
object. `Effect` lists what a step can do to the semaphores, the names and the
objects.
-/

namespace Ops.Shm

/-! ## Where a process is -/

/-- The semaphore of a process in the guarded section. -/
def Pc.inside : Pc → Option Nat
  | .create x | .reopen x | .truncate x _ | .map x _ _ | .store x _ _ | .check x _ | .joinLock x _
  | .joinLoad x _ | .joinStore x _ _ | .joinUnlock x _ | .abandon x _ | .leaveLoad x _
  | .leaveStore x _ _ | .reportLock x _ | .report x _ | .reportUnlock x _ | .destroyLock x _
  | .unlinkShm x | .unlinkSem x => some x
  | _ => none

/-- The semaphore in `sem_timedwait`. -/
def Pc.awaits : Pc → Option Nat
  | .wait x _ => some x
  | _ => none

/-- The semaphore a process has taken and not posted. -/
def Pc.holds : Pc → Option Nat
  | .failPost x | .post x _ | .finPost x => some x
  | c => c.inside

/-- The object a process has made and not made known. -/
def Pc.initing : Pc → Option Nat
  | .truncate _ o | .map _ o true | .store _ o _ | .abandon _ o => some o
  | _ => none

/-- The object a process has opened or made known. -/
def Pc.uses : Pc → Option Nat
  | .openSem e | .clock _ e | .wait _ e => e
  | .map _ o false | .check _ o | .joinLock _ o | .joinLoad _ o | .joinStore _ o _
  | .joinUnlock _ o | .post _ o | .closeSem _ o | .work o _ | .workLock o _ _ | .loadHit o _ _
  | .storeHit o _ _ _ | .loadTried o _ _ | .storeTried o _ _ _ | .workUnlock o _ | .leaveLoad _ o
  | .leaveStore _ o _ | .reportLock _ o | .report _ o | .reportUnlock _ o | .destroyLock _ o =>
    some o
  | _ => none

/-- The object that the next step reads, writes or locks. -/
def Pc.touches : Pc → Option Nat
  | .check _ o | .joinLock _ o | .joinLoad _ o | .joinStore _ o _ | .joinUnlock _ o
  | .workLock o _ _ | .loadHit o _ _ | .storeHit o _ _ _ | .loadTried o _ _ | .storeTried o _ _ _
  | .workUnlock o _ | .leaveLoad _ o | .leaveStore _ o _ | .reportLock _ o | .report _ o
  | .reportUnlock _ o | .destroyLock _ o => some o
  | _ => none

/-- The object that the next step stores an initial value in. -/
def Pc.stores : Pc → Option Nat
  | .store _ o _ => some o
  | _ => none

theorem Pc.touches_uses {c : Pc} {o : Nat} (h : c.touches = some o) : c.uses = some o := by
  cases c <;> first | exact h | cases h

theorem Pc.stores_initing {c : Pc} {o : Nat} (h : c.stores = some o) : c.initing = some o := by
  cases c <;> first | exact h | cases h

theorem Pc.inside_holds {c : Pc} {x : Nat} (h : c.inside = some x) : c.holds = some x := by
  cases c <;> first | exact h | cases h

theorem Pc.initing_inside {c : Pc} {o : Nat} (h : c.initing = some o) : c.inside ≠ none := by
  cases c <;> first | exact Option.some_ne_none _ | cases h

variable {π F : Type} [DecidableEq π] {s t : State π F} {act : Act π}

/-! ## What a step does -/

/-- The exits of the guarded sections that do not post: `ERR` on another range, and
on an unlinking that fails. -/
def Abandons [BEq F] (args : π → Args F) (s : State π F) (act : Act π) : Prop :=
  match s.pc act.proc, act.outcome with
  | .check _ o, .ok =>
    ((args act.proc).a != (s.obj o).a || (args act.proc).b != (s.obj o).b) = true
  | .unlinkShm _, .ok => s.shmName = none
  | .unlinkSem _, .ok => s.semName = none
  | .unlinkShm _, .fail | .unlinkSem _, .fail => True
  | _, _ => False

omit [DecidableEq π] in
theorem Abandons.initing [BEq F] {args : π → Args F} (h : Abandons args s act) :
    (s.pc act.proc).initing = none := by
  unfold Abandons at h
  split at h <;> first | cases h; done | (rename_i hpc _; rw [hpc]; rfl)

/-- A step to `c` takes and gives back no semaphore and opens no object. -/
structure Pc.Still (c c' : Pc) : Prop where
  holds : c'.holds = c.holds
  inside : c'.inside = none ∨ c'.inside = c.inside
  uses : c'.uses = none ∨ c'.uses = c.uses

/-- A step: an access, an unlinking or the end of the process; or one of
the steps on which the guard turns. -/
inductive Effect [BEq F] (args : π → Args F) (s : State π F) (act : Act π) :
    State π F → Prop where
  | move {t : State π F} {c : Pc} : t.pc = Function.update s.pc act.proc c →
      (s.pc act.proc).Still c →
      (t.shmName = s.shmName ∧ c.initing = (s.pc act.proc).initing) ∨
        (t.shmName = none ∧ c.initing = none) →
      t.sem = s.sem → t.sems = s.sems → t.objs = s.objs →
      (∀ o, (t.obj o).ready = (s.obj o).ready ∧ (t.obj o).joined = (s.obj o).joined) →
      Effect args s act t
  | abandoned : Abandons args s act → Effect args s act (s.goto act.proc .exited)
  | opened {entry : Option Nat} : s.pc act.proc = .openSem entry → s.semName = none →
      Effect args s act ({ s.setSem s.sems 1 with semName := some s.sems, sems := s.sems + 1 }.goto
        act.proc (.clock s.sems entry))
  | taken {x : Nat} {entry : Option Nat} {c : Pc} : s.pc act.proc = .wait x entry →
      act.outcome = .ok → 0 < s.sem x → c.holds = some x → c.initing = none →
      (c.uses = none ∨ c.uses = (s.pc act.proc).uses) →
      Effect args s act ((s.setSem x (s.sem x - 1)).goto act.proc c)
  | posted {x : Nat} {c : Pc} : (s.pc act.proc).holds = some x → c.holds = none → c.inside = none →
      c.initing = (s.pc act.proc).initing → (c.uses = none ∨ c.uses = (s.pc act.proc).uses) →
      Effect args s act ((s.post x).goto act.proc c)
  | created {x : Nat} {k : Obj π F} : s.pc act.proc = .create x → s.shmName = none →
      k.ready = false → k.joined = [] →
      Effect args s act ({ s.setObj s.objs k with shmName := some s.objs, objs := s.objs + 1 }.goto
        act.proc (.truncate x s.objs))
  | reopened {x o : Nat} : s.pc act.proc = .reopen x → s.shmName = some o →
      Effect args s act (s.goto act.proc (.map x o false))
  | published {x o : Nat} {k : Obj π F} : s.pc act.proc = .store x o .lock → k.ready = true →
      Effect args s act ((s.setObj o k).goto act.proc (.post x o))
  | joined {x o : Nat} {workers : Int} {k : Obj π F} : s.pc act.proc = .joinStore x o workers →
      k.ready = (s.obj o).ready → Effect args s act ((s.setObj o k).goto act.proc (.joinUnlock x o))

variable [BEq F] {args : π → Args F}

theorem goto_effect {c c' : Pc} (hpc : s.pc act.proc = c) (hstill : c.Still c')
    (hinit : c'.initing = c.initing) : Effect args s act (s.goto act.proc c') :=
  .move rfl (hpc ▸ hstill) (.inl ⟨rfl, hpc ▸ hinit⟩) rfl rfl rfl fun _ => ⟨rfl, rfl⟩

theorem setObj_effect {c c' : Pc} {o : Nat} {k : Obj π F} (hpc : s.pc act.proc = c)
    (hstill : c.Still c') (hinit : c'.initing = c.initing) (hready : k.ready = (s.obj o).ready)
    (hjoined : k.joined = (s.obj o).joined) :
    Effect args s act ((s.setObj o k).goto act.proc c') := by
  refine .move rfl (hpc ▸ hstill) (.inl ⟨rfl, hpc ▸ hinit⟩) rfl rfl rfl fun o' => ?_
  show ((Function.update s.obj o k) o').ready = _ ∧ ((Function.update s.obj o k) o').joined = _
  by_cases ho : o' = o
  · subst ho
    rw [Function.update_self]
    exact ⟨hready, hjoined⟩
  · rw [Function.update_of_ne ho]
    exact ⟨rfl, rfl⟩

theorem acquire_effect {c c' : Pc} {o : Nat} (h : s.acquire act.proc o c' = some t)
    (hpc : s.pc act.proc = c) (hstill : c.Still c') (hinit : c'.initing = c.initing) :
    Effect args s act t := by
  unfold State.acquire at h
  split at h
  · cases h; exact setObj_effect hpc hstill hinit rfl rfl
  · cases h

theorem release_effect {c c' : Pc} {o : Nat} (h : s.release act.proc o c' = some t)
    (hpc : s.pc act.proc = c) (hstill : c.Still c') (hinit : c'.initing = c.initing) :
    Effect args s act t := by
  unfold State.release at h
  split at h
  · cases h; exact setObj_effect hpc hstill hinit rfl rfl
  · cases h

/-- **What a step does** to the guard. -/
theorem next_effect [Zero F] (h : s.next args act = some t) :
    Effect args s act t := by
  unfold State.next at h
  dsimp only at h
  split at h
  -- up to the guarded section
  · rename_i hpc _
    cases h
    unfold State.openSem
    split
    · exact goto_effect hpc ⟨rfl, .inr rfl, .inr rfl⟩ rfl
    · rename_i hname
      exact .opened hpc hname
  · rename_i hpc _; cases h; exact goto_effect hpc ⟨rfl, .inl rfl, .inl rfl⟩ rfl
  · rename_i hpc _; cases h; exact goto_effect hpc ⟨rfl, .inr rfl, .inr rfl⟩ rfl
  · rename_i hpc _; cases h; exact goto_effect hpc ⟨rfl, .inl rfl, .inl rfl⟩ rfl
  · rename_i entry hpc hok
    split at h
    · rename_i hpos
      cases h
      cases entry with
      | none => exact .taken hpc hok hpos rfl rfl (.inl rfl)
      | some o => exact .taken hpc hok hpos rfl rfl (.inr (by rw [hpc]; rfl))
    · cases h
  · rename_i hpc _
    cases h
    exact .move (Function.update_eq_self _ _).symm ⟨rfl, .inr rfl, .inr rfl⟩
      (.inl ⟨rfl, rfl⟩) rfl rfl rfl fun _ => ⟨rfl, rfl⟩
  · rename_i hpc _; cases h; exact goto_effect hpc ⟨rfl, .inl rfl, .inl rfl⟩ rfl
  -- the guarded section of `mem_init`
  · rename_i hpc _
    cases h
    unfold State.create
    split
    · exact goto_effect hpc ⟨rfl, .inr rfl, .inr rfl⟩ rfl
    · rename_i hname
      exact .created hpc hname rfl rfl
  · rename_i hpc _; cases h; exact goto_effect hpc ⟨rfl, .inl rfl, .inl rfl⟩ rfl
  · rename_i hpc _
    cases h
    unfold State.reopen
    split
    · rename_i hname
      exact .reopened hpc hname
    · exact goto_effect hpc ⟨rfl, .inl rfl, .inl rfl⟩ rfl
  · rename_i hpc _; cases h; exact goto_effect hpc ⟨rfl, .inl rfl, .inl rfl⟩ rfl
  · rename_i hpc _; cases h; exact goto_effect hpc ⟨rfl, .inr rfl, .inl rfl⟩ rfl
  · rename_i hpc _; cases h; exact goto_effect hpc ⟨rfl, .inr rfl, .inl rfl⟩ rfl
  · rename_i init hpc _
    cases h
    cases init
    · exact goto_effect hpc ⟨rfl, .inr rfl, .inr rfl⟩ rfl
    · exact goto_effect hpc ⟨rfl, .inr rfl, .inr rfl⟩ rfl
  · rename_i init hpc _
    cases h
    cases init
    · exact goto_effect hpc ⟨rfl, .inl rfl, .inl rfl⟩ rfl
    · exact goto_effect hpc ⟨rfl, .inr rfl, .inr rfl⟩ rfl
  · rename_i hpc _; cases h; exact goto_effect hpc ⟨rfl, .inr rfl, .inr rfl⟩ rfl
  · rename_i f hpc _
    cases h
    cases f with
    | lock => exact .published hpc rfl
    | workers | tried | hit | a | b =>
      exact setObj_effect hpc ⟨rfl, .inr rfl, .inr rfl⟩ rfl rfl rfl
  · rename_i hpc hok
    split at h
    · rename_i hne
      cases h
      exact .abandoned (by simp only [Abandons, hpc, hok]; exact hne)
    · cases h; exact goto_effect hpc ⟨rfl, .inr rfl, .inr rfl⟩ rfl
  · rename_i hpc _; exact acquire_effect h hpc ⟨rfl, .inr rfl, .inr rfl⟩ rfl
  · rename_i hpc _; cases h; exact goto_effect hpc ⟨rfl, .inr rfl, .inr rfl⟩ rfl
  · rename_i hpc _; cases h; exact .joined hpc rfl
  · rename_i hpc _; exact release_effect h hpc ⟨rfl, .inl rfl, .inr rfl⟩ rfl
  · rename_i hpc _
    cases h
    exact .move rfl (hpc ▸ ⟨rfl, .inl rfl, .inl rfl⟩) (.inr ⟨rfl, rfl⟩)
      rfl rfl rfl fun _ => ⟨rfl, rfl⟩
  · rename_i hpc _
    cases h
    exact .posted (by rw [hpc]; rfl) rfl rfl (by rw [hpc]; rfl) (.inl rfl)
  · rename_i hpc _
    cases h
    exact .posted (by rw [hpc]; rfl) rfl rfl (by rw [hpc]; rfl) (.inr (by rw [hpc]; rfl))
  · rename_i hpc _; cases h; exact goto_effect hpc ⟨rfl, .inr rfl, .inr rfl⟩ rfl
  · rename_i hpc _; cases h; exact goto_effect hpc ⟨rfl, .inl rfl, .inl rfl⟩ rfl
  -- `work`
  · rename_i hpc _; cases h; exact goto_effect hpc ⟨rfl, .inr rfl, .inr rfl⟩ rfl
  · rename_i hpc _; cases h; exact goto_effect hpc ⟨rfl, .inr rfl, .inr rfl⟩ rfl
  · rename_i hpc _; exact acquire_effect h hpc ⟨rfl, .inr rfl, .inr rfl⟩ rfl
  · rename_i hpc _; cases h; exact goto_effect hpc ⟨rfl, .inr rfl, .inr rfl⟩ rfl
  · rename_i hpc _; cases h; exact setObj_effect hpc ⟨rfl, .inr rfl, .inr rfl⟩ rfl rfl rfl
  · rename_i hpc _; cases h; exact goto_effect hpc ⟨rfl, .inr rfl, .inr rfl⟩ rfl
  · rename_i hpc _; cases h; exact setObj_effect hpc ⟨rfl, .inr rfl, .inr rfl⟩ rfl rfl rfl
  · rename_i hpc _; exact release_effect h hpc ⟨rfl, .inr rfl, .inr rfl⟩ rfl
  -- the guarded section of `finish`
  · rename_i hpc _; cases h; exact goto_effect hpc ⟨rfl, .inr rfl, .inr rfl⟩ rfl
  · rename_i hpc _
    cases h
    unfold State.leave
    split
    · exact setObj_effect hpc ⟨rfl, .inr rfl, .inr rfl⟩ rfl rfl rfl
    · exact setObj_effect hpc ⟨rfl, .inl rfl, .inl rfl⟩ rfl rfl rfl
  · rename_i hpc _; exact acquire_effect h hpc ⟨rfl, .inr rfl, .inr rfl⟩ rfl
  · rename_i hpc _; cases h; exact goto_effect hpc ⟨rfl, .inr rfl, .inr rfl⟩ rfl
  · rename_i hpc _; exact release_effect h hpc ⟨rfl, .inr rfl, .inr rfl⟩ rfl
  · rename_i hpc _; cases h; exact setObj_effect hpc ⟨rfl, .inr rfl, .inl rfl⟩ rfl rfl rfl
  · rename_i hpc hok
    split at h
    · rename_i hnone
      cases h
      exact .abandoned (by simp only [Abandons, hpc, hok]; exact hnone)
    · cases h
      exact .move rfl (hpc ▸ ⟨rfl, .inr rfl, .inr rfl⟩) (.inr ⟨rfl, rfl⟩)
        rfl rfl rfl fun _ => ⟨rfl, rfl⟩
  · rename_i hpc hfail; cases h; exact .abandoned (by simp only [Abandons, hpc, hfail])
  · rename_i hpc hok
    split at h
    · rename_i hnone
      cases h
      exact .abandoned (by simp only [Abandons, hpc, hok]; exact hnone)
    · cases h
      exact .move rfl (hpc ▸ ⟨rfl, .inl rfl, .inl rfl⟩) (.inl ⟨rfl, by rw [hpc]; rfl⟩)
        rfl rfl rfl fun _ => ⟨rfl, rfl⟩
  · rename_i hpc hfail; cases h; exact .abandoned (by simp only [Abandons, hpc, hfail])
  · rename_i hpc _
    cases h
    exact .posted (by rw [hpc]; rfl) rfl rfl (by rw [hpc]; rfl) (.inl rfl)
  · rename_i hpc _; cases h; exact goto_effect hpc ⟨rfl, .inl rfl, .inl rfl⟩ rfl
  · cases h

end Ops.Shm
