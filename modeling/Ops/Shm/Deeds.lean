import Ops.Shm.Guard

/-!
# What a process does to an object

`Deed` lists what a step can do to the counters, the mutex and the names: a step
that changes none of them (`moved`), or one of the calls and stores that do. The
functions on `Pc` say what a process has locked, loaded and still to do.
-/

namespace Ops.Shm

inductive Counter where
  | workers
  | tried
  | hit
  deriving DecidableEq, Repr

def Obj.count {π F : Type} (k : Obj π F) : Counter → Int
  | .workers => k.workers
  | .tried => k.tried
  | .hit => k.hit

/-- An object that nobody has joined yet, apart from its `workers`. -/
structure Obj.Blank {π F : Type} (k : Obj π F) : Prop where
  ready : k.ready = false
  lock : k.lock = .raw
  tried : k.tried = 0
  hit : k.hit = 0
  joined : k.joined = []
  left : k.left = []
  zeros : k.zeros = []
  batches : k.batches = []

/-! ## Where a process is -/

/-- The object whose mutex the process holds. -/
def Pc.locked : Pc → Option Nat
  | .joinLoad _ o | .joinStore _ o _ | .joinUnlock _ o | .loadHit o _ _ | .storeHit o _ _ _
  | .loadTried o _ _ | .storeTried o _ _ _ | .workUnlock o _ | .report _ o | .reportUnlock _ o =>
    some o
  | _ => none

/-- The object whose mutex the next step locks or unlocks. -/
def Pc.locks : Pc → Option Nat
  | .joinLock _ o | .joinUnlock _ o | .workLock o _ _ | .workUnlock o _ | .reportLock _ o
  | .reportUnlock _ o => some o
  | _ => none

/-- The counter of an object that the process is changing, with the value it read. -/
def Pc.loaded : Pc → Option (Nat × Counter × Int)
  | .joinStore _ o w | .leaveStore _ o w => some (o, .workers, w)
  | .storeHit o _ _ h => some (o, .hit, h)
  | .storeTried o _ _ r => some (o, .tried, r)
  | _ => none

/-- The object of which the process is a worker, and the batches it has still to add;
`t` is the number of its batches. -/
def Pc.due (t : Nat) : Pc → Option (Nat × Nat)
  | .joinUnlock _ o | .post _ o | .closeSem _ o => some (o, t)
  | .work o n | .workUnlock o n => some (o, n)
  | .workLock o n _ | .loadHit o n _ | .storeHit o n _ _ | .loadTried o n _ | .storeTried o n _ _ =>
    some (o, n + 1)
  | .openSem (some o) | .clock _ (some o) | .wait _ (some o) | .leaveLoad _ o | .leaveStore _ o _ =>
    some (o, 0)
  | _ => none

/-- What the process has added to `hit` and not yet to `tried`. -/
def Pc.pend : Pc → Int
  | .loadTried _ _ res | .storeTried _ _ res _ => res
  | _ => 0

/-- The object of the process that saw its counter reach 0. -/
def Pc.last : Pc → Option Nat
  | .reportLock _ o | .report _ o | .reportUnlock _ o | .destroyLock _ o => some o
  | _ => none

/-- The process has not joined an object. -/
def Pc.outside : Pc → Bool
  | .openSem none | .clock _ none | .wait _ none | .create _ | .reopen _ | .truncate _ _ | .map _ _ _
  | .store _ _ _ | .check _ _ | .joinLock _ _ | .joinLoad _ _ | .joinStore _ _ _ | .abandon _ _
  | .failPost _ => true
  | _ => false

/-- The process is in the guarded section of `mem_init`, up to its `sem_post`. -/
def Pc.joining : Pc → Bool
  | .create _ | .reopen _ | .truncate _ _ | .map _ _ _ | .store _ _ _ | .check _ _ | .joinLock _ _
  | .joinLoad _ _ | .joinStore _ _ _ | .joinUnlock _ _ | .abandon _ _ => true
  | _ => false

/-- The process takes the semaphore for `mem_init`. -/
def Pc.enters : Pc → Bool
  | .wait _ none => true
  | _ => false

/-- The object whose `workers` its creator has stored. -/
def Pc.begun : Pc → Option Nat
  | .store _ _ .workers => none
  | .store _ o _ => some o
  | _ => none

/-- The process is in `mem_destroy`, after `pthread_mutex_destroy`. -/
def Pc.unlinks : Pc → Bool
  | .unlinkShm _ | .unlinkSem _ => true
  | _ => false

theorem Pc.loaded_workers {c : Pc} {o : Nat} {v : Int} (h : c.loaded = some (o, .workers, v)) :
    c.inside ≠ none := by
  cases c <;> first | exact Option.some_ne_none _ | cases h

theorem Pc.loaded_locked {c : Pc} {o : Nat} {f : Counter} {v : Int} (h : c.loaded = some (o, f, v))
    (hf : f ≠ .workers) : c.locked = some o := by
  cases c <;> cases h <;> first | rfl | exact absurd rfl hf

theorem Pc.locked_due {c : Pc} {o : Nat} (t : Nat) (h : c.locked = some o) :
    (∃ n, c.due t = some (o, n)) ∨ c.inside ≠ none := by
  cases c <;> cases h <;> first | exact .inr (Option.some_ne_none _) | exact .inl ⟨_, rfl⟩

theorem Pc.locked_uses {c : Pc} {o : Nat} (h : c.locked = some o) : c.uses = some o := by
  cases c <;> first | exact h | cases h

theorem Pc.locks_uses {c : Pc} {o : Nat} (h : c.locks = some o) : c.uses = some o := by
  cases c <;> first | exact h | cases h

/-- Who locks or unlocks is joining, or a worker, or the last one. -/
theorem Pc.locks_cases {c : Pc} {o : Nat} (t : Nat) (h : c.locks = some o) :
    c.joining = true ∨ (∃ n, c.due t = some (o, n)) ∨ c.last = some o := by
  cases c <;> cases h <;>
    first | exact .inl rfl | exact .inr (.inl ⟨_, rfl⟩) | exact .inr (.inr rfl)

theorem Pc.due_uses {c : Pc} {t o n : Nat} (h : c.due t = some (o, n)) : c.uses = some o := by
  unfold Pc.due at h
  split at h <;> cases h <;> rfl

theorem Pc.loaded_uses {c : Pc} {o : Nat} {f : Counter} {v : Int} (h : c.loaded = some (o, f, v)) :
    c.uses = some o := by
  cases c <;> cases h <;> rfl

theorem Pc.last_uses {c : Pc} {o : Nat} (h : c.last = some o) : c.uses = some o := by
  cases c <;> first | exact h | cases h

theorem Pc.last_inside {c : Pc} {o : Nat} (h : c.last = some o) : c.inside ≠ none := by
  cases c <;> first | exact Option.some_ne_none _ | cases h

theorem Pc.joining_inside {c : Pc} (h : c.joining = true) : c.inside ≠ none := by
  cases c <;> first | exact Option.some_ne_none _ | cases h

theorem Pc.begun_initing {c : Pc} {o : Nat} (h : c.begun = some o) : c.initing = some o := by
  unfold Pc.begun at h
  split at h
  · cases h
  · cases h; rfl
  · cases h

theorem Pc.initing_joining {c : Pc} {o : Nat} (h : c.initing = some o) : c.joining = true := by
  cases c <;> first | rfl | cases h

/-- A step from `c` to `c'` joins, leaves and opens nothing; `t` is the number of
batches of the process. -/
structure Pc.Keeps (t : Nat) (c c' : Pc) : Prop where
  due : c'.due t = none ∨ c'.due t = c.due t
  pend : c'.pend = c.pend
  last : c'.last = c.last
  outside : c'.outside = true → c.outside = true
  joining : c'.joining = true → c.joining = true
  initing : c'.initing = none ∨ c'.initing = c.initing
  begun : c'.begun = none
  unlinks : c'.unlinks = true → c.unlinks = true

variable {π F : Type} [DecidableEq π] {s t : State π F} {act : Act π}

/-- A step, as far as the counters, the mutexes and the names are concerned. -/
inductive Deed (args : π → Args F) (s : State π F) (act : Act π) : State π F → Prop where
  | moved {t : State π F} {c : Pc} : t.pc = Function.update s.pc act.proc c →
      (s.pc act.proc).Keeps (args act.proc).t c → c.locked = (s.pc act.proc).locked →
      (∀ o f v, c.loaded = some (o, f, v) → v = (s.obj o).count f) →
      t.obj = s.obj → t.objs = s.objs → t.shmName = s.shmName → t.semName = s.semName →
      t.sems = s.sems → Deed args s act t
  | opened {entry : Option Nat} : s.pc act.proc = .openSem entry → s.semName = none →
      Deed args s act ({ s.setSem s.sems 1 with semName := some s.sems, sems := s.sems + 1 }.goto
        act.proc (.clock s.sems entry))
  | entered {x : Nat} : s.pc act.proc = .wait x none → act.outcome = .ok →
      Deed args s act ((s.setSem x (s.sem x - 1)).goto act.proc (.create x))
  | created {x : Nat} {k : Obj π F} : s.pc act.proc = .create x → s.shmName = none → k.Blank →
      Deed args s act ({ s.setObj s.objs k with shmName := some s.objs, objs := s.objs + 1 }.goto
        act.proc (.truncate x s.objs))
  | abandoned {x o : Nat} : s.pc act.proc = .abandon x o →
      Deed args s act ({ s with shmName := none }.goto act.proc (.failPost x))
  | stored {x o : Nat} {f : Field} : s.pc act.proc = .store x o f → f ≠ .lock →
      Deed args s act (s.store (args act.proc) act.proc x o f)
  | published {x o : Nat} : s.pc act.proc = .store x o .lock →
      Deed args s act (s.store (args act.proc) act.proc x o .lock)
  | acquired {o : Nat} {c : Pc} : (s.pc act.proc).Keeps (args act.proc).t c →
      (s.pc act.proc).locks = some o → (s.pc act.proc).locked = none → c.locked = some o →
      c.pend = 0 → c.loaded = none → (s.obj o).lock = .free →
      Deed args s act ((s.setObj o { s.obj o with lock := .held act.proc }).goto act.proc c)
  | released {o : Nat} {c : Pc} : (s.pc act.proc).Keeps (args act.proc).t c →
      (s.pc act.proc).locked = some o → c.locked = none → c.pend = 0 → c.loaded = none →
      (s.obj o).lock = .held act.proc →
      Deed args s act ((s.setObj o { s.obj o with lock := .free }).goto act.proc c)
  | joined {x o : Nat} {w : Int} : s.pc act.proc = .joinStore x o w →
      Deed args s act ((s.setObj o { s.obj o with
        workers := u64 (w + 1), joined := (s.obj o).joined ++ [act.proc] }).goto act.proc
          (.joinUnlock x o))
  | hit {o n : Nat} {res v : Int} : s.pc act.proc = .storeHit o n res v →
      Deed args s act ((s.setObj o { s.obj o with hit := u64 (v + res) }).goto act.proc
        (.loadTried o n res))
  | tried {o n : Nat} {res v : Int} : s.pc act.proc = .storeTried o n res v →
      Deed args s act ((s.setObj o { s.obj o with
        tried := u64 (v + (args act.proc).N)
        batches := (s.obj o).batches ++ [(act.proc, res, (args act.proc).N)] }).goto act.proc
          (.workUnlock o n))
  | left {x o : Nat} {w : Int} : s.pc act.proc = .leaveStore x o w →
      Deed args s act (s.leave act.proc x o w)
  | destroyed {x o : Nat} : s.pc act.proc = .destroyLock x o →
      Deed args s act ((s.setObj o { s.obj o with lock := .destroyed }).goto act.proc
        (.unlinkShm x))
  | unlinkedShm {x : Nat} : s.pc act.proc = .unlinkShm x →
      Deed args s act ({ s with shmName := none }.goto act.proc (.unlinkSem x))
  | unlinkedSem {x : Nat} : s.pc act.proc = .unlinkSem x →
      Deed args s act ({ s with semName := none }.goto act.proc (.finPost x))

variable {args : π → Args F}

/-- A step that moves the process, opens a name or gives back the semaphore. -/
theorem moved_deed {c c' : Pc} (hpc : s.pc act.proc = c) (ht : t.pc = Function.update s.pc act.proc c')
    (hkeeps : c.Keeps (args act.proc).t c') (hlocked : c'.locked = c.locked)
    (hloaded : ∀ o f v, c'.loaded = some (o, f, v) → v = (s.obj o).count f) (hobj : t.obj = s.obj)
    (hobjs : t.objs = s.objs) (hshm : t.shmName = s.shmName) (hsem : t.semName = s.semName)
    (hsems : t.sems = s.sems) : Deed args s act t :=
  .moved ht (hpc ▸ hkeeps) (hpc ▸ hlocked) hloaded hobj hobjs hshm hsem hsems

theorem goto_deed {c c' : Pc} (hpc : s.pc act.proc = c) (hkeeps : c.Keeps (args act.proc).t c')
    (hlocked : c'.locked = c.locked)
    (hloaded : ∀ o f v, c'.loaded = some (o, f, v) → v = (s.obj o).count f) :
    Deed args s act (s.goto act.proc c') :=
  moved_deed hpc rfl hkeeps hlocked hloaded rfl rfl rfl rfl rfl

theorem Pc.Keeps.out {n : Nat} {c c' : Pc} (hdue : c'.due n = none) (hpend : c'.pend = c.pend)
    (hlast : c'.last = c.last) (houtside : c'.outside = false) (hjoining : c'.joining = false)
    (hinit : c'.initing = none) (hbegun : c'.begun = none) (hunlinks : c'.unlinks = false) :
    c.Keeps n c' where
  due := .inl hdue
  pend := hpend
  last := hlast
  outside h := by rw [houtside] at h; cases h
  joining h := by rw [hjoining] at h; cases h
  initing := .inl hinit
  begun := hbegun
  unlinks h := by rw [hunlinks] at h; cases h

theorem exit_deed {c : Pc} (hpc : s.pc act.proc = c) (hpend : c.pend = 0) (hlast : c.last = none)
    (hlocked : c.locked = none) : Deed args s act (s.goto act.proc .exited) :=
  goto_deed hpc (.out rfl hpend.symm hlast.symm rfl rfl rfl rfl rfl) hlocked.symm nofun

theorem acquire_deed {c c' : Pc} {o : Nat} (h : s.acquire act.proc o c' = some t)
    (hpc : s.pc act.proc = c) (hkeeps : c.Keeps (args act.proc).t c') (hlocks : c.locks = some o)
    (hfree : c.locked = none) (hlocked : c'.locked = some o) (hpend : c'.pend = 0)
    (hloaded : c'.loaded = none) : Deed args s act t := by
  unfold State.acquire at h
  split at h
  · rename_i hlock
    cases h
    exact .acquired (hpc ▸ hkeeps) (hpc ▸ hlocks) (hpc ▸ hfree) hlocked hpend hloaded hlock
  · cases h

theorem release_deed {c c' : Pc} {o : Nat} (h : s.release act.proc o c' = some t)
    (hpc : s.pc act.proc = c) (hkeeps : c.Keeps (args act.proc).t c') (hlocked : c.locked = some o)
    (hfree : c'.locked = none) (hpend : c'.pend = 0) (hloaded : c'.loaded = none) :
    Deed args s act t := by
  unfold State.release at h
  split at h
  · rename_i hlock
    cases h
    exact .released (hpc ▸ hkeeps) (hpc ▸ hlocked) hfree hpend hloaded hlock
  · cases h

/-- `c` and `c'` are alike in all that `Keeps` looks at, apart from what is no longer due. -/
theorem Pc.Keeps.alike {n : Nat} {c c' : Pc} (hdue : c'.due n = none ∨ c'.due n = c.due n)
    (hpend : c'.pend = c.pend) (hlast : c'.last = c.last) (houtside : c'.outside = c.outside)
    (hjoining : c'.joining = true → c.joining = true)
    (hinit : c'.initing = none ∨ c'.initing = c.initing)
    (hbegun : c'.begun = none) (hunlinks : c'.unlinks = c.unlinks) : c.Keeps n c' :=
  ⟨hdue, hpend, hlast, fun h => houtside ▸ h, hjoining, hinit, hbegun, fun h => hunlinks ▸ h⟩

/-- What most steps keep, apart from a creator's beginning. -/
def Pc.shape (n : Nat) (c : Pc) :
    Option (Nat × Nat) × Int × Option Nat × Bool × Bool × Option Nat × Bool :=
  (c.due n, c.pend, c.last, c.outside, c.joining, c.initing, c.unlinks)

theorem Pc.Keeps.same {n : Nat} {c c' : Pc} (hshape : c'.shape n = c.shape n)
    (hbegun : c'.begun = none) : c.Keeps n c' := by
  simp only [Pc.shape, Prod.mk.injEq] at hshape
  obtain ⟨hdue, hpend, hlast, houtside, hjoining, hinit, hunlinks⟩ := hshape
  exact .alike (.inr hdue) hpend hlast houtside (fun h => hjoining ▸ h) (.inr hinit) hbegun
    hunlinks

/-- **What a step does** to the counters, the mutexes and the names. -/
theorem next_deed [Zero F] [BEq F] (h : s.next args act = some t) : Deed args s act t := by
  unfold State.next at h
  dsimp only at h
  split at h
  -- up to the guarded section
  · rename_i entry hpc _
    cases h
    unfold State.openSem
    split
    · cases entry <;> exact goto_deed hpc (.same rfl rfl) rfl nofun
    · rename_i hname
      exact .opened hpc hname
  · rename_i hpc _; cases h; exact exit_deed hpc rfl rfl rfl
  · rename_i entry hpc _
    cases h
    cases entry <;> exact goto_deed hpc (.same rfl rfl) rfl nofun
  · rename_i hpc _; cases h; exact exit_deed hpc rfl rfl rfl
  · rename_i entry hpc hok
    split at h
    · cases h
      cases entry with
      | none => exact .entered hpc hok
      | some o =>
        exact moved_deed hpc rfl (.same rfl rfl) rfl nofun rfl rfl rfl rfl rfl
    · cases h
  · rename_i hpc _
    cases h
    exact moved_deed hpc (hpc ▸ (Function.update_eq_self _ _).symm) (.same rfl rfl) rfl nofun rfl
      rfl rfl rfl rfl
  · rename_i hpc _; cases h; exact exit_deed hpc rfl rfl rfl
  -- the guarded section of `mem_init`
  · rename_i hpc _
    cases h
    unfold State.create
    split
    · exact goto_deed hpc (.same rfl rfl) rfl nofun
    · rename_i hname
      exact .created hpc hname ⟨rfl, rfl, rfl, rfl, rfl, rfl, rfl, rfl⟩
  · rename_i hpc _
    cases h
    exact goto_deed hpc (.alike (.inl rfl) rfl rfl rfl nofun (.inl rfl) rfl rfl) rfl nofun
  · rename_i hpc _
    cases h
    unfold State.reopen
    split
    · exact goto_deed hpc (.same rfl rfl) rfl nofun
    · exact goto_deed hpc (.alike (.inl rfl) rfl rfl rfl nofun (.inl rfl) rfl rfl) rfl nofun
  · rename_i hpc _
    cases h
    exact goto_deed hpc (.alike (.inl rfl) rfl rfl rfl nofun (.inl rfl) rfl rfl) rfl nofun
  · rename_i hpc _; cases h; exact goto_deed hpc (.same rfl rfl) rfl nofun
  · rename_i hpc _; cases h; exact goto_deed hpc (.same rfl rfl) rfl nofun
  · rename_i init hpc _
    cases h
    cases init <;> exact goto_deed hpc (.same rfl rfl) rfl nofun
  · rename_i init hpc _
    cases h
    cases init
    · exact goto_deed hpc (.alike (.inl rfl) rfl rfl rfl nofun (.inl rfl) rfl rfl) rfl nofun
    · exact goto_deed hpc (.same rfl rfl) rfl nofun
  · rename_i hpc _; cases h; exact goto_deed hpc (.same rfl rfl) rfl nofun
  · rename_i f hpc _
    cases h
    cases f with
    | lock => exact .published hpc
    | workers | tried | hit | a | b => exact .stored hpc nofun
  · rename_i hpc _
    split at h
    · cases h; exact exit_deed hpc rfl rfl rfl
    · cases h; exact goto_deed hpc (.same rfl rfl) rfl nofun
  · rename_i hpc _
    exact acquire_deed h hpc (.same rfl rfl) rfl rfl rfl rfl rfl
  · rename_i hpc _
    cases h
    refine goto_deed hpc (.same rfl rfl) rfl fun _ _ _ h => ?_
    cases h
    rfl
  · rename_i hpc _; cases h; exact .joined hpc
  · rename_i hpc _
    exact release_deed h hpc (.alike (.inr rfl) rfl rfl rfl nofun (.inl rfl) rfl rfl) rfl rfl rfl rfl
  · rename_i hpc _; cases h; exact .abandoned hpc
  · rename_i hpc _
    cases h
    exact moved_deed hpc rfl (.out rfl rfl rfl rfl rfl rfl rfl rfl) rfl nofun rfl rfl rfl rfl rfl
  · rename_i hpc _
    cases h
    exact moved_deed hpc rfl (.same rfl rfl) rfl nofun rfl rfl rfl rfl rfl
  · rename_i hpc _; cases h; exact goto_deed hpc (.same rfl rfl) rfl nofun
  · rename_i hpc _; cases h; exact exit_deed hpc rfl rfl rfl
  -- `work`
  · rename_i hpc _; cases h; exact goto_deed hpc (.same rfl rfl) rfl nofun
  · rename_i hpc _; cases h; exact goto_deed hpc (.same rfl rfl) rfl nofun
  · rename_i hpc _
    exact acquire_deed h hpc (.same rfl rfl) rfl rfl rfl rfl rfl
  · rename_i hpc _
    cases h
    refine goto_deed hpc (.same rfl rfl) rfl fun _ _ _ h => ?_
    cases h
    rfl
  · rename_i hpc _; cases h; exact .hit hpc
  · rename_i hpc _
    cases h
    refine goto_deed hpc (.same rfl rfl) rfl fun _ _ _ h => ?_
    cases h
    rfl
  · rename_i hpc _; cases h; exact .tried hpc
  · rename_i hpc _
    exact release_deed h hpc (.same rfl rfl) rfl rfl rfl rfl
  -- the guarded section of `finish`
  · rename_i hpc _
    cases h
    refine goto_deed hpc (.same rfl rfl) rfl fun _ _ _ h => ?_
    cases h
    rfl
  · rename_i hpc _; cases h; exact .left hpc
  · rename_i hpc _
    exact acquire_deed h hpc (.same rfl rfl) rfl rfl rfl rfl rfl
  · rename_i hpc _; cases h; exact goto_deed hpc (.same rfl rfl) rfl nofun
  · rename_i hpc _
    exact release_deed h hpc (.same rfl rfl) rfl rfl rfl rfl
  · rename_i hpc _; cases h; exact .destroyed hpc
  · rename_i hpc _
    split at h
    · cases h; exact exit_deed hpc rfl rfl rfl
    · cases h; exact .unlinkedShm hpc
  · rename_i hpc _; cases h; exact exit_deed hpc rfl rfl rfl
  · rename_i hpc _
    split at h
    · cases h; exact exit_deed hpc rfl rfl rfl
    · cases h; exact .unlinkedSem hpc
  · rename_i hpc _; cases h; exact exit_deed hpc rfl rfl rfl
  · rename_i hpc _
    cases h
    exact moved_deed hpc rfl (.same rfl rfl) rfl nofun rfl rfl rfl rfl rfl
  · rename_i hpc _; cases h; exact goto_deed hpc (.same rfl rfl) rfl nofun
  · cases h

end Ops.Shm
