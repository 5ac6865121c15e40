import Ops.Lib.Update
import Ops.Pi.Process

/-!
# What a step does

`Deed` lists what a step can do to the semaphore, the segment and the names. The
functions on `Pc` say whether a process has joined, what it holds and what it has
loaded.
-/

namespace Ops.Pi

open Posix (Mutex)

inductive Counter where
  | counter
  | hits
  | samples
  deriving DecidableEq, Repr

def Seg.count {π : Type} (g : Seg π) : Counter → Int
  | .counter => g.counter
  | .hits => g.hits
  | .samples => g.samples

/-! ## Where a process is -/

/-- Between `sem_trywait` and `sem_post`. -/
def Pc.inside : Pc → Bool
  | .test | .init _ | .semPost => true
  | _ => false

/-- After `sem_post`. -/
def Pc.past : Pc → Bool
  | .tryWait | .test | .init _ | .semPost | .dead => false
  | _ => true

/-- The process holds the mutex. -/
def Pc.critical : Pc → Bool
  | .joinLoad | .joinStore _ | .joinUnlock | .loadHits _ _ | .storeHits _ _ _ | .loadSamples _ _
  | .storeSamples _ _ _ | .workUnlock _ | .leaveLoad | .leaveStore _ | .leaveTest | .leaveUnlock
  | .report | .reportSamples _ | .reportUnlock => true
  | _ => false

def Pc.locks : Pc → Bool
  | .joinLock | .workLock _ _ | .leaveLock => true
  | _ => false

/-- The last step was a `MutexLock`. -/
def Pc.acquired : Pc → Bool
  | .joinLoad | .loadHits _ _ | .leaveLoad => true
  | _ => false

/-- The field that the process is changing, with the value it read. -/
def Pc.loaded : Pc → Option (Counter × Int)
  | .joinStore n | .leaveStore n => some (.counter, n)
  | .storeHits _ _ n | .reportSamples n => some (.hits, n)
  | .storeSamples _ _ n => some (.samples, n)
  | _ => none

/-- The process has mapped the segment and not joined. -/
def Pc.outside : Pc → Bool
  | .tryWait | .test | .init _ | .semPost | .joinLock | .joinLoad | .joinStore _ => true
  | _ => false

/-- The process has joined and has not left. -/
def Pc.counted : Pc → Bool
  | .joinUnlock | .work _ | .workLock _ _ | .loadHits _ _ | .storeHits _ _ _ | .loadSamples _ _
  | .storeSamples _ _ _ | .workUnlock _ | .leaveLock | .leaveLoad | .leaveStore _ => true
  | _ => false

/-- What the process has added to `hits` and not yet to `samples`. -/
def Pc.pend : Pc → Int
  | .loadSamples _ result | .storeSamples _ result _ => result
  | _ => 0

/-- The process has seen the counter at 0. -/
def Pc.last : Pc → Bool
  | .report | .reportSamples _ | .reportUnlock | .destroy | .unlinkSem | .unlinkShm => true
  | _ => false

/-- The process removes the names. -/
def Pc.unlinks : Pc → Bool
  | .unlinkSem | .unlinkShm => true
  | _ => false

theorem Pc.loaded_critical {c : Pc} {f : Counter} {n : Int} (h : c.loaded = some (f, n)) :
    c.critical = true := by
  cases c <;> first | rfl | cases h

theorem Pc.pend_critical {c : Pc} (h : c.critical = false) : c.pend = 0 := by
  cases c <;> first | rfl | cases h

theorem Pc.pend_counted {c : Pc} (h : c.counted = false) : c.pend = 0 := by
  cases c <;> first | rfl | cases h

theorem Pc.past_init {c : Pc} (h : c.past = true) (f : Field) : c ≠ .init f := by
  rintro rfl
  cases h

/-- Who has joined and left, and is not in a critical section, has ended, or was the last. -/
theorem Pc.over_cases {c : Pc} (hout : c.outside = false) (hcount : c.counted = false)
    (hcritical : c.critical = false) : c.over = true ∨ c.last = true := by
  cases c <;> first
    | exact .inl rfl
    | exact .inr rfl
    | (cases hout; done)
    | (cases hcount; done)
    | cases hcritical

theorem Pc.locks_cases {c : Pc} (h : c.locks = true) : c.outside = true ∨ c.counted = true := by
  cases c <;> first | exact .inl rfl | exact .inr rfl | cases h

theorem Pc.unlinks_last {c : Pc} (h : c.unlinks = true) : c.last = true := by
  cases c <;> first | rfl | cases h

theorem Pc.acquired_critical {c : Pc} (h : c.acquired = true) : c.critical = true ∧ c.pend = 0 := by
  cases c <;> first | exact ⟨rfl, rfl⟩ | cases h

/-- A step from `c` to `c'` neither joins nor leaves. -/
structure Pc.Alike (c c' : Pc) : Prop where
  outside : c'.outside = c.outside
  counted : c'.counted = c.counted
  pend : c'.pend = c.pend
  last : c'.last = c.last
  before : c.past = true
  past : c'.past = true
  unlinks : c.unlinks = false

variable {π : Type} [DecidableEq π] {N : π → Int} {s t : State π} {act : Act π}

inductive Deed (N : π → Int) (s : State π) (act : Act π) : State π → Prop where
  | took : s.pc act.proc = .tryWait → 0 < s.sem →
      Deed N s act ({ s with sem := s.sem - 1 }.goto act.proc .test)
  | missed : s.pc act.proc = .tryWait → act.event = .step → s.sem = 0 →
      Deed N s act (s.goto act.proc .semPost)
  | skipped : s.pc act.proc = .test → s.seg.intialised = 1 →
      Deed N s act (s.goto act.proc .semPost)
  | entered : s.pc act.proc = .test → s.seg.intialised ≠ 1 →
      Deed N s act ({ s with inits := s.inits + 1 }.goto act.proc (.init .intialised))
  | stored {f : Field} : s.pc act.proc = .init f → Deed N s act (s.store act.proc f)
  | posted : s.pc act.proc = .semPost →
      Deed N s act ({ s with sem := s.sem + 1 }.goto act.proc .joinLock)
  | moved {c : Pc} : (s.pc act.proc).Alike c → c.critical = (s.pc act.proc).critical →
      (∀ f n, c.loaded = some (f, n) → n = s.seg.count f) → Deed N s act (s.goto act.proc c)
  | locked {c : Pc} {m : Mutex π} : (s.pc act.proc).Alike c → (s.pc act.proc).locks = true →
      s.seg.mutex.lock act.proc = some m → c.critical = true → c.loaded = none →
      Deed N s act ({ s with seg := { s.seg with mutex := m } }.goto act.proc c)
  | unlocked {c : Pc} {m : Mutex π} : (s.pc act.proc).Alike c →
      s.seg.mutex.unlock act.proc = some m → c.critical = false → c.loaded = none →
      Deed N s act ({ s with seg := { s.seg with mutex := m } }.goto act.proc c)
  | joined {n : Int} : s.pc act.proc = .joinStore n →
      Deed N s act ({ s with
        seg := { s.seg with counter := n + 1 }, joined := s.joined ++ [act.proc] }.goto act.proc
          .joinUnlock)
  | hit {i : Nat} {result n : Int} : s.pc act.proc = .storeHits i result n →
      Deed N s act ({ s with seg := { s.seg with hits := n + result } }.goto act.proc
        (.loadSamples i result))
  | sampled {i : Nat} {result n : Int} : s.pc act.proc = .storeSamples i result n →
      Deed N s act ({ s with
        seg := { s.seg with samples := n + N act.proc }
        batches := s.batches ++ [(act.proc, result, N act.proc)] }.goto act.proc (.workUnlock i))
  | left {n : Int} : s.pc act.proc = .leaveStore n →
      Deed N s act ({ s with seg := { s.seg with counter := n - 1 } }.goto act.proc .leaveTest)
  | tested : s.pc act.proc = .leaveTest →
      Deed N s act (s.goto act.proc (if s.seg.counter = 0 then .report else .leaveUnlock))
  | printed {n : Int} : s.pc act.proc = .reportSamples n →
      Deed N s act ({ s with printed := s.printed ++ [(n, s.seg.samples)] }.goto act.proc
        .reportUnlock)
  | destroyed : s.pc act.proc = .destroy →
      Deed N s act ({ s with seg := { s.seg with mutex := .destroyed } }.goto act.proc .unlinkSem)
  | unlinkedSem : s.pc act.proc = .unlinkSem →
      Deed N s act ({ s with semName := false }.goto act.proc .unlinkShm)
  | unlinkedShm : s.pc act.proc = .unlinkShm →
      Deed N s act ({ s with shmName := false }.goto act.proc .done)
  | killed : act.event = .kill → (s.pc act.proc).over = false → Deed N s act (s.kill act.proc)

theorem int_some {n m : Int} (h : int n = some m) : m = n := by
  unfold int at h
  split at h
  · cases h; rfl
  · cases h

theorem moved_deed {c c' : Pc} (hpc : s.pc act.proc = c) (halike : c.Alike c')
    (hcritical : c'.critical = c.critical)
    (hloaded : ∀ f n, c'.loaded = some (f, n) → n = s.seg.count f) :
    Deed N s act (s.goto act.proc c') :=
  .moved (hpc ▸ halike) (hpc ▸ hcritical) hloaded

theorem lock_deed {c c' : Pc} (h : s.lock act.proc c' = some t) (hpc : s.pc act.proc = c)
    (halike : c.Alike c') (hlocks : c.locks = true) (hcritical : c'.critical = true)
    (hloaded : c'.loaded = none) : Deed N s act t := by
  obtain ⟨m, hm, rfl⟩ := Option.map_eq_some_iff.mp h
  exact .locked (hpc ▸ halike) (hpc ▸ hlocks) hm hcritical hloaded

theorem unlock_deed {c c' : Pc} (h : s.unlock act.proc c' = some t) (hpc : s.pc act.proc = c)
    (halike : c.Alike c') (hcritical : c'.critical = false) (hloaded : c'.loaded = none) :
    Deed N s act t := by
  obtain ⟨m, hm, rfl⟩ := Option.map_eq_some_iff.mp h
  exact .unlocked (hpc ▸ halike) hm hcritical hloaded

theorem run_deed (h : s.run (N act.proc) act.proc act.event = some t) : Deed N s act t := by
  have alike : ∀ {c c' : Pc}, c'.outside = c.outside → c'.counted = c.counted → c'.pend = c.pend →
      c'.last = c.last → c.past = true → c'.past = true → c.unlinks = false → c.Alike c' :=
    fun hout hcount hpend hlast hbefore hpast hunlinks =>
      ⟨hout, hcount, hpend, hlast, hbefore, hpast, hunlinks⟩
  unfold State.run at h
  split at h
  -- the guarded call of `TryInitSharedData`
  · rename_i hpc hstep
    split at h
    · rename_i hpos; cases h; exact .took hpc hpos
    · rename_i hzero; cases h; exact .missed hpc hstep (by omega)
  · rename_i hpc _
    split at h
    · rename_i hset; cases h; exact .skipped hpc hset
    · rename_i hset; cases h; exact .entered hpc hset
  · rename_i hpc _; cases h; exact .stored hpc
  · rename_i hpc _; cases h; exact .posted hpc
  -- join
  · rename_i hpc _; exact lock_deed h hpc (alike rfl rfl rfl rfl rfl rfl rfl) rfl rfl rfl
  · rename_i hpc _
    cases h
    exact moved_deed hpc (alike rfl rfl rfl rfl rfl rfl rfl) rfl fun _ _ h => by cases h; rfl
  · rename_i hpc _
    obtain ⟨n, hn, rfl⟩ := Option.map_eq_some_iff.mp h
    rw [int_some hn]
    exact .joined hpc
  · rename_i hpc _; exact unlock_deed h hpc (alike rfl rfl rfl rfl rfl rfl rfl) rfl rfl
  -- `DoWork`
  · rename_i hpc _
    split at h
    · cases h; exact moved_deed hpc (alike rfl rfl rfl rfl rfl rfl rfl) rfl nofun
    · cases h
  · rename_i hpc _
    split at h
    · cases h; exact moved_deed hpc (alike rfl rfl rfl rfl rfl rfl rfl) rfl nofun
    · cases h
  · rename_i hpc _
    split at h
    · cases h
    · cases h; exact moved_deed hpc (alike rfl rfl rfl rfl rfl rfl rfl) rfl nofun
  · rename_i hpc _; exact lock_deed h hpc (alike rfl rfl rfl rfl rfl rfl rfl) rfl rfl rfl
  · rename_i hpc _
    cases h
    exact moved_deed hpc (alike rfl rfl rfl rfl rfl rfl rfl) rfl fun _ _ h => by cases h; rfl
  · rename_i hpc _
    obtain ⟨n, hn, rfl⟩ := Option.map_eq_some_iff.mp h
    rw [int_some hn]
    exact .hit hpc
  · rename_i hpc _
    cases h
    exact moved_deed hpc (alike rfl rfl rfl rfl rfl rfl rfl) rfl fun _ _ h => by cases h; rfl
  · rename_i hpc _
    obtain ⟨n, hn, rfl⟩ := Option.map_eq_some_iff.mp h
    rw [int_some hn]
    exact .sampled hpc
  · rename_i hpc _; exact unlock_deed h hpc (alike rfl rfl rfl rfl rfl rfl rfl) rfl rfl
  -- leave
  · rename_i hpc _; exact lock_deed h hpc (alike rfl rfl rfl rfl rfl rfl rfl) rfl rfl rfl
  · rename_i hpc _
    cases h
    exact moved_deed hpc (alike rfl rfl rfl rfl rfl rfl rfl) rfl fun _ _ h => by cases h; rfl
  · rename_i hpc _
    obtain ⟨n, hn, rfl⟩ := Option.map_eq_some_iff.mp h
    rw [int_some hn]
    exact .left hpc
  · rename_i hpc _; cases h; exact .tested hpc
  · rename_i hpc _; exact unlock_deed h hpc (alike rfl rfl rfl rfl rfl rfl rfl) rfl rfl
  · rename_i hpc _
    cases h
    exact moved_deed hpc (alike rfl rfl rfl rfl rfl rfl rfl) rfl fun _ _ h => by cases h; rfl
  · rename_i hpc _; cases h; exact .printed hpc
  · rename_i hpc _; exact unlock_deed h hpc (alike rfl rfl rfl rfl rfl rfl rfl) rfl rfl
  · rename_i hpc _; cases h; exact .destroyed hpc
  · rename_i hpc _; cases h; exact .unlinkedSem hpc
  · rename_i hpc _; cases h; exact .unlinkedShm hpc
  · cases h

/-- **What a step does.** -/
theorem next_deed (h : s.next N act = some t) : Deed N s act t := by
  unfold State.next at h
  split at h
  · rename_i hkill
    split at h
    · cases h
    · rename_i hover
      cases h
      exact .killed hkill (Bool.eq_false_iff.mpr hover)
  · exact run_deed h

theorem next_alive (h : s.next N act = some t) : (s.pc act.proc).over = false := by
  unfold State.next at h
  split at h
  · split at h
    · cases h
    · rename_i hover
      exact Bool.eq_false_iff.mpr hover
  · cases hpc : s.pc act.proc with
    | done | dead => simp only [State.run, hpc, reduceCtorEq] at h
    | _ => rfl

end Ops.Pi
