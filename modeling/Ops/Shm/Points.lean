import Ops.Shm.Exclusive

/-!
# The points of a batch (`randomize_points`)

`randomizePoints N sample` is the loop of `randomize_points` over the outcomes of
the test `rand_y <= func(rand_x)`: `sample d` says whether draw `d` hits, so the
floating-point test itself does not matter. The body adds 1 to the loop variable
for a hit, and the header adds 1 for every draw; what is returned is the loop
variable. With an `N` below the limit of an `int` it does not overflow
(`randomizePoints_le`). `sampled` are the runs of the processes in which each
result is one of this loop.
-/

namespace Ops.Shm

/-- `i`, and how many points are drawn. -/
structure Loop where
  i : Int
  draws : Nat
  deriving DecidableEq, Repr

def Loop.turn (sample : Nat → Bool) (l : Loop) : Loop where
  i := (if sample l.draws then l.i + 1 else l.i) + 1
  draws := l.draws + 1

def turns (N : Int) (sample : Nat → Bool) : Nat → Loop → Loop
  | 0, l => l
  | fuel + 1, l => if l.i < N then turns N sample fuel (l.turn sample) else l

/-- Every turn raises `i`, so `N` turns are enough (`randomizePoints_ends`). -/
def randomizePoints (N : Int) (sample : Nat → Bool) : Loop := turns N sample N.toNat ⟨0, 0⟩

/-- How many of the first `n` points hit. -/
def hits (sample : Nat → Bool) (n : Nat) : Nat := (List.range n).countP sample

/-- Exactly `N` points are drawn, and the number of those that hit is returned. -/
structure Counts (N : Int) (sample : Nat → Bool) : Prop where
  draws : (randomizePoints N sample).draws = N
  hits : (randomizePoints N sample).i = hits sample (randomizePoints N sample).draws
  range : 0 ≤ (randomizePoints N sample).i ∧ (randomizePoints N sample).i ≤ N

section
variable {N : Int} {sample : Nat → Bool}

theorem hits_succ (sample : Nat → Bool) (n : Nat) :
    hits sample (n + 1) = hits sample n + (sample n).toNat := by
  unfold hits
  rw [List.range_succ, List.countP_append, List.countP_singleton]
  cases sample n <;> rfl

/-- The loop variable counts the hits twice. -/
def Loop.Tallied (sample : Nat → Bool) (l : Loop) : Prop :=
  l.i = l.draws + hits sample l.draws

theorem Loop.Tallied.turn {l : Loop} (h : l.Tallied sample) : (l.turn sample).Tallied sample := by
  unfold Loop.Tallied Loop.turn at *
  rw [hits_succ, h]
  cases sample l.draws with
  | false =>
    simp only [Bool.false_eq_true, if_false, Bool.toNat_false]
    omega
  | true =>
    simp only [if_true, Bool.toNat_true]
    omega

theorem turns_tallied {l : Loop} (fuel : Nat) (h : l.Tallied sample) :
    (turns N sample fuel l).Tallied sample := by
  induction fuel generalizing l with
  | zero => exact h
  | succ fuel ih =>
    unfold turns
    split
    · exact ih h.turn
    · exact h

theorem Loop.turn_i (sample : Nat → Bool) (l : Loop) :
    (l.turn sample).i = l.i + 1 ∨ (l.turn sample).i = l.i + 2 := by
  unfold Loop.turn
  split
  · right; dsimp only; omega
  · left; rfl

theorem turns_end {l : Loop} {fuel : Nat} (h : (N - l.i).toNat ≤ fuel) :
    N ≤ (turns N sample fuel l).i := by
  induction fuel generalizing l with
  | zero =>
    show N ≤ l.i
    omega
  | succ fuel ih =>
    unfold turns
    split
    · apply ih
      have hi := l.turn_i sample
      omega
    · omega

theorem turns_le {l : Loop} (fuel : Nat) (h : l.i ≤ N + 1) : (turns N sample fuel l).i ≤ N + 1 := by
  induction fuel generalizing l with
  | zero => exact h
  | succ fuel ih =>
    unfold turns
    split
    · apply ih
      have hi := l.turn_i sample
      omega
    · exact h

theorem randomizePoints_ends (N : Int) (sample : Nat → Bool) :
    N ≤ (randomizePoints N sample).i := turns_end (by dsimp only; omega)

theorem randomizePoints_le (sample : Nat → Bool) (h : 0 ≤ N) :
    (randomizePoints N sample).i ≤ N + 1 := turns_le _ (Int.add_nonneg h (by decide))

/-- What `randomize_points` returns is the number of draws and hits together. -/
theorem randomizePoints_eq (N : Int) (sample : Nat → Bool) :
    (randomizePoints N sample).i =
      (randomizePoints N sample).draws + hits sample (randomizePoints N sample).draws :=
  turns_tallied _ rfl

theorem randomizePoints_none (sample : Nat → Bool) (h : N ≤ 0) :
    randomizePoints N sample = ⟨0, 0⟩ := by
  unfold randomizePoints
  rw [Int.toNat_of_nonpos h]
  rfl

theorem counts_iff (N : Int) (sample : Nat → Bool) : Counts N sample ↔ N = 0 := by
  constructor
  · rintro ⟨hdraws, hret, -⟩
    have heq := randomizePoints_eq N sample
    omega
  · rintro rfl
    exact ⟨rfl, rfl, Int.le_refl 0, Int.le_refl 0⟩

end

/-! ## The processes -/

/-- What the environment decides about a step: for `randomize_points`, which points hit. -/
inductive Event where
  | ok
  | fail
  | eintr
  | draws (sample : Nat → Bool)

def Event.outcome (N : Int) : Event → Outcome
  | .ok => .ok
  | .fail => .fail
  | .eintr => .eintr
  | .draws sample => .points (randomizePoints N sample).i

variable {π F : Type} [DecidableEq π] [Zero F] [BEq F]

/-- `processes`, in which a call of `randomize_points` returns what the loop returns. -/
def sampled (args : π → Args F) : LTS (State π F) (π × Event) where
  Init := State.Start
  next s e := s.next args ⟨e.1, e.2.outcome (args e.1).N⟩

/-- The points that the step draws are counted, and after it the totals are in order if it is
the end of an update in `work`. -/
structure Exact (args : π → Args F) (s : State π F) (e : π × Event) : Prop where
  counts : ∀ sample, e.2 = .draws sample → 0 ≤ (args e.1).N → Counts (args e.1).N sample
  totals : ∀ o n res tried t, s.pc e.1 = .storeTried o n res tried →
    (sampled args).next s e = some t → (t.obj o).hit ≤ (t.obj o).tried

def NoPoints (args : π → Args F) (e : π × Event) : Prop :=
  ∀ sample, e.2 = .draws sample → (args e.1).N ≤ 0

theorem sampled_reach {args : π → Args F} {s : State π F} (h : (sampled args).Reach s) :
    (processes args).Reach s :=
  h.inv (fun _ hs => .init hs) fun _ _ _ _ hr hn => hr.step hn

/-! ## Without points, nothing is added to `hit` -/

/-- The process uses an object that exists, and adds nothing to its `hit`; `n` is the number of
objects. -/
def Pc.Idle (n : Nat) : Pc → Prop
  | .openSem entry | .clock _ entry | .wait _ entry => ∀ o, entry = some o → o < n
  | .truncate _ o | .map _ o _ | .store _ o _ | .check _ o | .joinLock _ o | .joinLoad _ o
  | .joinStore _ o _ | .joinUnlock _ o | .abandon _ o | .post _ o | .closeSem _ o | .work o _
  | .loadTried o _ _ | .storeTried o _ _ _ | .workUnlock o _ | .leaveLoad _ o | .leaveStore _ o _
  | .reportLock _ o | .report _ o | .reportUnlock _ o | .destroyLock _ o => o < n
  | .workLock o _ res | .loadHit o _ res => o < n ∧ res = 0
  | .storeHit o _ res hit => o < n ∧ res = 0 ∧ hit = 0
  | _ => True

theorem Pc.Idle.succ {n : Nat} {c : Pc} (h : c.Idle n) : c.Idle (n + 1) := by
  cases c with
  | openSem entry | clock sem entry | wait sem entry =>
    exact fun o ho => Nat.lt_succ_of_lt (h o ho)
  | workLock o t res | loadHit o t res | storeHit o t res hit => exact ⟨Nat.lt_succ_of_lt h.1, h.2⟩
  | truncate | map | store | check | joinLock | joinLoad | joinStore | joinUnlock | abandon | post
  | closeSem | work | loadTried | storeTried | workUnlock | leaveLoad | leaveStore | reportLock
  | report | reportUnlock | destroyLock => exact Nat.lt_succ_of_lt h
  | create | reopen | failPost | unlinkShm | unlinkSem | finPost | finClose | returned | exited =>
    trivial

/-- Nothing was added to `hit`, and nothing will be. -/
structure Calm (s : State π F) : Prop where
  zero : ∀ o, o < s.objs → (s.obj o).hit = 0
  named : ∀ o, s.shmName = some o → o < s.objs
  idle : ∀ p, (s.pc p).Idle s.objs

section
variable {s t : State π F} {p : π} {c c' : Pc}

omit [Zero F] [BEq F] in
theorem Calm.move (hs : Calm s) (hpc : s.pc p = c) (ht : t.pc = Function.update s.pc p c')
    (hidle : c.Idle s.objs → c'.Idle s.objs) (hobjs : t.objs = s.objs)
    (hname : t.shmName = none ∨ t.shmName = s.shmName)
    (hobj : ∀ o, o < s.objs → (t.obj o).hit = 0) : Calm t where
  zero o ho := hobj o (hobjs ▸ ho)
  named o ho := by
    rcases hname with hnone | hsame
    · rw [hnone] at ho; cases ho
    · exact hobjs ▸ hs.named o (hsame ▸ ho)
  idle q := by
    rw [ht, hobjs]
    by_cases hq : q = p
    · rw [hq, Function.update_self]
      exact hidle (hpc ▸ hs.idle p)
    · rw [Function.update_of_ne hq]
      exact hs.idle q

omit [Zero F] [BEq F] in
theorem Calm.goto (hs : Calm s) (hpc : s.pc p = c) (hidle : c.Idle s.objs → c'.Idle s.objs) :
    Calm (s.goto p c') := hs.move hpc rfl hidle rfl (.inr rfl) hs.zero

omit [Zero F] [BEq F] in
theorem Calm.setObj {o : Nat} {k : Obj π F} (hs : Calm s) (hpc : s.pc p = c)
    (hidle : c.Idle s.objs → c'.Idle s.objs) (hk : c.Idle s.objs → k.hit = 0) :
    Calm ((s.setObj o k).goto p c') := by
  refine hs.move hpc rfl hidle rfl (.inr rfl) fun o' ho' => ?_
  show (Function.update s.obj o k o').hit = 0
  by_cases ho : o' = o
  · rw [ho, Function.update_self]
    exact hk (hpc ▸ hs.idle p)
  · rw [Function.update_of_ne ho]
    exact hs.zero o' ho'

omit [Zero F] [BEq F] in
theorem Calm.acquire {o : Nat} (hs : Calm s) (h : s.acquire p o c' = some t) (hpc : s.pc p = c)
    (hidle : c.Idle s.objs → c'.Idle s.objs) (hk : c.Idle s.objs → o < s.objs) : Calm t := by
  unfold State.acquire at h
  split at h
  · cases h
    exact hs.setObj hpc hidle fun hc => hs.zero o (hk hc)
  · cases h

omit [Zero F] [BEq F] in
theorem Calm.release {o : Nat} (hs : Calm s) (h : s.release p o c' = some t) (hpc : s.pc p = c)
    (hidle : c.Idle s.objs → c'.Idle s.objs) (hk : c.Idle s.objs → o < s.objs) : Calm t := by
  unfold State.release at h
  split at h
  · cases h
    exact hs.setObj hpc hidle fun hc => hs.zero o (hk hc)
  · cases h

omit [BEq F] in
theorem Calm.created {x : Nat} (hs : Calm s) (hname : s.shmName = none) :
    Calm (s.create p x) := by
  unfold State.create
  rw [hname]
  refine ⟨fun o ho => ?_, fun o ho => ?_, fun q => ?_⟩
  · show (Function.update s.obj s.objs Obj.zero o).hit = 0
    by_cases ho' : o = s.objs
    · rw [ho', Function.update_self]
      rfl
    · rw [Function.update_of_ne ho']
      exact hs.zero o (by have hlt : o < s.objs + 1 := ho; omega)
  · obtain rfl : s.objs = o := Option.some.inj ho
    exact Nat.lt_succ_self _
  · show (Function.update s.pc p (.truncate x s.objs) q).Idle (s.objs + 1)
    by_cases hq : q = p
    · rw [hq, Function.update_self]
      exact Nat.lt_succ_self _
    · rw [Function.update_of_ne hq]
      exact (hs.idle q).succ

omit [Zero F] [BEq F] in
theorem Calm.store {x o : Nat} {f : Field} (hs : Calm s) (args : Args F)
    (hpc : s.pc p = .store x o f) : Calm (s.store args p x o f) := by
  cases f with
  | hit => exact hs.setObj hpc id fun _ => rfl
  | workers | tried | a | b | lock => exact hs.setObj hpc id (hs.zero o)

omit [Zero F] [BEq F] in
theorem Calm.leave {x o : Nat} {w : Int} (hs : Calm s) (hpc : s.pc p = .leaveStore x o w) :
    Calm (s.leave p x o w) := by
  unfold State.leave
  split
  · exact hs.setObj hpc id (hs.zero o)
  · exact hs.setObj hpc (fun _ => trivial) (hs.zero o)

theorem Calm.next {args : π → Args F} {act : Act π} (hs : Calm s)
    (hres : ∀ res, act.outcome = .points res → res = 0) (h : s.next args act = some t) :
    Calm t := by
  unfold State.next at h
  dsimp only at h
  split at h
  -- up to the guarded section
  · rename_i hpc _
    cases h
    unfold State.openSem
    split
    · exact hs.goto hpc id
    · exact hs.move hpc rfl id rfl (.inr rfl) hs.zero
  · rename_i hpc _; cases h; exact hs.goto hpc fun _ => trivial
  · rename_i hpc _; cases h; exact hs.goto hpc id
  · rename_i hpc _; cases h; exact hs.goto hpc fun _ => trivial
  · rename_i entry hpc _
    split at h
    · cases h
      refine hs.move hpc rfl (fun hc => ?_) rfl (.inr rfl) hs.zero
      cases entry with
      | none => trivial
      | some o => exact hc o rfl
    · cases h
  · cases h; exact hs
  · rename_i hpc _; cases h; exact hs.goto hpc fun _ => trivial
  -- the guarded section of `mem_init`
  · rename_i hpc _
    cases h
    cases hname : s.shmName with
    | some o =>
      unfold State.create
      rw [hname]
      exact hs.goto hpc fun _ => trivial
    | none => exact hs.created hname
  · rename_i hpc _; cases h; exact hs.goto hpc fun _ => trivial
  · rename_i hpc _
    cases h
    unfold State.reopen
    split
    · rename_i o hname
      exact hs.goto hpc fun _ => hs.named o hname
    · exact hs.goto hpc fun _ => trivial
  · rename_i hpc _; cases h; exact hs.goto hpc fun _ => trivial
  · rename_i hpc _; cases h; exact hs.goto hpc id
  · rename_i hpc _; cases h; exact hs.goto hpc id
  · rename_i init hpc _
    cases h
    cases init <;> exact hs.goto hpc id
  · rename_i init hpc _
    cases h
    cases init
    · exact hs.goto hpc fun _ => trivial
    · exact hs.goto hpc id
  · rename_i hpc _; cases h; exact hs.goto hpc id
  · rename_i hpc _; cases h; exact hs.store _ hpc
  · rename_i hpc _
    split at h
    · cases h; exact hs.goto hpc fun _ => trivial
    · cases h; exact hs.goto hpc id
  · rename_i hpc _; exact hs.acquire h hpc id id
  · rename_i hpc _; cases h; exact hs.goto hpc id
  · rename_i o _ hpc _; cases h; exact hs.setObj hpc id (hs.zero o)
  · rename_i hpc _; exact hs.release h hpc id id
  · rename_i hpc _; cases h; exact hs.move hpc rfl (fun _ => trivial) rfl (.inl rfl) hs.zero
  · rename_i hpc _; cases h; exact hs.move hpc rfl (fun _ => trivial) rfl (.inr rfl) hs.zero
  · rename_i hpc _; cases h; exact hs.move hpc rfl id rfl (.inr rfl) hs.zero
  · rename_i hpc _; cases h; exact hs.goto hpc id
  · rename_i hpc _; cases h; exact hs.goto hpc fun _ => trivial
  -- `work`
  · rename_i o hpc _
    cases h
    refine hs.goto hpc fun hc o' ho => ?_
    cases ho
    exact hc
  · rename_i res hpc hpoints; cases h; exact hs.goto hpc fun hc => ⟨hc, hres res hpoints⟩
  · rename_i hpc _; exact hs.acquire h hpc id And.left
  · rename_i o _ _ hpc _
    cases h
    exact hs.goto hpc fun hc => ⟨hc.1, hc.2, hs.zero o hc.1⟩
  · rename_i o _ res hit hpc _
    cases h
    refine hs.setObj hpc And.left fun hc => ?_
    -- nothing is added to 0
    show u64 (hit + res) = 0
    rw [hc.2.1, hc.2.2]
    rfl
  · rename_i hpc _; cases h; exact hs.goto hpc id
  · rename_i o _ _ _ hpc _; cases h; exact hs.setObj hpc id (hs.zero o)
  · rename_i hpc _; exact hs.release h hpc id id
  -- the guarded section of `finish`
  · rename_i hpc _; cases h; exact hs.goto hpc id
  · rename_i hpc _; cases h; exact hs.leave hpc
  · rename_i hpc _; exact hs.acquire h hpc id id
  · rename_i hpc _; cases h; exact hs.goto hpc id
  · rename_i hpc _; exact hs.release h hpc id id
  · rename_i o hpc _; cases h; exact hs.setObj hpc (fun _ => trivial) (hs.zero o)
  · rename_i hpc _
    split at h
    · cases h; exact hs.goto hpc fun _ => trivial
    · cases h; exact hs.move hpc rfl (fun _ => trivial) rfl (.inl rfl) hs.zero
  · rename_i hpc _; cases h; exact hs.goto hpc fun _ => trivial
  · rename_i hpc _
    split at h
    · cases h; exact hs.goto hpc fun _ => trivial
    · cases h; exact hs.move hpc rfl (fun _ => trivial) rfl (.inr rfl) hs.zero
  · rename_i hpc _; cases h; exact hs.goto hpc fun _ => trivial
  · rename_i hpc _; cases h; exact hs.move hpc rfl (fun _ => trivial) rfl (.inr rfl) hs.zero
  · rename_i hpc _; cases h; exact hs.goto hpc fun _ => trivial
  · cases h

omit [DecidableEq π] [Zero F] [BEq F] in
theorem start_calm (h : s.Start) : Calm s := by
  obtain ⟨hpc, -, -, -, hobjs, hname⟩ := h
  refine ⟨fun o ho => ?_, fun o ho => ?_, fun q => ?_⟩
  · rw [hobjs] at ho; cases ho
  · rw [hname] at ho; cases ho
  · rw [hpc]
    exact fun o ho => by cases ho

end

/-! ## Runs -/

variable {args : π → Args F}

theorem sampled_calm {s t : State π F} {e : π × Event} (hs : Calm s) (he : NoPoints args e)
    (h : (sampled args).next s e = some t) : Calm t := by
  refine hs.next (fun res hres => ?_) h
  obtain ⟨p, e⟩ := e
  cases e with
  | ok | fail | eintr => cases hres
  | draws sample =>
    have hnone := randomizePoints_none sample (he sample rfl)
    obtain rfl := Outcome.points.inj hres
    rw [hnone]

theorem exact_step {s : State π F} {e : π × Event} (hs : Calm s) (he : NoPoints args e) :
    Exact args s e where
  counts sample hsample hN := (counts_iff _ sample).mpr (Int.le_antisymm (he sample hsample) hN)
  totals o n res tried t hpc h := by
    have hcalm := sampled_calm hs he h
    have hidle := hs.idle e.1
    rw [hpc] at hidle
    have hzero := hs.zero o hidle
    unfold sampled State.next at h
    dsimp only at h
    rw [hpc] at h
    cases hout : e.2.outcome (args e.1).N with
    | ok =>
      rw [hout] at h
      cases h
      show (Function.update s.obj o _ o).hit ≤ (Function.update s.obj o _ o).tried
      rw [Function.update_self]
      show (s.obj o).hit ≤ u64 (tried + (args e.1).N)
      rw [hzero]
      exact Int.emod_nonneg _ (by decide)
    | fail | eintr | points => rw [hout] at h; cases h

/-- **The hits of a batch are counted exactly when no point is drawn.** The loop variable is
raised for a hit and for a draw, so what `randomize_points` returns is the number of both
together, and of a positive `N` fewer points are drawn or more are returned than hit. Along a
run the batches are counted, and `hit` does not exceed `tried` after an update, exactly when
every process that calls `randomize_points` has an `N` of at most 0. -/
theorem points_counted_iff (args : π → Args F) :
    (∀ N sample, 0 ≤ N → (Counts N sample ↔ N = 0)) ∧
      ∀ s as, State.Start s → ((sampled args).Along (Exact args) s as ↔
        (sampled args).Along (fun _ => NoPoints args) s as) := by
  refine ⟨fun N sample _ => counts_iff N sample, fun s as hs => ⟨fun h => ?_, fun h => ?_⟩⟩
  · refine h.mono fun s e hexact sample hsample => ?_
    by_cases hN : 0 ≤ (args e.1).N
    · exact Int.le_of_eq ((counts_iff _ sample).mp (hexact.counts sample hsample hN))
    · exact Int.le_of_not_le hN
  · exact LTS.along_imp (fun s e t hI hC hn => sampled_calm hI hC hn)
      (fun s e hI hC => exact_step hI hC) (start_calm hs) h

def calls (p : π) (n : Nat) : List (π × Event) := List.replicate n (p, .ok)

/-- A batch of 0 points. -/
theorem points_counted_zero :
    (sampled fun _ : Unit => { defaults with N := 0 }).Along
      (Exact fun _ => { defaults with N := 0 }) (fresh Unit)
      (calls () 14 ++ [((), .draws fun _ => true)] ++ calls () 6) :=
  ((points_counted_iff fun _ => { defaults with N := 0 }).2 _ _ fresh_start).mpr
    (LTS.along_of_mem fun _ _ _ _ => Int.le_refl 0)

/-- **A hit is counted twice.** With an `N` of 1 and a first point that hits, the call
returns 2, and after the update `hit` is 2 and `tried` is 1. -/
theorem points_overcounted : ¬ Counts 1 (fun _ => true) ∧
    ∃ s : State Unit Int, (sampled fun _ => { defaults with N := 1 }).exec (fresh Unit)
        (calls () 14 ++ [((), .draws fun _ => true)] ++ calls () 5) = some s ∧
      s.pc () = .workUnlock 0 2 ∧ (s.obj 0).hit = 2 ∧ (s.obj 0).tried = 1 := by
  refine ⟨fun h => absurd ((counts_iff 1 _).mp h) (by decide), ?_⟩
  have hrun : ((sampled fun _ => { defaults with N := 1 }).exec (fresh Unit)
      (calls () 14 ++ [((), .draws fun _ => true)] ++ calls () 5)).map
        (fun s => (s.pc (), (s.obj 0).hit, (s.obj 0).tried)) = some (.workUnlock 0 2, 2, 1) := by
    decide +kernel
  obtain ⟨s, hs, heq⟩ := Option.map_eq_some_iff.mp hrun
  simp only [Prod.mk.injEq] at heq
  exact ⟨s, hs, heq⟩

end Ops.Shm
