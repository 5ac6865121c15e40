import Ops.Lib.Update
import Ops.Shm.Guard

/-!
# Exclusive initialisation

One semaphore lets one process inside, and then an object that has the name is
ready, or the process inside is initialising it (`init_exclusive`). The last
process unlinks the semaphore before it posts, so two semaphores can let two
processes inside (`init_overlap`).
-/

namespace Ops.Shm

variable {π F : Type} [DecidableEq π] {s t : State π F} {act : Act π}

/-- No process gets past `sem_timedwait` while one is inside with another semaphore. -/
def Alone (s : State π F) (act : Act π) : Prop :=
  act.outcome = .ok → ∀ x ∈ (s.pc act.proc).awaits, ∀ q, ∀ y ∈ (s.pc q).inside, y = x

instance {n : Nat} (s : State (Fin n) F) (act : Act (Fin n)) : Decidable (Alone s act) :=
  inferInstanceAs (Decidable (_ → _))

/-! ## One process inside -/

structure Exclusive (s : State π F) : Prop where
  val : ∀ x, s.sem x ≤ 1
  made : ∀ x, 0 < s.sem x → x < s.sems
  held : ∀ p x, (s.pc p).holds = some x → s.sem x = 0 ∧ x < s.sems
  holder : ∀ p q x, (s.pc p).holds = some x → (s.pc q).holds = some x → p = q
  alone : ∀ p q x y, (s.pc p).inside = some x → (s.pc q).inside = some y → p = q

omit [DecidableEq π] in
theorem Exclusive.only {p q : π} {x o : Nat} (hs : Exclusive s) (hp : (s.pc p).inside = some x)
    (hq : (s.pc q).initing = some o) : q = p := by
  obtain ⟨y, hy⟩ := Option.ne_none_iff_exists'.mp (Pc.initing_inside hq)
  exact hs.alone q p y x hy hp

theorem Exclusive.quiet {c : Pc} {p : π} (hs : Exclusive s) (hpc : t.pc = Function.update s.pc p c)
    (hsem : t.sem = s.sem) (hsems : t.sems = s.sems)
    (hholds : c.holds = none ∨ c.holds = (s.pc p).holds)
    (hinside : c.inside = none ∨ c.inside = (s.pc p).inside) : Exclusive t where
  val := hsem ▸ hs.val
  made := hsem ▸ hsems ▸ hs.made
  held q x h := by
    rw [hsem, hsems]
    exact hs.held q x (update_sub hpc hholds h)
  holder q r x hq hr := hs.holder q r x (update_sub hpc hholds hq) (update_sub hpc hholds hr)
  alone q r x y hq hr := hs.alone q r x y (update_sub hpc hinside hq) (update_sub hpc hinside hr)

theorem Exclusive.opened {entry : Option Nat} (hs : Exclusive s) :
    Exclusive ({ s.setSem s.sems 1 with semName := some s.sems, sems := s.sems + 1 }.goto act.proc
      (.clock s.sems entry)) where
  val x := by
    show Function.update s.sem s.sems 1 x ≤ 1
    by_cases hx : x = s.sems
    · exact Nat.le_of_eq (by rw [hx, Function.update_self])
    · rw [Function.update_of_ne hx]; exact hs.val x
  made x h := by
    show x < s.sems + 1
    by_cases hx : x = s.sems
    · omega
    · have hmade := hs.made x (by rwa [← Function.update_of_ne (f := s.sem) (v := 1) hx])
      omega
  held q x h := by
    obtain ⟨hzero, hlt⟩ := hs.held q x (update_sub rfl (.inl rfl) h)
    refine ⟨?_, Nat.lt_succ_of_lt hlt⟩
    show Function.update s.sem s.sems 1 x = 0
    rw [Function.update_of_ne (Nat.ne_of_lt hlt), hzero]
  holder q r x hq hr := hs.holder q r x (update_sub rfl (.inl rfl) hq) (update_sub rfl (.inl rfl) hr)
  alone q r x y hq hr := hs.alone q r x y (update_sub rfl (.inl rfl) hq) (update_sub rfl (.inl rfl) hr)

/-- `sem_timedwait` takes a semaphore that nobody holds, with nobody inside. -/
theorem Exclusive.taken {x : Nat} {entry : Option Nat} {c : Pc} (hs : Exclusive s)
    (hpc : s.pc act.proc = .wait x entry) (hok : act.outcome = .ok) (hpos : 0 < s.sem x)
    (hholds : c.holds = some x) (ha : Alone s act) :
    Exclusive ((s.setSem x (s.sem x - 1)).goto act.proc c) := by
  have hnone : ∀ q, (s.pc q).holds ≠ some x := fun q hq => by
    have hzero := (hs.held q x hq).1
    omega
  have hempty : ∀ q y, (s.pc q).inside ≠ some y := fun q y hq => by
    have hy := ha hok x (by rw [hpc]; rfl) q y hq
    exact hnone q (hy ▸ Pc.inside_holds hq)
  have hle : ∀ y, (Function.update s.sem x (s.sem x - 1)) y ≤ s.sem y := fun y => by
    by_cases hy : y = x
    · rw [hy, Function.update_self]; omega
    · exact Nat.le_of_eq (Function.update_of_ne hy ..)
  refine ⟨fun y => Nat.le_trans (hle y) (hs.val y),
    fun y h => hs.made y (Nat.lt_of_lt_of_le h (hle y)), ?_, ?_, ?_⟩
  · intro q y h
    show Function.update s.sem x (s.sem x - 1) y = 0 ∧ y < s.sems
    rcases update_cases rfl h with ⟨-, h⟩ | ⟨-, h⟩
    · obtain rfl : x = y := Option.some.inj (hholds.symm.trans h)
      have hval := hs.val x
      rw [Function.update_self]
      exact ⟨by omega, hs.made x hpos⟩
    · obtain ⟨hzero, hlt⟩ := hs.held q y h
      exact ⟨Nat.le_zero.mp (hzero ▸ hle y), hlt⟩
  · intro q r y hq hr
    rcases update_cases rfl hq with ⟨rfl, hc⟩ | ⟨-, hq⟩
    · obtain rfl : x = y := Option.some.inj (hholds.symm.trans hc)
      rcases update_cases rfl hr with ⟨rfl, -⟩ | ⟨-, hr⟩
      · rfl
      · exact absurd hr (hnone r)
    · rcases update_cases rfl hr with ⟨rfl, hc⟩ | ⟨-, hr⟩
      · obtain rfl : x = y := Option.some.inj (hholds.symm.trans hc)
        exact absurd hq (hnone q)
      · exact hs.holder q r y hq hr
  · intro q r y z hq hr
    rcases update_cases rfl hq with ⟨rfl, -⟩ | ⟨-, hq⟩
    · rcases update_cases rfl hr with ⟨rfl, -⟩ | ⟨-, hr⟩
      · rfl
      · exact absurd hr (hempty r z)
    · exact absurd hq (hempty q y)

theorem Exclusive.posted {x : Nat} {c : Pc} (hs : Exclusive s)
    (hheld : (s.pc act.proc).holds = some x) (hholds : c.holds = none) (hinside : c.inside = none) :
    Exclusive ((s.post x).goto act.proc c) := by
  obtain ⟨hzero, hlt⟩ := hs.held _ x hheld
  have hother : ∀ y, y ≠ x → (s.post x).sem y = s.sem y := fun y hy => Function.update_of_ne hy ..
  have hone : (s.post x).sem x = 1 := by
    show Function.update s.sem x (s.sem x + 1) x = 1
    rw [Function.update_self, hzero]
  have hsub : ∀ {q y}, (((s.post x).goto act.proc c).pc q).holds = some y →
      (s.pc q).holds = some y := update_sub rfl (.inl hholds)
  refine ⟨fun y => ?_, fun y h => ?_, fun q y h => ?_, ?_, ?_⟩
  · by_cases hy : y = x
    · rw [hy]; exact Nat.le_of_eq hone
    · rw [show ((s.post x).goto act.proc c).sem y = s.sem y from hother y hy]
      exact hs.val y
  · by_cases hy : y = x
    · exact hy ▸ hlt
    · exact hs.made y (by rwa [← hother y hy])
  · have hq := hsub h
    have hy : y ≠ x := by
      rintro rfl
      -- the process of the step is the only holder, and it holds nothing now
      obtain rfl := hs.holder q _ y hq hheld
      rw [State.goto_self, hholds] at h
      cases h
    exact ⟨(hother y hy).trans (hs.held q y hq).1, (hs.held q y hq).2⟩
  · exact fun q r y hq hr => hs.holder q r y (hsub hq) (hsub hr)
  · exact fun q r y z hq hr =>
      hs.alone q r y z (update_sub rfl (.inl hinside) hq) (update_sub rfl (.inl hinside) hr)

theorem Exclusive.next [BEq F] {args : π → Args F} (hs : Exclusive s) (ha : Alone s act)
    (h : Effect args s act t) : Exclusive t := by
  cases h with
  | move hpc hstill _ hsem hsems _ _ =>
    exact hs.quiet hpc hsem hsems (.inr hstill.holds) hstill.inside
  | abandoned _ => exact hs.quiet rfl rfl rfl (.inl rfl) (.inl rfl)
  | opened _ _ => exact hs.opened
  | taken hpc hok hpos hholds _ _ => exact hs.taken hpc hok hpos hholds ha
  | posted hheld hholds hinside _ _ => exact hs.posted hheld hholds hinside
  | created hpc _ _ _ | reopened hpc _ | joined hpc _ =>
    exact hs.quiet rfl rfl rfl (.inr (by rw [hpc]; rfl)) (.inr (by rw [hpc]; rfl))
  | published hpc _ => exact hs.quiet rfl rfl rfl (.inr (by rw [hpc]; rfl)) (.inl rfl)

/-! ## What is known of the objects -/

structure Known (s : State π F) : Prop where
  fresh : ∀ p o, (s.pc p).initing = some o → (s.obj o).ready = false ∧ o < s.objs
  named : ∀ o, s.shmName = some o →
    o < s.objs ∧ ((s.obj o).ready = true ∨ ∃ p, (s.pc p).initing = some o)
  used : ∀ p o, (s.pc p).uses = some o → (s.obj o).ready = true ∧ o < s.objs
  unjoined : ∀ o, o < s.objs → (s.obj o).ready = false → (s.obj o).joined = []

theorem Known.quiet {c : Pc} {p : π} (hs : Known s) (hpc : t.pc = Function.update s.pc p c)
    (hname : (t.shmName = s.shmName ∧ c.initing = (s.pc p).initing) ∨
      (t.shmName = none ∧ c.initing = none))
    (huses : ∀ o, c.uses = some o → (s.obj o).ready = true ∧ o < s.objs) (hobjs : t.objs = s.objs)
    (hready : ∀ o, (t.obj o).ready = (s.obj o).ready)
    (hjoined : ∀ o, (s.obj o).ready = false → (t.obj o).joined = (s.obj o).joined) : Known t := by
  have hinit : c.initing = none ∨ c.initing = (s.pc p).initing := by
    rcases hname with ⟨-, h⟩ | ⟨-, h⟩
    · exact .inr h
    · exact .inl h
  refine ⟨fun q o h => ?_, fun o h => ?_, fun q o h => ?_, fun o hlt h => ?_⟩
  · rw [hready, hobjs]
    exact hs.fresh q o (update_sub hpc hinit h)
  · rcases hname with ⟨hsame, hc⟩ | ⟨hnone, -⟩
    · rw [hready, hobjs]
      obtain ⟨hlt, hnamed⟩ := hs.named o (hsame ▸ h)
      refine ⟨hlt, hnamed.imp_right fun ⟨q, hq⟩ => ⟨q, ?_⟩⟩
      rw [hpc]
      by_cases hqp : q = p
      · rw [hqp, Function.update_self, hc, ← hqp, hq]
      · rw [Function.update_of_ne hqp, hq]
    · rw [hnone] at h; cases h
  · rw [hready, hobjs]
    rcases update_cases hpc h with ⟨-, hc⟩ | ⟨-, h⟩
    · exact huses o hc
    · exact hs.used q o h
  · rw [hready] at h
    rw [hjoined o h]
    exact hs.unjoined o (hobjs ▸ hlt) h

omit [DecidableEq π] in
theorem Known.kept {c : Pc} {p : π} (hs : Known s) (h : c.uses = none ∨ c.uses = (s.pc p).uses)
    (o : Nat) (hc : c.uses = some o) : (s.obj o).ready = true ∧ o < s.objs := by
  rcases h with h | h
  · rw [h] at hc; cases hc
  · exact hs.used p o (h ▸ hc)

theorem Known.created {x : Nat} {k : Obj π F} (hs : Known s) (hready : k.ready = false)
    (hjoined : k.joined = []) :
    Known ({ s.setObj s.objs k with shmName := some s.objs, objs := s.objs + 1 }.goto act.proc
      (.truncate x s.objs)) := by
  have hnew : Function.update s.obj s.objs k s.objs = k := Function.update_self ..
  have hold : ∀ o, o < s.objs → Function.update s.obj s.objs k o = s.obj o := fun o ho =>
    Function.update_of_ne (Nat.ne_of_lt ho) ..
  refine ⟨fun q o h => ?_, fun o h => ?_, fun q o h => ?_, fun o hlt h => ?_⟩
  · show (Function.update s.obj s.objs k o).ready = false ∧ o < s.objs + 1
    rcases update_cases rfl h with ⟨-, hc⟩ | ⟨-, hq⟩
    · obtain rfl : s.objs = o := Option.some.inj hc
      rw [hnew]
      exact ⟨hready, Nat.lt_succ_self _⟩
    · obtain ⟨hfresh, hlt⟩ := hs.fresh q o hq
      rw [hold o hlt]
      exact ⟨hfresh, Nat.lt_succ_of_lt hlt⟩
  · obtain rfl : s.objs = o := Option.some.inj h
    exact ⟨Nat.lt_succ_self _, .inr ⟨act.proc, by rw [State.goto_self]; rfl⟩⟩
  · show (Function.update s.obj s.objs k o).ready = true ∧ o < s.objs + 1
    obtain ⟨hused, hlt⟩ := hs.used q o (update_sub rfl (.inl rfl) h)
    rw [hold o hlt]
    exact ⟨hused, Nat.lt_succ_of_lt hlt⟩
  · change (Function.update s.obj s.objs k o).ready = false at h
    show (Function.update s.obj s.objs k o).joined = []
    rcases Nat.lt_succ_iff_lt_or_eq.mp hlt with hlt | rfl
    · rw [hold o hlt] at h ⊢
      exact hs.unjoined o hlt h
    · rw [hnew, hjoined]

/-- A process that opens the object by its name is inside, so nobody is initialising it. -/
theorem Known.reopened {x o : Nat} (hs : Known s) (he : Exclusive s)
    (hpc : s.pc act.proc = .reopen x) (hname : s.shmName = some o) :
    Known (s.goto act.proc (.map x o false)) := by
  obtain ⟨hlt, hnamed⟩ := hs.named o hname
  have hready : (s.obj o).ready = true := by
    rcases hnamed with h | ⟨q, hq⟩
    · exact h
    · obtain rfl := he.only (x := x) (by rw [hpc]; rfl) hq
      rw [hpc] at hq
      cases hq
  refine hs.quiet rfl (.inl ⟨rfl, by rw [hpc]; rfl⟩) (fun o' h => ?_) rfl (fun _ => rfl)
    fun _ _ => rfl
  obtain rfl : o = o' := Option.some.inj h
  exact ⟨hready, hlt⟩

theorem Known.joined {x o : Nat} {workers : Int} {k : Obj π F} (hs : Known s)
    (hpc : s.pc act.proc = .joinStore x o workers) (hk : k.ready = (s.obj o).ready) :
    Known ((s.setObj o k).goto act.proc (.joinUnlock x o)) := by
  have huses : (s.pc act.proc).uses = some o := by rw [hpc]; rfl
  refine hs.quiet rfl (.inl ⟨rfl, by rw [hpc]; rfl⟩) (hs.kept (.inr huses.symm)) rfl
    (fun o' => ?_) fun o' h => ?_
  · show (Function.update s.obj o k o').ready = (s.obj o').ready
    by_cases ho : o' = o
    · rw [ho, Function.update_self, hk]
    · rw [Function.update_of_ne ho]
  · have ho : o' ≠ o := by
      rintro rfl
      rw [(hs.used _ _ huses).1] at h
      cases h
    exact congrArg Obj.joined (Function.update_of_ne ho ..)

/-- The creator stores the last field: it was the only one to initialise an object. -/
theorem Known.published {x o : Nat} {k : Obj π F} (hs : Known s) (he : Exclusive s)
    (hpc : s.pc act.proc = .store x o .lock) (hk : k.ready = true) :
    Known ((s.setObj o k).goto act.proc (.post x o)) := by
  have hinit : (s.pc act.proc).initing = some o := by rw [hpc]; rfl
  have hin : (s.pc act.proc).inside = some x := by rw [hpc]; rfl
  have hlt : o < s.objs := (hs.fresh _ _ hinit).2
  have hnone : ∀ q o', (((s.setObj o k).goto act.proc (.post x o)).pc q).initing ≠ some o' :=
    fun q o' h => by
      obtain rfl := he.only hin (update_sub rfl (.inl rfl) h)
      rw [State.goto_self] at h
      cases h
  have hready : ∀ o', (s.obj o').ready = true ∨ o' = o →
      (Function.update s.obj o k o').ready = true := fun o' h => by
    by_cases ho : o' = o
    · rw [ho, Function.update_self, hk]
    · rw [Function.update_of_ne ho]
      exact h.resolve_right ho
  refine ⟨fun q o' h => absurd h (hnone q o'), fun o' h => ?_, fun q o' h => ?_, fun o' hlt' h => ?_⟩
  · obtain ⟨hlt', hnamed⟩ := hs.named o' h
    refine ⟨hlt', .inl (hready o' (hnamed.imp_right fun ⟨q, hq⟩ => ?_))⟩
    obtain rfl := he.only hin hq
    exact Option.some.inj (hq.symm.trans hinit)
  · rcases update_cases rfl h with ⟨-, hc⟩ | ⟨-, hq⟩
    · obtain rfl : o = o' := Option.some.inj hc
      exact ⟨hready o (.inr rfl), hlt⟩
    · obtain ⟨hused, hlt'⟩ := hs.used q o' hq
      exact ⟨hready o' (.inl hused), hlt'⟩
  · change (Function.update s.obj o k o').ready = false at h
    have ho : o' ≠ o := by
      rintro rfl
      rw [hready o' (.inr rfl)] at h
      cases h
    rw [Function.update_of_ne ho] at h
    exact (congrArg Obj.joined (Function.update_of_ne ho ..)).trans (hs.unjoined o' hlt' h)

theorem Known.next [BEq F] {args : π → Args F} (hs : Known s) (he : Exclusive s)
    (h : Effect args s act t) : Known t := by
  cases h with
  | abandoned ha =>
    exact hs.quiet rfl (.inl ⟨rfl, ha.initing.symm⟩) (fun _ h => by cases h) rfl (fun _ => rfl)
      fun _ _ => rfl
  | move hpc hstill hname _ _ hobjs hobj =>
    exact hs.quiet hpc hname (hs.kept hstill.uses) hobjs (fun o => (hobj o).1) fun o _ => (hobj o).2
  | opened hpc _ =>
    exact hs.quiet rfl (.inl ⟨rfl, by rw [hpc]; rfl⟩) (hs.kept (.inr (by rw [hpc]; rfl))) rfl
      (fun _ => rfl) fun _ _ => rfl
  | taken hpc _ _ _ hinit huses =>
    exact hs.quiet rfl (.inl ⟨rfl, by rw [hinit, hpc]; rfl⟩) (hs.kept huses) rfl (fun _ => rfl)
      fun _ _ => rfl
  | posted _ _ _ hinit huses =>
    exact hs.quiet rfl (.inl ⟨rfl, hinit⟩) (hs.kept huses) rfl (fun _ => rfl) fun _ _ => rfl
  | created _ _ hready hjoined => exact hs.created hready hjoined
  | reopened hpc hname => exact hs.reopened he hpc hname
  | published hpc hk => exact hs.published he hpc hk
  | joined hpc hk => exact hs.joined hpc hk

/-! ## Runs -/

omit [DecidableEq π] in
theorem start_exclusive (h : s.Start) : Exclusive s := by
  obtain ⟨hpc, hsem, -⟩ := h
  refine ⟨fun x => ?_, fun x hx => ?_, fun p x hx => ?_, fun p q x hx _ => ?_, fun p q x y hx _ => ?_⟩
  · rw [hsem]; exact Nat.zero_le 1
  · rw [hsem] at hx; cases hx
  all_goals rw [hpc] at hx; cases hx

omit [DecidableEq π] in
theorem start_known (h : s.Start) : Known s := by
  obtain ⟨hpc, -, -, -, hobjs, hname⟩ := h
  refine ⟨fun p o ho => ?_, fun o ho => ?_, fun p o ho => ?_, fun o ho => ?_⟩
  · rw [hpc] at ho; cases ho
  · rw [hname] at ho; cases ho
  · rw [hpc] at ho; cases ho
  · rw [hobjs] at ho; cases ho

/-- The default range and batch of `main`, which asks for three batches. -/
def defaults : Args Int := ⟨-1, 1, 1000, 3⟩

def fresh (π : Type) : State π Int where
  pc _ := .openSem none
  sem _ := 0
  sems := 0
  semName := none
  obj _ := .zero
  objs := 0
  shmName := none

def succeeds (p : π) (n : Nat) : List (Act π) := List.replicate n ⟨p, .ok⟩

def batch (p : π) (res : Int) : List (Act π) := ⟨p, .points res⟩ :: succeeds p 6

/-- `p` creates the object, works and destroys it, up to the `sem_unlink`. -/
def generation (p : π) : List (Act π) :=
  succeeds p 14 ++ batch p 700 ++ batch p 800 ++ batch p 750 ++ succeeds p 11

omit [DecidableEq π] in
theorem fresh_start : (fresh π).Start := ⟨fun _ => rfl, fun _ => rfl, rfl, rfl, rfl, rfl⟩

variable [Zero F] [BEq F] {args : π → Args F}

theorem exclusive_reach (h : (processes args).ReachIf Alone s) : Exclusive s ∧ Known s := by
  refine h.inv (I := fun s => Exclusive s ∧ Known s) (fun s hs => ?_) (fun s act t _ hs ha hn => ?_)
  · exact ⟨start_exclusive hs, start_known hs⟩
  · have heffect := next_effect hn
    exact ⟨hs.1.next ha heffect, hs.2.next hs.1 heffect⟩

/-- **Initialisation is exclusive** as long as nobody gets past `sem_timedwait` while
another process is inside with another semaphore: the fields and the mutex of an
object are used by others only once its creator has stored them all, and initial
values are stored only in an object nobody has joined. -/
theorem init_exclusive (h : (processes args).ReachIf Alone s) :
    (∀ p o, (s.pc p).touches = some o → (s.obj o).ready = true) ∧
      ∀ p o, (s.pc p).stores = some o → (s.obj o).joined = [] := by
  obtain ⟨-, hs⟩ := exclusive_reach h
  refine ⟨fun p o ho => (hs.used p o (Pc.touches_uses ho)).1, fun p o ho => ?_⟩
  obtain ⟨hready, hlt⟩ := hs.fresh p o (Pc.stores_initing ho)
  exact hs.unjoined o hlt hready

/-- Two generations one after the other: the third process joins the second object. -/
theorem init_exclusive_generations : ∃ s : State (Fin 3) Int,
    (processes fun _ => defaults).ReachIf Alone s ∧ (s.pc 2).touches = some 1 ∧
      (s.obj 1).ready = true := by
  have hrun : ((processes fun _ => defaults).execIf Alone (fresh (Fin 3))
      (generation 0 ++ succeeds 0 2 ++ succeeds 1 14 ++ succeeds 2 6)).map
        (fun s => (s.pc 2).touches) = some (some 1) := by decide +kernel
  obtain ⟨s, hs, htouches⟩ := Option.map_eq_some_iff.mp hrun
  have hr := LTS.ReachIf.execIf (.init fresh_start) hs
  exact ⟨s, hr, htouches, (init_exclusive hr).1 2 1 htouches⟩

/-- **Initialisation is not exclusive** when generations overlap. The second process
opens the semaphore before the first unlinks it, and takes it when the first posts;
the third makes a new semaphore, finds the second process's object under the name and
reads its range before it is stored. -/
theorem init_overlap : ∃ s : State (Fin 3) Int, (processes fun _ => defaults).Reach s ∧
    (s.pc 1).stores = some 1 ∧ (s.pc 2).touches = some 1 ∧ (s.obj 1).ready = false := by
  have hrun : ((processes fun _ => defaults).exec (fresh (Fin 3))
      (generation 0 ++ succeeds 1 2 ++ succeeds 0 2 ++ succeeds 1 4 ++ succeeds 2 6)).map
        (fun s => ((s.pc 1).stores, (s.pc 2).touches, (s.obj 1).ready)) =
          some (some 1, some 1, false) := by decide +kernel
  obtain ⟨s, hs, heq⟩ := Option.map_eq_some_iff.mp hrun
  simp only [Prod.mk.injEq] at heq
  exact ⟨s, LTS.Reach.exec (.init fresh_start) hs, heq⟩

end Ops.Shm
