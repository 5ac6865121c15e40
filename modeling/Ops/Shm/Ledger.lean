import Mathlib.Data.Fintype.Card
import Mathlib.Data.List.Nodup
import Ops.Lib.Update
import Ops.Shm.Deeds

/-!
# The account of an object

What the counters and the mutex of an object that is ready say about the processes:
who holds the mutex (`Locking`), who is a worker and what he has added
(`Workers`), what the counters add up to (`Totals`) and when the object ends
(`Ending`). Each part has a lemma for each step that concerns it, and a frame
lemma for the others.
-/

namespace Ops.Shm

variable {π F : Type} [DecidableEq π]

/-! ## The mutex -/

structure Locking (pc : π → Pc) (o : Nat) (lock : Mutex π) : Prop where
  held : ∀ p, lock = .held p ↔ (pc p).locked = some o
  made : lock ≠ .raw

variable {args : π → Args F} {pc : π → Pc} {p : π} {c : Pc} {o : Nat} {lock : Mutex π}

theorem Locking.frame (h : Locking pc o lock) (hlocked : c.locked = (pc p).locked) :
    Locking (Function.update pc p c) o lock := by
  refine ⟨fun q => ?_, h.made⟩
  by_cases hq : q = p
  · rw [hq, Function.update_self, hlocked]; exact h.held p
  · rw [Function.update_of_ne hq]; exact h.held q

theorem Locking.acquire (h : Locking pc o .free) (hlocked : c.locked = some o) :
    Locking (Function.update pc p c) o (.held p) := by
  refine ⟨fun q => ?_, nofun⟩
  by_cases hq : q = p
  · rw [hq, Function.update_self, hlocked]; exact ⟨fun _ => rfl, fun _ => rfl⟩
  · rw [Function.update_of_ne hq, ← h.held q]
    exact ⟨fun hp => absurd (Mutex.held.inj hp).symm hq, nofun⟩

/-- Nobody but `p` holds the mutex, and it goes to a value that nobody holds. -/
theorem Locking.drop {lock' : Mutex π} (h : ∀ q, q ≠ p → (pc q).locked ≠ some o)
    (hlocked : c.locked ≠ some o) (hheld : ∀ q, lock' ≠ .held q) (hraw : lock' ≠ .raw) :
    Locking (Function.update pc p c) o lock' := by
  refine ⟨fun q => ⟨fun hq => absurd hq (hheld q), fun hq => ?_⟩, hraw⟩
  rcases update_cases rfl hq with ⟨-, hc⟩ | ⟨hne, hq⟩
  · exact absurd hc hlocked
  · exact absurd hq (h q hne)

/-! ## The workers -/

def added (batches : List (π × Int × Int)) (p : π) : Nat :=
  (batches.filter fun b => b.1 = p).length

structure Workers (args : π → Args F) (pc : π → Pc) (o : Nat) (joined left : List π)
    (batches : List (π × Int × Int)) : Prop where
  made : joined ≠ []
  nodup : joined.Nodup
  nodupLeft : left.Nodup
  leaver : ∀ p ∈ left, p ∈ joined ∧ added batches p = (args p).t
  outside : ∀ p, (pc p).outside = true → p ∉ joined
  due : ∀ p n, (pc p).due (args p).t = some (o, n) →
    p ∈ joined ∧ p ∉ left ∧ added batches p + n = (args p).t
  batch : ∀ b ∈ batches, b.1 ∈ joined ∧ b.2.2 = (args b.1).N

variable {joined left : List π} {batches : List (π × Int × Int)}

/-- What a process has still to do in an object after a step. -/
theorem due_cases {q : π} {v : Nat × Nat}
    (hq : (Function.update pc p c q).due (args q).t = some v) :
    q = p ∧ c.due (args p).t = some v ∨ q ≠ p ∧ (pc q).due (args q).t = some v := by
  by_cases hqp : q = p
  · subst hqp
    rw [Function.update_self] at hq
    exact .inl ⟨rfl, hq⟩
  · rw [Function.update_of_ne hqp] at hq
    exact .inr ⟨hqp, hq⟩

namespace Workers

theorem start (hdue : ∀ q n, (pc q).due (args q).t ≠ some (o, n))
    (hc : c.due (args p).t = some (o, (args p).t)) (hout : c.outside = false) :
    Workers args (Function.update pc p c) o [p] [] [] := by
  refine ⟨nofun, List.nodup_singleton p, List.nodup_nil, nofun, fun q hq => ?_, fun q n hq => ?_, nofun⟩
  · rcases update_cases (f := Pc.outside) rfl hq with ⟨-, h⟩ | ⟨hne, -⟩
    · rw [hout] at h; cases h
    · exact fun hmem => hne (List.mem_singleton.mp hmem)
  · rcases due_cases hq with ⟨rfl, hq⟩ | ⟨-, hq⟩
    · rw [hc] at hq
      cases hq
      exact ⟨List.mem_singleton_self q, List.not_mem_nil, Nat.zero_add _⟩
    · exact absurd hq (hdue q n)

theorem frame (h : Workers args pc o joined left batches)
    (hdue : c.due (args p).t = none ∨ c.due (args p).t = (pc p).due (args p).t)
    (hout : c.outside = true → (pc p).outside = true) :
    Workers args (Function.update pc p c) o joined left batches := by
  refine ⟨h.made, h.nodup, h.nodupLeft, h.leaver, fun q hq => ?_, fun q n hq => ?_, h.batch⟩
  · exact h.outside q (update_flag (f := Pc.outside) rfl hout hq)
  · rcases due_cases hq with ⟨rfl, hq⟩ | ⟨-, hq⟩
    · rcases hdue with hdue | hdue
      · rw [hdue] at hq; cases hq
      · exact h.due q n (hdue ▸ hq)
    · exact h.due q n hq

theorem join (h : Workers args pc o joined left batches) (hp : (pc p).outside = true)
    (hc : c.due (args p).t = some (o, (args p).t))
    (hout : c.outside = false) :
    Workers args (Function.update pc p c) o (joined ++ [p]) left batches := by
  have hnew := h.outside p hp
  have hnone : added batches p = 0 := by
    refine List.length_eq_zero_iff.mpr (List.filter_eq_nil_iff.mpr fun b hb hbp => hnew ?_)
    exact of_decide_eq_true hbp ▸ (h.batch b hb).1
  refine ⟨List.append_ne_nil_of_left_ne_nil h.made _, h.nodup.append (List.nodup_singleton p) ?_,
    h.nodupLeft, fun q hq => ?_, fun q hq => ?_, fun q n hq => ?_, fun b hb => ?_⟩
  · exact List.disjoint_singleton.mpr hnew
  · obtain ⟨hmem, hadded⟩ := h.leaver q hq
    exact ⟨List.mem_append_left _ hmem, hadded⟩
  · rcases update_cases (f := Pc.outside) rfl hq with ⟨-, hc'⟩ | ⟨hne, hq⟩
    · rw [hout] at hc'; cases hc'
    · intro hmem
      rcases List.mem_append.mp hmem with hmem | hmem
      · exact h.outside q hq hmem
      · exact hne (List.mem_singleton.mp hmem)
  · rcases due_cases hq with ⟨rfl, hq⟩ | ⟨-, hq⟩
    · rw [hc] at hq
      cases hq
      refine ⟨List.mem_append_right _ (List.mem_singleton_self q), fun hmem => ?_, by omega⟩
      exact hnew (h.leaver q hmem).1
    · obtain ⟨hmem, hleft, hadded⟩ := h.due q n hq
      exact ⟨List.mem_append_left _ hmem, hleft, hadded⟩
  · obtain ⟨hmem, hN⟩ := h.batch b hb
    exact ⟨List.mem_append_left _ hmem, hN⟩

theorem length_lt (h : Workers args pc o joined left batches) (hp : p ∈ joined)
    (hleft : p ∉ left) : left.length < joined.length := by
  have hnodup : (p :: left).Nodup := List.nodup_cons.mpr ⟨hleft, h.nodupLeft⟩
  have hsub : p :: left ⊆ joined := List.cons_subset.mpr ⟨hp, fun q hq => (h.leaver q hq).1⟩
  exact (hnodup.subperm hsub).length_le

theorem length_le (h : Workers args pc o joined left batches) : left.length ≤ joined.length :=
  (h.nodupLeft.subperm fun q hq => (h.leaver q hq).1).length_le

theorem add {n : Nat} {res : Int} (h : Workers args pc o joined left batches)
    (hp : (pc p).due (args p).t = some (o, n + 1)) (hc : c.due (args p).t = some (o, n))
    (hout : c.outside = false) :
    Workers args (Function.update pc p c) o joined left (batches ++ [(p, res, (args p).N)]) := by
  obtain ⟨hmem, hleft, hadded⟩ := h.due p (n + 1) hp
  have hother : ∀ q, q ≠ p → added (batches ++ [(p, res, (args p).N)]) q = added batches q :=
    fun q hq => by
      have hfilter : [(p, res, (args p).N)].filter (fun b => b.1 = q) = [] :=
        List.filter_cons_of_neg (by simpa using Ne.symm hq)
      rw [added, List.filter_append, hfilter, List.append_nil, added]
  have hself : added (batches ++ [(p, res, (args p).N)]) p = added batches p + 1 := by
    have hfilter : [(p, res, (args p).N)].filter (fun b => b.1 = p) = [(p, res, (args p).N)] :=
      List.filter_cons_of_pos (decide_eq_true rfl)
    rw [added, List.filter_append, hfilter, List.length_append, added, List.length_singleton]
  refine ⟨h.made, h.nodup, h.nodupLeft, fun q hq => ?_, fun q hq => ?_, fun q m hq => ?_,
    fun b hb => ?_⟩
  · obtain ⟨hjoined, hall⟩ := h.leaver q hq
    refine ⟨hjoined, (hother q ?_).trans hall⟩
    rintro rfl
    exact hleft hq
  · rcases update_cases (f := Pc.outside) rfl hq with ⟨-, hc'⟩ | ⟨-, hq⟩
    · rw [hout] at hc'; cases hc'
    · exact h.outside q hq
  · rcases due_cases hq with ⟨rfl, hq⟩ | ⟨hqp, hq⟩
    · rw [hc] at hq
      cases hq
      exact ⟨hmem, hleft, by omega⟩
    · rw [hother q hqp]
      exact h.due q m hq
  · rcases List.mem_append.mp hb with hb | hb
    · exact h.batch b hb
    · rw [List.mem_singleton.mp hb]
      exact ⟨hmem, rfl⟩

theorem leave (h : Workers args pc o joined left batches)
    (hp : (pc p).due (args p).t = some (o, 0)) (hc : c.due (args p).t = none)
    (hout : c.outside = false) :
    Workers args (Function.update pc p c) o joined (left ++ [p]) batches := by
  obtain ⟨hmem, hleft, hadded⟩ := h.due p 0 hp
  refine ⟨h.made, h.nodup, h.nodupLeft.append (List.nodup_singleton p) ?_, fun q hq => ?_,
    fun q hq => ?_, fun q m hq => ?_, h.batch⟩
  · exact List.disjoint_singleton.mpr hleft
  · rcases List.mem_append.mp hq with hq | hq
    · exact h.leaver q hq
    · rw [List.mem_singleton.mp hq]
      exact ⟨hmem, hadded⟩
  · rcases update_cases (f := Pc.outside) rfl hq with ⟨-, hc'⟩ | ⟨-, hq⟩
    · rw [hout] at hc'; cases hc'
    · exact h.outside q hq
  · rcases due_cases hq with ⟨rfl, hq⟩ | ⟨hqp, hq⟩
    · rw [hc] at hq
      cases hq
    · obtain ⟨hjoined, hnot, hrest⟩ := h.due q m hq
      refine ⟨hjoined, fun hq' => ?_, hrest⟩
      rcases List.mem_append.mp hq' with hq' | hq'
      · exact hnot hq'
      · exact hqp (List.mem_singleton.mp hq')

/-- All have left: nobody has anything to do with the object. -/
theorem done (h : Workers args pc o joined left batches) (hlen : left.length = joined.length)
    {q : π} {n : Nat} : (pc q).due (args q).t ≠ some (o, n) := fun hq => by
  obtain ⟨hmem, hleft, -⟩ := h.due q n hq
  have hlt := h.length_lt hmem hleft
  omega

end Workers

/-! ## The counters -/

theorem u64_add (a b : Int) : u64 (u64 a + b) = u64 (a + b) := Int.emod_add_emod ..

/-- What the holder of the mutex has added to `hit` and not yet to `tried`. -/
def Mutex.pend (lock : Mutex π) (pc : π → Pc) : Int :=
  match lock with
  | .held p => (pc p).pend
  | _ => 0

theorem Mutex.pend_frame (lock : Mutex π) (hpend : c.pend = (pc p).pend) :
    lock.pend (Function.update pc p c) = lock.pend pc := by
  cases lock with
  | held q =>
    show (Function.update pc p c q).pend = (pc q).pend
    by_cases hq : q = p
    · rw [hq, Function.update_self, hpend]
    · rw [Function.update_of_ne hq]
  | raw | free | destroyed => rfl

structure Totals (pc : π → Pc) (o : Nat) (k : Obj π F) : Prop where
  loaded : ∀ p f v, (pc p).loaded = some (o, f, v) → v = k.count f
  workers : k.workers = k.joined.length - k.left.length
  hit : k.hit = u64 ((k.batches.map fun b => b.2.1).sum + k.lock.pend pc)
  tried : k.tried = u64 (k.batches.map fun b => b.2.2).sum

namespace Totals

variable {k : Obj π F}

theorem loaded_update {k' : Obj π F} (h : Totals pc o k)
    (hc : ∀ f v, c.loaded = some (o, f, v) → v = k'.count f)
    (hothers : ∀ q f v, q ≠ p → (pc q).loaded = some (o, f, v) → k'.count f = k.count f) :
    ∀ q f v, (Function.update pc p c q).loaded = some (o, f, v) → v = k'.count f := by
  intro q f v hq
  rcases update_cases (f := Pc.loaded) rfl hq with ⟨-, hload⟩ | ⟨hne, hload⟩
  · exact hc f v hload
  · rw [hothers q f v hne hload]
    exact h.loaded q f v hload

/-- A step of the process that changes no counter, and takes or gives back the mutex at most. -/
theorem frame {lock : Mutex π} (h : Totals pc o k)
    (hc : ∀ f v, c.loaded = some (o, f, v) → v = k.count f)
    (hpend : lock.pend (Function.update pc p c) = k.lock.pend pc) :
    Totals (Function.update pc p c) o { k with lock := lock } := by
  refine ⟨h.loaded_update (fun f v hv => ?_) (fun q f v _ _ => ?_), h.workers, ?_, h.tried⟩
  · rw [hc f v hv]; cases f <;> rfl
  · cases f <;> rfl
  · exact hpend ▸ h.hit

theorem recount {w d : Int} {joined left zeros : List π} (h : Totals pc o k)
    (hp : (pc p).loaded = some (o, .workers, w)) (hc : c.loaded = none) (hpend : c.pend = (pc p).pend)
    (halone : ∀ q v, q ≠ p → (pc q).loaded ≠ some (o, .workers, v))
    (hcount : (joined.length : Int) - left.length = k.joined.length - k.left.length + d)
    (hle : left.length ≤ joined.length) (hlt : joined.length < 2 ^ 64) :
    Totals (Function.update pc p c) o
      { k with workers := u64 (w + d), joined := joined, left := left, zeros := zeros } := by
  have hw : w = k.workers := h.loaded p _ w hp
  refine ⟨h.loaded_update (fun f v hv => ?_) (fun q f v hq hv => ?_), ?_, ?_, h.tried⟩
  · rw [hc] at hv; cases hv
  · cases f with
    | workers => exact absurd hv (halone q v hq)
    | tried | hit => rfl
  · show u64 (w + d) = joined.length - left.length
    rw [hw, h.workers, ← hcount]
    exact Int.emod_eq_of_lt (by omega) (by omega)
  · rw [Mutex.pend_frame k.lock hpend]
    exact h.hit

theorem addHit {n : Nat} {res v : Int} (h : Totals pc o k) (hp : pc p = .storeHit o n res v)
    (hlock : k.lock = .held p) (hothers : ∀ q, q ≠ p → (pc q).locked ≠ some o) :
    Totals (Function.update pc p (.loadTried o n res)) o { k with hit := u64 (v + res) } := by
  have hv : v = k.hit := h.loaded p .hit v (by rw [hp]; rfl)
  have hbefore : k.lock.pend pc = 0 := by rw [hlock, Mutex.pend, hp]; rfl
  have hafter : k.lock.pend (Function.update pc p (.loadTried o n res)) = res := by
    rw [hlock, Mutex.pend, Function.update_self]; rfl
  refine ⟨h.loaded_update nofun (fun q f u hq hu => ?_), h.workers, ?_, h.tried⟩
  · cases f with
    | hit => exact absurd (Pc.loaded_locked hu nofun) (hothers q hq)
    | workers | tried => rfl
  · show u64 (v + res) = u64 (_ + k.lock.pend _)
    rw [hv, h.hit, hbefore, hafter, Int.add_zero, u64_add]

theorem addTried {n : Nat} {res v N : Int} (h : Totals pc o k) (hp : pc p = .storeTried o n res v)
    (hlock : k.lock = .held p) (hothers : ∀ q, q ≠ p → (pc q).locked ≠ some o) :
    Totals (Function.update pc p (.workUnlock o n)) o
      { k with tried := u64 (v + N), batches := k.batches ++ [(p, res, N)] } := by
  have hv : v = k.tried := h.loaded p .tried v (by rw [hp]; rfl)
  have hbefore : k.lock.pend pc = res := by rw [hlock, Mutex.pend, hp]; rfl
  have hafter : k.lock.pend (Function.update pc p (.workUnlock o n)) = 0 := by
    rw [hlock, Mutex.pend, Function.update_self]; rfl
  refine ⟨h.loaded_update nofun (fun q f u hq hu => ?_), h.workers, ?_, ?_⟩
  · cases f with
    | tried => exact absurd (Pc.loaded_locked hu nofun) (hothers q hq)
    | workers | hit => rfl
  · show k.hit = u64 (((k.batches ++ [(p, res, N)]).map fun b => b.2.1).sum + k.lock.pend _)
    rw [hafter, List.map_append, List.sum_append, h.hit, hbefore, List.map_singleton,
      List.sum_singleton, Int.add_zero]
  · show u64 (v + N) = u64 ((k.batches ++ [(p, res, N)]).map fun b => b.2.2).sum
    rw [hv, h.tried, List.map_append, List.sum_append, List.map_singleton, List.sum_singleton,
      u64_add]

end Totals

/-! ## The end of the object -/

structure Ending (pc : π → Pc) (o : Nat) (lock : Mutex π) (joined left zeros : List π) : Prop where
  zeros : zeros = if left.length = joined.length then left.getLast?.toList else []
  last : ∀ p, (pc p).last = some o →
    left.length = joined.length ∧ lock ≠ .destroyed ∧ left.getLast? = some p
  ended : left.length = joined.length → lock = .destroyed ∨ ∃ p, (pc p).last = some o
  destroyed : lock = .destroyed → left.length = joined.length

namespace Ending

variable {zeros : List π}

theorem frame {lock' : Mutex π} (h : Ending pc o lock joined left zeros)
    (hlast : c.last = (pc p).last) (hlock : lock' = .destroyed ↔ lock = .destroyed) :
    Ending (Function.update pc p c) o lock' joined left zeros := by
  have hsame : ∀ q, (Function.update pc p c q).last = (pc q).last := fun q => by
    by_cases hq : q = p
    · rw [hq, Function.update_self, hlast]
    · rw [Function.update_of_ne hq]
  refine ⟨h.zeros, fun q hq => ?_, fun hlen => ?_, fun hd => h.destroyed (hlock.mp hd)⟩
  · obtain ⟨hlen, hnot, hget⟩ := h.last q (hsame q ▸ hq)
    exact ⟨hlen, fun hd => hnot (hlock.mp hd), hget⟩
  · rcases h.ended hlen with hd | ⟨q, hq⟩
    · exact .inl (hlock.mpr hd)
    · exact .inr ⟨q, (hsame q).trans hq⟩

omit [DecidableEq π] in
theorem running (hlt : left.length < joined.length) (hlast : ∀ p, (pc p).last ≠ some o)
    (hlock : lock ≠ .destroyed) : Ending pc o lock joined left [] where
  zeros := (if_neg (Nat.ne_of_lt hlt)).symm
  last p hp := absurd hp (hlast p)
  ended hlen := absurd hlen (Nat.ne_of_lt hlt)
  destroyed hd := absurd hd hlock

omit [DecidableEq π] in
theorem leaving (hlen : left.length = joined.length) (hget : left.getLast? = some p)
    (hp : (pc p).last = some o) (honly : ∀ q, (pc q).last = some o → q = p)
    (hlock : lock ≠ .destroyed) : Ending pc o lock joined left [p] where
  zeros := by rw [if_pos hlen, hget]; rfl
  last q hq := by
    obtain rfl := honly q hq
    exact ⟨hlen, hlock, hget⟩
  ended _ := .inr ⟨p, hp⟩
  destroyed _ := hlen

theorem destroy (h : Ending pc o lock joined left zeros) (hp : (pc p).last = some o)
    (honly : ∀ q, (pc q).last = some o → q = p) (hc : c.last ≠ some o) :
    Ending (Function.update pc p c) o .destroyed joined left zeros := by
  have hlen := (h.last p hp).1
  refine ⟨h.zeros, fun q hq => ?_, fun _ => .inl rfl, fun _ => hlen⟩
  rcases update_cases (f := Pc.last) rfl hq with ⟨-, hcl⟩ | ⟨hne, hq⟩
  · exact absurd hcl hc
  · exact absurd (honly q hq) hne

end Ending

end Ops.Shm
