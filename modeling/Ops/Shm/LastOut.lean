import Ops.Shm.Generation

/-!
# The last one out

Within one generation the account of the object is kept (`good_reach`), so `workers`
counts who has joined and not left, one process sees it reach 0, after all the others,
and what that process reports are the totals of all batches (`last_out`).
-/

namespace Ops.Shm

variable {π F : Type} [DecidableEq π] {s t : State π F} {act : Act π} {args : π → Args F}

structure Account (args : π → Args F) (pc : π → Pc) (o : Nat) (k : Obj π F) : Prop where
  locking : Locking pc o k.lock
  workers : Workers args pc o k.joined k.left k.batches
  totals : Totals pc o k
  ending : Ending pc o k.lock k.joined k.left k.zeros

namespace Account

variable {pc : π → Pc} {p : π} {c : Pc} {o : Nat} {k : Obj π F}

theorem length_lt [Fintype π] (h : Account args pc o k) (hpid : Fintype.card π < 2 ^ 64) :
    k.joined.length < 2 ^ 64 :=
  Nat.lt_of_le_of_lt h.workers.nodup.length_le_card hpid

theorem others_unlocked (h : Account args pc o k) (hp : (pc p).locked = some o) (q : π)
    (hq : q ≠ p) : (pc q).locked ≠ some o := fun hq' => by
  have hheld := (h.locking.held p).mpr hp
  rw [(h.locking.held q).mpr hq'] at hheld
  exact hq (Mutex.held.inj hheld)

theorem not_destroyed {n : Nat} (h : Account args pc o k) (hp : (pc p).due (args p).t = some (o, n)) :
    k.lock ≠ .destroyed := fun hd =>
  h.workers.done (h.ending.destroyed hd) hp

theorem moved (h : Account args pc o k)
    (hdue : c.due (args p).t = none ∨ c.due (args p).t = (pc p).due (args p).t)
    (hpend : c.pend = (pc p).pend) (hlast : c.last = (pc p).last)
    (hout : c.outside = true → (pc p).outside = true) (hlocked : c.locked = (pc p).locked)
    (hloaded : ∀ f v, c.loaded = some (o, f, v) → v = k.count f) :
    Account args (Function.update pc p c) o k where
  locking := h.locking.frame hlocked
  workers := h.workers.frame hdue hout
  totals := h.totals.frame hloaded (Mutex.pend_frame k.lock hpend)
  ending := h.ending.frame hlast Iff.rfl

theorem acquired (h : Account args pc o k) (hkeeps : (pc p).Keeps (args p).t c)
    (hlocked : c.locked = some o) (hpend : c.pend = 0) (hloaded : c.loaded = none)
    (hfree : k.lock = .free) :
    Account args (Function.update pc p c) o { k with lock := .held p } := by
  refine ⟨(hfree ▸ h.locking).acquire hlocked, h.workers.frame hkeeps.due hkeeps.outside,
    h.totals.frame (fun f v hv => ?_) ?_, h.ending.frame hkeeps.last ?_⟩
  · rw [hloaded] at hv; cases hv
  · rw [hfree, Mutex.pend, Function.update_self, hpend]; rfl
  · simp only [hfree, reduceCtorEq]

theorem released (h : Account args pc o k) (hkeeps : (pc p).Keeps (args p).t c)
    (hlocked : (pc p).locked = some o) (hunlocked : c.locked = none) (hpend : c.pend = 0)
    (hloaded : c.loaded = none) (hheld : k.lock = .held p) :
    Account args (Function.update pc p c) o { k with lock := .free } := by
  refine ⟨.drop (h.others_unlocked hlocked) (by rw [hunlocked]; nofun) (fun _ => nofun) nofun,
    h.workers.frame hkeeps.due hkeeps.outside, h.totals.frame (fun f v hv => ?_) ?_,
    h.ending.frame hkeeps.last ?_⟩
  · rw [hloaded] at hv; cases hv
  · rw [hheld]
    show 0 = (pc p).pend
    rw [← hkeeps.pend, hpend]
  · simp only [hheld, reduceCtorEq]

theorem joined [Fintype π] {x : Nat} {w : Int} (h : Account args pc o k)
    (hpid : Fintype.card π < 2 ^ 64) (hp : pc p = .joinStore x o w)
    (halone : ∀ q, q ≠ p → (pc q).inside = none) :
    Account args (Function.update pc p (.joinUnlock x o)) o
      { k with workers := u64 (w + 1), joined := k.joined ++ [p] } := by
  have hheld : k.lock = .held p := (h.locking.held p).mpr (by rw [hp]; rfl)
  have hlast : ∀ q, (pc q).last ≠ some o := fun q hq => by
    by_cases hqp : q = p
    · rw [hqp, hp] at hq; cases hq
    · exact Pc.last_inside hq (halone q hqp)
  have hlt : k.left.length < k.joined.length := by
    refine Nat.lt_of_le_of_ne h.workers.length_le fun hlen => ?_
    rcases h.ending.ended hlen with hd | ⟨q, hq⟩
    · rw [hheld] at hd; cases hd
    · exact hlast q hq
  have hworkers : Workers args (Function.update pc p (.joinUnlock x o)) o (k.joined ++ [p]) k.left
      k.batches := h.workers.join (by rw [hp]; rfl) rfl rfl
  have hlen : (k.joined ++ [p]).length = k.joined.length + 1 := List.length_append ..
  refine ⟨h.locking.frame (by rw [hp]; rfl), hworkers, ?_, ?_⟩
  · refine h.totals.recount (by rw [hp]; rfl) rfl (by rw [hp]; rfl) (fun q v hq hv => ?_) ?_ ?_ ?_
    · exact Pc.loaded_workers hv (halone q hq)
    · rw [hlen]; omega
    · omega
    · exact Nat.lt_of_le_of_lt hworkers.nodup.length_le_card hpid
  · have hzeros : k.zeros = [] := h.ending.zeros.trans (if_neg (Nat.ne_of_lt hlt))
    have hlt' : k.left.length < (k.joined ++ [p]).length := by omega
    rw [hzeros]
    refine .running hlt' (fun q hq => ?_) (by rw [hheld]; nofun)
    rcases update_cases (f := Pc.last) rfl hq with ⟨-, hc⟩ | ⟨-, hq⟩
    · cases hc
    · exact hlast q hq

theorem hit {n : Nat} {res v : Int} (h : Account args pc o k) (hp : pc p = .storeHit o n res v) :
    Account args (Function.update pc p (.loadTried o n res)) o { k with hit := u64 (v + res) } := by
  have hlocked : (pc p).locked = some o := by rw [hp]; rfl
  exact ⟨h.locking.frame (by rw [hp]; rfl), h.workers.frame (.inr (by rw [hp]; rfl)) nofun,
    h.totals.addHit hp ((h.locking.held p).mpr hlocked) (h.others_unlocked hlocked),
    h.ending.frame (by rw [hp]; rfl) Iff.rfl⟩

theorem tried {n : Nat} {res v : Int} (h : Account args pc o k)
    (hp : pc p = .storeTried o n res v) :
    Account args (Function.update pc p (.workUnlock o n)) o
      { k with tried := u64 (v + (args p).N), batches := k.batches ++ [(p, res, (args p).N)] } := by
  have hlocked : (pc p).locked = some o := by rw [hp]; rfl
  exact ⟨h.locking.frame (by rw [hp]; rfl), h.workers.add (n := n) (by rw [hp]; rfl) rfl rfl,
    h.totals.addTried hp ((h.locking.held p).mpr hlocked) (h.others_unlocked hlocked),
    h.ending.frame (by rw [hp]; rfl) Iff.rfl⟩

theorem start {k : Obj π F} (hblank : k.Blank) (hone : k.workers = 1)
    (hlocked : ∀ q, (pc q).locked ≠ some o) (hloaded : ∀ q f v, (pc q).loaded ≠ some (o, f, v))
    (hdue : ∀ q n, (pc q).due (args q).t ≠ some (o, n)) (hlast : ∀ q, (pc q).last ≠ some o)
    {x : Nat} : Account args (Function.update pc p (.post x o)) o
      { k with lock := .free, ready := true, joined := k.joined ++ [p] } := by
  obtain ⟨-, -, htried, hhit, hjoined, hleft, hzeros, hbatches⟩ := hblank
  have hnew : k.joined ++ [p] = [p] := by rw [hjoined]; rfl
  refine ⟨.drop (fun q _ => hlocked q) nofun (fun _ => nofun) nofun, ?_,
    ⟨fun q f v hq => ?_, ?_, ?_, ?_⟩, ?_⟩
  · rw [hnew, hleft, hbatches]
    exact .start hdue rfl rfl
  · rcases update_cases (f := Pc.loaded) rfl hq with ⟨-, hc⟩ | ⟨-, hq⟩
    · cases hc
    · exact absurd hq (hloaded q f v)
  · show k.workers = ((k.joined ++ [p]).length : Int) - k.left.length
    rw [hone, hnew, hleft]; rfl
  · show k.hit = u64 ((k.batches.map fun b => b.2.1).sum + 0)
    rw [hhit, hbatches]; rfl
  · show k.tried = u64 (k.batches.map fun b => b.2.2).sum
    rw [htried, hbatches]; rfl
  · rw [hnew, hleft, hzeros]
    refine .running Nat.one_pos (fun q hq => ?_) nofun
    rcases update_cases (f := Pc.last) rfl hq with ⟨-, hc⟩ | ⟨-, hq⟩
    · cases hc
    · exact hlast q hq

/-- A worker leaves. It has seen the counter reach 0 if all the others have left. -/
theorem leave [Fintype π] {x : Nat} {w : Int} {zeros : List π} (h : Account args pc o k)
    (hpid : Fintype.card π < 2 ^ 64) (hp : pc p = .leaveStore x o w)
    (halone : ∀ q, q ≠ p → (pc q).inside = none) (hdue : c.due (args p).t = none)
    (hout : c.outside = false) (hlocked : c.locked = none) (hloaded : c.loaded = none)
    (hpend : c.pend = 0)
    (hending : Ending (Function.update pc p c) o k.lock k.joined (k.left ++ [p]) zeros) :
    Account args (Function.update pc p c) o
      { k with workers := u64 (w - 1), left := k.left ++ [p], zeros := zeros } := by
  have hworkers : Workers args (Function.update pc p c) o k.joined (k.left ++ [p]) k.batches :=
    h.workers.leave (by rw [hp]; rfl) hdue hout
  have hlen : (k.left ++ [p]).length = k.left.length + 1 := List.length_append ..
  refine ⟨h.locking.frame (by rw [hlocked, hp]; rfl), hworkers, ?_, hending⟩
  refine h.totals.recount (d := -1) (by rw [hp]; rfl) hloaded (by rw [hpend, hp]; rfl)
    (fun q v hq hv => ?_) ?_ hworkers.length_le (h.length_lt hpid)
  · exact Pc.loaded_workers hv (halone q hq)
  · rw [hlen]; omega

theorem zero_iff [Fintype π] {x : Nat} {w : Int} (h : Account args pc o k)
    (hpid : Fintype.card π < 2 ^ 64) (hp : pc p = .leaveStore x o w) :
    u64 (w - 1) = 0 ↔ (k.left ++ [p]).length = k.joined.length := by
  have hw : w = k.workers := h.totals.loaded p .workers w (by rw [hp]; rfl)
  obtain ⟨hmem, hleft, -⟩ := h.workers.due p 0 (by rw [hp]; rfl)
  have hlt := h.workers.length_lt hmem hleft
  have hbound := h.length_lt hpid
  have hlen : (k.left ++ [p]).length = k.left.length + 1 := List.length_append ..
  have hu : u64 (w - 1) = k.joined.length - k.left.length - 1 := by
    rw [hw, h.totals.workers]
    exact Int.emod_eq_of_lt (by omega) (by omega)
  rw [hu, hlen]
  omega

theorem destroyed {x : Nat} (h : Account args pc o k) (hp : pc p = .destroyLock x o)
    (halone : ∀ q, q ≠ p → (pc q).inside = none) :
    Account args (Function.update pc p (.unlinkShm x)) o { k with lock := .destroyed } := by
  have hlast : (pc p).last = some o := by rw [hp]; rfl
  have hlen := (h.ending.last p hlast).1
  have hfree : ∀ q, (pc q).locked ≠ some o := fun q hq => by
    rcases Pc.locked_due (args q).t hq with ⟨n, hdue⟩ | hin
    · exact h.workers.done hlen hdue
    · by_cases hqp : q = p
      · rw [hqp, hp] at hq; cases hq
      · exact hin (halone q hqp)
  have hpend : k.lock.pend pc = 0 := by
    cases hlock : k.lock with
    | held q => exact absurd ((h.locking.held q).mp hlock) (hfree q)
    | raw | free | destroyed => rfl
  refine ⟨.drop (fun q _ => hfree q) nofun (fun _ => nofun) nofun, h.workers.frame (.inl rfl) nofun,
    h.totals.frame nofun hpend.symm, h.ending.destroy hlast (fun q hq => ?_) nofun⟩
  by_contra hqp
  exact Pc.last_inside hq (halone q hqp)

end Account

theorem Account.left [Fintype π] {p : π} {x o : Nat} {w : Int} (h : Account args s.pc o (s.obj o))
    (hpid : Fintype.card π < 2 ^ 64) (hp : s.pc p = .leaveStore x o w)
    (halone : ∀ q, q ≠ p → (s.pc q).inside = none) :
    Account args (s.leave p x o w).pc o ((s.leave p x o w).obj o) := by
  obtain ⟨hmem, hnot, -⟩ := h.workers.due p 0 (by rw [hp]; rfl)
  have hlt := h.workers.length_lt hmem hnot
  have hrunning : (s.obj o).lock ≠ .destroyed := h.not_destroyed (p := p) (n := 0) (by rw [hp]; rfl)
  have hzeros : (s.obj o).zeros = [] := h.ending.zeros.trans (if_neg (Nat.ne_of_lt hlt))
  have hlast : ∀ q, (s.pc q).last ≠ some o := fun q hq =>
    Nat.ne_of_lt hlt (h.ending.last q hq).1
  have honly : ∀ {c : Pc} {q : π}, (Function.update s.pc p c q).last = some o → q = p :=
    fun {c q} hq => by
      rcases update_cases (f := Pc.last) rfl hq with ⟨hqp, -⟩ | ⟨-, hq⟩
      · exact hqp
      · exact absurd hq (hlast q)
  unfold State.leave
  split
  · rename_i hzero
    have hall := (h.zero_iff hpid hp).mp hzero
    show Account args (Function.update s.pc p (.reportLock x o)) o (Function.update s.obj o _ o)
    rw [Function.update_self, hzeros]
    refine h.leave hpid hp halone rfl rfl rfl rfl rfl ?_
    exact .leaving hall List.getLast?_concat (by rw [Function.update_self]; rfl) (fun q => honly)
      hrunning
  · rename_i hnonzero
    have hnotall := mt (h.zero_iff hpid hp).mpr hnonzero
    have hworkers : Workers args (Function.update s.pc p (.finPost x)) o (s.obj o).joined
        ((s.obj o).left ++ [p]) (s.obj o).batches := h.workers.leave (by rw [hp]; rfl) rfl rfl
    show Account args (Function.update s.pc p (.finPost x)) o (Function.update s.obj o _ o)
    rw [Function.update_self, hzeros]
    refine h.leave hpid hp halone rfl rfl rfl rfl rfl ?_
    refine .running (Nat.lt_of_le_of_ne hworkers.length_le hnotall) (fun q hq => ?_) hrunning
    obtain rfl := honly hq
    rw [Function.update_self] at hq
    cases hq

/-! ## Runs -/

structure Good (args : π → Args F) (s : State π F) : Prop where
  exclusive : Exclusive s
  known : Known s
  objects : Objects s
  names : Names s
  account : ∀ o, o < s.objs → (s.obj o).ready = true → Account args s.pc o (s.obj o)

variable [Fintype π]

omit [Fintype π] in
/-- Who gets past `sem_timedwait` is alone: there is one semaphore. -/
theorem Good.alone [Zero F] [BEq F] (h : Good args s) (hw : Within s act)
    (hn : s.next args act = some t) : Alone s act := by
  intro hok x hx q y hy
  obtain ⟨e, hpc⟩ : ∃ e, s.pc act.proc = .wait x e := by
    cases hpc : s.pc act.proc <;> rw [hpc] at hx <;> cases hx
    exact ⟨_, rfl⟩
  have hpos : 0 < s.sem x := by
    simp only [State.next, hpc, hok] at hn
    by_contra hzero
    rw [if_neg hzero] at hn
    cases hn
  have hrun : ¬ Ended s := by
    cases e with
    | none => exact hw hok (by rw [hpc]; rfl)
    | some o =>
      -- a worker has not left the object, so it is not destroyed, and no other is ready
      intro hended
      obtain ⟨o', hlt', hready', hd⟩ := h.objects.ended hended
      have huses := h.known.used act.proc o (by rw [hpc]; rfl)
      obtain rfl := h.objects.one o o' huses.2 hlt' huses.1 hready'
      exact (h.account o hlt' hready').not_destroyed (p := act.proc) (n := 0) (by rw [hpc]; rfl) hd
  have hx0 := h.exclusive.made x hpos
  have hy0 := (h.exclusive.held q y (Pc.inside_holds hy)).2
  have hsems := (h.names.opened hrun).1
  omega

omit [Fintype π] in
theorem Good.others_outside (h : Good args s) {p : π} {x : Nat} (hp : (s.pc p).inside = some x)
    (q : π) (hq : q ≠ p) : (s.pc q).inside = none := by
  cases hy : (s.pc q).inside with
  | none => rfl
  | some y => exact absurd (h.exclusive.alone q p y x hy hp) hq

omit [Fintype π] in
/-- An access to an object is an access to the only one that is ready. -/
theorem Good.only (h : Good args s) {p : π} {o o' : Nat} {k : Obj π F}
    (huses : (s.pc p).uses = some o') (hlt : o < s.objs)
    (ho : (Function.update s.obj o' k o).ready = true) : o = o' := by
  by_contra hne
  rw [Function.update_of_ne hne] at ho
  have hused := h.known.used p o' huses
  exact hne (h.objects.one o o' hlt hused.2 ho hused.1)

omit [Fintype π] in
theorem Good.uses_account (h : Good args s) {p : π} {o : Nat} (huses : (s.pc p).uses = some o) :
    Account args s.pc o (s.obj o) :=
  h.account _ (h.known.used p _ huses).2 (h.known.used p _ huses).1

omit [Fintype π] in
theorem Good.unused (h : Good args s) {p : π} {o : Nat} (hp : (s.pc p).initing = some o) (q : π) :
    (s.pc q).uses ≠ some o := fun hq => by
  have hfresh := (h.known.fresh p o hp).1
  rw [(h.known.used q o hq).1] at hfresh
  cases hfresh

theorem Good.next_account [Zero F] (h : Good args s) (hpid : Fintype.card π < 2 ^ 64)
    (hd : Deed args s act t) {o : Nat} (hlt : o < t.objs) (hready : (t.obj o).ready = true) :
    Account args t.pc o (t.obj o) := by
  have hself : ∀ {pc : π → Pc} {o' : Nat} {k : Obj π F}, Account args pc o' k →
      Account args pc o' (Function.update s.obj o' k o') := fun ha => by
    rwa [Function.update_self]
  cases hd with
  | moved hpc hkeeps hlocked hloaded hobj hobjs _ _ _ =>
    rw [hobj] at hready ⊢
    rw [hpc]
    exact (h.account o (hobjs ▸ hlt) hready).moved hkeeps.due hkeeps.pend hkeeps.last hkeeps.outside
      hlocked (hloaded o)
  | @opened entry hpc _ =>
    refine (h.account o hlt hready).moved ?_ (by rw [hpc]; rfl) (by rw [hpc]; rfl) (fun hc => ?_)
      (by rw [hpc]; rfl) nofun
    · rw [hpc]; cases entry <;> exact .inr rfl
    · rw [hpc]; cases entry <;> first | rfl | cases hc
  | entered hpc _ | abandoned hpc =>
    exact (h.account o hlt hready).moved (.inl rfl) (by rw [hpc]; rfl) (by rw [hpc]; rfl)
      (fun _ => by rw [hpc]; rfl) (by rw [hpc]; rfl) nofun
  | unlinkedShm hpc | unlinkedSem hpc =>
    exact (h.account o hlt hready).moved (.inl rfl) (by rw [hpc]; rfl) (by rw [hpc]; rfl)
      nofun (by rw [hpc]; rfl) nofun
  | @created x k hpc _ hblank =>
    change (Function.update s.obj s.objs k o).ready = true at hready
    change Account args (Function.update s.pc act.proc (.truncate x s.objs)) o
      (Function.update s.obj s.objs k o)
    by_cases hne : o = s.objs
    · rw [hne, Function.update_self, hblank.ready] at hready; cases hready
    · rw [Function.update_of_ne hne] at hready ⊢
      change o < s.objs + 1 at hlt
      exact (h.account o (by omega) hready).moved (.inl rfl) (by rw [hpc]; rfl) (by rw [hpc]; rfl)
        (fun _ => by rw [hpc]; rfl) (by rw [hpc]; rfl) nofun
  | @stored x o' f hpc hf =>
    have hfresh := h.known.fresh act.proc o' (by rw [hpc]; rfl)
    have hblank := h.objects.blank o' hfresh.2 hfresh.1
    obtain ⟨k, f', heq, hk, -⟩ := stored_blank args h.objects hpc hf hblank
    rw [heq] at hlt hready ⊢
    change (Function.update s.obj o' k o).ready = true at hready
    change Account args (Function.update s.pc act.proc (.store x o' f')) o
      (Function.update s.obj o' k o)
    by_cases hne : o = o'
    · rw [hne, Function.update_self, hk.ready] at hready; cases hready
    · rw [Function.update_of_ne hne] at hready ⊢
      exact (h.account o hlt hready).moved (.inl rfl) (by rw [hpc]; rfl) (by rw [hpc]; rfl)
        (fun _ => by rw [hpc]; rfl) (by rw [hpc]; rfl) nofun
  | @published x o' hpc =>
    have hinit : (s.pc act.proc).initing = some o' := by rw [hpc]; rfl
    have hfresh := h.known.fresh act.proc o' hinit
    have hunused := h.unused hinit
    obtain rfl : o = o' := by
      by_contra hne
      change (Function.update s.obj o' _ o).ready = true at hready
      rw [Function.update_of_ne hne, h.names.unready h.known hinit o hlt] at hready
      cases hready
    exact hself (.start (h.objects.blank o hfresh.2 hfresh.1)
      (h.objects.begun act.proc o (by rw [hpc]; rfl)) (fun q hq => hunused q (Pc.locked_uses hq))
      (fun q _ _ hq => hunused q (Pc.loaded_uses hq)) (fun q _ hq => hunused q (Pc.due_uses hq))
      fun q hq => hunused q (Pc.last_uses hq))
  | @acquired o' c hkeeps hlocks _ hlocked hpend hloaded hfree =>
    have huses := Pc.locks_uses hlocks
    obtain rfl := h.only huses hlt hready
    exact hself ((h.uses_account huses).acquired hkeeps hlocked hpend hloaded hfree)
  | released hkeeps hlocked hunlocked hpend hloaded hheld =>
    have huses := Pc.locked_uses hlocked
    obtain rfl := h.only huses hlt hready
    exact hself ((h.uses_account huses).released hkeeps hlocked hunlocked hpend hloaded hheld)
  | @joined x o' w hpc =>
    have huses : (s.pc act.proc).uses = some o' := by rw [hpc]; rfl
    obtain rfl := h.only huses hlt hready
    exact hself ((h.uses_account huses).joined hpid hpc (h.others_outside (x := x) (by rw [hpc]; rfl)))
  | @hit o' n res v hpc =>
    have huses : (s.pc act.proc).uses = some o' := by rw [hpc]; rfl
    obtain rfl := h.only huses hlt hready
    exact hself ((h.uses_account huses).hit hpc)
  | @tried o' n res v hpc =>
    have huses : (s.pc act.proc).uses = some o' := by rw [hpc]; rfl
    obtain rfl := h.only huses hlt hready
    exact hself ((h.uses_account huses).tried hpc)
  | @left x o' w hpc =>
    have huses : (s.pc act.proc).uses = some o' := by rw [hpc]; rfl
    have hobjs : (s.leave act.proc x o' w).objs = s.objs := by unfold State.leave; split <;> rfl
    obtain rfl : o = o' := by
      unfold State.leave at hlt hready
      split at hready <;> exact h.only huses (hobjs ▸ hlt) hready
    exact (h.uses_account huses).left hpid hpc (h.others_outside (x := x) (by rw [hpc]; rfl))
  | @destroyed x o' hpc =>
    have huses : (s.pc act.proc).uses = some o' := by rw [hpc]; rfl
    obtain rfl := h.only huses hlt hready
    exact hself ((h.uses_account huses).destroyed hpc (h.others_outside (x := x) (by rw [hpc]; rfl)))

theorem Good.next [Zero F] [BEq F] (h : Good args s) (hpid : Fintype.card π < 2 ^ 64)
    (hw : Within s act) (hn : s.next args act = some t) : Good args t := by
  have heffect := next_effect hn
  have hdeed := next_deed hn
  obtain ⟨hobjects, hnames⟩ := next_generation h.objects h.names h.known h.exclusive hw hdeed
  exact ⟨h.exclusive.next (h.alone hw hn) heffect, h.known.next h.exclusive heffect, hobjects, hnames,
    fun o hlt hready => h.next_account hpid hdeed hlt hready⟩

omit [DecidableEq π] [Fintype π] in
theorem start_objects (h : s.Start) : Objects s := by
  obtain ⟨hpc, -, -, -, hobjs, -⟩ := h
  refine ⟨fun o ho => ?_, fun p o ho => ?_, fun o o' ho => ?_⟩
  · rw [hobjs] at ho; cases ho
  · rw [hpc] at ho; cases ho
  · rw [hobjs] at ho; cases ho

omit [DecidableEq π] [Fintype π] in
theorem start_names (h : s.Start) : Names s := by
  obtain ⟨hpc, -, hsems, -, hobjs, -⟩ := h
  refine ⟨fun o ho => ?_, fun p o ho => ?_, fun _ => ?_, fun _ p ho => ?_, fun p ho => ?_⟩
  · rw [hobjs] at ho; cases ho
  · rw [hpc] at ho; cases ho
  · rw [hsems]; exact ⟨Nat.zero_le 1, fun _ => rfl⟩
  · rw [hpc] at ho; cases ho
  · rw [hpc] at ho; cases ho

theorem good_reach [Zero F] [BEq F] (hpid : Fintype.card π < 2 ^ 64)
    (h : (processes args).ReachIf Within s) : Good args s := by
  refine h.inv (I := Good args) (fun s hs => ?_) fun s act t _ hs hw hn => hs.next hpid hw hn
  refine ⟨start_exclusive hs, start_known hs, start_objects hs, start_names hs, fun o ho => ?_⟩
  rw [hs.2.2.2.2.1] at ho
  cases ho

/-- Every process that has joined has executed the decrement in `finish`. -/
def Obj.EveryoneLeft (k : Obj π F) : Prop := ∀ p ∈ k.joined, p ∈ k.left

omit [Fintype π] in
theorem Account.everyoneLeft_iff {o : Nat} {k : Obj π F} (h : Account args s.pc o k) :
    k.EveryoneLeft ↔ k.left.length = k.joined.length := by
  have hsub : k.left.Subperm k.joined :=
    h.workers.nodupLeft.subperm fun q hq => (h.workers.leaver q hq).1
  refine ⟨fun hall => ?_, fun hlen p hp => ?_⟩
  · exact Nat.le_antisymm hsub.length_le (h.workers.nodup.subperm hall).length_le
  · exact (hsub.perm_of_length_le (Nat.le_of_eq hlen.symm)).mem_iff.mpr hp

/-- **The last one out.** Within one generation `workers` is the number of processes
that have joined the object and not left it; one process sees it reach 0, and it is the
last; what that process reads are the totals of all batches of all processes; and
nobody locks or unlocks the mutex after it was destroyed. There are fewer processes than a
`uint64_t` counts. -/
theorem last_out [Zero F] [BEq F] (hpid : Fintype.card π < 2 ^ 64)
    (h : (processes args).ReachIf Within s) {o : Nat} (ho : o < s.objs)
    (hready : (s.obj o).ready = true) :
    ((s.obj o).joined.Nodup ∧ (s.obj o).left.Nodup ∧ (s.obj o).left ⊆ (s.obj o).joined ∧
      (s.obj o).workers = (s.obj o).joined.length - (s.obj o).left.length) ∧
    ((s.obj o).EveryoneLeft → ∃ p, (s.obj o).left.getLast? = some p ∧ (s.obj o).zeros = [p]) ∧
    (¬ (s.obj o).EveryoneLeft → (s.obj o).zeros = []) ∧
    (∀ p x, s.pc p = .report x o →
      (s.obj o).EveryoneLeft ∧ (s.obj o).zeros = [p] ∧
      (s.obj o).hit = u64 ((s.obj o).batches.map fun b => b.2.1).sum ∧
      (s.obj o).tried = u64 ((s.obj o).batches.map fun b => b.2.2).sum ∧
      (∀ b ∈ (s.obj o).batches, b.1 ∈ (s.obj o).joined ∧ b.2.2 = (args b.1).N) ∧
      ∀ q ∈ (s.obj o).joined, added (s.obj o).batches q = (args q).t) ∧
    ∀ p, (s.pc p).locks = some o → (s.obj o).lock ≠ .destroyed := by
  have hgood := good_reach hpid h
  have hacct := hgood.account o ho hready
  have hleft := hacct.everyoneLeft_iff
  have hzeros := hacct.ending.zeros
  refine ⟨⟨hacct.workers.nodup, hacct.workers.nodupLeft, fun q hq => (hacct.workers.leaver q hq).1,
    hacct.totals.workers⟩, fun hall => ?_, fun hsome => ?_, fun p x hp => ?_, fun p hp => ?_⟩
  · have hne : (s.obj o).left ≠ [] := fun hnil => hacct.workers.made (by
      rw [hnil] at hleft
      exact List.length_eq_zero_iff.mp (hleft.mp hall).symm)
    have hlast := List.getLast?_eq_some_getLast hne
    rw [if_pos (hleft.mp hall), hlast] at hzeros
    exact ⟨_, hlast, hzeros⟩
  · exact hzeros.trans (if_neg (mt hleft.mpr hsome))
  · obtain ⟨hlen, -, hlast⟩ := hacct.ending.last p (by rw [hp]; rfl)
    have hall := hleft.mpr hlen
    have hhit := hacct.totals.hit
    rw [(hacct.locking.held p).mpr (by rw [hp]; rfl)] at hhit
    have hpend : (s.pc p).pend = 0 := by rw [hp]; rfl
    rw [Mutex.pend, hpend, Int.add_zero] at hhit
    rw [if_pos hlen, hlast] at hzeros
    exact ⟨hall, hzeros, hhit, hacct.totals.tried, hacct.workers.batch,
      fun q hq => (hacct.workers.leaver q (hall q hq)).2⟩
  · rcases Pc.locks_cases (args p).t hp with hjoining | ⟨n, hdue⟩ | hlast
    · exact fun hd => hgood.names.not_ended hjoining ⟨o, ho, hd⟩
    · exact hacct.not_destroyed hdue
    · exact (hacct.ending.last p hlast).2.1

/-- Two processes: the second to leave reports 4650 of 6000. -/
theorem last_out_two : ∃ s : State Bool Int,
    (processes fun _ => defaults).ReachIf Within s ∧ s.pc false = .report 0 0 ∧
      (s.obj 0).zeros = [false] ∧ (s.obj 0).batches.length = 6 ∧
      (s.obj 0).tried = u64 ((s.obj 0).batches.map fun b => b.2.2).sum := by
  have hrun : ((processes fun _ => defaults).execIf Within (fresh Bool)
      (succeeds true 14 ++ batch true 700 ++ succeeds false 13 ++ batch false 800 ++ batch true 750 ++
        batch false 850 ++ batch true 750 ++ batch false 800 ++ succeeds true 8 ++
        succeeds false 7)).map
        (fun s => (s.pc false, s.objs, (s.obj 0).ready, (s.obj 0).batches.length)) =
          some (.report 0 0, 1, true, 6) := by decide +kernel
  obtain ⟨s, hs, heq⟩ := Option.map_eq_some_iff.mp hrun
  simp only [Prod.mk.injEq] at heq
  obtain ⟨hpc, hobjs, hready, hlen⟩ := heq
  have hr := LTS.ReachIf.execIf (.init fresh_start) hs
  obtain ⟨-, -, -, hreport, -⟩ := last_out (by decide) hr (o := 0) (by omega) hready
  obtain ⟨-, hzeros, -, htried, -⟩ := hreport false 0 hpc
  exact ⟨s, hr, hpc, hzeros, hlen, htried⟩

end Ops.Shm
