import Ops.Pi.Deeds

/-!
# The account of the segment

From an initialised segment, as long as no process is killed between its two stores
to the counter (`Spared`), the counter is the number of processes that have joined
and not left (`Counts`), and the totals are those of whole batches and of the batch
that the process with the mutex is adding (`Sums`).
-/

namespace Ops.Pi

open Posix (Mutex)

variable {π : Type} [DecidableEq π] {N : π → Int} {s t : State π} {act : Act π} {p : π} {c : Pc}

/-- Who is killed has not joined, or has left. -/
def Spared (s : State π) (act : Act π) : Prop :=
  act.event = .kill → (s.pc act.proc).counted = false

instance (s : State π) (act : Act π) : Decidable (Spared s act) :=
  inferInstanceAs (Decidable (_ → _))

/-- The number of joined processes that are alive and have not left. -/
def State.members (s : State π) : Nat := s.joined.countP fun q => (s.pc q).counted

/-! ## The counter -/

structure Counts (s : State π) : Prop where
  nodup : s.joined.Nodup
  outside : ∀ p, (s.pc p).outside = true → p ∉ s.joined
  counted : ∀ p, (s.pc p).counted = true → p ∈ s.joined
  counter : s.seg.counter = s.members

theorem flag_frame {f : Pc → Bool} (hpc : t.pc = Function.update s.pc p c) (hc : f c = f (s.pc p))
    (q : π) : f (t.pc q) = f (s.pc q) := by
  rw [hpc]
  by_cases hq : q = p
  · rw [hq, Function.update_self, hc]
  · rw [Function.update_of_ne hq]

theorem Counts.frame (h : Counts s) (hpc : t.pc = Function.update s.pc p c)
    (hjoined : t.joined = s.joined) (hcounter : t.seg.counter = s.seg.counter)
    (hout : c.outside = true → (s.pc p).outside = true) (hcount : c.counted = (s.pc p).counted) :
    Counts t := by
  have hsame := flag_frame (f := Pc.counted) hpc hcount
  refine ⟨hjoined ▸ h.nodup, fun q hq => ?_, fun q hq => ?_, ?_⟩
  · rw [hjoined]
    exact h.outside q (update_flag (f := Pc.outside) hpc hout hq)
  · rw [hjoined]
    exact h.counted q (hsame q ▸ hq)
  · have hmembers : t.members = s.members := by
      rw [State.members, State.members, hjoined]
      exact countP_same fun q _ => hsame q
    rw [hcounter, hmembers, h.counter]

theorem Counts.join (h : Counts s) (hpc : t.pc = Function.update s.pc p c)
    (hp : (s.pc p).outside = true) (hjoined : t.joined = s.joined ++ [p])
    (hcounter : t.seg.counter = s.seg.counter + 1) (hout : c.outside = false)
    (hcount : c.counted = true) : Counts t := by
  have hnew := h.outside p hp
  have hother : ∀ q, q ≠ p → t.pc q = s.pc q := fun q hq => by rw [hpc, Function.update_of_ne hq]
  have hself : t.pc p = c := by rw [hpc, Function.update_self]
  refine ⟨?_, fun q hq => ?_, fun q hq => ?_, ?_⟩
  · rw [hjoined]
    exact h.nodup.append (List.nodup_singleton p) (List.disjoint_singleton.mpr hnew)
  · rw [hjoined, List.mem_append, List.mem_singleton]
    have hne : q ≠ p := fun hqp => by rw [hqp, hself, hout] at hq; cases hq
    exact fun hmem => hmem.elim (h.outside q (hother q hne ▸ hq)) hne
  · rw [hjoined, List.mem_append, List.mem_singleton]
    by_cases hqp : q = p
    · exact .inr hqp
    · exact .inl (h.counted q (hother q hqp ▸ hq))
  · have hmembers : t.members = s.members + 1 := by
      rw [State.members, State.members, hjoined, List.countP_append, List.countP_singleton,
        if_pos (by rw [hself, hcount])]
      congr 1
      exact countP_same fun q hq => by rw [hother q fun hqp => hnew (hqp ▸ hq)]
    rw [hcounter, hmembers, h.counter]
    rfl

theorem Counts.leave (h : Counts s) (hpc : t.pc = Function.update s.pc p c)
    (hp : (s.pc p).counted = true) (hjoined : t.joined = s.joined)
    (hcounter : t.seg.counter = s.seg.counter - 1) (hout : c.outside = false)
    (hcount : c.counted = false) : Counts t := by
  have hother : ∀ q, q ≠ p → t.pc q = s.pc q := fun q hq => by rw [hpc, Function.update_of_ne hq]
  have hself : t.pc p = c := by rw [hpc, Function.update_self]
  have hne : ∀ {f : Pc → Bool} {q}, f c = false → f (t.pc q) = true → q ≠ p :=
    fun {f q} hc hq hqp => by rw [hqp, hself, hc] at hq; cases hq
  refine ⟨hjoined ▸ h.nodup, fun q hq => ?_, fun q hq => ?_, ?_⟩
  · rw [hjoined]
    exact h.outside q (hother q (hne (f := Pc.outside) hout hq) ▸ hq)
  · rw [hjoined]
    exact h.counted q (hother q (hne (f := Pc.counted) hcount hq) ▸ hq)
  · have hmembers : s.members = t.members + 1 := by
      rw [State.members, State.members, hjoined]
      exact countP_fall h.nodup (h.counted p hp) hp (by rw [hself, hcount])
        fun q hq => by rw [hother q hq]
    rw [hcounter, h.counter, hmembers]
    omega

/-! ## The totals -/

structure Sums (N : π → Int) (s : State π) : Prop where
  hits : ∀ p, (∀ q, q ≠ p → (s.pc q).pend = 0) →
    s.seg.hits = (s.batches.map fun b => b.2.1).sum + (s.pc p).pend
  samples : s.seg.samples = (s.batches.map fun b => b.2.2).sum
  batch : ∀ b ∈ s.batches, b.2.2 = N b.1

theorem Sums.frame (h : Sums N s) (hpc : t.pc = Function.update s.pc p c)
    (hbatches : t.batches = s.batches) (hhits : t.seg.hits = s.seg.hits)
    (hsamples : t.seg.samples = s.seg.samples) (hpend : c.pend = (s.pc p).pend) : Sums N t := by
  have hsame : ∀ q, (t.pc q).pend = (s.pc q).pend := fun q => by
    rw [hpc]
    by_cases hq : q = p
    · rw [hq, Function.update_self, hpend]
    · rw [Function.update_of_ne hq]
  refine ⟨fun q hq => ?_, ?_, hbatches ▸ h.batch⟩
  · rw [hhits, hbatches, hsame]
    exact h.hits q fun r hr => hsame r ▸ hq r hr
  · rw [hsamples, hbatches, h.samples]

/-- The only process in a critical section adds the result of a batch. -/
theorem Sums.hit {i : Nat} {result : Int} (h : Sums N s) (hp : (s.pc p).pend = 0)
    (hothers : ∀ q, q ≠ p → (s.pc q).pend = 0) :
    Sums N ({ s with seg := { s.seg with hits := s.seg.hits + result } }.goto p
      (.loadSamples i result)) := by
  have hhits := h.hits p hothers
  rw [hp, Int.add_zero] at hhits
  refine ⟨fun q hq => ?_, h.samples, h.batch⟩
  show s.seg.hits + result = (s.batches.map fun b => b.2.1).sum +
    ((Function.update s.pc p (Pc.loadSamples i result)) q).pend
  rw [hhits]
  by_cases hqp : q = p
  · rw [hqp, Function.update_self]; rfl
  · have hzero : result = 0 := by
      have hself := hq p (Ne.symm hqp)
      rwa [State.goto_self] at hself
    rw [Function.update_of_ne hqp, hothers q hqp, hzero]

/-- The only process in a critical section adds the size of its batch. -/
theorem Sums.sampled {i : Nat} {result : Int} (h : Sums N s) (hp : (s.pc p).pend = result)
    (hothers : ∀ q, q ≠ p → (s.pc q).pend = 0) :
    Sums N ({ s with
      seg := { s.seg with samples := s.seg.samples + N p }
      batches := s.batches ++ [(p, result, N p)] }.goto p (.workUnlock i)) := by
  have hhits := h.hits p hothers
  refine ⟨fun q _ => ?_, ?_, fun b hb => ?_⟩
  · have hzero : ((Function.update s.pc p (Pc.workUnlock i)) q).pend = 0 := by
      by_cases hqp : q = p
      · rw [hqp, Function.update_self]; rfl
      · rw [Function.update_of_ne hqp, hothers q hqp]
    show s.seg.hits = ((s.batches ++ [(p, result, N p)]).map fun b => b.2.1).sum +
      ((Function.update s.pc p (Pc.workUnlock i)) q).pend
    rw [hzero, hhits, hp, List.map_append, List.sum_append, List.map_singleton, List.sum_singleton,
      Int.add_zero]
  · show s.seg.samples + N p = ((s.batches ++ [(p, result, N p)]).map fun b => b.2.2).sum
    rw [h.samples, List.map_append, List.sum_append, List.map_singleton, List.sum_singleton]
  · rcases List.mem_append.mp hb with hb | hb
    · exact h.batch b hb
    · rw [List.mem_singleton.mp hb]

/-! ## Steps -/

structure Account (N : π → Int) (s : State π) : Prop where
  set : s.seg.intialised = 1
  started : ∀ p f, s.pc p ≠ .init f
  guards : s.seg.mutex.Guards fun p => (s.pc p).critical
  loaded : ∀ p f n, (s.pc p).loaded = some (f, n) → n = s.seg.count f
  counts : Counts s
  sums : Sums N s

namespace Account

omit [DecidableEq π] in
/-- The other processes are in no critical section, so they have added nothing. -/
theorem alone (h : Account N s) (hp : (s.pc p).critical = true) (q : π) (hq : q ≠ p) :
    (s.pc q).critical = false ∧ (s.pc q).pend = 0 ∧ (s.pc q).loaded = none := by
  have hnot := h.guards.alone hp q hq
  refine ⟨hnot, Pc.pend_critical hnot, ?_⟩
  cases hload : (s.pc q).loaded with
  | none => rfl
  | some v => rw [Pc.loaded_critical hload] at hnot; cases hnot

theorem loaded_frame (h : Account N s) (hpc : t.pc = Function.update s.pc p c)
    (hc : ∀ f n, c.loaded = some (f, n) → n = t.seg.count f)
    (hcount : ∀ q f n, q ≠ p → (s.pc q).loaded = some (f, n) → t.seg.count f = s.seg.count f) :
    ∀ q f n, (t.pc q).loaded = some (f, n) → n = t.seg.count f := by
  intro q f n hq
  rcases update_cases hpc hq with ⟨-, hload⟩ | ⟨hne, hload⟩
  · exact hc f n hload
  · rw [hcount q f n hne hload]
    exact h.loaded q f n hload

theorem started_frame (h : Account N s) (hpc : t.pc = Function.update s.pc p c)
    (hc : ∀ f, c ≠ .init f) : ∀ q f, t.pc q ≠ .init f := by
  intro q f hq
  rcases update_cases (f := id) hpc hq with ⟨-, hnew⟩ | ⟨-, hold⟩
  · exact hc f hnew
  · exact h.started q f hold

theorem frame (h : Account N s) (hpc : t.pc = Function.update s.pc p c)
    (hset : t.seg.intialised = s.seg.intialised) (hcount : ∀ f, t.seg.count f = s.seg.count f)
    (hjoined : t.joined = s.joined) (hbatches : t.batches = s.batches)
    (hguards : t.seg.mutex.Guards fun q => (t.pc q).critical)
    (hinit : ∀ f, c ≠ .init f) (hloaded : ∀ f n, c.loaded = some (f, n) → n = s.seg.count f)
    (hout : c.outside = true → (s.pc p).outside = true) (hcounted : c.counted = (s.pc p).counted)
    (hpend : c.pend = (s.pc p).pend) : Account N t where
  set := hset.trans h.set
  started := h.started_frame hpc hinit
  guards := hguards
  loaded := h.loaded_frame hpc (fun f n hn => (hloaded f n hn).trans (hcount f).symm)
    fun _ f _ _ _ => hcount f
  counts := h.counts.frame hpc hjoined (hcount .counter) hout hcounted
  sums := h.sums.frame hpc hbatches (hcount .hits) (hcount .samples) hpend

theorem quiet (h : Account N s) (hpc : t.pc = Function.update s.pc p c) (hseg : t.seg = s.seg)
    (hjoined : t.joined = s.joined) (hbatches : t.batches = s.batches)
    (hcritical : c.critical = (s.pc p).critical) (hinit : ∀ f, c ≠ .init f)
    (hloaded : ∀ f n, c.loaded = some (f, n) → n = s.seg.count f)
    (hout : c.outside = true → (s.pc p).outside = true) (hcounted : c.counted = (s.pc p).counted)
    (hpend : c.pend = (s.pc p).pend) : Account N t :=
  h.frame hpc (by rw [hseg]) (fun f => by rw [hseg]) hjoined hbatches
    (hseg ▸ h.guards.congr (flag_frame (f := Pc.critical) hpc hcritical)) hinit hloaded hout hcounted
    hpend

/-- A store in a critical section: nobody else has loaded a count. -/
theorem critical_store (h : Account N s) (hpc : t.pc = Function.update s.pc p c)
    (hset : t.seg.intialised = s.seg.intialised) (hmutex : t.seg.mutex = s.seg.mutex)
    (hp : (s.pc p).critical = true) (hc : c.critical = true) (hinit : ∀ f, c ≠ .init f)
    (hloaded : c.loaded = none) (hcounts : Counts t) (hsums : Sums N t) : Account N t := by
  have hcritical : c.critical = (s.pc p).critical := hc.trans hp.symm
  refine ⟨hset.trans h.set, h.started_frame hpc hinit,
    hmutex ▸ h.guards.congr (flag_frame (f := Pc.critical) hpc hcritical),
    h.loaded_frame hpc (fun f n hn => ?_) fun q f n hq hload => ?_, hcounts, hsums⟩
  · rw [hloaded] at hn
    cases hn
  · rw [(h.alone hp q hq).2.2] at hload
    cases hload

theorem joined {n : Int} (h : Account N s) (hp : s.pc p = .joinStore n) :
    Account N ({ s with
      seg := { s.seg with counter := n + 1 }, joined := s.joined ++ [p] }.goto p .joinUnlock) := by
  have hn : n = s.seg.counter := h.loaded p .counter n (by rw [hp]; rfl)
  have hin : (s.pc p).critical = true := by rw [hp]; rfl
  subst hn
  refine h.critical_store rfl rfl rfl hin rfl nofun rfl
    (h.counts.join rfl (by rw [hp]; rfl) rfl rfl rfl rfl) ?_
  exact h.sums.frame (c := .joinUnlock) rfl rfl rfl rfl (by rw [hp]; rfl)

theorem left {n : Int} (h : Account N s) (hp : s.pc p = .leaveStore n) :
    Account N ({ s with seg := { s.seg with counter := n - 1 } }.goto p .leaveTest) := by
  have hn : n = s.seg.counter := h.loaded p .counter n (by rw [hp]; rfl)
  have hin : (s.pc p).critical = true := by rw [hp]; rfl
  subst hn
  refine h.critical_store rfl rfl rfl hin rfl nofun rfl
    (h.counts.leave rfl (by rw [hp]; rfl) rfl rfl rfl rfl) ?_
  exact h.sums.frame (c := .leaveTest) rfl rfl rfl rfl (by rw [hp]; rfl)

theorem hit {i : Nat} {result n : Int} (h : Account N s) (hp : s.pc p = .storeHits i result n) :
    Account N ({ s with seg := { s.seg with hits := n + result } }.goto p
      (.loadSamples i result)) := by
  have hn : n = s.seg.hits := h.loaded p .hits n (by rw [hp]; rfl)
  have hin : (s.pc p).critical = true := by rw [hp]; rfl
  subst hn
  refine h.critical_store rfl rfl rfl hin rfl nofun rfl
    (h.counts.frame (c := .loadSamples i result) rfl rfl rfl nofun (by rw [hp]; rfl)) ?_
  exact h.sums.hit (by rw [hp]; rfl) fun q hq => (h.alone hin q hq).2.1

theorem sampled {i : Nat} {result n : Int} (h : Account N s)
    (hp : s.pc p = .storeSamples i result n) :
    Account N ({ s with
      seg := { s.seg with samples := n + N p }
      batches := s.batches ++ [(p, result, N p)] }.goto p (.workUnlock i)) := by
  have hn : n = s.seg.samples := h.loaded p .samples n (by rw [hp]; rfl)
  have hin : (s.pc p).critical = true := by rw [hp]; rfl
  subst hn
  refine h.critical_store rfl rfl rfl hin rfl nofun rfl
    (h.counts.frame (c := .workUnlock i) rfl rfl rfl nofun (by rw [hp]; rfl)) ?_
  exact h.sums.sampled (by rw [hp]; rfl) fun q hq => (h.alone hin q hq).2.1

/-- **The account is kept** by a step that kills no process which is counted. -/
theorem next (h : Account N s) (hs : Spared s act) (hd : Deed N s act t) : Account N t := by
  have hflag : ∀ {c : Pc}, ∀ q, q ≠ act.proc →
      (Function.update s.pc act.proc c q).critical = (s.pc q).critical :=
    fun q hq => by rw [Function.update_of_ne hq]
  have hself : ∀ {c : Pc} {b : Bool}, c.critical = b →
      (Function.update s.pc act.proc c act.proc).critical = b := fun hc => by
    rw [Function.update_self, hc]
  cases hd with
  | took hpc _ | missed hpc _ _ | skipped hpc _ | posted hpc =>
    exact h.quiet rfl rfl rfl rfl (by rw [hpc]; rfl) nofun nofun (fun _ => by rw [hpc]; rfl)
      (by rw [hpc]; rfl) (by rw [hpc]; rfl)
  | entered hpc hset => exact absurd h.set hset
  | stored hpc => exact absurd hpc (h.started _ _)
  | moved halike hcritical hloaded =>
    exact h.quiet rfl rfl rfl rfl hcritical (Pc.past_init halike.past) hloaded
      (fun ho => halike.outside ▸ ho) halike.counted halike.pend
  | locked halike _ hm hcritical hloaded =>
    exact h.frame rfl rfl (fun f => by cases f <;> rfl) rfl rfl
      (h.guards.lock hm (hself hcritical) hflag) (Pc.past_init halike.past)
      (fun f n hn => by rw [hloaded] at hn; cases hn) (fun ho => halike.outside ▸ ho) halike.counted
      halike.pend
  | unlocked halike hm hcritical hloaded =>
    exact h.frame rfl rfl (fun f => by cases f <;> rfl) rfl rfl
      (h.guards.unlock hm (hself hcritical) hflag) (Pc.past_init halike.past)
      (fun f n hn => by rw [hloaded] at hn; cases hn) (fun ho => halike.outside ▸ ho) halike.counted
      halike.pend
  | joined hpc => exact h.joined hpc
  | hit hpc => exact h.hit hpc
  | sampled hpc => exact h.sampled hpc
  | left hpc => exact h.left hpc
  | tested hpc =>
    split <;> exact h.quiet rfl rfl rfl rfl (by rw [hpc]; rfl) nofun nofun nofun (by rw [hpc]; rfl)
      (by rw [hpc]; rfl)
  | printed hpc | unlinkedSem hpc | unlinkedShm hpc =>
    exact h.quiet rfl rfl rfl rfl (by rw [hpc]; rfl) nofun nofun nofun (by rw [hpc]; rfl)
      (by rw [hpc]; rfl)
  | destroyed hpc =>
    refine h.frame rfl rfl (fun f => by cases f <;> rfl) rfl rfl (h.guards.destroy fun q hq => ?_)
      nofun nofun nofun (by rw [hpc]; rfl) (by rw [hpc]; rfl)
    exact update_flag (f := Pc.critical) rfl (by nofun) hq
  | killed hkill _ =>
    have hcounted := hs hkill
    exact h.frame rfl rfl (fun f => by cases f <;> rfl) rfl rfl (h.guards.die (hself rfl) hflag) nofun
      nofun nofun hcounted.symm (Pc.pend_counted hcounted).symm

end Account

omit [DecidableEq π] in
theorem initialised_account (sem : Nat) : Account N (initialised π sem) where
  set := rfl
  started _ _ := nofun
  guards := ⟨fun _ => nofun, fun _ => nofun, fun _ _ => nofun⟩
  loaded _ _ _ := nofun
  counts := ⟨List.nodup_nil, fun _ _ => List.not_mem_nil, fun _ => nofun, rfl⟩
  sums := ⟨fun _ _ => rfl, rfl, nofun⟩

theorem account_reach (h : (workers N).ReachIf Spared s) : Account N s := by
  refine h.inv (I := Account N) (fun s hs => ?_) fun s act t _ hs hc hn => hs.next hc (next_deed hn)
  obtain ⟨sem, rfl⟩ := hs
  exact initialised_account sem

end Ops.Pi
