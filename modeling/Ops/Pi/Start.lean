import Ops.Pi.Deeds

/-!
# One initialiser

The semaphore keeps the body of `TryInitSharedData` to one process as long as every
`sem_trywait` succeeds (`one_initialiser`). A process whose `sem_trywait` fails posts
all the same, and lets a second one in (`two_initialisers`).
-/

namespace Ops.Pi

variable {π : Type} [DecidableEq π] {N : π → Int} {s t : State π} {act : Act π} {p : π} {c : Pc}

/-- The step is no `sem_trywait` that fails. -/
def Found (s : State π) (act : Act π) : Prop :=
  act.event = .step → s.pc act.proc = .tryWait → 0 < s.sem

instance (s : State π) (act : Act π) : Decidable (Found s act) :=
  inferInstanceAs (Decidable (_ → _ → _))

/-- Nobody has entered the body of `TryInitSharedData`. -/
def Untouched (s : State π) : Prop := s.seg.intialised ≠ 1 ∧ s.inits = 0

/-- What the place of a process says about the segment. -/
def Fits (s : State π) : Pc → Prop
  | .tryWait | .dead => True
  | .test => s.sem = 0 ∧ (s.ready = false → Untouched s)
  | .init f =>
    s.sem = 0 ∧ s.ready = false ∧ s.inits = 1 ∧ (f ≠ .intialised → s.seg.intialised = 1)
  | .semPost => s.sem = 0 ∧ s.ready = true
  | _ => s.ready = true

structure Solo (s : State π) : Prop where
  val : s.sem ≤ 1
  one : ∀ p q, (s.pc p).inside = true → (s.pc q).inside = true → p = q
  fits : ∀ p, Fits s (s.pc p)
  unset : s.ready = false → 0 < s.sem → Untouched s
  early : s.ready = false → s.joined = []
  set : s.ready = true → s.inits = 1 ∧ s.seg.intialised = 1
  once : s.inits ≤ 1

omit [DecidableEq π] in
theorem Fits.inside (h : Fits s c) (hin : c.inside = true) : s.sem = 0 := by
  cases c <;> first | exact h.1 | cases hin

omit [DecidableEq π] in
theorem Fits.past (h : Fits s c) (hpast : c.past = true) : s.ready = true := by
  cases c <;> first | exact h | cases hpast

omit [DecidableEq π] in
theorem Fits.mono (h : Fits s c) (hin : c.inside = false) (hready : s.ready = true → t.ready = true) :
    Fits t c := by
  cases c <;> first | exact trivial | exact hready h | cases hin

omit [DecidableEq π] in
theorem Fits.of_past (hpast : c.past = true) (h : s.ready = true) : Fits s c ∧ c.inside = false := by
  cases c <;> first | exact ⟨h, rfl⟩ | cases hpast

/-- A step of the only process inside, or of one that gets in. -/
theorem Solo.step (hs : Solo s) (hothers : ∀ q, q ≠ p → (s.pc q).inside = false)
    (hpc : t.pc = Function.update s.pc p c) (hready : s.ready = true → t.ready = true)
    (hc : Fits t c) (hval : t.sem ≤ 1) (hunset : t.ready = false → 0 < t.sem → Untouched t)
    (hearly : t.ready = false → t.joined = [])
    (hset : t.ready = true → t.inits = 1 ∧ t.seg.intialised = 1) (honce : t.inits ≤ 1) : Solo t where
  val := hval
  one q r hq hr := by
    rcases update_cases hpc hq with ⟨rfl, -⟩ | ⟨hne, hq⟩
    · rcases update_cases hpc hr with ⟨rfl, -⟩ | ⟨hne, hr⟩
      · rfl
      · rw [hothers r hne] at hr; cases hr
    · rw [hothers q hne] at hq; cases hq
  fits q := by
    rw [hpc]
    by_cases hq : q = p
    · rw [hq, Function.update_self]; exact hc
    · rw [Function.update_of_ne hq]
      exact (hs.fits q).mono (hothers q hq) hready
  unset := hunset
  early := hearly
  set := hset
  once := honce

/-- A step of a process outside, which changes neither the semaphore nor the start of the segment. -/
theorem Solo.quiet (hs : Solo s) (hpc : t.pc = Function.update s.pc p c) (hsem : t.sem = s.sem)
    (hready : t.ready = s.ready) (hinits : t.inits = s.inits)
    (hset : t.seg.intialised = s.seg.intialised) (hjoined : t.joined = s.joined ∨ s.ready = true)
    (hinside : c.inside = false) (hc : Fits s c) : Solo t := by
  have hfits : ∀ c, Fits s c → Fits t c := fun c h => by
    cases c <;> simp only [Fits, Untouched, hsem, hready, hinits, hset] at h ⊢ <;> exact h
  have hsub : ∀ {q}, (t.pc q).inside = true → (s.pc q).inside = true := fun {q} hq => by
    rcases update_cases hpc hq with ⟨-, hin⟩ | ⟨-, hq⟩
    · rw [hinside] at hin; cases hin
    · exact hq
  refine ⟨hsem ▸ hs.val, fun q r hq hr => hs.one q r (hsub hq) (hsub hr), fun q => ?_, ?_, ?_, ?_, ?_⟩
  · rw [hpc]
    by_cases hq : q = p
    · rw [hq, Function.update_self]; exact hfits c hc
    · rw [Function.update_of_ne hq]; exact hfits _ (hs.fits q)
  · simp only [Untouched, hsem, hready, hinits, hset]
    exact hs.unset
  · rw [hready]
    intro hnot
    rcases hjoined with hsame | htrue
    · rw [hsame]; exact hs.early hnot
    · rw [htrue] at hnot; cases hnot
  · rw [hready, hinits, hset]; exact hs.set
  · rw [hinits]; exact hs.once

theorem Solo.took (hs : Solo s) (hpos : 0 < s.sem) :
    Solo ({ s with sem := s.sem - 1 }.goto p .test) := by
  have hval := hs.val
  have hzero : s.sem - 1 = 0 := by omega
  refine hs.step (p := p) (c := .test) (fun q _ => ?_) rfl id ⟨hzero, fun h => hs.unset h hpos⟩
    (Nat.le_trans (Nat.sub_le ..) hval) (fun _ hp => ?_) hs.early hs.set hs.once
  · cases hq : (s.pc q).inside with
    | false => rfl
    | true => rw [(hs.fits q).inside hq] at hpos; cases hpos
  · exact absurd hp (by rw [show s.sem - 1 = 0 from hzero]; exact Nat.lt_irrefl 0)

theorem Solo.stored {f : Field} (hs : Solo s) (hpc : s.pc p = .init f)
    (hothers : ∀ q, q ≠ p → (s.pc q).inside = false) : Solo (s.store p f) := by
  have hfits := hs.fits p
  rw [hpc] at hfits
  obtain ⟨hzero, hnot, hone, hset⟩ := hfits
  have hempty : ¬ 0 < s.sem := by omega
  have hready : ∀ b : Prop, s.ready = true → b := fun _ h => by rw [hnot] at h; cases h
  have hjoined := hs.early hnot
  cases f with
  | intialised =>
    exact hs.step hothers rfl id ⟨hzero, hnot, hone, fun _ => rfl⟩ hs.val (fun _ h => absurd h hempty)
      (fun _ => hjoined) (fun h => hready _ h) hs.once
  | counter | hits | samples =>
    exact hs.step hothers rfl id ⟨hzero, hnot, hone, fun _ => hset nofun⟩ hs.val
      (fun _ h => absurd h hempty) (fun _ => hjoined) (fun h => hready _ h) hs.once
  | mutex =>
    exact hs.step hothers rfl (fun _ => rfl) ⟨hzero, rfl⟩ hs.val nofun nofun
      (fun _ => ⟨hone, hset nofun⟩) hs.once

theorem Solo.next (hs : Solo s) (hf : Found s act) (hd : Deed N s act t) : Solo t := by
  have hothers : (s.pc act.proc).inside = true → ∀ q, q ≠ act.proc → (s.pc q).inside = false :=
    fun hin q hq => by
      cases hq' : (s.pc q).inside with
      | false => rfl
      | true => exact absurd (hs.one q act.proc hq' hin) hq
  have hfits := hs.fits act.proc
  -- a step after `sem_post`
  have hafter : ∀ {u : State π} {c : Pc}, (s.pc act.proc).past = true → c.past = true →
      u.pc = Function.update s.pc act.proc c → u.sem = s.sem → u.ready = s.ready →
      u.inits = s.inits → u.seg.intialised = s.seg.intialised → Solo u :=
    fun hbefore hpast hpc hsem hready hinits hset => by
      have htrue := hfits.past hbefore
      have hc := Fits.of_past hpast htrue
      exact hs.quiet hpc hsem hready hinits hset (.inr htrue) hc.2 hc.1
  cases hd with
  | took hpc hpos => exact hs.took hpos
  | missed hpc hstep hzero => exact absurd (hf hstep hpc) (by omega)
  | skipped hpc hset =>
    rw [hpc] at hfits
    have htrue : s.ready = true := by
      cases hready : s.ready with
      | true => rfl
      | false => exact absurd hset (hfits.2 hready).1
    exact hs.step (hothers (by rw [hpc]; rfl)) rfl id ⟨hfits.1, htrue⟩ hs.val hs.unset hs.early hs.set
      hs.once
  | entered hpc hset =>
    rw [hpc] at hfits
    have hnot : s.ready = false := by
      cases hready : s.ready with
      | false => rfl
      | true => exact absurd (hs.set hready).2 hset
    have hone : s.inits + 1 = 1 := by rw [(hfits.2 hnot).2]
    refine hs.step (hothers (by rw [hpc]; rfl)) rfl id ⟨hfits.1, hnot, hone, fun h => absurd rfl h⟩
      hs.val (fun _ hpos => ?_) hs.early (fun h => ?_) (Nat.le_of_eq hone)
    · exact absurd hfits.1 (Nat.ne_of_gt hpos)
    · rw [show s.ready = true from h] at hnot; cases hnot
  | stored hpc => exact hs.stored hpc (hothers (by rw [hpc]; rfl))
  | posted hpc =>
    rw [hpc] at hfits
    refine hs.step (c := .joinLock) (hothers (by rw [hpc]; rfl)) rfl id hfits.2
      (Nat.le_of_eq (congrArg (· + 1) hfits.1)) (fun h => ?_) hs.early hs.set hs.once
    have htrue := hfits.2
    rw [show s.ready = false from h] at htrue
    cases htrue
  | moved halike _ _ | locked halike _ _ _ _ | unlocked halike _ _ _ =>
    exact hafter halike.before halike.past rfl rfl rfl rfl rfl
  | joined hpc | hit hpc | sampled hpc | left hpc | printed hpc | destroyed hpc | unlinkedSem hpc
  | unlinkedShm hpc => exact hafter (by rw [hpc]; rfl) rfl rfl rfl rfl rfl rfl
  | tested hpc =>
    refine hafter (c := _) (by rw [hpc]; rfl) ?_ rfl rfl rfl rfl rfl
    split <;> rfl
  | killed _ _ => exact hs.quiet rfl rfl rfl rfl rfl (.inl rfl) rfl trivial

omit [DecidableEq π] in
theorem fresh_solo : Solo (fresh π) where
  val := Nat.le_refl 1
  one _ _ h := nomatch h
  fits _ := trivial
  unset _ _ := ⟨nofun, rfl⟩
  early _ := rfl
  set h := nomatch h
  once := Nat.zero_le 1

theorem solo_reach (h : (starts N).ReachIf Found s) : Solo s := by
  refine h.inv (I := Solo) (fun s hs => ?_) fun s act t _ hs hf hn => hs.next hf (next_deed hn)
  exact hs ▸ fresh_solo

/-- **One initialiser**, if no `sem_trywait` fails: the body of `TryInitSharedData` is
entered once and completed before any process gets past `sem_post`, the counter is not
reset once a process has joined, and the semaphore stays at 1 or below. -/
theorem one_initialiser (h : (starts N).ReachIf Found s) :
    s.inits ≤ 1 ∧ (∀ p, (s.pc p).past = true → s.inits = 1 ∧ s.ready = true) ∧
      (∀ p, s.pc p = .init .counter → s.joined = []) ∧ s.sem ≤ 1 := by
  have hs := solo_reach h
  refine ⟨hs.once, fun p hp => ?_, fun p hp => ?_, hs.val⟩
  · have htrue := (hs.fits p).past hp
    exact ⟨(hs.set htrue).1, htrue⟩
  · have hfits := hs.fits p
    rw [hp] at hfits
    exact hs.early hfits.2.1

def steps (p : π) (n : Nat) : List (Act π) := List.replicate n ⟨p, .step⟩

/-- One process after the other: both have joined. -/
theorem one_initialiser_two : ∃ s : State Bool, (starts fun _ => 1000).ReachIf Found s ∧
    (s.pc false).past = true ∧ s.inits = 1 ∧ s.ready = true ∧ s.sem ≤ 1 := by
  have hrun : ((starts fun _ => 1000).execIf Found (fresh Bool)
      (steps true 12 ++ steps false 7)).map (fun s => (s.pc false).past) = some true := by
    decide +kernel
  obtain ⟨s, hs, hpast⟩ := Option.map_eq_some_iff.mp hrun
  have hr := LTS.ReachIf.execIf (.init rfl) hs
  obtain ⟨-, hone, -, hsem⟩ := one_initialiser hr
  exact ⟨s, hr, hpast, (hone false hpast).1, (hone false hpast).2, hsem⟩

/-- **Two initialisers.** The second process finds the semaphore taken and posts it, so
the third also enters the body, before the first has set the flag; it will reset the
counter after the first has joined. -/
theorem two_initialisers : ∃ s : State (Fin 3), (starts fun _ => 1000).Reach s ∧ s.inits = 2 ∧
    s.pc 2 = .init .counter ∧ s.joined = [0] ∧ s.seg.counter = 1 := by
  have hrun : ((starts fun _ => 1000).exec (fresh (Fin 3))
      (steps 0 1 ++ steps 1 2 ++ steps 2 1 ++ steps 0 1 ++ steps 2 2 ++ steps 0 9)).map
        (fun s => (s.inits, s.pc 2, s.joined, s.seg.counter)) =
          some (2, .init .counter, [0], 1) := by decide +kernel
  obtain ⟨s, hs, heq⟩ := Option.map_eq_some_iff.mp hrun
  simp only [Prod.mk.injEq] at heq
  exact ⟨s, LTS.Reach.exec (.init rfl) hs, heq⟩

end Ops.Pi
