import Ops.Letters.Framing

/-!
# When lines are messages

A message of `MAX_BUFF` letters makes the parent store outside `buf`. The parent leaves a
message in `R` only when `SIGCHLD` has replaced the `EINTR` of an interrupted `read`.
-/

namespace Ops.Letters

variable {n : Nat} {s t : State}

/-! ## The end of the loop -/

/-- Once the parent has left its loop, no child lives and `R` is empty. -/
structure Ended (n : Nat) (s : State) : Prop where
  beyond : ∀ i, n ≤ i → s.child i = .dead
  done : s.parent = .done → s.R = [] ∧ s.allDead n = true

namespace Ended

theorem dead (h : Ended n s) (hall : s.allDead n = true) (i : Nat) : s.child i = .dead := by
  rcases Nat.lt_or_ge i n with hi | hi
  · exact State.allDead_iff.mp hall i hi
  · exact h.beyond i hi

theorem moved (h : Ended n s) {i : Nat} {c : Child} (halive : s.child i ≠ .dead)
    (hchild : t.child = Function.update s.child i c) (hp : t.parent = s.parent) : Ended n t := by
  refine ⟨fun k hk => ?_, fun hdone => ?_⟩
  · have hki : k ≠ i := by
      rintro rfl
      exact halive (h.beyond k hk)
    rw [hchild, Function.update_of_ne hki]
    exact h.beyond k hk
  · exact absurd (h.dead (h.done (hp ▸ hdone)).2 i) halive

theorem work (h : Ended n s) (hw : Work n s t) : Ended n t := by
  refine ⟨fun i hi => by rw [hw.child, h.beyond i hi], fun hdone => ?_⟩
  cases hw with
  | eof hp hR hall => exact ⟨hR, hall⟩
  | payload hp hn =>
    unfold State.readPayload at hn
    split at hn
    · cases hn
    · split at hn
      · cases hn
        cases hdone
      · cases hn
        simp only [State.goto] at hdone
        split at hdone <;> cases hdone
  | _ => cases hdone

theorem handled (h : Ended n s) {p : Pc} (hp : Handled s p) (hchild : t.child = s.child)
    (hR : t.R = s.R) : Ended n (t.goto p) := by
  refine ⟨fun i hi => by rw [State.goto, hchild, h.beyond i hi], fun hdone => ?_⟩
  cases hp with
  | stays =>
    have hs := h.done hdone
    unfold State.allDead State.goto
    rw [hchild, hR]
    exact hs
  | ends errno => cases hdone

theorem step {act : Act} (h : Ended n s) (hn : s.next n act = some t) : Ended n t := by
  cases (next_step hn).2.2 with
  | parent r hwork => exact h.work hwork
  | sigint eintr hp | sigchld eintr hp => exact h.handled hp rfl rfl
  | child hn =>
    obtain ⟨halive, ⟨c, hchild⟩, haside⟩ := child_step hn
    exact h.moved halive hchild haside.parent
  | die hn =>
    obtain ⟨halive, ⟨c, hchild⟩, haside⟩ := die_step hn
    exact h.moved halive hchild haside.parent

theorem start {buf : List Byte} : Ended n (Letters.start n buf) :=
  ⟨fun _ hi => if_neg (Nat.not_lt.mpr hi), nofun⟩

theorem reach (h : (Letters.letters n).Reach s) : Ended n s := by
  refine h.inv (I := Ended n) ?_ fun _ _ _ _ hi hn => hi.step hn
  rintro _ ⟨buf, -, rfl⟩
  exact .start

end Ended

/-! ## The law of the lines -/

/-- Each line is the payload of a message, in the order of the messages; the parent has
stored nothing outside `buf`, and leaves no message in `R`. -/
structure Framed (s : State) : Prop where
  order : s.InOrder
  inside : s.parent ≠ .undefined
  ended : s.parent = .done ∨ s.parent = .failed → s.R = []

/-- The NUL fits behind the message, and `SIGCHLD` has changed `errno` behind a `read` only
when `R` is empty. -/
def Fits (s : State) : Act → Prop
  | .parent _ => (∀ c, s.parent = .terminate c → c < MAX_BUFF) ∧
    (s.parent = .interrupted .ECHILD → s.R = [])
  | _ => True

/-- The part of the law that does not hold in every run. -/
def State.Sound (s : State) : Prop := s.parent ≠ .undefined ∧ (s.parent = .failed → s.R = [])

theorem framed_iff (hi : Inv s) (he : Ended n s) : Framed s ↔ s.Sound := by
  constructor
  · intro h
    exact ⟨h.inside, fun hp => h.ended (.inr hp)⟩
  · rintro ⟨hin, hfailed⟩
    refine ⟨hi.order hin, hin, fun hp => ?_⟩
    rcases hp with hp | hp
    · exact (he.done hp).1
    · exact hfailed hp

theorem State.Sound.of_ne (hin : s.parent ≠ .undefined) (hfailed : s.parent ≠ .failed) :
    s.Sound :=
  ⟨hin, fun hp => absurd hp hfailed⟩

theorem Aside.sound (h : Aside s t) (hin : s.parent ≠ .undefined) (hfailed : s.parent ≠ .failed) :
    t.Sound :=
  .of_ne (h.parent ▸ hin) (h.parent ▸ hfailed)

theorem work_sound (hi : Inv s) {r : Nat} (hw : Work n s t) : t.Sound ↔ Fits s (.parent r) := by
  have hfits : (∀ c, s.parent ≠ .terminate c) → s.parent ≠ .interrupted .ECHILD →
      t.Sound → (t.Sound ↔ Fits s (.parent r)) := fun hterm hechild ht =>
    iff_of_true ht ⟨fun c hc => absurd hc (hterm c), fun hp => absurd hp hechild⟩
  cases hw with
  | serve r hp | pass hp | skip hp | pick r hp | none hp | broken hp | sent hp | clear hp | wait hp
  | again hp | print hp =>
    exact hfits (by simp [hp]) (by simp [hp]) (.of_ne nofun nofun)
  | begin hp | eof hp =>
    refine hfits (fun c hc => ?_) (fun hc => ?_) (.of_ne nofun nofun)
    · simp [hc] at hp
    · simp [hc] at hp
  | payload hp hn =>
    have ht := (hi.readPayload hp hn).2
    exact hfits (by simp [hp]) (by simp [hp]) (.of_ne (by simp [ht]) (by simp [ht]))
  | fail hp => simp [State.Sound, Fits, State.goto, hp]
  | terminate hp hc => simp [State.Sound, Fits, State.goto, hp, hc]
  | overrun hp hc =>
    simp only [State.Sound, Fits, State.goto, hp, Pc.terminate.injEq, forall_eq', hc]
    simp

theorem sound_step {act : Act} (hi : Inv s) (hn : s.next n act = some t) :
    t.Sound ↔ s.Sound ∧ Fits s act := by
  obtain ⟨hfailed, hin, hstep⟩ := next_step hn
  rw [and_iff_right (State.Sound.of_ne hin hfailed)]
  have hhandled : ∀ {u : State} {p : Pc}, Handled s p → (u.goto p).Sound := fun hp => by
    cases hp with
    | stays => exact .of_ne hin hfailed
    | ends errno => exact .of_ne nofun nofun
  cases hstep with
  | parent r hwork => exact work_sound hi hwork
  | sigint eintr hp => exact iff_of_true (hhandled hp) trivial
  | sigchld eintr hp => exact iff_of_true (hhandled hp) trivial
  | child hn => exact iff_of_true ((child_step hn).2.2.sound hin hfailed) trivial
  | die hn => exact iff_of_true ((die_step hn).2.2.sound hin hfailed) trivial

/-- **Lines are messages.** After every run from any contents of `buf`, the printed lines are
the payloads of the messages in their order, with none lost, and no store was outside `buf`,
if and only if every step of the run fits. -/
theorem framed_run {buf : List Byte} {as : List Act} (hbuf : buf.length = MAX_BUFF)
    (he : (letters n).exec (start n buf) as = some s) :
    Framed s ↔ (letters n).Along Fits (start n buf) as := by
  have hrun := LTS.along_iff (L := letters n) (I := Inv) (G := State.Sound) (P := Fits)
    (fun s act t h hn => h.step hn) (fun s act t h hn => sound_step h hn) (.start hbuf) he
  have hreach : (letters n).Reach s := LTS.Reach.exec (.init ⟨buf, hbuf, rfl⟩) he
  have hstart : (start n buf).Sound := .of_ne nofun nofun
  rw [framed_iff (.reach hreach) (.reach hreach), hrun, and_iff_right hstart]

/-- One child is sent a letter and answers with three copies of it. -/
theorem framed_run_three : ∃ s, (letters 1).exec (start 1 (List.replicate 200 7))
    ([.sigint false] ++ List.replicate 4 (.parent 1) ++ List.replicate 3 (.child 0 2) ++
      List.replicate 4 (.parent 0)) = some s ∧ s.printed = [[98, 98, 98]] ∧
    (letters 1).Along Fits (start 1 (List.replicate 200 7))
      ([.sigint false] ++ List.replicate 4 (.parent 1) ++ List.replicate 3 (.child 0 2) ++
        List.replicate 4 (.parent 0)) := by
  have hrun : ((letters 1).exec (start 1 (List.replicate 200 7))
      ([.sigint false] ++ List.replicate 4 (.parent 1) ++ List.replicate 3 (.child 0 2) ++
        List.replicate 4 (.parent 0))).map
      (fun s => (s.parent, s.R, s.printed, s.sent.map Message.payload)) =
      some (.test, [], [[98, 98, 98]], [[98, 98, 98]]) := by decide
  obtain ⟨s, hs, heq⟩ := Option.map_eq_some_iff.mp hrun
  simp only [Prod.mk.injEq] at heq
  obtain ⟨hp, hR, hprinted, hsent⟩ := heq
  refine ⟨s, hs, hprinted, (framed_run List.length_replicate hs).mp ⟨⟨[], ?_, ?_⟩, ?_, fun _ => hR⟩⟩
  · simp [State.unread, hp, hR]
  · simp [State.reading, hp, hprinted, hsent]
  · simp [hp]

/-- A child answers with 200 copies: the parent stores the NUL in `buf[200]`. -/
theorem outside_buf : ∃ s, (letters 1).Reach s ∧ s.parent = .undefined ∧ ¬ Framed s := by
  have hrun : ((letters 1).exec (start 1 (List.replicate 200 7))
      ([.sigint false] ++ List.replicate 4 (.parent 1) ++ List.replicate 3 (.child 0 199) ++
        List.replicate 3 (.parent 0))).map (fun s => s.parent) = some .undefined := by
    decide +kernel
  obtain ⟨s, hs, hp⟩ := Option.map_eq_some_iff.mp hrun
  exact ⟨s, LTS.Reach.exec (.init ⟨_, List.length_replicate, rfl⟩) hs, hp, fun h => h.inside hp⟩

end Ops.Letters
