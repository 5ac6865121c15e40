import Ops.Reverse.Locking

/-!
# What becomes of a signal

`mainWork` serves one of the two flags each time `sigsuspend` returns. So a printout is
owed when both signals were delivered by one `sigsuspend`, and only then.
-/

namespace Ops.Reverse

def MainPc.serves1 : MainPc → Bool
  | .suspend | .test | .create | .clear2 => false
  | _ => true

def MainPc.serves2 : MainPc → Bool
  | .create | .clear2 => true
  | _ => false

def MainPc.reversed : MainPc → Nat
  | .clear1 => 1
  | _ => 0

/-- The thread is created and its flag is still set. -/
def MainPc.started : MainPc → Nat
  | .clear2 => 1
  | _ => 0

variable {n : Nat} {s t : State}

def OneSignal (s : State) : Act → Prop
  | .main _ _ => s.main = .suspend → s.pending1 = false ∨ s.pending2 = false
  | _ => True

/-- Every signal delivered so far has led to its reversal or its printing thread. -/
structure Served (s : State) : Prop where
  flag1 : s.SigUsr1Received = false
  flag2 : s.SigUsr2Received = false
  reversals : s.reversals = s.delivered1
  printouts : s.created = s.delivered2

structure Flags (s : State) : Prop where
  idle : s.main = .suspend → s.SigUsr1Received = false
  first : s.main.serves1 = true → s.SigUsr1Received = true
  second : s.main.serves2 = true → s.SigUsr1Received = false ∧ s.SigUsr2Received = true
  reversals : s.delivered1 + s.main.reversed = s.reversals + s.SigUsr1Received.toNat
  printouts : s.created + s.SigUsr2Received.toNat ≤ s.delivered2 + s.main.started

/-- No printout is late. -/
def InTime (s : State) : Prop :=
  s.created + s.SigUsr2Received.toNat = s.delivered2 + s.main.started ∧
    (s.SigUsr2Received = true → s.main ≠ .suspend ∧ s.SigUsr1Received = false)

/-- What a step of `mainWork` does to the flags and the counts. -/
inductive Serve (s : State) : State → Prop where
  | woke : s.main = .suspend → (s.pending1 || s.pending2) = true → Serve s s.deliver
  | chose1 : s.main = .test → s.SigUsr1Received = true → Serve s { s with main := .draw }
  | chose2 : s.main = .test → s.SigUsr1Received = false → s.SigUsr2Received = true →
      Serve s { s with main := .create }
  | none : s.main = .test → s.SigUsr1Received = false → s.SigUsr2Received = false →
      Serve s { s with main := .suspend }
  | moved {c : MainPc} {array : Nat → Nat} {l : Posix.Locks Nat (Posix.Party Nat)} :
      s.main.serves1 = true → c.serves1 = true → s.main.reversed = 0 → c.reversed = 0 →
      Serve s { s with main := c, array := array, locks := l }
  | reversed : s.main.serves1 = true → s.main.reversed = 0 →
      Serve s { s with main := .clear1, reversals := s.reversals + 1 }
  | cleared1 : s.main = .clear1 → Serve s { s with SigUsr1Received := false, main := .suspend }
  | created : s.main = .create → Serve s
      { s.goto s.created (.lock 0) with created := s.created + 1, main := .clear2 }
  | cleared2 : s.main = .clear2 → Serve s { s with SigUsr2Received := false, main := .suspend }

theorem mainWork_serve {r r' : Nat} (hn : s.mainWork n r r' = some t) : Serve s t := by
  cases mainWork_step hn with
  | woke hpc hpending => exact .woke hpc hpending
  | chose1 hpc h1 => exact .chose1 hpc h1
  | chose2 hpc h1 h2 => exact .chose2 hpc h1 h2
  | none hpc h1 h2 => exact .none hpc h1 h2
  | drawn hpc | lockedA hpc | lockedB hpc | loadedA hpc | loadedB hpc | storedA hpc | storedB hpc
  | unlockedB hpc | unlockedA hpc | narrowed hpc =>
    exact .moved (by simp [hpc, MainPc.serves1]) rfl (by simp [hpc, MainPc.reversed]) rfl
  | reversed hpc => exact .reversed (by simp [hpc, MainPc.serves1]) (by simp [hpc, MainPc.reversed])
  | cleared1 hpc => exact .cleared1 hpc
  | created hpc => exact .created hpc
  | cleared2 hpc => exact .cleared2 hpc

theorem MainPc.serves_cases {c : MainPc} (h : c.serves1 = true) :
    c ≠ .suspend ∧ c.serves2 = false ∧ c.started = 0 := by
  cases c <;> simp_all [MainPc.serves1, MainPc.serves2, MainPc.started]

theorem toNat_or (a b : Bool) : (a || b).toNat ≤ a.toNat + b.toNat := by
  cases a <;> cases b <;> decide

namespace Flags

theorem serve (h : Flags s) (hs : Serve s t) : Flags t := by
  obtain ⟨hidle, hfirst, hsecond, hreversals, hprintouts⟩ := h
  cases hs with
  | woke hpc =>
    have h1 := hidle hpc
    have hor := toNat_or s.SigUsr2Received s.pending2
    simp only [hpc, MainPc.reversed, MainPc.started, h1, Bool.toNat_false] at hreversals hprintouts
    refine ⟨(by rintro ⟨⟩), (by rintro ⟨⟩), (by rintro ⟨⟩), ?_, ?_⟩
    · simp only [State.deliver, MainPc.reversed, h1, Bool.false_or]
      omega
    · simp only [State.deliver, MainPc.started]
      omega
  | chose1 hpc h1 =>
    simp only [hpc, MainPc.reversed, MainPc.started] at hreversals hprintouts
    exact ⟨(by rintro ⟨⟩), fun _ => h1, (by rintro ⟨⟩), hreversals, hprintouts⟩
  | chose2 hpc h1 h2 =>
    simp only [hpc, MainPc.reversed, MainPc.started] at hreversals hprintouts
    exact ⟨(by rintro ⟨⟩), (by rintro ⟨⟩), fun _ => ⟨h1, h2⟩, hreversals, hprintouts⟩
  | none hpc h1 h2 =>
    simp only [hpc, MainPc.reversed, MainPc.started] at hreversals hprintouts
    exact ⟨fun _ => h1, (by rintro ⟨⟩), (by rintro ⟨⟩), hreversals, hprintouts⟩
  | moved hserves hserves' hreversed hreversed' =>
    obtain ⟨-, -, hstarted⟩ := MainPc.serves_cases hserves
    obtain ⟨hsuspend', hserves2', hstarted'⟩ := MainPc.serves_cases hserves'
    refine ⟨fun hc => absurd hc hsuspend', fun _ => hfirst hserves, ?_, ?_, ?_⟩
    · simp [hserves2']
    · simp only [hreversed']
      omega
    · simp only [hstarted']
      omega
  | reversed hserves hreversed =>
    obtain ⟨-, -, hstarted⟩ := MainPc.serves_cases hserves
    refine ⟨(by rintro ⟨⟩), fun _ => hfirst hserves, (by rintro ⟨⟩), ?_, ?_⟩
    · simp only [MainPc.reversed]
      omega
    · simp only [MainPc.started]
      omega
  | cleared1 hpc =>
    have h1 := hfirst (by simp [hpc, MainPc.serves1])
    simp only [hpc, MainPc.reversed, MainPc.started, h1, Bool.toNat_true] at hreversals hprintouts
    refine ⟨fun _ => rfl, (by rintro ⟨⟩), (by rintro ⟨⟩), ?_, hprintouts⟩
    simp only [MainPc.reversed, Bool.toNat_false]
    omega
  | created hpc =>
    have h2 := hsecond (by simp [hpc, MainPc.serves2])
    simp only [hpc, MainPc.reversed, MainPc.started] at hreversals hprintouts
    refine ⟨(by rintro ⟨⟩), (by rintro ⟨⟩), fun _ => h2, hreversals, ?_⟩
    simp only [MainPc.started, State.goto]
    omega
  | cleared2 hpc =>
    obtain ⟨h1, h2⟩ := hsecond (by simp [hpc, MainPc.serves2])
    simp only [hpc, MainPc.reversed, MainPc.started, h2, Bool.toNat_true] at hreversals hprintouts
    refine ⟨fun _ => h1, (by rintro ⟨⟩), (by rintro ⟨⟩), hreversals, ?_⟩
    simp only [MainPc.started, Bool.toNat_false]
    omega

theorem inTime (h : Flags s) (hs : Serve s t) (r r' : Nat) :
    InTime t ↔ InTime s ∧ OneSignal s (.main r r') := by
  obtain ⟨hidle, hfirst, hsecond, hreversals, hprintouts⟩ := h
  have hone : s.main ≠ .suspend → OneSignal s (.main r r') := fun hne hpc => absurd hpc hne
  cases hs with
  | woke hpc hpending =>
    have h1 := hidle hpc
    simp only [hpc, MainPc.started] at hprintouts
    simp only [InTime, OneSignal, State.deliver, hpc, MainPc.started, h1]
    cases hp1 : s.pending1 <;> cases hp2 : s.pending2 <;> cases h2 : s.SigUsr2Received <;>
      simp [hp1, hp2, h2] at hpending hprintouts ⊢
    all_goals omega
  | chose1 hpc h1 =>
    have hne : s.main ≠ .suspend := by simp [hpc]
    simp [InTime, hone hne, hpc, MainPc.started, h1]
  | chose2 hpc h1 h2 =>
    have hne : s.main ≠ .suspend := by simp [hpc]
    simp [InTime, hone hne, hpc, MainPc.started, h1, h2]
  | none hpc h1 h2 =>
    have hne : s.main ≠ .suspend := by simp [hpc]
    simp [InTime, hone hne, hpc, MainPc.started, h1, h2]
  | moved hserves hserves' =>
    obtain ⟨hne, -, hstarted⟩ := MainPc.serves_cases hserves
    obtain ⟨hne', -, hstarted'⟩ := MainPc.serves_cases hserves'
    simp [InTime, hone hne, hne, hne', hstarted, hstarted']
  | reversed hserves =>
    obtain ⟨hne, -, hstarted⟩ := MainPc.serves_cases hserves
    have hclear : MainPc.started .clear1 = 0 := rfl
    simp [InTime, hone hne, hne, hstarted, hclear]
  | cleared1 hpc =>
    have hne : s.main ≠ .suspend := by simp [hpc]
    have h1 := hfirst (by simp [hpc, MainPc.serves1])
    simp [InTime, hone hne, hpc, MainPc.started, h1]
  | created hpc =>
    have hne : s.main ≠ .suspend := by simp [hpc]
    obtain ⟨h1, h2⟩ := hsecond (by simp [hpc, MainPc.serves2])
    simp only [InTime, hone hne, hpc, MainPc.started, h1, h2, State.goto]
    simp
  | cleared2 hpc =>
    have hne : s.main ≠ .suspend := by simp [hpc]
    obtain ⟨h1, h2⟩ := hsecond (by simp [hpc, MainPc.serves2])
    simp only [InTime, hone hne, hpc, MainPc.started, h1, h2]
    simp

theorem step (h : Flags s) {act : Act} (hn : s.next n act = some t) : Flags t := by
  cases act with
  | kill sig =>
    obtain ⟨hidle, hfirst, hsecond, hreversals, hprintouts⟩ := h
    cases sig <;> cases hn <;> exact ⟨hidle, hfirst, hsecond, hreversals, hprintouts⟩
  | main r r' => exact h.serve (mainWork_serve hn)
  | printer k =>
    obtain ⟨hidle, hfirst, hsecond, hreversals, hprintouts⟩ := h
    obtain ⟨c, l, line, rfl⟩ := printing_goto hn
    exact ⟨hidle, hfirst, hsecond, hreversals, hprintouts⟩

theorem inTime_step (h : Flags s) {act : Act} (hn : s.next n act = some t) :
    InTime t ↔ InTime s ∧ OneSignal s act := by
  cases act with
  | kill sig => cases sig <;> cases hn <;> simp [InTime, OneSignal]
  | main r r' => exact h.inTime (mainWork_serve hn) r r'
  | printer k =>
    obtain ⟨c, l, line, rfl⟩ := printing_goto hn
    simp [InTime, OneSignal, State.goto]

theorem start {garbage : Nat → Nat} : Flags (Reverse.start n garbage) :=
  ⟨fun _ => rfl, nofun, nofun, rfl, Nat.le_refl 0⟩

/-- When `mainWork` is about to wait, nothing is late if and only if everything is served. -/
theorem served (h : Flags s) (hs : s.main = .suspend) : Served s ↔ InTime s := by
  have h1 := h.idle hs
  have hreversals := h.reversals
  simp only [hs, MainPc.reversed, h1, Bool.toNat_false, Nat.add_zero] at hreversals
  refine ⟨fun hserved => ⟨?_, fun h2 => ?_⟩, fun ⟨hcount, hflag⟩ => ?_⟩
  · simpa [hs, MainPc.started, hserved.flag2] using hserved.printouts
  · simp [hserved.flag2] at h2
  · have h2 : s.SigUsr2Received = false := by
      cases h2 : s.SigUsr2Received with
      | false => rfl
      | true => exact absurd hs (hflag h2).1
    exact ⟨h1, h2, hreversals.symm, by simpa [hs, MainPc.started, h2] using hcount⟩

end Flags

/-- **Signals.** When `mainWork` is about to call `sigsuspend` again, every signal delivered so
far has led to its reversal or printout, if and only if no `sigsuspend` of the run has delivered
both signals. -/
theorem served_iff {garbage : Nat → Nat} {as : List Act}
    (he : (reverser n).exec (start n garbage) as = some s) (hs : s.main = .suspend) :
    Served s ↔ (reverser n).Along OneSignal (start n garbage) as := by
  have hrun := LTS.along_iff (L := reverser n) (I := Flags) (G := InTime) (P := OneSignal)
    (fun s act t h hn => h.step hn) (fun s act t h hn => h.inTime_step hn) Flags.start he
  have hflags : Flags s := by
    refine LTS.Reach.inv (L := reverser n) (I := Flags) ?_ (fun _ _ _ _ h hn => h.step hn)
      (LTS.Reach.exec (.init ⟨garbage, rfl⟩) he)
    rintro _ ⟨garbage, rfl⟩
    exact .start
  have hstart : InTime (start n garbage) := ⟨rfl, nofun⟩
  rw [hflags.served hs, hrun]
  exact and_iff_right hstart

/-- Eight elements and one exchange. -/
theorem served_iff_eight : ∃ s, (reverser 8).exec (start 8 id)
    (.kill .usr1 :: List.replicate 13 (.main 6 1)) = some s ∧ s.delivered1 = 1 ∧
    (reverser 8).Along OneSignal (start 8 id) (.kill .usr1 :: List.replicate 13 (.main 6 1)) := by
  have hrun : ((reverser 8).exec (start 8 id)
      (.kill .usr1 :: List.replicate 13 (.main 6 1))).map (fun s => ((s.main, s.delivered1),
        (s.SigUsr1Received, s.SigUsr2Received), (s.reversals, s.created, s.delivered2))) =
      some ((.suspend, 1), (false, false), (1, 0, 0)) := by decide
  obtain ⟨s, hs, heq⟩ := Option.map_eq_some_iff.mp hrun
  simp only [Prod.mk.injEq] at heq
  obtain ⟨⟨hmain, h1⟩, ⟨hflag1, hflag2⟩, hreversals, hcreated, h2⟩ := heq
  refine ⟨s, hs, h1, (served_iff hs hmain).mp ⟨hflag1, hflag2, ?_, ?_⟩⟩
  · rw [hreversals, h1]
  · rw [hcreated, h2]

/-- Both signals are pending: after the reversal `mainWork` waits again, with the flag of
`SIGUSR2` set and no printing thread. -/
theorem printout_late : ∃ s, (reverser 8).Reach s ∧ s.main = .suspend ∧ ¬ Served s := by
  have hrun : ((reverser 8).exec (start 8 id)
      ([.kill .usr1, .kill .usr2] ++ List.replicate 13 (.main 6 1))).map
      (fun s => (s.main, s.SigUsr2Received)) = some (.suspend, true) := by decide
  obtain ⟨s, hs, heq⟩ := Option.map_eq_some_iff.mp hrun
  simp only [Prod.mk.injEq] at heq
  refine ⟨s, LTS.Reach.exec (.init ⟨_, rfl⟩) hs, heq.1, fun hserved => ?_⟩
  simp [hserved.flag2] at heq

end Ops.Reverse
