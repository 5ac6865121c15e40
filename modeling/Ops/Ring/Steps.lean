import Ops.Ring.Process

/-!
# What a step of the ring does

A step of the setup goes on in the code, closes one end, opens a pipe or creates a child;
a process that works draws, writes or reads.
-/

namespace Ops.Ring

open Posix (End Fds)

/-- Process `p` goes on in the code and does nothing else. -/
inductive Pc.Turns (q p : Nat) : Pc → Pc → Prop where
  | piped : Turns q p (.pipe 0) (.fork 1)
  | forked {i : Nat} : q ≤ i → Turns q p (.fork i) (.closeReads 0)
  | readsClosed {i : Nat} : q - 1 ≤ i → Turns q p (.closeReads i) (.closeWrites 1)
  | writesClosed {i : Nat} : q ≤ i → Turns q p (.closeWrites i) .draw
  | readKept : p - 1 < q → Turns q p (.closeRead (p - 1)) (.closeWrite (p - 1))
  | closed {j : Nat} : q ≤ j → Turns q p (.closeRead j) .read
  | writeKept : Turns q p (.closeWrite p) (.closeRead (p + 1))
  | drawn (r : Nat) : Turns q p .draw (.write (decimal (r % 100)))

inductive Pc.Closes (q p : Nat) : Pc → End → Nat → Pc → Prop where
  | reads {i : Nat} : i < q - 1 → Closes q p (.closeReads i) .read i (.closeReads (i + 1))
  | writes {i : Nat} : i < q → Closes q p (.closeWrites i) .write i (.closeWrites (i + 1))
  | read {j : Nat} : j < q → j ≠ p - 1 → Closes q p (.closeRead j) .read j (.closeWrite j)
  | write {j : Nat} : j ≠ p → Closes q p (.closeWrite j) .write j (.closeRead (j + 1))

variable {q : Nat} {s t : State}

inductive Step (q : Nat) (s : State) : State → Prop where
  | turns {p : Nat} {c : Pc} : (s.pc p).Turns q p c → Step q s (s.goto p c)
  | closes {p j : Nat} {e : End} {c : Pc} : (s.pc p).Closes q p e j c → Step q s (s.close p e j c)
  | pipe {p n : Nat} : s.pc p = .pipe (n + 1) →
      Step q s ({ s with fds := Function.update s.fds p ((s.fds p).pipe n) }.goto p (.pipe n))
  | fork {p i : Nat} : s.pc p = .fork i → i < q →
      Step q s (({ s with fds := Function.update s.fds i (s.fds p) }.goto i (.closeRead 0)).goto p
        (.fork (i + 1)))
  | write {p : Nat} {message : List Char} {t : State} : s.pc p = .write message →
      s.write q p message = some t → Step q s t
  | read {p : Nat} {t : State} : s.pc p = .read → s.read q p = some t → Step q s t

theorem next_step {act : Act} (hn : s.next q act = some t) : Step q s t := by
  obtain ⟨p, r⟩ := act
  unfold State.next at hn
  simp only at hn
  have hturns : ∀ {c c' : Pc}, s.pc p = c → c.Turns q p c' → Step q s (s.goto p c') :=
    fun hpc h => .turns (hpc ▸ h)
  have hcloses : ∀ {c c' : Pc} {e : End} {j : Nat}, s.pc p = c → c.Closes q p e j c' →
      Step q s (s.close p e j c') := fun hpc h => .closes (hpc ▸ h)
  cases hpc : s.pc p with
  | off | exited => simp [hpc] at hn
  | pipe n =>
    cases n with
    | zero =>
      simp only [hpc, Option.some.injEq] at hn
      subst hn
      exact hturns hpc .piped
    | succ n =>
      simp only [hpc, Option.some.injEq] at hn
      subst hn
      exact .pipe hpc
  | fork i =>
    simp only [hpc] at hn
    split at hn
    · rename_i hi
      cases hn
      exact .fork hpc hi
    · rename_i hi
      cases hn
      exact hturns hpc (.forked (Nat.not_lt.mp hi))
  | closeReads i =>
    simp only [hpc] at hn
    split at hn
    · rename_i hi
      cases hn
      exact hcloses hpc (.reads hi)
    · rename_i hi
      cases hn
      exact hturns hpc (.readsClosed (Nat.not_lt.mp hi))
  | closeWrites i =>
    simp only [hpc] at hn
    split at hn
    · rename_i hi
      cases hn
      exact hcloses hpc (.writes hi)
    · rename_i hi
      cases hn
      exact hturns hpc (.writesClosed (Nat.not_lt.mp hi))
  | closeRead j =>
    simp only [hpc] at hn
    split at hn
    · rename_i hj
      split at hn
      · rename_i hne
        cases hn
        exact hcloses hpc (.read hj hne)
      · rename_i hkept
        cases hn
        obtain rfl : j = p - 1 := Decidable.of_not_not hkept
        exact hturns hpc (.readKept hj)
    · rename_i hj
      cases hn
      exact hturns hpc (.closed (Nat.not_lt.mp hj))
  | closeWrite j =>
    simp only [hpc] at hn
    split at hn
    · rename_i hne
      cases hn
      exact hcloses hpc (.write hne)
    · rename_i hkept
      cases hn
      obtain rfl : j = p := Decidable.of_not_not hkept
      exact hturns hpc .writeKept
  | draw =>
    simp only [hpc, Option.some.injEq] at hn
    subst hn
    exact hturns hpc (.drawn r)
  | write message =>
    simp only [hpc] at hn
    exact .write hpc hn
  | read =>
    simp only [hpc] at hn
    exact .read hpc hn

end Ops.Ring
