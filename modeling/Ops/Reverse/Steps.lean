import Ops.Reverse.Process

/-!
# What a step of `mainWork` does

`MainStep` lists the steps with what they have tested or locked.
-/

namespace Ops.Reverse

open Posix (Locks Party)

variable {n : Nat} {s t : State} {r r' : Nat}

inductive MainStep (n : Nat) (s : State) (r r' : Nat) : State → Prop where
  | woke : s.main = .suspend → (s.pending1 || s.pending2) = true → MainStep n s r r' s.deliver
  | chose1 : s.main = .test → s.SigUsr1Received = true → MainStep n s r r' { s with main := .draw }
  | chose2 : s.main = .test → s.SigUsr1Received = false → s.SigUsr2Received = true →
      MainStep n s r r' { s with main := .create }
  | none : s.main = .test → s.SigUsr1Received = false → s.SigUsr2Received = false →
      MainStep n s r r' { s with main := .suspend }
  | drawn : s.main = .draw → 1 < n → MainStep n s r r' { s with
      main := .lockA (r % (n - 1)) (r' % (n - r % (n - 1)) + r % (n - 1)) }
  | lockedA {a b : Nat} {l : Locks Nat (Party Nat)} : s.main = .lockA a b →
      s.locks.lock a .main = some l → MainStep n s r r' { s with locks := l, main := .lockB a b }
  | lockedB {a b : Nat} {l : Locks Nat (Party Nat)} : s.main = .lockB a b →
      s.locks.lock b .main = some l → MainStep n s r r' { s with locks := l, main := .loadA a b }
  | loadedA {a b : Nat} : s.main = .loadA a b →
      MainStep n s r r' { s with main := .loadB a b (s.array a) }
  | loadedB {a b temp : Nat} : s.main = .loadB a b temp →
      MainStep n s r r' { s with main := .storeA a b temp (s.array b) }
  | storedA {a b temp v : Nat} : s.main = .storeA a b temp v → MainStep n s r r' { s with
      array := Function.update s.array a v
      main := .storeB a b temp }
  | storedB {a b temp : Nat} : s.main = .storeB a b temp → MainStep n s r r' { s with
      array := Function.update s.array b temp
      main := .unlockB a b }
  | unlockedB {a b : Nat} {l : Locks Nat (Party Nat)} : s.main = .unlockB a b →
      s.locks.unlock b .main = some l →
      MainStep n s r r' { s with locks := l, main := .unlockA a b }
  | unlockedA {a b : Nat} {l : Locks Nat (Party Nat)} : s.main = .unlockA a b →
      s.locks.unlock a .main = some l → MainStep n s r r' { s with locks := l, main := .narrow a b }
  | reversed {a b : Nat} : s.main = .narrow a b →
      MainStep n s r r' { s with main := .clear1, reversals := s.reversals + 1 }
  | narrowed {a b : Nat} : s.main = .narrow a b → a + 1 < b - 1 →
      MainStep n s r r' { s with main := .lockA (a + 1) (b - 1) }
  | cleared1 : s.main = .clear1 →
      MainStep n s r r' { s with SigUsr1Received := false, main := .suspend }
  | created : s.main = .create → MainStep n s r r'
      { s.goto s.created (.lock 0) with created := s.created + 1, main := .clear2 }
  | cleared2 : s.main = .clear2 →
      MainStep n s r r' { s with SigUsr2Received := false, main := .suspend }

theorem mainWork_step (hn : s.mainWork n r r' = some t) : MainStep n s r r' t := by
  unfold State.mainWork at hn
  cases hpc : s.main with
  | suspend =>
    simp only [hpc] at hn
    split at hn
    · rename_i hpending
      cases hn
      exact .woke hpc hpending
    · cases hn
  | test =>
    simp only [hpc] at hn
    split at hn
    · rename_i h1
      cases hn
      exact .chose1 hpc h1
    · rename_i h1
      split at hn
      · rename_i h2
        cases hn
        exact .chose2 hpc (Bool.eq_false_iff.mpr h1) h2
      · rename_i h2
        cases hn
        exact .none hpc (Bool.eq_false_iff.mpr h1) (Bool.eq_false_iff.mpr h2)
  | draw =>
    simp only [hpc] at hn
    split at hn
    · cases hn
    · rename_i hlarge
      cases hn
      exact .drawn hpc (Nat.not_le.mp hlarge)
  | lockA a b =>
    simp only [hpc] at hn
    obtain ⟨l, hl, rfl⟩ := Option.map_eq_some_iff.mp hn
    exact .lockedA hpc hl
  | lockB a b =>
    simp only [hpc] at hn
    obtain ⟨l, hl, rfl⟩ := Option.map_eq_some_iff.mp hn
    exact .lockedB hpc hl
  | unlockB a b =>
    simp only [hpc] at hn
    obtain ⟨l, hl, rfl⟩ := Option.map_eq_some_iff.mp hn
    exact .unlockedB hpc hl
  | unlockA a b =>
    simp only [hpc] at hn
    obtain ⟨l, hl, rfl⟩ := Option.map_eq_some_iff.mp hn
    exact .unlockedA hpc hl
  | loadA a b =>
    simp only [hpc, Option.some.injEq] at hn
    exact hn ▸ .loadedA hpc
  | loadB a b temp =>
    simp only [hpc, Option.some.injEq] at hn
    exact hn ▸ .loadedB hpc
  | storeA a b temp v =>
    simp only [hpc, Option.some.injEq] at hn
    exact hn ▸ .storedA hpc
  | storeB a b temp =>
    simp only [hpc, Option.some.injEq] at hn
    exact hn ▸ .storedB hpc
  | narrow a b =>
    simp only [hpc] at hn
    split at hn
    · cases hn
      exact .reversed hpc
    · rename_i hwide
      cases hn
      exact .narrowed hpc (Nat.not_le.mp hwide)
  | clear1 =>
    simp only [hpc, Option.some.injEq] at hn
    exact hn ▸ .cleared1 hpc
  | create =>
    simp only [hpc, Option.some.injEq] at hn
    exact hn ▸ .created hpc
  | clear2 =>
    simp only [hpc, Option.some.injEq] at hn
    exact hn ▸ .cleared2 hpc

end Ops.Reverse
