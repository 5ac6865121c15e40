import Ops.Lib.Update
import Ops.Reverse.Steps

/-!
# Who holds which mutex

A printing thread holds the mutexes below its index, from its first lock to its last
unlock; `mainWork` holds one or both mutexes of a pair.
-/

namespace Ops.Reverse

open Posix (Party Locks)

def Pc.holds (n : Nat) : Pc → Nat → Prop
  | .lock i, m | .unlock i, m => m < min i n
  | .read _, m => m < n
  | .off, _ | .done, _ => False

def MainPc.holds : MainPc → Nat → Prop
  | .lockB a _, m | .unlockA a _, m => m = a
  | .loadA a b, m | .loadB a b _, m | .storeA a b _ _, m | .storeB a b _, m
  | .unlockB a b, m => m = b ∨ m = a
  | _, _ => False

def MainPc.pair : MainPc → Option (Nat × Nat)
  | .lockA a b | .lockB a b | .loadA a b | .loadB a b _ | .storeA a b _ _ | .storeB a b _
  | .unlockB a b | .unlockA a b | .narrow a b => some (a, b)
  | _ => none

/-- `mainWork` has had both mutexes of the pair. -/
def MainPc.entered : MainPc → Bool
  | .loadA _ _ | .loadB _ _ _ | .storeA _ _ _ _ | .storeB _ _ _ | .unlockB _ _ | .unlockA _ _
  | .narrow _ _ => true
  | _ => false

theorem MainPc.pair_none {c : MainPc} (h : c.pair = none) (m : Nat) : ¬ c.holds m := by
  cases c <;> simp_all [MainPc.pair, MainPc.holds]

variable {n : Nat} {s t : State}

def State.holds (n : Nat) (s : State) : Party Nat → Nat → Prop
  | .main, m => s.main.holds m
  | .thread k, m => (s.pc k).holds n m

theorem printing_goto {k : Nat} (hn : s.printing n k = some t) : ∃ c l line,
    t = { s with locks := l, printed := Function.update s.printed k line }.goto k c := by
  have hsame := (Function.update_eq_self k s.printed).symm
  unfold State.printing at hn
  cases hpc : s.pc k with
  | off | done => simp [hpc] at hn
  | lock i =>
    simp only [hpc] at hn
    split at hn
    · obtain ⟨l, hl, rfl⟩ := Option.map_eq_some_iff.mp hn
      exact ⟨.lock (i + 1), l, s.printed k, by rw [← hsame]⟩
    · cases hn
      exact ⟨.read 0, s.locks, s.printed k, by rw [← hsame]⟩
  | read i =>
    simp only [hpc] at hn
    split at hn
    · cases hn
      exact ⟨.read (i + 1), s.locks, _, rfl⟩
    · cases hn
      exact ⟨.unlock n, s.locks, s.printed k, by rw [← hsame]⟩
  | unlock i =>
    cases i with
    | zero =>
      simp only [hpc, Option.some.injEq] at hn
      subst hn
      exact ⟨.done, s.locks, s.printed k, by rw [← hsame]⟩
    | succ i =>
      simp only [hpc] at hn
      obtain ⟨l, hl, rfl⟩ := Option.map_eq_some_iff.mp hn
      exact ⟨.unlock i, l, s.printed k, by rw [← hsame]⟩

structure Locking (n : Nat) (s : State) : Prop where
  owned : s.locks.Owned (s.holds n)
  pair : ∀ a b, s.main.pair = some (a, b) → a ≤ b ∧ b < n
  entered : ∀ a b, s.main.entered = true → s.main.pair = some (a, b) → a < b
  uncreated : ∀ k, s.created ≤ k → s.pc k = .off
  unlocking : ∀ k i, s.pc k = .unlock i → i ≤ n

namespace Locking

theorem printer_frame (h : Locking n s) {k : Nat} {c : Pc} {l : Locks Nat (Party Nat)}
    {out : Nat → List Nat} (hon : s.pc k ≠ .off) (howned : l.Owned ((s.goto k c).holds n))
    (hc : ∀ i, c = .unlock i → i ≤ n) :
    Locking n ({ s with locks := l, printed := out }.goto k c) := by
  refine ⟨howned, h.pair, h.entered, fun j hj => ?_, fun j i hj => ?_⟩
  · have hoff := h.uncreated j hj
    have hne : j ≠ k := fun hjk => hon (hjk ▸ hoff)
    simp [State.goto, hne, hoff]
  · rcases update_cases (f := id) rfl hj with ⟨-, hc'⟩ | ⟨-, hj⟩
    · exact hc i hc'
    · exact h.unlocking j i hj

theorem goto_other {k : Nat} {c : Pc} {q : Party Nat} (hq : q ≠ .thread k) (m : Nat) :
    (s.goto k c).holds n q m ↔ s.holds n q m := by
  cases q with
  | main => exact Iff.rfl
  | thread q =>
    have hne : q ≠ k := fun hqk => hq (hqk ▸ rfl)
    simp [State.holds, State.goto, hne]

theorem goto_self {k : Nat} {c : Pc} (m : Nat) :
    (s.goto k c).holds n (.thread k) m ↔ c.holds n m := by
  simp [State.holds, State.goto]

theorem goto_owned (h : Locking n s) {k : Nat} {c : Pc}
    (hc : ∀ m, c.holds n m ↔ (s.pc k).holds n m) : s.locks.Owned ((s.goto k c).holds n) := by
  refine h.owned.congr fun q m => ?_
  by_cases hq : q = .thread k
  · rw [hq, goto_self]
    exact hc m
  · exact goto_other hq m

theorem printing (h : Locking n s) {k : Nat} (hn : s.printing n k = some t) : Locking n t := by
  unfold State.printing at hn
  have hon : s.pc k ≠ .off := fun hoff => by simp [hoff] at hn
  cases hpc : s.pc k with
  | off | done => simp [hpc] at hn
  | lock i =>
    simp only [hpc] at hn
    split at hn
    · rename_i hi
      obtain ⟨l, hl, rfl⟩ := Option.map_eq_some_iff.mp hn
      refine h.printer_frame hon (h.owned.lock hl (fun m => ?_) fun q hq m => goto_other hq m)
        (by simp)
      rw [goto_self]
      simp only [State.holds, hpc, Pc.holds]
      omega
    · rename_i hi
      cases hn
      refine h.printer_frame hon (h.goto_owned fun m => ?_) (by simp)
      simp only [hpc, Pc.holds]
      omega
  | read i =>
    simp only [hpc] at hn
    split at hn
    all_goals
      cases hn
      refine h.printer_frame hon (h.goto_owned fun m => ?_) (by simp)
      simp [hpc, Pc.holds]
  | unlock i =>
    have hle := h.unlocking k i hpc
    cases i with
    | zero =>
      simp only [hpc, Option.some.injEq] at hn
      subst hn
      refine h.printer_frame hon (h.goto_owned fun m => ?_) (by simp)
      simp [hpc, Pc.holds]
    | succ i =>
      simp only [hpc] at hn
      obtain ⟨l, hl, rfl⟩ := Option.map_eq_some_iff.mp hn
      refine h.printer_frame hon (h.owned.unlock hl (fun m => ?_) fun q hq m => goto_other hq m)
        fun j hj => ?_
      · rw [goto_self]
        simp only [State.holds, hpc, Pc.holds]
        omega
      · cases hj
        omega

/-! ## The steps of `mainWork` -/

theorem main_other {c : MainPc} {q : Party Nat} (hq : q ≠ .main) (m : Nat) :
    State.holds n { s with main := c } q m ↔ s.holds n q m := by
  cases q with
  | main => exact absurd rfl hq
  | thread q => exact Iff.rfl

theorem main_owned (h : Locking n s) {c : MainPc} (hc : ∀ m, c.holds m ↔ s.main.holds m) :
    s.locks.Owned (State.holds n { s with main := c }) := by
  refine h.owned.congr fun q m => ?_
  cases q with
  | main => exact hc m
  | thread q => exact Iff.rfl

theorem between (h : Locking n s) (hs : ∀ m, ¬ s.main.holds m) (ht : t.main.pair = none)
    (hlocks : t.locks = s.locks) (hpc : t.pc = s.pc) (hcreated : t.created = s.created) :
    Locking n t := by
  refine ⟨?_, by simp [ht], by simp [ht], by rw [hpc, hcreated]; exact h.uncreated,
    by rw [hpc]; exact h.unlocking⟩
  rw [hlocks]
  refine h.owned.congr fun q m => ?_
  cases q with
  | main => simp [State.holds, hs m, MainPc.pair_none ht m]
  | thread q => simp [State.holds, hpc]

theorem lock_ne (h : Locking n s) {m k : Nat} {l : Locks Nat (Party Nat)}
    (hl : s.locks.lock m .main = some l) (hk : s.main.holds k) : m ≠ k := by
  rintro rfl
  exact h.owned.free (Locks.lock_some hl).1 .main hk

theorem mainWork (h : Locking n s) {r r' : Nat} (hn : s.mainWork n r r' = some t) :
    Locking n t := by
  have hpair := h.pair
  have hentered := h.entered
  cases mainWork_step hn with
  | woke hpc | chose1 hpc | chose2 hpc | none hpc | reversed hpc | cleared1 hpc | cleared2 hpc =>
    exact h.between (by simp [hpc, MainPc.holds]) rfl rfl rfl rfl
  | drawn hpc hlarge =>
    have ha : r % (n - 1) < n - 1 := Nat.mod_lt _ (by omega)
    have hb : r' % (n - r % (n - 1)) < n - r % (n - 1) := Nat.mod_lt _ (by omega)
    refine ⟨h.main_owned (by simp [hpc, MainPc.holds]), fun a b hab => ?_, by simp [MainPc.entered],
      h.uncreated, h.unlocking⟩
    simp only [MainPc.pair, Option.some.injEq, Prod.mk.injEq] at hab
    omega
  | lockedA hpc hl =>
    refine ⟨h.owned.lock hl (fun m => ?_) fun q hq m => main_other hq m, ?_,
      by simp [MainPc.entered], h.uncreated, h.unlocking⟩
    · simp [State.holds, hpc, MainPc.holds]
    · simpa [hpc, MainPc.pair] using hpair
  | @lockedB a b l hpc hl =>
    have hne := h.lock_ne hl (k := a) (by simp [hpc, MainPc.holds])
    refine ⟨h.owned.lock hl (fun m => ?_) fun q hq m => main_other hq m, ?_, ?_, h.uncreated,
      h.unlocking⟩
    · simp [State.holds, hpc, MainPc.holds]
    · simpa [hpc, MainPc.pair] using hpair
    · have hle := hpair a b (by simp [hpc, MainPc.pair])
      simp only [MainPc.pair, Option.some.injEq, Prod.mk.injEq]
      omega
  | loadedA hpc | loadedB hpc | storedA hpc | storedB hpc =>
    refine ⟨h.main_owned (by simp [hpc, MainPc.holds]), ?_, ?_, h.uncreated, h.unlocking⟩
    · simpa [hpc, MainPc.pair] using hpair
    · simpa [hpc, MainPc.pair, MainPc.entered] using hentered
  | @unlockedB a b l hpc hl =>
    have hlt := hentered a b (by simp [hpc, MainPc.entered]) (by simp [hpc, MainPc.pair])
    refine ⟨h.owned.unlock hl (fun m => ?_) fun q hq m => main_other hq m, ?_, ?_, h.uncreated,
      h.unlocking⟩
    · simp only [State.holds, hpc, MainPc.holds]
      omega
    · simpa [hpc, MainPc.pair] using hpair
    · simpa [hpc, MainPc.pair, MainPc.entered] using hentered
  | unlockedA hpc hl =>
    refine ⟨h.owned.unlock hl (fun m => ?_) fun q hq m => main_other hq m, ?_, ?_, h.uncreated,
      h.unlocking⟩
    · simp [State.holds, hpc, MainPc.holds]
    · simpa [hpc, MainPc.pair] using hpair
    · simpa [hpc, MainPc.pair, MainPc.entered] using hentered
  | @narrowed a b hpc hwide =>
    have hle := hpair a b (by simp [hpc, MainPc.pair])
    refine ⟨h.main_owned (by simp [hpc, MainPc.holds]), fun a' b' hab => ?_,
      by simp [MainPc.entered], h.uncreated, h.unlocking⟩
    simp only [MainPc.pair, Option.some.injEq, Prod.mk.injEq] at hab
    omega
  | created hpc =>
    have hoff := h.uncreated s.created (Nat.le_refl _)
    have howned := h.goto_owned (k := s.created) (c := .lock 0) (by simp [hoff, Pc.holds])
    refine ⟨howned.congr fun q m => ?_, by simp [MainPc.pair], by simp [MainPc.pair],
      fun k hk => ?_, fun k i hk => ?_⟩
    · cases q with
      | main => simp [State.holds, State.goto, hpc, MainPc.holds]
      | thread q => exact Iff.rfl
    · simp only at hk
      have hne : k ≠ s.created := by omega
      simpa [State.goto, hne] using h.uncreated k (by omega)
    · rcases update_cases (f := id) rfl hk with ⟨-, hlock⟩ | ⟨-, hk⟩
      · cases hlock
      · exact h.unlocking k i hk

theorem step (h : Locking n s) {act : Act} (hn : s.next n act = some t) : Locking n t := by
  cases act with
  | kill sig =>
    cases sig <;> cases hn <;> exact ⟨h.owned, h.pair, h.entered, h.uncreated, h.unlocking⟩
  | main r r' => exact h.mainWork hn
  | printer k => exact h.printing hn

theorem start {garbage : Nat → Nat} : Locking n (Reverse.start n garbage) := by
  refine ⟨fun m q => ?_, by simp [Reverse.start, MainPc.pair], by simp [Reverse.start, MainPc.pair],
    fun _ _ => rfl, by simp [Reverse.start]⟩
  cases q <;> simp [Reverse.start, State.holds, MainPc.holds, Pc.holds]

theorem reach (h : (reverser n).Reach s) : Locking n s := by
  refine h.inv (I := Locking n) ?_ fun _ _ _ _ hi hn => hi.step hn
  rintro _ ⟨garbage, rfl⟩
  exact .start

end Locking

end Ops.Reverse
