import Mathlib.Algebra.BigOperators.Fin
import Mathlib.Tactic.Ring
import Ops.Counter.Process
import Ops.Lib.Update

/-!
# The lock makes the counter exact

A lock that excludes lets in one thread at a time (`Inv.place`), so what a thread has loaded is the
counter until it stores. In the end the counter is the sum of all changes, whatever the lock is,
the number of threads and their numbers of rounds.
-/

namespace Ops.Counter

open Posix (Lock)

variable {ι κ μ : Type} [DecidableEq ι]
variable {L : Lock ι κ μ} {Free : κ → Prop} {Held : κ → ι → Prop} {Trying : μ → Prop}
variable {ITERATIONS : ι → Nat} {delta : ι → Int} {s t : State ι κ μ} {i j : ι}

namespace Pc

/-- Between `lock` and `unlock`. -/
def inside : Pc μ → Bool
  | load _ | store _ _ | unlock _ => true
  | loop _ | lock _ _ | done => false

def changes (ITERATIONS : Nat) : Pc μ → Nat
  | loop n | lock n _ | load n | store n _ => n
  | unlock n => n + 1
  | done => ITERATIONS

/-- With `counter`. -/
def Fits (ITERATIONS : Nat) (Trying : μ → Prop) (counter : Int) : Pc μ → Prop
  | loop n => n ≤ ITERATIONS
  | lock n key => n < ITERATIONS ∧ Trying key
  | load n | unlock n => n < ITERATIONS
  | store n v => n < ITERATIONS ∧ v = counter
  | done => True

/-- The steps to the end, when nobody else takes any. -/
def rank (ITERATIONS : Nat) : Pc μ → Nat
  | loop n => 5 * (ITERATIONS - n) + 1
  | lock n _ => 5 * (ITERATIONS - n)
  | load n => 5 * (ITERATIONS - n) - 1
  | store n _ => 5 * (ITERATIONS - n) - 2
  | unlock n => 5 * (ITERATIONS - n) - 3
  | done => 0

variable {c : Pc μ} {n : Nat} {counter counter' : Int}

theorem fits_of_out (hout : c.inside = false) (h : c.Fits n Trying counter) :
    c.Fits n Trying counter' := by
  cases c with
  | store => cases hout
  | _ => exact h

end Pc

/-! ## What should hold -/

structure Correct [Fintype ι] (L : Lock ι κ μ) (ITERATIONS : ι → Nat) (delta : ι → Int)
    (s : State ι κ μ) : Prop where
  exclusion : ∀ i j, (s.pc i).inside = true → (s.pc j).inside = true → i = j
  counter : (∀ i, s.pc i = .done) → s.counter = ∑ i, ITERATIONS i * delta i
  /-- When nobody is inside, whoever tries is inside with the next step. -/
  enters : (∀ j, (s.pc j).inside = false) → ∀ i n key, s.pc i = .lock n key →
    ∃ t, (threads L ITERATIONS delta).next s i = some t ∧ (t.pc i).inside = true
  finishes : ∃ as t, (threads L ITERATIONS delta).exec s as = some t ∧ ∀ i, t.pc i = .done

/-- Who is inside has the lock. -/
def Place (Free : κ → Prop) (Held : κ → ι → Prop) (lck : κ) (pc : ι → Pc μ) : Prop :=
  Free lck ∧ (∀ i, (pc i).inside = false) ∨
    ∃ i, Held lck i ∧ (pc i).inside = true ∧ ∀ j, (pc j).inside = true → j = i

structure Inv [Fintype ι] (Free : κ → Prop) (Held : κ → ι → Prop) (Trying : μ → Prop)
    (ITERATIONS : ι → Nat) (delta : ι → Int) (s : State ι κ μ) : Prop where
  place : Place Free Held s.lck s.pc
  counter : s.counter = ∑ i, ((s.pc i).changes (ITERATIONS i) : Int) * delta i
  fits : ∀ i, (s.pc i).Fits (ITERATIONS i) Trying s.counter

namespace Place

variable {lck lck' : κ} {pc : ι → Pc μ} {c : Pc μ}

theorem move (h : Place Free Held lck pc) (hc : c.inside = (pc i).inside) :
    Place Free Held lck (Function.update pc i c) := by
  have hsame : ∀ j, (Function.update pc i c j).inside = (pc j).inside :=
    update_same (f := Pc.inside) hc
  unfold Place
  simp only [hsame]
  exact h

theorem enter (hnobody : ∀ j, (pc j).inside = false) (hheld : Held lck' i)
    (hc : c.inside = true) : Place Free Held lck' (Function.update pc i c) := by
  refine .inr ⟨i, hheld, ?_, fun j hj => ?_⟩
  · rw [Function.update_self]
    exact hc
  · by_contra hji
    rw [Function.update_of_ne hji, hnobody j] at hj
    cases hj

omit [DecidableEq ι] in
theorem holder (h : Place Free Held lck pc) (hi : (pc i).inside = true) :
    Held lck i ∧ ∀ j, (pc j).inside = true → j = i := by
  rcases h with ⟨-, hnobody⟩ | ⟨k, hheld, -, hone⟩
  · rw [hnobody i] at hi
    cases hi
  · rw [hone i hi]
    exact ⟨hheld, fun j hj => hone j hj⟩

theorem leave (h : Place Free Held lck pc) (hi : (pc i).inside = true) (hfree : Free lck')
    (hc : c.inside = false) : Place Free Held lck' (Function.update pc i c) := by
  refine .inl ⟨hfree, fun j => ?_⟩
  by_cases hji : j = i
  · rw [hji, Function.update_self]
    exact hc
  · rw [Function.update_of_ne hji, Bool.eq_false_iff]
    exact fun hj => hji ((h.holder hi).2 j hj)

end Place

namespace Inv

variable [Fintype ι]

omit [DecidableEq ι] in
theorem start (hL : L.Excludes Free Held Trying) :
    Inv Free Held Trying ITERATIONS delta (.start L) := by
  refine ⟨.inl ⟨hL.start, fun _ => rfl⟩, ?_, fun i => Nat.zero_le _⟩
  refine (Finset.sum_eq_zero fun i _ => ?_).symm
  exact zero_mul _

theorem move {c : Pc μ} {lck : κ} (h : Inv Free Held Trying ITERATIONS delta s)
    (hplace : Place Free Held lck (Function.update s.pc i c))
    (hchanges : c.changes (ITERATIONS i) = (s.pc i).changes (ITERATIONS i))
    (hfits : c.Fits (ITERATIONS i) Trying s.counter) :
    Inv Free Held Trying ITERATIONS delta ({ s with lck := lck }.goto i c) := by
  refine ⟨hplace, ?_, fun j => ?_⟩
  · show s.counter = _
    rw [h.counter]
    refine Finset.sum_congr rfl fun j _ => ?_
    show _ = ((Function.update s.pc i c j).changes (ITERATIONS j) : Int) * delta j
    by_cases hji : j = i
    · rw [hji, Function.update_self, hchanges]
    · rw [Function.update_of_ne hji]
  · show (Function.update s.pc i c j).Fits (ITERATIONS j) Trying s.counter
    by_cases hji : j = i
    · rw [hji, Function.update_self]
      exact hfits
    · rw [Function.update_of_ne hji]
      exact h.fits j

theorem store {n : Nat} {v : Int} (h : Inv Free Held Trying ITERATIONS delta s)
    (hpc : s.pc i = .store n v) :
    Inv Free Held Trying ITERATIONS delta
      ({ s with counter := v + delta i }.goto i (.unlock n)) := by
  have hfits := h.fits i
  rw [hpc] at hfits
  obtain ⟨hlt, rfl⟩ := hfits
  have hin : (s.pc i).inside = true := by rw [hpc]; rfl
  refine ⟨h.place.move (by rw [hpc]; rfl), ?_, fun j => ?_⟩
  · have hsum := sum_move (f := fun j => ((s.pc j).changes (ITERATIONS j) : Int) * delta j)
      (k := fun j => ((Function.update s.pc i (.unlock n) j).changes (ITERATIONS j) : Int) *
        delta j) i fun j hj => by rw [Function.update_of_ne hj]
    show s.counter + delta i = ∑ j, _
    refine Eq.trans ?_ hsum.symm
    rw [h.counter]
    simp only [Function.update_self, hpc, Pc.changes]
    push_cast
    ring
  · show (Function.update s.pc i (.unlock n) j).Fits (ITERATIONS j) Trying (s.counter + delta i)
    by_cases hji : j = i
    · rw [hji, Function.update_self]
      exact hlt
    · rw [Function.update_of_ne hji]
      refine Pc.fits_of_out ?_ (h.fits j)
      exact Bool.eq_false_iff.mpr fun hj => hji ((h.place.holder hin).2 j hj)

theorem step (hL : L.Excludes Free Held Trying) (h : Inv Free Held Trying ITERATIONS delta s)
    (hn : s.next L ITERATIONS delta i = some t) :
    Inv Free Held Trying ITERATIONS delta t := by
  have hfits := h.fits i
  unfold State.next at hn
  cases hpc : s.pc i with
  | loop n =>
    simp only [hpc, Option.some.injEq] at hn
    rw [hpc] at hfits
    subst hn
    by_cases hlt : n < ITERATIONS i
    · rw [if_pos hlt]
      exact h.move (h.place.move (by rw [hpc]; rfl)) (by rw [hpc]; rfl) ⟨hlt, hL.entry⟩
    · rw [if_neg hlt]
      refine h.move (h.place.move (by rw [hpc]; rfl)) ?_ trivial
      rw [hpc]
      exact Nat.le_antisymm (Nat.not_lt.mp hlt) hfits
  | lock n key =>
    simp only [hpc] at hn
    rw [hpc] at hfits
    obtain ⟨r, hr, rfl⟩ := Option.map_eq_some_iff.mp hn
    rcases h.place with ⟨hfree, hnobody⟩ | ⟨k, hheld, hk, hone⟩
    · obtain ⟨k', hk', hheld'⟩ := hL.enters i s.lck key hfree hfits.2
      obtain rfl := Option.some.inj (hk'.symm.trans hr)
      exact h.move (Place.enter hnobody hheld' rfl) (by rw [hpc]; rfl) hfits.1
    · obtain ⟨hsame, key', hkey, htry⟩ := hL.waits i k s.lck key r.1 r.2 hheld hfits.2 hr
      rw [hkey, hsame]
      exact h.move (h.place.move (by rw [hpc]; rfl)) (by rw [hpc]; rfl) ⟨hfits.1, htry⟩
  | load n =>
    simp only [hpc, Option.some.injEq] at hn
    rw [hpc] at hfits
    subst hn
    exact h.move (h.place.move (by rw [hpc]; rfl)) (by rw [hpc]; rfl) ⟨hfits, rfl⟩
  | store n v =>
    simp only [hpc, Option.some.injEq] at hn
    subst hn
    exact h.store hpc
  | unlock n =>
    simp only [hpc] at hn
    rw [hpc] at hfits
    have hin : (s.pc i).inside = true := by rw [hpc]; rfl
    obtain ⟨k', hk', hfree⟩ := hL.leaves i s.lck (h.place.holder hin).1
    rw [hk', Option.map_some, Option.some.injEq] at hn
    subst hn
    exact h.move (h.place.leave hin hfree rfl) (by rw [hpc]; rfl) hfits
  | done => simp [hpc] at hn

/-! ## Progress -/

/-- A thread that is inside, or not in `lock`, or that finds the lock free, goes on. -/
theorem goes (hL : L.Excludes Free Held Trying) (h : Inv Free Held Trying ITERATIONS delta s)
    (hpc : s.pc i ≠ .done)
    (hfree : (∀ j, (s.pc j).inside = false) ∨ (s.pc i).inside = true) :
    ∃ c lck v, s.next L ITERATIONS delta i = some ({ s with lck := lck, counter := v }.goto i c) ∧
      c.rank (ITERATIONS i) < (s.pc i).rank (ITERATIONS i) ∧
      ((∃ n key, s.pc i = .lock n key) → c.inside = true) := by
  have hfits := h.fits i
  unfold State.next
  cases hpc' : s.pc i with
  | loop n =>
    rw [hpc'] at hfits
    have hle : n ≤ ITERATIONS i := hfits
    refine ⟨_, s.lck, s.counter, rfl, ?_, by rintro ⟨n, key, hlock⟩; cases hlock⟩
    split <;> simp only [Pc.rank] <;> omega
  | lock n key =>
    rw [hpc'] at hfits
    have hnobody : ∀ j, (s.pc j).inside = false := hfree.resolve_right (by rw [hpc']; exact nofun)
    have hlck : Free s.lck := by
      rcases h.place with ⟨hlck, -⟩ | ⟨k, -, hk, -⟩
      · exact hlck
      · rw [hnobody k] at hk
        cases hk
    obtain ⟨k', hk', -⟩ := hL.enters i s.lck key hlck hfits.2
    have hlt := hfits.1
    refine ⟨.load n, k', s.counter, by simp only [hk', Option.map_some], ?_, fun _ => rfl⟩
    simp only [Pc.rank]
    omega
  | load n =>
    rw [hpc'] at hfits
    have hlt : n < ITERATIONS i := hfits
    refine ⟨_, s.lck, s.counter, rfl, ?_, by rintro ⟨n, key, hlock⟩; cases hlock⟩
    simp only [Pc.rank]
    omega
  | store n v =>
    rw [hpc'] at hfits
    have hlt := hfits.1
    refine ⟨_, s.lck, _, rfl, ?_, by rintro ⟨n, key, hlock⟩; cases hlock⟩
    simp only [Pc.rank]
    omega
  | unlock n =>
    rw [hpc'] at hfits
    have hlt : n < ITERATIONS i := hfits
    obtain ⟨k', hk', -⟩ := hL.leaves i s.lck (h.place.holder (by rw [hpc']; rfl)).1
    refine ⟨_, k', s.counter, by simp only [hk', Option.map_some]; rfl, ?_,
      by rintro ⟨n, key, hlock⟩; cases hlock⟩
    simp only [Pc.rank]
    omega
  | done => exact absurd hpc' hpc

open Finset in
theorem finishes (hL : L.Excludes Free Held Trying)
    (h : Inv Free Held Trying ITERATIONS delta s) :
    ∃ as t, (threads L ITERATIONS delta).exec s as = some t ∧ ∀ i, t.pc i = .done := by
  obtain ⟨as, t, -, he, -, hdone⟩ := LTS.run_to (L := threads L ITERATIONS delta)
    (P := fun _ => True) (I := Inv Free Held Trying ITERATIONS delta)
    (G := fun s => ∀ i, s.pc i = .done) (fun s => ∑ i, (s.pc i).rank (ITERATIONS i))
    (fun s hs => by
      by_cases hall : ∀ i, s.pc i = .done
      · exact .inl hall
      · refine .inr ?_
        -- who is inside goes on, and when nobody is, anybody
        obtain ⟨i, hpc, hfree⟩ : ∃ i, s.pc i ≠ .done ∧
            ((∀ j, (s.pc j).inside = false) ∨ (s.pc i).inside = true) := by
          rcases hs.place with ⟨-, hnobody⟩ | ⟨k, -, hk, -⟩
          · obtain ⟨i, hi⟩ := not_forall.mp hall
            exact ⟨i, hi, .inl hnobody⟩
          · refine ⟨k, fun hdone => ?_, .inr hk⟩
            rw [hdone] at hk
            cases hk
        obtain ⟨c, lck, v, hn, hlower, -⟩ := hs.goes hL hpc hfree
        refine ⟨i, _, trivial, hn, hs.step hL hn, ?_⟩
        have hsum := sum_change (f := fun j => (s.pc j).rank (ITERATIONS j))
          (k := fun j => (Function.update s.pc i c j).rank (ITERATIONS j)) (mem_univ i)
          fun j hj => by rw [Function.update_of_ne hj]
        rw [Function.update_self] at hsum
        show ∑ j, (Function.update s.pc i c j).rank (ITERATIONS j) < _
        omega) h
  exact ⟨as, t, he, hdone⟩

theorem correct (hL : L.Excludes Free Held Trying)
    (h : Inv Free Held Trying ITERATIONS delta s) : Correct L ITERATIONS delta s := by
  refine ⟨fun i j hi hj => (h.place.holder hj).2 i hi, fun hdone => ?_, fun hnobody i n key hpc => ?_,
    h.finishes hL⟩
  · rw [h.counter]
    refine Finset.sum_congr rfl fun i _ => ?_
    rw [hdone i]
    rfl
  · obtain ⟨c, lck, v, hn, -, hin⟩ := h.goes hL (i := i) (by rw [hpc]; exact nofun) (.inl hnobody)
    refine ⟨_, hn, ?_⟩
    show (Function.update s.pc i c i).inside = true
    rw [Function.update_self]
    exact hin ⟨n, key, hpc⟩

end Inv

/-- Any lock that excludes, any threads, any numbers of rounds. -/
theorem threads_correct [Fintype ι] (hL : L.Excludes Free Held Trying)
    (hs : (threads L ITERATIONS delta).Reach s) : Correct L ITERATIONS delta s := by
  refine (hs.inv (I := Inv Free Held Trying ITERATIONS delta) ?_ ?_).correct hL
  · rintro _ rfl
    exact .start hL
  · exact fun _ _ _ _ hi hn => hi.step hL hn

/-- **The counter is exact** with each of the locks: in every run one thread at most is between
`lock` and `unlock`, when both have come to their end the counter is the difference of the numbers
of rounds, a lock that nobody has is entered with the next attempt, and from every state both can
come to their end. -/
theorem counters_exact (ITERATIONS : Fin 2 → Nat) :
    (∀ s, (atomic_swap ITERATIONS).Reach s → Correct .exchange ITERATIONS change s) ∧
    (∀ s, (atomic_test_and_set ITERATIONS).Reach s →
      Correct .testAndSet ITERATIONS change s) ∧
    (∀ s, (mutex ITERATIONS).Reach s → Correct .mutex ITERATIONS change s) ∧
    (∀ s, (semaphore ITERATIONS).Reach s → Correct .semaphore ITERATIONS change s) ∧
    ∑ i, (ITERATIONS i : Int) * change i = ITERATIONS 0 - ITERATIONS 1 := by
  refine ⟨fun _ => threads_correct Lock.exchange_excludes,
    fun _ => threads_correct Lock.testAndSet_excludes, fun _ => threads_correct Lock.mutex_excludes,
    fun _ => threads_correct Lock.semaphore_excludes, ?_⟩
  rw [Fin.sum_univ_two]
  simp only [change]
  ring

end Ops.Counter
