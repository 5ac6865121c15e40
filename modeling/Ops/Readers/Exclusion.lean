import Mathlib.Algebra.BigOperators.Group.Finset.Piecewise
import Ops.Readers.Process

/-!
# Exclusion of readers and writers

`mtx` guards the entry and the exit of the readers, and `rw_mtx` is either free, or held by a
writer, or by the readers together: the first one takes it and the last one gives it back.
`ReaderPc.Fits` says, for the reader that has `mtx`, when that is so. The threads exclude each other
and do not block each other for ever (`readers_writers`).
-/

namespace Ops.Readers

open Posix

variable {ω ρ : Type} [Fintype ω] [Fintype ρ] [DecidableEq ω] [DecidableEq ρ]
variable {ITERATIONS : ω ⊕ ρ → Nat} {s t : State ω ρ} {w : ω} {r : ρ}

/-! ## What should hold -/

/-- Between `sem_wait` and `sem_post`. -/
def WriterPc.writes : WriterPc → Bool
  | .load _ | .store _ _ | .post _ => true
  | .loop _ | .wait _ | .done => false

/-- Between the entry and the exit. -/
def ReaderPc.reads : ReaderPc → Bool
  | .reading _ => true
  | _ => false

structure Correct (ITERATIONS : ω ⊕ ρ → Nat) (s : State ω ρ) : Prop where
  alone : ∀ w, (s.writers w).writes = true →
    (∀ w', w' ≠ w → (s.writers w').writes = false) ∧ ∀ r, (s.readers r).reads = false
  count : s.mtx = 1 →
    s.readers_count = (Finset.univ.filter fun r => (s.readers r).reads = true).card
  rw_mtx : s.rw_mtx ≤ 1
  live : (∃ w, s.writers w ≠ .done) ∨ (∃ r, s.readers r ≠ .done) →
    ∃ act t, s.next ITERATIONS act = some t

/-! ## The semaphores -/

def WriterPc.holds (c : WriterPc) : Nat := c.writes.toNat

/-- Between `sem_wait (&mtx)` and `sem_post (&mtx)`. -/
def ReaderPc.inMtx : ReaderPc → Nat
  | .loadUp _ | .storeUp _ _ | .isFirst _ | .lock _ | .entered _ | .loadDown _ | .storeDown _ _
  | .isLast _ | .unlock _ | .left _ => 1
  | .loop _ | .rand _ | .enter _ | .reading _ | .done => 0

def ReaderPc.counted : ReaderPc → Nat
  | .isFirst _ | .lock _ | .entered _ | .reading _ | .loadDown _ | .storeDown _ _ => 1
  | .loop _ | .rand _ | .enter _ | .loadUp _ | .storeUp _ _ | .isLast _ | .unlock _ | .left _
  | .done => 0

/-- What `rw_mtx` and the writers have: 0 when the readers have it. -/
def State.free (s : State ω ρ) : Nat := s.rw_mtx + ∑ w, (s.writers w).holds

/-- Where a reader in its entry or exit is, with `n` in `readers_count`. -/
def ReaderPc.Fits (n : Int) (free : Nat) : ReaderPc → Prop
  | .loadUp _ | .left _ => free = 0 ↔ 1 ≤ n
  | .storeUp _ m => m = n ∧ (free = 0 ↔ 1 ≤ n)
  | .isFirst _ => free = 0 ↔ 2 ≤ n
  | .lock _ => free = 1 ∧ n = 1
  | .entered _ | .loadDown _ | .isLast _ => free = 0
  | .storeDown _ m => m = n ∧ free = 0
  | .unlock _ => free = 0 ∧ n = 0
  | .loop _ | .rand _ | .enter _ | .reading _ | .done => True

structure Inv (s : State ω ρ) : Prop where
  mtx : Posix.Balanced 1 s.mtx ReaderPc.inMtx s.readers
  count : s.readers_count = (∑ r, (s.readers r).counted : Nat)
  free : s.free ≤ 1
  fits : ∀ r, (s.readers r).Fits s.readers_count s.free
  idle : s.mtx = 1 → (s.free = 0 ↔ 1 ≤ s.readers_count)

theorem ReaderPc.fits_of_out {c : ReaderPc} (h : c.inMtx = 0) (n : Int) (free : Nat) :
    c.Fits n free := by
  cases c with
  | loop | rand | enter | reading | done => trivial
  | _ => cases h

namespace Inv

/-! ## Steps -/

omit [DecidableEq ω] [DecidableEq ρ] in
theorem counted_le (h : Inv s) (r : ρ) : ((s.readers r).counted : Int) ≤ s.readers_count := by
  have hle := Finset.single_le_sum (f := fun r => (s.readers r).counted) (fun _ _ => Nat.zero_le _)
    (Finset.mem_univ r)
  rw [h.count]
  exact_mod_cast hle

omit [DecidableEq ρ] in
theorem writer {c : WriterPc} {v : Nat} {counter : Int} (h : Inv s)
    (hv : v + c.holds = s.rw_mtx + (s.writers w).holds) :
    Inv ({ s with rw_mtx := v, counter := counter }.writerAt w c) := by
  have hfree : State.free ({ s with rw_mtx := v, counter := counter }.writerAt w c) = s.free := by
    have hsum := sum_update WriterPc.holds s.writers w c
    unfold State.free State.writerAt
    simp only
    omega
  refine ⟨h.mtx, h.count, ?_, ?_, ?_⟩
  · rw [hfree]
    exact h.free
  · rw [hfree]
    exact h.fits
  · rw [hfree]
    exact h.idle

omit [DecidableEq ω] in
/-- A step of a reader, with `m`, `v` and `n` in `mtx`, `rw_mtx` and `readers_count` after it. -/
theorem reader {c : ReaderPc} {m v : Nat} {n : Int} (h : Inv s)
    (hm : m + c.inMtx = s.mtx + (s.readers r).inMtx)
    (hn : n + (s.readers r).counted = s.readers_count + c.counted)
    (hv : v + ∑ w, (s.writers w).holds ≤ 1) (hfits : c.Fits n (v + ∑ w, (s.writers w).holds))
    (hsame : v = s.rw_mtx ∧ n = s.readers_count ∨ (s.readers r).inMtx = 1)
    (hidle : m = 1 → (s.readers r).inMtx = 1 →
      (v + ∑ w, (s.writers w).holds = 0 ↔ 1 ≤ n)) :
    Inv ({ s with mtx := m, rw_mtx := v, readers_count := n }.readerAt r c) := by
  have hsum := sum_update ReaderPc.counted s.readers r c
  have hone := h.mtx.held_le r
  refine ⟨h.mtx.step hm, ?_, hv, fun q => ?_, fun hfree => ?_⟩
  · have hcount := h.count
    show n = (∑ q, (Function.update s.readers r c q).counted : Nat)
    omega
  · show (Function.update s.readers r c q).Fits n (v + ∑ w, (s.writers w).holds)
    by_cases hq : q = r
    · subst hq
      rw [Function.update_self]
      exact hfits
    · rw [Function.update_of_ne hq]
      rcases hsame with ⟨rfl, rfl⟩ | hin
      · exact h.fits q
      · -- the other readers are not in their entries and exits
        have htwo := h.mtx.two_le (p := r) (q := q) (Ne.symm hq)
        exact ReaderPc.fits_of_out (by omega) _ _
  · have hm1 : m = 1 := hfree
    by_cases hin : (s.readers r).inMtx = 1
    · exact hidle hm1 hin
    · rcases hsame with ⟨rfl, rfl⟩ | hin'
      · exact h.idle (by omega)
      · exact absurd hin' hin

omit [DecidableEq ρ] in
theorem writer_step (h : Inv s) (hn : s.writer ITERATIONS w = some t) : Inv t := by
  unfold State.writer at hn
  split at hn
  · rename_i i hpc
    cases hn
    refine h.writer ?_
    rw [hpc]
    split
    · rfl
    · rfl
  · rename_i i hpc
    obtain ⟨v, hv, rfl⟩ := Option.map_eq_some_iff.mp hn
    refine h.writer ?_
    rw [hpc, semWait_some.mp hv]
    rfl
  · rename_i i hpc
    cases hn
    refine h.writer ?_
    rw [hpc]
    rfl
  · rename_i i n hpc
    cases hn
    refine h.writer ?_
    rw [hpc]
    rfl
  · rename_i i hpc
    cases hn
    refine h.writer ?_
    rw [hpc]
    rfl
  · cases hn

omit [DecidableEq ω] in
theorem reader_out {c₀ c : ReaderPc} (h : Inv s) (hpc : s.readers r = c₀) (hin : c₀.inMtx = 0)
    (hc : c.inMtx = 0) (hcounted : c.counted = c₀.counted) : Inv (s.readerAt r c) := by
  subst hpc
  exact h.reader (by omega) (by omega) h.free (ReaderPc.fits_of_out hc _ _) (.inl ⟨rfl, rfl⟩)
    fun _ hin' => by omega

omit [DecidableEq ω] in
theorem reader_wait {c₀ c : ReaderPc} {m : Nat} (h : Inv s) (hpc : s.readers r = c₀)
    (hm : semWait s.mtx = some m) (hin : c₀.inMtx = 0) (hc : c.inMtx = 1)
    (hcounted : c.counted = c₀.counted)
    (hfits : (s.free = 0 ↔ 1 ≤ s.readers_count) → (c₀.counted : Int) ≤ s.readers_count →
      c.Fits s.readers_count s.free) : Inv ({ s with mtx := m }.readerAt r c) := by
  subst hpc
  have hval := semWait_some.mp hm
  have hle := h.mtx.le
  have hidle := h.idle (by omega)
  exact h.reader (by omega) (by omega) h.free (hfits hidle (h.counted_le r)) (.inl ⟨rfl, rfl⟩)
    fun _ hin' => by omega

omit [DecidableEq ω] in
theorem reader_in {c₀ c : ReaderPc} {v : Nat} {n : Int} (h : Inv s) (hpc : s.readers r = c₀)
    (hin : c₀.inMtx = 1) (hc : c.inMtx = 1) (hn : n + c₀.counted = s.readers_count + c.counted)
    (hfits : c₀.Fits s.readers_count s.free → (c₀.counted : Int) ≤ s.readers_count →
      v + ∑ w, (s.writers w).holds ≤ 1 ∧ c.Fits n (v + ∑ w, (s.writers w).holds)) :
    Inv ({ s with rw_mtx := v, readers_count := n }.readerAt r c) := by
  subst hpc
  have hone := h.mtx.held_le r
  obtain ⟨hv, hc'⟩ := hfits (h.fits r) (h.counted_le r)
  exact h.reader (by omega) hn hv hc' (.inr hin) fun hfree _ => by omega

omit [DecidableEq ω] in
theorem reader_post {c₀ c : ReaderPc} (h : Inv s) (hpc : s.readers r = c₀) (hin : c₀.inMtx = 1)
    (hc : c.inMtx = 0) (hcounted : c.counted = c₀.counted)
    (hidle : c₀.Fits s.readers_count s.free → (c₀.counted : Int) ≤ s.readers_count →
      (s.free = 0 ↔ 1 ≤ s.readers_count)) :
    Inv ({ s with mtx := semPost s.mtx }.readerAt r c) := by
  subst hpc
  unfold semPost
  exact h.reader (by omega) (by omega) h.free (ReaderPc.fits_of_out hc _ _) (.inl ⟨rfl, rfl⟩)
    fun _ _ => hidle (h.fits r) (h.counted_le r)

omit [DecidableEq ω] in
theorem reader_step {rand : Nat} (h : Inv s) (hn : s.reader ITERATIONS r rand = some t) :
    Inv t := by
  have hfree := h.free
  unfold State.reader at hn
  cases hpc : s.readers r with
  | loop i =>
    simp only [hpc] at hn
    cases hn
    split
    · exact h.reader_out hpc rfl rfl rfl
    · exact h.reader_out hpc rfl rfl rfl
  | rand i =>
    simp only [hpc] at hn
    cases hn
    split
    · exact h.reader_out hpc rfl rfl rfl
    · exact h.reader_out hpc rfl rfl rfl
  | enter i =>
    simp only [hpc] at hn
    obtain ⟨m, hm, rfl⟩ := Option.map_eq_some_iff.mp hn
    exact h.reader_wait hpc hm rfl rfl rfl fun hiff _ => hiff
  | loadUp i =>
    simp only [hpc] at hn
    cases hn
    exact h.reader_in hpc rfl rfl rfl fun hfits _ => ⟨hfree, rfl, hfits⟩
  | storeUp i n =>
    simp only [hpc] at hn
    cases hn
    have hn : n = s.readers_count := by
      have hfits := h.fits r
      rw [hpc] at hfits
      exact hfits.1
    refine h.reader_in hpc rfl rfl ?_ fun hfits _ => ⟨hfree, ?_⟩
    · show n + 1 + (0 : Int) = s.readers_count + 1
      omega
    · have hiff := hfits.2
      show s.free = 0 ↔ 2 ≤ n + 1
      omega
  | isFirst i =>
    simp only [hpc] at hn
    cases hn
    split
    · rename_i hone
      refine h.reader_in hpc rfl rfl rfl fun hfits _ => ⟨hfree, ?_, hone⟩
      have hiff : s.free = 0 ↔ 2 ≤ s.readers_count := hfits
      show s.free = 1
      omega
    · rename_i hne
      refine h.reader_in hpc rfl rfl rfl fun hfits hpos => ⟨hfree, ?_⟩
      have hpos : 1 ≤ s.readers_count := hpos
      exact hfits.mpr (by omega)
  | lock i =>
    simp only [hpc] at hn
    obtain ⟨v, hv, rfl⟩ := Option.map_eq_some_iff.mp hn
    have hval := semWait_some.mp hv
    refine h.reader_in hpc rfl rfl rfl fun hfits _ => ?_
    have hone : s.rw_mtx + ∑ w, (s.writers w).holds = 1 := hfits.1
    refine ⟨by omega, ?_⟩
    show v + ∑ w, (s.writers w).holds = 0
    omega
  | entered i =>
    simp only [hpc] at hn
    cases hn
    refine h.reader_post hpc rfl rfl rfl fun hfits hpos => ?_
    have hpos : 1 ≤ s.readers_count := hpos
    exact iff_of_true hfits hpos
  | reading i =>
    simp only [hpc] at hn
    obtain ⟨m, hm, rfl⟩ := Option.map_eq_some_iff.mp hn
    exact h.reader_wait hpc hm rfl rfl rfl fun hiff hpos => hiff.mpr hpos
  | loadDown i =>
    simp only [hpc] at hn
    cases hn
    exact h.reader_in hpc rfl rfl rfl fun hfits _ => ⟨hfree, rfl, hfits⟩
  | storeDown i n =>
    simp only [hpc] at hn
    cases hn
    have hn : n = s.readers_count := by
      have hfits := h.fits r
      rw [hpc] at hfits
      exact hfits.1
    refine h.reader_in hpc rfl rfl ?_ fun hfits _ => ⟨hfree, hfits.2⟩
    show n - 1 + (1 : Int) = s.readers_count + 0
    omega
  | isLast i =>
    simp only [hpc] at hn
    cases hn
    split
    · rename_i hnone
      exact h.reader_in hpc rfl rfl rfl fun hfits _ => ⟨hfree, hfits, hnone⟩
    · rename_i hne
      refine h.reader_in hpc rfl rfl rfl fun hfits hpos => ⟨hfree, iff_of_true hfits ?_⟩
      have hpos : 0 ≤ s.readers_count := hpos
      omega
  | unlock i =>
    simp only [hpc] at hn
    cases hn
    unfold semPost
    refine h.reader_in hpc rfl rfl rfl fun hfits _ => ?_
    have hsum : s.rw_mtx + ∑ w, (s.writers w).holds = 0 := hfits.1
    have hnone : s.readers_count = 0 := hfits.2
    refine ⟨by omega, ?_⟩
    show s.rw_mtx + 1 + ∑ w, (s.writers w).holds = 0 ↔ 1 ≤ s.readers_count
    omega
  | left i =>
    simp only [hpc] at hn
    cases hn
    exact h.reader_post hpc rfl rfl rfl fun hfits _ => hfits
  | done =>
    simp only [hpc] at hn
    cases hn

theorem step {act : Act ω ρ} (h : Inv s) (hn : s.next ITERATIONS act = some t) : Inv t := by
  cases act with
  | writer w => exact h.writer_step hn
  | reader r rand => exact h.reader_step hn

omit [DecidableEq ω] [DecidableEq ρ] in
theorem init : Inv (State.start ω ρ) where
  mtx := by simp [Posix.Balanced, State.start, ReaderPc.inMtx]
  count := by simp [State.start, ReaderPc.counted]
  free := by simp [State.free, State.start, WriterPc.holds, WriterPc.writes]
  fits _ := trivial
  idle _ := by simp [State.free, State.start]

theorem reach (hr : (threads ITERATIONS).Reach s) : Inv s :=
  LTS.Reach.inv (fun _ hs => hs ▸ init) (fun _ _ _ _ hi hn => hi.step hn) hr

/-! ## Exclusion -/

omit [DecidableEq ω] in
theorem two_le_count (h : Inv s) {q : ρ} (hne : r ≠ q) :
    ((s.readers r).counted : Int) + (s.readers q).counted ≤ s.readers_count := by
  have hall : Posix.Balanced (∑ p, (s.readers p).counted) 0 ReaderPc.counted s.readers :=
    Nat.zero_add _
  have htwo := hall.two_le hne
  have hcount := h.count
  omega

omit [DecidableEq ω] in
theorem free_of_reads (h : Inv s) (hreads : (s.readers r).reads = true) : s.free = 0 := by
  have hcounted : (s.readers r).counted = 1 := by
    cases hpc : s.readers r with
    | reading i => rfl
    | _ => rw [hpc] at hreads; cases hreads
  have hle := h.counted_le r
  by_cases hm : s.mtx = 1
  · exact (h.idle hm).mpr (by omega)
  · -- somebody is in its entry or exit, and it is not `r`
    have hmtx := h.mtx.le
    obtain ⟨q, hq⟩ := h.mtx.holder (by omega)
    have hne : r ≠ q := by
      rintro rfl
      cases hpc : s.readers r with
      | reading i => rw [hpc] at hq; cases hq
      | _ => rw [hpc] at hreads; cases hreads
    have htwo := h.two_le_count hne
    have hfits := h.fits q
    cases hpc : s.readers q with
    | loop | rand | enter | reading | done => rw [hpc] at hq; cases hq
    | loadUp | left =>
      rw [hpc] at hfits
      exact hfits.mpr (by omega)
    | storeUp =>
      rw [hpc] at hfits
      exact hfits.2.mpr (by omega)
    | isFirst =>
      rw [hpc] at hfits
      rw [hpc, hcounted] at htwo
      have hsecond : 1 + 1 ≤ s.readers_count := htwo
      exact hfits.mpr (by omega)
    | lock =>
      rw [hpc] at hfits
      rw [hpc, hcounted] at htwo
      have hsecond : 1 + 1 ≤ s.readers_count := htwo
      have hone : s.readers_count = 1 := hfits.2
      omega
    | entered | loadDown | isLast =>
      rw [hpc] at hfits
      exact hfits
    | storeDown =>
      rw [hpc] at hfits
      exact hfits.2
    | unlock =>
      rw [hpc] at hfits
      exact hfits.1

omit [DecidableEq ρ] in
theorem alone (h : Inv s) (hw : (s.writers w).writes = true) :
    (∀ w', w' ≠ w → (s.writers w').writes = false) ∧ ∀ r, (s.readers r).reads = false := by
  classical
  have hholds : (s.writers w).holds = 1 := congrArg Bool.toNat hw
  have hall : Posix.Balanced s.free s.rw_mtx WriterPc.holds s.writers := rfl
  have hle := h.free
  refine ⟨fun w' hne => ?_, fun r => ?_⟩
  · have htwo := hall.two_le hne
    exact Bool.eq_false_iff.mpr fun hw' => by
      have hholds' : (s.writers w').holds = 1 := congrArg Bool.toNat hw'
      omega
  · have hone := hall.held_le w
    exact Bool.eq_false_iff.mpr fun hreads => by
      have hzero := h.free_of_reads hreads
      omega

omit [DecidableEq ω] [DecidableEq ρ] in
theorem out_of_mtx (h : Inv s) (hm : s.mtx = 1) (r : ρ) : (s.readers r).inMtx = 0 := by
  have hle := h.mtx.held_le r
  omega

omit [DecidableEq ω] [DecidableEq ρ] in
theorem count_reads (h : Inv s) (hm : s.mtx = 1) :
    s.readers_count = (Finset.univ.filter fun r => (s.readers r).reads = true).card := by
  rw [h.count, Finset.card_filter]
  refine congrArg _ (Finset.sum_congr rfl fun r _ => ?_)
  have hout := h.out_of_mtx hm r
  cases hpc : s.readers r with
  | loop | rand | enter | reading | done => rfl
  | _ => rw [hpc] at hout; cases hout

/-! ## Progress -/

omit [Fintype ω] [Fintype ρ] in
theorem writer_moves (hdone : s.writers w ≠ .done)
    (hwait : (∃ i, s.writers w = .wait i) → 0 < s.rw_mtx) :
    ∃ act t, s.next ITERATIONS act = some t := by
  refine ⟨.writer w, Option.isSome_iff_exists.mp ?_⟩
  show (s.writer ITERATIONS w).isSome = true
  unfold State.writer
  cases hpc : s.writers w with
  | wait i => simp only [semWait_pos (hwait ⟨i, hpc⟩), Option.map_some, Option.isSome_some]
  | done => exact absurd hpc hdone
  | loop | load | store | post => rfl

omit [Fintype ω] [Fintype ρ] in
theorem reader_moves (hdone : s.readers r ≠ .done)
    (hmtx : (s.readers r).inMtx = 0 → 0 < s.mtx)
    (hlock : (∃ i, s.readers r = .lock i) → 0 < s.rw_mtx) :
    ∃ act t, s.next ITERATIONS act = some t := by
  refine ⟨.reader r 0, Option.isSome_iff_exists.mp ?_⟩
  show (s.reader ITERATIONS r 0).isSome = true
  unfold State.reader
  cases hpc : s.readers r with
  | enter i | reading i =>
    have hpos := hmtx (by rw [hpc]; rfl)
    simp only [semWait_pos hpos, Option.map_some, Option.isSome_some]
  | lock i => simp only [semWait_pos (hlock ⟨i, hpc⟩), Option.map_some, Option.isSome_some]
  | done => exact absurd hpc hdone
  | _ => rfl

omit [Fintype ρ] in
theorem rw_mtx_moves (hfree : s.free = 1) (hw : 0 < s.rw_mtx → ∃ act t,
    s.next ITERATIONS act = some t) : ∃ act t, s.next ITERATIONS act = some t := by
  by_cases hpos : 0 < s.rw_mtx
  · exact hw hpos
  · have hall : Posix.Balanced 1 s.rw_mtx WriterPc.holds s.writers := hfree
    obtain ⟨w, hholds⟩ := hall.holder (by omega)
    refine writer_moves (w := w) ?_ ?_
    · intro hdone
      rw [hdone] at hholds
      cases hholds
    · rintro ⟨i, hwait⟩
      rw [hwait] at hholds
      cases hholds

theorem live (h : Inv s)
    (hsome : (∃ w, s.writers w ≠ .done) ∨ (∃ r, s.readers r ≠ .done)) :
    ∃ act t, s.next ITERATIONS act = some t := by
  have hle := h.mtx.le
  by_cases hm : s.mtx = 1
  · by_cases hreader : ∃ r, s.readers r ≠ .done
    · obtain ⟨r, hr⟩ := hreader
      refine reader_moves hr (fun _ => by omega) ?_
      rintro ⟨i, hlock⟩
      have hout := h.out_of_mtx hm r
      rw [hlock] at hout
      cases hout
    · -- the readers are gone, and have left `rw_mtx`
      have hgone : ∀ r, s.readers r = .done := fun r => by
        by_contra hr
        exact hreader ⟨r, hr⟩
      obtain ⟨w, hw⟩ := hsome.resolve_right hreader
      have hzero : s.readers_count = 0 := by
        rw [h.count, Finset.sum_eq_zero fun r _ => by rw [hgone r]; rfl]
        rfl
      have hidle := h.idle hm
      have hfree := h.free
      exact rw_mtx_moves (by omega) fun hpos => writer_moves hw fun _ => hpos
  · obtain ⟨r, hr⟩ := h.mtx.holder (by omega)
    have hdone : s.readers r ≠ .done := by
      intro hdone
      rw [hdone] at hr
      cases hr
    by_cases hlock : ∃ i, s.readers r = .lock i
    · obtain ⟨i, hpc⟩ := hlock
      have hfits := h.fits r
      rw [hpc] at hfits
      exact rw_mtx_moves hfits.1 fun hpos => reader_moves hdone (fun hin => by omega) fun _ => hpos
    · exact reader_moves hdone (fun hin => by omega) fun hlock' => absurd hlock' hlock

theorem correct (h : Inv s) : Correct ITERATIONS s where
  alone _ := h.alone
  count := h.count_reads
  rw_mtx := by
    have hle := h.free
    unfold State.free at hle
    omega
  live := h.live

end Inv

/-! ## Readers together -/

omit [Fintype ω] [Fintype ρ] in
theorem reader_enters (hr : (threads ITERATIONS).Reach s) (hit : 0 < ITERATIONS (.inr r))
    (hpc : s.readers r = .loop 0) (hmtx : s.mtx = 1)
    (hcount : 0 < s.readers_count ∨ s.readers_count = 0 ∧ s.rw_mtx = 1) :
    ∃ v, (threads ITERATIONS).Reach
      ({ s with rw_mtx := v, readers_count := s.readers_count + 1 }.readerAt r (.reading 0)) := by
  rcases hcount with hpos | ⟨hzero, hrw⟩
  · refine ⟨s.rw_mtx, hr.exec (?_ :
      (threads ITERATIONS).exec s (List.replicate 7 (.reader r 0)) = _)⟩
    have hne : s.readers_count + 1 ≠ 1 := by omega
    simp [List.replicate, LTS.exec, threads, State.next, State.reader, State.readerAt, semWait,
      semPost, hpc, hit, hmtx, hne]
  · refine ⟨0, hr.exec (?_ :
      (threads ITERATIONS).exec s (List.replicate 8 (.reader r 0)) = _)⟩
    simp [List.replicate, LTS.exec, threads, State.next, State.reader, State.readerAt, semWait,
      semPost, hpc, hit, hmtx, hzero, hrw]

omit [Fintype ω] [Fintype ρ] in
theorem readers_together (R : Finset ρ) (hit : ∀ r ∈ R, 0 < ITERATIONS (.inr r)) :
    ∃ s, (threads ITERATIONS).Reach s ∧ s.mtx = 1 ∧
      (0 < s.readers_count ∨ s.readers_count = 0 ∧ s.rw_mtx = 1) ∧
      s.readers = fun r => if r ∈ R then .reading 0 else .loop 0 := by
  induction R using Finset.induction_on with
  | empty => exact ⟨.start ω ρ, .init rfl, rfl, .inr ⟨rfl, rfl⟩, by simp [State.start]⟩
  | insert r R hr ih =>
    obtain ⟨s, hs, hmtx, hcount, hpcs⟩ := ih fun q hq => hit q (Finset.mem_insert_of_mem hq)
    have hpc : s.readers r = .loop 0 := by
      rw [hpcs]
      exact if_neg hr
    obtain ⟨v, ht⟩ := reader_enters hs (hit r (Finset.mem_insert_self r R)) hpc hmtx hcount
    refine ⟨_, ht, hmtx, .inl ?_, ?_⟩
    · show 0 < s.readers_count + 1
      omega
    · funext q
      show Function.update s.readers r (.reading 0) q = _
      by_cases hq : q = r
      · rw [hq, Function.update_self, if_pos (Finset.mem_insert_self r R)]
      · rw [Function.update_of_ne hq, hpcs]
        simp only [Finset.mem_insert, hq, false_or]

/-- **Readers and writers.** The threads exclude each other and one of them can always go on, and
the readers of any set can read together. -/
theorem readers_writers (ITERATIONS : ω ⊕ ρ → Nat) :
    (∀ s, (threads ITERATIONS).Reach s → Correct ITERATIONS s) ∧
      ∀ R : Finset ρ, (∀ r ∈ R, 0 < ITERATIONS (.inr r)) →
        ∃ s, (threads ITERATIONS).Reach s ∧ ∀ r ∈ R, (s.readers r).reads = true := by
  refine ⟨fun s hr => (Inv.reach hr).correct, fun R hit => ?_⟩
  obtain ⟨s, hs, -, -, hpcs⟩ := readers_together (ω := ω) R hit
  refine ⟨s, hs, fun r hr => ?_⟩
  rw [hpcs]
  simp only [hr, if_true, ReaderPc.reads]

/-- Two readers read together beside a writer. -/
theorem readers_writers_two : ∃ s : State (Fin 1) (Fin 2), (threads fun _ => 1).Reach s ∧
    (∀ r, (s.readers r).reads = true) ∧ Correct (fun _ => 1) s := by
  obtain ⟨s, hr, hreads⟩ :=
    (readers_writers (ω := Fin 1) (ρ := Fin 2) fun _ => 1).2 Finset.univ fun _ _ => Nat.one_pos
  exact ⟨s, hr, fun r => hreads r (Finset.mem_univ r), (readers_writers fun _ => 1).1 s hr⟩

end Ops.Readers
