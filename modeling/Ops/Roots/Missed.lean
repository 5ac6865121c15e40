import Mathlib.Data.Finset.Card
import Ops.Roots.Cells

/-!
# A cell that no thread looks at

The first two rounds of the loop test the same cell, so a probe sequence misses a cell
when there are two or more. A thread that starts at 0 computes the cells of its
sequence; then all threads start at 0, find them computed and return.
-/

namespace Ops.Roots

open Posix (Locks)

variable {T SizeofArray : Nat} {s : State T} {p : Fin T}

theorem probe_misses (hsize : 2 ≤ SizeofArray) (x : Nat) :
    ∃ c, c < SizeofArray ∧ ∀ j, j < SizeofArray → probe SizeofArray x j ≠ c := by
  have hsame : probe SizeofArray x 1 = probe SizeofArray x 0 := by simp [probe]
  have hsub : (Finset.range SizeofArray).image (probe SizeofArray x) ⊆
      ((Finset.range SizeofArray).erase 1).image (probe SizeofArray x) := by
    intro c hc
    obtain ⟨j, hj, rfl⟩ := Finset.mem_image.mp hc
    by_cases hj1 : j = 1
    · subst hj1
      rw [hsame]
      exact Finset.mem_image_of_mem _ (by simp; omega)
    · exact Finset.mem_image_of_mem _ (Finset.mem_erase.mpr ⟨hj1, hj⟩)
  have hcard : ((Finset.range SizeofArray).image (probe SizeofArray x)).card <
      (Finset.range SizeofArray).card := by
    have hle := (Finset.card_le_card hsub).trans Finset.card_image_le
    rw [Finset.card_erase_of_mem (Finset.mem_range.mpr (by omega)), Finset.card_range] at hle
    rw [Finset.card_range]
    omega
  obtain ⟨c, hc, hnot⟩ := Finset.exists_mem_notMem_of_card_lt_card hcard
  refine ⟨c, Finset.mem_range.mp hc, fun j hj he => hnot ?_⟩
  rw [← he]
  exact Finset.mem_image_of_mem _ (Finset.mem_range.mpr hj)

/-- All threads are before their next draw. -/
structure Calm (SizeofArray : Nat) (s : State T) : Prop where
  reach : (roots SizeofArray T).Reach s
  draws : ∀ q, s.pc q = .draw
  free : s.locks = fun _ => none

theorem created (SizeofArray : Nat) {T : Nat} (k : Nat) (hk : k ≤ T) :
    ∃ s : State T, (roots SizeofArray T).Reach s ∧ s.created = k ∧
      (∀ q : Fin T, q < k → s.pc q = .draw) ∧ (s.locks = fun _ => none) ∧
      (s.calculatedCells = fun _ => 0) ∧ s.computed = fun _ => [] := by
  induction k with
  | zero => exact ⟨start T, .init rfl, rfl, by simp, rfl, rfl, rfl⟩
  | succ k ih =>
    obtain ⟨s, hs, hcreated, hdraw, hfree, hcells, hroots⟩ := ih (by omega)
    have hlt : s.created < T := by omega
    have hn : (roots SizeofArray T).next s .create =
        some { s.goto ⟨s.created, hlt⟩ .draw with created := s.created + 1 } := dif_pos hlt
    refine ⟨_, hs.step hn, by simp [hcreated], fun q hq => ?_, hfree, hcells, hroots⟩
    by_cases hqk : q = ⟨s.created, hlt⟩
    · simp [State.goto, hqk]
    · have hne : q.val ≠ s.created := fun he => hqk (Fin.ext he)
      simpa [State.goto, hqk] using hdraw q (by omega)

theorem Calm.compute (h : Calm SizeofArray s) (p : Fin T) {v : Nat} (hv : v < SizeofArray)
    (hcell : s.calculatedCells v = 0) : ∃ t, Calm SizeofArray t ∧
      t.calculatedCells = Function.update s.calculatedCells v (-1) ∧
      ∀ c, c ≠ v → t.computed c = s.computed c := by
  have hpc := h.draws p
  have hmod : v % SizeofArray = v := Nat.mod_eq_of_lt hv
  have hne : SizeofArray ≠ 0 := by omega
  have hpos : 0 < SizeofArray := by omega
  obtain ⟨t, he, hpcs, hfree, hcells, hroots⟩ : ∃ t,
      (roots SizeofArray T).exec s (List.replicate 6 (.thread p v)) = some t ∧
      t.pc = Function.update s.pc p .draw ∧ (t.locks = fun _ => none) ∧
      t.calculatedCells = Function.update s.calculatedCells v (-1) ∧
      ∀ c, c ≠ v → t.computed c = s.computed c := by
    simp [LTS.exec, roots, State.next, State.child, State.lock, State.unlock, State.goto, hpc, hmod,
      hne, hpos, hcell, h.free, Locks.lock, Locks.unlock]
    exact fun c hc => Function.update_of_ne hc _ _
  refine ⟨t, ⟨h.reach.exec he, fun q => ?_, hfree⟩, hcells, hroots⟩
  rw [hpcs]
  exact update_keeps (P := fun c : Pc => c = .draw) (h.draws q) fun _ => rfl

theorem Calm.computes (h : Calm SizeofArray s) (p : Fin T) (vs : List Nat)
    (hvs : ∀ v ∈ vs, v < SizeofArray) : ∃ t, Calm SizeofArray t ∧
      (∀ v, v ∈ vs ∨ s.calculatedCells v ≠ 0 → t.calculatedCells v ≠ 0) ∧
      ∀ c, c ∉ vs → t.computed c = s.computed c := by
  induction vs generalizing s with
  | nil => exact ⟨s, h, by simp, by simp⟩
  | cons v vs ih =>
    obtain ⟨hv, hrest⟩ := List.forall_mem_cons.mp hvs
    obtain ⟨u, hu, hcells, hroots⟩ : ∃ u, Calm SizeofArray u ∧
        (∀ k, k = v ∨ s.calculatedCells k ≠ 0 → u.calculatedCells k ≠ 0) ∧
        ∀ c, c ≠ v → u.computed c = s.computed c := by
      by_cases hcell : s.calculatedCells v = 0
      · obtain ⟨u, hu, hcells, hroots⟩ := h.compute p hv hcell
        refine ⟨u, hu, fun k hk => ?_, hroots⟩
        by_cases hkv : k = v
        · simp [hcells, hkv]
        · simpa [hcells, hkv] using hk
      · refine ⟨s, h, fun k hk => ?_, fun _ _ => rfl⟩
        rcases hk with rfl | hk
        · exact hcell
        · exact hk
    obtain ⟨t, ht, hcells', hroots'⟩ := ih hu hrest
    refine ⟨t, ht, fun k hk => hcells' k ?_, fun c hc => ?_⟩
    · rw [List.mem_cons] at hk
      rcases hk with (hk | hk) | hk
      · exact .inr (hcells k (.inl hk))
      · exact .inl hk
      · exact .inr (hcells k (.inr hk))
    · rw [List.mem_cons, not_or] at hc
      rw [hroots' c hc.2, hroots c hc.1]

/-! ## A thread finds its sequence computed -/

/-- `s`, with thread `p` in round `i` of a loop that began at 0. -/
def State.round (s : State T) (SizeofArray : Nat) (p : Fin T) (i : Nat) : State T :=
  { s with
    locks := Function.update (fun _ => none) (probe SizeofArray 0 i) (some p) }.goto p
      (.test i (probe SizeofArray 0 i))

theorem round_next {i : Nat} (hi : i < SizeofArray)
    (hcell : s.calculatedCells (probe SizeofArray 0 i) ≠ 0)
    (hr : (roots SizeofArray T).Reach (s.round SizeofArray p i)) :
    (roots SizeofArray T).Reach (s.round SizeofArray p (i + 1)) := by
  refine hr.exec (show LTS.exec _ _ (List.replicate 3 (.thread p 0)) = _ from ?_)
  simp [LTS.exec, roots, State.next, State.child, State.lock, State.unlock, State.goto, State.round,
    probe, hi, hcell, Locks.lock, Locks.unlock]

theorem rounds (hall : ∀ j, j < SizeofArray → s.calculatedCells (probe SizeofArray 0 j) ≠ 0)
    (hr : (roots SizeofArray T).Reach (s.round SizeofArray p 0)) {i : Nat} (hi : i ≤ SizeofArray) :
    (roots SizeofArray T).Reach (s.round SizeofArray p i) := by
  induction i with
  | zero => exact hr
  | succ i ih => exact round_next (by omega) (hall i (by omega)) (ih (by omega))

/-- A thread draws 0, finds its sequence computed and returns. -/
theorem returns (hr : (roots SizeofArray T).Reach s) (hsize : 0 < SizeofArray)
    (hpc : s.pc p = .draw) (hfree : s.locks = fun _ => none)
    (hall : ∀ j, j < SizeofArray → s.calculatedCells (probe SizeofArray 0 j) ≠ 0) :
    (roots SizeofArray T).Reach (s.goto p .done) := by
  have hne : SizeofArray ≠ 0 := by omega
  have hfirst : (roots SizeofArray T).Reach (s.round SizeofArray p 0) := by
    refine hr.exec (show LTS.exec _ _ (List.replicate 2 (.thread p 0)) = _ from ?_)
    simp [LTS.exec, roots, State.next, State.child, State.lock, State.goto, State.round, probe, hne,
      hpc, hfree, Locks.lock]
  have hlast := rounds hall hfirst (Nat.le_refl _)
  refine hlast.exec (show LTS.exec _ _ (List.replicate 2 (.thread p 0)) = _ from ?_)
  simp [LTS.exec, roots, State.next, State.child, State.unlock, State.goto, State.round, hfree,
    Locks.unlock]

theorem all_return (hsize : 0 < SizeofArray)
    (hall : ∀ j, j < SizeofArray → s.calculatedCells (probe SizeofArray 0 j) ≠ 0)
    (ps : List (Fin T)) (hps : ps.Nodup) (h : Calm SizeofArray s) : ∃ t,
      (roots SizeofArray T).Reach t ∧ (∀ q, q ∈ ps → t.pc q = .done) ∧
      (∀ q, q ∉ ps → t.pc q = .draw) ∧ t.locks = s.locks ∧
      t.calculatedCells = s.calculatedCells ∧ t.computed = s.computed := by
  induction ps with
  | nil => exact ⟨s, h.reach, by simp, fun q _ => h.draws q, rfl, rfl, rfl⟩
  | cons p ps ih =>
    obtain ⟨hp, hrest⟩ := List.nodup_cons.mp hps
    obtain ⟨t, ht, hdone, hdraw, hlocks, hcells, hroots⟩ := ih hrest
    refine ⟨t.goto p .done, returns ht hsize (hdraw p hp) (hlocks.trans h.free) ?_,
      fun q hq => ?_, fun q hq => ?_, hlocks, hcells, hroots⟩
    · rw [hcells]
      exact hall
    · by_cases hqp : q = p
      · simp [State.goto, hqp]
      · rw [List.mem_cons] at hq
        simpa [State.goto, hqp] using hdone q (hq.resolve_left hqp)
    · rw [List.mem_cons, not_or] at hq
      simpa [State.goto, hq.1] using hdraw q hq.2

/-- Two or more cells: all threads return and leave a cell without a root. -/
theorem missed (hsize : 2 ≤ SizeofArray) (hT : 1 ≤ T) : ∃ s : State T,
    (roots SizeofArray T).Reach s ∧ (∀ q, s.pc q = .done) ∧
    ∃ c, c < SizeofArray ∧ s.computed c = [] := by
  obtain ⟨c, hc, hmiss⟩ := probe_misses hsize 0
  obtain ⟨s, hs, -, hdraws, hfree, -, hroots⟩ := created SizeofArray T (Nat.le_refl T)
  have hcalm : Calm SizeofArray s := ⟨hs, fun q => hdraws q q.isLt, hfree⟩
  obtain ⟨t, ht, hcells, hroots'⟩ := hcalm.computes ⟨0, hT⟩
    ((List.range SizeofArray).map (probe SizeofArray 0)) fun v hv => by
      obtain ⟨j, -, rfl⟩ := List.mem_map.mp hv
      cases j <;> exact Nat.mod_lt _ (by omega)
  have hall : ∀ j, j < SizeofArray → t.calculatedCells (probe SizeofArray 0 j) ≠ 0 := fun j hj =>
    hcells _ (.inl (List.mem_map_of_mem (List.mem_range.mpr hj)))
  obtain ⟨u, hu, hdone, -, -, -, hroots''⟩ := all_return (by omega) hall (List.finRange T)
    (List.nodup_finRange T) ht
  refine ⟨u, hu, fun q => hdone q (List.mem_finRange q), c, hc, ?_⟩
  rw [hroots'', hroots' c, hroots]
  intro hmem
  obtain ⟨j, hj, he⟩ := List.mem_map.mp hmem
  exact hmiss j (List.mem_range.mp hj) he

/-! ## The law of the cells -/

/-- Each cell is computed by one thread at most, a thread unlocks the one mutex that it holds, and
when all have returned every cell has been computed. -/
structure Computed (SizeofArray : Nat) (s : State T) : Prop where
  once : ∀ c, (s.computed c).length ≤ 1
  unlocks : ∀ p m, (s.pc p).unlocks = some m →
    s.locks m = some p ∧ ∀ k, s.locks k = some p → k = m
  all : (∀ q, s.pc q = .done) → ∀ c, c < SizeofArray → s.computed c ≠ []

theorem single_cell (hT : 1 ≤ T) (h : (roots 1 T).Reach s) : Computed 1 s := by
  have hinv := Inv.reach h
  refine ⟨hinv.once, fun p m hm => hinv.unlocks hm, fun hall c hc => ?_⟩
  obtain ⟨x, hroots⟩ := hinv.returned hall ⟨0, hT⟩
  have hprobe : probe 1 x 0 = c := by
    rw [probe]
    omega
  exact hprobe ▸ hroots 0 (by omega)

/-- **Every cell exactly once**, in every run for a size and a number of threads: exactly when
there is one cell. One root at most in a cell and correct unlocks hold for every size. -/
theorem cells_once_iff (hsize : 1 ≤ SizeofArray) (hT : 1 ≤ T) :
    (∀ s : State T, (roots SizeofArray T).Reach s → (∀ c, (s.computed c).length ≤ 1) ∧
      ∀ p m, (s.pc p).unlocks = some m →
        s.locks m = some p ∧ ∀ k, s.locks k = some p → k = m) ∧
    ((∀ s : State T, (roots SizeofArray T).Reach s → Computed SizeofArray s) ↔
      SizeofArray = 1) := by
  refine ⟨fun s hs => ⟨(Inv.reach hs).once, fun p m hm => (Inv.reach hs).unlocks hm⟩,
    fun hall => ?_, fun hone s hs => ?_⟩
  · by_contra hne
    obtain ⟨s, hs, hdone, c, hc, hnone⟩ := missed (show 2 ≤ SizeofArray by omega) hT
    exact (hall s hs).all hdone c hc hnone
  · subst hone
    exact single_cell hT hs

/-- Two threads and one cell: the first computes it while the second waits for its mutex, then
both find it computed and return. -/
def twoThreads (p q : Fin 2) : List (Act 2) :=
  [.create, .create, .thread p 5, .thread p 5, .thread q 3] ++ List.replicate 4 (.thread p 5) ++
    [.thread q 3, .thread q 3, .thread p 2] ++ List.replicate 4 (.thread q 3) ++
    List.replicate 6 (.thread p 2)

theorem cells_once_two : ∃ s, (roots 1 2).exec (start 2) (twoThreads 0 1) = some s ∧
    s.pc 0 = .done ∧ s.pc 1 = .done ∧ s.computed 0 = [0] ∧ Computed 1 s := by
  have hrun : ((roots 1 2).exec (start 2) (twoThreads 0 1)).map
      (fun s => (s.pc 0, s.pc 1, s.computed 0)) = some (.done, .done, [0]) := by decide +kernel
  obtain ⟨s, hs, heq⟩ := Option.map_eq_some_iff.mp hrun
  simp only [Prod.mk.injEq] at heq
  obtain ⟨hfirst, hsecond, hcell⟩ := heq
  exact ⟨s, hs, hfirst, hsecond, hcell,
    (cells_once_iff (by decide) (by decide)).2.mpr rfl s (LTS.Reach.exec (.init rfl) hs)⟩

/-- Two cells and one thread: it computes cell 0, looks at it twice, and returns. -/
theorem cell_missed : ∃ s, (roots 2 1).Reach s ∧ (∀ q, s.pc q = .done) ∧ s.computed 1 = [] ∧
    ¬ Computed 2 s := by
  have hrun : ((roots 2 1).exec (start 1) (.create :: List.replicate 16 (.thread 0 0))).map
      (fun s => (s.pc 0, s.computed 1)) = some (.done, []) := by decide
  obtain ⟨s, hs, heq⟩ := Option.map_eq_some_iff.mp hrun
  simp only [Prod.mk.injEq] at heq
  have hdone : ∀ q, s.pc q = .done := fun q => by
    rw [Subsingleton.elim q 0]
    exact heq.1
  exact ⟨s, LTS.Reach.exec (.init rfl) hs, hdone, heq.2,
    fun hall => hall.all hdone 1 (by decide) heq.2⟩

end Ops.Roots
