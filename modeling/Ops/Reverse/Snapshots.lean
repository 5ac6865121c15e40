import Mathlib.Data.List.Nodup
import Mathlib.Logic.Equiv.Basic
import Ops.Reverse.Locking

/-!
# Every printed line is a permutation

A thread that prints holds all mutexes, so no pair is being exchanged meanwhile and
it prints the whole array as it is between two exchanges.
-/

namespace Ops.Reverse

open Posix (Party Locks)

/-- `mainWork` has both mutexes of a pair, and has not stored both elements. -/
def MainPc.swapping : MainPc → Bool
  | .loadA _ _ | .loadB _ _ _ | .storeA _ _ _ _ | .storeB _ _ _ => true
  | _ => false

def Pc.printed : Pc → Bool
  | .unlock _ | .done => true
  | _ => false

variable {n : Nat} {s t : State}

def State.contents (n : Nat) (s : State) : List Nat := (List.range n).map s.array

/-- The array after the exchange that is half done, if there is one. -/
def State.whole (s : State) : Nat → Nat :=
  match s.main with
  | .storeB _ b temp => Function.update s.array b temp
  | _ => s.array

theorem swap_perm {f : Nat → Nat} {a b : Nat} (ha : a < n) (hb : b < n) :
    ((List.range n).map (Function.update (Function.update f a (f b)) b (f a))).Perm
      ((List.range n).map f) := by
  have hswap : Function.update (Function.update f a (f b)) b (f a) = f ∘ Equiv.swap a b := by
    funext i
    by_cases hib : i = b
    · simp [hib]
    · by_cases hia : i = a
      · subst hia
        simp [hib]
      · simp [hia, hib, Equiv.swap_apply_of_ne_of_ne]
  have hlt : ∀ i, i < n → Equiv.swap a b i < n := fun i hi => by
    rw [Equiv.swap_apply_def]
    split
    · exact hb
    · split <;> assumption
  have hindex : ((List.range n).map (Equiv.swap a b)).Perm (List.range n) := by
    have hnodup := List.nodup_range.map (Equiv.swap a b).injective (l := List.range n)
    refine (List.perm_ext_iff_of_nodup hnodup List.nodup_range).mpr fun i => ?_
    simp only [List.mem_map, List.mem_range]
    refine ⟨fun ⟨j, hj, hji⟩ => hji ▸ hlt j hj, fun hi => ⟨Equiv.swap a b i, hlt i hi, ?_⟩⟩
    exact Equiv.swap_apply_self a b i
  rw [hswap, ← List.map_map]
  exact hindex.map f

theorem Locking.reading (h : Locking n s) {k i : Nat} (hk : s.pc k = .read i) :
    s.main.swapping = false := by
  cases hm : s.main.swapping with
  | false => rfl
  | true =>
    obtain ⟨a, b, hab, ha⟩ : ∃ a b, s.main.pair = some (a, b) ∧ s.main.holds a := by
      cases hpc : s.main <;> simp_all [MainPc.swapping, MainPc.pair, MainPc.holds]
    have hle := h.pair a b hab
    have hread : s.holds n (.thread k) a := by
      simp only [State.holds, hk, Pc.holds]
      omega
    cases h.owned.one (show s.holds n .main a from ha) hread

theorem printing_others {k : Nat} (hn : s.printing n k = some t) (j : Nat) (hj : j ≠ k) :
    t.pc j = s.pc j ∧ t.printed j = s.printed j := by
  obtain ⟨c, l, line, rfl⟩ := printing_goto hn
  simp [State.goto, hj]

structure Snap (n : Nat) (s : State) : Prop where
  perm : ((List.range n).map s.whole).Perm (List.range n)
  temp : ∀ a b temp, s.main = .loadB a b temp → temp = s.array a
  temps : ∀ a b temp v, s.main = .storeA a b temp v → temp = s.array a ∧ v = s.array b
  quiet : ∀ k, s.pc k = .off ∨ (∃ i, s.pc k = .lock i) → s.printed k = []
  reads : ∀ k i, s.pc k = .read i → i ≤ n ∧ s.printed k = (List.range i).map s.array

namespace Snap

theorem whole_congr (hmain : t.main = s.main) (harray : t.array = s.array) : t.whole = s.whole := by
  unfold State.whole
  rw [hmain, harray]

theorem printer_frame (h : Snap n s) {k : Nat} (hmain : t.main = s.main)
    (harray : t.array = s.array)
    (hothers : ∀ j, j ≠ k → t.pc j = s.pc j ∧ t.printed j = s.printed j)
    (hquiet : t.pc k = .off ∨ (∃ i, t.pc k = .lock i) → t.printed k = [])
    (hreads : ∀ i, t.pc k = .read i → i ≤ n ∧ t.printed k = (List.range i).map t.array) :
    Snap n t := by
  refine ⟨?_, ?_, ?_, fun j hj => ?_, fun j i hj => ?_⟩
  · rw [whole_congr hmain harray]
    exact h.perm
  · rw [hmain, harray]
    exact h.temp
  · rw [hmain, harray]
    exact h.temps
  · by_cases hjk : j = k
    · subst hjk
      exact hquiet hj
    · obtain ⟨hpc, hout⟩ := hothers j hjk
      rw [hpc] at hj
      rw [hout]
      exact h.quiet j hj
  · by_cases hjk : j = k
    · subst hjk
      exact hreads i hj
    · obtain ⟨hpc, hout⟩ := hothers j hjk
      rw [hpc] at hj
      rw [hout, harray]
      exact h.reads j i hj

theorem printing (h : Snap n s) {k : Nat} (hn : s.printing n k = some t) : Snap n t := by
  have hquiet := h.quiet k
  have hreads := h.reads k
  have hothers := printing_others hn
  unfold State.printing at hn
  cases hpc : s.pc k with
  | off | done => simp [hpc] at hn
  | lock i =>
    have hnil := hquiet (.inr ⟨i, hpc⟩)
    simp only [hpc] at hn
    split at hn
    · obtain ⟨l, hl, rfl⟩ := Option.map_eq_some_iff.mp hn
      refine h.printer_frame (k := k) rfl rfl hothers ?_ ?_
      · exact fun _ => hnil
      · simp [State.goto]
    · cases hn
      refine h.printer_frame (k := k) rfl rfl hothers ?_ ?_
      · exact fun _ => hnil
      · simp [State.goto, hnil]
  | read i =>
    obtain ⟨hle, hout⟩ := hreads i hpc
    simp only [hpc] at hn
    split at hn
    · rename_i hi
      cases hn
      refine h.printer_frame (k := k) rfl rfl hothers ?_ fun j hj => ?_
      · simp [State.goto]
      · obtain rfl : i + 1 = j := by simpa [State.goto] using hj
        simp only [State.goto, Function.update_self, List.range_succ, List.map_append, hout,
          List.map_cons, List.map_nil, and_true]
        exact hi
    · cases hn
      refine h.printer_frame (k := k) rfl rfl hothers ?_ ?_
      · simp [State.goto]
      · simp [State.goto]
  | unlock i =>
    cases i with
    | zero =>
      simp only [hpc, Option.some.injEq] at hn
      subst hn
      refine h.printer_frame (k := k) rfl rfl hothers ?_ ?_
      · simp [State.goto]
      · simp [State.goto]
    | succ i =>
      simp only [hpc] at hn
      obtain ⟨l, hl, rfl⟩ := Option.map_eq_some_iff.mp hn
      refine h.printer_frame (k := k) rfl rfl hothers ?_ ?_
      · simp [State.goto]
      · simp [State.goto]

theorem main_frame (h : Snap n s) (harray : t.array = s.array) (hwhole : t.whole = s.whole)
    (htemp : ∀ a b temp, t.main = .loadB a b temp → temp = s.array a)
    (htemps : ∀ a b temp v, t.main = .storeA a b temp v → temp = s.array a ∧ v = s.array b)
    (hpc : t.pc = s.pc) (hout : t.printed = s.printed) : Snap n t := by
  refine ⟨?_, ?_, ?_, ?_, ?_⟩
  · rw [hwhole]
    exact h.perm
  · rw [harray]
    exact htemp
  · rw [harray]
    exact htemps
  · rw [hpc, hout]
    exact h.quiet
  · rw [hpc, hout, harray]
    exact h.reads

theorem store_frame (h : Snap n s) (hlock : Locking n s) (hs : s.main.swapping = true)
    (hperm : ((List.range n).map t.whole).Perm (List.range n))
    (htemp : ∀ a b temp, t.main ≠ .loadB a b temp)
    (htemps : ∀ a b temp v, t.main ≠ .storeA a b temp v) (hpc : t.pc = s.pc)
    (hout : t.printed = s.printed) : Snap n t := by
  refine ⟨hperm, fun a b temp hm => absurd hm (htemp a b temp),
    fun a b temp v hm => absurd hm (htemps a b temp v), ?_, fun k i hk => ?_⟩
  · rw [hpc, hout]
    exact h.quiet
  · rw [hpc] at hk
    simp [hlock.reading hk] at hs

theorem mainWork (h : Snap n s) (hlock : Locking n s) {r r' : Nat}
    (hn : s.mainWork n r r' = some t) : Snap n t := by
  have hperm := h.perm
  unfold State.whole at hperm
  cases mainWork_step hn with
  | woke hpc =>
    exact h.main_frame rfl (by simp [State.whole, State.deliver, hpc])
      (by simp [State.deliver]) (by simp [State.deliver]) rfl rfl
  | chose1 hpc | chose2 hpc | none hpc | drawn hpc | lockedA hpc | lockedB hpc | unlockedB hpc
  | unlockedA hpc | loadedA hpc | reversed hpc | narrowed hpc | cleared1 hpc | cleared2 hpc =>
    exact h.main_frame rfl (by simp [State.whole, hpc]) (by simp) (by simp) rfl rfl
  | @loadedB a b temp hpc =>
    have hload := h.temp a b temp hpc
    refine h.main_frame rfl (by simp [State.whole, hpc]) (by simp) (fun a' b' temp' v hm => ?_)
      rfl rfl
    cases hm
    exact ⟨hload, rfl⟩
  | @storedA a b temp v hpc =>
    simp only [hpc] at hperm
    obtain ⟨rfl, rfl⟩ := h.temps a b temp v hpc
    obtain ⟨hle, hb⟩ := hlock.pair a b (by simp [hpc, MainPc.pair])
    refine h.store_frame hlock (by simp [hpc, MainPc.swapping]) ?_ (by simp) (by simp) rfl rfl
    exact (swap_perm (by omega) hb).trans hperm
  | storedB hpc =>
    simp only [hpc] at hperm
    exact h.store_frame hlock (by simp [hpc, MainPc.swapping]) hperm (by simp) (by simp) rfl rfl
  | created hpc =>
    simp only [hpc] at hperm
    have hnil := h.quiet s.created (.inl (hlock.uncreated _ (Nat.le_refl _)))
    refine ⟨hperm, by simp, by simp, fun k hk => ?_, fun k i hk => ?_⟩
    · by_cases hk' : k = s.created
      · rw [hk']
        exact hnil
      · exact h.quiet k (by simpa [State.goto, hk'] using hk)
    · have hk' : k ≠ s.created := by
        rintro rfl
        simp [State.goto] at hk
      exact h.reads k i (by simpa [State.goto, hk'] using hk)

theorem step (h : Snap n s) (hlock : Locking n s) {act : Act} (hn : s.next n act = some t) :
    Snap n t := by
  cases act with
  | kill sig =>
    cases sig <;> cases hn <;> exact h.main_frame rfl rfl h.temp h.temps rfl rfl
  | main r r' => exact h.mainWork hlock hn
  | printer k => exact h.printing hn

theorem start {garbage : Nat → Nat} : Snap n (Reverse.start n garbage) := by
  refine ⟨?_, by simp [Reverse.start], by simp [Reverse.start], fun _ _ => rfl,
    by simp [Reverse.start]⟩
  have hid : (List.range n).map (prepareArray n garbage) = List.range n := by
    refine (List.map_congr_left fun i hi => ?_).trans (List.map_id _)
    exact prepareArray_eq garbage (List.mem_range.mp hi)
  exact List.Perm.of_eq hid

theorem reach (h : (reverser n).Reach s) : Snap n s := by
  refine h.inv (I := Snap n) ?_ fun _ _ _ hr hi hn => hi.step (.reach hr) hn
  rintro _ ⟨garbage, rfl⟩
  exact .start

theorem contents_perm (h : Snap n s) (hs : s.main.swapping = false) :
    (s.contents n).Perm (List.range n) := by
  have hwhole : s.whole = s.array := by
    cases hpc : s.main <;> simp_all [State.whole, MainPc.swapping]
  have hperm := h.perm
  rwa [hwhole] at hperm

end Snap

/-- The run has passed a state between two exchanges, with thread `k` printing and the array as
`k` printed it. -/
def Taken (n : Nat) (s : State) (k : Nat) : Prop :=
  ∃ u as, (reverser n).Reach u ∧ (reverser n).exec u as = some s ∧
    u.main.swapping = false ∧ (∃ i, u.pc k = .read i) ∧ s.printed k = u.contents n

theorem main_threads {r r' : Nat} (hn : s.mainWork n r r' = some t) :
    t.printed = s.printed ∧
      (t.pc = s.pc ∨ t.pc = Function.update s.pc s.created (.lock 0)) := by
  cases mainWork_step hn with
  | created => exact ⟨rfl, .inr rfl⟩
  | _ => exact ⟨rfl, .inl rfl⟩

/-- A thread that has printed its line had done so before the step, or was at the end of it. -/
theorem printed_cases {act : Act} {k : Nat} (hn : s.next n act = some t)
    (hk : (t.pc k).printed = true) : t.printed k = s.printed k ∧
      ((s.pc k).printed = true ∨ ∃ i, s.pc k = .read i ∧ n ≤ i) := by
  cases act with
  | kill sig => cases sig <;> cases hn <;> exact ⟨rfl, .inl hk⟩
  | main r r' =>
    obtain ⟨hout, hpc | hpc⟩ := main_threads hn
    · rw [hpc] at hk
      exact ⟨by rw [hout], .inl hk⟩
    · rcases update_cases hpc hk with ⟨-, hlock⟩ | ⟨-, hk⟩
      · cases hlock
      · exact ⟨by rw [hout], .inl hk⟩
  | printer j =>
    simp only [State.next] at hn
    by_cases hjk : k = j
    · subst hjk
      unfold State.printing at hn
      cases hpc : s.pc k with
      | off | done => simp [hpc] at hn
      | lock i =>
        simp only [hpc] at hn
        split at hn
        · obtain ⟨l, hl, rfl⟩ := Option.map_eq_some_iff.mp hn
          simp [State.goto, Pc.printed] at hk
        · cases hn
          simp [State.goto, Pc.printed] at hk
      | read i =>
        simp only [hpc] at hn
        split at hn
        · cases hn
          simp [State.goto, Pc.printed] at hk
        · cases hn
          exact ⟨rfl, .inr ⟨i, rfl, by omega⟩⟩
      | unlock i =>
        cases i with
        | zero =>
          simp only [hpc, Option.some.injEq] at hn
          subst hn
          exact ⟨rfl, .inl rfl⟩
        | succ i =>
          simp only [hpc] at hn
          obtain ⟨l, hl, rfl⟩ := Option.map_eq_some_iff.mp hn
          exact ⟨rfl, .inl rfl⟩
    · obtain ⟨hsame, hout⟩ := printing_others hn k hjk
      rw [hsame] at hk
      exact ⟨hout, .inl hk⟩

theorem taken_step {act : Act} {k : Nat} (hr : (reverser n).Reach s)
    (h : (s.pc k).printed = true → Taken n s k) (hn : (reverser n).next s act = some t)
    (hk : (t.pc k).printed = true) : Taken n t k := by
  obtain ⟨hout, hs | ⟨i, hread, hle⟩⟩ := printed_cases hn hk
  · obtain ⟨u, as, hu, hus, hswap, hprint, hcontents⟩ := h hs
    refine ⟨u, as ++ [act], hu, ?_, hswap, hprint, hout.trans hcontents⟩
    rw [LTS.exec_append, hus]
    exact LTS.exec_cons hn []
  · -- the thread has read the last element: the array is what it printed
    obtain ⟨hi, hline⟩ := (Snap.reach hr).reads k i hread
    obtain rfl : i = n := by omega
    exact ⟨s, [act], hr, LTS.exec_cons hn [], (Locking.reach hr).reading hread, ⟨i, hread⟩,
      hout.trans hline⟩

/-- **Snapshots.** What a thread prints is a permutation of `0..n-1`: the contents of the array
at a moment between two exchanges. -/
theorem printed_snapshot (h : (reverser n).Reach s) {k : Nat} (hk : (s.pc k).printed = true) :
    (s.printed k).Perm (List.range n) ∧ Taken n s k := by
  have htaken : (s.pc k).printed = true → Taken n s k := by
    refine h.inv (I := fun s => (s.pc k).printed = true → Taken n s k) ?_
      fun s act t hr hi hn hk => taken_step hr hi hn hk
    rintro _ ⟨garbage, rfl⟩ hoff
    cases hoff
  obtain ⟨u, as, hu, hus, hswap, hprint, hcontents⟩ := htaken hk
  refine ⟨?_, htaken hk⟩
  rw [hcontents]
  exact (Snap.reach hu).contents_perm hswap

/-- A reversal of two elements, then a line. -/
theorem printed_snapshot_two : ∃ s, (reverser 2).Reach s ∧ s.printed 0 = [1, 0] ∧
    (s.printed 0).Perm (List.range 2) := by
  have hrun : ((reverser 2).exec (start 2 fun _ => 7) ([.kill .usr1] ++
      List.replicate 13 (.main 0 1) ++ [.kill .usr2] ++ List.replicate 4 (.main 0 0) ++
      List.replicate 6 (.printer 0))).map
      (fun s => (s.pc 0, s.printed 0)) = some (.unlock 2, [1, 0]) := by decide
  obtain ⟨s, hs, heq⟩ := Option.map_eq_some_iff.mp hrun
  simp only [Prod.mk.injEq] at heq
  have hreach : (reverser 2).Reach s := LTS.Reach.exec (.init ⟨_, rfl⟩) hs
  exact ⟨s, hreach, heq.2, (printed_snapshot hreach (by rw [heq.1]; rfl)).1⟩

end Ops.Reverse
