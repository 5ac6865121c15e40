import Mathlib.Data.List.Nodup
import Mathlib.Data.List.Perm.Subperm
import Mathlib.Data.List.Range
import Ops.LastYear.Status

/-!
# Collecting the results

`main` counts every positive result of `waitpid` as a child that has exited, and stores the
results at `n - 1`, `n - 2`, … (`Stored`). `temp` has the results of the children when the loop
ends if and only if no stop was reported (`collected_iff`).
-/

namespace Ops.LastYear

variable {n j : Nat} {m : Main} {s t : State} {reports : List (Nat × Nat)}

/-- What `main` stores. -/
def record (status : Nat) : Data := ⟨.parent, (decode status).1, (decode status).2⟩

/-- The children whose exits `waitpid` has reported, in that order. -/
def exits (reports : List (Nat × Nat)) : List Nat :=
  (reports.filter fun r => WIFEXITED r.2).map Prod.fst

def ChildPc.status : ChildPc → Option Nat
  | exited k count | reaped k count => some (exitStatus (encode k count))
  | _ => none

/-- The result of each child that has exited is once in `temp`, nothing else is, and no store is
outside `temp`. `order` is how the children come from the end of `temp` on. -/
structure Collected (n : Nat) (s : State) : Prop where
  stores : ∀ x ∈ s.main.stores, 0 ≤ x ∧ x < n
  temp : ∃ order : List Nat, order.Nodup ∧ (∀ j, j ∈ order ↔ (s.child j).status ≠ none) ∧
    ∀ i < n, s.main.temp i =
      order[n - 1 - i]?.bind fun j => ((s.child j).status).map record

/-! ## Stores -/

/-- `temp` and `n` after the results `reports`. -/
structure Stored (n : Nat) (m : Main) : Prop where
  left : m.n = n - m.reports.length
  stores : ∀ x, x ∈ m.stores ↔ ∃ p < m.reports.length, x = (n : Int) - 1 - (p : Nat)
  temp : ∀ i < n, m.temp i = m.reports[n - 1 - i]?.map fun r => record r.2
  room : m.pc = .undefined ∧ n < m.reports.length ∨ m.pc ≠ .undefined ∧ m.reports.length ≤ n

theorem Stored.start (n : Nat) : Stored n (State.start n).main where
  left := by simp [State.start]
  stores x := by simp [State.start]
  temp i _ := by simp [State.start]
  room := .inr ⟨nofun, Nat.zero_le n⟩

theorem Stored.goto {pc : MainPc} (h : Stored n m) (hpc : m.pc ≠ .undefined)
    (hpc' : pc ≠ .undefined) : Stored n { m with pc := pc } where
  left := h.left
  stores := h.stores
  temp := h.temp
  room := by
    rcases h.room with ⟨hu, -⟩ | ⟨-, hlen⟩
    · exact absurd hu hpc
    · exact .inr ⟨hpc', hlen⟩

theorem getElem?_concat {α : Type} (l : List α) (a : α) (p : Nat) :
    (l ++ [a])[p]? = if p = l.length then some a else l[p]? := by
  rw [List.getElem?_append]
  split
  · next hlt => rw [if_neg (Nat.ne_of_lt hlt)]
  · next hge =>
    have hle : l.length ≤ p := Nat.not_lt.mp hge
    rw [List.getElem?_singleton, List.getElem?_eq_none hle]
    exact if_congr (by omega) rfl rfl

theorem Stored.collect (h : Stored n m) (hpc : m.pc = .wait) (j status : Nat) :
    Stored n (m.collect n j status) := by
  have hlen : m.reports.length ≤ n := by
    rcases h.room with ⟨hu, -⟩ | ⟨-, hlen⟩
    · cases hpc.symm.trans hu
    · exact hlen
  have hleft := h.left
  have hin : (0 ≤ m.n - 1 ∧ m.n - 1 < n) ↔ m.reports.length < n := by omega
  refine ⟨?_, fun x => ?_, fun i hi => ?_, ?_⟩
  · show m.n - 1 = (n : Int) - (m.reports ++ [(j, status)]).length
    rw [List.length_append, List.length_singleton]
    omega
  · show x ∈ m.stores ++ [m.n - 1] ↔ ∃ p < (m.reports ++ [(j, status)]).length, _
    rw [List.mem_append, List.mem_singleton, h.stores, List.length_append, List.length_singleton]
    constructor
    · rintro (⟨p, hp, rfl⟩ | rfl)
      · exact ⟨p, Nat.lt_succ_of_lt hp, rfl⟩
      · exact ⟨m.reports.length, Nat.lt_succ_self _, by omega⟩
    · rintro ⟨p, hp, rfl⟩
      rcases Nat.lt_succ_iff_lt_or_eq.mp hp with hp | rfl
      · exact .inl ⟨p, hp, rfl⟩
      · exact .inr (by omega)
  · show (if 0 ≤ m.n - 1 ∧ m.n - 1 < n then
        Function.update m.temp (m.n - 1) (some (record status)) else m.temp) i =
      (m.reports ++ [(j, status)])[n - 1 - i]?.map fun r => record r.2
    rw [getElem?_concat, if_congr hin rfl rfl]
    by_cases hat : n - 1 - i = m.reports.length
    · have hidx : (i : Int) = m.n - 1 := by omega
      have hlt : m.reports.length < n := by omega
      rw [if_pos hat, if_pos hlt, hidx, Function.update_self]
      rfl
    · have hidx : (i : Int) ≠ m.n - 1 := by omega
      rw [if_neg hat, ← h.temp i hi]
      split
      · exact Function.update_of_ne hidx ..
      · rfl
  · show (if 0 ≤ m.n - 1 ∧ m.n - 1 < n then m.pc else .undefined) = .undefined ∧
        n < (m.reports ++ [(j, status)]).length ∨
      (if 0 ≤ m.n - 1 ∧ m.n - 1 < n then m.pc else .undefined) ≠ .undefined ∧
        (m.reports ++ [(j, status)]).length ≤ n
    rw [if_congr hin rfl rfl, List.length_append, List.length_singleton]
    split
    · next hlt => exact .inr ⟨by rw [hpc]; exact nofun, hlt⟩
    · next hlt => exact .inl ⟨rfl, by omega⟩

/-! ## Exits -/

theorem mem_exits : j ∈ exits reports ↔ ∃ status, (j, status) ∈ reports ∧ WIFEXITED status := by
  unfold exits
  constructor
  · intro h
    obtain ⟨⟨_, status⟩, hr, rfl⟩ := List.mem_map.mp h
    obtain ⟨hr, hx⟩ := List.mem_filter.mp hr
    exact ⟨status, hr, hx⟩
  · rintro ⟨status, hr, hx⟩
    exact List.mem_map.mpr ⟨(j, status), List.mem_filter.mpr ⟨hr, hx⟩, rfl⟩

theorem exits_exit (reports : List (Nat × Nat)) (j ex : Nat) :
    exits (reports ++ [(j, exitStatus ex)]) = exits reports ++ [j] := by
  simp [exits]

theorem exits_all (hx : ∀ r ∈ reports, WIFEXITED r.2) : exits reports = reports.map Prod.fst := by
  unfold exits
  rw [List.filter_eq_self.mpr hx]

theorem exits_stop (reports : List (Nat × Nat)) (j sig : Nat) :
    exits (reports ++ [(j, stopStatus sig)]) = exits reports := by
  simp [exits]

/-- Each child is reported once, when it has exited. -/
structure Counted (n : Nat) (s : State) : Prop where
  once : (exits s.main.reports).Nodup
  each : ∀ j k count, s.child j = .reaped k count → j ∈ exits s.main.reports
  born : ∀ j, s.child j ≠ .unborn → j < n
  ended : s.main.pc = .ended → ∀ j < n, (s.child j).gone

theorem Counted.start (n : Nat) : Counted n (.start n) where
  once := List.nodup_nil
  each _ _ _ := by rintro ⟨⟩
  born _ hb := absurd rfl hb
  ended := by rintro ⟨⟩

theorem Counted.main (h : Counted n s) (hchild : t.child = s.child)
    (hexits : exits t.main.reports = exits s.main.reports)
    (hended : t.main.pc = .ended → ∀ j < n, (s.child j).gone) : Counted n t where
  once := by rw [hexits]; exact h.once
  each := by rw [hexits, hchild]; exact h.each
  born := by rw [hchild]; exact h.born
  ended := by rw [hchild]; exact hended

theorem Counted.child {c : ChildPc} (h : Counted n s) (hj : j < n) (hc : c.gone = false)
    (hchild : t.child = Function.update s.child j c) (hreports : t.main.reports = s.main.reports)
    (hpc : t.main.pc ≠ .ended) : Counted n t where
  once := by rw [hreports]; exact h.once
  each i k count hi := by
    rw [hchild, Function.update_apply] at hi
    split at hi
    · subst hi
      cases hc
    · rw [hreports]
      exact h.each i k count hi
  born i hi := by
    rw [hchild, Function.update_apply] at hi
    split at hi
    · next heq => exact heq ▸ hj
    · exact h.born i hi
  ended he := absurd he hpc

theorem collect_not_ended (hpc : m.pc = .wait) (j status : Nat) :
    (m.collect n j status).pc ≠ .ended := by
  intro h
  rcases collect_pc hpc j status with hw | hw <;> cases hw.symm.trans h

theorem Counted.exit {k count : Nat} (h : Counted n s) (he : Exits n s)
    (hc : s.child j = .exited k count) (hpc : s.main.pc = .wait)
    (hmain : t.main = s.main.collect n j (exitStatus (encode k count)))
    (hchild : t.child = Function.update s.child j (.reaped k count)) : Counted n t := by
  have hexits : exits t.main.reports = exits s.main.reports ++ [j] := by
    rw [hmain]
    exact exits_exit ..
  have hnew : j ∉ exits s.main.reports := by
    intro hj
    obtain ⟨status, hr, hx⟩ := mem_exits.mp hj
    obtain ⟨k', count', hc', -⟩ := he.exit j status hr hx
    cases hc.symm.trans hc'
  have hjn : j < n := h.born j (by rw [hc]; rintro ⟨⟩)
  refine ⟨?_, fun i k' count' hi => ?_, fun i hi => ?_, fun hend => ?_⟩
  · rw [hexits]
    exact List.Nodup.append h.once (List.nodup_singleton j) (List.disjoint_singleton.mpr hnew)
  · rw [hexits, List.mem_append]
    rw [hchild, Function.update_apply] at hi
    split at hi
    · next heq => exact .inr (List.mem_singleton.mpr heq)
    · exact .inl (h.each i k' count' hi)
  · rw [hchild, Function.update_apply] at hi
    split at hi
    · next heq => exact heq ▸ hjn
    · exact h.born i hi
  · rw [hmain] at hend
    exact (collect_not_ended hpc _ _ hend).elim

/-- What holds in every state. -/
structure Sound (n : Nat) (s : State) : Prop where
  known : Exits n s
  stored : Stored n s.main
  counted : Counted n s

theorem Sound.change (h : Sound n s) (hn : Change n s t) : Sound n t := by
  refine ⟨h.known.change hn, ?_, ?_⟩
  · cases hn with
    | quiet hmain _ | work _ _ _ _ _ hmain _ => rw [hmain]; exact h.stored
    | fork m hpc hmain _ | forked hpc hmain _ | ended hpc _ hmain _ =>
      rw [hmain]
      exact h.stored.goto (by rw [hpc]; exact nofun) nofun
    | exit j k count hpc _ hmain _ | stop j sig hpc _ hmain _ =>
      rw [hmain]
      exact h.stored.collect hpc ..
  · cases hn with
    | quiet hmain hchild =>
      exact h.counted.main hchild (by rw [hmain]) (by rw [hmain]; exact h.counted.ended)
    | work j c halive hgone _ hmain hchild =>
      have hj : j < n := by
        refine h.counted.born j ?_
        intro hc
        rw [hc] at halive
        cases halive
      refine h.counted.child hj hgone hchild (by rw [hmain]) ?_
      rw [hmain]
      intro hend
      have hthere := ChildPc.alive_not_gone halive
      exact Bool.false_ne_true (hthere.symm.trans (h.counted.ended hend j hj))
    | fork m hpc hmain hchild =>
      have hpc' : t.main.pc ≠ .ended := by rw [hmain]; exact nofun
      rcases hchild with hchild | hchild
      · exact h.counted.main hchild (by rw [hmain]) fun hend => absurd hend hpc'
      · have hm := (h.known.ahead (m + 1) hpc).1
        exact h.counted.child hm rfl hchild (by rw [hmain]) hpc'
    | forked hpc hmain hchild =>
      exact h.counted.main hchild (by rw [hmain]) (by rw [hmain]; exact nofun)
    | ended hpc hgone hmain hchild => exact h.counted.main hchild (by rw [hmain]) fun _ => hgone
    | exit j k count hpc hc hmain hchild => exact h.counted.exit h.known hc hpc hmain hchild
    | stop j sig hpc _ hmain hchild =>
      refine h.counted.main hchild (by rw [hmain]; exact exits_stop ..) fun hend => ?_
      rw [hmain] at hend
      exact (collect_not_ended hpc _ _ hend).elim

theorem Sound.exec {as : List Act} (he : (program n).exec (.start n) as = some s) : Sound n s :=
  LTS.exec_inv (fun _ _ _ h hn => h.change (next_change hn))
    ⟨Exits.start n, Stored.start n, Counted.start n⟩ he

/-! ## The end of the loop -/

/-- At the end every child that has exited has been reported. -/
theorem Sound.reported_iff (h : Sound n s) (hend : s.main.pc = .ended) :
    j ∈ exits s.main.reports ↔ (s.child j).status ≠ none := by
  constructor
  · intro hj
    obtain ⟨status, hr, hx⟩ := mem_exits.mp hj
    obtain ⟨k, count, hc, -⟩ := h.known.exit j status hr hx
    rw [hc]
    rintro ⟨⟩
  · intro hj
    have hn : j < n := h.counted.born j fun hc => hj (by rw [hc]; rfl)
    have hgone := h.counted.ended hend j hn
    cases hc : s.child j with
    | reaped k count => exact h.counted.each j k count hc
    | exited k count =>
      rw [hc] at hgone
      cases hgone
    | unborn | sethandler | rand | loop _ _ | killed _ _ | sleep _ _ _ =>
      rw [hc] at hj
      exact absurd rfl hj

theorem Sound.room (h : Sound n s) (hx : ∀ r ∈ s.main.reports, WIFEXITED r.2) :
    s.main.reports.length ≤ n := by
  have hsub : exits s.main.reports ⊆ List.range n := by
    intro j hj
    obtain ⟨status, hr, hx⟩ := mem_exits.mp hj
    obtain ⟨k, count, hc, -⟩ := h.known.exit j status hr hx
    exact List.mem_range.mpr (h.counted.born j (by rw [hc]; rintro ⟨⟩))
  have hlen := (h.counted.once.subperm hsub).length_le
  rwa [exits_all hx, List.length_map, List.length_range] at hlen

theorem Sound.defined (h : Sound n s) (hx : ∀ r ∈ s.main.reports, WIFEXITED r.2) :
    s.main.pc ≠ .undefined ∧ ∀ x ∈ s.main.stores, 0 ≤ x ∧ x < n := by
  have hroom := h.room hx
  constructor
  · rcases h.stored.room with ⟨-, hlen⟩ | ⟨hpc, -⟩
    · omega
    · exact hpc
  · intro x hmem
    obtain ⟨p, hp, rfl⟩ := (h.stored.stores x).mp hmem
    omega

theorem Sound.collected (h : Sound n s) (hx : ∀ r ∈ s.main.reports, WIFEXITED r.2)
    (hend : s.main.pc = .ended) : Collected n s := by
  refine ⟨(h.defined hx).2, exits s.main.reports, h.counted.once, fun j => h.reported_iff hend, ?_⟩
  intro i hi
  rw [h.stored.temp i hi, exits_all hx, List.getElem?_map]
  cases hr : s.main.reports[n - 1 - i]? with
  | none => rfl
  | some r =>
    have hmem := List.mem_of_getElem? hr
    obtain ⟨k, count, hc, hstatus⟩ := h.known.exit r.1 r.2 hmem (hx r hmem)
    show some (record r.2) = (s.child r.1).status.map record
    rw [hc, hstatus]
    rfl

theorem Sound.no_stop (h : Sound n s) (hend : s.main.pc = .ended ∨ s.main.pc = .undefined)
    (hc : Collected n s) : ∀ r ∈ s.main.reports, WIFEXITED r.2 := by
  rcases h.stored.room with ⟨-, hlen⟩ | ⟨hpc, hlen⟩
  · -- the store behind the last one that fits is at -1
    have hstore : (n : Int) - 1 - n ∈ s.main.stores := (h.stored.stores _).mpr ⟨n, hlen, rfl⟩
    have := hc.stores _ hstore
    omega
  · have hended := hend.resolve_right hpc
    obtain ⟨order, hnodup, hmem, htemp⟩ := hc.temp
    have hperm : order.Perm (exits s.main.reports) :=
      (List.perm_ext_iff_of_nodup hnodup h.counted.once).mpr fun j =>
        (hmem j).trans (h.reported_iff hended).symm
    have horder : order.length = (exits s.main.reports).length := hperm.length_eq
    by_contra hstop
    have hfewer : (exits s.main.reports).length < s.main.reports.length := by
      unfold exits
      rw [List.length_map, List.length_filter_lt_length_iff_exists]
      push Not at hstop
      exact hstop
    -- the entry behind the last child has a record
    obtain ⟨p, hp⟩ : ∃ p, p = order.length := ⟨_, rfl⟩
    have hi : n - 1 - p < n := by omega
    have hidx : n - 1 - (n - 1 - p) = p := by omega
    have hnone := htemp (n - 1 - p) hi
    rw [h.stored.temp (n - 1 - p) hi, hidx, List.getElem?_eq_none (Nat.le_of_eq hp.symm)] at hnone
    have hsome : p < s.main.reports.length := by omega
    rw [List.getElem?_eq_getElem hsome] at hnone
    cases hnone

/-- **The results are collected** in a run that has ended if and only if no stop was
reported. As long as none is, every store is in `temp`. -/
theorem collected_iff (n : Nat) (as : List Act) (he : (program n).exec (.start n) as = some s) :
    ((∀ r ∈ s.main.reports, WIFEXITED r.2) →
        s.main.pc ≠ .undefined ∧ ∀ x ∈ s.main.stores, 0 ≤ x ∧ x < n) ∧
      (s.main.pc = .ended ∨ s.main.pc = .undefined →
        (Collected n s ↔ ∀ r ∈ s.main.reports, WIFEXITED r.2)) := by
  have h := Sound.exec he
  refine ⟨h.defined, fun hend => ⟨h.no_stop hend, fun hx => h.collected hx ?_⟩⟩
  exact hend.resolve_right (h.defined hx).1

/-- Child 1 draws 1, child 0 draws 0: each handles the signal of child 1, and exits. -/
def bothCounted : List Act :=
  [.fork false, .fork false, .fork false, .child 1 0, .child 1 1, .child 0 0, .child 0 0,
    .child 1 0, .deliver 1, .deliver 0, .child 0 0, .child 1 0, .child 1 0, .waitpid (some 0), .child 1 0,
    .child 1 0, .child 1 0, .waitpid (some 1), .waitpid none]

theorem collected_iff_two :
    ∃ t, (program 2).exec (.start 2) bothCounted = some t ∧ t.main.pc = .ended ∧
      t.main.reports = [(0, exitStatus 10), (1, exitStatus 11)] ∧ Collected 2 t := by
  refine ⟨_, rfl, rfl, rfl, ((collected_iff 2 bothCounted rfl).2 (.inl rfl)).mpr ?_⟩
  intro r hr
  rcases List.mem_cons.mp hr with rfl | hr
  · exact WIFEXITED_exitStatus 10
  · obtain rfl : r = (1, exitStatus 11) := List.mem_singleton.mp hr
    exact WIFEXITED_exitStatus 11

/-- The only child is stopped (`SIGSTOP`), goes on and exits. -/
def stoppedOnce : List Act :=
  [.fork false, .fork false, .stop 0 19, .waitpid (some 0), .cont 0, .child 0 0, .child 0 0,
    .child 0 0, .waitpid (some 0)]

/-- The result of the child is stored in front of `temp`. -/
theorem stop_not_collected :
    ∃ t, (program 1).exec (.start 1) stoppedOnce = some t ∧
      t.main.reports = [(0, stopStatus 19), (0, exitStatus 0)] ∧ t.main.stores = [0, -1] ∧
      t.main.pc = .undefined ∧ ¬ Collected 1 t := by
  refine ⟨_, rfl, rfl, rfl, rfl, fun hc => ?_⟩
  have hstore := hc.stores (-1) (List.mem_cons_of_mem 0 (List.mem_singleton_self (-1)))
  exact absurd hstore.1 (by decide)

end Ops.LastYear
