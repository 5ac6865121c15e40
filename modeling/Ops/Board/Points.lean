import Mathlib.Algebra.BigOperators.Group.Finset.Piecewise
import Mathlib.Algebra.BigOperators.Group.List.Basic
import Mathlib.Algebra.Ring.Int.Defs
import Ops.Board.Complete

/-!
# Conservation of points

The mutex keeps the cells: who has read a cell that is not 0 takes its points before
anybody else looks at it. A client that exits with the mutex held has taken nothing
since it got it. Whenever nobody is in the critical section, the cells and the scores
add up to the initial board (`points_conserved`).
-/

namespace Ops.Board

open Posix (Mutex)

/-- The client is between acquiring and releasing the mutex. -/
def ClientPc.inside : ClientPc → Bool
  | .draw _ | .target _ | .readCell _ _ | .credit _ _ _ | .clear _ _ | .unlock _ | .gameOver => true
  | _ => false

def ServerPc.inside : ServerPc → Bool
  | .print _ | .unlock => true
  | _ => false

/-- The cell whose points the client has taken and that it has not set to 0 yet. -/
def ClientPc.clears : ClientPc → Option Nat
  | .clear _ i => some i
  | _ => none

/-- The points that the client has found in a cell and not taken yet. -/
def ClientPc.found : ClientPc → Option (Nat × Int)
  | .credit _ i p => some (i, p)
  | _ => none

theorem ClientPc.clears_inside {q : ClientPc} {i : Nat} (h : q.clears = some i) :
    q.inside = true ∧ q.found = none := by
  cases q <;> first | exact ⟨rfl, rfl⟩ | cases h

theorem ClientPc.found_inside {q : ClientPc} {v : Nat × Int} (h : q.found = some v) :
    q.inside = true := by
  cases q <;> first | rfl | cases h

variable {κ : Type} [DecidableEq κ] {N : Nat} {b : Nat → Int} {s t : State κ} {act : Act κ} {c : κ}

def State.inside (s : State κ) : Option κ → Bool
  | none => s.server.inside
  | some c => (s.pc c).inside

/-! ## The mutex -/

omit [DecidableEq κ] in
theorem nextCell_print {i : Nat} :
    (nextCell N i .print .unlock).inside = true ∧
      (nextCell N i .print .unlock).finished = true := by
  unfold nextCell
  split <;> exact ⟨rfl, rfl⟩

/-- A server that has finished its start-up changes nothing but the mutex and the name. -/
theorem serve_cases (hg : s.mutex.Guards s.inside) (hf : s.server.finished = true)
    {outcome : Outcome} (h : s.serve N outcome = some t) :
    ∃ q m named, t = { s with server := q, mutex := m, named := named } ∧ q.finished = true ∧
      m.Guards t.inside := by
  have hothers : ∀ {q : ServerPc} {m : Mutex (Option κ)} {named : Bool} (r : Option κ), r ≠ none →
      ({ s with server := q, mutex := m, named := named } : State κ).inside r = s.inside r :=
    fun r hr => by
      cases r with
      | none => exact absurd rfl hr
      | some c => rfl
  have hquiet : ∀ {q : ServerPc} {named : Bool}, q.inside = s.server.inside →
      s.mutex.Guards ({ s with server := q, named := named } : State κ).inside :=
    fun hq => hg.congr fun r => by
      cases r with
      | none => exact hq
      | some c => rfl
  unfold State.serve at h
  split at h
  · rename_i hq; rw [hq] at hf; cases hf
  · rename_i hq; rw [hq] at hf; cases hf
  · rename_i hq; rw [hq] at hf; cases hf
  · rename_i hq; rw [hq] at hf; cases hf
  · rename_i hq; rw [hq] at hf; cases hf
  · rename_i hq; rw [hq] at hf; cases hf
  · rename_i hq; rw [hq] at hf; cases hf
  · rename_i hq; rw [hq] at hf; cases hf
  · rename_i hq; rw [hq] at hf; cases hf
  · rename_i hq; cases h; exact ⟨_, _, _, rfl, rfl, hquiet (by rw [hq]; rfl)⟩
  · rename_i hq; cases h; exact ⟨_, _, _, rfl, rfl, hquiet (by rw [hq]; rfl)⟩
  · obtain ⟨m, hm, rfl⟩ := Option.map_eq_some_iff.mp h
    exact ⟨_, _, _, rfl, nextCell_print.2, hg.lock hm nextCell_print.1 hothers⟩
  · rename_i hq
    cases h
    exact ⟨_, _, _, rfl, nextCell_print.2, hquiet (nextCell_print.1.trans (by rw [hq]; rfl))⟩
  · obtain ⟨m, hm, rfl⟩ := Option.map_eq_some_iff.mp h
    exact ⟨_, _, _, rfl, rfl, hg.unlock hm rfl hothers⟩
  · rename_i hq
    cases h
    refine ⟨_, _, _, rfl, rfl, hg.destroy fun r hr => ?_⟩
    cases r with
    | none => cases hr
    | some c => exact hr
  · rename_i hq; cases h; exact ⟨_, _, _, rfl, rfl, hquiet (by rw [hq]; rfl)⟩
  · cases h

/-! ## The turns of a client -/

inductive Turn (s : State κ) (c : κ) : State κ → Prop where
  | moved {q : ClientPc} : q.inside = (s.pc c).inside → (s.pc c).clears = none → q.clears = none →
      (∀ i p, q.found = some (i, p) → s.board i = p ∧ p ≠ 0) → Turn s c (s.goto c q)
  | locked {n : Nat} {m : Mutex (Option κ)} : s.pc c = .lock n → s.mutex.lock (some c) = some m →
      Turn s c ({ s with mutex := m }.goto c (.draw n))
  | unlocked {q : ClientPc} {m : Mutex (Option κ)} : (s.pc c).clears = none →
      s.mutex.unlock (some c) = some m → q.inside = false → q.clears = none → q.found = none →
      Turn s c ({ s with mutex := m }.goto c q)
  | died {n : Nat} : s.pc c = .draw n →
      Turn s c ({ s with mutex := s.mutex.die (some c) }.goto c .died)
  | credited {n i : Nat} {p : Int} : s.pc c = .credit n i p →
      Turn s c ({ s with
        score := Function.update s.score c (s.score c + p)
        credits := s.credits ++ [(c, i, p)] }.goto c (.clear n i))
  | cleared {n i : Nat} : s.pc c = .clear n i →
      Turn s c ({ s with board := Function.update s.board i 0 }.goto c (.unlock n))

theorem moved_turn {q q' : ClientPc} (hpc : s.pc c = q) (hinside : q'.inside = q.inside)
    (hclears : q.clears = none) (hclears' : q'.clears = none)
    (hfound : ∀ i p, q'.found = some (i, p) → s.board i = p ∧ p ≠ 0) : Turn s c (s.goto c q') :=
  .moved (hpc ▸ hinside) (hpc ▸ hclears) hclears' hfound

theorem play_turn {outcome : Outcome} (h : s.play c outcome = some t) : Turn s c t := by
  unfold State.play at h
  split at h
  · rename_i hpc; cases h; split <;> exact moved_turn hpc rfl rfl rfl nofun
  · rename_i hpc; cases h; exact moved_turn hpc rfl rfl rfl nofun
  · rename_i hpc; cases h; exact moved_turn hpc rfl rfl rfl nofun
  · rename_i hpc; cases h; exact moved_turn hpc rfl rfl rfl nofun
  · rename_i hpc
    split at h
    · cases h; exact moved_turn hpc rfl rfl rfl nofun
    · cases h
  · rename_i hpc
    obtain ⟨m, hm, rfl⟩ := Option.map_eq_some_iff.mp h
    exact .locked hpc hm
  · rename_i hpc
    split at h
    · cases h; exact .died hpc
    · cases h; exact moved_turn hpc rfl rfl rfl nofun
  · rename_i hpc
    split at h
    · cases h
    · cases h; exact moved_turn hpc rfl rfl rfl nofun
  · rename_i n i hpc
    cases h
    split
    · exact moved_turn hpc rfl rfl rfl nofun
    · rename_i hne
      refine moved_turn hpc rfl rfl rfl fun j p hp => ?_
      cases hp
      exact ⟨rfl, hne⟩
  · rename_i hpc; cases h; exact .credited hpc
  · rename_i hpc; cases h; exact .cleared hpc
  · rename_i hpc
    obtain ⟨m, hm, rfl⟩ := Option.map_eq_some_iff.mp h
    exact .unlocked (by rw [hpc]; rfl) hm rfl rfl rfl
  · rename_i hpc
    obtain ⟨m, hm, rfl⟩ := Option.map_eq_some_iff.mp h
    exact .unlocked (by rw [hpc]; rfl) hm rfl rfl rfl
  · cases h

theorem Turn.guards (h : Turn s c t) (hg : s.mutex.Guards s.inside) : t.mutex.Guards t.inside := by
  have hothers : ∀ {u : State κ} {q : ClientPc}, u.pc = Function.update s.pc c q →
      u.server = s.server → ∀ r, r ≠ some c → u.inside r = s.inside r := fun hpc hserver r hr => by
    cases r with
    | none => exact congrArg ServerPc.inside hserver
    | some d =>
      have hne : d ≠ c := fun hd => hr (congrArg some hd)
      exact congrArg ClientPc.inside ((congrFun hpc d).trans (Function.update_of_ne hne ..))
  have hself : ∀ {u : State κ} {q : ClientPc}, u.pc = Function.update s.pc c q →
      u.inside (some c) = q.inside := fun hpc =>
    congrArg ClientPc.inside ((congrFun hpc c).trans (Function.update_self ..))
  have hquiet : ∀ {u : State κ} {q : ClientPc}, u.pc = Function.update s.pc c q →
      u.server = s.server → q.inside = (s.pc c).inside → s.mutex.Guards u.inside :=
    fun hpc hserver hq => hg.congr fun r => by
      by_cases hr : r = some c
      · rw [hr]; exact (hself hpc).trans hq
      · exact hothers hpc hserver r hr
  cases h with
  | moved hinside _ _ _ => exact hquiet rfl rfl hinside
  | locked hpc hm => exact hg.lock hm (hself (q := .draw _) rfl) (hothers rfl rfl)
  | unlocked _ hm hq _ _ => exact hg.unlock hm ((hself rfl).trans hq) (hothers rfl rfl)
  | died hpc => exact hg.die (hself (q := .died) rfl) (hothers rfl rfl)
  | credited hpc => exact hquiet rfl rfl (by rw [hpc]; rfl)
  | cleared hpc => exact hquiet rfl rfl (by rw [hpc]; rfl)

/-! ## The ledger -/

/-- The cells whose points were given to a client. -/
def State.taken (s : State κ) : List Nat := s.credits.map fun e => e.2.1

def points (credits : List (κ × Nat × Int)) (c : κ) : Int :=
  ((credits.filter fun e => e.1 = c).map fun e => e.2.2).sum

structure Ledger (N : Nat) (b : Nat → Int) (s : State κ) : Prop where
  value : ∀ c i p, (s.pc c).found = some (i, p) → s.board i = p ∧ p ≠ 0
  clearing : ∀ c i, (s.pc c).clears = some i → i ∈ s.taken
  kept : ∀ i, i ∉ s.taken → s.board i = b i
  spent : ∀ i ∈ s.taken, s.board i = 0 ∨ ∃ c, (s.pc c).clears = some i
  nodup : s.taken.Nodup
  credit : ∀ e ∈ s.credits, e.2.2 = b e.2.1 ∧ e.2.1 < N * N
  score : ∀ c, s.score c = points s.credits c

/-- The client that sets a cell to 0 is another one, and goes on. -/
theorem clears_other {q : ClientPc} {i : Nat} (hpc : t.pc = Function.update s.pc c q)
    (hne : (s.pc c).clears ≠ some i) (h : ∃ d, (s.pc d).clears = some i) :
    ∃ d, (t.pc d).clears = some i := by
  obtain ⟨d, hd⟩ := h
  have hdc : d ≠ c := fun hdc => hne (hdc ▸ hd)
  exact ⟨d, by rw [hpc, Function.update_of_ne hdc, hd]⟩

theorem Ledger.frame (hs : Ledger N b s) {q : ClientPc} (hpc : t.pc = Function.update s.pc c q)
    (hboard : t.board = s.board) (hscore : t.score = s.score) (hcredits : t.credits = s.credits)
    (hclears : (s.pc c).clears = none) (hclears' : q.clears = none)
    (hfound : ∀ i p, q.found = some (i, p) → s.board i = p ∧ p ≠ 0) : Ledger N b t := by
  have htaken : t.taken = s.taken := by rw [State.taken, State.taken, hcredits]
  refine ⟨fun d i p hd => ?_, fun d i hd => ?_, fun i hi => ?_, fun i hi => ?_, htaken ▸ hs.nodup,
    hcredits ▸ hs.credit, fun d => ?_⟩
  · rw [hboard]
    rcases update_cases hpc hd with ⟨-, h⟩ | ⟨-, h⟩
    · exact hfound i p h
    · exact hs.value d i p h
  · rw [htaken]
    exact hs.clearing d i (update_sub hpc (.inl hclears') hd)
  · rw [hboard]; exact hs.kept i (htaken ▸ hi)
  · rw [hboard]
    have hne : (s.pc c).clears ≠ some i := by rw [hclears]; nofun
    exact (hs.spent i (htaken ▸ hi)).imp_right (clears_other hpc hne)
  · rw [hscore, hcredits]; exact hs.score d

theorem points_append (credits : List (κ × Nat × Int)) (e : κ × Nat × Int) (d : κ) :
    points (credits ++ [e]) d = points credits d + if e.1 = d then e.2.2 else 0 := by
  unfold points
  rw [List.filter_append, List.map_append, List.sum_append]
  by_cases hd : e.1 = d
  · have hfilter : [e].filter (fun x => x.1 = d) = [e] :=
      List.filter_cons_of_pos (decide_eq_true hd)
    rw [if_pos hd, hfilter, List.map_singleton, List.sum_singleton]
  · have hfilter : [e].filter (fun x => x.1 = d) = [] :=
      List.filter_cons_of_neg (by simpa using hd)
    rw [if_neg hd, hfilter, List.map_nil, List.sum_nil]

/-- The client takes the points of a cell that nobody has taken before. -/
theorem Ledger.credited (hs : Ledger N b s) {n i : Nat} {p : Int} (hpc : s.pc c = .credit n i p)
    (hi : i < N * N) (halone : ∀ d, d ≠ c → (s.pc d).inside = false) :
    Ledger N b ({ s with
      score := Function.update s.score c (s.score c + p)
      credits := s.credits ++ [(c, i, p)] }.goto c (.clear n i)) := by
  obtain ⟨hboard, hne⟩ := hs.value c i p (by rw [hpc]; rfl)
  have hclears : (s.pc c).clears = none := by rw [hpc]; rfl
  have hfresh : i ∉ s.taken := fun hmem => by
    rcases hs.spent i hmem with hzero | ⟨d, hd⟩
    · exact hne (hboard.symm.trans hzero)
    · by_cases hdc : d = c
      · rw [hdc, hclears] at hd; cases hd
      · have hin := (ClientPc.clears_inside hd).1
        rw [halone d hdc] at hin
        cases hin
  have htaken : ({ s with
      score := Function.update s.score c (s.score c + p)
      credits := s.credits ++ [(c, i, p)] }.goto c (.clear n i) : State κ).taken = s.taken ++ [i] :=
    List.map_append ..
  refine ⟨fun d j q hd => ?_, fun d j hd => ?_, fun j hj => ?_, fun j hj => ?_, ?_, fun e he => ?_,
    fun d => ?_⟩
  · rcases update_cases (f := ClientPc.found) rfl hd with ⟨-, h⟩ | ⟨-, h⟩
    · cases h
    · exact hs.value d j q h
  · rw [htaken, List.mem_append, List.mem_singleton]
    rcases update_cases (f := ClientPc.clears) rfl hd with ⟨-, h⟩ | ⟨-, h⟩
    · exact .inr (Option.some.inj h).symm
    · exact .inl (hs.clearing d j h)
  · rw [htaken, List.mem_append, not_or] at hj
    exact hs.kept j hj.1
  · rw [htaken, List.mem_append, List.mem_singleton] at hj
    rcases hj with hj | rfl
    · have hne : (s.pc c).clears ≠ some j := by rw [hclears]; nofun
      exact (hs.spent j hj).imp_right (clears_other rfl hne)
    · refine .inr ⟨c, ?_⟩
      show (Function.update s.pc c (ClientPc.clear n j) c).clears = some j
      rw [Function.update_self]; rfl
  · rw [htaken]
    exact hs.nodup.append (List.nodup_singleton i) (List.disjoint_singleton.mpr hfresh)
  · rcases List.mem_append.mp he with he | he
    · exact hs.credit e he
    · rw [List.mem_singleton.mp he]
      exact ⟨hboard.symm.trans (hs.kept i hfresh), hi⟩
  · show Function.update s.score c (s.score c + p) d = points (s.credits ++ [(c, i, p)]) d
    rw [points_append]
    by_cases hd : d = c
    · rw [hd, Function.update_self, if_pos rfl, hs.score c]
    · rw [Function.update_of_ne hd, if_neg (Ne.symm hd), hs.score d, Int.add_zero]

theorem Ledger.cleared (hs : Ledger N b s) {n i : Nat} (hpc : s.pc c = .clear n i)
    (halone : ∀ d, d ≠ c → (s.pc d).inside = false) :
    Ledger N b ({ s with board := Function.update s.board i 0 }.goto c (.unlock n)) := by
  have hmem := hs.clearing c i (by rw [hpc]; rfl)
  refine ⟨fun d j q hd => ?_, fun d j hd => ?_, fun j hj => ?_, fun j hj => ?_, hs.nodup, hs.credit,
    hs.score⟩
  · rcases update_cases (f := ClientPc.found) rfl hd with ⟨-, h⟩ | ⟨hne, h⟩
    · cases h
    · have hin := ClientPc.found_inside h
      rw [halone d hne] at hin
      cases hin
  · exact hs.clearing d j (update_sub (f := ClientPc.clears) rfl (.inl rfl) hd)
  · show Function.update s.board i 0 j = b j
    have hne : j ≠ i := fun hji => hj (hji ▸ hmem)
    rw [Function.update_of_ne hne]
    exact hs.kept j hj
  · show Function.update s.board i 0 j = 0 ∨ _
    by_cases hji : j = i
    · rw [hji, Function.update_self]; exact .inl rfl
    · rw [Function.update_of_ne hji]
      have hne : (s.pc c).clears ≠ some j := fun h => by
        rw [hpc] at h
        exact hji (Option.some.inj h).symm
      exact (hs.spent j hj).imp_right (clears_other rfl hne)

theorem Ledger.turn (hs : Ledger N b s) (hg : s.mutex.Guards s.inside) (hsound : Sound N s)
    (h : Turn s c t) : Ledger N b t := by
  have halone : (s.pc c).inside = true → ∀ d, d ≠ c → (s.pc d).inside = false := fun hin d hd =>
    hg.alone (p := some c) hin (some d) fun h => hd (Option.some.inj h)
  cases h with
  | moved _ hclears hclears' hfound => exact hs.frame rfl rfl rfl rfl hclears hclears' hfound
  | locked hpc _ => exact hs.frame rfl rfl rfl rfl (by rw [hpc]; rfl) rfl nofun
  | unlocked hclears _ _ hclears' hfound =>
    refine hs.frame rfl rfl rfl rfl hclears hclears' fun i p hp => ?_
    rw [hfound] at hp
    cases hp
  | died hpc => exact hs.frame rfl rfl rfl rfl (by rw [hpc]; rfl) rfl nofun
  | @credited n i p hpc =>
    exact hs.credited hpc (hsound.client c i (by rw [hpc]; rfl)) (halone (by rw [hpc]; rfl))
  | cleared hpc => exact hs.cleared hpc (halone (by rw [hpc]; rfl))

/-! ## Sums -/

open Finset in
theorem sum_taken {l : List Nat} {n : Nat} {f g : Nat → Int} (hl : l.Nodup) (hlt : ∀ i ∈ l, i < n)
    (hzero : ∀ i ∈ l, g i = 0) (hkept : ∀ i, i ∉ l → g i = f i) :
    ∑ i ∈ range n, g i + (l.map f).sum = ∑ i ∈ range n, f i := by
  have hsub : l.toFinset ⊆ range n := fun i hi => mem_range.mpr (hlt i (List.mem_toFinset.mp hi))
  have hrest : ∑ i ∈ range n \ l.toFinset, g i = ∑ i ∈ range n \ l.toFinset, f i :=
    sum_congr rfl fun i hi => hkept i fun h => (mem_sdiff.mp hi).2 (List.mem_toFinset.mpr h)
  have htaken : ∑ i ∈ l.toFinset, g i = 0 :=
    sum_eq_zero fun i hi => hzero i (List.mem_toFinset.mp hi)
  calc ∑ i ∈ range n, g i + (l.map f).sum
      = ∑ i ∈ range n \ l.toFinset, g i + ∑ i ∈ l.toFinset, g i + ∑ i ∈ l.toFinset, f i := by
        rw [sum_sdiff hsub, List.sum_toFinset f hl]
    _ = ∑ i ∈ range n \ l.toFinset, f i + ∑ i ∈ l.toFinset, f i := by
        rw [htaken, add_zero, hrest]
    _ = ∑ i ∈ range n, f i := sum_sdiff hsub

open Finset in
theorem sum_points {credits : List (κ × Nat × Int)} {T : Finset κ} (h : ∀ e ∈ credits, e.1 ∈ T) :
    ∑ c ∈ T, points credits c = (credits.map fun e => e.2.2).sum := by
  induction credits using List.reverseRecOn with
  | nil => exact sum_const_zero
  | append_singleton credits e ih =>
    have hmem : e.1 ∈ T := h e (List.mem_append_right _ (List.mem_singleton_self e))
    have hrest := ih fun e he => h e (List.mem_append_left _ he)
    calc ∑ c ∈ T, points (credits ++ [e]) c
        = ∑ c ∈ T, (points credits c + if e.1 = c then e.2.2 else 0) :=
          sum_congr rfl fun c _ => points_append credits e c
      _ = (credits.map fun e => e.2.2).sum + e.2.2 := by
          rw [sum_add_distrib, hrest, sum_ite_eq, if_pos hmem]
      _ = ((credits ++ [e]).map fun e => e.2.2).sum := by
          rw [List.map_append, List.sum_append, List.map_singleton, List.sum_singleton]

/-! ## Runs -/

omit [DecidableEq κ] in
theorem ready_sound : Sound N (ready κ N b) :=
  ⟨fun _ => rfl, fun _ => nofun, fun _ _ => nofun, fun _ _ => nofun, fun _ => nofun⟩

omit [DecidableEq κ] in
theorem ready_guards : (ready κ N b).mutex.Guards (ready κ N b).inside := by
  have hnone : ∀ r, (ready κ N b).inside r = false := fun r => by cases r <;> rfl
  refine ⟨fun _ => nofun, fun r hr => ?_, fun r _ hr => ?_⟩
  · rw [hnone] at hr; cases hr
  · rw [hnone] at hr; cases hr

theorem ready_ledger : Ledger N b (ready κ N b) :=
  ⟨fun _ _ _ => nofun, fun _ _ => nofun, fun _ _ => rfl, nofun, List.nodup_nil, nofun, fun _ => rfl⟩

structure Game (N : Nat) (b : Nat → Int) (s : State κ) : Prop where
  finished : s.server.finished = true
  guards : s.mutex.Guards s.inside
  sound : Sound N s
  ledger : Ledger N b s

theorem Game.next (hs : Game N b s) (h : s.next N act = some t) : Game N b t := by
  unfold State.next at h
  split at h
  · have hsound := hs.sound.serve h
    obtain ⟨q, m, named, rfl, hq, hg⟩ := serve_cases hs.guards hs.finished h
    have hl := hs.ledger
    exact ⟨hq, hg, hsound,
      ⟨hl.value, hl.clearing, hl.kept, hl.spent, hl.nodup, hl.credit, hl.score⟩⟩
  · have hturn := play_turn h
    have hserver : ∀ {u : State κ} {d : κ}, Turn s d u → u.server = s.server := fun hu => by
      cases hu <;> rfl
    refine ⟨?_, hturn.guards hs.guards, hs.sound.play (fun _ _ => hs.finished) h,
      hs.ledger.turn hs.guards hs.sound hturn⟩
    rw [hserver hturn]
    exact hs.finished

theorem game_reach (h : (games κ N b).Reach s) : Game N b s := by
  refine h.inv (I := Game N b) (fun s hs => ?_) fun s act t _ hs hn => hs.next hn
  rw [hs]
  exact ⟨rfl, ready_guards, ready_sound, ready_ledger⟩

open Finset in
/-- **Conservation of points.** Whenever no living client is between acquiring and
releasing the mutex, the cells and the scores of all clients that ever played add up to
the initial board; a cell has its initial value or is 0, and the points of a cell are
given to one client at most, once, and are in its score. -/
theorem points_conserved (h : (games κ N b).Reach s) (hquiet : ∀ c, (s.pc c).inside = false) :
    (∀ T : Finset κ, (∀ c, s.score c ≠ 0 → c ∈ T) →
      ∑ i ∈ range (N * N), s.board i + ∑ c ∈ T, s.score c = ∑ i ∈ range (N * N), b i) ∧
    (∀ i, s.board i = b i ∨ s.board i = 0) ∧
    (s.credits.map fun e => e.2.1).Nodup ∧ (∀ e ∈ s.credits, e.2.2 = b e.2.1) ∧
    ∀ c, s.score c = points s.credits c := by
  have hs := (game_reach h).ledger
  have hzero : ∀ i ∈ s.taken, s.board i = 0 := fun i hi => by
    rcases hs.spent i hi with hz | ⟨c, hc⟩
    · exact hz
    · have hin := (ClientPc.clears_inside hc).1
      rw [hquiet c] at hin
      cases hin
  refine ⟨fun T hT => ?_, fun i => ?_, hs.nodup, fun e he => (hs.credit e he).1, hs.score⟩
  · have hlt : ∀ i ∈ s.taken, i < N * N := fun i hi => by
      obtain ⟨e, he, rfl⟩ := List.mem_map.mp hi
      exact (hs.credit e he).2
    have hboard := sum_taken hs.nodup hlt hzero hs.kept
    have hcredits : (s.taken.map b).sum = (s.credits.map fun e => e.2.2).sum := by
      rw [State.taken, List.map_map]
      exact congrArg List.sum (List.map_congr_left fun e he => (hs.credit e he).1.symm)
    -- a client with credits and no score adds 0
    let all := T ∪ (s.credits.map fun e => e.1).toFinset
    have hall : ∀ e ∈ s.credits, e.1 ∈ all := fun e he =>
      mem_union_right _ (List.mem_toFinset.mpr (List.mem_map_of_mem he))
    have hscores : ∑ c ∈ T, s.score c = ∑ c ∈ all, s.score c :=
      sum_subset subset_union_left fun c _ hc => by_contra fun hne => hc (hT c hne)
    have hpoints : ∑ c ∈ all, s.score c = (s.credits.map fun e => e.2.2).sum :=
      (sum_congr rfl fun c _ => hs.score c).trans (sum_points hall)
    rw [hscores, hpoints, ← hcredits, hboard]
  · by_cases hi : i ∈ s.taken
    · exact .inr (hzero i hi)
    · exact .inl (hs.kept i hi)

def cells (i : Nat) : Int := [4, 2, 7, 1].getD i 0

/-- A client takes 4 points and exits with the mutex held; the next one takes 2. -/
theorem points_conserved_died : ∃ s : State Bool,
    (games Bool 2 cells).Reach s ∧ s.pc true = .died ∧
      s.score true = 4 ∧ s.score false = 2 ∧
      ∑ i ∈ Finset.range (2 * 2), s.board i + ∑ c : Bool, s.score c =
        ∑ i ∈ Finset.range (2 * 2), cells i := by
  have hrun : ((games Bool 2 cells).exec (ready Bool 2 cells)
      (plays true 4 ++ [⟨some true, .rand 1⟩, ⟨some true, .rands 0 0⟩] ++ plays true 5 ++
        [⟨some true, .rand 9⟩] ++ plays false 4 ++
        [⟨some false, .rand 1⟩, ⟨some false, .rands 1 0⟩] ++ plays false 4)).map
        (fun s => (s.pc true, s.pc false, s.score true, s.score false)) =
          some (.died, .lock 2, 4, 2) := by decide +kernel
  obtain ⟨s, hs, heq⟩ := Option.map_eq_some_iff.mp hrun
  simp only [Prod.mk.injEq] at heq
  obtain ⟨htrue, hfalse, hscore, hscore'⟩ := heq
  have hr := LTS.Reach.exec (.init rfl) hs
  have hquiet : ∀ c, (s.pc c).inside = false := fun c => by
    cases c
    · rw [hfalse]; rfl
    · rw [htrue]; rfl
  exact ⟨s, hr, htrue, hscore, hscore',
    (points_conserved hr hquiet).1 Finset.univ fun c _ => Finset.mem_univ c⟩

end Ops.Board
