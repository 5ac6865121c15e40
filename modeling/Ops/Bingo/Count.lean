import Ops.Bingo.Threads
import Ops.Lib.Overlap

/-!
# `children_left`

A child is forked with one increment, and its decrement is stored by the handler that has reaped
it. The flows load and store `children_left` at the same time: the increment of the main flow is
interrupted, and handlers run in several threads. The first store is overwritten then, and
`children_left` stays too large (`counted_iff`).
-/

namespace Ops.Bingo

open Posix

variable {n i k rand rand' : Nat} {w : Flow} {old : Old} {s t : State} {act : Act}

def State.unreaped (n : Nat) (s : State) : Nat :=
  (List.range n).countP fun i => (s.child i).unreaped

/-- Forked, and its decrement is not stored. -/
def Child.uncounted : Child → Bool
  | .unborn | .counted => false
  | _ => true

def Parent.creates : Parent → Bool
  | .fork _ | .load _ | .store _ _ => true
  | _ => false

/-- The increment at hand is not stored. -/
def Parent.owes : Parent → Int
  | .load _ | .store _ _ => 1
  | _ => 0

/-- What the increments and decrements that are stored add up to. -/
def State.due (n : Nat) (s : State) : Int :=
  ((List.range n).countP fun i => (s.child i).uncounted : Nat) - s.parent.owes

def Parent.held : Parent → Option Int
  | .store _ left => some left
  | _ => none

def Handler.held : Handler → Option Int
  | .store _ left => some left
  | _ => none

def Handler.child : Handler → Option Nat
  | .load i | .store i _ => some i
  | .waitpid => none

/-- What `children++` of the main flow, or `children--` of a handler, has loaded. -/
def State.held (s : State) : Option Flow → Option Int
  | none => s.parent.held
  | some w => (s.handler w).bind Handler.held

def State.reaping (s : State) (w : Flow) : Option Nat := (s.handler w).bind Handler.child

/-- A decrement is stored while no other flow is between a load and a store. -/
def Whole (s : State) : Act → Prop
  | .decrement w => (s.held (some w)).isSome → ∀ x, x ≠ some w → s.held x = none
  | _ => True

/-- The children below are still to be forked. -/
def Parent.unborn : Parent → Nat
  | .fork k => k + 1
  | .load k | .store k _ => k
  | _ => 0

structure Births (n : Nat) (s : State) : Prop where
  bound : ∀ i, n ≤ i → s.child i = .unborn
  below : ∀ i < s.parent.unborn, s.child i = .unborn
  place : s.parent.unborn ≤ n

/-- A child is reaped and not counted off if and only if one handler has it. -/
structure Reaps (s : State) : Prop where
  reaped : ∀ i, s.child i = .reaped ↔ ∃ w, s.reaping w = some i
  one : ∀ w w' i, s.reaping w = some i → s.reaping w' = some i → w = w'

/-! ## The handlers -/

theorem Reaps.frame (h : Reaps s) (hchild : ∀ q, t.child q = .reaped ↔ s.child q = .reaped)
    (hreaping : ∀ w, t.reaping w = s.reaping w) : Reaps t where
  reaped i := by
    rw [hchild i, h.reaped i]
    exact exists_congr fun w => by rw [hreaping w]
  one w w' i hw hw' := h.one w w' i (hreaping w ▸ hw) (hreaping w' ▸ hw')

theorem reaping_same {x : Option Handler} (hx : x.bind Handler.child = s.reaping w) (w' : Flow) :
    (s.setHandler w x).reaping w' = s.reaping w' :=
  update_same (f := fun h : Option Handler => h.bind Handler.child) hx w'

theorem reaping_set {x : Option Handler} :
    (s.setHandler w x).reaping = Function.update s.reaping w (x.bind Handler.child) :=
  funext fun w' => Function.apply_update (fun _ h => h.bind Handler.child) s.handler w x w'

theorem reaped_same {c : Child} (hi : s.child i ≠ .reaped) (hc : c ≠ .reaped) (q : Nat) :
    Function.update s.child i c q = .reaped ↔ s.child q = .reaped := by
  by_cases hq : q = i
  · rw [hq, Function.update_self]
    exact ⟨fun h => absurd h hc, fun h => absurd h hi⟩
  · rw [Function.update_of_ne hq]

theorem Reaps.reap (h : Reaps s) (hw : s.reaping w = none)
    (hchild : ∀ q, t.child q = .reaped ↔ q = i ∨ s.child q = .reaped)
    (hi : s.child i ≠ .reaped) (hreaping : t.reaping = Function.update s.reaping w (some i)) :
    Reaps t := by
  have hcases : ∀ {w' q}, t.reaping w' = some q →
      w' = w ∧ q = i ∨ w' ≠ w ∧ s.reaping w' = some q := by
    intro w' q hq
    rcases update_cases (f := id) hreaping hq with ⟨hww, hqi⟩ | hother
    · exact .inl ⟨hww, (Option.some.inj hqi).symm⟩
    · exact .inr hother
  refine ⟨fun q => ?_, fun w' w'' q hq hq' => ?_⟩
  · rw [hchild q, hreaping]
    constructor
    · rintro (rfl | hq)
      · exact ⟨w, Function.update_self ..⟩
      · obtain ⟨w', hw'⟩ := (h.reaped q).mp hq
        refine ⟨w', ?_⟩
        rw [Function.update_of_ne]
        · exact hw'
        · rintro rfl
          rw [hw] at hw'
          cases hw'
    · rintro ⟨w', hw'⟩
      rcases hcases (hreaping ▸ hw') with ⟨-, hqi⟩ | ⟨-, hq⟩
      · exact .inl hqi
      · exact .inr ((h.reaped q).mpr ⟨w', hq⟩)
  · rcases hcases hq with ⟨hww, hqi⟩ | ⟨-, hold⟩
    · rcases hcases hq' with ⟨hww', -⟩ | ⟨-, hold'⟩
      · rw [hww, hww']
      · exact absurd (hqi ▸ (h.reaped q).mpr ⟨w'', hold'⟩) hi
    · rcases hcases hq' with ⟨-, hqi⟩ | ⟨-, hold'⟩
      · exact absurd (hqi ▸ (h.reaped q).mpr ⟨w', hold⟩) hi
      · exact h.one w' w'' q hold hold'

theorem Reaps.store (h : Reaps s) (hw : s.reaping w = some i)
    (hchild : ∀ q, t.child q = .reaped ↔ q ≠ i ∧ s.child q = .reaped)
    (hreaping : t.reaping = Function.update s.reaping w none) : Reaps t := by
  have hcases : ∀ {w' q}, t.reaping w' = some q ↔ w' ≠ w ∧ s.reaping w' = some q := by
    intro w' q
    rw [hreaping]
    by_cases hww : w' = w
    · rw [hww, Function.update_self]
      exact ⟨nofun, fun hne => absurd rfl hne.1⟩
    · rw [Function.update_of_ne hww]
      exact ⟨fun hq => ⟨hww, hq⟩, And.right⟩
  refine ⟨fun q => ?_, fun w' w'' q hq hq' => h.one w' w'' q (hcases.mp hq).2 (hcases.mp hq').2⟩
  rw [hchild q, h.reaped q]
  constructor
  · rintro ⟨hqi, w', hw'⟩
    refine ⟨w', hcases.mpr ⟨?_, hw'⟩⟩
    rintro rfl
    rw [hw] at hw'
    exact hqi (Option.some.inj hw').symm
  · rintro ⟨w', hq⟩
    obtain ⟨hww, hq⟩ := hcases.mp hq
    refine ⟨?_, w', hq⟩
    rintro rfl
    exact hww (h.one w' w q hq hw)

theorem childLoop_unreaped (i life bingo : Nat) : (childLoop i life bingo).unreaped = true := by
  cases life <;> rfl

theorem number_unreaped (i life bingo ni : Nat) :
    (if bingo = ni then .send (bingo, 1) else childLoop i life bingo : Child).unreaped = true := by
  split
  · rfl
  · exact childLoop_unreaped i life bingo

theorem Child.uncounted_of {c : Child} (h : c.unreaped = true) : c.uncounted = true := by
  cases c <;> first | rfl | cases h

theorem goes_on {c : Child} (hc : c.unreaped = true) (hi : (s.child i).unreaped = true) (q : Nat) :
    (Function.update s.child i c q).uncounted = (s.child q).uncounted :=
  update_same (f := Child.uncounted)
    ((Child.uncounted_of hc).trans (Child.uncounted_of hi).symm) q

theorem Child.ne_reaped {c : Child} (h : c.unreaped = true) : c ≠ .reaped := by
  rintro rfl
  cases h

theorem Reaps.moves (h : Reaps s) (hbirths : Births n s) (hm : Moves n s act t) : Reaps t := by
  cases hm with
  | fork hp =>
    have hunborn := hbirths.below _ (by rw [hp]; exact Nat.lt_succ_self _)
    exact h.frame (reaped_same (by rw [hunborn]; nofun) nofun) fun _ => rfl
  | load | store | register | stop | draw | number | retry | again | forkFails | close | exit |
    busy | failed | full | take | empty | agreed | lost | print | renew | renewBusy | closed |
    closedNotify | done => exact h.frame (fun _ => Iff.rfl) fun _ => rfl
  | deliver hw | reaped hw | loads hw =>
    exact h.frame (fun _ => Iff.rfl) (reaping_same (by rw [State.reaping, hw]; rfl))
  | @echild w hw =>
    have hset := reaping_same (s := s) (w := w) (x := none) (by rw [State.reaping, hw]; rfl)
    refine h.frame (fun q => ?_) fun w' => ?_
    · rw [show ((s.echild w).setHandler w none).child = s.child from echild_child]
    · refine Eq.trans ?_ (hset w')
      simp only [State.reaping, State.setHandler, echild_handler]
  | start hc =>
    exact h.frame (reaped_same (by rw [hc]; nofun) (Child.ne_reaped (childLoop_unreaped ..)))
      fun _ => rfl
  | receive hc =>
    exact h.frame (reaped_same (by rw [hc]; nofun) (Child.ne_reaped (number_unreaped ..)))
      fun _ => rfl
  | leave hc =>
    exact h.frame (reaped_same (c := .zombie) (by rw [hc]; nofun) nofun) fun _ => rfl
  | send hc =>
    refine h.frame (fun q => ?_) fun w' => by rw [State.reaping, sends_handler]; rfl
    rw [sends_child]
    exact reaped_same (c := .leaving) (by rw [hc]; nofun) nofun q
  | @reap w i hw hc =>
    have hne : s.child i ≠ .reaped := by rw [hc]; nofun
    refine h.reap (by rw [State.reaping, hw]; rfl) (fun q => ?_) hne reaping_set
    show Function.update s.child i .reaped q = .reaped ↔ _
    by_cases hq : q = i
    · rw [hq, Function.update_self]
      exact ⟨fun _ => .inl rfl, fun _ => rfl⟩
    · rw [Function.update_of_ne hq]
      exact (or_iff_right hq).symm
  | @stores w i left hw =>
    refine h.store (by rw [State.reaping, hw]; rfl) (fun q => ?_) reaping_set
    show Function.update s.child i .counted q = .reaped ↔ _
    by_cases hq : q = i
    · rw [hq, Function.update_self]
      exact ⟨nofun, fun hne => absurd rfl hne.1⟩
    · rw [Function.update_of_ne hq]
      exact (and_iff_right hq).symm

/-! ## The children -/

theorem createLoop_unborn (k : Nat) : (createLoop k).unborn = k := by
  cases k <;> rfl

theorem createLoop_owes (k : Nat) : (createLoop k).owes = 0 := by
  cases k <;> rfl

theorem createLoop_held (k : Nat) : (createLoop k).held = none := by
  cases k <;> rfl

theorem Births.frame (h : Births n s) (hchild : t.child = s.child)
    (hparent : t.parent.unborn ≤ s.parent.unborn) : Births n t where
  bound := hchild ▸ h.bound
  below i hi := hchild ▸ h.below i (Nat.lt_of_lt_of_le hi hparent)
  place := Nat.le_trans hparent h.place

theorem Births.setChild {c : Child} (h : Births n s) (hi : s.child i ≠ .unborn)
    (hchild : t.child = Function.update s.child i c) (hparent : t.parent = s.parent) :
    Births n t := by
  have hother : ∀ q, s.child q = .unborn → t.child q = .unborn := by
    intro q hq
    rw [hchild, Function.update_of_ne]
    · exact hq
    · rintro rfl
      exact hi hq
  exact ⟨fun q hq => hother q (h.bound q hq), fun q hq => hother q (h.below q (hparent ▸ hq)),
    hparent ▸ h.place⟩

theorem Births.moves (h : Births n s) (hreaps : Reaps s) (hm : Moves n s act t) : Births n t := by
  have hstays : ∀ {p : Parent}, p.unborn = 0 → p.unborn ≤ s.parent.unborn := fun hp =>
    hp ▸ Nat.zero_le _
  cases hm with
  | @fork rand k hp =>
    have hbelow := h.below
    have hplace := h.place
    rw [hp] at hbelow hplace
    have hk : k < n := hplace
    have hother : ∀ q, q ≠ k → s.child q = .unborn → Function.update s.child k .start q = .unborn :=
      fun q hq hu => by rw [Function.update_of_ne hq, hu]
    refine ⟨fun q hq => hother q (by omega) (h.bound q hq), fun q hq => ?_, Nat.le_of_lt hk⟩
    have hlt : q < k := hq
    exact hother q (by omega) (hbelow q (Nat.lt_succ_of_lt hlt))
  | load hp => exact h.frame rfl (by rw [hp]; exact Nat.le_refl _)
  | store hp => exact h.frame rfl (by rw [hp, createLoop_unborn]; exact Nat.le_refl _)
  | register | stop | draw | number | retry | again | forkFails | close | exit =>
    exact h.frame rfl (hstays rfl)
  | busy | failed | reaped | loads | full | take | empty | agreed | lost | print | renew |
    renewBusy | closed | closedNotify | done => exact h.frame rfl (Nat.le_refl _)
  | deliver =>
    have hparent := interrupt_same (f := Parent.unborn) (fun _ => rfl) s
    exact h.frame rfl (Nat.le_of_eq (hparent _))
  | echild =>
    have hparent := echild_same (f := Parent.unborn) (fun _ _ => rfl) s
    exact h.frame echild_child (Nat.le_of_eq (hparent _))
  | reap _ hc | start hc | receive hc | leave hc => exact h.setChild (by rw [hc]; nofun) rfl rfl
  | send hc => exact h.setChild (by rw [hc]; nofun) sends_child sends_parent
  | stores hw =>
    have hreaped := (hreaps.reaped _).mpr ⟨_, by rw [State.reaping, hw]; rfl⟩
    exact h.setChild (by rw [hreaped]; nofun) rfl rfl

/-! ## The account -/

theorem due_same (hchild : ∀ q, (t.child q).uncounted = (s.child q).uncounted)
    (hparent : t.parent.owes = s.parent.owes) : t.due n = s.due n := by
  unfold State.due
  rw [countP_same fun q _ => hchild q, hparent]

theorem held_same (hparent : t.parent.held = s.parent.held)
    (hhandler : ∀ w, (t.handler w).bind Handler.held = (s.handler w).bind Handler.held) :
    t.held = s.held := by
  funext x
  cases x with
  | none => exact hparent
  | some w => exact hhandler w

theorem keeps_held {x : Option Handler} (hx : x.bind Handler.held = (s.handler w).bind Handler.held)
    (w' : Flow) : (Function.update s.handler w x w').bind Handler.held =
      (s.handler w').bind Handler.held :=
  update_same (f := fun h : Option Handler => h.bind Handler.held) hx w'

/-- The main flow has loaded `children_left`, or has stored it. -/
theorem held_main (hhandler : t.handler = s.handler) :
    t.held = Function.update s.held none t.parent.held := by
  funext x
  cases x with
  | none => exact (Function.update_self none _ s.held).symm
  | some w =>
    rw [Function.update_of_ne (Option.some_ne_none w)]
    exact congrArg (fun f : Flow → Option Handler => (f w).bind Handler.held) hhandler

theorem held_handler {x : Option Handler} (hparent : t.parent = s.parent)
    (hhandler : t.handler = Function.update s.handler w x) :
    t.held = Function.update s.held (some w) (x.bind Handler.held) := by
  funext y
  cases y with
  | none =>
    rw [Function.update_of_ne (Option.some_ne_none w).symm]
    exact congrArg Parent.held hparent
  | some w' =>
    show (t.handler w').bind Handler.held = _
    rw [hhandler]
    by_cases hw' : w' = w
    · rw [hw', Function.update_self, Function.update_self]
    · rw [Function.update_of_ne hw', Function.update_of_ne (mt Option.some.inj hw')]
      rfl

theorem due_fork (hbirths : Births n s) (hp : s.parent = .fork k) :
    ({ s.setChild k .start with parent := .load k } : State).due n = s.due n := by
  have hplace := hbirths.place
  have hunborn : s.child k = .unborn := hbirths.below k (by rw [hp]; exact Nat.lt_succ_self k)
  rw [hp] at hplace
  have hcount := countP_fall (f := fun i => (Function.update s.child k .start i).uncounted)
    (k := fun i => (s.child i).uncounted) List.nodup_range (List.mem_range.mpr hplace)
    (by simp [Child.uncounted]) (by simp [hunborn, Child.uncounted])
    fun q hq => by rw [Function.update_of_ne hq]
  unfold State.due
  rw [hp]
  show ((List.range n).countP fun i => (Function.update s.child k .start i).uncounted : Nat) -
    (1 : Int) = _ - 0
  rw [hcount]
  omega

theorem due_store (hbirths : Births n s) (hi : s.child i = .reaped)
    (hchild : t.child = Function.update s.child i .counted) (hparent : t.parent = s.parent) :
    t.due n = s.due n + -1 := by
  have hn : i < n := by
    by_contra hle
    rw [hbirths.bound i (Nat.not_lt.mp hle)] at hi
    cases hi
  have hcount := countP_fall (f := fun q => (s.child q).uncounted)
    (k := fun q => (Function.update s.child i .counted q).uncounted) List.nodup_range
    (List.mem_range.mpr hn) (by rw [hi]; rfl) (by simp [Child.uncounted])
    fun q hq => by rw [Function.update_of_ne hq]
  unfold State.due
  rw [hchild, hparent, hcount]
  omega

/-- Before `create_children` returns no thread has begun: only `main` runs the handler. -/
theorem alone_early (h : Threads s) (hearly : s.parent.early = true)
    (hfree : s.handler none = none) : ∀ y, y ≠ none → s.held y = none := by
  intro y hy
  obtain ⟨w, rfl⟩ := Option.ne_none_iff_exists'.mp hy
  have hnone : s.handler w = none := by
    cases w with
    | none => exact hfree
    | some k => exact h.handler k ((h.early hearly).2 k)
  rw [State.held, hnone]
  rfl

theorem account_moves (hthreads : Threads s) (hbirths : Births n s) (hreaps : Reaps s)
    (h : Drifts s.childrenLeft (s.due n) s.held) (hm : Moves n s act t) :
    Drifts t.childrenLeft (t.due n) t.held ∧
      (Exact t.childrenLeft (t.due n) t.held ↔
        Exact s.childrenLeft (s.due n) s.held ∧ Whole s act) := by
  have hframe : t.childrenLeft = s.childrenLeft → t.due n = s.due n → t.held = s.held →
      Whole s act → Drifts t.childrenLeft (t.due n) t.held ∧
      (Exact t.childrenLeft (t.due n) t.held ↔
        Exact s.childrenLeft (s.due n) s.held ∧ Whole s act) := by
    intro hleft hdue hheld hwhole
    rw [hleft, hdue, hheld]
    exact ⟨h, (and_iff_left hwhole).symm⟩
  cases hm with
  | fork hp =>
    exact hframe rfl (due_fork hbirths hp) (held_same (by rw [hp]; rfl) fun _ => rfl) trivial
  | @load rand k hp =>
    have hnone : s.held none = none := by rw [State.held, hp]; rfl
    have hheld : ({ s with parent := .store k s.childrenLeft } : State).held =
      Function.update s.held none (some s.childrenLeft) := held_main rfl
    have hdue : ({ s with parent := .store k s.childrenLeft } : State).due n = s.due n :=
      due_same (fun _ => rfl) (by rw [hp]; rfl)
    rw [hheld, hdue]
    exact ⟨h.load none, (exact_load hnone).trans (and_iff_left trivial).symm⟩
  | @store rand k left hp hfree =>
    have hsome : s.held none = some left := by rw [State.held, hp]; rfl
    have hheld : ({ s with childrenLeft := left + 1, parent := createLoop k } : State).held =
        Function.update s.held none none := by
      rw [← createLoop_held k]
      exact held_main rfl
    have hdue : ({ s with childrenLeft := left + 1, parent := createLoop k } : State).due n =
        s.due n + 1 := by
      unfold State.due
      rw [createLoop_owes, hp]
      show ((List.range n).countP fun i => (s.child i).uncounted : Nat) - (0 : Int) = _ - 1 + 1
      omega
    have halone := alone_early hthreads (by rw [hp]; rfl) hfree
    obtain ⟨hdrifts, hexact⟩ := h.store (d := 1) hsome (.inr halone)
    rw [hheld, hdue]
    exact ⟨hdrifts, hexact.trans (and_congr_right fun _ => iff_of_true halone trivial)⟩
  | @loads w i hw =>
    have hnone : s.held (some w) = none := by rw [State.held, hw]; rfl
    have hheld : (s.setHandler w (some (.store i s.childrenLeft))).held =
        Function.update s.held (some w) (some s.childrenLeft) :=
      held_handler (x := some (.store i s.childrenLeft)) rfl rfl
    have hwhole : Whole s (.decrement w) := fun hsome => by
      rw [hnone] at hsome
      cases hsome
    rw [hheld]
    exact ⟨h.load (some w), (exact_load hnone).trans (and_iff_left hwhole).symm⟩
  | @stores w i left hw =>
    have hsome : s.held (some w) = some left := by rw [State.held, hw]; rfl
    have hi := (hreaps.reaped i).mpr ⟨w, by rw [State.reaping, hw]; rfl⟩
    have hdue := due_store (t := { (s.setChild i .counted).setHandler w (some .waitpid) with
      childrenLeft := left - 1 }) hbirths hi rfl rfl
    have hheld : ({ (s.setChild i .counted).setHandler w (some .waitpid) with
        childrenLeft := left - 1 } : State).held = Function.update s.held (some w) none :=
      held_handler (x := some .waitpid) rfl rfl
    obtain ⟨hdrifts, hexact⟩ := h.store (d := -1) hsome (.inl (by omega))
    rw [hheld, hdue]
    refine ⟨hdrifts, hexact.trans (and_congr_right fun _ => ?_)⟩
    exact ⟨fun halone _ => halone, fun hwhole => hwhole (by rw [hsome]; rfl)⟩
  | start hc =>
    exact hframe rfl (due_same (goes_on (childLoop_unreaped ..) (by rw [hc]; rfl)) rfl) rfl trivial
  | receive hc =>
    exact hframe rfl (due_same (goes_on (number_unreaped ..) (by rw [hc]; rfl)) rfl) rfl trivial
  | leave hc =>
    exact hframe rfl (due_same (goes_on (c := .zombie) rfl (by rw [hc]; rfl)) rfl) rfl trivial
  | send hc =>
    have hchild := goes_on (c := .leaving) rfl (by rw [hc]; rfl)
    exact hframe sends_left (due_same (by rw [sends_child]; exact hchild) (by rw [sends_parent]))
      (held_same (by rw [sends_parent]) fun w => by rw [sends_handler]) trivial
  | reap hw hc =>
    exact hframe rfl (due_same (update_same (by rw [hc]; rfl)) rfl)
      (held_same rfl (keeps_held (s := s) (by rw [hw]; rfl))) trivial
  | deliver hw =>
    exact hframe rfl (due_same (fun _ => rfl) (interrupt_same (fun _ => rfl) s _))
      (held_same (interrupt_same (fun _ => rfl) s _) (keeps_held (by rw [hw]; rfl))) trivial
  | reaped hw =>
    exact hframe rfl (due_same (fun _ => rfl) rfl) (held_same rfl (keeps_held (by rw [hw]; rfl)))
      trivial
  | echild hw =>
    have hheld := keeps_held (s := s) (x := none) (by rw [hw]; rfl)
    refine hframe echild_left (due_same (fun q => ?_) (echild_same (fun _ _ => rfl) s _))
      (held_same (echild_same (fun _ _ => rfl) s _) fun w' => ?_) trivial
    · exact congrArg (fun f => (f q).uncounted) echild_child
    · simp only [State.setHandler, echild_handler]
      exact hheld w'
  | register hp | stop hp | draw hp | number hp | retry hp | again hp | close hp | exit hp
  | forkFails hp =>
    exact hframe rfl (due_same (fun _ => rfl) (by rw [hp]; rfl))
      (held_same (by rw [hp]; rfl) fun _ => rfl) trivial
  | busy | failed | full | take | empty | agreed | lost | print | renew | renewBusy | closed |
    closedNotify | done => exact hframe rfl rfl rfl trivial

/-! ## Every run -/

/-- What every run keeps of the children, the handlers and the counter. -/
structure Account (n : Nat) (s : State) : Prop where
  threads : Threads s
  births : Births n s
  reaps : Reaps s
  drifts : Drifts s.childrenLeft (s.due n) s.held

theorem Account.moves (h : Account n s) (hm : Moves n s act t) : Account n t ∧
    (Exact t.childrenLeft (t.due n) t.held ↔
      Exact s.childrenLeft (s.due n) s.held ∧ Whole s act) := by
  obtain ⟨hthreads, hbirths, hreaps, hdrifts⟩ := h
  obtain ⟨hdrifts', hexact⟩ := account_moves hthreads hbirths hreaps hdrifts hm
  exact ⟨⟨hthreads.moves hm, hbirths.moves hreaps hm, hreaps.moves hbirths hm, hdrifts'⟩, hexact⟩

theorem begun_exact (n : Nat) (old : Old) :
    Exact (begun n old).childrenLeft ((begun n old).due n) (begun n old).held := by
  refine ⟨?_, fun x v hx => ?_⟩
  · have hnone : (List.range n).countP (fun i => ((begun n old).child i).uncounted) = 0 := by
      simp [begun, Child.uncounted]
    unfold State.due
    rw [hnone]
    show (0 : Int) = 0 - (createLoop n).owes
    rw [createLoop_owes]
    rfl
  · cases x with
    | none =>
      have hheld : (createLoop n).held = some v := hx
      rw [createLoop_held] at hheld
      cases hheld
    | some w => cases hx

theorem begun_account (n : Nat) (old : Old) : Account n (begun n old) where
  threads := begun_threads n old
  births := ⟨fun _ _ => rfl, fun _ _ => rfl, Nat.le_of_eq (createLoop_unborn n)⟩
  reaps := ⟨fun _ => ⟨nofun, fun ⟨_, hw⟩ => nomatch hw⟩, nofun⟩
  drifts := (begun_exact n old).drifts

theorem account_reach (h : (bingo n old).Reach s) : Account n s := by
  refine h.inv (I := Account n) (fun s hs => ?_) fun _ _ _ _ hi hn => (hi.moves (next_moves hn)).1
  obtain rfl : s = begun n old := hs
  exact begun_account n old

/-- `children_left` is the number of the children, and without children the loop of `parent_work`
ends. -/
structure Counted (n : Nat) (s : State) : Prop where
  left : s.childrenLeft = s.unreaped n
  ends : s.unreaped n = 0 → s.parent = .check → ∀ rand t, s.mainFlow rand = some t →
    t.parent = .close

/-- When no handler runs, every child that is reaped is counted off. -/
theorem Account.due_eq (h : Account n s) (hcreated : s.parent.creates = false)
    (hfree : ∀ w, s.handler w = none) : s.due n = s.unreaped n := by
  have howes : s.parent.owes = 0 := by
    cases hp : s.parent with
    | load k | store k left => rw [hp] at hcreated; cases hcreated
    | _ => rfl
  have hsame : ∀ i, (s.child i).uncounted = (s.child i).unreaped := by
    intro i
    cases hi : s.child i with
    | reaped =>
      obtain ⟨w, hw⟩ := (h.reaps.reaped i).mp hi
      rw [State.reaping, hfree w] at hw
      cases hw
    | _ => rfl
  unfold State.due State.unreaped
  rw [howes, countP_same fun i _ => hsame i]
  exact Int.sub_zero _

theorem Account.left_iff (h : Account n s) (hcreated : s.parent.creates = false)
    (hfree : ∀ w, s.handler w = none) :
    Counted n s ↔ Exact s.childrenLeft (s.due n) s.held := by
  have hdue := h.due_eq hcreated hfree
  constructor
  · refine fun hc => ⟨hc.left.trans hdue.symm, fun x v hx => ?_⟩
    cases x with
    | none =>
      have hheld : s.parent.held = some v := hx
      cases hp : s.parent with
      | store k left => rw [hp] at hcreated; cases hcreated
      | _ => rw [hp] at hheld; cases hheld
    | some w =>
      rw [State.held, hfree w] at hx
      cases hx
  · intro hexact
    have hleft := hexact.count.trans hdue
    refine ⟨hleft, fun hnone hcheck rand t hstep => ?_⟩
    have hzero : s.childrenLeft = 0 := by omega
    unfold State.mainFlow at hstep
    rw [hcheck] at hstep
    simp only [hzero, if_true] at hstep
    cases hstep
    rfl

/-- The children are forked and counted, and `pin` is registered. -/
def creates (n : Nat) : List Act := List.replicate (3 * n + 1) (.parent 0)

/-- Child `i`, whose only number is `bingo`, receives a number, sends its message and exits. -/
def plays (i bingo : Nat) : List Act :=
  [.child i 0 bingo, .child i 0 0, .child i 0 0, .child i 0 0]

/-- The handler of the flow reaps child `i`, and loads `children_left`. -/
def reaps (w : Flow) (i : Nat) : List Act := [.deliver w, .reap w i, .decrement w]

/-- Child 0 is counted off by the main flow and child 1 by the first thread. -/
def apart : List Act :=
  creates 2 ++ List.replicate 4 (.parent 0) ++ plays 0 0 ++ reaps none 0 ++
    [.decrement none, .reaped none] ++ plays 1 0 ++ reaps (some 0) 1 ++
    [.decrement (some 0), .reaped (some 0)]

/-- Fresh queues: the handler of the first thread loads `children_left` before that of the main flow
has stored it. -/
theorem handlers_overlap : ∃ s, (bingo 2 .empty).Reach s ∧ s.parent = .check ∧
    (∀ w, s.handler w = none) ∧ s.sigchld = false ∧ s.unreaped 2 = 0 ∧ s.childrenLeft = 1 := by
  have hrun : ((bingo 2 .empty).exec (begun 2 .empty) (creates 2 ++ List.replicate 4 (.parent 0) ++
      plays 0 0 ++ reaps none 0 ++ plays 1 0 ++ reaps (some 0) 1 ++ [.decrement none,
        .decrement (some 0), .reaped none, .reaped (some 0)])).map
      (fun s => ((s.parent, s.born, s.handler none, s.handler (some 0)), s.sigchld, s.unreaped 2,
        s.childrenLeft)) = some ((.check, 1, none, none), false, 0, 1) := by decide +kernel
  obtain ⟨s, hs, heq⟩ := Option.map_eq_some_iff.mp hrun
  simp only [Prod.mk.injEq] at heq
  obtain ⟨⟨hparent, hborn, hmain, hthread⟩, hsigchld, hunreaped, hleft⟩ := heq
  have hreach := LTS.Reach.exec (.init rfl) hs
  have hfree := (threads_reach hreach).no_handler hmain fun k hk => by
    obtain rfl : k = 0 := by omega
    exact hthread
  exact ⟨s, hreach, hparent, hfree, hsigchld, hunreaped, hleft⟩

end Ops.Bingo
