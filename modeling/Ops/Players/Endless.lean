import Ops.Players.Create

/-!
# The loop that creates nothing

The labels `case 0` and `case -1` belong to the inner `switch`. The outer one has none, so its body
is skipped, in the parent and in what it has forked: all of them are in the loop for ever, with
`n` as it was (`never_created`).
-/

namespace Ops.Players

variable {N p : Nat} {F : Int → Nat → Posix.End × Nat} {s t : State} {c : Proc}
variable {k : List (Stmt Expr)}

inductive InLoop : List (Stmt Expr) → Prop where
  | top : InLoop [create_children_and_pipes]
  | body : InLoop [.seq pipes (.switch .fork outer), create_children_and_pipes]
  | pipe0 : InLoop [pipes, .switch .fork outer, create_children_and_pipes]
  | pipe1 : InLoop [.ite (.pipe 1) (.expr .ERR) .skip, .switch .fork outer,
      create_children_and_pipes]
  | skip : InLoop [.skip, .switch .fork outer, create_children_and_pipes]
  | fork : InLoop [.switch .fork outer, create_children_and_pipes]
  | fail : InLoop [.expr .ERR, .switch .fork outer, create_children_and_pipes]

def Expr.inRound : Expr → Bool
  | n | pipe _ | fork | ERR => true
  | _ => false

theorem outer_labels : outer.labels = [] := rfl

theorem InLoop.view (h : InLoop k) :
    (∃ k', view k = .go k' ∧ InLoop k') ∨
      ∃ e k', view k = .eval e k' ∧ e.inRound ∧ ∀ v, (e = .n → v ≠ 0) → InLoop (k' v) := by
  cases h with
  | top =>
    refine .inr ⟨_, _, rfl, rfl, fun v hv => ?_⟩
    rw [if_pos (hv rfl)]
    exact .body
  | body => exact .inl ⟨_, rfl, .pipe0⟩
  | pipe0 =>
    refine .inr ⟨_, _, rfl, rfl, fun v _ => ?_⟩
    split
    · exact .fail
    · exact .pipe1
  | pipe1 =>
    refine .inr ⟨_, _, rfl, rfl, fun v _ => ?_⟩
    split
    · exact .fail
    · exact .skip
  | skip => exact .inl ⟨_, rfl, .fork⟩
  | fork => exact .inr ⟨_, _, view_switch outer_labels _, rfl, fun _ _ => .top⟩
  | fail => exact .inr ⟨_, _, rfl, rfl, fun _ _ => .fork⟩

/-- A process in the loop, with its `n` and `fds` as they were. -/
structure Proc.Loops (N : Nat) (F : Int → Nat → Posix.End × Nat) (c : Proc) : Prop where
  code : InLoop c.code
  n : c.n = N
  fds : c.fds = F

/-- Everybody is in the loop. -/
structure Looping (N : Nat) (F : Int → Nat → Posix.End × Nat) (s : State) : Prop where
  count : 1 ≤ s.count
  procs : ∀ p < s.count, (s.proc p).Loops N F
  worked : s.worked = []

theorem Looping.resume (h : Looping N F s) (hk : InLoop k) (hn : c.n = N) (hf : c.fds = F) :
    Looping N F (s.resume p c k) where
  count := h.count
  procs q hq := by
    unfold State.resume
    dsimp only
    rw [Function.update_apply]
    split
    · exact ⟨hk, hn, hf⟩
    · exact h.procs q hq
  worked := h.worked

theorem Looping.fork {k' : List (Stmt Expr)} (h : Looping N F s) (hc : c.Loops N F)
    (hk : InLoop k) (hk' : InLoop k') :
    Looping N F { s with
      count := s.count + 1
      proc := Function.update (Function.update s.proc p { c with code := k }) s.count
        { c with code := k' } } where
  count := Nat.le_add_left 1 s.count
  procs q hq := by
    dsimp only at hq ⊢
    rw [Function.update_apply]
    split
    · exact ⟨hk', hc.n, hc.fds⟩
    · next hne =>
      rw [Function.update_apply]
      split
      · exact ⟨hk, hc.n, hc.fds⟩
      · exact h.procs q (Nat.lt_of_le_of_ne (Nat.lt_succ_iff.mp hq) hne)
  worked := h.worked

theorem Looping.eval {e : Expr} {k : Int → List (Stmt Expr)} {fails : Bool} (h : Looping N F s)
    (hN : 1 ≤ N) (hp : p < s.count) (he : e.inRound) (hk : ∀ v, (e = .n → v ≠ 0) → InLoop (k v)) :
    Looping N F (s.eval p fails e k) := by
  have hc := h.procs p hp
  cases e with
  | n =>
    refine h.resume (hk _ fun _ => ?_) hc.n hc.fds
    rw [hc.n]
    omega
  | pipe j =>
    unfold State.eval
    dsimp only
    split
    · exact h.resume (hk _ nofun) hc.n hc.fds
    · exact Looping.resume ⟨h.count, h.procs, h.worked⟩ (hk _ nofun) hc.n hc.fds
  | fork => exact h.fork hc (hk _ nofun) (hk _ nofun)
  | ERR => exact h.resume (hk _ nofun) hc.n hc.fds
  | nLtMax | fdsN | closeTmp _ _ | closeFds _ | incN | free | child_work | store0 | store1
  | exit => cases he

theorem Looping.next {a : Act} (h : Looping N F s) (hN : 1 ≤ N) (hn : s.next a = some t) :
    Looping N F t := by
  unfold State.next at hn
  split at hn
  · next hif =>
    have hc := h.procs a.p hif.1
    rcases hc.code.view with ⟨k, hv, hk⟩ | ⟨e, k, hv, he, hk⟩
    · rw [hv] at hn
      cases hn
      exact h.resume hk hc.n hc.fds
    · rw [hv] at hn
      cases hn
      exact h.eval hN hif.1 he hk
  · cases hn

theorem Looping.exec {as : List Act} (h : Looping N F s) (hN : 1 ≤ N)
    (he : (creation N).exec s as = some t) : Looping N F t :=
  LTS.exec_inv (fun _ _ _ hu hn => hu.next hN hn) h he

theorem State.Start.looping (h : s.Start N) : Looping N (s.proc 0).fds s where
  count := Nat.le_of_eq h.count.symm
  procs p hp := by
    obtain rfl : p = 0 := Nat.lt_one_iff.mp (h.count ▸ hp)
    exact ⟨h.code ▸ .top, h.n, rfl⟩
  worked := h.worked

theorem Looping.not_created (h : Looping N F s) : ¬ Created N s := by
  intro hc
  have hcode := (h.procs 0 h.count).code
  rw [hc.returned.1] at hcode
  cases hcode

theorem Looping.goes_on (h : Looping N F s) (hp : p < s.count) (he : (s.proc p).ended = false)
    (fails : Bool) : ∃ t, s.next ⟨p, fails⟩ = some t := by
  unfold State.next
  rw [if_pos ⟨hp, he⟩]
  rcases (h.procs p hp).code.view with ⟨k, hv, -⟩ | ⟨e, k, hv, -⟩
  · rw [hv]
    exact ⟨_, rfl⟩
  · rw [hv]
    exact ⟨_, rfl⟩

/-- **The players are never created**, for any `N ≥ 1` and in any run. No process comes to the end
of the function or calls `child_work`, each has `n` and `fds` as they were, and goes on until an
`exit` after a failing `pipe`. -/
theorem never_created (hN : 1 ≤ N) (hs : s.Start N) (as : List Act)
    (he : (creation N).exec s as = some t) :
    ¬ Created N t ∧ t.worked = [] ∧ ∀ p < t.count,
      (t.proc p).code ≠ [] ∧ (t.proc p).n = N ∧ (t.proc p).fds = (s.proc 0).fds ∧
        ((t.proc p).ended = false → ∀ fails, ∃ u, t.next ⟨p, fails⟩ = some u) := by
  have ht := hs.looping.exec hN he
  refine ⟨ht.not_created, ht.worked, fun p hp => ?_⟩
  have hp' := ht.procs p hp
  refine ⟨fun hcode => ?_, hp'.n, hp'.fds, ht.goes_on hp⟩
  have hin := hp'.code
  rw [hcode] at hin
  cases hin

def called (N : Nat) : State where
  count := 1
  proc _ :=
    { code := [create_children_and_pipes], ended := false, n := N, max := N, tmpfd := fun _ => 0
      fds := fun _ _ => (.read, 0), opened := .none }
  made := 0
  worked := []

theorem called_start (N : Nat) : (called N).Start N := ⟨rfl, rfl, rfl, rfl, rfl, rfl⟩

theorem never_created_two :
    ∃ t, (creation 2).exec (called 2) (List.replicate 12 ⟨0, false⟩) = some t ∧ ¬ Created 2 t :=
  ⟨_, rfl, (never_created (by decide) (called_start 2) (List.replicate 12 ⟨0, false⟩) rfl).1⟩

/-- Two rounds of the parent for one player: it has forked twice, and no run from there ends with
the player created. -/
theorem one_never_created :
    ∃ t, (creation 1).exec (called 1) (List.replicate 12 ⟨0, false⟩) = some t ∧ t.count = 3 ∧
      t.worked = [] ∧ (t.proc 0).n = 1 ∧
      ∀ as u, (creation 1).exec t as = some u → ¬ Created 1 u := by
  refine ⟨_, rfl, rfl, rfl, rfl, fun as u hu => ?_⟩
  refine Looping.not_created (F := fun _ _ => (.read, 0)) (Looping.exec ?_ (by decide) hu)
  exact (called_start 1).looping.exec (by decide)
    (show (creation 1).exec (called 1) (List.replicate 12 ⟨0, false⟩) = _ from rfl)

end Ops.Players
