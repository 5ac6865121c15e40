import Ops.Cards.Turns

/-!
# The mark that ends a round

The parent takes 999 in the turn word for the end of a round. Child 998 hands the turn on
with the same number. With up to 997 children nobody else stores it, and everything
happens in turn; with 998 the last child stores it twice, which does no harm in the last
round; with more the parent prints before the others have written (`in_turn_iff`).
-/

namespace Ops.Cards

variable {N M p r : Nat} {g t : Game}

/-- Round `r` has been started, and the parent has left its loop over the children. -/
def Game.ended (g : Game) (r : Nat) : Prop :=
  1 ≤ r ∧ (r < g.round ∨ r = g.round ∧ ∀ i, g.parent ≠ .wait r i ∧ g.parent ≠ .print r i)

/-- Everything happens in turn. The slots of a round are written in the order of the children,
each once, and the numbers printed are those written. -/
structure InTurn (N M : Nat) (g : Game) : Prop where
  turn : ∀ p i, 1 ≤ p → p ≤ N → g.child p = .write i → g.shm 0 = p
  before : g.writes 0 = []
  writes : ∀ r, (g.writes r).map Prod.fst <+: List.range' 1 N
  whole : ∀ r, g.ended r → (g.writes r).map Prod.fst = List.range' 1 N
  prints : ∀ r, g.prints r <+: g.writes r
  begins : ∀ r, 1 ≤ r → g.parent = .start (r + 1) → g.child N = childLoop M r
  ends : (∃ act t, g.next N M act = some t ∧ t ≠ g) ∨
    g.parent = .done ∧ g.round = M ∧ ∀ p, 1 ≤ p → p ≤ N → g.child p = .exit

/-! ## What a phase says of the record -/

section Record

variable {shm : Nat → Nat} {writes prints : Nat → List (Nat × Nat)} {w j : Nat}

theorem Book.writes_prefix (h : Book N shm writes prints r w j) (hw : w ≤ N) (k : Nat) :
    (writes k).map Prod.fst <+: List.range' 1 N := by
  rcases Nat.lt_trichotomy k (r + 1) with hlt | rfl | hgt
  · by_cases hk : k = 0
    · rw [hk, h.before.1]; exact List.nil_prefix
    · exact (h.past k (by omega) (by omega)).1 ▸ List.prefix_refl _
  · rw [h.now.1]
    refine ⟨List.range' (1 + w) (N - w), ?_⟩
    rw [List.range'_append_1, Nat.add_sub_cancel' hw]
  · rw [(h.next k hgt).1]; exact List.nil_prefix

theorem Book.prints_prefix (h : Book N shm writes prints r w j) (k : Nat) :
    prints k <+: writes k := by
  rcases Nat.lt_trichotomy k (r + 1) with hlt | rfl | hgt
  · by_cases hk : k = 0
    · rw [hk, h.before.2]; exact List.nil_prefix
    · exact (h.past k (by omega) (by omega)).2 ▸ List.prefix_refl _
  · rw [h.now.2]; exact List.take_prefix _ _
  · rw [(h.next k hgt).2]; exact List.nil_prefix

end Record

theorem childLoop_ne_write {i : Nat} : childLoop M r ≠ .write i := by
  unfold childLoop
  split <;> nofun

theorem Row.writer {child : Nat → ChildPc} {k r' i : Nat} {c : ChildPc}
    (h : Row N child k (childLoop M r) c (childLoop M r')) (hp : 1 ≤ p) (hpN : p ≤ N)
    (hq : child p = .write i) : p = k + 1 ∧ c = .write i := by
  by_cases hpk : p = k + 1
  · subst hpk
    exact ⟨rfl, (h.self (by omega)).symm.trans hq⟩
  · rcases h.other hp hpN hpk with hl | hl
    · exact absurd (hl.symm.trans hq) childLoop_ne_write
    · exact absurd (hl.symm.trans hq) childLoop_ne_write

theorem goto_ne {g' : Game} {q : ChildPc} (hq : q ≠ g.child p) : g'.goto p q ≠ g := by
  intro h
  have hself := g'.goto_self p q
  rw [h] at hself
  exact hq hself.symm

/-- A child that has its turn, or is past the loop over the turn word, goes on. -/
theorem child_moves (hp : 1 ≤ p) (hpN : p ≤ N) {i : Nat}
    (hq : g.child p = .wait i ∧ g.shm 0 = p ∨ g.child p = .write i ∨ g.child p = .notify i ∨
      g.child p = .finish i) : ∃ act t, g.next N M act = some t ∧ t ≠ g := by
  have hloop : ∀ k, childLoop M k ≠ .notify i ∧ childLoop M k ≠ .finish i := fun k => by
    unfold childLoop
    split <;> exact ⟨nofun, nofun⟩
  have hstep : ∀ {q : ChildPc} {g' : Game}, g.childwork N M p 0 = some (g'.goto p q) →
      q ≠ g.child p → ∃ act t, g.next N M act = some t ∧ t ≠ g := fun h hne =>
    ⟨.child p 0, _, (if_pos ⟨hp, hpN⟩).trans h, goto_ne hne⟩
  rcases hq with ⟨hq, hturn⟩ | hq | hq | hq
  · apply hstep (child_wait hq hturn)
    rw [hq]
    nofun
  · apply hstep (child_write hq)
    rw [hq]
    nofun
  · apply hstep (child_notify hq)
    rw [hq]
    split
    · nofun
    · exact (hloop _).1
  · apply hstep (child_finish hq)
    rw [hq]
    exact (hloop _).2

theorem parent_moves (hstep : g.parentWork N M = some t) (ht : t.parent ≠ g.parent) :
    ∃ act t, g.next N M act = some t ∧ t ≠ g :=
  ⟨.parent, t, hstep, fun h => ht (by rw [h])⟩

theorem Phase.moves (hN : 1 ≤ N) (hg : Phase N M g) :
    (∃ act t, g.next N M act = some t ∧ t ≠ g) ∨
      g.parent = .done ∧ g.round = M ∧ ∀ p, 1 ≤ p → p ≤ N → g.child p = .exit := by
  cases hg with
  | start r hr hparent hround hturn hall hbook =>
    left
    apply parent_moves (parent_start hparent)
    rw [hparent, printLoop_more hN]
    nofun
  | turn r k w c hr hk hparent hround hturn hrow hc hbook =>
    left
    have hself := hrow.self hk
    apply child_moves (p := k + 1) (i := r) (by omega) hk
    rcases hc with ⟨rfl | rfl, -⟩ | ⟨rfl, -⟩
    · exact .inl ⟨hself.trans (childLoop_wait hr), hturn⟩
    · exact .inr (.inl hself)
    · exact .inr (.inr (.inl hself))
  | mark r hr hN' hparent hround hturn hrow hbook =>
    left
    have hself := hrow.self (by omega)
    exact child_moves (p := N - 1 + 1) (i := r) (by omega) (by omega) (.inr (.inr (.inr hself)))
  | count r j c hr hj hparent hround hturn hrow hc hbook =>
    left
    rcases hparent with hparent | hparent
    · apply parent_moves (parent_wait hparent hturn)
      rw [hparent]
      nofun
    · apply parent_moves (parent_print hparent)
      rw [hparent]
      unfold printLoop roundLoop
      split
      · nofun
      · split <;> nofun
  | closed c hparent hround hturn hrow hc hbook =>
    rcases hc with rfl | ⟨rfl, -⟩
    · exact .inr ⟨hparent, hround, fun p hp hpN => hrow.all hp hpN⟩
    · left
      have hself := hrow.self (by omega)
      exact child_moves (p := N - 1 + 1) (i := 0) (by omega) (by omega) (.inr (.inr (.inr hself)))

theorem in_turn_within {w j i : Nat} (hround : g.round = r + 1)
    (hparent : g.parent = .wait (r + 1) i ∨ g.parent = .print (r + 1) i)
    (hbook : Book N g.shm g.writes g.prints r w j) (hw : w ≤ N)
    (hturn : ∀ p i, 1 ≤ p → p ≤ N → g.child p = .write i → g.shm 0 = p)
    (hends : (∃ act t, g.next N M act = some t ∧ t ≠ g) ∨
      g.parent = .done ∧ g.round = M ∧ ∀ p, 1 ≤ p → p ≤ N → g.child p = .exit) :
    InTurn N M g := by
  refine ⟨hturn, hbook.before.1, hbook.writes_prefix hw, fun k hk => ?_, hbook.prints_prefix,
    fun k _ hpk => ?_, hends⟩
  · rcases hk with ⟨hk, hlt | ⟨rfl, hleft⟩⟩
    · exact (hbook.past k hk (by omega)).1
    · rw [hround] at hleft
      rcases hparent with hp | hp
      · exact absurd hp (hleft i).1
      · exact absurd hp (hleft i).2
  · rcases hparent with hp | hp
    · rw [hp] at hpk; cases hpk
    · rw [hp] at hpk; cases hpk

theorem in_turn_between (hround : g.round = r) (hbook : Book N g.shm g.writes g.prints r 0 0)
    (hwriter : ∀ p i, 1 ≤ p → p ≤ N → g.child p ≠ .write i)
    (hbegins : ∀ k, g.parent = .start (k + 1) → g.child N = childLoop M k)
    (hends : (∃ act t, g.next N M act = some t ∧ t ≠ g) ∨
      g.parent = .done ∧ g.round = M ∧ ∀ p, 1 ≤ p → p ≤ N → g.child p = .exit) :
    InTurn N M g := by
  refine ⟨fun p i hp hpN hq => absurd hq (hwriter p i hp hpN), hbook.before.1,
    hbook.writes_prefix (Nat.zero_le N), fun k hk => ?_, hbook.prints_prefix,
    fun k _ hpk => hbegins k hpk, hends⟩
  unfold Game.ended at hk
  exact (hbook.past k hk.1 (by omega)).1

theorem Phase.in_turn (hN : 1 ≤ N) (hg : Phase N M g) : InTurn N M g := by
  have hends := hg.moves hN
  cases hg with
  | start r hr hparent hround hturn hall hbook =>
    apply in_turn_between hround hbook ?_ ?_ hends
    · intro p i hp hpN hq
      exact childLoop_ne_write ((hall p hp hpN).symm.trans hq)
    · intro k hpk
      rw [hparent] at hpk
      cases hpk
      exact hall N hN (Nat.le_refl N)
  | turn r k w c hr hk hparent hround hturn hrow hc hbook =>
    apply in_turn_within hround (.inl hparent) hbook (by omega) ?_ hends
    intro p i hp hpN hq
    rw [(hrow.writer hp hpN hq).1]
    exact hturn
  | mark r hr hN' hparent hround hturn hrow hbook =>
    apply in_turn_within hround (.inl hparent) hbook (Nat.le_refl N) ?_ hends
    intro p i hp hpN hq
    cases (hrow.writer hp hpN hq).2
  | count r j c hr hj hparent hround hturn hrow hc hbook =>
    apply in_turn_within hround hparent hbook (Nat.le_refl N) ?_ hends
    intro p i hp hpN hq
    obtain ⟨-, rfl⟩ := hrow.writer hp hpN hq
    rcases hc with hc | ⟨hc, -⟩
    · exact absurd hc.symm childLoop_ne_write
    · cases hc
  | closed c hparent hround hturn hrow hc hbook =>
    apply in_turn_between hround hbook ?_ (fun k hpk => by rw [hparent] at hpk; cases hpk) hends
    intro p i hp hpN hq
    by_cases hpk : p = N - 1 + 1
    · subst hpk
      have hself := hrow.self (by omega)
      rcases hc with rfl | ⟨rfl, -⟩
      · rw [hself] at hq; cases hq
      · rw [hself] at hq; cases hq
    · rcases hrow.other hp hpN hpk with hl | hl
      · rw [hl] at hq; cases hq
      · rw [hl] at hq; cases hq

/-! ## Too many children -/

/-- In the first round the children up to `k` have written, and child `k + 1` has the turn. -/
structure FirstRound (N M k : Nat) (g : Game) : Prop where
  reach : (games N M).Reach g
  parent : g.parent = .wait 1 1
  round : g.round = 1
  turn : g.shm 0 = k + 1
  child : ∀ p, k < p → p ≤ N → g.child p = .wait 0
  writes : (g.writes 1).length = k
  prints : g.prints 1 = []

theorem first_round_zero (hN : 1 ≤ N) (hM : 1 ≤ M) : ∃ g, FirstRound N M 0 g := by
  have hstart : (dealt M).parent = .start 1 := if_pos hM
  have hwait : printLoop N M 1 1 = .wait 1 1 := printLoop_more hN
  refine ⟨_, LTS.Reach.step (.init rfl) (a := .parent) (parent_start hstart), hwait, rfl, rfl,
    fun p _ _ => childLoop_wait hM, rfl, rfl⟩

/-- The child that has the turn takes it, writes, and hands it on. -/
theorem FirstRound.hands {k : Nat} (hg : FirstRound N M k g) (hk : k < N) :
    ∃ t, (games N M).Reach t ∧ t.parent = .wait 1 1 ∧ t.round = 1 ∧ t.shm 0 = k + 2 ∧
      (t.child (k + 1) = if k + 1 = N then .finish 0 else childLoop M 1) ∧
      (∀ p, k + 1 < p → p ≤ N → t.child p = .wait 0) ∧ (t.writes 1).length = k + 1 ∧
      t.prints 1 = [] := by
  have hact : ∀ {g t : Game}, g.childwork N M (k + 1) 0 = some t → (games N M).Reach g →
      (games N M).Reach t := fun h hr =>
    hr.step (a := .child (k + 1) 0) ((if_pos ⟨by omega, hk⟩).trans h)
  have htake := hact (child_wait (hg.child (k + 1) (by omega) hk) hg.turn) hg.reach
  have hwrite := hact (child_write (g.goto_self (k + 1) _)) htake
  have hgive := hact (child_notify (Game.goto_self _ (k + 1) _)) hwrite
  refine ⟨_, hgive, hg.parent, hg.round, rfl, Game.goto_self ..,
    fun p hp hpN => ?_, ?_, hg.prints⟩
  · have hne : p ≠ k + 1 := by omega
    rw [Game.goto_of_ne _ hne]
    exact (Game.goto_of_ne _ hne _).trans ((g.goto_of_ne hne _).trans (hg.child p (by omega) hpN))
  · show (note g.writes g.round (k + 1, number M 0) 1).length = k + 1
    rw [hg.round, note_self, List.length_append, hg.writes]
    rfl

theorem first_round {k : Nat} (hM : 1 ≤ M) (hk : k < N) : ∃ g, FirstRound N M k g := by
  induction k with
  | zero => exact first_round_zero hk hM
  | succ k ih =>
    obtain ⟨g, hg⟩ := ih (by omega)
    obtain ⟨t, hr, hparent, hround, hturn, -, hchild, hwrites, hprints⟩ := hg.hands (by omega)
    exact ⟨t, hr, hparent, hround, hturn, hchild, hwrites, hprints⟩

/-- With the mark in the turn word the parent prints the next number. -/
theorem prints_once {i : Nat} (hr : (games N M).Reach g) (hparent : g.parent = .wait 1 i)
    (hturn : g.shm 0 = roundOver) :
    ∃ t, (games N M).Reach t ∧ t.parent = printLoop N M 1 (i + 1) ∧
      (t.prints 1).length = (g.prints 1).length + 1 ∧
      t.shm = g.shm ∧ t.writes = g.writes ∧ t.child = g.child := by
  have hact : ∀ {u t : Game}, u.parentWork N M = some t → (games N M).Reach u →
      (games N M).Reach t := fun h hu => hu.step (a := .parent) h
  have hlook := hact (parent_wait hparent hturn) hr
  refine ⟨_, hact (parent_print rfl) hlook, rfl, ?_, rfl, rfl, rfl⟩
  show (note g.prints 1 _ 1).length = (g.prints 1).length + 1
  rw [note_self, List.length_append]
  rfl

theorem prints_on {j : Nat} (hr : (games N M).Reach g) (hparent : g.parent = .wait 1 1)
    (hturn : g.shm 0 = roundOver) (hprints : g.prints 1 = []) (hj : j < N) :
    ∃ t, (games N M).Reach t ∧ t.parent = printLoop N M 1 (j + 2) ∧ (t.prints 1).length = j + 1 ∧
      t.shm = g.shm ∧ t.writes = g.writes ∧ t.child = g.child := by
  induction j with
  | zero =>
    obtain ⟨t, ht, hp, hlen, hsame⟩ := prints_once hr hparent hturn
    rw [hprints] at hlen
    exact ⟨t, ht, hp, hlen, hsame⟩
  | succ j ih =>
    obtain ⟨u, hu, hp, hlen, hshm, hw, hc⟩ := ih (by omega)
    rw [printLoop_more (by omega)] at hp
    rw [← hshm] at hturn
    obtain ⟨t, ht, hp', hlen', hshm', hw', hc'⟩ := prints_once hu hp hturn
    rw [hlen] at hlen'
    exact ⟨t, ht, hp', hlen', hshm'.trans hshm, hw'.trans hw, hc'.trans hc⟩

/-- With 998 children the parent starts the second round before the last child has stored
the mark. -/
theorem late_mark (hM : 2 ≤ M) : ∃ g, (games 998 M).Reach g ∧ g.parent = .start 2 ∧
    g.child 998 = .finish 0 := by
  obtain ⟨g, hg⟩ := first_round (N := 998) (M := M) (k := 997) (by omega) (by omega)
  obtain ⟨t, hr, hparent, -, hturn, hlast, -, -, hprints⟩ := hg.hands (by omega)
  obtain ⟨u, hu, hp, -, -, -, hchild⟩ := prints_on (j := 997) hr hparent hturn hprints (by omega)
  refine ⟨u, hu, ?_, ?_⟩
  · rw [hp, printLoop_last (by omega)]
    exact if_pos hM
  · rw [hchild, hlast, if_pos rfl]

/-- With more than 998 children the parent prints the slots of children that have not written. -/
theorem early_print (hM : 1 ≤ M) (hN : 999 ≤ N) : ∃ g, (games N M).Reach g ∧
    (g.prints 1).length = N ∧ (g.writes 1).length = 998 := by
  obtain ⟨g, hg⟩ := first_round (N := N) (k := 998) hM (by omega)
  obtain ⟨t, ht, -, hlen, -, hw, -⟩ :=
    prints_on (j := N - 1) hg.reach hg.parent hg.turn hg.prints (by omega)
  refine ⟨t, ht, by omega, ?_⟩
  rw [hw]
  exact hg.writes

/-- **Turns in order**: for `N` children over `M` rounds everything happens in turn, in every
state that is reached, if and only if the mark is not a turn of a child that can be waited for:
up to 997 children, or 998 in a single round. -/
theorem in_turn_iff (hN : 1 ≤ N) (hM : 1 ≤ M) :
    (∀ g, (games N M).Reach g → InTurn N M g) ↔ N ≤ 997 ∨ N = 998 ∧ M = 1 := by
  refine ⟨fun h => ?_, fun hfits g hr => (phase_reach hN hM hfits hr).in_turn hN⟩
  rcases Nat.lt_trichotomy N 998 with hlt | rfl | hgt
  · left; omega
  · right
    refine ⟨rfl, ?_⟩
    rcases Nat.lt_or_ge M 2 with hone | htwo
    · omega
    · obtain ⟨g, hr, hparent, hchild⟩ := late_mark htwo
      have hbegins := (h g hr).begins 1 (Nat.le_refl 1) hparent
      rw [hchild, childLoop_wait htwo] at hbegins
      cases hbegins
  · obtain ⟨g, hr, hprints, hwrites⟩ := early_print hM hgt
    have hle := ((h g hr).prints 1).length_le
    omega

/-- One game of 997 children in which all is well, and two that go wrong. -/
theorem in_turn_sizes : (∀ g, (games 997 5).Reach g → InTurn 997 5 g) ∧
    ¬ (∀ g, (games 998 2).Reach g → InTurn 998 2 g) ∧
    ¬ ∀ g, (games 999 1).Reach g → InTurn 999 1 g :=
  ⟨(in_turn_iff (by decide) (by decide)).mpr (by decide),
    fun h => absurd ((in_turn_iff (by decide) (by decide)).mp h) (by decide),
    fun h => absurd ((in_turn_iff (by decide) (by decide)).mp h) (by decide)⟩

/-- **A late mark** of child 998 in a game of two rounds. -/
theorem late_mark_two : ∃ g, (games 998 2).Reach g ∧ g.parent = .start 2 ∧
    g.child 998 = .finish 0 ∧ ¬ InTurn 998 2 g := by
  obtain ⟨g, hr, hparent, hchild⟩ := late_mark (M := 2) (Nat.le_refl 2)
  refine ⟨g, hr, hparent, hchild, fun h => ?_⟩
  have hbegins := h.begins 1 (Nat.le_refl 1) hparent
  rw [hchild] at hbegins
  cases hbegins

end Ops.Cards
