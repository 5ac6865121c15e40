import Ops.Cards.Process

/-!
# Turns in order

The children are handed the turn word one after the other. The word also carries the mark
that ends a round, and child 998 stores it twice: with `position + 1`, and as the mark.
`Phase` says where everybody is in a round.
-/

namespace Ops.Cards

variable {N M : Nat} {g t : Game}

/-! ## The record of the rounds -/

/-- `r` rounds are over, and in the next one `w` slots have been written and `j` numbers
printed. -/
structure Book (N : Nat) (shm : Nat → Nat) (writes prints : Nat → List (Nat × Nat))
    (r w j : Nat) : Prop where
  before : writes 0 = [] ∧ prints 0 = []
  past : ∀ k, 1 ≤ k → k ≤ r → (writes k).map Prod.fst = List.range' 1 N ∧ prints k = writes k
  now : (writes (r + 1)).map Prod.fst = List.range' 1 w ∧
    prints (r + 1) = (writes (r + 1)).take j
  next : ∀ k, r + 1 < k → writes k = [] ∧ prints k = []
  slots : ∀ e ∈ writes (r + 1), shm e.1 = e.2

section Book

variable {shm : Nat → Nat} {writes prints : Nat → List (Nat × Nat)} {r w j : Nat}

theorem note_self (log : Nat → List (Nat × Nat)) (k : Nat) (e : Nat × Nat) :
    note log k e k = log k ++ [e] := by
  unfold note
  rw [Function.update_self]

theorem note_of_ne {k k' : Nat} (h : k' ≠ k) (log : Nat → List (Nat × Nat)) (e : Nat × Nat) :
    note log k e k' = log k' := by
  unfold note
  rw [Function.update_of_ne h]

theorem Book.length (h : Book N shm writes prints r w j) : (writes (r + 1)).length = w := by
  have hlen := congrArg List.length h.now.1
  rwa [List.length_map, List.length_range'] at hlen

theorem Book.slot (h : Book N shm writes prints r w j) {e : Nat × Nat}
    (he : e ∈ writes (r + 1)) : 1 ≤ e.1 ∧ e.1 ≤ w := by
  have hmem := List.mem_map_of_mem (f := Prod.fst) he
  rw [h.now.1, List.mem_range'_1] at hmem
  omega

theorem Book.store (h : Book N shm writes prints r w j) (value : Nat) :
    Book N (Function.update shm 0 value) writes prints r w j := by
  refine { h with slots := fun e he => ?_ }
  have hslot := h.slot he
  rw [Function.update_of_ne (by omega)]
  exact h.slots e he

theorem Book.write (h : Book N shm writes prints r w 0) (value : Nat) :
    Book N (Function.update shm (w + 1) value) (note writes (r + 1) (w + 1, value)) prints
      r (w + 1) 0 := by
  refine ⟨?_, fun k hk hkr => ?_, ⟨?_, ?_⟩, fun k hk => ?_, fun e he => ?_⟩
  · rw [note_of_ne (by omega)]; exact h.before
  · rw [note_of_ne (by omega)]; exact h.past k hk hkr
  · rw [note_self, List.map_append, h.now.1, List.range'_1_concat, Nat.add_comm 1 w]; rfl
  · rw [h.now.2, List.take_zero, List.take_zero]
  · rw [note_of_ne (by omega)]; exact h.next k hk
  · rw [note_self, List.mem_append, List.mem_singleton] at he
    rcases he with he | rfl
    · have hslot := h.slot he
      rw [Function.update_of_ne (by omega)]
      exact h.slots e he
    · rw [Function.update_self]

/-- The parent prints the next number, as it stands in the slot. -/
theorem Book.print (h : Book N shm writes prints r w j) (hj : j < w) :
    Book N shm writes (note prints (r + 1) (j + 1, shm (j + 1))) r w (j + 1) := by
  have hlt : j < (writes (r + 1)).length := by rw [h.length]; exact hj
  have hentry : (writes (r + 1))[j] = (j + 1, shm (j + 1)) := by
    have hfst : ((writes (r + 1))[j]).1 = j + 1 := by
      have hget := List.getElem_of_eq h.now.1 (i := j) (by rw [List.length_map]; exact hlt)
      rw [List.getElem_map, List.getElem_range'] at hget
      omega
    have hsnd := h.slots _ (List.getElem_mem hlt)
    rw [hfst] at hsnd
    exact Prod.ext hfst hsnd.symm
  refine ⟨?_, fun k hk hkr => ?_, ⟨h.now.1, ?_⟩, fun k hk => ?_, h.slots⟩
  · rw [note_of_ne (by omega)]; exact h.before
  · rw [note_of_ne (by omega)]; exact h.past k hk hkr
  · rw [note_self, h.now.2, List.take_succ_eq_append_getElem hlt, hentry]
  · rw [note_of_ne (by omega)]; exact h.next k hk

theorem Book.close (h : Book N shm writes prints r N N) : Book N shm writes prints (r + 1) 0 0 := by
  have hnext := h.next (r + 2) (by omega)
  refine ⟨h.before, fun k hk hkr => ?_, ⟨?_, ?_⟩, fun k hk => h.next k (by omega), ?_⟩
  · rcases Nat.lt_or_ge r k with hlt | hle
    · obtain rfl : k = r + 1 := by omega
      refine ⟨h.now.1, ?_⟩
      rw [h.now.2, List.take_of_length_le (Nat.le_of_eq h.length)]
    · exact h.past k hk hle
  · rw [hnext.1]; rfl
  · rw [hnext.1, hnext.2]; rfl
  · intro e he
    rw [hnext.1] at he
    cases he

end Book

/-! ## Where everybody is in a round -/

/-- The children up to `k` are at `a`, the next one at `c`, and the others at `b`. -/
def Row (N : Nat) (child : Nat → ChildPc) (k : Nat) (a c b : ChildPc) : Prop :=
  ∀ p, 1 ≤ p → p ≤ N → child p = if p ≤ k then a else if p = k + 1 then c else b

/-- Child `N` has still to store the mark that it stored already as `position + 1`. -/
def Late (N M : Nat) (q : ChildPc) : Prop := q = .finish 0 ∧ N = 998 ∧ M = 1

inductive Phase (N M : Nat) (g : Game) : Prop where
  | start (r : Nat) (hr : r < M) (hparent : g.parent = .start (r + 1)) (hround : g.round = r)
      (hturn : g.shm 0 = 0 ∨ g.shm 0 = roundOver)
      (hall : ∀ p, 1 ≤ p → p ≤ N → g.child p = childLoop M r)
      (hbook : Book N g.shm g.writes g.prints r 0 0)
  | turn (r k w : Nat) (c : ChildPc) (hr : r < M) (hk : k < N)
      (hparent : g.parent = .wait (r + 1) 1) (hround : g.round = r + 1) (hturn : g.shm 0 = k + 1)
      (hrow : Row N g.child k (childLoop M (r + 1)) c (childLoop M r))
      (hc : (c = childLoop M r ∨ c = .write r) ∧ w = k ∨ c = .notify r ∧ w = k + 1)
      (hbook : Book N g.shm g.writes g.prints r w 0)
  | mark (r : Nat) (hr : r < M) (hN : N ≠ 998) (hparent : g.parent = .wait (r + 1) 1)
      (hround : g.round = r + 1) (hturn : g.shm 0 = N + 1)
      (hrow : Row N g.child (N - 1) (childLoop M (r + 1)) (.finish r) (childLoop M r))
      (hbook : Book N g.shm g.writes g.prints r N 0)
  | count (r j : Nat) (c : ChildPc) (hr : r < M) (hj : j < N)
      (hparent : g.parent = .wait (r + 1) (j + 1) ∨ g.parent = .print (r + 1) (j + 1))
      (hround : g.round = r + 1) (hturn : g.shm 0 = roundOver)
      (hrow : Row N g.child (N - 1) (childLoop M (r + 1)) c (childLoop M r))
      (hc : c = childLoop M (r + 1) ∨ Late N M c)
      (hbook : Book N g.shm g.writes g.prints r N j)
  | closed (c : ChildPc) (hparent : g.parent = .done) (hround : g.round = M)
      (hturn : g.shm 0 = roundOver)
      (hrow : Row N g.child (N - 1) .exit c .exit) (hc : c = .exit ∨ Late N M c)
      (hbook : Book N g.shm g.writes g.prints M 0 0)

section Row

variable {child : Nat → ChildPc} {k : Nat} {a b c q : ChildPc}

theorem Row.self (h : Row N child k a c b) (hk : k < N) : child (k + 1) = c := by
  rw [h (k + 1) (by omega) hk, if_neg (by omega), if_pos rfl]

theorem Row.other (h : Row N child k a c b) {p : Nat} (hp : 1 ≤ p) (hpN : p ≤ N) (hpk : p ≠ k + 1) :
    child p = a ∨ child p = b := by
  rw [h p hp hpN, if_neg hpk]
  split
  · exact .inl rfl
  · exact .inr rfl

theorem Row.goto (h : Row N child k a c b) :
    Row N (Function.update child (k + 1) q) k a q b := by
  intro p hp hpN
  by_cases hpk : p = k + 1
  · subst hpk
    rw [Function.update_self, if_neg (by omega), if_pos rfl]
  · rw [Function.update_of_ne hpk, h p hp hpN, if_neg hpk, if_neg hpk]

theorem Row.shift (h : Row N child k a a b) : Row N child (k + 1) a b b := by
  intro p hp hpN
  rw [h p hp hpN]
  by_cases hpk : p ≤ k
  · rw [if_pos hpk, if_pos (by omega)]
  · by_cases hself : p = k + 1
    · rw [if_neg hpk, if_pos hself, if_pos (by omega)]
    · rw [if_neg hpk, if_neg hself, if_neg (by omega), ite_self]

theorem Row.rest (h : Row N child (N - 1) a c b) : Row N child (N - 1) a c q := by
  intro p hp hpN
  rw [h p hp hpN]
  by_cases hlt : p ≤ N - 1
  · rw [if_pos hlt, if_pos hlt]
  · rw [if_neg hlt, if_neg hlt, if_pos (by omega), if_pos (by omega)]

theorem Row.all (h : Row N child (N - 1) a a b) {p : Nat} (hp : 1 ≤ p) (hpN : p ≤ N) :
    child p = a := by
  rw [h p hp hpN]
  by_cases hlt : p ≤ N - 1
  · rw [if_pos hlt]
  · rw [if_neg hlt, if_pos (by omega)]

theorem Row.first (h : ∀ p, 1 ≤ p → p ≤ N → child p = b) : Row N child 0 a b b := by
  intro p hp hpN
  rw [h p hp hpN, if_neg (by omega), ite_self]

end Row

/-! ## A step -/

variable {p rand r : Nat}

theorem Game.store_self (g : Game) (i v : Nat) : (g.store i v).shm i = v :=
  Function.update_self ..

theorem Game.store_of_ne (g : Game) {i j : Nat} (h : j ≠ i) (v : Nat) :
    (g.store i v).shm j = g.shm j :=
  Function.update_of_ne h ..

theorem Game.goto_self (g : Game) (p : Nat) (q : ChildPc) : (g.goto p q).child p = q :=
  Function.update_self ..

theorem Game.goto_of_ne (g : Game) {p p' : Nat} (h : p' ≠ p) (q : ChildPc) :
    (g.goto p q).child p' = g.child p' :=
  Function.update_of_ne h ..

/-! Each branch of the source as an equation. -/

theorem child_wait {i : Nat} (hq : g.child p = .wait i) (hturn : g.shm 0 = p) :
    g.childwork N M p rand = some (g.goto p (.write i)) := by
  unfold Game.childwork
  simp only [hq, if_pos hturn]

theorem child_write {i : Nat} (hq : g.child p = .write i) :
    g.childwork N M p rand = some ((g.writeSlot p (number M rand)).goto p (.notify i)) := by
  unfold Game.childwork
  simp only [hq]

theorem child_notify {i : Nat} (hq : g.child p = .notify i) :
    g.childwork N M p rand = some ((g.store 0 (p + 1)).goto p
      (if p = N then .finish i else childLoop M (i + 1))) := by
  unfold Game.childwork
  simp only [hq]

theorem child_finish {i : Nat} (hq : g.child p = .finish i) :
    g.childwork N M p rand = some ((g.store 0 roundOver).goto p (childLoop M (i + 1))) := by
  unfold Game.childwork
  simp only [hq]

theorem child_exit (hq : g.child p = .exit) : g.childwork N M p rand = none := by
  unfold Game.childwork
  simp only [hq]

theorem parent_start (hparent : g.parent = .start r) : g.parentWork N M =
    some { g.store 0 1 with parent := printLoop N M r 1, round := r } := by
  unfold Game.parentWork
  simp only [hparent]

theorem parent_wait {i : Nat} (hparent : g.parent = .wait r i) (hturn : g.shm 0 = roundOver) :
    g.parentWork N M = some { g with parent := .print r i } := by
  unfold Game.parentWork
  simp only [hparent, if_pos hturn]

theorem parent_print {i : Nat} (hparent : g.parent = .print r i) : g.parentWork N M =
    some { g with
      parent := printLoop N M r (i + 1)
      prints := note g.prints r (i, g.shm i) } := by
  unfold Game.parentWork
  simp only [hparent]

/-- A child that finds another number in the turn word looks again. -/
theorem looks_again {i : Nat} (hq : g.child p = childLoop M i) (hne : g.shm 0 ≠ p)
    (h : g.childwork N M p rand = some t) : t = g := by
  unfold childLoop at hq
  unfold Game.childwork at h
  split at hq
  · simp only [hq, if_neg hne, Option.some.injEq] at h
    exact h.symm
  · simp only [hq] at h
    cases h

theorem parent_looks_again {i : Nat} (hparent : g.parent = .wait r i) (hne : g.shm 0 ≠ roundOver)
    (h : g.parentWork N M = some t) : t = g := by
  unfold Game.parentWork at h
  simp only [hparent, if_neg hne, Option.some.injEq] at h
  exact h.symm

theorem printLoop_more {i : Nat} (h : i ≤ N) : printLoop N M r i = .wait r i := if_pos h

theorem printLoop_last {i : Nat} (h : N < i) : printLoop N M r i = roundLoop M (r + 1) :=
  if_neg (by omega)

theorem childLoop_wait (h : r < M) : childLoop M r = .wait r := if_pos h

theorem childLoop_exit (h : M ≤ r) : childLoop M r = .exit := if_neg (by omega)

/-- The sizes for which no child stores the mark early, or it does no harm. -/
def Fits (N M : Nat) : Prop := N ≤ 997 ∨ N = 998 ∧ M = 1

theorem Fits.le (h : Fits N M) : N ≤ 998 := by
  unfold Fits at h
  omega

theorem Phase.turn_child (hfits : Fits N M) {k w : Nat} {c : ChildPc} (hr : r < M) (hk : k < N)
    (hparent : g.parent = .wait (r + 1) 1) (hround : g.round = r + 1) (hturn : g.shm 0 = k + 1)
    (hrow : Row N g.child k (childLoop M (r + 1)) c (childLoop M r))
    (hc : (c = childLoop M r ∨ c = .write r) ∧ w = k ∨ c = .notify r ∧ w = k + 1)
    (hbook : Book N g.shm g.writes g.prints r w 0)
    (h : g.childwork N M (k + 1) rand = some t) : Phase N M t := by
  have hself := hrow.self hk
  rcases hc with ⟨rfl | rfl, rfl⟩ | ⟨rfl, rfl⟩
  · rw [child_wait (hself.trans (childLoop_wait hr)) hturn] at h
    cases h
    exact .turn r w w (.write r) hr hk hparent hround hturn hrow.goto (.inl ⟨.inr rfl, rfl⟩) hbook
  · rw [child_write hself] at h
    cases h
    have hwrite := hbook.write (number M rand)
    rw [← hround] at hwrite
    have hturn' : (g.store (w + 1) (number M rand)).shm 0 = w + 1 :=
      (g.store_of_ne (by omega) _).trans hturn
    exact .turn r w (w + 1) (.notify r) hr hk hparent hround hturn' hrow.goto (.inr ⟨rfl, rfl⟩)
      hwrite
  · rw [child_notify hself] at h
    cases h
    have hstored := g.store_self 0 (k + 1 + 1)
    by_cases hlast : k + 1 = N
    · subst hlast
      rw [if_pos rfl]
      by_cases hN : k + 1 = 998
      · obtain rfl : M = 1 := by unfold Fits at hfits; omega
        obtain rfl : r = 0 := by omega
        refine .count 0 0 (.finish 0) hr (Nat.succ_pos k) (.inl hparent) hround ?_ hrow.goto
          (.inr ⟨rfl, hN, rfl⟩) (hbook.store _)
        exact hstored.trans (by unfold roundOver; omega)
      · exact .mark r hr hN hparent hround hstored hrow.goto (hbook.store _)
    · rw [if_neg hlast]
      exact .turn r (k + 1) (k + 1) (childLoop M r) hr (by omega) hparent hround hstored
        hrow.goto.shift (.inl ⟨.inl rfl, rfl⟩) (hbook.store _)

theorem Phase.child_step (hfits : Fits N M) (hg : Phase N M g) (hp : 1 ≤ p) (hpN : p ≤ N)
    (h : g.childwork N M p rand = some t) : Phase N M t := by
  have hle := hfits.le
  have hidle : ∀ {i j : Nat}, g.child p = childLoop M i ∨ g.child p = childLoop M j →
      g.shm 0 ≠ p → Phase N M t := fun hq hne => by
    rcases hq with hq | hq
    · rw [looks_again hq hne h]; exact hg
    · rw [looks_again hq hne h]; exact hg
  cases hg with
  | start r hr hparent hround hturn hall hbook =>
    apply hidle (j := r) (.inl (hall p hp hpN))
    unfold roundOver at hturn
    omega
  | turn r k w c hr hk hparent hround hturn hrow hc hbook =>
    by_cases hpk : p = k + 1
    · subst hpk
      exact turn_child hfits hr hk hparent hround hturn hrow hc hbook h
    · apply hidle (hrow.other hp hpN hpk)
      omega
  | mark r hr hN hparent hround hturn hrow hbook =>
    by_cases hpN' : p = N - 1 + 1
    · subst hpN'
      rw [child_finish (hrow.self (by omega))] at h
      cases h
      exact .count r 0 _ hr (by omega) (.inl hparent) hround (g.store_self 0 _) hrow.goto
        (.inl rfl) (hbook.store _)
    · apply hidle (hrow.other hp hpN hpN')
      omega
  | count r j c hr hj hparent hround hturn hrow hc hbook =>
    have hne : g.shm 0 ≠ p := by unfold roundOver at hturn; omega
    by_cases hpN' : p = N - 1 + 1
    · subst hpN'
      have hself := hrow.self (by omega)
      rcases hc with rfl | ⟨rfl, hN, rfl⟩
      · exact hidle (j := r) (.inl hself) hne
      · rw [child_finish hself] at h
        cases h
        obtain rfl : r = 0 := by omega
        exact .count 0 j _ hr hj hparent hround (g.store_self 0 _) hrow.goto (.inl rfl)
          (hbook.store _)
    · exact hidle (hrow.other hp hpN hpN') hne
  | closed c hparent hround hturn hrow hc hbook =>
    by_cases hpN' : p = N - 1 + 1
    · subst hpN'
      have hself := hrow.self (by omega)
      rcases hc with rfl | ⟨rfl, hN, rfl⟩
      · rw [child_exit hself] at h
        cases h
      · rw [child_finish hself] at h
        cases h
        exact .closed _ hparent hround (g.store_self 0 _) hrow.goto (.inl rfl)
          (hbook.store _)
    · rcases hrow.other hp hpN hpN' with hq | hq
      · rw [child_exit hq] at h; cases h
      · rw [child_exit hq] at h; cases h

theorem Phase.parent_step (hN : 1 ≤ N) (hfits : Fits N M) (hg : Phase N M g)
    (h : g.parentWork N M = some t) : Phase N M t := by
  have hle := hfits.le
  cases hg with
  | start r hr hparent hround hturn hall hbook =>
    rw [parent_start hparent, printLoop_more hN] at h
    cases h
    exact .turn r 0 0 (childLoop M r) hr hN rfl rfl (g.store_self 0 1) (Row.first hall)
      (.inl ⟨.inl rfl, rfl⟩) (hbook.store _)
  | turn r k w c hr hk hparent hround hturn hrow hc hbook =>
    have hne : g.shm 0 ≠ roundOver := by unfold roundOver; omega
    rw [parent_looks_again hparent hne h]
    exact .turn r k w c hr hk hparent hround hturn hrow hc hbook
  | mark r hr hN' hparent hround hturn hrow hbook =>
    have hne : g.shm 0 ≠ roundOver := by unfold roundOver; omega
    rw [parent_looks_again hparent hne h]
    exact .mark r hr hN' hparent hround hturn hrow hbook
  | count r j c hr hj hparent hround hturn hrow hc hbook =>
    rcases hparent with hparent | hparent
    · rw [parent_wait hparent hturn] at h
      cases h
      exact .count r j c hr hj (.inr rfl) hround hturn hrow hc hbook
    · rw [parent_print hparent] at h
      cases h
      have hprint := hbook.print hj
      by_cases hmore : j + 1 < N
      · rw [printLoop_more hmore]
        exact .count r (j + 1) c hr hmore (.inl rfl) hround hturn hrow hc hprint
      · obtain rfl : N = j + 1 := by omega
        rw [printLoop_last (by omega)]
        have hclosed := hprint.close
        by_cases hround' : r + 1 < M
        · have hloop : roundLoop M (r + 1 + 1) = .start (r + 1 + 1) := if_pos hround'
          obtain rfl : c = childLoop M (r + 1) := by
            rcases hc with hc | ⟨-, -, rfl⟩
            · exact hc
            · omega
          exact .start (r + 1) hround' hloop hround (.inr hturn) (fun p hp hpN => hrow.all hp hpN)
            hclosed
        · have hloop : roundLoop M (r + 1 + 1) = .done := if_neg (by omega)
          obtain rfl : M = r + 1 := by omega
          rw [childLoop_exit (Nat.le_refl _)] at hrow hc
          exact .closed c hloop hround hturn hrow.rest hc hclosed
  | closed c hparent hround hturn hrow hc hbook =>
    unfold Game.parentWork at h
    simp only [hparent] at h
    cases h

theorem dealt_phase (hM : 1 ≤ M) : Phase N M (dealt M) := by
  refine .start 0 hM ?_ rfl (.inl rfl) (fun _ _ _ => rfl) ?_
  · exact if_pos hM
  · exact ⟨⟨rfl, rfl⟩, fun k hk hk0 => absurd hk0 (by omega), ⟨rfl, rfl⟩, fun _ _ => ⟨rfl, rfl⟩,
      nofun⟩

theorem phase_reach (hN : 1 ≤ N) (hM : 1 ≤ M) (hfits : Fits N M) (hr : (games N M).Reach g) :
    Phase N M g := by
  refine LTS.Reach.inv (I := Phase N M) (fun g hg => ?_) ?_ hr
  · obtain rfl : g = dealt M := hg
    exact dealt_phase hM
  · intro g act t _ hg hn
    cases act with
    | child position rand =>
      simp only [games, Game.next] at hn
      split at hn
      · rename_i hp
        exact hg.child_step hfits hp.1 hp.2 hn
      · cases hn
    | parent => exact hg.parent_step hN hfits hn

end Ops.Cards
