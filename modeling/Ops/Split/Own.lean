import Ops.Split.Joined
import Ops.Split.Program

/-!
# The list that a thread prints itself

A thread that has left its loop goes through its list before it returns. Nobody else touches the
list until then: `concat_and_print` waits for the thread. So the thread prints its own chunks, the
newest first (`Told`), in as many steps as it has nodes (`Told.print`).
-/

namespace Ops.Split

variable {n : Nat} {A : Type} {s t : Program n A} {p : Fin n}

theorem returned_ended (h : s.returned p = true) : (s.split.pc p).ended = true := by
  unfold Program.returned at h
  split at h
  · rename_i hpc
    rw [hpc]
    rfl
  · rename_i hpc
    rw [hpc]
    rfl
  · cases h

/-- How far the `print_list` of thread `p` is: `r` is left of its list. -/
def Told (s : Program n A) (p : Fin n) : Prop :=
  match s.own p with
  | .waiting => s.said p = []
  | .printing tmp => s.split.pc p = .done ∧ ∃ l r, s.join.lists p = l ++ r ∧
      tmp = (r.map Join.Entry.node).head? ∧ s.said p = l.map Join.Entry.text
  | .returned => s.split.pc p = .done ∧ s.said p = (s.join.lists p).map Join.Entry.text
  | .undefined => False

namespace Told

/-- A step that leaves the thread as it is, if it has left its loop. -/
theorem frame (h : Told s p) (hown : t.own = s.own) (hsaid : t.said = s.said)
    (hkeep : (s.split.pc p).ended = true →
      t.split.pc p = s.split.pc p ∧ t.join.lists p = s.join.lists p) : Told t p := by
  unfold Told at h ⊢
  rw [hown, hsaid]
  split at h
  · exact h
  · obtain ⟨hdone, l, r, hlists, htmp, hl⟩ := h
    obtain ⟨hpc, hsame⟩ := hkeep (by rw [hdone]; rfl)
    exact ⟨hpc.trans hdone, l, r, hsame.trans hlists, htmp, hl⟩
  · obtain ⟨hdone, hall⟩ := h
    obtain ⟨hpc, hsame⟩ := hkeep (by rw [hdone]; rfl)
    exact ⟨hpc.trans hdone, hsame ▸ hall⟩
  · exact h

theorem other (h : Told s p) (hown : t.own p = s.own p) (hsaid : t.said p = s.said p)
    (hsplit : t.split = s.split) (hjoin : t.join = s.join) : Told t p := by
  unfold Told
  rw [hown, hsaid, hsplit, hjoin]
  exact h

theorem defined (h : Told s p) : s.own p ≠ .undefined := by
  intro hown
  unfold Told at h
  rw [hown] at h
  exact h

theorem failed (h : Told s p) (hpc : s.split.pc p = .failed) : s.said p = [] := by
  unfold Told at h
  split at h
  · exact h
  · cases h.1.symm.trans hpc
  · cases h.1.symm.trans hpc
  · cases h

theorem all (h : Told s p) (hown : (s.own p).finished = true) :
    s.said p = (s.join.lists p).map Join.Entry.text := by
  unfold Told at h
  cases hpc : s.own p with
  | returned =>
    rw [hpc] at h
    exact h.2
  | _ =>
    rw [hpc] at hown
    cases hown

end Told

/-- Only thread `p` takes the step, and it has left its loop. -/
structure Prints (s : Program n A) (p : Fin n) (t : Program n A) : Prop where
  split : t.split = s.split
  join : t.join = s.join
  own : ∀ q, q ≠ p → t.own q = s.own q
  said : ∀ q, q ≠ p → t.said q = s.said q
  done : s.split.pc p = .done
  begun : (s.own p).finished = false

theorem setOwn_prints (hdone : s.split.pc p = .done) (hown : (s.own p).finished = false)
    (o : Own A) : Prints s p (s.setOwn p o) :=
  ⟨rfl, rfl, fun _ hq => Function.update_of_ne hq .., fun _ _ => rfl, hdone, hown⟩

theorem turn_prints (hdone : s.split.pc p = .done)
    (hown : (s.own p).finished = false) (a : A) : Prints s p (s.turn p a) := by
  unfold Program.turn
  split
  · split
    · exact ⟨rfl, rfl, fun _ hq => Function.update_of_ne hq ..,
        fun _ hq => Function.update_of_ne hq .., hdone, hown⟩
    · exact setOwn_prints hdone hown _
  · exact setOwn_prints hdone hown _

theorem prints (hn : s.print_list p = some t) : Prints s p t := by
  unfold Program.print_list at hn
  split at hn
  · rename_i hdone hown
    cases hn
    exact setOwn_prints hdone (by rw [hown]; rfl) _
  · rename_i hdone hown
    cases hn
    exact setOwn_prints hdone (by rw [hown]; rfl) _
  · rename_i hdone hown
    cases hn
    exact turn_prints hdone (by rw [hown]; rfl) _
  · cases hn

/-- The node that `print_list` is at is in memory: it prints its text, and goes to the next one. -/
theorem turn_eq {l r : List (Join.Entry A)} {a : A} (hjoin : Join.Inv n s.join)
    (hruns : s.join.pc.runs p = true) (hlists : s.join.lists p = l ++ r)
    (ha : some a = (r.map Join.Entry.node).head?) :
    ∃ e r', r = e :: r' ∧ s.turn p a = { s.setOwn p (.printing (r'.map Join.Entry.node).head?) with
      said := Function.update s.said p (s.said p ++ [e.text]) } := by
  cases r with
  | nil => cases ha
  | cons e r' =>
    have hlist := hjoin.unjoined p.isLt hruns
    rw [hlists] at hlist
    obtain ⟨tmp, ⟨hnode, htext⟩, hrest⟩ := hlist.middle
    refine ⟨e, r', rfl, ?_⟩
    obtain rfl : a = e.node := Option.some.inj ha
    unfold Program.turn
    rw [hnode]
    simp only
    rw [htext, ← hrest.head]

/-- The steps of the `print_list` of thread `p` that are left. -/
def Program.left (s : Program n A) (p : Fin n) : Nat :=
  match s.own p with
  | .waiting => (s.join.lists p).length + 2
  | .printing _ => (s.join.lists p).length - (s.said p).length + 1
  | .returned | .undefined => 0

/-- **A step of `print_list`** reads a node of the list, and there is one step less to make. -/
theorem Told.print (h : Told s p) (hjoin : Join.Inv n s.join)
    (hruns : s.join.pc.runs p = true) (hn : s.print_list p = some t) :
    Told t p ∧ t.left p < s.left p := by
  have hprints := prints hn
  have hdone : t.split.pc p = .done := by rw [hprints.split, hprints.done]
  unfold Told at h
  unfold Program.print_list at hn
  split at hn
  · rename_i hown
    rw [hown] at h
    cases hn
    have howned : (s.setOwn p (.printing (s.join.head p))).own p = .printing (s.join.head p) :=
      Function.update_self ..
    unfold Told Program.left
    rw [howned, hown]
    refine ⟨⟨hdone, [], s.join.lists p, rfl, (hjoin.unjoined p.isLt hruns).head, h⟩, ?_⟩
    show (s.join.lists p).length - (s.said p).length + 1 < (s.join.lists p).length + 2
    omega
  · rename_i hown
    rw [hown] at h
    obtain ⟨-, l, r, hlists, hr, hl⟩ := h
    cases hn
    obtain rfl : r = [] := List.map_eq_nil_iff.mp (List.head?_eq_none_iff.mp hr.symm)
    have howned : (s.setOwn p .returned).own p = .returned := Function.update_self ..
    unfold Told Program.left
    rw [howned, hown]
    refine ⟨⟨hdone, ?_⟩, Nat.succ_pos _⟩
    show s.said p = (s.join.lists p).map _
    rw [hl, hlists, List.append_nil]
  · rename_i a _ _ hown
    rw [hown] at h
    obtain ⟨-, l, r, hlists, hr, hl⟩ := h
    obtain ⟨e, r', rfl, hturn⟩ := turn_eq hjoin hruns hlists hr
    obtain rfl : s.turn p a = t := Option.some.inj hn
    have howned : (s.turn p a).own p = .printing (r'.map Join.Entry.node).head? := by
      rw [hturn]
      exact Function.update_self ..
    have hsaid : (s.turn p a).said p = l.map Join.Entry.text ++ [e.text] := by
      rw [hturn, ← hl]
      exact Function.update_self ..
    unfold Told Program.left
    rw [howned, hown, hsaid, hprints.join, hlists, hl]
    refine ⟨⟨hdone, l ++ [e], r', ?_, rfl, ?_⟩, ?_⟩
    · rw [List.append_assoc, List.singleton_append]
    · rw [List.map_append, List.map_singleton]
    · simp only [List.length_append, List.length_map, List.length_cons, List.length_nil]
      omega
  · cases hn

end Ops.Split
