import Mathlib.Data.List.Induction
import Ops.Posix.Mqueue

/-!
# The order of a message queue

Messages that are sent one after the other and received then come by descending priority, and
those of one priority in the order in which they were sent (`Ordered`). There is one such order
(`Ordered.unique`).
-/

namespace Ops.Posix.Mqueue

variable {α : Type} {sent l l' : List (α × Nat)} {m : α × Nat}

def ofPriority (prio : Nat) (l : List (α × Nat)) : List (α × Nat) := l.filter fun m => m.2 = prio

/-- `l` is `sent` by descending priority, and stable. -/
structure Ordered (sent l : List (α × Nat)) : Prop where
  descending : l.Pairwise fun m m' => m'.2 ≤ m.2
  stable : ∀ prio, ofPriority prio l = ofPriority prio sent

theorem ofPriority_append (prio : Nat) (l l' : List (α × Nat)) :
    ofPriority prio (l ++ l') = ofPriority prio l ++ ofPriority prio l' :=
  List.filter_append l l'

theorem ofPriority_eq {prio : Nat} (h : m.2 = prio) (l : List (α × Nat)) :
    ofPriority prio (m :: l) = m :: ofPriority prio l :=
  List.filter_cons_of_pos (by simpa using h)

theorem ofPriority_ne {prio : Nat} (h : m.2 ≠ prio) (l : List (α × Nat)) :
    ofPriority prio (m :: l) = ofPriority prio l :=
  List.filter_cons_of_neg (by simpa using h)

theorem insert_descending (h : l.Pairwise fun m m' => m'.2 ≤ m.2) :
    (insert m l).Pairwise fun m m' => m'.2 ≤ m.2 := by
  induction l with
  | nil => exact List.pairwise_singleton _ m
  | cons m' rest ih =>
    obtain ⟨hm', hrest⟩ := List.pairwise_cons.mp h
    unfold insert
    split
    · rename_i hlt
      refine List.pairwise_cons.mpr ⟨fun x hx => ?_, h⟩
      rcases List.mem_cons.mp hx with rfl | hx
      · exact Nat.le_of_lt hlt
      · exact Nat.le_trans (hm' x hx) (Nat.le_of_lt hlt)
    · rename_i hge
      refine List.pairwise_cons.mpr ⟨fun x hx => ?_, ih hrest⟩
      rcases List.mem_cons.mp ((insert_perm m rest).mem_iff.mp hx) with rfl | hx
      · exact Nat.not_lt.mp hge
      · exact hm' x hx

theorem insert_stable (h : l.Pairwise fun m m' => m'.2 ≤ m.2) (prio : Nat) :
    ofPriority prio (insert m l) = ofPriority prio (l ++ [m]) := by
  induction l with
  | nil => rfl
  | cons m' rest ih =>
    obtain ⟨hm', hrest⟩ := List.pairwise_cons.mp h
    unfold insert
    split
    · rename_i hlt
      by_cases hp : m.2 = prio
      · -- everything behind has a lower priority
        have hnone : ofPriority prio (m' :: rest) = [] := by
          refine List.filter_eq_nil_iff.mpr fun x hx => ?_
          have hle : x.2 ≤ m'.2 := by
            rcases List.mem_cons.mp hx with rfl | hx
            · exact Nat.le_refl _
            · exact hm' x hx
          simp only [decide_eq_true_eq]
          omega
        rw [ofPriority_eq hp, ofPriority_append, hnone, ofPriority_eq hp]
        rfl
      · rw [ofPriority_ne hp, ofPriority_append, ofPriority_ne hp]
        exact (List.append_nil _).symm
    · have hrest' := ih hrest
      rw [List.cons_append]
      by_cases hp : m'.2 = prio
      · rw [ofPriority_eq hp, ofPriority_eq hp, hrest']
      · rw [ofPriority_ne hp, ofPriority_ne hp, hrest']

theorem Ordered.nil : Ordered ([] : List (α × Nat)) [] := ⟨.nil, fun _ => rfl⟩

theorem Ordered.insert (h : Ordered sent l) : Ordered (sent ++ [m]) (Mqueue.insert m l) := by
  refine ⟨insert_descending h.descending, fun prio => ?_⟩
  rw [insert_stable h.descending, ofPriority_append, ofPriority_append, h.stable]

theorem Ordered.mem_iff (h : Ordered sent l) : m ∈ l ↔ m ∈ sent := by
  have hmem : m ∈ ofPriority m.2 l ↔ m ∈ ofPriority m.2 sent := by rw [h.stable]
  simpa [ofPriority] using hmem

theorem Ordered.unique (h : Ordered sent l) (h' : Ordered sent l') : l = l' := by
  induction l generalizing sent l' with
  | nil =>
    refine (List.eq_nil_iff_forall_not_mem.mpr fun m hm => ?_).symm
    have hsent := h'.mem_iff.mp hm
    exact absurd (h.mem_iff.mpr hsent) List.not_mem_nil
  | cons m rest ih =>
    cases l' with
    | nil => exact absurd (h'.mem_iff.mpr (h.mem_iff.mp List.mem_cons_self)) List.not_mem_nil
    | cons m' rest' =>
      obtain ⟨hhead, hrest⟩ := List.pairwise_cons.mp h.descending
      obtain ⟨hhead', hrest'⟩ := List.pairwise_cons.mp h'.descending
      -- both heads have the highest priority
      have hle : m.2 ≤ m'.2 := by
        rcases List.mem_cons.mp (h'.mem_iff.mpr (h.mem_iff.mp List.mem_cons_self)) with heq | hm
        · exact Nat.le_of_eq (congrArg Prod.snd heq)
        · exact hhead' m hm
      have hle' : m'.2 ≤ m.2 := by
        rcases List.mem_cons.mp (h.mem_iff.mpr (h'.mem_iff.mp List.mem_cons_self)) with heq | hm
        · exact Nat.le_of_eq (congrArg Prod.snd heq)
        · exact hhead m' hm
      have hsame : ∀ prio, ofPriority prio (m :: rest) = ofPriority prio (m' :: rest') :=
        fun prio => (h.stable prio).trans (h'.stable prio).symm
      have hprio : m'.2 = m.2 := Nat.le_antisymm hle' hle
      have hcons := hsame m.2
      rw [ofPriority_eq rfl, ofPriority_eq hprio] at hcons
      obtain ⟨rfl, -⟩ := List.cons.inj hcons
      have hself : Ordered rest rest := ⟨hrest, fun _ => rfl⟩
      refine congrArg (m :: ·) (ih hself ⟨hrest', fun prio => ?_⟩)
      have hcons := hsame prio
      by_cases hp : m.2 = prio
      · rw [ofPriority_eq hp, ofPriority_eq hp] at hcons
        exact (List.cons.inj hcons).2.symm
      · rw [ofPriority_ne hp, ofPriority_ne hp] at hcons
        exact hcons.symm

theorem exists_ordered (sent : List (α × Nat)) : ∃ l, Ordered sent l ∧ l.Perm sent := by
  induction sent using List.reverseRecOn with
  | nil => exact ⟨[], .nil, .refl _⟩
  | append_singleton sent m ih =>
    obtain ⟨l, hl, hperm⟩ := ih
    exact ⟨_, hl.insert, (insert_append m l).trans (hperm.append_right [m])⟩

theorem Ordered.perm (h : Ordered sent l) : l.Perm sent := by
  obtain ⟨l', h', hperm⟩ := exists_ordered sent
  rwa [h.unique h']

end Ops.Posix.Mqueue
