/-!
# Labelled transition systems

An `LTS` has initial states and a partial step function: the label carries every
choice, so a run is replayed by evaluating `exec`. `ReachIf C` is reachability
through steps that meet the condition `C`; `Reach` is reachability through any
step. `ReachIf.inv` is the induction rule: an invariant holds initially and is
kept by a step.
-/

namespace Ops

structure LTS (σ : Type) (α : Type) where
  Init : σ → Prop
  next : σ → α → Option σ

namespace LTS

variable {σ α : Type} (L : LTS σ α)

/-- Reached from an initial state by steps that all meet `C`. -/
inductive ReachIf (C : σ → α → Prop) : σ → Prop where
  | init {s : σ} : L.Init s → ReachIf C s
  | next {s t : σ} {a : α} : ReachIf C s → C s a → L.next s a = some t → ReachIf C t

/-- Reached from an initial state. -/
abbrev Reach : σ → Prop := L.ReachIf fun _ _ => True

/-- The state after the labels `as`, if each step is enabled. -/
def exec (s : σ) : List α → Option σ
  | [] => some s
  | a :: as => (L.next s a).bind fun t => exec t as

/-- `exec`, as long as each step meets `C`. -/
def execIf (C : σ → α → Prop) [∀ s a, Decidable (C s a)] (s : σ) : List α → Option σ
  | [] => some s
  | a :: as => if C s a then (L.next s a).bind fun t => execIf C t as else none

/-- Every step of the run from `s` on the labels `as` meets `P`. -/
def Along (P : σ → α → Prop) (s : σ) : List α → Prop
  | [] => True
  | a :: as => P s a ∧ ∀ t, L.next s a = some t → Along P t as

/-- Every state of the run from `s` on the labels `as` meets `G`. -/
def Always (G : σ → Prop) (s : σ) : List α → Prop
  | [] => G s
  | a :: as => G s ∧ ∀ t, L.next s a = some t → Always G t as

variable {L} {C D : σ → α → Prop}

theorem ReachIf.mono (hCD : ∀ s a, C s a → D s a) {s : σ} (h : L.ReachIf C s) : L.ReachIf D s := by
  induction h with
  | init h => exact .init h
  | next _ hc hn ih => exact .next ih (hCD _ _ hc) hn

theorem ReachIf.reach {s : σ} (h : L.ReachIf C s) : L.Reach s := h.mono fun _ _ _ => trivial

/-- The induction rule. A step may use that its source is reached. -/
theorem ReachIf.inv {I : σ → Prop} (hinit : ∀ s, L.Init s → I s)
    (hnext : ∀ s a t, L.ReachIf C s → I s → C s a → L.next s a = some t → I t)
    {s : σ} (h : L.ReachIf C s) : I s := by
  induction h with
  | init h => exact hinit _ h
  | next hr hc hn ih => exact hnext _ _ _ hr ih hc hn

/-- An invariant that a step keeps as long as `R` holds, for an `R` that once lost
does not come back. -/
theorem ReachIf.inv_while {R I : σ → Prop} (hinit : ∀ s, L.Init s → I s)
    (hback : ∀ s a t, L.next s a = some t → R t → R s)
    (hnext : ∀ s a t, L.ReachIf C s → R s → I s → C s a → L.next s a = some t → R t → I t)
    {s : σ} (h : L.ReachIf C s) : R s → I s := by
  refine h.inv (I := fun s => R s → I s) (fun s hs _ => hinit s hs) ?_
  intro s a t hr ih hc hn ht
  have hs := hback s a t hn ht
  exact hnext s a t hr hs (ih hs) hc hn ht

theorem Reach.inv {I : σ → Prop} (hinit : ∀ s, L.Init s → I s)
    (hnext : ∀ s a t, L.Reach s → I s → L.next s a = some t → I t)
    {s : σ} (h : L.Reach s) : I s :=
  ReachIf.inv hinit (fun s a t hr hi _ hn => hnext s a t hr hi hn) h

theorem Reach.step {s t : σ} {a : α} (h : L.Reach s) (hn : L.next s a = some t) : L.Reach t :=
  .next h trivial hn

theorem exec_cons {s t : σ} {a : α} (h : L.next s a = some t) (as : List α) :
    L.exec s (a :: as) = L.exec t as := by
  rw [exec, h]; rfl

theorem exec_cons_some {s t : σ} {a : α} {as : List α} :
    L.exec s (a :: as) = some t ↔ ∃ u, L.next s a = some u ∧ L.exec u as = some t :=
  Option.bind_eq_some_iff

theorem exec_append (s : σ) (as bs : List α) :
    L.exec s (as ++ bs) = (L.exec s as).bind fun t => L.exec t bs := by
  induction as generalizing s with
  | nil => rfl
  | cons a as ih =>
    simp only [List.cons_append, exec]
    cases L.next s a with
    | none => rfl
    | some t => exact ih t

/-- No step, no longer run. -/
theorem exec_stuck {s t : σ} {as : List α} (h : ∀ a, L.next s a = none)
    (he : L.exec s as = some t) : as = [] ∧ t = s := by
  cases as with
  | nil =>
    cases he
    exact ⟨rfl, rfl⟩
  | cons a as =>
    obtain ⟨u, hu, -⟩ := exec_cons_some.mp he
    rw [h a] at hu
    cases hu

/-- Labels that meet `C` in every state. -/
theorem ReachIf.exec {s t : σ} {as : List α} (h : L.ReachIf C s) (hC : ∀ a ∈ as, ∀ s, C s a)
    (he : L.exec s as = some t) : L.ReachIf C t := by
  induction as generalizing s with
  | nil => cases he; exact h
  | cons a as ih =>
    obtain ⟨ha, has⟩ := List.forall_mem_cons.mp hC
    simp only [LTS.exec] at he
    cases hn : L.next s a with
    | none => rw [hn] at he; cases he
    | some u => rw [hn] at he; exact ih (.next h (ha s) hn) has he

theorem Reach.exec {s t : σ} {as : List α} (h : L.Reach s) (he : L.exec s as = some t) :
    L.Reach t :=
  ReachIf.exec h (fun _ _ _ => trivial) he

theorem ReachIf.execIf [∀ s a, Decidable (C s a)] {s t : σ} {as : List α} (h : L.ReachIf C s)
    (he : L.execIf C s as = some t) : L.ReachIf C t := by
  induction as generalizing s with
  | nil => cases he; exact h
  | cons a as ih =>
    simp only [LTS.execIf] at he
    split at he
    · rename_i hc
      cases hn : L.next s a with
      | none => rw [hn] at he; cases he
      | some u => rw [hn] at he; exact ih (.next h hc hn) he
    · cases he

theorem along_cons {P : σ → α → Prop} {s t : σ} {a : α} (h : L.next s a = some t) (as : List α) :
    L.Along P s (a :: as) ↔ P s a ∧ L.Along P t as := by
  refine and_congr_right fun _ => ⟨fun hall => hall t h, fun ht u hu => ?_⟩
  rw [h] at hu
  cases hu
  exact ht

/-- What holds after a run whose steps meet `D` if and only if it held before and every step
meets `P`. -/
theorem along_iff_within {P D : σ → α → Prop} {I G : σ → Prop}
    (hkeep : ∀ s a t, I s → D s a → L.next s a = some t → I t)
    (hstep : ∀ s a t, I s → D s a → L.next s a = some t → (G t ↔ G s ∧ P s a))
    {s t : σ} {as : List α} (hI : I s) (hD : L.Along D s as) (h : L.exec s as = some t) :
    G t ↔ G s ∧ L.Along P s as := by
  induction as generalizing s with
  | nil =>
    cases h
    exact (and_true _).to_iff.symm
  | cons a as ih =>
    obtain ⟨u, hu, hrest⟩ := exec_cons_some.mp h
    obtain ⟨ha, has⟩ := (along_cons hu as).mp hD
    rw [ih (hkeep s a u hI ha hu) has hrest, hstep s a u hI ha hu, along_cons hu, and_assoc]

/-- A run whose steps all meet `C`. -/
theorem along_of_execIf [∀ s a, Decidable (C s a)] {s t : σ} {as : List α}
    (he : L.execIf C s as = some t) : L.exec s as = some t ∧ L.Along C s as := by
  induction as generalizing s with
  | nil => exact ⟨he, trivial⟩
  | cons a as ih =>
    simp only [LTS.execIf] at he
    split at he
    · rename_i hc
      obtain ⟨u, hu, hrest⟩ := Option.bind_eq_some_iff.mp he
      obtain ⟨hexec, halong⟩ := ih hrest
      exact ⟨(exec_cons hu as).trans hexec, (along_cons hu as).mpr ⟨hc, halong⟩⟩
    · cases he

theorem ReachIf.along {s t : σ} {as : List α} (h : L.ReachIf C s) (hC : L.Along C s as)
    (he : L.exec s as = some t) : L.ReachIf C t := by
  induction as generalizing s with
  | nil =>
    cases he
    exact h
  | cons a as ih =>
    obtain ⟨u, hu, hrest⟩ := exec_cons_some.mp he
    exact ih (.next h hC.1 hu) (hC.2 u hu) hrest

theorem along_true (s : σ) (as : List α) : L.Along (fun _ _ => True) s as := by
  induction as generalizing s with
  | nil => trivial
  | cons a as ih => exact ⟨trivial, fun t _ => ih t⟩

/-- What holds after a run if and only if it held before and every step meets `P`. -/
theorem along_iff {P : σ → α → Prop} {I G : σ → Prop}
    (hkeep : ∀ s a t, I s → L.next s a = some t → I t)
    (hstep : ∀ s a t, I s → L.next s a = some t → (G t ↔ G s ∧ P s a))
    {s t : σ} {as : List α} (hI : I s) (h : L.exec s as = some t) :
    G t ↔ G s ∧ L.Along P s as :=
  along_iff_within (fun s a t hI _ hn => hkeep s a t hI hn)
    (fun s a t hI _ hn => hstep s a t hI hn) hI (along_true s as) h

/-- What a step keeps as long as it meets `P`, and what is so for ever after one that does not. -/
theorem along_split {P : σ → α → Prop} {K J : σ → Prop}
    (hkeep : ∀ s a t, K s → P s a → L.next s a = some t → K t)
    (hlose : ∀ s a t, K s → ¬ P s a → L.next s a = some t → J t)
    (hlost : ∀ s a t, J s → L.next s a = some t → J t)
    {s t : σ} {as : List α} (hK : K s) (h : L.exec s as = some t) :
    L.Along P s as ∧ K t ∨ ¬ L.Along P s as ∧ J t := by
  induction as generalizing s with
  | nil =>
    cases h
    exact .inl ⟨trivial, hK⟩
  | cons a as ih =>
    obtain ⟨u, hu, hrest⟩ := exec_cons_some.mp h
    rw [along_cons hu]
    by_cases hP : P s a
    · rcases ih (hkeep s a u hK hP hu) hrest with ⟨hall, ht⟩ | ⟨hnot, ht⟩
      · exact .inl ⟨⟨hP, hall⟩, ht⟩
      · exact .inr ⟨fun hall => hnot hall.2, ht⟩
    · refine .inr ⟨fun hall => hP hall.1, ?_⟩
      have hJ := hlose s a u hK hP hu
      clear ih hu h hK
      induction as generalizing u with
      | nil =>
        cases hrest
        exact hJ
      | cons b bs ih =>
        obtain ⟨v, hv, hrest⟩ := exec_cons_some.mp hrest
        exact ih v hrest (hlost u b v hJ hv)

/-- A condition on the labels. -/
theorem along_of_mem {P : α → Prop} {s : σ} {as : List α} (h : ∀ a ∈ as, P a) :
    L.Along (fun _ a => P a) s as := by
  induction as generalizing s with
  | nil => trivial
  | cons a as ih =>
    obtain ⟨ha, has⟩ := List.forall_mem_cons.mp h
    exact ⟨ha, fun t _ => ih has⟩

theorem Always.head {G : σ → Prop} {s : σ} {as : List α} (h : L.Always G s as) : G s := by
  cases as with
  | nil => exact h
  | cons a as => exact h.1

theorem always_cons {G : σ → Prop} {s t : σ} {a : α} (h : L.next s a = some t) (as : List α) :
    L.Always G s (a :: as) ↔ G s ∧ L.Always G t as := by
  refine and_congr_right fun _ => ⟨fun hall => hall t h, fun ht u hu => ?_⟩
  rw [h] at hu
  cases hu
  exact ht

/-- `G` holds all through a run if and only if every step meets `P`, where `I` is what these steps
keep and a step that does not meet `P` leads out of `G`. -/
theorem always_iff_along {P : σ → α → Prop} {I G : σ → Prop} (hgood : ∀ s, I s → G s)
    (hkeep : ∀ s a t, I s → P s a → L.next s a = some t → I t)
    (hlose : ∀ s a t, I s → ¬ P s a → L.next s a = some t → ¬ G t)
    {s t : σ} {as : List α} (hI : I s) (h : L.exec s as = some t) :
    L.Always G s as ↔ L.Along P s as := by
  induction as generalizing s with
  | nil => exact iff_of_true (hgood s hI) trivial
  | cons a as ih =>
    obtain ⟨u, hu, hrest⟩ := exec_cons_some.mp h
    rw [always_cons hu, along_cons hu, and_iff_right (hgood s hI)]
    by_cases hP : P s a
    · rw [ih (hkeep s a u hI hP hu) hrest, and_iff_right hP]
    · exact iff_of_false (fun hall => hlose s a u hI hP hu hall.head) fun hall => hP hall.1

/-- What follows, along a run, from what its steps meet and what they keep. -/
theorem along_imp {I : σ → Prop} (hnext : ∀ s a t, I s → C s a → L.next s a = some t → I t)
    (hstep : ∀ s a, I s → C s a → D s a) {s : σ} {as : List α} (hI : I s) (hC : L.Along C s as) :
    L.Along D s as := by
  induction as generalizing s with
  | nil => trivial
  | cons a as ih => exact ⟨hstep s a hI hC.1, fun t ht => ih (hnext s a t hI hC.1 ht) (hC.2 t ht)⟩

/-- The steps of a run meet what follows from what they meet. -/
theorem Along.mono (hCD : ∀ s a, C s a → D s a) {s : σ} {as : List α} (hC : L.Along C s as) :
    L.Along D s as :=
  along_imp (I := fun _ => True) (fun _ _ _ _ _ _ => trivial) (fun s a _ => hCD s a) trivial hC

/-- A measure that no step raises and some labels lower bounds the number of these. -/
theorem along_count {I : σ → Prop} {P : α → Bool} (weight : σ → Nat)
    (hlower : ∀ s a t, I s → C s a → L.next s a = some t →
      I t ∧ weight t + (P a).toNat ≤ weight s)
    {s t : σ} {as : List α} (hI : I s) (hC : L.Along C s as) (he : L.exec s as = some t) :
    I t ∧ as.countP P + weight t ≤ weight s := by
  induction as generalizing s with
  | nil =>
    cases he
    exact ⟨hI, Nat.le_of_eq (Nat.zero_add _)⟩
  | cons a as ih =>
    obtain ⟨u, hu, hrest⟩ := exec_cons_some.mp he
    obtain ⟨ha, has⟩ := (along_cons hu as).mp hC
    obtain ⟨hIu, hle⟩ := hlower s a u hI ha hu
    obtain ⟨hIt, hcount⟩ := ih hIu has hrest
    refine ⟨hIt, ?_⟩
    have hhead : (if P a = true then 1 else 0) = (P a).toNat := by cases P a <;> rfl
    rw [List.countP_cons, hhead]
    omega

/-- A measure that every step lowers bounds the length of a run. -/
theorem along_length {I : σ → Prop} (weight : σ → Nat)
    (hlower : ∀ s a t, I s → C s a → L.next s a = some t → I t ∧ weight t < weight s)
    {s t : σ} {as : List α} (hI : I s) (hC : L.Along C s as) (he : L.exec s as = some t) :
    as.length + weight t ≤ weight s := by
  have hcount := (along_count (P := fun _ => true) weight hlower hI hC he).2
  rwa [List.countP_true] at hcount

theorem execIf_length [∀ s a, Decidable (C s a)] {I : σ → Prop} (weight : σ → Nat)
    (hlower : ∀ s a t, I s → C s a → L.next s a = some t → I t ∧ weight t < weight s)
    {s t : σ} {as : List α} (hI : I s) (he : L.execIf C s as = some t) :
    as.length + weight t ≤ weight s := by
  obtain ⟨hexec, hC⟩ := along_of_execIf he
  exact along_length weight hlower hI hC hexec

/-- What the steps of a run keep. -/
theorem along_inv {I : σ → Prop} (hnext : ∀ s a t, I s → C s a → L.next s a = some t → I t)
    {s t : σ} {as : List α} (hI : I s) (hC : L.Along C s as) (he : L.exec s as = some t) : I t := by
  induction as generalizing s with
  | nil =>
    cases he
    exact hI
  | cons a as ih =>
    obtain ⟨u, hu, hrest⟩ := exec_cons_some.mp he
    obtain ⟨ha, has⟩ := (along_cons hu as).mp hC
    exact ih (hnext s a u hI ha hu) has hrest

/-- What every step keeps. -/
theorem exec_inv {I : σ → Prop} (hnext : ∀ s a t, I s → L.next s a = some t → I t)
    {s t : σ} {as : List α} (hI : I s) (he : L.exec s as = some t) : I t :=
  along_inv (C := fun _ _ => True) (fun s a t hs _ hn => hnext s a t hs hn) hI (along_true s as) he

/-- A measure that some step lowers, as long as the goal is not reached. -/
theorem run_to {I G : σ → Prop} {P : α → Prop} (weight : σ → Nat)
    (hstep : ∀ s, I s → G s ∨ ∃ a t, P a ∧ L.next s a = some t ∧ I t ∧ weight t < weight s)
    {s : σ} (hI : I s) : ∃ as t, (∀ a ∈ as, P a) ∧ L.exec s as = some t ∧ I t ∧ G t := by
  obtain ⟨w, hw⟩ : ∃ w, w = weight s := ⟨_, rfl⟩
  induction w using Nat.strongRecOn generalizing s with
  | _ w ih =>
    rcases hstep s hI with hG | ⟨a, u, ha, hu, hIu, hlt⟩
    · exact ⟨[], s, by simp, rfl, hI, hG⟩
    · obtain ⟨as, t, has, he, hIt, hGt⟩ := ih (weight u) (hw ▸ hlt) hIu rfl
      exact ⟨a :: as, t, by simpa [ha] using has, (exec_cons hu as).trans he, hIt, hGt⟩

/-- A run keeps what its steps keep, or it comes to the goal. -/
theorem exec_until {I G : σ → Prop} (hstep : ∀ s a t, I s → L.next s a = some t → I t ∨ G t)
    {s t : σ} {as : List α} (hI : I s) (he : L.exec s as = some t) :
    I t ∨ ∃ before after u, as = before ++ after ∧ L.exec s before = some u ∧ G u := by
  induction as generalizing s with
  | nil =>
    cases he
    exact .inl hI
  | cons a as ih =>
    obtain ⟨u, hu, hrest⟩ := exec_cons_some.mp he
    rcases hstep s a u hI hu with hIu | hG
    · refine (ih hIu hrest).imp_right fun ⟨before, after, v, hsplit, hv, hG⟩ => ?_
      exact ⟨a :: before, after, v, congrArg _ hsplit, (exec_cons hu before).trans hv, hG⟩
    · exact .inr ⟨[a], as, u, rfl, exec_cons hu [], hG⟩

/-- A measure that no step raises and each step of some actors lowers: a run in which these make
enough steps comes through the goal. -/
theorem exec_hits {I G : σ → Prop} {P : α → Bool} (weight : σ → Nat)
    (hpos : ∀ s, I s → 0 < weight s)
    (hstep : ∀ s a t, I s → L.next s a = some t →
      G t ∨ I t ∧ weight t + (P a).toNat ≤ weight s)
    {s t : σ} {as : List α} (hI : I s) (he : L.exec s as = some t)
    (hcount : weight s ≤ as.countP P) :
    ∃ before after u, as = before ++ after ∧ L.exec s before = some u ∧ G u := by
  induction as generalizing s with
  | nil => exact absurd (hpos s hI) (Nat.not_lt.mpr hcount)
  | cons a as ih =>
    obtain ⟨u, hu, hrest⟩ := exec_cons_some.mp he
    rcases hstep s a u hI hu with hG | ⟨hIu, hle⟩
    · exact ⟨[a], as, u, rfl, exec_cons hu [], hG⟩
    · have hrest' : weight u ≤ as.countP P := by
        rw [List.countP_cons] at hcount
        cases hP : P a with
        | false =>
          rw [hP] at hle hcount
          exact Nat.le_trans hle hcount
        | true =>
          rw [hP] at hle hcount
          exact Nat.le_of_succ_le_succ (Nat.le_trans hle hcount)
      obtain ⟨before, after, v, hsplit, hv, hG⟩ := ih hIu hrest hrest'
      exact ⟨a :: before, after, v, congrArg _ hsplit, (exec_cons hu before).trans hv, hG⟩

end LTS

end Ops
