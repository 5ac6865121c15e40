/-!
# Linked lists in memory

`Chain Holds addr p l q` says that following the next pointers from `p` one comes through
the nodes `l` to `q`. `Holds e q` is whatever memory has to say of node `e` when its next
pointer is `q`; `addr e` is its address, and `none` the null pointer.
-/

namespace Ops

variable {ε α : Type} {Holds Holds' : ε → Option α → Prop} {addr : ε → α}
variable {p q r : Option α} {e : ε} {l m : List ε}

def Chain (Holds : ε → Option α → Prop) (addr : ε → α) : Option α → List ε → Option α → Prop
  | p, [], q => p = q
  | p, e :: l, q => p = some (addr e) ∧ ∃ p', Holds e p' ∧ Chain Holds addr p' l q

theorem Chain.append (h : Chain Holds addr p l q) (h' : Chain Holds addr q m r) :
    Chain Holds addr p (l ++ m) r := by
  induction l generalizing p with
  | nil => exact h.symm ▸ h'
  | cons e l ih =>
    obtain ⟨hp, p', he, hl⟩ := h
    exact ⟨hp, p', he, ih hl⟩

theorem Chain.split (h : Chain Holds addr p (l ++ m) r) :
    ∃ q, Chain Holds addr p l q ∧ Chain Holds addr q m r := by
  induction l generalizing p with
  | nil => exact ⟨p, rfl, h⟩
  | cons e l ih =>
    obtain ⟨hp, p', he, hl⟩ := h
    obtain ⟨q, hl, hm⟩ := ih hl
    exact ⟨q, ⟨hp, p', he, hl⟩, hm⟩

/-- Another memory that says the same of the nodes. -/
theorem Chain.frame (h : Chain Holds addr p l q) (hsame : ∀ e ∈ l, ∀ p, Holds e p → Holds' e p) :
    Chain Holds' addr p l q := by
  induction l generalizing p with
  | nil => exact h
  | cons e l ih =>
    obtain ⟨hp, p', he, hl⟩ := h
    exact ⟨hp, p', hsame e List.mem_cons_self p' he,
      ih hl fun e' he' => hsame e' (List.mem_cons_of_mem e he')⟩

/-- The next pointer of the last node is changed. -/
theorem Chain.splice (h : Chain Holds addr p (l ++ [e]) q) (he : Holds' e r)
    (hsame : ∀ e ∈ l, ∀ p, Holds e p → Holds' e p) : Chain Holds' addr p (l ++ [e]) r := by
  obtain ⟨p', hl, hp', -⟩ := h.split
  exact (hl.frame hsame).append ⟨hp', r, he, rfl⟩

/-- The null pointer is the empty list. -/
theorem Chain.of_none (h : Chain Holds addr none l q) : l = [] := by
  cases l with
  | nil => rfl
  | cons e l => cases h.1

theorem Chain.nil_iff (h : Chain Holds addr p l none) : p = none ↔ l = [] := by
  constructor
  · rintro rfl
    exact h.of_none
  · rintro rfl
    exact h

/-- A pointer that is not null points to the first node. -/
theorem Chain.of_some {a : α} (h : Chain Holds addr (some a) l none) :
    ∃ e m, l = e :: m ∧ a = addr e := by
  cases l with
  | nil => cases h
  | cons e m => exact ⟨e, m, rfl, Option.some.inj h.1⟩

theorem Chain.head (h : Chain Holds addr p l none) : p = (l.map addr).head? := by
  cases l with
  | nil => exact h
  | cons e m => exact h.1

/-- What is in memory for every node. -/
theorem Chain.holds (h : Chain Holds addr p l q) (he : e ∈ l) : ∃ p, Holds e p := by
  induction l generalizing p with
  | nil => cases he
  | cons e' l ih =>
    obtain ⟨-, p', he', hl⟩ := h
    rcases List.mem_cons.mp he with rfl | he
    · exact ⟨p', he'⟩
    · exact ih hl he

/-- The node in the middle of a list, and what it points to. -/
theorem Chain.middle (h : Chain Holds addr p (l ++ e :: m) q) :
    ∃ p', Holds e p' ∧ Chain Holds addr p' m q := by
  obtain ⟨-, -, -, p', he, hm⟩ := h.split
  exact ⟨p', he, hm⟩

end Ops
