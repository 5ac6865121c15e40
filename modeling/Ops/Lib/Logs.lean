import Mathlib.Data.List.Basic

/-!
# Logs

A log is a list of entries tagged with who they concern; `ofTag a l` is what `l`
holds for `a`, in order. `Answered` says of a log of requests and responses that each
request has a response behind it.
-/

namespace Ops

variable {α β : Type} [DecidableEq α]

def ofTag (a : α) (l : List (α × β)) : List β :=
  l.filterMap fun e => if e.1 = a then some e.2 else none

@[simp] theorem ofTag_nil (a : α) : ofTag a ([] : List (α × β)) = [] := rfl

@[simp] theorem ofTag_append (a : α) (l m : List (α × β)) :
    ofTag a (l ++ m) = ofTag a l ++ ofTag a m := by
  simp [ofTag]

@[simp] theorem ofTag_cons_self (a : α) (x : β) (l : List (α × β)) :
    ofTag a ((a, x) :: l) = x :: ofTag a l := by
  simp [ofTag]

theorem ofTag_cons_ne {a b : α} (h : b ≠ a) (x : β) (l : List (α × β)) :
    ofTag a ((b, x) :: l) = ofTag a l := by
  simp [ofTag, h]

@[simp] theorem ofTag_map_self (a : α) (l : List β) : ofTag a (l.map fun x => (a, x)) = l := by
  induction l with
  | nil => rfl
  | cons x l ih => rw [List.map_cons, ofTag_cons_self, ih]

theorem ofTag_map_ne {a b : α} (h : b ≠ a) (l : List β) :
    ofTag a (l.map fun x => (b, x)) = [] := by
  induction l with
  | nil => rfl
  | cons x l ih => rw [List.map_cons, ofTag_cons_ne h, ih]

/-! ## Requests and responses -/

section Answered

variable {α : Type} {request response : α → Bool} {l : List α} {x : α}

/-- Every request is followed by a response. -/
def Answered (request response : α → Bool) : List α → Prop
  | [] => True
  | x :: l => (request x = true → ∃ y ∈ l, response y = true) ∧ Answered request response l

theorem Answered.of_response (hx : response x = true) (hnot : request x = false) :
    Answered request response (l ++ [x]) := by
  induction l with
  | nil => exact ⟨fun h => absurd (hnot.symm.trans h) (by decide), trivial⟩
  | cons y l ih => exact ⟨fun _ => ⟨x, by simp, hx⟩, ih⟩

theorem not_answered_of_request (hx : request x = true) : ¬ Answered request response (l ++ [x]) := by
  induction l with
  | nil =>
    rintro ⟨h, -⟩
    obtain ⟨y, hy, -⟩ := h hx
    cases hy
  | cons y l ih => exact fun h => ih h.2

end Answered

end Ops
