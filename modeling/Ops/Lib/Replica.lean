import Mathlib.Logic.Function.Basic

/-!
# Replicas of a table

A table gives every key a value. Whoever hears of its changes keeps a `view`: the fold of the
messages that came, where `meaning` is the entry that a message is about. A view that `Agrees` has
the value of each key that was assigned. It goes on agreeing when the same message changes the
table and is heard, once or more often.
-/

namespace Ops.Replica

variable {ι β φ : Type} [DecidableEq ι] (meaning : φ → Option (ι × β))

/-- A message is heard. -/
def hear (v : ι → Option β) (m : φ) : ι → Option β :=
  match meaning m with
  | none => v
  | some (i, b) => Function.update v i (some b)

/-- What the messages say; nothing is known before them. -/
def view (ms : List φ) : ι → Option β := ms.foldl (hear meaning) fun _ => none

/-- `assigned` are the keys that a message was about. -/
def Agrees (assigned : ι → Bool) (table : ι → β) (v : ι → Option β) : Prop :=
  ∀ i, assigned i = true → v i = some (table i)

variable {meaning} {v : ι → Option β} {m : φ} {i : ι} {b : β}
variable {assigned : ι → Bool} {table : ι → β}

theorem view_append (ms : List φ) (m : φ) :
    view meaning (ms ++ [m]) = hear meaning (view meaning ms) m := by
  unfold view
  rw [List.foldl_append]
  rfl

theorem hear_none (h : meaning m = none) : hear meaning v m = v := by
  unfold hear
  rw [h]

theorem hear_some (h : meaning m = some (i, b)) :
    hear meaning v m = Function.update v i (some b) := by
  unfold hear
  rw [h]

/-- A message says nothing new the second time. -/
theorem hear_hear (v : ι → Option β) (m : φ) :
    hear meaning (hear meaning v m) m = hear meaning v m := by
  cases h : meaning m with
  | none => rw [hear_none h, hear_none h]
  | some e => rw [hear_some h, hear_some h, Function.update_idem]

namespace Agrees

omit [DecidableEq ι] in
theorem unassigned (h : ∀ i, assigned i = false) : Agrees assigned table v := by
  intro i hi
  cases (h i).symm.trans hi

/-- The message changes the table and is heard. -/
theorem update (h : Agrees assigned table v) (hm : meaning m = some (i, b)) :
    Agrees (Function.update assigned i true) (Function.update table i b) (hear meaning v m) := by
  intro j hj
  rw [hear_some hm]
  by_cases hji : j = i
  · subst hji
    rw [Function.update_self, Function.update_self]
  · rw [Function.update_of_ne hji] at hj
    rw [Function.update_of_ne hji, Function.update_of_ne hji]
    exact h j hj

/-- The message is heard where the table has its entry. -/
theorem same (h : Agrees assigned table v) (hm : meaning m = some (i, b)) (htable : table i = b) :
    Agrees (Function.update assigned i true) table (hear meaning v m) := by
  have hupdate := h.update hm
  rwa [← htable, Function.update_eq_self] at hupdate

/-- The message is not heard, but the table has had its entry before. -/
theorem unheard (h : Agrees assigned table v) (hi : assigned i = true) :
    Agrees (Function.update assigned i true) table v := by
  rwa [← hi, Function.update_eq_self]

end Agrees

end Ops.Replica
