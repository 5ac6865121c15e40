/-!
# Statements of C with `switch`

`Stmt E` are the statements over expressions `E`, which a machine evaluates to integers.
Control is the list of the statements still to run (`view`). A `case` belongs to the closest
`switch` around it: `select`, which looks for the label of a value, does not enter inner
`switch` statements. Without that label the body is skipped. There is no `default`, `break` or
`continue`.
-/

namespace Ops

inductive Stmt (E : Type) where
  | skip
  | expr (e : E)
  | seq (s t : Stmt E)
  | ite (c : E) (s t : Stmt E)
  | while (c : E) (s : Stmt E)
  | switch (c : E) (s : Stmt E)
  | case (v : Int) (s : Stmt E)

variable {E : Type}

namespace Stmt

/-- `if (c && d && …) s` -/
def ifAll (cs : List E) (s : Stmt E) : Stmt E := cs.foldr (fun c t => .ite c t .skip) s

/-- `if (c || d) s` -/
def ifOr (c d : E) (s : Stmt E) : Stmt E := .ite c s (.ite d s .skip)

/-- What is still to run from the label `v` on, with `k` behind the statement. -/
def select (v : Int) : Stmt E → List (Stmt E) → Option (List (Stmt E))
  | skip, _ | expr _, _ | switch .., _ => none
  | seq s t, k => (s.select v (t :: k)).or (t.select v k)
  | ite _ s t, k => (s.select v k).or (t.select v k)
  | .while c s, k => s.select v (.while c s :: k)
  | case u s, k => if u = v then some (s :: k) else s.select v k

/-- The labels that belong to a `switch` with this body. -/
def labels : Stmt E → List Int
  | skip | expr _ | switch .. => []
  | seq s t | ite _ s t => s.labels ++ t.labels
  | .while _ s => s.labels
  | case u s => u :: s.labels

theorem select_eq_none_iff (v : Int) (s : Stmt E) (k : List (Stmt E)) :
    s.select v k = none ↔ v ∉ s.labels := by
  induction s generalizing k with
  | skip | expr _ | switch _ _ _ => simp [select, labels]
  | seq s t ihs iht | ite _ s t ihs iht => simp [select, labels, ihs, iht]
  | «while» c s ih => exact ih ..
  | case u s ih =>
    unfold select labels
    by_cases huv : u = v
    · simp [huv]
    · rw [if_neg huv, ih, List.mem_cons, not_or]
      exact ⟨fun h => ⟨Ne.symm huv, h⟩, And.right⟩

end Stmt

/-- What control does next: it is at its end, goes on, or waits for the value of an expression. -/
inductive Control (E : Type) where
  | done
  | go (k : List (Stmt E))
  | eval (e : E) (k : Int → List (Stmt E))

def view : List (Stmt E) → Control E
  | [] => .done
  | .skip :: k => .go k
  | .seq s t :: k => .go (s :: t :: k)
  | .case _ s :: k => .go (s :: k)
  | .expr e :: k => .eval e fun _ => k
  | .ite c s t :: k => .eval c fun v => (if v ≠ 0 then s else t) :: k
  | .while c s :: k => .eval c fun v => if v ≠ 0 then s :: .while c s :: k else k
  | .switch c s :: k => .eval c fun v => (s.select v k).getD k

/-- A `switch` without labels of its own skips its body, whatever the value. -/
theorem view_switch {c : E} {s : Stmt E} (h : s.labels = []) (k : List (Stmt E)) :
    view (.switch c s :: k) = .eval c fun _ => k := by
  have hskip : (fun v => (s.select v k).getD k) = fun _ => k := by
    funext v
    rw [(Stmt.select_eq_none_iff v s k).mpr (h ▸ List.not_mem_nil), Option.getD_none]
  exact congrArg (Control.eval c) hskip

end Ops
