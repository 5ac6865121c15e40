import Mathlib.Algebra.Group.Nat.Defs
import Mathlib.Data.List.Perm.Basic

/-!
# Message queues

A POSIX message queue: messages with priorities, and the registration for the one-shot
notification. `mq_send` puts a message behind those of the same or a higher priority; when
the queue was empty, somebody was registered and nobody waits in `mq_receive`, it takes the
registration away and notifies (`fires`).

A program that registers again once for each notification never finds the queue
registered (`notify_ok`), and has it registered when nothing is owed (`registered_of_token`).
-/

namespace Ops.Posix

/-- The messages with their priorities, the next one first. -/
structure Mqueue (α : Type) where
  msgs : List (α × Nat)
  registered : Bool
  deriving DecidableEq, Repr

namespace Mqueue

variable {α : Type}

def fresh : Mqueue α := ⟨[], false⟩

/-- Behind the messages of the same or a higher priority. -/
def insert (m : α × Nat) : List (α × Nat) → List (α × Nat)
  | [] => [m]
  | m' :: rest => if m'.2 < m.2 then m :: m' :: rest else m' :: insert m rest

/-- A message that arrives now is notified; `blocked` if somebody waits in `mq_receive`. -/
def fires (q : Mqueue α) (blocked : Bool) : Bool := q.registered && q.msgs.isEmpty && !blocked

def send (q : Mqueue α) (m : α × Nat) (blocked : Bool) : Mqueue α :=
  ⟨insert m q.msgs, q.registered && !q.fires blocked⟩

/-- `mq_notify`, which fails with `EBUSY` when somebody is registered. -/
def notify (q : Mqueue α) : Option (Mqueue α) :=
  if q.registered then none else some { q with registered := true }

/-- `mq_receive`, which waits, or fails with `EAGAIN`, when the queue is empty. -/
def receive (q : Mqueue α) : Option ((α × Nat) × Mqueue α) :=
  match q.msgs with
  | [] => none
  | m :: rest => some (m, { q with msgs := rest })

variable {q q' : Mqueue α} {m : α × Nat} {blocked : Bool}

theorem insert_perm (m : α × Nat) (l : List (α × Nat)) : (insert m l).Perm (m :: l) := by
  induction l with
  | nil => exact .refl _
  | cons m' rest ih =>
    unfold insert
    split
    · exact .refl _
    · exact (ih.cons m').trans (.swap m m' rest)

/-- In which order the messages are received does not matter. -/
theorem insert_append (m : α × Nat) (l : List (α × Nat)) : (insert m l).Perm (l ++ [m]) :=
  (insert_perm m l).trans (List.perm_append_singleton m l).symm

@[simp] theorem insert_length (m : α × Nat) (l : List (α × Nat)) :
    (insert m l).length = l.length + 1 :=
  (insert_perm m l).length_eq

@[simp] theorem insert_ne_nil (m : α × Nat) (l : List (α × Nat)) : insert m l ≠ [] :=
  List.ne_nil_of_length_pos (by simp)

/-- Messages of one priority are received in the order in which they are sent. -/
theorem insert_last {l : List (α × Nat)} (h : ∀ m' ∈ l, m.2 ≤ m'.2) : insert m l = l ++ [m] := by
  induction l with
  | nil => rfl
  | cons m' rest ih =>
    obtain ⟨hm', hrest⟩ := List.forall_mem_cons.mp h
    rw [insert, if_neg (by omega), ih hrest, List.cons_append]

@[simp] theorem send_msgs (q : Mqueue α) (m : α × Nat) (blocked : Bool) :
    (q.send m blocked).msgs = insert m q.msgs := rfl

theorem fires_iff :
    q.fires blocked = true ↔ q.registered = true ∧ q.msgs = [] ∧ blocked = false := by
  simp [fires, and_assoc]

theorem notify_some : q.notify = some q' ↔ q.registered = false ∧ q' = ⟨q.msgs, true⟩ := by
  unfold notify
  cases hq : q.registered with
  | true => simp
  | false => simp [eq_comm]

theorem notify_msgs (h : q.notify = some q') : q'.msgs = q.msgs := by
  rw [(notify_some.mp h).2]

theorem receive_some :
    q.receive = some (m, q') ↔ q.msgs = m :: q'.msgs ∧ q'.registered = q.registered := by
  obtain ⟨msgs, registered⟩ := q
  obtain ⟨msgs', registered'⟩ := q'
  cases msgs with
  | nil => simp [receive]
  | cons m' rest => simp [receive]; grind

theorem receive_none : q.receive = none ↔ q.msgs = [] := by
  obtain ⟨msgs, registered⟩ := q
  cases msgs <;> simp [receive]

/-! ## The registration

The registrations that are there or owed by who was notified: sending keeps their number, and
who registers again keeps it too. -/

theorem send_token (q : Mqueue α) (m : α × Nat) (blocked : Bool) (owed : Nat) :
    (q.send m blocked).registered.toNat + (owed + (q.fires blocked).toNat) =
      q.registered.toNat + owed := by
  unfold send
  dsimp only
  cases hfires : q.fires blocked with
  | true =>
    rw [(fires_iff.mp hfires).1]
    show 0 + (owed + 1) = 1 + owed
    omega
  | false => rw [Bool.not_false, Bool.and_true, Bool.toNat_false, Nat.add_zero]

theorem notify_token (h : q.notify = some q') : q'.registered.toNat = q.registered.toNat + 1 := by
  obtain ⟨hreg, rfl⟩ := notify_some.mp h
  rw [hreg]
  rfl

theorem notify_ok (h : q.registered.toNat = 0) : q.notify = some ⟨q.msgs, true⟩ := by
  refine notify_some.mpr ⟨?_, rfl⟩
  cases hreg : q.registered with
  | true => rw [hreg] at h; cases h
  | false => rfl

theorem registered_of_token (h : q.registered.toNat + 0 = 1) : q.registered = true := by
  cases hreg : q.registered with
  | true => rfl
  | false => rw [hreg] at h; cases h

end Mqueue

end Ops.Posix
