import Ops.Calc.Wakeup

/-!
# Requests that end the server

A callback stores up to 8192 bytes in 20, divides by what it is given, and exits when its reply
cannot be sent. It goes on after a request that does none of this, and after no other
(`goes_on_iff`).
-/

namespace Ops.Calc

open Posix

variable {w : World} {s t : State} {op : Op} {m : List Byte} {prio : Nat} {f : Frame}
variable {rest : List (List Byte × Nat)} {q : Mqueue (List Byte)}

theorem next_notify (hs : s.serves) (hpos : 0 < (s.desk op).notifying)
    (hq : (s.desk op).queue.notify = some q) : (servers w).next s (.notify op) =
      some (s.setDesk op { s.desk op with
        queue := q
        notifying := (s.desk op).notifying - 1
        receiving := (s.desk op).receiving + 1 }) := by
  unfold servers State.next State.notify
  simp only [if_pos hs, if_pos hpos, hq]

theorem next_receive (hs : s.serves) (hpos : 0 < (s.desk op).receiving)
    (hq : (s.desk op).queue.receive = some ((m, prio), q)) : (servers w).next s (.receive op) =
      some { s.setDesk op { s.desk op with
          queue := q
          receiving := (s.desk op).receiving - 1
          answering := (s.desk op).answering ++ [m] } with
        status := if fits m then s.status else .smashed } := by
  unfold servers State.next State.receive
  simp only [if_pos hs, if_pos hpos, hq, Option.map_some]

theorem next_answer (hs : s.serves) {k : Nat} (hk : (s.desk op).answering[k]? = some m) :
    (servers w).next s (.answer op k f) = some (s.finish op k m (answer op w f m)) := by
  unfold servers State.next State.answer
  simp only [if_pos hs, hk, Option.map_some]

theorem next_stopped (hs : ¬ s.serves) (act : Act) : (servers w).next s act = none := by
  unfold servers State.next
  simp only [if_neg hs]

def State.calls (s : State) (op : Op) (f : Frame) : List Act :=
  [.notify op, .receive op, .answer op (s.desk op).answering.length f]

/-- The server runs, the queue is registered, and the request is answered. -/
def GoesOn (s t : State) (op : Op) (m : List Byte) (rest : List (List Byte × Nat)) : Prop :=
  t.serves ∧ (t.desk op).queue = ⟨rest, true⟩ ∧
    (t.desk op).answered = (s.desk op).answered ++ [m]

theorem received_iff (hs : s.serves) (hpos : 0 < (s.desk op).receiving)
    (hq : (s.desk op).queue.receive = some ((m, prio), q)) :
    (∃ t, (servers w).exec s [.receive op, .answer op (s.desk op).answering.length f] = some t ∧
      t.serves ∧ (t.desk op).queue = q ∧ (t.desk op).answered = (s.desk op).answered ++ [m]) ↔
      fits m ∧ Answerable op w f m := by
  rw [LTS.exec_cons (next_receive (w := w) hs hpos hq)]
  generalize hu : ({ s.setDesk op { s.desk op with
      queue := q
      receiving := (s.desk op).receiving - 1
      answering := (s.desk op).answering ++ [m] } with
    status := if fits m then s.status else .smashed } : State) = u
  have hdesk : u.desk op = { s.desk op with
      queue := q
      receiving := (s.desk op).receiving - 1
      answering := (s.desk op).answering ++ [m] } := by
    rw [← hu]
    exact Function.update_self ..
  have hmain : u.main = s.main := by rw [← hu]; rfl
  have hstatus : u.status = if fits m then s.status else .smashed := by rw [← hu]
  by_cases hfits : fits m
  · rw [if_pos hfits] at hstatus
    have hus : u.serves := ⟨hstatus.trans hs.1, hmain ▸ hs.2⟩
    have hk : (u.desk op).answering[(s.desk op).answering.length]? = some m := by
      rw [hdesk]
      exact List.getElem?_concat_length
    rw [LTS.exec_cons (next_answer (w := w) (f := f) hus hk), and_iff_right hfits, ← answer_iff]
    cases hanswer : answer op w f m with
    | answers pids sent =>
      refine ⟨fun _ => ⟨pids, sent, rfl⟩, fun _ => ⟨_, rfl, hus, ?_, ?_⟩⟩
      · show (Function.update u.desk op _ op).queue = q
        rw [Function.update_self, hdesk]
      · show (Function.update u.desk op _ op).answered = _
        rw [Function.update_self, hdesk]
    | exits =>
      refine ⟨?_, nofun⟩
      rintro ⟨t, ht, hserves, -⟩
      cases ht
      cases hserves.1
    | traps =>
      refine ⟨?_, nofun⟩
      rintro ⟨t, ht, hserves, -⟩
      cases ht
      cases hserves.1
  · rw [if_neg hfits] at hstatus
    have hstopped : ¬ u.serves := fun hserves => by cases hstatus.symm.trans hserves.1
    refine ⟨?_, fun h => absurd h.1 hfits⟩
    rintro ⟨t, ht, -⟩
    obtain ⟨v, hv, -⟩ := LTS.exec_cons_some.mp ht
    rw [next_stopped hstopped] at hv
    cases hv

/-- **Requests that end the server**: after the callback of a request, whatever its bytes are, the
server goes on if and only if the message has at most 20 bytes, its operands do not trap, and the
reply can be sent to the queue that it names. -/
theorem goes_on_iff (hs : s.serves) (hpos : 0 < (s.desk op).notifying)
    (hreg : (s.desk op).queue.registered = false) (hmsgs : (s.desk op).queue.msgs = (m, prio) :: rest) :
    (∃ t, (servers w).exec s (s.calls op f) = some t ∧ GoesOn s t op m rest) ↔
      fits m ∧ Answerable op w f m := by
  have hnotify := next_notify (w := w) hs hpos (Mqueue.notify_some.mpr ⟨hreg, rfl⟩)
  unfold State.calls
  rw [LTS.exec_cons hnotify]
  generalize hu : s.setDesk op _ = u
  have hdesk : u.desk op = { s.desk op with
      queue := ⟨(s.desk op).queue.msgs, true⟩
      notifying := (s.desk op).notifying - 1
      receiving := (s.desk op).receiving + 1 } := by
    rw [← hu]
    exact Function.update_self ..
  have hus : u.serves := by
    rw [← hu]
    exact hs
  have hreceive : (u.desk op).queue.receive = some ((m, prio), ⟨rest, true⟩) := by
    rw [hdesk]
    exact Mqueue.receive_some.mpr ⟨hmsgs, rfl⟩
  have hureceiving : 0 < (u.desk op).receiving := by
    rw [hdesk]
    exact Nat.succ_pos _
  have hanswering : (u.desk op).answering = (s.desk op).answering := by rw [hdesk]
  have hanswered : (u.desk op).answered = (s.desk op).answered := by rw [hdesk]
  have hreceived := received_iff (w := w) (f := f) hus hureceiving hreceive
  rwa [hanswering, hanswered] at hreceived

def oneZero : List Byte := bytes "1 0 7".toList ++ [0]

/-- The first request arrives, and its callback is notified. -/
def arrives (op : Op) (m : List Byte) : Option State :=
  (servers someWorld).exec start (registers ++ [.request op m false])

theorem goes_on_one : ∃ s, arrives .sum oneTwo = some s ∧
    ((∃ t, (servers someWorld).exec s (s.calls .sum someFrame) = some t ∧
      GoesOn s t .sum oneTwo []) ↔ fits oneTwo ∧ Answerable .sum someWorld someFrame oneTwo) := by
  have hrun : (arrives .sum oneTwo).map (fun s => ((s.status, s.main),
      (s.desk .sum).notifying, (s.desk .sum).queue)) =
      some ((.running, .loop), 1, ⟨[(oneTwo, 0)], false⟩) := by decide +kernel
  obtain ⟨s, hs, heq⟩ := Option.map_eq_some_iff.mp hrun
  simp only [Prod.mk.injEq] at heq
  obtain ⟨⟨hstatus, hmain⟩, hnotifying, hqueue⟩ := heq
  exact ⟨s, hs, goes_on_iff ⟨hstatus, by rw [hmain]; nofun⟩ (by rw [hnotifying]; decide)
    (by rw [hqueue]) (by rw [hqueue])⟩

/-- **A request that ends the server**: the remainder of a division by zero. -/
theorem ended_by_request : ∃ s, (servers someWorld).Reach s ∧ s.status = .trapped := by
  have hrun : ((servers someWorld).exec start
      (registers ++ .request .modulo oneZero false :: callback .modulo)).map (·.status) =
      some .trapped := by decide +kernel
  obtain ⟨s, hs, hstatus⟩ := Option.map_eq_some_iff.mp hrun
  exact ⟨s, LTS.Reach.exec (.init rfl) hs, hstatus⟩

end Ops.Calc
