import Ops.Lib.Bytes
import Ops.Lib.Scan

/-!
# A request of the calculator (`task_programs/server.c`)

What a callback does with the message that it has received: it is put into 20 bytes,
scanned, computed and answered. `Frame` is what the callback does not decide: what the memory
holds before, and whether its reply can be sent.
-/

namespace Ops.Calc

def chars (text : List Byte) : List Char := text.map fun b => Char.ofNat b.toNat

def bytes (text : List Char) : List Byte := text.map fun c => UInt8.ofNat c.toNat

/-- `"%d %d %d"` -/
def messageFormat : List Directive := [.int, .blank, .int, .blank, .int]

/-- The three queues, by what is asked of them. -/
inductive Op where
  | sum
  | modulo
  | division
  deriving DecidableEq, Repr

/-- `msg.a + msg.b`, in two's complement. -/
def notificationFunction (a b : Int) : Option Int := some (add32 a b)

def traps (a b : Int) : Prop := b = 0 ∨ a = -2 ^ 31 ∧ b = -1

instance (a b : Int) : Decidable (traps a b) := inferInstanceAs (Decidable (_ ∨ _ ∧ _))

/-- `msg.a % msg.b` -/
def notifacationModulo (a b : Int) : Option Int := if traps a b then none else some (Int.tmod a b)

/-- `msg.a / msg.b` -/
def notificationDivision (a b : Int) : Option Int := if traps a b then none else some (Int.tdiv a b)

/-- The arithmetic of the callback of a queue. -/
def Op.compute : Op → Int → Int → Option Int
  | .sum => notificationFunction
  | .modulo => notifacationModulo
  | .division => notificationDivision

/-- What stands in `message` and behind it, in `msg` and in the block that `malloc` gives. `sends`
is whether `mq_open` and `mq_send` succeed. -/
structure Frame where
  stack : List Byte
  a : Int
  b : Int
  heap : List Byte
  sends : Bool

/-- The process id of the server. -/
structure World where
  server : Int

/-- `msg.a`, `msg.b` and `pids` after `sscanf`. -/
def operands (w : World) (f : Frame) (message : List Byte) : Int × Int × Int :=
  match scan messageFormat (chars (upToNul (blit f.stack 0 message))) with
  | [] => (f.a, f.b, w.server)
  | [a] => (storeInt a, f.b, w.server)
  | [a, b] => (storeInt a, storeInt b, w.server)
  | a :: b :: pids :: _ => (storeInt a, storeInt b, storeInt pids)

/-- The `sizeof(msg) + 1` bytes that are sent of `sum_str`. -/
def reply (f : Frame) (sum : Int) : List Byte :=
  (blit f.heap 0 (bytes (decimalInt sum) ++ [0])).take 9

/-- How a callback ends: it answers, or the server ends. -/
inductive Outcome where
  | answers (pids : Int) (sent : List Byte)
  | exits
  | traps
  deriving DecidableEq, Repr

/-- What a callback does after `mq_receive`. A queue that is not opened makes `mq_send` fail too. -/
def answer (op : Op) (w : World) (f : Frame) (message : List Byte) : Outcome :=
  let (a, b, pids) := operands w f message
  match op.compute a b with
  | none => .traps
  | some sum => if f.sends then .answers pids (reply f sum) else .exits

/-- `message` has 20 bytes, and `mq_receive` may store 8192. -/
def fits (message : List Byte) : Prop := message.length ≤ 20

instance (message : List Byte) : Decidable (fits message) :=
  inferInstanceAs (Decidable (_ ≤ _))

theorem compute_none {op : Op} {a b : Int} : op.compute a b = none ↔ op ≠ .sum ∧ traps a b := by
  cases op with
  | sum => simp [Op.compute, notificationFunction]
  | modulo => simp [Op.compute, notifacationModulo]
  | division => simp [Op.compute, notificationDivision]

/-- The operands are good, and the reply can be sent. -/
def Answerable (op : Op) (w : World) (f : Frame) (message : List Byte) : Prop :=
  (op = .sum ∨ ¬ traps (operands w f message).1 (operands w f message).2.1) ∧
    f.sends = true

theorem answer_iff {op : Op} {w : World} {f : Frame} {message : List Byte} :
    (∃ pids sent, answer op w f message = .answers pids sent) ↔ Answerable op w f message := by
  unfold answer Answerable
  obtain ⟨a, b, pids⟩ := operands w f message
  dsimp only
  cases hc : op.compute a b with
  | none =>
    obtain ⟨hne, htraps⟩ := compute_none.mp hc
    simp [hne, htraps]
  | some sum =>
    have hgood : op = .sum ∨ ¬ traps a b := by
      by_contra hbad
      rw [compute_none.mpr ⟨fun h => hbad (.inl h), by_contra fun h => hbad (.inr h)⟩] at hc
      cases hc
    cases hsends : f.sends with
    | false => simp
    | true => simp [hgood]

end Ops.Calc
