import Ops.Calc.Wire
import Ops.Posix.Bulk

/-!
# The socket calculator (`1_server.c`, `1_client_local.c`, `1_client_tcp.c`)

One request and its reply. `data` is five big-endian words: the operands, the result, the
operation and the status. The two clients differ in where the operands stand in `argv`.
`Calls` are the outcomes of the system calls of the four transfers.
-/

namespace Ops.SocketCalc

open Posix
open Calc (chars)

/-- A `char` as a number, and the `char` with the low bits of a number. -/
def charInt (c : Byte) : Int := c.toBitVec.toInt

def intChar (v : Int) : Byte := UInt8.ofBitVec (BitVec.ofInt 8 v)

/-! ## The server -/

/-- `'+'`, `'-'`, `'*'` and `'/'` -/
def plus : Byte := 43

def minus : Byte := 45

def times : Byte := 42

def slash : Byte := 47

/-- `result` and `status`. The machine traps on `INT_MIN / -1`. -/
def compute (operation : Byte) (op1 op2 : Int) : Option (Int × Int) :=
  if operation = plus then some (add32 op1 op2, 1)
  else if operation = minus then some (sub32 op1 op2, 1)
  else if operation = times then some (mul32 op1 op2, 1)
  else if operation = slash then
    if op2 = 0 then some (-1, 0)
    else if op1 = -2 ^ 31 ∧ op2 = -1 then none
    else some (Int.tdiv op1 op2, 1)
  else some (-1, 0)

/-- Of `int32_t[5]`. -/
def dataSize : Nat := 20

/-- The word `data[i]`, in host order. -/
def word (data : List Byte) (i : Nat) : Int := ntohl (data.drop (4 * i))

def calculate (data : List Byte) : Option (List Byte) :=
  (compute (intChar (word data 3)) (word data 0) (word data 1)).map fun r =>
    blit (blit data 16 (htonl r.2)) 8 (htonl r.1)

/-! ## The clients -/

def atoi (text : CString) : Int :=
  match scan [.int] (chars text.bytes) with
  | [] => 0
  | v :: _ => storeInt v

/-- `text[0]` -/
def CString.first (text : CString) : Byte := text.bytes.headD 0

def emptyText : CString := ⟨[], by simp⟩

inductive Client where
  | overLocal
  | overTcp
  deriving DecidableEq, Repr

def Client.operands : Client → Nat
  | .overLocal => 2
  | .overTcp => 3

/-- `argv[4]` or `argv[5]` is the last argument. -/
def Client.argc (k : Client) : Nat := k.operands + 3

structure Request where
  op1 : Int
  op2 : Int
  operation : Byte

/-- What the client is asked for. -/
def Client.request (k : Client) (argv : List CString) : Request where
  op1 := atoi (argv.getD k.operands emptyText)
  op2 := atoi (argv.getD (k.operands + 1) emptyText)
  operation := CString.first (argv.getD (k.operands + 2) emptyText)

def Client.prepare_request (k : Client) (argv : List CString) : List Byte :=
  htonl (k.request argv).op1 ++ (htonl (k.request argv).op2 ++ (htonl 0 ++
    (htonl (charInt (k.request argv).operation) ++ htonl 1)))

/-- `"%d %c %d = %d\n"` -/
def equation (op1 : Int) (operation : Byte) (op2 result : Int) : List Char :=
  decimalInt op1 ++ (' ' :: Char.ofNat operation.toNat :: ' ' :: (decimalInt op2 ++
    (' ' :: '=' :: ' ' :: (decimalInt result ++ ['\n']))))

def impossible : List Char := "Operation impossible\n".toList

def print_answer (data : List Byte) : List Char :=
  if word data 4 ≠ 0 then equation (word data 0) (intChar (word data 3)) (word data 1) (word data 2)
  else impossible

/-! ## One exchange -/

structure Calls where
  request : List WriteOutcome
  received : List ReadOutcome
  reply : List WriteOutcome
  answer : List ReadOutcome

/-- No call fails. -/
structure Calls.Undisturbed (c : Calls) : Prop where
  request : ∀ e, .error e ∉ c.request
  received : ∀ e, .error e ∉ c.received
  reply : ∀ e, .error e ∉ c.reply
  answer : ∀ e, .error e ∉ c.answer

/-- How the exchange ends: `trapped` ends the server, `failed` is an `ERR`. -/
inductive Outcome where
  | printed (text : List Char)
  | trapped
  | failed
  deriving DecidableEq, Repr

/-- The client after the server has closed the connection. -/
def Client.finish (data sent : List Byte) (c : Calls) : Option Outcome :=
  match bulkRead c.answer ⟨sent, true⟩ data 0 0 dataSize with
  | none => none
  | some ⟨.error _, _, _⟩ => some .failed
  | some ⟨.ok n, data, _⟩ => some (if n < dataSize then .failed else .printed (print_answer data))

/-- `doServer` with one client; `sent` are the bytes of the request. -/
def serve (data sent stack : List Byte) (c : Calls) : Option Outcome :=
  match bulkRead c.received ⟨sent, false⟩ stack 0 0 dataSize with
  | none => none
  | some ⟨.error _, _, _⟩ => some .failed
  | some ⟨.ok size, buf, _⟩ =>
    if size = dataSize then
      match calculate buf with
      | none => some .trapped
      | some buf =>
        match bulkWrite c.reply buf 0 dataSize [] with
        | none => none
        | some (.error _, _) => some .failed
        | some (.ok _, reply) => Client.finish data reply c
    else Client.finish data [] c

/-- `main` of a client, and the server; `stack` is what `data` of the server holds before. -/
def Client.exchange (k : Client) (argv : List CString) (stack : List Byte) (c : Calls) :
    Option Outcome :=
  match bulkWrite c.request (k.prepare_request argv) 0 dataSize [] with
  | none => none
  | some (.error _, _) => some .failed
  | some (.ok _, sent) => serve (k.prepare_request argv) sent stack c

end Ops.SocketCalc
