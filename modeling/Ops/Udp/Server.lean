import Ops.Lib.Bytes
import Mathlib.Data.List.FinRange
import Mathlib.Logic.Function.Basic

/-!
# The UDP file server (`2_server.c`)

`findIndex` and the body of `doServer`'s loop. The connection table is an array
of `maxAddr` entries; an address is any type with decidable equality (the
program compares `sockaddr_in`s byte by byte). `receive` handles one datagram:
it reads everything it uses from the one buffer `buf`, of which `recvfrom` has
overwritten as many bytes as arrived. Counters are `int32_t`s and wrap.
-/

namespace Ops.Udp

abbrev maxBuf : Nat := 576
abbrev maxAddr : Nat := 5

/-- Two `int32_t` fields precede the payload. -/
abbrev offset : Nat := 8

structure Connection (α : Type) where
  free : Bool
  chunkNo : Int
  addr : α
  deriving DecidableEq

abbrev Con (α : Type) : Type := Fin maxAddr → Connection α

variable {α : Type} [DecidableEq α]

/-- The loop of `findIndex` over the entries `is`: the last free entry it passes
(`empty`) and the entry it stops at (`pos`). -/
def scan (addr : α) (con : Con α) : List (Fin maxAddr) → Option (Fin maxAddr) →
    Option (Fin maxAddr) × Option (Fin maxAddr)
  | [], empty => (empty, none)
  | i :: is, empty =>
    if (con i).free then scan addr con is (some i)
    else if addr = (con i).addr then (empty, some i)
    else scan addr con is empty

/-- `findIndex`; the index `-1` is `none`. -/
def findIndex (addr : α) (con : Con α) : Option (Fin maxAddr) × Con α :=
  match scan addr con (List.finRange maxAddr) none with
  | (some empty, none) => (some empty, Function.update con empty ⟨false, 0, addr⟩)
  | (_, pos) => (pos, con)

/-- What one `printf` is given: which of the two formats, the chunk number, and
the memory behind its `%s`. -/
structure Part where
  last : Bool
  chunkNo : Int
  text : List Byte
  deriving DecidableEq

/-- What `sendto` does once it is not interrupted. -/
inductive SendOutcome where
  | sent
  | epipe
  | error
  deriving DecidableEq, Repr

/-- What one round of the loop prints and sends. -/
structure Reaction where
  printed : Option Part
  reply : Option (List Byte)
  deriving DecidableEq

structure Server (α : Type) where
  buf : List Byte
  con : Con α

/-- The comparison of the chunk in `buf` with its entry: `none` is `continue`. -/
def chunkStep (buf : List Byte) (c : Connection α) : Option (Option Part × Connection α) :=
  let chunkNo := ntohl buf
  let last := ntohl (buf.drop 4)
  if chunkNo > add32 c.chunkNo 1 then none
  else if chunkNo = add32 c.chunkNo 1 then
    let free := if last ≠ 0 then true else c.free
    some (some ⟨last ≠ 0, chunkNo, buf.drop offset⟩, ⟨free, add32 c.chunkNo 1, c.addr⟩)
  else some (none, c)

/-- The loop body once `findIndex` has given entry `i`. No next state: the server
has ended in `ERR`. -/
def serveAt (buf : List Byte) (con : Con α) (i : Fin maxAddr) (send : SendOutcome) :
    Reaction × Option (Server α) :=
  match chunkStep buf (con i) with
  | none => (⟨none, none⟩, some ⟨buf, con⟩)
  | some (printed, c) =>
    let con := Function.update con i c
    match send with
    | .sent => (⟨printed, some buf⟩, some ⟨buf, con⟩)
    | .epipe => (⟨printed, none⟩, some ⟨buf, Function.update con i { c with free := true }⟩)
    | .error => (⟨printed, none⟩, none)

/-- The body of `doServer`'s loop on the datagram `d` from `addr`. -/
def Server.receive (s : Server α) (addr : α) (d : List Byte) (send : SendOutcome) :
    Reaction × Option (Server α) :=
  let buf := blit s.buf 0 d
  match findIndex addr s.con with
  | (none, con) => (⟨none, none⟩, some ⟨buf, con⟩)
  | (some i, con) => serveAt buf con i send

/-! ## The connection table -/

/-- Entry `i` is in use for `addr`. -/
def Holds (con : Con α) (i : Fin maxAddr) (addr : α) : Prop :=
  (con i).free = false ∧ (con i).addr = addr

/-- No address has two entries. -/
def Unique (con : Con α) : Prop :=
  ∀ i j addr, Holds con i addr → Holds con j addr → i = j

def counter (con : Con α) (addr : α) : Option Int :=
  (scan addr con (List.finRange maxAddr) none).2.map fun i => (con i).chunkNo

theorem scan_pos {addr : α} {con : Con α} {is : List (Fin maxAddr)} {e : Option (Fin maxAddr)}
    {i : Fin maxAddr} (h : (scan addr con is e).2 = some i) : Holds con i addr := by
  induction is generalizing e with
  | nil => cases h
  | cons j is ih =>
    simp only [scan] at h
    split at h
    · exact ih h
    · rename_i hj
      split at h
      · rename_i ha
        cases h
        exact ⟨by simpa using hj, ha.symm⟩
      · exact ih h

theorem scan_none {addr : α} {con : Con α} {is : List (Fin maxAddr)} {e : Option (Fin maxAddr)}
    (h : (scan addr con is e).2 = none) : ∀ i ∈ is, ¬ Holds con i addr := by
  induction is generalizing e with
  | nil => intro i hi; cases hi
  | cons j is ih =>
    simp only [scan] at h
    intro i hi
    split at h
    · rename_i hj
      rcases List.mem_cons.mp hi with rfl | hi
      · intro hh; rw [hh.1] at hj; cases hj
      · exact ih h i hi
    · split at h
      · cases h
      · rename_i ha
        rcases List.mem_cons.mp hi with rfl | hi
        · intro hh; exact ha hh.2.symm
        · exact ih h i hi

theorem scan_empty {addr : α} {con : Con α} {is : List (Fin maxAddr)} {e : Option (Fin maxAddr)}
    {i : Fin maxAddr} (h : scan addr con is e = (some i, none)) :
    (con i).free = true ∨ e = some i := by
  induction is generalizing e with
  | nil => simp only [scan, Prod.mk.injEq, and_true] at h; exact .inr h
  | cons j is ih =>
    simp only [scan] at h
    split at h
    · rename_i hj
      rcases ih h with h1 | h1
      · exact .inl h1
      · cases h1; exact .inl hj
    · split at h
      · cases h
      · exact ih h

theorem scan_full {addr : α} {con : Con α} {is : List (Fin maxAddr)} {e : Option (Fin maxAddr)}
    (h : scan addr con is e = (none, none)) : e = none ∧ ∀ i ∈ is, (con i).free = false := by
  induction is generalizing e with
  | nil =>
    simp only [scan, Prod.mk.injEq, and_true] at h
    exact ⟨h, fun i hi => by cases hi⟩
  | cons j is ih =>
    simp only [scan] at h
    split at h
    · cases (ih h).1
    · rename_i hj
      split at h
      · cases h
      · obtain ⟨h1, h2⟩ := ih h
        refine ⟨h1, fun i hi => ?_⟩
        rcases List.mem_cons.mp hi with rfl | hi
        · simpa using hj
        · exact h2 i hi

/-- **What `findIndex` does**: it finds the entry of `addr`, or takes a free one,
or there is none. -/
theorem findIndex_cases (addr : α) (con : Con α) :
    (∃ i, Holds con i addr ∧ findIndex addr con = (some i, con)) ∨
    ((∀ i, ¬ Holds con i addr) ∧ ∃ i, (con i).free = true ∧
      findIndex addr con = (some i, Function.update con i ⟨false, 0, addr⟩)) ∨
    ((∀ i, ¬ Holds con i addr) ∧ (∀ i, (con i).free = false) ∧
      findIndex addr con = (none, con)) := by
  unfold findIndex
  rcases hs : scan addr con (List.finRange maxAddr) none with ⟨_ | i, _ | j⟩
  · have hn := scan_none (congrArg Prod.snd hs)
    have hf := (scan_full hs).2
    exact .inr (.inr ⟨fun i => hn i (List.mem_finRange i), fun i => hf i (List.mem_finRange i), rfl⟩)
  · exact .inl ⟨j, scan_pos (congrArg Prod.snd hs), rfl⟩
  · have hn := scan_none (congrArg Prod.snd hs)
    exact .inr (.inl ⟨fun i => hn i (List.mem_finRange i), i,
      (scan_empty hs).resolve_right (by simp), rfl⟩)
  · exact .inl ⟨j, scan_pos (congrArg Prod.snd hs), rfl⟩

theorem counter_holds {con : Con α} (hu : Unique con) {i : Fin maxAddr} {addr : α}
    (h : Holds con i addr) : counter con addr = some (con i).chunkNo := by
  unfold counter
  cases hs : (scan addr con (List.finRange maxAddr) none).2 with
  | none => exact absurd h (scan_none hs i (List.mem_finRange i))
  | some j => rw [hu j i addr (scan_pos hs) h]; rfl

theorem counter_none {con : Con α} {addr : α} (h : ∀ i, ¬ Holds con i addr) :
    counter con addr = none := by
  unfold counter
  cases hs : (scan addr con (List.finRange maxAddr) none).2 with
  | none => rfl
  | some j => exact absurd (scan_pos hs) (h j)

theorem counter_eq_none_iff {con : Con α} {addr : α} :
    counter con addr = none ↔ ∀ i, ¬ Holds con i addr := by
  constructor
  · intro h i
    unfold counter at h
    rw [Option.map_eq_none_iff] at h
    exact scan_none h i (List.mem_finRange i)
  · exact counter_none

omit [DecidableEq α] in
theorem holds_update {con : Con α} {i j : Fin maxAddr} {c : Connection α} {b : α} :
    Holds (Function.update con i c) j b ↔
      (j = i ∧ c.free = false ∧ c.addr = b) ∨ (j ≠ i ∧ Holds con j b) := by
  by_cases h : j = i
  · subst h; simp [Holds]
  · simp [Holds, h]

/-- The table after an entry of `addr`, or a free one when `addr` has none, was
written for `addr`. -/
theorem update_entry {con : Con α} (hu : Unique con) {i : Fin maxAddr} {c : Connection α} {addr : α}
    (hc : c.addr = addr)
    (hi : Holds con i addr ∨ ((con i).free = true ∧ ∀ j, ¬ Holds con j addr)) :
    Unique (Function.update con i c) ∧
      counter (Function.update con i c) addr = (if c.free then none else some c.chunkNo) ∧
      ∀ b, b ≠ addr → counter (Function.update con i c) b = counter con b := by
  have hother : ∀ j, j ≠ i → ¬ Holds con j addr := by
    intro j hj hh
    rcases hi with h | ⟨-, h⟩
    · exact hj (hu j i addr hh h)
    · exact h j hh
  have hib : ∀ b, b ≠ addr → ¬ Holds con i b := by
    intro b hb hh
    rcases hi with h | ⟨h, -⟩
    · exact hb (hh.2.symm.trans h.2)
    · rw [hh.1] at h; cases h
  have huniq : Unique (Function.update con i c) := by
    intro j k b hj hk
    rw [holds_update] at hj hk
    rcases hj with ⟨rfl, -, hjb⟩ | ⟨hj, hjb⟩ <;> rcases hk with ⟨rfl, -, hkb⟩ | ⟨hk, hkb⟩
    · rfl
    · exact absurd (show Holds con k addr from hc ▸ hjb ▸ hkb) (hother k hk)
    · exact absurd (show Holds con j addr from hc ▸ hkb ▸ hjb) (hother j hj)
    · exact hu j k b hjb hkb
  refine ⟨huniq, ?_, fun b hb => ?_⟩
  · cases hf : c.free with
    | true =>
      refine counter_none fun j hj => ?_
      rcases holds_update.mp hj with ⟨-, h, -⟩ | ⟨h1, h2⟩
      · rw [hf] at h; cases h
      · exact hother j h1 h2
    | false =>
      rw [counter_holds huniq (holds_update.mpr (.inl ⟨rfl, hf, hc⟩))]
      simp
  · by_cases h : ∃ j, Holds con j b
    · obtain ⟨j, hj⟩ := h
      have hji : j ≠ i := fun e => hib b hb (e ▸ hj)
      rw [counter_holds hu hj, counter_holds huniq (holds_update.mpr (.inr ⟨hji, hj⟩)),
        Function.update_of_ne hji]
    · have hn := not_exists.mp h
      rw [counter_none hn, counter_none]
      intro j hj
      rcases holds_update.mp hj with ⟨-, -, h2⟩ | ⟨-, h2⟩
      · exact hb (h2.symm.trans hc)
      · exact hn j h2

end Ops.Udp
