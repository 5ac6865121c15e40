import Ops.Lib.Transition
import Ops.Udp.Server

/-!
# The connection table in every run

`doServer` on any sequence of datagrams, with any outcome of each `sendto`. Entries are taken by
`findIndex` and released where the last chunk is printed or `sendto` fails, and a released entry
keeps its address; still no address is in use twice (`connection_table`).
-/

namespace Ops.Udp

variable {α : Type} [DecidableEq α] {con : Con α} {s t : Server α} {addr : α}

/-- A datagram, its sender, and what the `sendto` does if there is one. -/
structure Arrival (α : Type) where
  addr : α
  datagram : List Byte
  send : SendOutcome

/-- `doServer`, with all entries free; the rest of the memory is arbitrary. -/
def server (α : Type) [DecidableEq α] : LTS (Server α) (Arrival α) where
  Init s := ∀ i, (s.con i).free = true
  next s a := (s.receive a.addr a.datagram a.send).2

/-- The entries in use have different addresses. -/
def Distinct (con : Con α) : Prop :=
  ∀ i j, i ≠ j → (con i).free = false → (con j).free = false → (con i).addr ≠ (con j).addr

structure Finds (con : Con α) (addr : α) : Prop where
  /-- The entry that holds the address, with nothing changed. -/
  held : ∀ i, Holds con i addr → findIndex addr con = (some i, con)
  /-- Else a free entry is taken, and it alone. -/
  taken : (∀ i, ¬ Holds con i addr) → (∃ i, (con i).free = true) → ∃ i, (con i).free = true ∧
    findIndex addr con = (some i, Function.update con i ⟨false, 0, addr⟩)
  /-- Else, and only then, there is none, with nothing changed. -/
  absent : (findIndex addr con).1 = none ↔ (∀ i, ¬ Holds con i addr) ∧ ∀ i, (con i).free = false
  unchanged : (findIndex addr con).1 = none → (findIndex addr con).2 = con

omit [DecidableEq α] in
theorem Unique.distinct (h : Unique con) : Distinct con := fun i j hne hi hj haddr =>
  hne (h i j _ ⟨hi, rfl⟩ ⟨hj, haddr.symm⟩)

omit [DecidableEq α] in
theorem unique_of_free (h : ∀ i, (con i).free = true) : Unique con := fun i _ _ hi _ => by
  have hfree := h i
  rw [hi.1] at hfree
  cases hfree

theorem Unique.finds (h : Unique con) (addr : α) : Finds con addr := by
  rcases findIndex_cases addr con with ⟨i, hi, hf⟩ | ⟨hnot, i, hi, hf⟩ | ⟨hnot, hfull, hf⟩
  · refine ⟨fun j hj => ?_, fun hnot => absurd hi (hnot i), ?_, ?_⟩
    · rw [hf, h i j addr hi hj]
    · rw [hf]
      exact iff_of_false (by rintro ⟨⟩) fun hno => hno.1 i hi
    · rw [hf]
      exact fun _ => rfl
  · refine ⟨fun j hj => absurd hj (hnot j), fun _ _ => ⟨i, hi, hf⟩, ?_, ?_⟩
    · rw [hf]
      refine iff_of_false (by rintro ⟨⟩) fun hno => ?_
      rw [hno.2 i] at hi
      cases hi
    · rw [hf]
      rintro ⟨⟩
  · refine ⟨fun j hj => absurd hj (hnot j), fun _ ⟨i, hi⟩ => ?_, ?_, ?_⟩
    · rw [hfull i] at hi
      cases hi
    · rw [hf]
      exact iff_of_true rfl ⟨hnot, hfull⟩
    · rw [hf]
      exact fun _ => rfl

/-! ## Steps -/

/-- `findIndex` keeps the addresses apart, and gives an entry of the address. -/
theorem findIndex_unique (h : Unique con) (addr : α) :
    Unique (findIndex addr con).2 ∧
      ∀ i, (findIndex addr con).1 = some i → Holds (findIndex addr con).2 i addr := by
  rcases findIndex_cases addr con with ⟨i, hi, hf⟩ | ⟨hnot, i, hi, hf⟩ | ⟨hnot, hfull, hf⟩
  · rw [hf]
    refine ⟨h, ?_⟩
    rintro _ ⟨⟩
    exact hi
  · rw [hf]
    refine ⟨(update_entry h (c := ⟨false, 0, addr⟩) rfl (.inr ⟨hi, hnot⟩)).1, ?_⟩
    rintro _ ⟨⟩
    exact holds_update.mpr (.inl ⟨rfl, rfl, rfl⟩)
  · rw [hf]
    exact ⟨h, by rintro _ ⟨⟩⟩

omit [DecidableEq α] in
/-- Neither counting nor releasing an entry changes its address. -/
theorem chunkStep_addr {buf : List Byte} {c c' : Connection α} {printed : Option Part}
    (h : chunkStep buf c = some (printed, c')) : c'.addr = c.addr := by
  simp only [chunkStep] at h
  split at h
  · cases h
  · split at h
    · cases h
      rfl
    · cases h
      rfl

theorem serveAt_unique {buf : List Byte} {i : Fin maxAddr} {send : SendOutcome} (h : Unique con)
    (hi : Holds con i addr) (ht : (serveAt buf con i send).2 = some t) : Unique t.con := by
  unfold serveAt at ht
  split at ht
  · cases ht
    exact h
  · rename_i printed c hstep
    have haddr : c.addr = addr := (chunkStep_addr hstep).trans hi.2
    split at ht
    · cases ht
      exact (update_entry h haddr (.inl hi)).1
    · cases ht
      simp only [Function.update_idem]
      exact (update_entry h (c := { c with free := true }) haddr (.inl hi)).1
    · cases ht

theorem receive_unique {a : Arrival α} (h : Unique s.con) (hn : (server α).next s a = some t) :
    Unique t.con := by
  obtain ⟨hunique, hholds⟩ := findIndex_unique h a.addr
  have hrecv : (s.receive a.addr a.datagram a.send).2 = some t := hn
  unfold Server.receive at hrecv
  split at hrecv
  · rename_i con hf
    cases hrecv
    rw [hf] at hunique
    exact hunique
  · rename_i i con hf
    rw [hf] at hunique hholds
    exact serveAt_unique hunique (hholds i rfl) hrecv

/-- **The connection table.** In every reachable state, also between the lookup of an address and
its answer. -/
theorem connection_table (α : Type) [DecidableEq α] (s : Server α) (hr : (server α).Reach s) :
    Distinct s.con ∧ ∀ addr, Finds s.con addr ∧ Distinct (findIndex addr s.con).2 := by
  have hunique : Unique s.con :=
    LTS.Reach.inv (I := fun s => Unique s.con) (fun _ hs => unique_of_free hs)
      (fun _ _ _ _ hi hn => receive_unique hi hn) hr
  exact ⟨hunique.distinct, fun addr =>
    ⟨hunique.finds addr, (findIndex_unique hunique addr).1.distinct⟩⟩

/-- The empty file of one address takes an entry and releases it; a second address takes that entry,
and the first one comes back to another. -/
theorem connection_table_two : ∃ s : Server Bool, (server Bool).Reach s ∧ Holds s.con 4 false ∧
    Holds s.con 3 true ∧ findIndex false s.con = (some 4, s.con) := by
  let file : List Byte := [0, 0, 0, 1, 0, 0, 0, 1]
  let chunk : List Byte := [0, 0, 0, 1, 0, 0, 0, 0]
  have hrun : ∃ s, (server Bool).exec ⟨List.replicate maxBuf 0, fun _ => ⟨true, 0, true⟩⟩
      [⟨true, file, .sent⟩, ⟨false, chunk, .sent⟩, ⟨true, chunk, .sent⟩] = some s ∧
      Holds s.con 4 false ∧ Holds s.con 3 true := ⟨_, rfl, ⟨rfl, rfl⟩, ⟨rfl, rfl⟩⟩
  obtain ⟨s, he, hfalse, htrue⟩ := hrun
  have hr : (server Bool).Reach s := LTS.Reach.exec (.init fun _ => rfl) he
  exact ⟨s, hr, hfalse, htrue, ((connection_table Bool s hr).2 false).1.held 4 hfalse⟩

end Ops.Udp
