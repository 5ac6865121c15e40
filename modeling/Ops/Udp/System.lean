import Ops.Lib.Logs
import Ops.Lib.Transition
import Ops.Udp.Client
import Ops.Udp.Receiver

/-!
# Clients, the server and the network between them

Every address runs one client on its file. `up` and `down` hold every datagram
ever sent: a delivery takes any of them and leaves it there, so the network may
lose, duplicate, delay and reorder, and cannot alter. `log` is what the server
has printed, with the address it printed it for.
-/

namespace Ops.Udp

open Ops.Posix

variable {α : Type} [DecidableEq α]

structure Net (α : Type) where
  server : Server α
  client : α → Client
  up : List (α × List Byte)
  down : List (α × List Byte)
  log : List (α × Part)

inductive Act (α : Type) where
  | read (a : α) (rs : List ReadOutcome)
  | send (a : α)
  | recv (a : α) (d : List Byte)
  | timeout (a : α)
  | serve (a : α) (d : List Byte)

def Net.setClient (s : Net α) (a : α) (c : Client) : Net α :=
  { s with client := Function.update s.client a c }

def Net.served (s : Net α) (a : α) (r : Reaction) (server : Server α) : Net α :=
  { s with
    server := server
    down := s.down ++ r.reply.toList.map fun d => (a, d)
    log := s.log ++ r.printed.toList.map fun p => (a, p) }

def Net.next (s : Net α) : Act α → Option (Net α)
  | .read a rs =>
    if (s.client a).pc = .read then ((s.client a).readChunk rs).map (s.setClient a) else none
  | .send a =>
    if (s.client a).pc = .send then
      some { s.setClient a (s.client a).send with up := s.up ++ [(a, (s.client a).buf)] }
    else none
  | .recv a d =>
    if (s.client a).pc = .wait ∧ (a, d) ∈ s.down then some (s.setClient a ((s.client a).recv d))
    else none
  | .timeout a =>
    if (s.client a).pc = .wait then some (s.setClient a (s.client a).timeout) else none
  | .serve a d =>
    if (a, d) ∈ s.up then
      let x := s.server.receive a d .sent
      x.2.map (s.served a x.1)
    else none

/-- `doServer` at its first round. -/
def Server.Start (s : Server α) : Prop := s.buf.length = maxBuf ∧ ∀ i, (s.con i).free = true

/-- The system in which the client at `a` sends the file `files a`. -/
def system (files : α → List Byte) : LTS (Net α) (Act α) where
  Init s := s.server.Start ∧ (∀ a, (s.client a).Start (files a)) ∧ s.up = [] ∧ s.down = [] ∧
    s.log = []
  next := Net.next

/-! ## Frames -/

section Frames

variable (s : Net α) (a : α) (c : Client)

@[simp] theorem setClient_server : (s.setClient a c).server = s.server := rfl
@[simp] theorem setClient_up : (s.setClient a c).up = s.up := rfl
@[simp] theorem setClient_down : (s.setClient a c).down = s.down := rfl
@[simp] theorem setClient_log : (s.setClient a c).log = s.log := rfl
@[simp] theorem setClient_self : (s.setClient a c).client a = c := by simp [Net.setClient]

theorem setClient_ne {a b : α} (h : b ≠ a) : (s.setClient a c).client b = s.client b := by
  simp [Net.setClient, h]

end Frames

/-- **What a step does**: a client reads a chunk, sends, or looks at its second
buffer again; or the server handles a datagram that was sent. -/
theorem next_cases {s t : Net α} {act : Act α} (h : s.next act = some t) :
    (∃ a rs c, (s.client a).pc = .read ∧ (s.client a).readChunk rs = some c ∧ t = s.setClient a c) ∨
    (∃ a, (s.client a).pc = .send ∧
      t = { s.setClient a (s.client a).send with up := s.up ++ [(a, (s.client a).buf)] }) ∨
    (∃ a buf2, (s.client a).pc = .wait ∧
      (buf2 = (s.client a).buf2 ∨ ∃ d, (a, d) ∈ s.down ∧ buf2 = blit (s.client a).buf2 0 d) ∧
      t = s.setClient a { s.client a with buf2 := buf2 }.confirm) ∨
    (∃ a d r server, act = .serve a d ∧ (a, d) ∈ s.up ∧
      s.server.receive a d .sent = (r, some server) ∧ t = s.served a r server) := by
  cases act with
  | read a rs =>
    simp only [Net.next] at h
    split at h
    · rename_i hpc
      obtain ⟨c, hc, rfl⟩ := Option.map_eq_some_iff.mp h
      exact .inl ⟨a, rs, c, hpc, hc, rfl⟩
    · cases h
  | send a =>
    simp only [Net.next] at h
    split at h
    · rename_i hpc
      cases h
      exact .inr (.inl ⟨a, hpc, rfl⟩)
    · cases h
  | recv a d =>
    simp only [Net.next] at h
    split at h
    · rename_i hpc
      cases h
      exact .inr (.inr (.inl ⟨a, _, hpc.1, .inr ⟨d, hpc.2, rfl⟩, rfl⟩))
    · cases h
  | timeout a =>
    simp only [Net.next] at h
    split at h
    · rename_i hpc
      cases h
      exact .inr (.inr (.inl ⟨a, _, hpc, .inl rfl, rfl⟩))
    · cases h
  | serve a d =>
    simp only [Net.next] at h
    split at h
    · rename_i hmem
      obtain ⟨server, hs, rfl⟩ := Option.map_eq_some_iff.mp h
      exact .inr (.inr (.inr ⟨a, d, _, server, rfl, hmem, Prod.ext rfl hs, rfl⟩))
    · cases h

end Ops.Udp
