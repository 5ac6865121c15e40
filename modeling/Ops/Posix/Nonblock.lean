import Ops.Posix.Connections

/-!
# A socket that does not block

`recv` of a socket with `O_NONBLOCK` is a `read` that fails with `EAGAIN` where it would wait.
`Receives` is what it can do on a descriptor that was reported to be ready.
-/

namespace Ops.Posix

inductive RecvOutcome where
  | done
  | again
  | failed
  deriving DecidableEq, Repr

namespace Net

variable {κ : Type} [DecidableEq κ]

/-- `recv (fd, buf, count, 0)`. -/
def recv (n : Net κ) (fd : Int) (count : Nat) :
    RecvOutcome → Option (Except Errno (List Byte) × Net κ)
  | .done => n.read fd count false
  | .failed => n.read fd count true
  | .again =>
    if (n.fds fd).isSome && !n.ready fd then some (.error .eagain, n) else none

/-- What `recv` of at most `count` bytes has done on the connection `c`, which is ready. -/
inductive Receives (n : Net κ) (c : κ) (count : Nat) :
    RecvOutcome → Except Errno (List Byte) → Net κ → Prop where
  | bytes : (n.conn c).inbox ≠ [] → Receives n c count .done
      (.ok ((n.conn c).inbox.take count)) (n.took c ((n.conn c).inbox.drop count))
  | left : (n.conn c).inbox = [] → (n.conn c).eof = true → Receives n c count .done (.ok []) n
  | reset : (n.conn c).reset = true → Receives n c count .failed (.error .other) n

variable {n n' : Net κ} {fd : Int} {c : κ} {count : Nat} {o : RecvOutcome}
variable {r : Except Errno (List Byte)}

omit [DecidableEq κ] in
theorem ready_iff (hfd : n.fds fd = some c) : n.ready fd = true ↔
    (n.conn c).inbox ≠ [] ∨ (n.conn c).eof = true ∨ (n.conn c).reset = true := by
  simp [ready, hfd, or_assoc]

omit [DecidableEq κ] in
theorem listen_ready (hfd : n.fds fd = none) : n.ready fd = true ↔ n.backlog fd ≠ [] := by
  simp [ready, hfd]

omit [DecidableEq κ] in
theorem Grows.ready (h : Grows n n') (hfd : n.fds fd = some c) (hready : n.ready fd = true) :
    n'.ready fd = true := by
  refine (ready_iff (h.fds ▸ hfd)).mpr ?_
  rcases (ready_iff hfd).mp hready with hinbox | heof | hreset
  · exact .inl fun hnil => hinbox (List.prefix_nil.mp (hnil ▸ h.inbox c))
  · exact .inr (.inl (h.eof c heof))
  · exact .inr (.inr (h.reset c hreset))

theorem recv_receives (hfd : n.fds fd = some c) (hready : n.ready fd = true) (hcount : 0 < count)
    (h : n.recv fd count o = some (r, n')) : Receives n c count o r n' := by
  cases o with
  | again =>
    simp only [recv, hready, Bool.not_true, Bool.and_false, Bool.false_eq_true, ite_false] at h
    cases h
  | failed =>
    simp only [recv, read, hfd, ite_true] at h
    split at h
    · rename_i hreset
      cases h
      exact .reset hreset
    · cases h
  | done =>
    simp only [recv, read, hfd, Bool.false_eq_true, ite_false] at h
    split at h
    · rename_i hempty
      split at h
      · rename_i hend
        cases h
        have hinbox := (List.take_eq_nil_iff.mp hempty).resolve_left (by omega)
        exact .left hinbox (hend.resolve_right (by omega))
      · cases h
    · rename_i hbytes
      cases h
      exact .bytes fun hnil => hbytes (by rw [hnil, List.take_nil])

/-- A ready connection has something to say, if a reset is also an end. -/
theorem recv_done (hfd : n.fds fd = some c) (hready : n.ready fd = true)
    (hresets : (n.conn c).reset = true → (n.conn c).eof = true) (hcount : 0 < count) :
    ∃ r, n.recv fd count .done = some r := by
  simp only [recv, read, hfd, Bool.false_eq_true, ite_false]
  by_cases hempty : (n.conn c).inbox.take count = []
  · have hinbox := (List.take_eq_nil_iff.mp hempty).resolve_left (by omega)
    have heof : (n.conn c).eof = true := by
      rcases (ready_iff hfd).mp hready with h | h | h
      · exact absurd hinbox h
      · exact h
      · exact hresets h
    exact ⟨_, by rw [if_pos hempty, if_pos (.inl heof)]⟩
  · exact ⟨_, if_neg hempty⟩

theorem write_conn {bytes : List Byte} {error e : Option Errno} (hfd : n.fds fd = some c)
    (h : n.write fd bytes error = some (e, n')) :
    e = error ∧ (error = none ∧ n' = n.wrote c bytes ∨ error ≠ none ∧ n' = n) := by
  cases error with
  | none =>
    simp only [write, hfd] at h
    cases h
    exact ⟨rfl, .inl ⟨rfl, rfl⟩⟩
  | some e =>
    simp only [write, hfd] at h
    split at h
    · cases h
      exact ⟨rfl, .inr ⟨by simp, rfl⟩⟩
    · cases h

theorem peer_resets {p : Peer κ} (h : n.peer p = some n')
    (hresets : ∀ c, (n.conn c).reset = true → (n.conn c).eof = true) (c : κ)
    (hc : (n'.conn c).reset = true) : (n'.conn c).eof = true := by
  have hset : ∀ {d : κ} {k : Conn}, (k.reset = true → k.eof = true) →
      ((n.setConn d k).conn c).reset = true → ((n.setConn d k).conn c).eof = true := by
    intro d k hk
    by_cases hcd : c = d
    · subst hcd
      rwa [setConn_self]
    · rw [setConn_of_ne n hcd]
      exact hresets c
  unfold peer at h
  cases p with
  | connect l d =>
    simp only at h
    split at h
    · cases h
    · cases h
      exact hset (hresets d) hc
  | send d bytes =>
    simp only at h
    split at h
    · cases h
      exact hset (hresets d) hc
    · cases h
  | close d | reset d =>
    simp only at h
    split at h
    · cases h
      exact hset (fun _ => rfl) hc
    · cases h
  | abort l d =>
    simp only at h
    split at h
    · cases h
      exact hresets c hc
    · cases h

end Net

end Ops.Posix
