import Ops.Posix.Connections

/-!
# Edge-triggered `epoll`

With `EPOLLET` an arrival is reported once: `armed` are the descriptors with one that has not
been reported. An arrival arms its descriptor, `EPOLL_CTL_ADD` one that is ready, and `epoll_wait`
disarms what it reports.
-/

namespace Ops.Posix

/-- The descriptors of an `epoll` and those with an arrival. -/
structure Epoll where
  watched : List Int
  armed : Int → Bool

namespace Epoll

variable {κ : Type} [DecidableEq κ] {n n' : Net κ} {e : Epoll} {fd : Int} {evs : List Int}

def arrives (n : Net κ) (fd : Int) : Peer κ → Bool
  | .connect l _ => decide (fd = l)
  | .send c bytes => !bytes.isEmpty && decide (n.fds fd = some c)
  | .close c | .reset c => decide (n.fds fd = some c)
  | .abort _ _ => false

def arrive (e : Epoll) (n : Net κ) (p : Peer κ) : Epoll :=
  { e with armed := fun fd => e.armed fd || arrives n fd p }

/-- `EPOLL_CTL_ADD` fails for what is not open and for what is watched already. -/
def add (e : Epoll) (n : Net κ) (fd : Int) : Option Epoll :=
  if n.isOpen fd = false ∨ fd ∈ e.watched then none
  else some ⟨fd :: e.watched, Function.update e.armed fd (n.ready fd)⟩

/-- What can be reported. -/
def pending (e : Epoll) (n : Net κ) (fd : Int) : Bool := e.armed fd && n.ready fd

def wait (e : Epoll) (n : Net κ) (max : Nat) (evs : List Int) : Option Epoll :=
  if n.batch e.watched max evs ∧ ∀ fd ∈ evs, e.armed fd = true then
    some { e with armed := fun fd => e.armed fd && !decide (fd ∈ evs) }
  else none

def Blocks (e : Epoll) (n : Net κ) : Prop := ∀ fd ∈ e.watched, e.pending n fd = false

instance : Decidable (e.Blocks n) := inferInstanceAs (Decidable (∀ fd ∈ e.watched, _))

/-! ## What is reported -/

omit [DecidableEq κ] in
theorem wait_spec {e' : Epoll} {max : Nat} (h : e.wait n max evs = some e') :
    e'.watched = e.watched ∧ (∀ fd ∈ evs, fd ∈ e.watched) ∧
      ∀ fd, e.armed fd = true → e'.armed fd = true ∨ fd ∈ evs := by
  unfold wait at h
  split at h
  · rename_i hbatch
    cases h
    obtain ⟨-, -, -, hevs⟩ := Net.batch_iff.mp hbatch.1
    refine ⟨rfl, fun fd hfd => (hevs fd hfd).1, fun fd harmed => ?_⟩
    by_cases hfd : fd ∈ evs
    · exact .inr hfd
    · simp [harmed, hfd]
  · cases h

theorem arrives_backlog {p : Peer κ} {l : Int} (h : n.peer p = some n') (hl : n'.backlog l ≠ []) :
    n.backlog l ≠ [] ∨ arrives n l p = true := by
  unfold Net.peer at h
  cases p with
  | connect l' c =>
    simp only at h
    split at h
    · cases h
    · cases h
      by_cases heq : l = l'
      · exact .inr (by simp [arrives, heq])
      · refine .inl ?_
        simpa only [Function.update_of_ne heq] using hl
  | send c bytes | close c | reset c =>
    simp only at h
    split at h
    · cases h
      exact .inl hl
    · cases h
  | abort l' c =>
    simp only at h
    split at h
    · cases h
      refine .inl fun hempty => hl ?_
      refine List.eq_nil_iff_forall_not_mem.mpr fun d hd => ?_
      have hold := Net.mem_fewer (fun _ => List.mem_of_mem_erase) hd
      rw [hempty] at hold
      cases hold
    · cases h

theorem arrives_inbox {p : Peer κ} {c : κ} (h : n.peer p = some n') (hfd : n.fds fd = some c)
    (hunread : (n'.conn c).inbox ≠ []) : (n.conn c).inbox ≠ [] ∨ arrives n fd p = true := by
  have hold : ∀ (d : κ) (k : Conn), k.inbox = (n.conn d).inbox →
      ((n.setConn d k).conn c).inbox ≠ [] → (n.conn c).inbox ≠ [] := by
    intro d k hk hne
    by_cases hcd : c = d
    · subst hcd
      rwa [Net.setConn_self, hk] at hne
    · rwa [Net.setConn_of_ne _ hcd] at hne
  unfold Net.peer at h
  cases p with
  | connect l d =>
    simp only at h
    split at h
    · cases h
    · cases h
      refine .inl (hold d _ ?_ hunread)
      rfl
  | send d bytes =>
    simp only at h
    split at h
    · cases h
      by_cases hcd : c = d
      · subst hcd
        cases bytes with
        | nil =>
          rw [Net.setConn_self] at hunread
          simp only [List.append_nil] at hunread
          exact .inl hunread
        | cons b bytes => exact .inr (by simp [arrives, hfd])
      · rw [Net.setConn_of_ne _ hcd] at hunread
        exact .inl hunread
    · cases h
  | close d | reset d =>
    simp only at h
    split at h
    · cases h
      refine .inl (hold d _ ?_ hunread)
      rfl
    · cases h
  | abort l d =>
    simp only at h
    split at h
    · cases h
      exact .inl hunread
    · cases h

omit [DecidableEq κ] in
theorem Blocks.queue {l : Int} (h : e.Blocks n) (hl : l ∈ e.watched) (hfd : n.fds l = none)
    (harmed : n.backlog l ≠ [] → e.armed l = true) : n.backlog l = [] := by
  by_contra hne
  have hpending := h l hl
  unfold pending Net.ready at hpending
  rw [hfd, harmed hne] at hpending
  simp [hne] at hpending

omit [DecidableEq κ] in
theorem Blocks.inbox {c : κ} (h : e.Blocks n) (hmem : fd ∈ e.watched) (hfd : n.fds fd = some c)
    (harmed : (n.conn c).inbox ≠ [] → e.armed fd = true) : (n.conn c).inbox = [] := by
  by_contra hne
  have hpending := h fd hmem
  unfold pending Net.ready at hpending
  rw [hfd, harmed hne] at hpending
  simp [hne] at hpending

end Epoll

end Ops.Posix
