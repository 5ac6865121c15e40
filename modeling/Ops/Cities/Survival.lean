import Ops.Cities.Sane

/-!
# Clients that the server survives

`ERR` ends the server at a connection to the local socket, at one that is gone when it is to be
accepted, at a client that resets its connection, and at an entry of `clients` that was never
stored. As long as nothing of this comes, the server goes on, whoever connects and leaves
(`surviving`).
-/

namespace Ops.Cities

open Posix

variable {κ : Type} [DecidableEq κ] {a : Args} {s t : State κ} {act : Act κ}

/-! ## What should hold -/

structure Surviving (a : Args) (s : State κ) : Prop where
  running : s.pc ≠ .ended
  events : ∀ evs, s.pc = .events evs → ∀ fd ∈ evs,
    fd = a.local_listen_socket ∨ fd = a.tcp_listen_socket ∨ fd ∈ s.registered
  amount : s.clients_amount ≤ MAX_CLIENTS

def Pc.event : Pc → List Int
  | .events (fd :: _) => [fd]
  | _ => []

/-- The event is not of the local socket; a connection is there to be accepted, unless it is ignored
anyway; no call fails, but a `write` with `EPIPE`; and what is written to is open. -/
def Harmless (a : Args) (s : State κ) : Act κ → Prop
  | .accept o => o ≠ .error ∧ (s.clients_amount = MAX_CLIENTS ∨ o ≠ .eagain)
  | .read rs => (∀ r ∈ rs, r.fails = false) ∧ a.local_listen_socket ∉ s.pc.event
  | .write ws => (∀ w ∈ ws, w.fails = true → w = .error .epipe) ∧
    ∀ fd ∈ s.pc.target.toList, s.net.isOpen fd = true
  | .peer _ | .pwait _ => True

instance : ∀ act, Decidable (Harmless a s act)
  | .accept _ | .read _ => inferInstanceAs (Decidable (_ ∧ _))
  | .write ws => inferInstanceAs (Decidable ((∀ w ∈ ws, _) ∧ ∀ fd ∈ s.pc.target.toList, _))
  | .peer _ | .pwait _ => .isTrue trivial

/-! ## Steps -/

/-- A client is greeted on its descriptor. -/
structure Alive (a : Args) (s : State κ) : Prop where
  sane : Sane a s
  greet : ∀ evs, s.pc ≠ .greet (-1) evs

omit [DecidableEq κ] in
theorem Alive.not_fatal (h : Alive a s) (hharmless : Harmless a s act) : ¬ Fatal a s act := by
  intro hfatal
  cases act with
  | accept o => exact hharmless.1 hfatal
  | read rs =>
    rcases hfatal with ⟨e, he⟩ | ⟨evs, hpc⟩ | ⟨fd, evs, hpc, hne, hfd⟩
    · cases hharmless.1 _ he
    · exact h.greet evs hpc
    · have hknown := h.sane.pc
      rw [hpc] at hknown
      have hlocal : fd ≠ a.local_listen_socket := by
        rintro rfl
        exact hharmless.2 (by rw [hpc]; exact List.mem_cons_self)
      rcases h.sane.epoll fd (hknown List.mem_cons_self) with heq | heq | hmem
      · exact hlocal heq
      · exact hne heq
      · exact hfd hmem
  | write ws =>
    obtain ⟨fd, htarget, hclosed | ⟨e, hne, he⟩⟩ := hfatal
    · have hopen := hharmless.2 fd (by rw [htarget]; exact List.mem_cons_self)
      cases hclosed.symm.trans hopen
    · have hepipe := hharmless.1 _ he rfl
      cases hepipe
      exact hne rfl
  | peer | pwait => exact hfatal

theorem Alive.moves (h : Alive a s) (hharmless : Harmless a s act) (hm : Moves a s act t) :
    Alive a t := by
  have hsane : t.pc ≠ .ended → Sane a t := (h.sane.moves hm).resolve_left
  have hprocess : ∀ (u : State κ) (cs : Int) (received : List Byte) (evs : List Int),
      (u.process cs received evs).pc ≠ .ended ∧
        ∀ evs', (u.process cs received evs).pc ≠ .greet (-1) evs' := by
    intro u cs received evs
    obtain ⟨pc, hgoes, heq⟩ := process_shape u cs received evs
    rw [heq]
    cases hgoes with
    | events | broadcast => exact ⟨by simp, by simp⟩
  cases hm with
  | peer =>
    refine ⟨hsane fun hended => ?_, h.greet⟩
    have hpc := h.sane.pc
    rw [show s.pc = .ended from hended] at hpc
    exact hpc
  | pwait | surplus | greeted => exact ⟨hsane (by simp [State.goto]), by simp [State.goto]⟩
  | accepted hpc hroom hback hpos =>
    refine ⟨hsane (by simp [State.goto]), fun evs hgreet => ?_⟩
    cases hgreet
    omega
  | vanished hpc hroom => exact absurd rfl (hharmless.2.resolve_left hroom)
  | message =>
    refine ⟨hsane ?_, fun evs => ?_⟩
    · show (if _ then _ else _ : Pc) ≠ .ended
      split
      · simp
      · simp
    · show (if _ then _ else _ : Pc) ≠ .greet (-1) evs
      split
      · simp
      · simp
  | welcomed | echoed => exact ⟨hsane (hprocess _ _ _ _).1, (hprocess _ _ _ _).2⟩
  | @sent cs fd received todo evs ws net =>
    rcases broadcast_cases { s.logged with net := net } cs received evs todo with
      ⟨-, heq⟩ | ⟨skipped, fd', rest, -, -, -, -, heq⟩
    · rw [heq] at hsane ⊢
      exact ⟨hsane (by simp [State.goto]), by simp [State.goto]⟩
    · rw [heq] at hsane ⊢
      exact ⟨hsane (by simp [State.goto]), by simp [State.goto]⟩
  | ended hfatal => exact absurd hfatal (h.not_fatal hharmless)

omit [DecidableEq κ] in
theorem Alive.survives (h : Alive a s) : Surviving a s := by
  have hknown := h.sane.pc
  refine ⟨fun hended => ?_, fun evs hpc fd hfd => ?_, h.sane.amount⟩
  · rw [hended] at hknown
    exact hknown
  · rw [hpc] at hknown
    exact h.sane.epoll fd (hknown hfd)

/-- **A server that goes on**: as long as every step meets the condition, the server does not end,
every event is of a listening socket or of a registered client, and at most four are registered. -/
theorem surviving (h : (server κ a).ReachIf (Harmless a) s) : Surviving a s := by
  refine (h.inv (I := Alive a) (fun u hu => ⟨.init hu, ?_⟩) ?_).survives
  · rw [hu.pc]
    simp
  · exact fun _ _ _ _ hi hc hn => hi.moves hc (next_moves hi.sane hn)

/-- A client connects and leaves, while another one stays. -/
theorem surviving_two : ∃ s, (server Bool sockets).execIf (Harmless sockets) (.idle Bool)
    [.peer (.connect 4 true), .peer (.send true [112, 48, 49, 46]), .pwait [4], .accept (.conn 5),
      .read [.data 3], .write [.wrote 3], .peer (.connect 4 false),
      .peer (.send false [103, 48, 49, 46]), .peer (.close true), .pwait [4, 5], .accept (.conn 6),
      .read [.data 3], .write [.wrote 3], .write [.error .epipe], .read [.data 0]] = some s ∧
    s.registered = [5, 6] ∧ Surviving sockets s := by
  have hrun : ((server Bool sockets).execIf (Harmless sockets) (.idle Bool)
      [.peer (.connect 4 true), .peer (.send true [112, 48, 49, 46]), .pwait [4], .accept (.conn 5),
        .read [.data 3], .write [.wrote 3], .peer (.connect 4 false),
        .peer (.send false [103, 48, 49, 46]), .peer (.close true), .pwait [4, 5],
        .accept (.conn 6), .read [.data 3], .write [.wrote 3], .write [.error .epipe],
        .read [.data 0]]).map (·.registered) = some [5, 6] := by decide +kernel
  obtain ⟨s, hs, hregistered⟩ := Option.map_eq_some_iff.mp hrun
  exact ⟨s, hs, hregistered, surviving (LTS.ReachIf.execIf (.init idle_start) hs)⟩

/-- **A connection to the local socket** ends the server, and so does one that is gone before
`accept`, where the system has accept(2)'s documented case. -/
theorem not_surviving :
    (∃ s, (server Bool sockets).exec (.idle Bool)
      [.peer (.connect 3 true), .pwait [3], .read []] = some s ∧ ¬ Surviving sockets s) ∧
    ∃ s, (server Bool sockets).exec (.idle Bool)
      [.peer (.connect 4 true), .pwait [4], .peer (.abort 4 true), .accept .eagain, .read []] = some s ∧
        ¬ Surviving sockets s := by
  constructor
  · have hrun : ((server Bool sockets).exec (.idle Bool)
        [.peer (.connect 3 true), .pwait [3], .read []]).map (·.pc) = some .ended := by
      decide +kernel
    obtain ⟨s, hs, hpc⟩ := Option.map_eq_some_iff.mp hrun
    exact ⟨s, hs, fun h => h.running hpc⟩
  · have hrun : ((server Bool sockets).exec (.idle Bool)
        [.peer (.connect 4 true), .pwait [4], .peer (.abort 4 true), .accept .eagain, .read []]).map
        (·.pc) = some .ended := by decide +kernel
    obtain ⟨s, hs, hpc⟩ := Option.map_eq_some_iff.mp hrun
    exact ⟨s, hs, fun h => h.running hpc⟩

end Ops.Cities
