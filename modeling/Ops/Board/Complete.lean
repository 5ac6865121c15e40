import Ops.Board.Process
import Ops.Lib.Update

/-!
# A complete board

A client that opens the segment before the server has initialised the mutex can read a
board size of 0, or lock a mutex that is all zeros. `usage` asks for `3 < N <= 30`, and
the check lets 31 to 99 pass, where the last cells lie outside the segment. With
clients that open the segment later, all is well up to the size that fits
(`complete_board_iff`).
-/

namespace Ops.Board

/-- The server has initialised the mutex. -/
def ServerPc.finished : ServerPc → Bool
  | .loop | .lock | .print _ | .unlock | .destroy | .unlink | .done => true
  | _ => false

/-- The server has stored the board size. -/
def ServerPc.wrote : ServerPc → Bool
  | .fill _ | .initMutex => true
  | q => q.finished

def ServerPc.cell : ServerPc → Option Nat
  | .fill i | .print i => some i
  | _ => none

def ClientPc.opened : ClientPc → Bool
  | .shmOpen | .failed => false
  | _ => true

/-- The next step of the client reads the size, locks or unlocks the mutex, reduces modulo
the size or accesses a cell, or it is between such steps. -/
def ClientPc.works : ClientPc → Bool
  | .shmOpen | .mmap | .done | .died | .failed => false
  | _ => true

def ClientPc.size : ClientPc → Option Nat
  | .lock n | .draw n | .target n | .readCell n _ | .credit n _ _ | .clear n _ | .unlock n => some n
  | _ => none

/-- What the next step of the client divides by. -/
def ClientPc.divisor : ClientPc → Option Nat
  | .target n => some n
  | _ => none

def ClientPc.cell : ClientPc → Option Nat
  | .readCell _ i | .credit _ i _ | .clear _ i => some i
  | _ => none

theorem ClientPc.works_opened {q : ClientPc} (h : q.works = true) : q.opened = true := by
  cases q <;> first | rfl | cases h

theorem ClientPc.divisor_size {q : ClientPc} {n : Nat} (h : q.divisor = some n) :
    q.size = some n := by
  cases q <;> first | exact h | cases h

theorem ServerPc.finished_wrote {q : ServerPc} (h : q.finished = true) : q.wrote = true := by
  cases q <;> first | rfl | cases h

variable {κ : Type} [DecidableEq κ] {N m : Nat} {s t : State κ} {act : Act κ} {c : κ}

/-- Who opens the segment finds a mutex that is initialised. -/
def Late (s : State κ) (act : Act κ) : Prop :=
  ∀ c ∈ act.proc, s.pc c = .shmOpen → s.named = true → s.server.finished = true

instance (s : State κ) (act : Act κ) : Decidable (Late s act) :=
  inferInstanceAs (Decidable (∀ c ∈ act.proc, _))

/-- The clients work on a board that is complete, and every cell is in the segment. -/
structure Complete (m : Nat) (s : State κ) : Prop where
  after : ∀ c, (s.pc c).works = true → s.server.finished = true
  divisor : ∀ c n, (s.pc c).divisor = some n → n ≠ 0
  client : ∀ c i, (s.pc c).cell = some i → cellOffset m i < SHM_SIZE
  server : ∀ i, s.server.cell = some i → cellOffset m i < SHM_SIZE

/-! ## Clients that open the segment late -/

structure Sound (N : Nat) (s : State κ) : Prop where
  wrote : s.server.wrote = true → s.nShared = N
  opened : ∀ c, (s.pc c).opened = true → s.server.finished = true
  size : ∀ c n, (s.pc c).size = some n → n = N
  client : ∀ c i, (s.pc c).cell = some i → i < N * N
  server : ∀ i, s.server.cell = some i → i < N * N

theorem nextCell_cell {i j : Nat} {body : Nat → ServerPc} {after : ServerPc}
    (hbody : ∀ k, (body k).cell = some k) (hafter : after.cell = none)
    (h : (nextCell N i body after).cell = some j) : j < N * N := by
  unfold nextCell at h
  split at h
  · rename_i hlt
    rw [hbody] at h
    exact Option.some.inj h ▸ hlt
  · rw [hafter] at h; cases h

omit [DecidableEq κ] in
theorem Sound.server_step (hs : Sound N s) {q : ServerPc} {named sized : Bool} {nShared : Nat}
    {board : Nat → Int} {m : Posix.Mutex (Option κ)} (hwrote : q.wrote = true → nShared = N)
    (hfinished : s.server.finished = true → q.finished = true)
    (hcell : ∀ i, q.cell = some i → i < N * N) :
    Sound N { s with
      server := q, named := named, sized := sized, nShared := nShared, board := board, mutex := m } :=
  ⟨hwrote, fun c hc => hfinished (hs.opened c hc), hs.size, hs.client, hcell⟩

theorem Sound.serve (hs : Sound N s) {outcome : Outcome} (h : s.serve N outcome = some t) :
    Sound N t := by
  have hfill : ∀ i j, (nextCell N i .fill .initMutex).cell = some j → j < N * N := fun i j hj =>
    nextCell_cell (fun _ => rfl) rfl hj
  have hprint : ∀ i j, (nextCell N i .print .unlock).cell = some j → j < N * N := fun i j hj =>
    nextCell_cell (fun _ => rfl) rfl hj
  have hloop : ∀ i, (nextCell N i .print .unlock).finished = true := fun i => by
    unfold nextCell; split <;> rfl
  have hearly : ∀ {q q' : ServerPc}, s.server = q → q.finished = false →
      s.server.finished = true → q'.finished = true := fun hq hf h => by rw [hq, hf] at h; cases h
  have hwrote : ∀ {q q' : ServerPc}, s.server = q → q.wrote = true → q'.wrote = true →
      s.nShared = N := fun hq hw _ => hs.wrote (by rw [hq, hw])
  unfold State.serve at h
  split at h
  · rename_i hq; cases h; exact hs.server_step nofun (hearly hq rfl) nofun
  · rename_i hq; cases h; exact hs.server_step nofun (hearly hq rfl) nofun
  · rename_i hq; cases h; exact hs.server_step nofun (hearly hq rfl) nofun
  · rename_i hq; cases h; exact hs.server_step nofun (hearly hq rfl) nofun
  · rename_i hq; cases h; exact hs.server_step nofun (hearly hq rfl) nofun
  · rename_i hq; cases h; exact hs.server_step nofun (hearly hq rfl) nofun
  · rename_i hq; cases h; exact hs.server_step (fun _ => rfl) (hearly hq rfl) (hfill 0)
  · rename_i i r hq
    cases h
    exact hs.server_step (hwrote hq rfl) (hearly hq rfl) (hfill (i + 1))
  · rename_i hq; cases h; exact hs.server_step (hwrote hq rfl) (fun _ => rfl) nofun
  · rename_i hq; cases h; exact hs.server_step (hwrote hq rfl) (fun _ => rfl) nofun
  · rename_i hq; cases h; exact hs.server_step (hwrote hq rfl) (fun _ => rfl) nofun
  · rename_i hq
    obtain ⟨m, -, rfl⟩ := Option.map_eq_some_iff.mp h
    exact hs.server_step (hwrote hq rfl) (fun _ => hloop 0) (hprint 0)
  · rename_i i hq
    cases h
    exact hs.server_step (hwrote hq rfl) (fun _ => hloop (i + 1)) (hprint (i + 1))
  · rename_i hq
    obtain ⟨m, -, rfl⟩ := Option.map_eq_some_iff.mp h
    exact hs.server_step (hwrote hq rfl) (fun _ => rfl) nofun
  · rename_i hq; cases h; exact hs.server_step (hwrote hq rfl) (fun _ => rfl) nofun
  · rename_i hq; cases h; exact hs.server_step (hwrote hq rfl) (fun _ => rfl) nofun
  · cases h

theorem Sound.client_step (hs : Sound N s) {q : ClientPc} (hpc : t.pc = Function.update s.pc c q)
    (hserver : t.server = s.server) (hn : t.nShared = s.nShared)
    (hopened : q.opened = true → s.server.finished = true)
    (hsize : ∀ n, q.size = some n → n = N) (hcell : ∀ i, q.cell = some i → i < N * N) :
    Sound N t := by
  refine ⟨fun hw => ?_, fun d hd => ?_, fun d n hd => ?_, fun d i hd => ?_, hserver ▸ hs.server⟩
  · rw [hn]; exact hs.wrote (hserver ▸ hw)
  · rw [hserver]
    rcases update_cases hpc hd with ⟨-, h⟩ | ⟨-, h⟩
    · exact hopened h
    · exact hs.opened d h
  · rcases update_cases hpc hd with ⟨-, h⟩ | ⟨-, h⟩
    · exact hsize n h
    · exact hs.size d n h
  · rcases update_cases hpc hd with ⟨-, h⟩ | ⟨-, h⟩
    · exact hcell i h
    · exact hs.client d i h

/-- The indexes that `rand() % N` gives are those of the board. -/
theorem index_lt {x y : Nat} (h : N ≠ 0) : N * (y % N) + x % N < N * N := by
  have hx := Nat.mod_lt x (Nat.pos_of_ne_zero h)
  have hy := Nat.mod_lt y (Nat.pos_of_ne_zero h)
  calc N * (y % N) + x % N < N * (y % N) + N := Nat.add_lt_add_left hx _
    _ = N * (y % N + 1) := (Nat.mul_succ ..).symm
    _ ≤ N * N := Nat.mul_le_mul_left N hy

theorem Sound.play (hs : Sound N s) {outcome : Outcome}
    (hlate : s.pc c = .shmOpen → s.named = true → s.server.finished = true)
    (h : s.play c outcome = some t) : Sound N t := by
  have hopen : ∀ {q q' : ClientPc}, s.pc c = q → q.opened = true → q'.opened = true →
      s.server.finished = true := fun hq ho _ => hs.opened c (by rw [hq, ho])
  have hsize : ∀ {q : ClientPc} {n : Nat}, s.pc c = q → q.size = some n →
      ∀ k, some n = some k → k = N := fun hq hn k hk => hs.size c k (by rw [hq, hn, hk])
  unfold State.play at h
  split at h
  · rename_i hq
    cases h
    split
    · rename_i hnamed
      exact hs.client_step rfl rfl rfl (fun _ => hlate hq hnamed) nofun nofun
    · exact hs.client_step rfl rfl rfl nofun nofun nofun
  · rename_i hq; cases h; exact hs.client_step rfl rfl rfl nofun nofun nofun
  · rename_i hq; cases h; exact hs.client_step rfl rfl rfl (hopen hq rfl) nofun nofun
  · rename_i hq; cases h; exact hs.client_step rfl rfl rfl nofun nofun nofun
  · rename_i hq
    split at h
    · cases h
      have hfinished : s.server.finished = true := hs.opened c (by rw [hq]; rfl)
      have hn := hs.wrote (ServerPc.finished_wrote hfinished)
      exact hs.client_step rfl rfl rfl (hopen hq rfl) (fun k hk => Option.some.inj hk ▸ hn) nofun
    · cases h
  · rename_i n hq
    obtain ⟨m, -, rfl⟩ := Option.map_eq_some_iff.mp h
    exact hs.client_step rfl rfl rfl (hopen hq rfl) (hsize hq rfl) nofun
  · rename_i n r hq
    split at h
    · cases h; exact hs.client_step rfl rfl rfl (hopen hq rfl) nofun nofun
    · cases h; exact hs.client_step rfl rfl rfl (hopen hq rfl) (hsize hq rfl) nofun
  · rename_i n x y hq
    split at h
    · cases h
    · rename_i hne
      cases h
      obtain rfl : n = N := hs.size c n (by rw [hq]; rfl)
      exact hs.client_step rfl rfl rfl (hopen hq rfl) (hsize hq rfl)
        fun i hi => Option.some.inj hi ▸ index_lt hne
  · rename_i n i hq
    have hcell : ∀ j, some i = some j → j < N * N := fun j hj =>
      hs.client c j (by rw [hq]; exact hj)
    cases h
    split
    · exact hs.client_step rfl rfl rfl (hopen hq rfl) nofun nofun
    · exact hs.client_step rfl rfl rfl (hopen hq rfl) (hsize hq rfl) hcell
  · rename_i n i p hq
    cases h
    exact hs.client_step rfl rfl rfl (hopen hq rfl) (hsize hq rfl)
      fun j hj => hs.client c j (by rw [hq]; exact hj)
  · rename_i n i hq; cases h; exact hs.client_step rfl rfl rfl (hopen hq rfl) (hsize hq rfl) nofun
  · rename_i n hq
    obtain ⟨m, -, rfl⟩ := Option.map_eq_some_iff.mp h
    exact hs.client_step rfl rfl rfl (hopen hq rfl) (hsize hq rfl) nofun
  · rename_i hq
    obtain ⟨m, -, rfl⟩ := Option.map_eq_some_iff.mp h
    exact hs.client_step rfl rfl rfl (hopen hq rfl) nofun nofun
  · cases h

omit [DecidableEq κ] in
theorem fresh_sound : Sound N (fresh κ) :=
  ⟨nofun, fun _ => nofun, fun _ _ => nofun, fun _ _ => nofun, fun _ => nofun⟩

theorem sound_reach (h : (starts κ N).ReachIf Late s) : Sound N s := by
  refine h.inv (I := Sound N) (fun s hs => hs ▸ fresh_sound) fun s act t _ hs hl hn => ?_
  unfold starts State.next at hn
  dsimp only at hn
  split at hn
  · exact hs.serve hn
  · rename_i c hc
    exact hs.play (hl c hc) hn

/-! ## The size that fits -/

theorem fills_reach {i : Nat} (h : i < N * N) :
    ∃ s : State κ, (starts κ N).ReachIf Late s ∧ s.server = .fill i := by
  have hserver : ∀ (s : State κ) (o : Outcome), Late s ⟨none, o⟩ := fun _ _ _ hc => by cases hc
  induction i with
  | zero =>
    have hfirst : nextCell N 0 .fill .initMutex = .fill 0 := if_pos h
    refine ⟨_, .next (a := ⟨none, .ok⟩) (.next (a := ⟨none, .ok⟩) (.next (a := ⟨none, .ok⟩)
      (.next (a := ⟨none, .ok⟩) (.init rfl) (hserver _ _) rfl) (hserver _ _) rfl) (hserver _ _) rfl)
      (hserver _ _) rfl, hfirst⟩
  | succ i ih =>
    obtain ⟨s, hr, hs⟩ := ih (Nat.lt_of_succ_lt h)
    have hnext : nextCell N (i + 1) .fill .initMutex = .fill (i + 1) := if_pos h
    have hstep : (starts κ N).next s ⟨none, .rand 0⟩ = some { s with
        server := nextCell N (i + 1) .fill .initMutex
        board := Function.update s.board i (1 + 0 % 9) } := by
      simp only [starts, State.next, State.serve, hs]
      rfl
    exact ⟨_, .next hr (hserver _ _) hstep, hnext⟩

/-- **A complete board**, for clients that open the segment after the server's start-up: in
every state a client only works when the server has finished, never reduces modulo 0, and
every cell that is accessed lies in the segment, if and only if the mutex, the size byte and
the `N * N` cells fit in. -/
theorem complete_board_iff (hN : 3 ≤ N ∧ N < 100) :
    (∀ s : State κ, (starts κ N).ReachIf Late s → Complete m s) ↔ m + 1 + N * N ≤ SHM_SIZE := by
  have hpos : 0 < N * N := Nat.mul_pos (by omega) (by omega)
  refine ⟨fun h => ?_, fun hfit s hr => ?_⟩
  · obtain ⟨s, hr, hs⟩ := fills_reach (κ := κ) (N := N) (i := N * N - 1) (by omega)
    have hlast := (h s hr).server (N * N - 1) (by rw [hs]; rfl)
    unfold cellOffset at hlast
    omega
  · have hs := sound_reach hr
    have hcell : ∀ i, i < N * N → cellOffset m i < SHM_SIZE := fun i hi => by
      unfold cellOffset
      omega
    refine ⟨fun c hc => hs.opened c (ClientPc.works_opened hc), fun c n hn hzero => ?_,
      fun c i hi => hcell i (hs.client c i hi), fun i hi => hcell i (hs.server i hi)⟩
    have hsize := hs.size c n (ClientPc.divisor_size hn)
    omega

/-- The documented sizes fit behind a mutex of 40 bytes, and 31; 32 does not. -/
theorem complete_board_sizes :
    (∀ s : State Bool, (starts Bool 31).ReachIf Late s → Complete 40 s) ∧
      ¬ ∀ s : State Bool, (starts Bool 32).ReachIf Late s → Complete 40 s :=
  ⟨(complete_board_iff (by decide)).mpr (by decide),
    fun h => absurd ((complete_board_iff (by decide)).mp h) (by decide)⟩

def serves (n : Nat) : List (Act Bool) := List.replicate n ⟨none, .ok⟩

/-- The next `n` calls or accesses of a client succeed. -/
def plays (c : Bool) (n : Nat) : List (Act Bool) := List.replicate n ⟨some c, .ok⟩

/-- **An early client** reads the size before the server has stored it, and will reduce modulo
0: it opens the segment between `ftruncate` and the store of the size. -/
theorem early_client : ∃ s t : State Bool, (starts Bool 3).Reach s ∧
    (s.pc true).works = true ∧ s.server.finished = false ∧
    (starts Bool 3).Reach t ∧ (t.pc true).divisor = some 0 := by
  have hearly : ((starts Bool 3).exec (fresh Bool) (serves 3 ++ plays true 2)).map
      (fun s => ((s.pc true).works, s.server.finished)) = some (true, false) := by decide +kernel
  have hzero : ((starts Bool 3).exec (fresh Bool) (serves 3 ++ plays true 3 ++ serves 1 ++
      List.replicate 9 ⟨none, .rand 4⟩ ++ serves 1 ++ plays true 1 ++ [⟨some true, .rand 1⟩])).map
      (fun s => (s.pc true).divisor) = some (some 0) := by decide +kernel
  obtain ⟨s, hs, heq⟩ := Option.map_eq_some_iff.mp hearly
  obtain ⟨t, ht, hdivisor⟩ := Option.map_eq_some_iff.mp hzero
  simp only [Prod.mk.injEq] at heq
  exact ⟨s, t, LTS.Reach.exec (.init rfl) hs, heq.1, heq.2, LTS.Reach.exec (.init rfl) ht, hdivisor⟩

end Ops.Board
