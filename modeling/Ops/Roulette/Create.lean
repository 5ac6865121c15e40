import Mathlib.Logic.Function.Basic
import Ops.Lib.Transition
import Ops.Posix.Fds

/-!
# The descriptors a player inherits (`create_children_and_pipes`)

A run follows one process: the croupier, and from a `fork` with `child` on the player
created there, which has a copy of the croupier's memory and descriptors and shares
nothing more with it. A descriptor is a number, and `fds` says what it is open for; `pipe`
gives any two numbers that are free. Closing a number that is not open is an error, and
`ERR` ends everybody. The arrays `fw` and `fr` are `ends`, which begin with any contents,
also beyond their `max` elements; `tfw` and `tfr` are `tmp`. `player` and `closes` are for
the theorems: the `N` of the fork, and the elements whose descriptors the player closed.
-/

namespace Ops.Roulette.Create

open Posix (End)

/-- The pipe to the player (`fw`, `tfw`) and the one to the croupier (`fr`, `tfr`). -/
inductive Line where
  | fw
  | fr
  deriving DecidableEq, Repr

/-- What a descriptor is open for: an end of a pipe of player `k`, or something else. -/
inductive Desc where
  | other
  | pipe (k : Nat) (line : Line) (e : End)
  deriving DecidableEq, Repr

/-- An element of `fw` or `fr`. -/
structure Cell where
  line : Line
  index : Nat
  deriving DecidableEq, Repr

/-- The next call. -/
inductive Pc where
  | loop
  | pipeFw
  | pipeFr
  | fork
  | closeTfw0
  | closeTfr1
  | store
  | returned
  | childLoop
  | closeFw
  | closeFr
  | closeTfw1
  | closeTfr0
  | childWork
  | killed
  deriving DecidableEq, Repr

structure State where
  pc : Pc
  N : Nat
  tmp : Line → End → Nat
  ends : Line → Nat → Nat
  fds : Nat → Option Desc
  player : Option Nat
  closes : List Cell

/-- A step, the numbers that `pipe` chooses, the process that is followed after the fork, or a
`pipe` or `fork` that fails. -/
inductive Act where
  | go
  | pipe (r w : Nat)
  | fork (child : Bool)
  | fail
  deriving DecidableEq, Repr

/-- The two numbers that `pipe` has stored. -/
def pair (r w : Nat) : End → Nat
  | .read => r
  | .write => w

/-- `pipe(tfw)` and `pipe(tfr)`. -/
def State.pipe (s : State) (line : Line) (r w : Nat) (c : Pc) : Option State :=
  if r ≠ w ∧ s.fds r = none ∧ s.fds w = none then
    some { s with
      tmp := Function.update s.tmp line (pair r w)
      fds := Function.update (Function.update s.fds r (some (.pipe (s.N - 1) line .read))) w
        (some (.pipe (s.N - 1) line .write))
      pc := c }
  else none

def State.close (s : State) (d : Nat) (c : Pc) : State :=
  if s.fds d = none then { s with pc := .killed }
  else { s with fds := Function.update s.fds d none, pc := c }

/-- `close(fw[N++])` and `close(fr[N++])`. -/
def State.closeNext (s : State) (line : Line) (c : Pc) : State :=
  State.close { s with N := s.N + 1, closes := s.closes ++ [⟨line, s.N⟩] } (s.ends line s.N) c

def State.next (max : Nat) (s : State) (act : Act) : Option State :=
  match s.pc, act with
  | .loop, .go => some { s with pc := if s.N = 0 then .returned else .pipeFw }
  | .pipeFw, .pipe r w => s.pipe .fw r w .pipeFr
  | .pipeFr, .pipe r w => s.pipe .fr r w .fork
  | .fork, .fork true => some { s with pc := .childLoop, player := some s.N }
  | .fork, .fork false => some { s with pc := .closeTfw0 }
  | .pipeFw, .fail | .pipeFr, .fail | .fork, .fail => some { s with pc := .killed }
  -- the player
  | .childLoop, .go => some { s with pc := if s.N < max then .closeFw else .closeTfw1 }
  | .closeFw, .go => some (s.closeNext .fw .closeFr)
  | .closeFr, .go => some (s.closeNext .fr .childLoop)
  | .closeTfw1, .go => some (s.close (s.tmp .fw .write) .closeTfr0)
  | .closeTfr0, .go => some (s.close (s.tmp .fr .read) .childWork)
  -- the croupier
  | .closeTfw0, .go => some (s.close (s.tmp .fw .read) .closeTfr1)
  | .closeTfr1, .go => some (s.close (s.tmp .fr .write) .store)
  | .store, .go =>
    some { s with
      pc := .loop
      N := s.N - 1
      ends := fun line =>
        Function.update (s.ends line) (s.N - 1)
          (match line with
            | .fw => s.tmp .fw .write
            | .fr => s.tmp .fr .read) }
  | _, _ => none

/-- Nothing is known of the arrays, and no pipe is open. -/
def State.Start (max : Nat) (s : State) : Prop :=
  s.pc = .loop ∧ s.N = max ∧ s.player = none ∧ s.closes = [] ∧
    ∀ d x, s.fds d = some x → x = .other

/-- `create_children_and_pipes(max, M, fw, fr, pids)` -/
def creations (max : Nat) : LTS State Act where
  Init := State.Start max
  next := State.next max

/-- **What a player should inherit**, when it is created with `N` players to go: it has closed
the two descriptors of each earlier player and no others of the arrays, has used only their
elements, and has the two ends that it uses and no other end. -/
structure Tidy (max N : Nat) (s : State) : Prop where
  closed : ∀ c, c ∈ s.closes ↔ N ≤ c.index ∧ c.index < max
  bounds : ∀ c ∈ s.closes, c.index < max
  left : ∀ d x, x ≠ .other → (s.fds d = some x ↔
    d = s.tmp .fw .read ∧ x = .pipe (N - 1) .fw .read ∨
      d = s.tmp .fr .write ∧ x = .pipe (N - 1) .fr .write)

/-! ## The ends of the pipes of one player -/

/-- The ends of the new pipes that are open. -/
def Pc.has : Pc → Line → End → Bool
  | .pipeFr, .fw, _ => true
  | .fork, _, _ | .closeTfw0, _, _ | .childLoop, _, _ | .closeTfw1, _, _ => true
  | .closeTfr1, .fw, .write | .closeTfr1, .fr, _ => true
  | .store, .fw, .write | .store, .fr, .read => true
  | .closeTfr0, .fw, .read | .closeTfr0, .fr, _ => true
  | .childWork, .fw, .read | .childWork, .fr, .write => true
  | _, _, _ => false

/-- The descriptors that are open: those of `has` for player `k`, and `rest`. -/
structure Holds (fds : Nat → Option Desc) (tmp : Line → End → Nat) (k : Nat)
    (has : Line → End → Bool) (rest : Desc → Prop) : Prop where
  only : ∀ d x, fds d = some x →
    rest x ∨ ∃ line e, has line e = true ∧ d = tmp line e ∧ x = .pipe k line e
  there : ∀ line e, has line e = true → fds (tmp line e) = some (.pipe k line e)

section
variable {fds : Nat → Option Desc} {tmp : Line → End → Nat} {k : Nat}
variable {has has' : Line → End → Bool} {rest : Desc → Prop} {line line' : Line} {e e' : End}

theorem Holds.apart (h : Holds fds tmp k has rest) (hl : has line e = true)
    (hl' : has line' e' = true) (heq : tmp line' e' = tmp line e) : line' = line ∧ e' = e := by
  have hthere := h.there line e hl
  rw [← heq, h.there line' e' hl'] at hthere
  cases hthere
  exact ⟨rfl, rfl⟩

theorem Holds.close (h : Holds fds tmp k has rest) (hl : has line e = true)
    (hhas : ∀ line' e', has' line' e' = (has line' e' && !decide (line' = line ∧ e' = e))) :
    Holds (Function.update fds (tmp line e) none) tmp k has' rest := by
  refine ⟨fun d x hx => ?_, fun line' e' hl' => ?_⟩
  · by_cases hd : d = tmp line e
    · rw [hd, Function.update_self] at hx
      cases hx
    · rw [Function.update_of_ne hd] at hx
      refine (h.only d x hx).imp_right fun ⟨line', e', hl', hd', hx'⟩ => ?_
      refine ⟨line', e', ?_, hd', hx'⟩
      have hne : ¬ (line' = line ∧ e' = e) := by
        rintro ⟨rfl, rfl⟩
        exact hd hd'
      rw [hhas, hl', decide_eq_false hne]
      rfl
  · rw [hhas, Bool.and_eq_true, Bool.not_eq_true', decide_eq_false_iff_not] at hl'
    rw [Function.update_of_ne fun heq => hl'.2 (h.apart hl hl'.1 heq)]
    exact h.there line' e' hl'.1

theorem Holds.pipe {r w : Nat} (h : Holds fds tmp k has rest) (hrw : r ≠ w) (hr : fds r = none)
    (hw : fds w = none) (hnew : ∀ e, has line e = false)
    (hhas : ∀ line' e', has' line' e' = (has line' e' || decide (line' = line))) :
    Holds (Function.update (Function.update fds r (some (.pipe k line .read))) w
      (some (.pipe k line .write))) (Function.update tmp line (pair r w)) k has' rest := by
  refine ⟨fun d x hx => ?_, fun line' e' hl' => ?_⟩
  · have hself : ∀ e, has' line e = true := fun e => by
      rw [hhas, decide_eq_true rfl, Bool.or_true]
    by_cases hdw : d = w
    · rw [hdw, Function.update_self] at hx
      cases hx
      exact .inr ⟨line, .write, hself .write, by rw [Function.update_self]; exact hdw, rfl⟩
    · rw [Function.update_of_ne hdw] at hx
      by_cases hdr : d = r
      · rw [hdr, Function.update_self] at hx
        cases hx
        exact .inr ⟨line, .read, hself .read, by rw [Function.update_self]; exact hdr, rfl⟩
      · rw [Function.update_of_ne hdr] at hx
        refine (h.only d x hx).imp_right fun ⟨line', e', hl', hd', hx'⟩ => ?_
        have hne : line' ≠ line := by
          rintro rfl
          rw [hnew] at hl'
          cases hl'
        refine ⟨line', e', by rw [hhas, hl', Bool.true_or], ?_, hx'⟩
        rw [Function.update_of_ne hne]
        exact hd'
  · by_cases hline : line' = line
    · subst hline
      rw [Function.update_self]
      cases e' with
      | read => exact (Function.update_of_ne hrw ..).trans (Function.update_self ..)
      | write => exact Function.update_self ..
    · rw [hhas, decide_eq_false hline, Bool.or_false] at hl'
      have hthere := h.there line' e' hl'
      have hne : ∀ d, fds d = none → tmp line' e' ≠ d := by
        rintro d hd rfl
        rw [hd] at hthere
        cases hthere
      rw [Function.update_of_ne hline, Function.update_of_ne (hne w hw),
        Function.update_of_ne (hne r hr)]
      exact hthere

end

/-! ## The croupier, and the first player -/

/-- The croupier is in the loop. -/
def Pc.parents : Pc → Bool
  | .loop | .pipeFw | .pipeFr | .fork | .closeTfw0 | .closeTfr1 | .store | .returned => true
  | _ => false

/-- A player that closes nothing but its copies of the croupier's ends. -/
def Pc.straight : Pc → Bool
  | .childLoop | .closeTfw1 | .closeTfr0 | .childWork => true
  | _ => false

/-- What is open beside the new pipes: something else, or an end of an earlier player. -/
def Earlier (N max : Nat) (x : Desc) : Prop :=
  x = .other ∨ ∃ k line e, x = .pipe k line e ∧ N ≤ k ∧ k < max

structure Croupier (max : Nat) (s : State) : Prop where
  pc : s.pc.parents = true
  le : s.N ≤ max
  closes : s.closes = []
  pos : s.pc = .loop ∨ s.pc = .returned ∨ 0 < s.N
  holds : Holds s.fds s.tmp (s.N - 1) s.pc.has (Earlier s.N max)

structure First (max : Nat) (s : State) : Prop where
  pc : s.pc.straight = true
  N : s.N = max
  closes : s.closes = []
  holds : Holds s.fds s.tmp (max - 1) s.pc.has (Earlier max max)

/-- A player that was created with `N` to go never closes `fr[N]`: its loop closes a
descriptor of `fr` only after it has raised the index for one of `fw`. -/
structure Skips (N : Nat) (s : State) : Prop where
  pc : s.pc.parents = false
  le : N ≤ s.N
  odd : s.pc = .closeFr → N < s.N
  skipped : ⟨.fr, N⟩ ∉ s.closes

/-- What holds of the followed process. -/
def Inv (max : Nat) (s : State) : Prop :=
  match s.player with
  | none => s.pc = .killed ∨ Croupier max s
  | some N => N ≤ max ∧ Skips N s ∧ (N = max → First max s)

section
variable {max N d r w : Nat} {c : Pc} {line : Line} {e : End} {s t : State}

@[simp] theorem close_player : (s.close d c).player = s.player := by
  unfold State.close
  split <;> rfl

@[simp] theorem close_closes : (s.close d c).closes = s.closes := by
  unfold State.close
  split <;> rfl

@[simp] theorem close_N : (s.close d c).N = s.N := by
  unfold State.close
  split <;> rfl

theorem close_pc : (s.close d c).pc = c ∨ (s.close d c).pc = .killed := by
  unfold State.close
  split
  · exact .inr rfl
  · exact .inl rfl

theorem close_held {k : Nat} {has : Line → End → Bool} {rest : Desc → Prop}
    (h : Holds s.fds s.tmp k has rest) (hl : has line e = true) :
    s.close (s.tmp line e) c =
      { s with fds := Function.update s.fds (s.tmp line e) none, pc := c } := by
  unfold State.close
  rw [if_neg (by rw [h.there line e hl]; exact nofun)]

theorem Croupier.pipe (h : Croupier max s) (hpos : 0 < s.N) (hnew : ∀ e, s.pc.has line e = false)
    (hhas : ∀ line' e', c.has line' e' = (s.pc.has line' e' || decide (line' = line)))
    (hc : c.parents = true) (hn : s.pipe line r w c = some t) : Croupier max t := by
  unfold State.pipe at hn
  split at hn
  · rename_i hfree
    cases hn
    exact ⟨hc, h.le, h.closes, .inr (.inr hpos),
      h.holds.pipe hfree.1 hfree.2.1 hfree.2.2 hnew hhas⟩
  · cases hn

theorem pipe_player (hn : s.pipe line r w c = some t) : t.player = s.player := by
  unfold State.pipe at hn
  split at hn
  · cases hn; rfl
  · cases hn

theorem Croupier.close (h : Croupier max s) (hl : s.pc.has line e = true) (hpos : 0 < s.N)
    (hhas : ∀ line' e', c.has line' e' = (s.pc.has line' e' && !decide (line' = line ∧ e' = e)))
    (hc : c.parents = true) : Croupier max (s.close (s.tmp line e) c) := by
  rw [close_held h.holds hl]
  exact ⟨hc, h.le, h.closes, .inr (.inr hpos), h.holds.close hl hhas⟩

theorem First.close (h : First max s) (hl : s.pc.has line e = true)
    (hhas : ∀ line' e', c.has line' e' = (s.pc.has line' e' && !decide (line' = line ∧ e' = e)))
    (hc : c.straight = true) : First max (s.close (s.tmp line e) c) := by
  rw [close_held h.holds hl]
  exact ⟨hc, h.N, h.closes, h.holds.close hl hhas⟩

/-- `fw[N]` and `fr[N]` are stored: the new ends are those of an earlier player. -/
theorem Croupier.stored (h : Croupier max s) (hpos : 0 < s.N) :
    ∀ ends, Croupier max { s with pc := .loop, N := s.N - 1, ends := ends } := by
  intro ends
  refine ⟨rfl, Nat.le_trans (Nat.sub_le _ _) h.le, h.closes, .inl rfl, fun d x hx => .inl ?_,
    fun line e hl => by cases line <;> cases e <;> cases hl⟩
  have hle := h.le
  rcases h.holds.only d x hx with (hother | ⟨k, line, e, rfl, hk, hkmax⟩) | ⟨line, e, -, -, rfl⟩
  · exact .inl hother
  · exact .inr ⟨k, line, e, rfl, by dsimp only; omega, hkmax⟩
  · exact .inr ⟨_, line, e, rfl, Nat.le_refl _, by omega⟩

theorem Skips.close (h : Skips N s) (hc : c ≠ .closeFr) (hp : c.parents = false) :
    Skips N (s.close d c) where
  pc := by
    rcases close_pc (s := s) (d := d) (c := c) with hsame | hkilled
    · rw [hsame, hp]
    · rw [hkilled]; rfl
  le := by rw [close_N]; exact h.le
  odd hpc := by
    rcases close_pc (s := s) (d := d) (c := c) with hsame | hkilled
    · exact absurd (hsame ▸ hpc) hc
    · rw [hkilled] at hpc; cases hpc
  skipped := by rw [close_closes]; exact h.skipped

/-- `fw[N]` raises the index; a descriptor of `fr` is not the one with the index of the fork. -/
theorem Skips.closeNext (h : Skips N s) (hne : line = .fr → N < s.N) (hp : c.parents = false) :
    Skips N (s.closeNext line c) where
  pc := by
    unfold State.closeNext
    rcases close_pc (c := c) with hsame | hkilled
    · rw [hsame, hp]
    · rw [hkilled]; rfl
  le := by
    unfold State.closeNext
    rw [close_N]
    exact Nat.le_succ_of_le h.le
  odd _ := by
    unfold State.closeNext
    rw [close_N]
    exact Nat.lt_succ_of_le h.le
  skipped := by
    unfold State.closeNext
    rw [close_closes]
    rintro hmem
    rcases List.mem_append.mp hmem with hold | hnew
    · exact h.skipped hold
    · obtain ⟨rfl, hN⟩ := Cell.mk.inj (List.mem_singleton.mp hnew)
      exact absurd hN (Nat.ne_of_lt (hne rfl))

theorem Croupier.next {act : Act} (h : Croupier max s) (hp : s.player = none)
    (hn : s.next max act = some t) : Inv max t := by
  have hpos := h.pos
  have hcroupier : ∀ {t : State}, t.player = none → Croupier max t → Inv max t :=
    fun ht hc => by unfold Inv; rw [ht]; exact .inr hc
  have hkilled : ∀ {t : State}, t.player = none → t.pc = .killed → Inv max t :=
    fun ht hc => by unfold Inv; rw [ht]; exact .inl hc
  obtain ⟨c, hpc⟩ : ∃ c, s.pc = c := ⟨_, rfl⟩
  have hparents := h.pc
  have hholds := h.holds
  unfold State.next at hn
  rw [hpc] at hparents hpos hholds hn
  cases c with
  | loop =>
    cases act with
    | go =>
      cases hn
      refine hcroupier hp ⟨?_, h.le, h.closes, ?_, ?_⟩
      · dsimp only; split <;> rfl
      · dsimp only; split
        · exact .inr (.inl rfl)
        · rename_i hN
          exact .inr (.inr (Nat.pos_of_ne_zero hN))
      · dsimp only; split <;> exact hholds
    | pipe | fork | fail => cases hn
  | pipeFw | pipeFr =>
    have hN : 0 < s.N := by simpa using hpos
    cases act with
    | pipe r w =>
      refine hcroupier ((pipe_player hn).trans hp) (h.pipe hN ?_ ?_ rfl hn)
      · intro e; rw [hpc]; rfl
      · intro line e; rw [hpc]; cases line <;> cases e <;> rfl
    | fail => cases hn; exact hkilled hp rfl
    | go | fork => cases hn
  | fork =>
    have hN : 0 < s.N := by simpa using hpos
    cases act with
    | fork child =>
      cases child with
      | false =>
        cases hn
        exact hcroupier hp ⟨rfl, h.le, h.closes, .inr (.inr hN), hholds⟩
      | true =>
        cases hn
        refine ⟨h.le, ⟨rfl, Nat.le_refl _, nofun, ?_⟩, ?_⟩
        · show _ ∉ s.closes
          rw [h.closes]
          exact List.not_mem_nil
        · rintro rfl
          exact ⟨rfl, rfl, h.closes, hholds⟩
    | fail => cases hn; exact hkilled hp rfl
    | go | pipe => cases hn
  | closeTfw0 | closeTfr1 =>
    have hN : 0 < s.N := by simpa using hpos
    cases act with
    | go =>
      cases hn
      refine hcroupier (close_player.trans hp) (h.close ?_ hN ?_ rfl)
      · rw [hpc]; rfl
      · intro line e; rw [hpc]; cases line <;> cases e <;> rfl
    | pipe | fork | fail => cases hn
  | store =>
    have hN : 0 < s.N := by simpa using hpos
    cases act with
    | go =>
      cases hn
      exact hcroupier hp (h.stored hN _)
    | pipe | fork | fail => cases hn
  | returned => cases act <;> cases hn
  | childLoop | closeFw | closeFr | closeTfw1 | closeTfr0 | childWork | killed => cases hparents

theorem closeNext_player : (s.closeNext line c).player = s.player := close_player

theorem Skips.next {act : Act} (h : Skips N s) (hp : s.player = some N)
    (hn : s.next max act = some t) : t.player = some N ∧ Skips N t := by
  obtain ⟨c, hpc⟩ : ∃ c, s.pc = c := ⟨_, rfl⟩
  have hplayers := h.pc
  have hodd := h.odd
  unfold State.next at hn
  rw [hpc] at hplayers hn hodd
  cases c with
  | childLoop =>
    cases act with
    | go =>
      cases hn
      refine ⟨hp, ?_, h.le, ?_, h.skipped⟩
      · dsimp only; split <;> rfl
      · dsimp only; split <;> exact nofun
    | pipe | fork | fail => cases hn
  | closeFw =>
    cases act with
    | go => cases hn; exact ⟨closeNext_player.trans hp, h.closeNext nofun rfl⟩
    | pipe | fork | fail => cases hn
  | closeFr =>
    cases act with
    | go =>
      cases hn
      exact ⟨closeNext_player.trans hp, h.closeNext (fun _ => hodd rfl) rfl⟩
    | pipe | fork | fail => cases hn
  | closeTfw1 | closeTfr0 =>
    cases act with
    | go => cases hn; exact ⟨close_player.trans hp, h.close nofun rfl⟩
    | pipe | fork | fail => cases hn
  | childWork | killed => cases act <;> cases hn
  | loop | pipeFw | pipeFr | fork | closeTfw0 | closeTfr1 | store | returned => cases hplayers

theorem First.next {act : Act} (h : First max s) (hn : s.next max act = some t) : First max t := by
  obtain ⟨c, hpc⟩ : ∃ c, s.pc = c := ⟨_, rfl⟩
  have hstraight := h.pc
  have hholds := h.holds
  unfold State.next at hn
  rw [hpc] at hstraight hholds hn
  cases c with
  | childLoop =>
    cases act with
    | go =>
      have hlast : ¬ s.N < max := by
        rw [h.N]
        exact Nat.lt_irrefl max
      dsimp only at hn
      rw [if_neg hlast] at hn
      cases hn
      exact ⟨rfl, h.N, h.closes, hholds⟩
    | pipe | fork | fail => cases hn
  | closeTfw1 | closeTfr0 =>
    cases act with
    | go =>
      cases hn
      refine h.close ?_ ?_ rfl
      · rw [hpc]; rfl
      · intro line e; rw [hpc]; cases line <;> cases e <;> rfl
    | pipe | fork | fail => cases hn
  | childWork => cases act <;> cases hn
  | loop | pipeFw | pipeFr | fork | closeTfw0 | closeTfr1 | store | returned | closeFw | closeFr
  | killed => cases hstraight

theorem inv_next {act : Act} (h : Inv max s) (hn : s.next max act = some t) : Inv max t := by
  unfold Inv at h
  cases hp : s.player with
  | none =>
    rw [hp] at h
    rcases h with hkilled | hcroupier
    · unfold State.next at hn
      rw [hkilled] at hn
      cases act <;> cases hn
    · exact hcroupier.next hp hn
  | some N =>
    rw [hp] at h
    obtain ⟨hle, hskips, hfirst⟩ := h
    obtain ⟨ht, hskips'⟩ := hskips.next hp hn
    unfold Inv
    rw [ht]
    exact ⟨hle, hskips', fun hmax => (hfirst hmax).next hn⟩

theorem start_inv (h : s.Start max) : Inv max s := by
  obtain ⟨hpc, hN, hp, hcloses, hfds⟩ := h
  unfold Inv
  rw [hp]
  refine .inr ⟨by rw [hpc]; rfl, Nat.le_of_eq hN, hcloses, .inl hpc, ⟨fun d x hx => ?_, ?_⟩⟩
  · exact .inl (.inl (hfds d x hx))
  · rw [hpc]
    exact nofun

theorem creations_inv (h : (creations max).Reach s) : Inv max s :=
  h.inv (I := Inv max) (fun _ hs => start_inv hs) fun _ _ _ _ hs hn => inv_next hs hn

/-- The first player has its two ends, and there was nothing to close. -/
theorem First.tidy (h : First max s) (hpc : s.pc = .childWork) : Tidy max max s where
  closed c := by
    rw [h.closes]
    refine ⟨fun hc => absurd hc List.not_mem_nil, fun hc => ?_⟩
    omega
  bounds c hc := by
    rw [h.closes] at hc
    exact absurd hc List.not_mem_nil
  left d x hx := by
    have hholds := h.holds
    rw [hpc] at hholds
    constructor
    · intro hd
      rcases hholds.only d x hd with (hother | ⟨k, line, e, -, hk, hkmax⟩) | ⟨line, e, hl, hd, hx⟩
      · exact absurd hother hx
      · omega
      · cases line <;> cases e <;> first | cases hl; done | skip
        · exact .inl ⟨hd, hx⟩
        · exact .inr ⟨hd, hx⟩
    · rintro (⟨rfl, rfl⟩ | ⟨rfl, rfl⟩)
      · exact hholds.there .fw .read rfl
      · exact hholds.there .fr .write rfl

/-- **Only the first player inherits what it should.** Each player ends in `child_work` or is
killed, and has closed the croupier's descriptors of all earlier players, within the arrays,
and kept its own two ends, if and only if no player was created before it: the loop raises
`N` twice a turn, and `fr[N]` of the fork is skipped. -/
theorem inherited_iff (h : (creations max).Reach s) (hp : s.player = some N)
    (hend : s.pc = .childWork ∨ s.pc = .killed) :
    s.pc = .childWork ∧ Tidy max N s ↔ N = max := by
  have hinv := creations_inv h
  unfold Inv at hinv
  rw [hp] at hinv
  obtain ⟨hle, hskips, hfirst⟩ := hinv
  constructor
  · rintro ⟨-, htidy⟩
    refine Nat.le_antisymm hle (Nat.le_of_not_lt fun hlt => ?_)
    exact hskips.skipped ((htidy.closed ⟨.fr, N⟩).mpr ⟨Nat.le_refl N, hlt⟩)
  · rintro rfl
    have hpc := (hfirst rfl).pc
    rcases hend with hwork | hkilled
    · exact ⟨hwork, (hfirst rfl).tidy hwork⟩
    · rw [hkilled] at hpc
      cases hpc

end

/-- Standard input, output and error are open. -/
def begun (max : Nat) : State where
  pc := .loop
  N := max
  tmp _ _ := 0
  ends _ _ := 0
  fds d := if d < 3 then some .other else none
  player := none
  closes := []

theorem begun_start (max : Nat) : (begun max).Start max := by
  refine ⟨rfl, rfl, rfl, rfl, fun d x hx => ?_⟩
  change (if d < 3 then some Desc.other else none) = some x at hx
  split at hx
  · cases hx; rfl
  · cases hx

def turn (r w r' w' : Nat) (child : Bool) : List Act := [.go, .pipe r w, .pipe r' w', .fork child]

def rest : List Act := [.go, .go, .go]

/-- The first of three players. -/
theorem inherited_first : ∃ s, (creations 3).Reach s ∧ s.player = some 3 ∧
    (s.pc = .childWork ∧ Tidy 3 3 s ↔ 3 = 3) := by
  have hrun : ((creations 3).exec (begun 3) (turn 3 4 5 6 true ++ rest)).map
      (fun s => (s.player, s.pc)) = some (some 3, .childWork) := by decide +kernel
  obtain ⟨s, hs, heq⟩ := Option.map_eq_some_iff.mp hrun
  simp only [Prod.mk.injEq] at heq
  have hr := LTS.Reach.exec (.init (begun_start 3)) hs
  exact ⟨s, hr, heq.1, inherited_iff hr heq.1 (.inl heq.2)⟩

/-- **The third of three players** closes `fw[1]` and `fr[2]`. It plays with the croupier's
reading end of the second player's pipe and its writing end of the first player's, 7 and 4.
The second of two players closes what it finds behind the end of `fr`. -/
theorem not_inherited :
    (∃ s, (creations 3).Reach s ∧ s.player = some 1 ∧ s.pc = .childWork ∧
      s.closes = [⟨.fw, 1⟩, ⟨.fr, 2⟩] ∧ s.fds 7 = some (.pipe 1 .fr .read) ∧
      s.fds 4 = some (.pipe 2 .fw .write)) ∧
    ∃ s, (creations 2).Reach s ∧ s.player = some 1 ∧ s.closes = [⟨.fw, 1⟩, ⟨.fr, 2⟩] := by
  constructor
  · have hrun : ((creations 3).exec (begun 3) (turn 3 4 5 6 false ++ rest ++
        turn 3 6 7 8 false ++ rest ++ turn 3 8 9 10 true ++ rest ++ rest)).map
          (fun s => (s.player, s.pc, s.closes, s.fds 7, s.fds 4)) =
        some (some 1, .childWork, [⟨.fw, 1⟩, ⟨.fr, 2⟩], some (.pipe 1 .fr .read),
          some (.pipe 2 .fw .write)) := by decide +kernel
    obtain ⟨s, hs, heq⟩ := Option.map_eq_some_iff.mp hrun
    simp only [Prod.mk.injEq] at heq
    exact ⟨s, LTS.Reach.exec (.init (begun_start 3)) hs, heq⟩
  · have hrun : ((creations 2).exec (begun 2) (turn 3 4 5 6 false ++ rest ++
        turn 3 6 7 8 true ++ rest)).map (fun s => (s.player, s.closes)) =
        some (some 1, [⟨.fw, 1⟩, ⟨.fr, 2⟩]) := by decide +kernel
    obtain ⟨s, hs, heq⟩ := Option.map_eq_some_iff.mp hrun
    simp only [Prod.mk.injEq] at heq
    exact ⟨s, LTS.Reach.exec (.init (begun_start 2)) hs, heq⟩

end Ops.Roulette.Create
