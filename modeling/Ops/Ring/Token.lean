import Mathlib.Algebra.BigOperators.Group.Finset.Basic
import Ops.Lib.Cycle
import Ops.Ring.Setup

/-!
# One message in the ring

At every moment one place has the turn: a process between its read and its write, or
the pipe with the message. So a read finds one message, the last one of its
predecessor.
-/

namespace Ops.Ring

open Posix (End Fds)

/-- Who has the turn. -/
inductive Place where
  | proc (p : Nat)
  | pipe (j : Nat)
  deriving DecidableEq, Repr

/-- The process does not wait for a message; the parent does not before its first write. -/
def Pc.active : Pc → Bool
  | .pipe _ | .fork _ | .closeReads _ | .closeWrites _ | .draw | .write _ => true
  | _ => false

/-- The process has read a message, or the parent begins, and has not written the next one. -/
def Pc.handles : Pc → Bool
  | .draw | .write _ => true
  | _ => false

variable {q p : Nat} {s t : State} {l : Place}

/-- Messages that process `p` handles, or that have been sent to it and not read. -/
def State.held (q : Nat) (s : State) (p : Nat) : Nat :=
  ((s.sent (readp q p)).length - (s.got p).length) + if (s.pc p).handles then 1 else 0

def State.messages (q : Nat) (s : State) : Nat := ∑ p ∈ Finset.range q, s.held q p

/-- The message in a pipe. -/
def inFlight : List Char → List (List Char)
  | [] => []
  | message => [message]

theorem inFlight_message {message : List Char} (h : message ≠ []) :
    inFlight message = [message] := by
  cases message with
  | nil => exact absurd rfl h
  | cons c cs => rfl

theorem decimal_short (r : Nat) : (decimal (r % 100)).length ≤ 2 := by
  have hall : ∀ n, n < 100 → (decimal n).length ≤ 2 := by decide
  exact hall _ (Nat.mod_lt _ (by decide))

structure Token (q : Nat) (s : State) (l : Place) : Prop where
  active : ∀ p, (s.pc p).active = true ↔ l = .proc p
  full : ∀ j, s.pipe j ≠ [] ↔ l = .pipe j
  short : ∀ j, (s.pipe j).length ≤ 2
  message : ∀ p m, s.pc p = .write m → m ≠ [] ∧ m.length ≤ 2
  logs : ∀ p, p < q → s.sent (readp q p) = s.got p ++ inFlight (s.pipe (readp q p))

theorem readp_inj {p p' : Nat} (hp : p < q) (hp' : p' < q) (h : readp q p = readp q p') :
    p = p' := by
  have h1 := readp_cases hp
  have h2 := readp_cases hp'
  omega

namespace Token

theorem moved (h : Token q s l) {c : Pc} (hpc : t.pc = Function.update s.pc p c)
    (hactive : c.active = (s.pc p).active) (hc : ∀ m, c = .write m → m ≠ [] ∧ m.length ≤ 2)
    (hpipe : t.pipe = s.pipe) (hsent : t.sent = s.sent) (hgot : t.got = s.got) : Token q t l := by
  refine ⟨fun k => ?_, ?_, ?_, fun k m hk => ?_, ?_⟩
  · rw [hpc, update_same hactive]
    exact h.active k
  · rw [hpipe]
    exact h.full
  · rw [hpipe]
    exact h.short
  · rcases update_cases (f := id) hpc hk with ⟨-, hm⟩ | ⟨-, hm⟩
    · exact hc m hm
    · exact h.message k m hm
  · rw [hpipe, hsent, hgot]
    exact h.logs

theorem write (h : Token q s l) {m : List Char} (hpc : s.pc p = .write m) :
    Token q ({ s with
      pipe := Function.update s.pipe p (s.pipe p ++ m)
      sent := Function.update s.sent p (s.sent p ++ [m]) }.goto p .read) (.pipe p) := by
  have hl : l = .proc p := (h.active p).mp (by rw [hpc]; rfl)
  have hempty : ∀ j, s.pipe j = [] := fun j => by
    by_contra hne
    have hfull := (h.full j).mp hne
    rw [hl] at hfull
    cases hfull
  obtain ⟨hm, hshort⟩ := h.message p m hpc
  refine ⟨fun k => ?_, fun j => ?_, fun j => ?_, fun k m' hk => ?_, fun k hk => ?_⟩
  · by_cases hkp : k = p
    · simp [State.goto, hkp, Pc.active]
    · have hpk : p ≠ k := fun he => hkp he.symm
      simp [State.goto, hkp, hpk, h.active k, hl]
  · by_cases hjp : j = p
    · simp [State.goto, hjp, hempty, hm]
    · have hpj : p ≠ j := fun he => hjp he.symm
      simp [State.goto, hjp, hpj, hempty]
  · by_cases hjp : j = p
    · simpa [State.goto, hjp, hempty] using hshort
    · simp [State.goto, hjp, hempty]
  · rcases update_cases (f := id) rfl hk with ⟨-, hread⟩ | ⟨-, hk⟩
    · cases hread
    · exact h.message k m' hk
  · have hlog := h.logs k hk
    rw [hempty, inFlight, List.append_nil] at hlog
    by_cases hkp : readp q k = p
    · rw [hkp] at hlog
      simp [State.goto, hkp, hempty, hlog, inFlight_message hm]
    · simp [State.goto, hkp, hempty, hlog, inFlight]

theorem read (h : Token q s l) (hpc : s.pc p = .read) (hpq : p < q) {c : Char} {cs : List Char}
    (hpipe : s.pipe (readp q p) = c :: cs) :
    Token q ({ s with
      pipe := Function.update s.pipe (readp q p) ((c :: cs).drop 255)
      got := Function.update s.got p (s.got p ++ [(c :: cs).take 255]) }.goto p .draw)
      (.proc p) := by
  have hl : l = .pipe (readp q p) := (h.full _).mp (by rw [hpipe]; nofun)
  have hlen : (c :: cs).length ≤ 2 := hpipe ▸ h.short (readp q p)
  have htake : (c :: cs).take 255 = c :: cs := List.take_of_length_le (by omega)
  have hdrop : (c :: cs).drop 255 = [] := List.drop_of_length_le (by omega)
  rw [htake, hdrop]
  have hempty : ∀ j, j ≠ readp q p → s.pipe j = [] := fun j hj => by
    by_contra hne
    have hfull := (h.full j).mp hne
    rw [hl] at hfull
    exact hj (by simpa using hfull.symm)
  refine ⟨fun k => ?_, fun j => ?_, fun j => ?_, fun k m' hk => ?_, fun k hk => ?_⟩
  · by_cases hkp : k = p
    · simp [State.goto, hkp, Pc.active]
    · have hpk : p ≠ k := fun he => hkp he.symm
      simp [State.goto, hkp, hpk, h.active k, hl]
  · by_cases hj : j = readp q p
    · simp [State.goto, hj]
    · simp [State.goto, hj, hempty j hj]
  · by_cases hj : j = readp q p
    · simp [State.goto, hj]
    · simp [State.goto, hj, hempty j hj]
  · rcases update_cases (f := id) rfl hk with ⟨-, hdraw⟩ | ⟨-, hk⟩
    · cases hdraw
    · exact h.message k m' hk
  · have hlog := h.logs k hk
    by_cases hkp : k = p
    · subst hkp
      rw [hpipe] at hlog
      simpa [State.goto, inFlight] using hlog
    · have hne : readp q k ≠ readp q p := fun he => hkp (readp_inj hk hpq he)
      simpa [State.goto, hkp, hne] using hlog

theorem close (h : Token q s l) {c : Pc} {e : End} {j : Nat} (ht : Setup q (s.close p e j c))
    (hactive : c.active = (s.pc p).active) (hc : ∀ m, c ≠ .write m) :
    Token q (s.close p e j c) l := by
  unfold State.close at ht ⊢
  split
  · exact h.moved rfl hactive (fun m hm => absurd hm (hc m)) rfl rfl rfl
  · rename_i hclose
    rw [hclose] at ht
    have hrole := ht.role p
    simp [State.exit, State.goto, Pc.Role] at hrole

theorem fork (h : Token q s l) {i : Nat} (hpc : s.pc p = .fork i) (hoff : s.pc i = .off) :
    Token q (({ s with fds := Function.update s.fds i (s.fds p) }.goto i (.closeRead 0)).goto p
      (.fork (i + 1))) l := by
  have hpi : p ≠ i := by
    rintro rfl
    rw [hpc] at hoff
    cases hoff
  have hchild : Token q ({ s with fds := Function.update s.fds i (s.fds p) }.goto i
      (.closeRead 0)) l :=
    h.moved rfl (by rw [hoff]; rfl) nofun rfl rfl rfl
  refine hchild.moved rfl ?_ nofun rfl rfl rfl
  simp [State.goto, hpi, hpc, Pc.active]

theorem turns (h : Token q s l) {c : Pc} (ht : (s.pc p).Turns q p c) : Token q (s.goto p c) l := by
  generalize hpc : s.pc p = d at ht
  cases ht with
  | drawn r =>
    refine h.moved rfl (by rw [hpc]; rfl) (fun m hm => ?_) rfl rfl rfl
    cases hm
    exact ⟨decimal_ne_nil _, decimal_short r⟩
  | _ => exact h.moved rfl (by rw [hpc]; rfl) (by rintro _ ⟨⟩) rfl rfl rfl

theorem closes (h : Token q s l) {c : Pc} {e : End} {j : Nat} (hc : (s.pc p).Closes q p e j c)
    (ht : Setup q (s.close p e j c)) : Token q (s.close p e j c) l := by
  generalize hpc : s.pc p = d at hc
  cases hc <;> exact h.close ht (by rw [hpc]; rfl) (by rintro _ ⟨⟩)

theorem step {act : Act} (h : Token q s l) (hs : Setup q s) (hn : s.next q act = some t) :
    ∃ l', Token q t l' := by
  have ht := hs.step hn
  cases next_step hn with
  | turns hturns => exact ⟨l, h.turns hturns⟩
  | closes hc => exact ⟨l, h.closes hc ht⟩
  | pipe hpc => exact ⟨l, h.moved rfl (by rw [hpc]; rfl) (by rintro _ ⟨⟩) rfl rfl rfl⟩
  | @fork p i hpc hi =>
    have hrole := hs.role p
    rw [hpc] at hrole
    have hparent : s.pc 0 = .fork i := hrole.1 ▸ hpc
    have hi0 : i ≠ 0 := Nat.ne_of_gt hrole.2
    have hoff : s.pc i = .off := by
      rw [hs.forked i hi0 hi, hparent]
      exact Nat.lt_irrefl i
    exact ⟨l, h.fork hpc hoff⟩
  | @write p message _ hpc hn =>
    have hworks : (s.pc p).works = true := by rw [hpc]; rfl
    unfold State.write at hn
    rw [if_pos (hs.uses hworks).2, if_pos (hs.peers hworks).2] at hn
    split at hn
    · rw [writep_eq] at hn
      cases hn
      exact ⟨.pipe p, h.write hpc⟩
    · cases hn
  | @read p _ hpc hn =>
    have hworks : (s.pc p).works = true := by rw [hpc]; rfl
    unfold State.read at hn
    rw [if_pos (hs.uses hworks).1] at hn
    split at hn
    · rw [if_pos (hs.peers hworks).1] at hn
      cases hn
    · rename_i hpipe
      cases hn
      exact ⟨.proc p, h.read hpc (hs.lt_of_works hworks) hpipe⟩

theorem start : Token q (Ring.start q) (.proc 0) := by
  refine ⟨fun p => ?_, fun j => by simp [Ring.start], fun j => by simp [Ring.start],
    fun p m hp => ?_, fun p hp => by simp [Ring.start, inFlight]⟩
  · by_cases hp : p = 0
    · simp [Ring.start, hp, Pc.active]
    · have hp' : (0 : Nat) ≠ p := fun he => hp he.symm
      simp [Ring.start, hp, hp', Pc.active]
  · by_cases hp0 : p = 0 <;> simp [Ring.start, hp0] at hp

theorem reach (hq : 1 ≤ q) (h : (ring q).Reach s) : ∃ l, Token q s l := by
  have hall : Setup q s ∧ ∃ l, Token q s l := by
    refine h.inv (I := fun s => Setup q s ∧ ∃ l, Token q s l) ?_ ?_
    · rintro _ rfl
      exact ⟨.start hq, .proc 0, .start⟩
    · rintro s act t - ⟨hs, l, hl⟩ hn
      exact ⟨hs.step hn, hl.step hs hn⟩
  exact hall.2

end Token

/-- Each end is open in one process, and the pipes lead once through all processes. -/
structure OneRing (q : Nat) (s : State) : Prop where
  one : ∀ e j, j < q → ∃! p, s.fds p e j = true
  cycle : SingleCycle fun i k : Fin q => ∃ j, s.fds i .write j = true ∧ s.fds k .read j = true

theorem Setup.fds_iff (h : Setup q s) (hall : ∀ p, p < q → (s.pc p).works = true) (p j : Nat) :
    (s.fds p .read j = true ↔ p < q ∧ j = readp q p) ∧
    (s.fds p .write j = true ↔ p < q ∧ j = p) := by
  rw [h.has, h.has]
  by_cases hpq : p < q
  · have hworks := hall p hpq
    cases hpc : s.pc p <;> simp_all [Pc.works, Pc.Has, writep_eq]
  · have hrole := h.role p
    have hpos := h.pos
    have hoff : s.pc p = .off := by
      cases hpc : s.pc p with
      | off => rfl
      | exited => simp [hpc, Pc.Role] at hrole
      | _ =>
        simp only [hpc, Pc.Role] at hrole
        omega
    simp [hoff, Pc.Has, hpq]

theorem readp_next {j : Nat} (hj : j < q) : (j + 1) % q < q ∧ readp q ((j + 1) % q) = j := by
  by_cases hlast : j + 1 = q
  · rw [hlast, Nat.mod_self]
    have hread := readp_cases (p := 0) (q := q) (by omega)
    omega
  · rw [Nat.mod_eq_of_lt (by omega)]
    have hread := readp_cases (p := j + 1) (q := q) (by omega)
    omega

theorem readp_iff {j : Nat} (hp : p < q) (hj : j < q) : j = readp q p ↔ p = (j + 1) % q := by
  have hnext := readp_next hj
  constructor
  · intro h
    exact readp_inj hp hnext.1 (h.symm.trans hnext.2.symm)
  · rintro rfl
    exact hnext.2.symm

theorem Setup.oneRing (h : Setup q s) (hq : 2 ≤ q) (hall : ∀ p, p < q → (s.pc p).works = true) :
    OneRing q s := by
  refine ⟨fun e j hj => ?_, singleCycle_rotate hq fun i k => ?_⟩
  · cases e with
    | read =>
      have hnext := readp_next hj
      refine ⟨(j + 1) % q, ?_, fun p hp => ?_⟩
      · exact ((h.fds_iff hall _ j).1).mpr ⟨hnext.1, hnext.2.symm⟩
      · obtain ⟨hpq, hpj⟩ := ((h.fds_iff hall p j).1).mp hp
        exact (readp_iff hpq hj).mp hpj
    | write =>
      refine ⟨j, ?_, fun p hp => ?_⟩
      · exact ((h.fds_iff hall _ j).2).mpr ⟨hj, rfl⟩
      · exact (((h.fds_iff hall p j).2).mp hp).2.symm
  · rw [← readp_iff k.2 i.2]
    constructor
    · rintro ⟨j, hwrite, hread⟩
      have hi := (((h.fds_iff hall _ j).2).mp hwrite).2
      rw [← hi]
      exact (((h.fds_iff hall _ j).1).mp hread).2
    · intro hik
      exact ⟨i, ((h.fds_iff hall _ _).2).mpr ⟨i.2, rfl⟩, ((h.fds_iff hall _ _).1).mpr ⟨k.2, hik⟩⟩

theorem Pc.active_of_handles {c : Pc} (h : c.handles = true) : c.active = true := by
  cases c <;> simp_all [Pc.handles, Pc.active]

theorem Token.held_eq (h : Token q s l) (hp : p < q) :
    s.held q p = (if l = .pipe (readp q p) then 1 else 0) + if (s.pc p).handles then 1 else 0 := by
  unfold State.held
  rw [h.logs p hp, List.length_append, Nat.add_sub_cancel_left]
  congr 1
  split
  · rename_i hl
    rw [inFlight_message ((h.full _).mpr hl)]
    rfl
  · rename_i hl
    have hempty : s.pipe (readp q p) = [] := by
      by_contra hne
      exact hl ((h.full _).mp hne)
    rw [hempty]
    rfl

theorem Token.messages_le (h : Token q s l) : s.messages q ≤ 1 := by
  have hplace : ∀ p, p < q → s.held q p ≠ 0 → l = .proc p ∨ l = .pipe (readp q p) := by
    intro p hp hne
    rw [h.held_eq hp] at hne
    by_cases hhandles : (s.pc p).handles = true
    · exact .inl ((h.active p).mp (Pc.active_of_handles hhandles))
    · by_contra hnot
      rw [not_or] at hnot
      simp [hnot.2, hhandles] at hne
  have hone : ∀ p, p < q → s.held q p ≤ 1 := by
    intro p hp
    rw [h.held_eq hp]
    by_cases hpipe : l = .pipe (readp q p)
    · have hidle : (s.pc p).handles ≠ true := fun hhandles => by
        have hproc := (h.active p).mp (Pc.active_of_handles hhandles)
        rw [hpipe] at hproc
        cases hproc
      simp [hpipe, hidle]
    · simp only [hpipe, if_false, Nat.zero_add]
      split <;> omega
  unfold State.messages
  by_cases hsome : ∃ p, p < q ∧ s.held q p ≠ 0
  · obtain ⟨p, hp, hne⟩ := hsome
    rw [Finset.sum_eq_single p]
    · exact hone p hp
    · intro k hk hkp
      by_contra hne'
      have hk := Finset.mem_range.mp hk
      rcases hplace p hp hne with hl | hl <;> rcases hplace k hk hne' with hl' | hl' <;>
        rw [hl] at hl' <;> simp only [Place.proc.injEq, Place.pipe.injEq, reduceCtorEq] at hl'
      · exact hkp hl'.symm
      · exact hkp (readp_inj hk hp hl'.symm)
    · intro hnot
      exact absurd (Finset.mem_range.mpr hp) hnot
  · rw [Finset.sum_eq_zero fun p hp => ?_]
    · exact Nat.zero_le 1
    · by_contra hne
      exact hsome ⟨p, Finset.mem_range.mp hp, hne⟩

/-- **One message in one ring.** The ends that are left form one cycle, no process uses or
closes an end that is not open, the ring has at most one message, and what the reads of a
process have returned are the messages of its predecessor, in order and complete. -/
theorem one_message (hq : 2 ≤ q) (h : (ring q).Reach s) :
    ((∀ p, p < q → (s.pc p).works = true) → OneRing q s) ∧
    (∀ p, s.pc p ≠ .exited ∧ ((s.pc p).works = true →
      s.fds p .read (readp q p) = true ∧ s.fds p .write (writep p) = true)) ∧
    s.messages q ≤ 1 ∧
    ∀ p, p < q → s.sent ((p + q - 1) % q) = s.got p ++ inFlight (s.pipe ((p + q - 1) % q)) := by
  have hsetup : Setup q s := .reach (by omega) h
  obtain ⟨l, htoken⟩ := Token.reach (by omega) h
  refine ⟨fun hall => hsetup.oneRing hq hall, fun p => ⟨fun hexit => ?_, hsetup.uses⟩,
    htoken.messages_le, fun p hp => ?_⟩
  · have hrole := hsetup.role p
    simp [hexit, Pc.Role] at hrole
  · have hpred : (p + q - 1) % q = readp q p := by
      rcases readp_cases hp with ⟨rfl, hread⟩ | ⟨hp0, hread⟩
      · rw [hread, Nat.zero_add]
        exact Nat.mod_eq_of_lt (by omega)
      · rw [hread, show p + q - 1 = p - 1 + q by omega, Nat.add_mod_right]
        exact Nat.mod_eq_of_lt (by omega)
    rw [hpred]
    exact htoken.logs p hp

/-- Two processes: the parent has sent 42, and the child has read it. -/
theorem one_message_two : ∃ s, (ring 2).Reach s ∧ s.got 1 = [['4', '2']] ∧ OneRing 2 s := by
  have hrun : ((ring 2).exec (start 2) (List.replicate 11 ⟨0, 42⟩ ++ List.replicate 6 ⟨1, 0⟩)).map
      (fun s => (s.pc 0, s.pc 1, s.got 1)) = some (.read, .draw, [['4', '2']]) := by decide
  obtain ⟨s, hs, heq⟩ := Option.map_eq_some_iff.mp hrun
  simp only [Prod.mk.injEq] at heq
  have hreach : (ring 2).Reach s := LTS.Reach.exec (.init rfl) hs
  refine ⟨s, hreach, heq.2.2, (one_message (by decide) hreach).1 fun p hp => ?_⟩
  rcases (show p = 0 ∨ p = 1 by omega) with rfl | rfl
  · rw [heq.1]
    rfl
  · rw [heq.2.1]
    rfl

end Ops.Ring
