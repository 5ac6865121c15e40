import Ops.Lib.Update
import Ops.Roulette.Process

/-!
# The croupier and the players stay in step

A player that has placed a bet waits until the croupier has collected the bets of all
others. So what is in the pipes of a seat says how far its player is in the round
(`Held`), and the croupier never waits for a player that waits for it (`in_step`).
-/

namespace Ops.Roulette

variable {N i j rand rand' rand'' : Nat} {M : Int} {fw fr : Nat → Nat} {drawn : List Int}
variable {p p' : Seat} {s t : State}

/-- The player has placed a bet that is not paid. -/
def Player.waits : Player → Bool
  | .readLucky _ _ _ => true
  | _ => false

/-- `players` is the number of the descriptors that are not closed. -/
def State.seated (N : Nat) (s : State) : Nat := (List.range N).countP fun i => (s.seat i).fw != 0

/-- **In step**. `paid`: a number is received for each bet, one at a time. `got`: the one that
is drawn in the round of the bet. `collected`: in round `k` the croupier collects the bet `k` of a
player. `held` and `target`: neither side writes to a pipe that the other one has closed, or reads the
end of the file while it waits. -/
structure InStep (N : Nat) (s : State) : Prop where
  paid : ∀ i < N, (s.seat i).placed.length =
    (s.seat i).got.length + if (s.seat i).player.waits then 1 else 0
  got : ∀ i < N, (s.seat i).got <+: s.drawn
  same : ∀ i < N, ∀ j < N, ∀ (k : Nat) (x y : Int),
    (s.seat i).got[k]? = some x → (s.seat j).got[k]? = some y → x = y
  collected : ∀ i < N, (s.seat i).collected <+: (s.seat i).placed.zipIdx
  held : ∀ i < N, (s.seat i).player.writes = true →
    (s.seat i).fw ≠ 0 ∧ (s.seat i).fr ≠ 0 ∧ s.croupier.plays = true
  target : ∀ i lucky, s.croupier = .pay i lucky → i < N → (s.seat i).fw ≠ 0 →
    (s.seat i).player.waits = true
  nobodyKilled : s.croupier ≠ .killed ∧ ∀ i < N, (s.seat i).player ≠ .killed
  count : s.croupier = .collect N → s.players = s.seated N
  room : ∀ i < N, (s.seat i).bets.length ≤ 2 ∧ (s.seat i).luck.length ≤ 1
  progress : (s.croupier = .finished ∧ ∀ i < N, (s.seat i).player = .exited) ∨
    ∃ act t, act ≠ .eintr ∧ s.next N act = some t

/-! ## A seat -/

/-- The player has taken part in all rounds, and has written nothing in the next one. -/
def Player.idle : Player → Prop
  | .play M => 0 < M
  | .writeAm _ _ _ | .closeRead | .closeWrite | .exited => True
  | _ => False

/-- A player that has written `written` of its next bet, when the numbers `drawn` are drawn. -/
inductive Sits (drawn : List Int) (p : Seat) : List Int → Prop where
  | told (M am num lucky : Int) (hq : p.player = .readLucky M am num) (hluck : p.luck = [lucky])
      (hgot : drawn = p.got ++ [lucky]) (hplaced : p.placed.length = drawn.length) : Sits drawn p []
  | idle (hq : p.player.idle) (hluck : p.luck = []) (hgot : p.got = drawn)
      (hplaced : p.placed.length = drawn.length) : Sits drawn p []
  | half (M am num : Int) (hq : p.player = .writeNum M am num) (hluck : p.luck = [])
      (hgot : p.got = drawn) (hplaced : p.placed.length = drawn.length) : Sits drawn p [am]
  | full (M am num : Int) (old : List (Int × Int)) (hq : p.player = .readLucky M am num)
      (hluck : p.luck = []) (hgot : p.got = drawn) (hold : old.length = drawn.length)
      (hplaced : p.placed = old ++ [(am, num)]) : Sits drawn p [am, num]

def whole : List Int → Nat
  | [_, _] => 1
  | _ => 0

/-- A player in the game, when the croupier has read `read` of its next bet. -/
structure Held (drawn read : List Int) (p : Seat) : Prop where
  fw : p.fw ≠ 0
  fr : p.fr ≠ 0
  sits : Sits drawn p (read ++ p.bets)
  collected : p.collected = (p.placed.take (drawn.length + whole read)).zipIdx

/-- A player that has left the game, and whose pipes are closed. -/
structure Gone (drawn : List Int) (p : Seat) : Prop where
  player : p.player = .exited
  fw : p.fw = 0
  bets : p.bets = []
  luck : p.luck = []
  paid : p.placed.length = p.got.length
  got : p.got <+: drawn
  collected : p.collected = p.placed.zipIdx

/-- The croupier has not collected from the seat in this round, or it has. -/
def Before (drawn : List Int) (p : Seat) : Prop := Gone drawn p ∨ Held drawn [] p

def After (drawn : List Int) (p : Seat) : Prop :=
  Gone drawn p ∨ ∃ am num, Held drawn [am, num] p

theorem Gone.stays (hp : Gone drawn p) (open' : Bool) :
    p.childWork open' rand rand' rand'' = none := by
  unfold Seat.childWork
  simp only [hp.player]

theorem playLoop_idle (M : Int) : (playLoop M).idle := by
  unfold playLoop
  split
  · trivial
  · exact Int.not_le.mp ‹_›

theorem Held.step {read : List Int} (hp : Held drawn read p)
    (h : p.childWork true rand rand' rand'' = some p') : Held drawn read p' := by
  obtain ⟨hfw, hfr, hsits, hcol⟩ := hp
  generalize hw : read ++ p.bets = written at hsits
  unfold Seat.childWork at h
  cases hsits with
  | told M am num lucky hq hluck hgot hplaced =>
    simp only [hq, hluck] at h
    cases h
    exact ⟨hfw, hfr, hw.symm ▸ .idle (playLoop_idle _) rfl hgot.symm hplaced, hcol⟩
  | idle hq hluck hgot hplaced =>
    split at h
    · rename_i M hq'
      rw [hq'] at hq
      have hpos : 0 < M := hq
      have hne : M ≠ 0 := by omega
      rw [if_neg hne] at h
      split at h
      · cases h
        exact ⟨hfw, hfr, hw.symm ▸ .idle trivial hluck hgot hplaced, hcol⟩
      · cases h
        exact ⟨hfw, hfr, hw.symm ▸ .idle trivial hluck hgot hplaced, hcol⟩
    · rename_i M am num hq'
      cases h
      refine ⟨hfw, hfr, ?_, hcol⟩
      show Sits drawn _ (read ++ (p.bets ++ [am]))
      rw [← List.append_assoc, hw]
      exact .half M am num rfl hluck hgot hplaced
    · rename_i hq'; rw [hq'] at hq; cases hq
    · rename_i hq'; rw [hq'] at hq; cases hq
    · cases h
      exact ⟨hfw, hfr, hw.symm ▸ .idle trivial hluck hgot hplaced, hcol⟩
    · cases h
      exact ⟨hfw, hfr, hw.symm ▸ .idle trivial hluck hgot hplaced, hcol⟩
    · cases h
    · cases h
  | half M am num hq hluck hgot hplaced =>
    simp only [hq, if_true] at h
    cases h
    have hread : whole read = 0 := by
      match read with
      | [] => rfl
      | [_] => rfl
      | _ :: _ :: _ => cases hw
    refine ⟨hfw, hfr, ?_, ?_⟩
    · show Sits drawn _ (read ++ (p.bets ++ [num]))
      rw [← List.append_assoc, hw]
      exact .full M am num p.placed rfl hluck hgot hplaced rfl
    · show p.collected = ((p.placed ++ [(am, num)]).take _).zipIdx
      rw [hcol, hread, Nat.add_zero, List.take_append_of_le_length (Nat.le_of_eq hplaced.symm)]
  | full M am num old hq hluck hgot hold hplaced =>
    simp only [hq, hluck] at h
    cases h

theorem Gone.snoc (hp : Gone drawn p) (lucky : Int) : Gone (drawn ++ [lucky]) p :=
  { hp with got := hp.got.trans (List.prefix_append drawn [lucky]) }

/-! ## What the croupier does at a seat -/

theorem Sits.congr {written : List Int} (hp : Sits drawn p written)
    (hplayer : p'.player = p.player) (hluck' : p'.luck = p.luck) (hplaced' : p'.placed = p.placed)
    (hgot' : p'.got = p.got) : Sits drawn p' written := by
  cases hp with
  | told M am num lucky hq hluck hgot hplaced =>
    exact .told M am num lucky (hplayer.trans hq) (hluck'.trans hluck) (hgot' ▸ hgot)
      (hplaced' ▸ hplaced)
  | idle hq hluck hgot hplaced =>
    exact .idle (hplayer ▸ hq) (hluck'.trans hluck) (hgot'.trans hgot) (hplaced' ▸ hplaced)
  | half M am num hq hluck hgot hplaced =>
    exact .half M am num (hplayer.trans hq) (hluck'.trans hluck) (hgot'.trans hgot)
      (hplaced' ▸ hplaced)
  | full M am num old hq hluck hgot hold hplaced =>
    exact .full M am num old (hplayer.trans hq) (hluck'.trans hluck) (hgot'.trans hgot) hold
      (hplaced'.trans hplaced)

theorem Held.read_am {am : Int} {rest : List Int} (hp : Held drawn [] p)
    (hbets : p.bets = am :: rest) : Held drawn [am] { p with bets := rest } := by
  refine ⟨hp.fw, hp.fr, ?_, hp.collected⟩
  have hsits := hp.sits
  rw [hbets] at hsits
  exact hsits.congr rfl rfl rfl rfl

theorem Held.read_num {am num : Int} {rest : List Int} (hp : Held drawn [am] p)
    (hbets : p.bets = num :: rest) : Held drawn [am, num] { p with
      bets := rest, collected := p.collected ++ [((am, num), drawn.length)] } := by
  have hsits := hp.sits
  rw [hbets] at hsits
  refine ⟨hp.fw, hp.fr, hsits.congr rfl rfl rfl rfl, ?_⟩
  have hcol : p.collected = (p.placed.take drawn.length).zipIdx := hp.collected
  generalize hw : [am] ++ num :: rest = written at hsits
  cases hsits with
  | told M am num lucky hq hluck hgot hplaced => cases hw
  | idle hq hluck hgot hplaced => cases hw
  | half M am num hq hluck hgot hplaced => cases hw
  | full M am' num' old hq hluck hgot hold hplaced =>
    cases hw
    show p.collected ++ [((am, num), drawn.length)] = (p.placed.take (drawn.length + 1)).zipIdx
    rw [hcol, hplaced, List.take_left' hold, List.take_of_length_le (by simp [hold]),
      List.zipIdx_append, hold]
    simp

theorem Held.leaves (hp : Held drawn [] p) (hbets : p.bets = [])
    (hwrites : p.player.writes = false) : Gone drawn { p with fw := 0, fr := 0 } := by
  have hsits := hp.sits
  rw [hbets] at hsits
  have hcol : p.collected = (p.placed.take drawn.length).zipIdx := hp.collected
  generalize hw : ([] ++ [] : List Int) = written at hsits
  cases hsits with
  | told M am num lucky hq hluck hgot hplaced => rw [hq] at hwrites; cases hwrites
  | idle hq hluck hgot hplaced =>
    have hexited : p.player = .exited := by
      cases hplayer : p.player with
      | exited => rfl
      | killed => rw [hplayer] at hq; cases hq
      | _ => rw [hplayer] at hwrites; cases hwrites
    refine ⟨hexited, rfl, hbets, hluck, hplaced.trans (congrArg _ hgot.symm),
      hgot ▸ List.prefix_rfl, ?_⟩
    rw [hcol, List.take_of_length_le (Nat.le_of_eq hplaced)]
  | half M am num hq hluck hgot hplaced => cases hw
  | full M am num old hq hluck hgot hold hplaced => cases hw

theorem Held.half_writes {am : Int} (hp : Held drawn [am] p) (hbets : p.bets = []) :
    ∃ M num, p.player = .writeNum M am num := by
  have hsits := hp.sits
  rw [hbets] at hsits
  generalize hw : ([am] ++ [] : List Int) = written at hsits
  cases hsits with
  | told M am num lucky hq hluck hgot hplaced => cases hw
  | idle hq hluck hgot hplaced => cases hw
  | half M am' num hq hluck hgot hplaced =>
    cases hw
    exact ⟨M, num, hq⟩
  | full M am num old hq hluck hgot hold hplaced => cases hw

/-- A player whose bet is collected waits for the number, and is told it. -/
theorem Held.waiting {am num : Int} (hp : Held drawn [am, num] p) :
    (∃ M, p.player = .readLucky M am num) ∧ p.luck = [] ∧ p.bets = [] ∧ p.got = drawn ∧
      p.placed.length = drawn.length + 1 := by
  have hsits := hp.sits
  generalize hw : [am, num] ++ p.bets = written at hsits
  cases hsits with
  | told M am num lucky hq hluck hgot hplaced => cases hw
  | idle hq hluck hgot hplaced => cases hw
  | half M am' num hq hluck hgot hplaced => cases hw
  | full M am' num' old hq hluck hgot hold hplaced =>
    have hbets : p.bets = [] := by
      simp only [List.cons_append, List.nil_append, List.cons.injEq] at hw
      exact hw.2.2
    simp only [hbets, List.append_nil, List.cons.injEq, and_true] at hw
    obtain ⟨rfl, rfl⟩ := hw
    exact ⟨⟨M, hq⟩, hluck, hbets, hgot, by rw [hplaced, List.length_append, hold]; rfl⟩

theorem Held.told {am num : Int} (hp : Held drawn [am, num] p) (lucky : Int) :
    Held (drawn ++ [lucky]) [] { p with luck := p.luck ++ [lucky] } := by
  obtain ⟨⟨M, hq⟩, hluck, hbets, hgot, hplaced⟩ := hp.waiting
  have hlen : (drawn ++ [lucky]).length = drawn.length + 1 := List.length_append
  refine ⟨hp.fw, hp.fr, ?_, ?_⟩
  · show Sits (drawn ++ [lucky]) _ p.bets
    rw [hbets]
    exact .told M am num lucky hq (by rw [hluck]; rfl) (by rw [hgot]) (hplaced.trans hlen.symm)
  · rw [hlen]
    exact hp.collected

/-! ## All seats -/

/-- The seats before the index `i`, and those from it on. -/
structure Parted (N i : Nat) (low high : Seat → Prop) (seat : Nat → Seat) : Prop where
  low : ∀ j < i, low (seat j)
  high : ∀ j, i ≤ j → j < N → high (seat j)

variable {low high low' high' : Seat → Prop} {seat : Nat → Seat} {l : Nat}

theorem Parted.keep (h : Parted N i low high seat) (hi : low (seat i)) :
    Parted N (i + 1) low high seat := by
  refine ⟨fun j hj => ?_, fun j hj hjN => h.high j (by omega) hjN⟩
  by_cases hji : j = i
  · exact hji ▸ hi
  · exact h.low j (by omega)

theorem Parted.next (h : Parted N i low high seat) (hp : low p) :
    Parted N (i + 1) low high (Function.update seat i p) := by
  refine ⟨fun j hj => ?_, fun j hj hjN => ?_⟩
  · by_cases hji : j = i
    · rw [hji, Function.update_self]
      exact hp
    · rw [Function.update_of_ne hji]
      exact h.low j (by omega)
  · rw [Function.update_of_ne (by omega)]
    exact h.high j (by omega) hjN

theorem Parted.moved (h : Parted N i low high seat) (hlow : low (seat l) → low p)
    (hhigh : high (seat l) → high p) : Parted N i low high (Function.update seat l p) :=
  ⟨fun j hj => update_keeps (h.low j hj) hlow, fun j hj hjN => update_keeps (h.high j hj hjN) hhigh⟩

/-- The end of a loop over the seats, and the beginning of the next one. -/
theorem Parted.turn (h : Parted N N low high seat) (hhigh : ∀ p, low p → high' p) :
    Parted N 0 low' high' seat :=
  ⟨fun j hj => absurd hj (Nat.not_lt_zero j), fun j _ hjN => hhigh _ (h.low j hjN)⟩

/-- Where the croupier is, and where this puts the players. -/
inductive Lockstep (N : Nat) (s : State) : Prop where
  | collect (i : Nat) (hi : i ≤ N) (hq : s.croupier = .collect i)
      (hseats : Parted N i (After s.drawn) (Before s.drawn) s.seat)
  | readNum (i : Nat) (am : Int) (hi : i < N) (hq : s.croupier = .readNum i am)
      (hlow : ∀ j < i, After s.drawn (s.seat j)) (hheld : Held s.drawn [am] (s.seat i))
      (hhigh : ∀ j, i < j → j < N → Before s.drawn (s.seat j))
  | pay (i : Nat) (lucky : Int) (earlier : List Int) (hi : i ≤ N) (hq : s.croupier = .pay i lucky)
      (hdrawn : s.drawn = earlier ++ [lucky])
      (hseats : Parted N i (Before s.drawn) (After earlier) s.seat)
  | finished (hq : s.croupier = .finished) (hgone : ∀ j < N, Gone s.drawn (s.seat j))

theorem Before.step (hp : Before drawn p)
    (h : p.childWork (true && p.fr != 0) rand rand' rand'' = some p') : Before drawn p' := by
  rcases hp with hgone | hheld
  · rw [hgone.stays] at h
    cases h
  · rw [bne_iff_ne.mpr hheld.fr] at h
    exact .inr (hheld.step h)

theorem After.step (hp : After drawn p)
    (h : p.childWork (true && p.fr != 0) rand rand' rand'' = some p') : After drawn p' := by
  rcases hp with hgone | ⟨am, num, hheld⟩
  · rw [hgone.stays] at h
    cases h
  · rw [bne_iff_ne.mpr hheld.fr] at h
    exact .inr ⟨am, num, hheld.step h⟩

theorem Lockstep.player_step (hl : Lockstep N s) (hlN : l < N)
    (h : (s.seat l).childWork (s.croupier.plays && (s.seat l).fr != 0) rand rand' rand'' = some p) :
    Lockstep N (s.setSeat l p) := by
  cases hl with
  | collect i hi hq hseats =>
    rw [hq] at h
    exact .collect i hi hq (hseats.moved (·.step h) (·.step h))
  | readNum i am hi hq hlow hheld hhigh =>
    rw [hq] at h
    have hmid : Held s.drawn [am] (s.seat l) → Held s.drawn [am] p := fun hp => by
      rw [bne_iff_ne.mpr hp.fr] at h
      exact hp.step h
    exact .readNum i am hi hq (fun j hj => update_keeps (hlow j hj) (·.step h))
      (update_keeps hheld hmid) (fun j hj hjN => update_keeps (hhigh j hj hjN) (·.step h))
  | pay i lucky earlier hi hq hdrawn hseats =>
    rw [hq] at h
    exact .pay i lucky earlier hi hq hdrawn (hseats.moved (·.step h) (·.step h))
  | finished hq hgone =>
    rw [(hgone l hlN).stays] at h
    cases h

/-! ## A step of the croupier -/

theorem childWork_fw {open' : Bool} (h : p.childWork open' rand rand' rand'' = some p') :
    p'.fw = p.fw := by
  unfold Seat.childWork at h
  split at h <;> grind

theorem seated_same (ht : t.seat = Function.update s.seat i p) (hfw : p.fw = (s.seat i).fw) :
    t.seated N = s.seated N := by
  refine countP_same fun j _ => ?_
  rw [ht]
  by_cases hji : j = i
  · rw [hji, Function.update_self, hfw]
  · rw [Function.update_of_ne hji]

theorem seated_fall (hi : i < N) (ht : t.seat = Function.update s.seat i p)
    (hfw : (s.seat i).fw ≠ 0) (hclosed : p.fw = 0) : s.seated N = t.seated N + 1 := by
  refine countP_fall List.nodup_range (List.mem_range.mpr hi) (bne_iff_ne.mpr hfw) ?_ fun j hji => ?_
  · rw [ht, Function.update_self, hclosed]
    rfl
  · rw [ht, Function.update_of_ne hji]

/-- A step of the croupier at a seat that is still to be asked. -/
theorem Lockstep.collect_step (hi : i < N) (hseats : Parted N i (After s.drawn) (Before s.drawn) s.seat)
    (hcount : s.players = s.seated N) (h : s.collect i = some t) :
    Lockstep N t ∧ t.players = t.seated N := by
  unfold State.collect at h
  rcases hseats.high i (Nat.le_refl i) hi with hgone | hheld
  · rw [if_pos hgone.fw] at h
    cases h
    exact ⟨.collect (i + 1) hi rfl (hseats.keep (.inl hgone)), hcount⟩
  · rw [if_neg hheld.fw] at h
    split at h
    · rename_i am rest hbets
      cases h
      refine ⟨.readNum i am hi rfl (fun j hj => ?_) ?_ (fun j hj hjN => ?_), ?_⟩
      · show After s.drawn (Function.update s.seat i _ j)
        rw [Function.update_of_ne (by omega)]
        exact hseats.low j hj
      · show Held s.drawn [am] (Function.update s.seat i _ i)
        rw [Function.update_self]
        exact hheld.read_am hbets
      · show Before s.drawn (Function.update s.seat i _ j)
        rw [Function.update_of_ne (by omega)]
        exact hseats.high j (by omega) hjN
      · exact hcount.trans (congrArg _ (seated_same rfl (by rfl)).symm)
    · rename_i hbets
      split at h
      · cases h
      · rename_i hwrites
        have hgone := hheld.leaves hbets (Bool.eq_false_iff.mpr hwrites)
        have ht := Option.some.inj h
        have hfall : s.seated N = t.seated N + 1 := by
          rw [← ht]
          exact seated_fall hi rfl hheld.fw hgone.fw
        refine ⟨?_, ?_⟩
        · rw [← ht]
          exact .collect (i + 1) hi rfl (hseats.next (.inl hgone))
        · have hplayers : t.players = s.players - 1 := by rw [← ht]
          omega

theorem Lockstep.readNum_step {am : Int} (hi : i < N) (hlow : ∀ j < i, After s.drawn (s.seat j))
    (hheld : Held s.drawn [am] (s.seat i)) (hhigh : ∀ j, i < j → j < N → Before s.drawn (s.seat j))
    (hcount : s.players = s.seated N) (h : s.readNum i am = some t) :
    Lockstep N t ∧ t.players = t.seated N := by
  unfold State.readNum at h
  split at h
  · rename_i num rest hbets
    cases h
    refine ⟨.collect (i + 1) hi rfl ⟨fun j hj => ?_, fun j hj hjN => ?_⟩, ?_⟩
    · show After s.drawn (Function.update s.seat i _ j)
      by_cases hji : j = i
      · rw [hji, Function.update_self]
        exact .inr ⟨am, num, hheld.read_num hbets⟩
      · rw [Function.update_of_ne hji]
        exact hlow j (by omega)
    · show Before s.drawn (Function.update s.seat i _ j)
      rw [Function.update_of_ne (by omega)]
      exact hhigh j hj hjN
    · exact hcount.trans (congrArg _ (seated_same rfl (by rfl)).symm)
  · rename_i hbets
    obtain ⟨M, num, hq⟩ := hheld.half_writes hbets
    rw [hq] at h
    cases h

theorem Lockstep.pay_step {lucky : Int} {earlier : List Int} (hi : i < N)
    (hdrawn : s.drawn = earlier ++ [lucky])
    (hseats : Parted N i (Before s.drawn) (After earlier) s.seat) (hcount : s.players = s.seated N) :
    Lockstep N (s.pay i lucky) ∧ (s.pay i lucky).players = (s.pay i lucky).seated N := by
  unfold State.pay
  rcases hseats.high i (Nat.le_refl i) hi with hgone | ⟨am, num, hheld⟩
  · rw [if_pos hgone.fw]
    exact ⟨.pay (i + 1) lucky earlier hi rfl hdrawn
      (hseats.keep (.inl (hdrawn ▸ hgone.snoc lucky))), hcount⟩
  · obtain ⟨⟨M, hq⟩, -⟩ := hheld.waiting
    rw [if_neg hheld.fw, if_pos (by rw [hq]; rfl)]
    exact ⟨.pay (i + 1) lucky earlier hi rfl hdrawn
      (hseats.next (.inr (hdrawn ▸ hheld.told lucky))),
      hcount.trans (congrArg _ (seated_same rfl (by rfl)).symm)⟩

theorem all_gone (hseated : s.seated N = 0) (hi : i < N) (hp : After drawn (s.seat i)) :
    Gone drawn (s.seat i) := by
  rcases hp with hgone | ⟨am, num, hheld⟩
  · exact hgone
  · have hzero := List.countP_eq_zero.mp hseated i (List.mem_range.mpr hi)
    exact absurd (bne_iff_ne.mpr hheld.fw) hzero

theorem Lockstep.croupier_step (hl : Lockstep N s) (hcount : s.players = s.seated N)
    (h : s.parentWork N rand = some t) : Lockstep N t ∧ t.players = t.seated N := by
  unfold State.parentWork at h
  cases hl with
  | collect i hi hq hseats =>
    simp only [hq] at h
    split at h
    · exact collect_step ‹_› hseats hcount h
    · obtain rfl : i = N := by omega
      split at h
      · cases h
        have hseated : s.seated i = 0 := by omega
        exact ⟨.finished rfl fun j hj => all_gone hseated hj (hseats.low j hj), hcount⟩
      · cases h
        exact ⟨.pay 0 _ s.drawn (Nat.zero_le i) rfl rfl (hseats.turn fun _ hp => hp), hcount⟩
  | readNum i am hi hq hlow hheld hhigh =>
    simp only [hq] at h
    exact readNum_step hi hlow hheld hhigh hcount h
  | pay i lucky earlier hi hq hdrawn hseats =>
    simp only [hq] at h
    split at h
    · cases h
      exact pay_step ‹_› hdrawn hseats hcount
    · obtain rfl : i = N := by omega
      cases h
      exact ⟨.collect 0 (Nat.zero_le i) rfl (hseats.turn fun _ hp => hp), hcount⟩
  | finished hq hgone =>
    simp only [hq] at h
    cases h

/-! ## Every run -/

theorem lockstep_reach (hM : 0 < M) (hfw : ∀ i < N, fw i ≠ 0) (hfr : ∀ i < N, fr i ≠ 0)
    (h : (games N M fw fr).Reach s) : Lockstep N s ∧ s.players = s.seated N := by
  refine h.inv (I := fun s => Lockstep N s ∧ s.players = s.seated N) (fun s hs => ?_) ?_
  · obtain rfl : s = begun N M fw fr := hs
    refine ⟨.collect 0 (Nat.zero_le N) rfl ⟨fun j hj => absurd hj (Nat.not_lt_zero j),
      fun j _ hj => .inr ⟨hfw j hj, hfr j hj, .idle hM rfl rfl rfl, rfl⟩⟩, ?_⟩
    have hall : (begun N M fw fr).seated N = (List.range N).length :=
      List.countP_eq_length.mpr fun j hj => bne_iff_ne.mpr (hfw j (List.mem_range.mp hj))
    rw [hall, List.length_range]
    rfl
  · rintro s act t - ⟨hl, hcount⟩ hnext
    unfold games State.next at hnext
    dsimp only at hnext
    split at hnext
    · rename_i i rand rand' rand''
      split at hnext
      · obtain ⟨p, hp, rfl⟩ := Option.map_eq_some_iff.mp hnext
        exact ⟨hl.player_step ‹_› hp,
          hcount.trans (congrArg _ (seated_same rfl (childWork_fw hp)).symm)⟩
      · cases hnext
    · exact hl.croupier_step hcount hnext
    · unfold State.interrupt at hnext
      split at hnext
      · rename_i i hq
        split at hnext
        · cases hnext
          rw [← hq]
          exact ⟨hl, hcount⟩
        · cases hnext
      · cases hnext

/-! ## What the lockstep says -/

variable {read : List Int}

theorem Held.some_sits (hp : Held drawn read p) : ∃ written, Sits drawn p written := ⟨_, hp.sits⟩

theorem Held.paid (hp : Held drawn read p) :
    p.placed.length = p.got.length + if p.player.waits then 1 else 0 := by
  obtain ⟨written, hsits⟩ := hp.some_sits
  cases hsits with
  | told M am num lucky hq hluck hgot hplaced => simp [hq, hplaced, hgot, Player.waits]
  | idle hq hluck hgot hplaced =>
    have hwaits : p.player.waits = false := by
      cases hplayer : p.player with
      | readLucky M am num => rw [hplayer] at hq; cases hq
      | _ => rfl
    simp [hwaits, hplaced, hgot]
  | half M am num hq hluck hgot hplaced => simp [hq, hplaced, hgot, Player.waits]
  | full M am num old hq hluck hgot hold hplaced => simp [hq, hplaced, hgot, hold, Player.waits]

theorem Held.got_prefix (hp : Held drawn read p) : p.got <+: drawn := by
  obtain ⟨written, hsits⟩ := hp.some_sits
  cases hsits with
  | told M am num lucky hq hluck hgot hplaced => exact ⟨[lucky], hgot.symm⟩
  | idle hq hluck hgot hplaced => exact hgot ▸ List.prefix_rfl
  | half M am num hq hluck hgot hplaced => exact hgot ▸ List.prefix_rfl
  | full M am num old hq hluck hgot hold hplaced => exact hgot ▸ List.prefix_rfl

theorem Held.collected_prefix (hp : Held drawn read p) : p.collected <+: p.placed.zipIdx := by
  have hprefix := List.take_prefix (drawn.length + whole read) p.placed
  obtain ⟨rest, hrest⟩ := hprefix
  rw [hp.collected]
  refine ⟨rest.zipIdx (0 + (p.placed.take (drawn.length + whole read)).length), ?_⟩
  rw [← List.zipIdx_append, hrest]

theorem Held.room (hp : Held drawn read p) : p.bets.length ≤ 2 ∧ p.luck.length ≤ 1 := by
  have hlen : p.bets.length ≤ (read ++ p.bets).length := by simp
  have hsits := hp.sits
  generalize read ++ p.bets = written at hsits hlen
  cases hsits with
  | told M am num lucky hq hluck hgot hplaced =>
    exact ⟨hlen.trans (Nat.zero_le 2), by rw [hluck]; exact Nat.le_refl 1⟩
  | idle hq hluck hgot hplaced =>
    exact ⟨hlen.trans (Nat.zero_le 2), by rw [hluck]; exact Nat.zero_le 1⟩
  | half M am num hq hluck hgot hplaced =>
    exact ⟨hlen.trans (Nat.le_succ 1), by rw [hluck]; exact Nat.zero_le 1⟩
  | full M am num old hq hluck hgot hold hplaced =>
    exact ⟨hlen, by rw [hluck]; exact Nat.zero_le 1⟩

theorem Held.not_killed (hp : Held drawn read p) : p.player ≠ .killed := by
  intro hkilled
  obtain ⟨written, hsits⟩ := hp.some_sits
  cases hsits with
  | told M am num lucky hq => rw [hkilled] at hq; cases hq
  | idle hq => rw [hkilled] at hq; cases hq
  | half M am num hq => rw [hkilled] at hq; cases hq
  | full M am num old hq => rw [hkilled] at hq; cases hq

/-- A seat: the player is gone, or the croupier plays and has its ends of the pipes. -/
theorem Lockstep.of_seat (hl : Lockstep N s) (hi : i < N) : ∃ drawn, drawn <+: s.drawn ∧
    (Gone drawn (s.seat i) ∨ (∃ read, Held drawn read (s.seat i)) ∧ s.croupier.plays = true) := by
  have hbefore : ∀ {p}, Before s.drawn p → s.croupier.plays = true → ∃ drawn, drawn <+: s.drawn ∧
      (Gone drawn p ∨ (∃ read, Held drawn read p) ∧ s.croupier.plays = true) :=
    fun hp hplays => ⟨s.drawn, List.prefix_rfl, hp.imp id fun hheld => ⟨⟨[], hheld⟩, hplays⟩⟩
  have hafter : ∀ {p d}, d <+: s.drawn → After d p → s.croupier.plays = true →
      ∃ drawn, drawn <+: s.drawn ∧
        (Gone drawn p ∨ (∃ read, Held drawn read p) ∧ s.croupier.plays = true) :=
    fun hd hp hplays => ⟨_, hd, hp.imp id fun ⟨am, num, hheld⟩ => ⟨⟨[am, num], hheld⟩, hplays⟩⟩
  cases hl with
  | collect l hl hq hseats =>
    have hplays : s.croupier.plays = true := by rw [hq]; rfl
    rcases Nat.lt_or_ge i l with hlt | hge
    · exact hafter List.prefix_rfl (hseats.low i hlt) hplays
    · exact hbefore (hseats.high i hge hi) hplays
  | readNum l am hl hq hlow hheld hhigh =>
    have hplays : s.croupier.plays = true := by rw [hq]; rfl
    rcases Nat.lt_trichotomy i l with hlt | rfl | hgt
    · exact hafter List.prefix_rfl (hlow i hlt) hplays
    · exact ⟨s.drawn, List.prefix_rfl, .inr ⟨⟨[am], hheld⟩, hplays⟩⟩
    · exact hbefore (hhigh i hgt hi) hplays
  | pay l lucky earlier hl hq hdrawn hseats =>
    have hplays : s.croupier.plays = true := by rw [hq]; rfl
    rcases Nat.lt_or_ge i l with hlt | hge
    · exact hbefore (hseats.low i hlt) hplays
    · exact hafter ⟨[lucky], hdrawn.symm⟩ (hseats.high i hge hi) hplays
  | finished hq hgone => exact ⟨s.drawn, List.prefix_rfl, .inl (hgone i hi)⟩

theorem Held.goes (hp : Held drawn [] p) (hbets : p.bets = []) (hwrites : p.player.writes = true) :
    ∃ p', p.childWork true 0 0 0 = some p' := by
  have hsits := hp.sits
  rw [hbets] at hsits
  unfold Seat.childWork
  generalize hw : ([] ++ [] : List Int) = written at hsits
  cases hsits with
  | told M am num lucky hq hluck hgot hplaced =>
    simp only [hq, hluck]
    exact ⟨_, rfl⟩
  | idle hq hluck hgot hplaced =>
    cases hplayer : p.player with
    | readLucky M am num => rw [hplayer] at hq; cases hq
    | exited => rw [hplayer] at hwrites; cases hwrites
    | killed => rw [hplayer] at hwrites; cases hwrites
    | _ => exact ⟨_, rfl⟩
  | half M am num hq hluck hgot hplaced => cases hw
  | full M am num old hq hluck hgot hold hplaced => cases hw

theorem next_player (hi : i < N) (hplays : s.croupier.plays = true) (hfr : (s.seat i).fr ≠ 0)
    (h : ∃ p, (s.seat i).childWork true 0 0 0 = some p) :
    ∃ act t, act ≠ .eintr ∧ s.next N act = some t := by
  obtain ⟨p, hp⟩ := h
  refine ⟨.player i 0 0 0, s.setSeat i p, nofun, ?_⟩
  unfold State.next
  dsimp only
  rw [if_pos hi, hplays, bne_iff_ne.mpr hfr, Bool.and_true, hp]
  rfl

theorem next_croupier (h : ∃ t, s.parentWork N 0 = some t) :
    ∃ act t, act ≠ .eintr ∧ s.next N act = some t := by
  obtain ⟨t, ht⟩ := h
  exact ⟨.croupier 0, t, nofun, ht⟩

theorem Lockstep.progress (hl : Lockstep N s) :
    (s.croupier = .finished ∧ ∀ i < N, (s.seat i).player = .exited) ∨
      ∃ act t, act ≠ .eintr ∧ s.next N act = some t := by
  cases hl with
  | collect i hi hq hseats =>
    right
    have hplays : s.croupier.plays = true := by rw [hq]; rfl
    by_cases hiN : i < N
    · rcases hseats.high i (Nat.le_refl i) hiN with hgone | hheld
      · apply next_croupier
        simp only [State.parentWork, hq, if_pos hiN, State.collect, if_pos hgone.fw]
        exact ⟨_, rfl⟩
      · by_cases hgoes : (s.seat i).bets = [] ∧ (s.seat i).player.writes = true
        · exact next_player hiN hplays hheld.fr (hheld.goes hgoes.1 hgoes.2)
        · apply next_croupier
          simp only [State.parentWork, hq, if_pos hiN, State.collect, if_neg hheld.fw]
          cases hbets : (s.seat i).bets with
          | cons am rest => exact ⟨_, rfl⟩
          | nil =>
            have hwrites : ¬ (s.seat i).player.writes = true := fun h => hgoes ⟨hbets, h⟩
            simp only [if_neg hwrites]
            exact ⟨_, rfl⟩
    · apply next_croupier
      simp only [State.parentWork, hq, if_neg hiN]
      split
      · exact ⟨_, rfl⟩
      · exact ⟨_, rfl⟩
  | readNum i am hi hq hlow hheld hhigh =>
    right
    cases hbets : (s.seat i).bets with
    | cons num rest =>
      apply next_croupier
      simp only [State.parentWork, hq, State.readNum, hbets]
      exact ⟨_, rfl⟩
    | nil =>
      obtain ⟨M, num, hplayer⟩ := hheld.half_writes hbets
      refine next_player hi (by rw [hq]; rfl) hheld.fr ?_
      simp only [Seat.childWork, hplayer, if_true]
      exact ⟨_, rfl⟩
  | pay i lucky earlier hi hq hdrawn hseats =>
    right
    apply next_croupier
    simp only [State.parentWork, hq]
    split
    · exact ⟨_, rfl⟩
    · exact ⟨_, rfl⟩
  | finished hq hgone => exact .inl ⟨hq, fun i hi => (hgone i hi).player⟩

theorem drawn_of_got {got : List Int} {k : Nat} {x : Int} (h : got <+: drawn)
    (hx : got[k]? = some x) : drawn[k]? = some x := by
  obtain ⟨rest, rfl⟩ := h
  obtain ⟨hk, -⟩ := List.getElem?_eq_some_iff.mp hx
  rw [List.getElem?_append_left hk, hx]

/-- **The croupier and the players stay in step**, for every number of players and every stake,
in every reachable state: each bet is paid with exactly one number, the one drawn in the round
of the bet; nobody writes to a pipe that is closed; the croupier's count is right at the end of
each pass; and somebody can go on until all have ended. -/
theorem in_step (hM : 0 < M) (hfw : ∀ i < N, fw i ≠ 0) (hfr : ∀ i < N, fr i ≠ 0)
    (h : (games N M fw fr).Reach s) : InStep N s := by
  obtain ⟨hl, hcount⟩ := lockstep_reach hM hfw hfr h
  have hgot : ∀ i < N, (s.seat i).got <+: s.drawn := fun i hi => by
    obtain ⟨drawn, hdrawn, hgone | ⟨⟨read, hheld⟩, -⟩⟩ := hl.of_seat hi
    · exact hgone.got.trans hdrawn
    · exact hheld.got_prefix.trans hdrawn
  refine ⟨fun i hi => ?_, hgot, fun i hi j hj k x y hx hy => ?_, fun i hi => ?_, fun i hi hwrites => ?_,
    fun i lucky hq hi hopen => ?_, ⟨fun hq => ?_, fun i hi => ?_⟩, fun _ => hcount, fun i hi => ?_,
    hl.progress⟩
  · obtain ⟨drawn, -, hgone | ⟨⟨read, hheld⟩, -⟩⟩ := hl.of_seat hi
    · rw [hgone.player, hgone.paid]
      rfl
    · exact hheld.paid
  · exact Option.some.inj ((drawn_of_got (hgot i hi) hx).symm.trans (drawn_of_got (hgot j hj) hy))
  · obtain ⟨drawn, -, hgone | ⟨⟨read, hheld⟩, -⟩⟩ := hl.of_seat hi
    · rw [hgone.collected]
    · exact hheld.collected_prefix
  · obtain ⟨drawn, -, hgone | ⟨⟨read, hheld⟩, hplays⟩⟩ := hl.of_seat hi
    · rw [hgone.player] at hwrites
      cases hwrites
    · exact ⟨hheld.fw, hheld.fr, hplays⟩
  · cases hl with
    | collect l hl hq' => rw [hq] at hq'; cases hq'
    | readNum l am hl hq' => rw [hq] at hq'; cases hq'
    | finished hq' => rw [hq] at hq'; cases hq'
    | pay l lucky' earlier hl hq' hdrawn hseats =>
      rw [hq] at hq'
      cases hq'
      rcases hseats.high i (Nat.le_refl i) hi with hgone | ⟨am, num, hheld⟩
      · exact absurd hgone.fw hopen
      · obtain ⟨⟨M, hplayer⟩, -⟩ := hheld.waiting
        rw [hplayer]
        rfl
  · cases hl with
    | collect l hl hq' => rw [hq] at hq'; cases hq'
    | readNum l am hl hq' => rw [hq] at hq'; cases hq'
    | finished hq' => rw [hq] at hq'; cases hq'
    | pay l lucky' earlier hl hq' => rw [hq] at hq'; cases hq'
  · obtain ⟨drawn, -, hgone | ⟨⟨read, hheld⟩, -⟩⟩ := hl.of_seat hi
    · rw [hgone.player]
      nofun
    · exact hheld.not_killed
  · obtain ⟨drawn, -, hgone | ⟨⟨read, hheld⟩, -⟩⟩ := hl.of_seat hi
    · rw [hgone.bets, hgone.luck]
      exact ⟨Nat.zero_le 2, Nat.zero_le 1⟩
    · exact hheld.room

/-- Two players bet on 5 and on 6, the number is 6, the first one leaves, and the croupier finds
its pipe closed. -/
def aRound : List Act :=
  [.player 0 1 9 5, .player 1 1 19 6, .player 0 0 0 0, .player 1 0 0 0, .player 0 0 0 0, .eintr,
    .croupier 0, .croupier 0, .player 1 0 0 0, .croupier 0, .croupier 0, .croupier 6, .croupier 0,
    .croupier 0, .croupier 0, .player 0 0 0 0, .player 1 0 0 0, .player 0 10 0 0, .player 0 0 0 0,
    .player 0 0 0 0, .croupier 0]

def twoSeats (i : Nat) : Nat := i + 3

/-- Two players with 100 each, of whom one is left after a round. -/
theorem in_step_round : ∃ s, (games 2 100 twoSeats twoSeats).exec (begun 2 100 twoSeats twoSeats)
    aRound = some s ∧ s.players = 1 ∧ (s.seat 1).player = .play 800 ∧ InStep 2 s := by
  have hrun : ((games 2 100 twoSeats twoSeats).exec (begun 2 100 twoSeats twoSeats) aRound).map
      (fun s => (s.players, (s.seat 1).player)) = some (1, .play 800) := by decide +kernel
  obtain ⟨s, hs, heq⟩ := Option.map_eq_some_iff.mp hrun
  simp only [Prod.mk.injEq] at heq
  exact ⟨s, hs, heq.1, heq.2, in_step (by decide) (fun i _ => Nat.succ_ne_zero _)
    (fun i _ => Nat.succ_ne_zero _) (LTS.Reach.exec (.init rfl) hs)⟩

end Ops.Roulette
