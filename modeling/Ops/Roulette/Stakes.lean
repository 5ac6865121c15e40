import Ops.Lib.Update
import Ops.Roulette.Process

/-!
# The stakes of the players

A player has money at the head of its loop, bets at most what it has, and leaves
the loop when it saves its money or has none left (`Valid`), as long as every bet
that wins fits: a win adds 35 times the bet, and nothing bounds the money of a
lucky player. The player's end by a signal is apart (`InStep.nobodyKilled`).
-/

namespace Ops.Roulette

/-- The value of an `int`. -/
def Fits32 (v : Int) : Prop := -2 ^ 31 ≤ v ∧ v < 2 ^ 31

/-- The money after a round, without a limit. -/
def balance (M am num lucky : Int) : Int := if lucky = num then M + 35 * am else M - am

/-- The money at the head of the loop, and the bet in its body. -/
def Player.Stake : Player → Prop
  | .play M => 0 < M
  | .writeAm M am _ | .writeNum M am _ | .readLucky M am _ => 1 ≤ am ∧ am ≤ M
  | _ => True

/-- The results of the next step are `int`s; `rand'` is the draw of the bet. -/
def Seat.Exact (p : Seat) (rand' : Nat) : Prop :=
  match p.player, p.luck with
  | .play M, _ => Fits32 (rand' % M + 1)
  | .readLucky M am num, lucky :: _ =>
    (lucky = num → Fits32 (35 * am)) ∧ Fits32 (balance M am num lucky)
  | _, _ => True

/-- The player saves its money, or has none after this round. -/
def Seat.Ends (p : Seat) (rand : Nat) : Prop :=
  match p.player, p.luck with
  | .play _, _ => rand % 10 = 0
  | .readLucky M am num, lucky :: _ => balance M am num lucky = 0
  | _, _ => False

def Player.inLoop : Player → Bool
  | .play _ | .writeAm _ _ _ | .writeNum _ _ _ | .readLucky _ _ _ => true
  | _ => false

/-- **The stakes are valid** before a step, and the step is exact and leaves the loop only when
it has to. -/
structure Valid (N : Nat) (s : State) (act : Act) : Prop where
  stake : ∀ i < N, (s.seat i).player.Stake
  exact : ∀ i rand rand' rand'', act = .player i rand rand' rand'' → (s.seat i).Exact rand'
  leaves : ∀ i rand rand' rand'' t, act = .player i rand rand' rand'' → s.next N act = some t →
    (s.seat i).player.inLoop = true →
      ((t.seat i).player = .closeRead ↔ (s.seat i).Ends rand)

def Seat.Fits (p : Seat) : Prop :=
  match p.player, p.luck with
  | .readLucky M am num, lucky :: _ => lucky = num → M + 35 * am < 2 ^ 31
  | _, _ => True

def Fits (s : State) (act : Act) : Prop :=
  ∀ i rand rand' rand'', act = .player i rand rand' rand'' → (s.seat i).Fits

/-! ## A player -/

/-- A valid stake, and money that is an `int`. -/
def Player.Rich : Player → Prop
  | .play M => 0 < M ∧ M < 2 ^ 31
  | .writeAm M am _ | .writeNum M am _ | .readLucky M am _ => 1 ≤ am ∧ am ≤ M ∧ M < 2 ^ 31
  | _ => True

variable {N rand rand' rand'' : Nat} {M am num lucky : Int} {fw fr : Nat → Nat} {open' : Bool}
variable {p p' : Seat} {s t : State} {act : Act}

theorem Player.Rich.stake {q : Player} (h : q.Rich) : q.Stake := by
  cases q with
  | play M => exact h.1
  | writeAm | writeNum | readLucky => exact ⟨h.1, h.2.1⟩
  | closeRead | closeWrite | exited | killed => trivial

theorem bet_range (rand' : Nat) (h : 0 < M) : 1 ≤ rand' % M + 1 ∧ rand' % M + 1 ≤ M := by
  have hnonneg := Int.emod_nonneg (rand' : Int) (Int.ne_of_gt h)
  have hlt := Int.emod_lt_of_pos (rand' : Int) h
  omega

theorem balance_range (ham : 1 ≤ am) (hle : am ≤ M) (hM : M < 2 ^ 31)
    (hfits : lucky = num → M + 35 * am < 2 ^ 31) :
    0 ≤ balance M am num lucky ∧ balance M am num lucky < 2 ^ 31 := by
  unfold balance
  split
  · rename_i hwin
    have hlt := hfits hwin
    omega
  · omega

theorem winnings_eq (h : Fits32 (balance M am num lucky)) :
    winnings M am num lucky = balance M am num lucky := by
  unfold winnings balance at *
  split
  · rename_i hwin
    rw [if_pos hwin] at h
    exact add32_eq h.1 h.2
  · rename_i hlose
    rw [if_neg hlose] at h
    exact add32_eq h.1 h.2

theorem Player.Rich.balance_fits {rest : List Int} (hp : p.player.Rich) (hfits : p.Fits)
    (hq : p.player = .readLucky M am num) (hluck : p.luck = lucky :: rest) :
    0 ≤ balance M am num lucky ∧ Fits32 (balance M am num lucky) := by
  rw [hq] at hp
  unfold Seat.Fits at hfits
  rw [hq, hluck] at hfits
  obtain ⟨hnonneg, hlt⟩ := balance_range hp.1 hp.2.1 hp.2.2 hfits
  exact ⟨hnonneg, Int.le_trans (by decide) hnonneg, hlt⟩

theorem playLoop_rich (h : 0 ≤ M) (hlt : M < 2 ^ 31) : (playLoop M).Rich := by
  unfold playLoop
  split
  · trivial
  · exact ⟨by omega, hlt⟩

theorem playLoop_closes (h : 0 ≤ M) : playLoop M = .closeRead ↔ M = 0 := by
  unfold playLoop
  split
  · simp only [true_iff]
    omega
  · simp only [reduceCtorEq, false_iff]
    omega

theorem Player.Rich.step (hp : p.player.Rich) (hfits : p.Fits)
    (h : p.childWork open' rand rand' rand'' = some p') : p'.player.Rich := by
  cases hq : p.player with
  | play M =>
    rw [hq] at hp
    unfold Seat.childWork at h
    simp only [hq] at h
    split at h
    · cases h; trivial
    · split at h
      · cases h; trivial
      · cases h
        obtain ⟨hpos, hle⟩ := bet_range rand' hp.1
        exact ⟨hpos, hle, hp.2⟩
  | writeAm M am num | writeNum M am num =>
    rw [hq] at hp
    unfold Seat.childWork at h
    simp only [hq] at h
    split at h
    · cases h; exact hp
    · cases h; trivial
  | readLucky M am num =>
    cases hluck : p.luck with
    | nil =>
      unfold Seat.childWork at h
      simp only [hq, hluck] at h
      cases h
    | cons lucky rest =>
      obtain ⟨hnonneg, hint⟩ := hp.balance_fits hfits hq hluck
      unfold Seat.childWork at h
      simp only [hq, hluck, winnings_eq hint] at h
      cases h
      exact playLoop_rich hnonneg hint.2
  | closeRead | closeWrite =>
    unfold Seat.childWork at h
    simp only [hq] at h
    cases h
    trivial
  | exited | killed =>
    unfold Seat.childWork at h
    simp only [hq] at h
    cases h

theorem Player.Rich.exact (hp : p.player.Rich) (hfits : p.Fits) (rand' : Nat) : p.Exact rand' := by
  unfold Seat.Exact
  split
  · rename_i M hq
    rw [hq] at hp
    obtain ⟨hpos, hle⟩ := bet_range rand' hp.1
    exact ⟨by omega, Int.lt_of_le_of_lt hle hp.2⟩
  · rename_i M am num lucky rest hq hluck
    refine ⟨fun hwin => ?_, (hp.balance_fits hfits hq hluck).2⟩
    unfold Seat.Fits at hfits
    rw [hq, hluck] at hfits
    have hlt := hfits hwin
    rw [hq] at hp
    obtain ⟨hpos, hle, -⟩ := hp
    exact ⟨by omega, by omega⟩
  · trivial

/-- A player leaves the loop to save its money, or without money. -/
theorem Player.Rich.leaves (hp : p.player.Rich) (hfits : p.Fits) (hloop : p.player.inLoop = true)
    (h : p.childWork open' rand rand' rand'' = some p') :
    p'.player = .closeRead ↔ p.Ends rand := by
  cases hq : p.player with
  | play M =>
    unfold Seat.childWork Seat.Ends at *
    simp only [hq] at h ⊢
    split at h
    · rename_i hsaves
      cases h
      simp only [hsaves]
    · rename_i hsaves
      split at h <;> cases h <;> simp only [hsaves, reduceCtorEq]
  | writeAm M am num | writeNum M am num =>
    unfold Seat.childWork Seat.Ends at *
    simp only [hq] at h ⊢
    split at h <;> cases h <;> simp only [reduceCtorEq]
  | readLucky M am num =>
    cases hluck : p.luck with
    | nil =>
      unfold Seat.childWork at h
      simp only [hq, hluck] at h
      cases h
    | cons lucky rest =>
      obtain ⟨hnonneg, hint⟩ := hp.balance_fits hfits hq hluck
      unfold Seat.childWork at h
      simp only [hq, hluck, winnings_eq hint] at h
      cases h
      unfold Seat.Ends
      simp only [hq, hluck]
      exact playLoop_closes hnonneg
  | closeRead | closeWrite | exited | killed =>
    rw [hq] at hloop
    cases hloop

/-! ## The game -/

theorem setSeat_player {j : Nat} (s : State) (p : Seat) (hp : p.player = (s.seat j).player)
    (i : Nat) : ((s.setSeat j p).seat i).player = (s.seat i).player :=
  update_same (f := Seat.player) hp i

/-- The croupier does not touch what a player has, but `ERR` ends it. -/
theorem parentWork_player (h : s.parentWork N rand = some t) (i : Nat) :
    (t.seat i).player = (s.seat i).player ∨ (t.seat i).player = .killed := by
  unfold State.parentWork at h
  split at h
  · rename_i j _
    split at h
    · unfold State.collect at h
      split at h
      · cases h; exact .inl rfl
      · split at h
        · rename_i rest _
          cases h
          exact .inl (setSeat_player s { s.seat j with bets := rest } rfl i)
        · split at h
          · cases h
          · cases h
            exact .inl (setSeat_player s { s.seat j with fw := 0, fr := 0 } rfl i)
    · split at h <;> cases h <;> exact .inl rfl
  · rename_i j am _
    unfold State.readNum at h
    split at h
    · rename_i num rest _
      cases h
      exact .inl (setSeat_player s { s.seat j with
        bets := rest
        collected := (s.seat j).collected ++ [((am, num), s.drawn.length)] } rfl i)
    · split at h
      · cases h
      · cases h; exact .inr rfl
  · rename_i j lucky _
    split at h
    · cases h
      unfold State.pay
      split
      · exact .inl rfl
      · split
        · exact .inl (setSeat_player s { s.seat j with luck := (s.seat j).luck ++ [lucky] } rfl i)
        · exact .inl rfl
    · cases h; exact .inl rfl
  · cases h
  · cases h

/-- The players' stakes are valid. -/
def State.Rich (s : State) : Prop := ∀ i, (s.seat i).player.Rich

theorem next_player_cases {i : Nat} (h : s.next N (.player i rand rand' rand'') = some t) :
    ∃ open' p, (s.seat i).childWork open' rand rand' rand'' = some p ∧
      t.seat = Function.update s.seat i p := by
  unfold State.next at h
  dsimp only at h
  split at h
  · obtain ⟨p, hp, rfl⟩ := Option.map_eq_some_iff.mp h
    exact ⟨_, p, hp, rfl⟩
  · cases h

theorem State.Rich.next (hs : s.Rich) (hfits : Fits s act) (h : s.next N act = some t) :
    t.Rich := by
  cases act with
  | player i rand rand' rand'' =>
    obtain ⟨open', p, hp, ht⟩ := next_player_cases h
    intro j
    rw [ht]
    exact update_keeps (P := fun p : Seat => p.player.Rich) (hs j)
      fun hi => hi.step (hfits i rand rand' rand'' rfl) hp
  | croupier rand =>
    intro j
    rcases parentWork_player h j with hsame | hkilled
    · exact hsame ▸ hs j
    · rw [hkilled]
      trivial
  | eintr =>
    change s.interrupt N = some t at h
    unfold State.interrupt at h
    split at h
    · split at h
      · cases h; exact hs
      · cases h
    · cases h

theorem State.Rich.valid (hs : s.Rich) (hfits : Fits s act) : Valid N s act where
  stake i _ := (hs i).stake
  exact i rand rand' rand'' hact := (hs i).exact (hfits i rand rand' rand'' hact) rand'
  leaves i rand rand' rand'' t hact h hloop := by
    subst hact
    obtain ⟨open', p, hp, ht⟩ := next_player_cases h
    rw [ht, Function.update_self]
    exact (hs i).leaves (hfits i rand rand' rand'' rfl) hloop hp

theorem Valid.fits (h : Valid N s act) : Fits s act := by
  intro i rand rand' rand'' hact
  have hexact := h.exact i rand rand' rand'' hact
  unfold Seat.Fits
  unfold Seat.Exact at hexact
  split
  · rename_i M am num lucky rest hq hluck
    rw [hq, hluck] at hexact
    intro hwin
    have hlt := hexact.2.2
    unfold balance at hlt
    rwa [if_pos hwin] at hlt
  · trivial

/-- **The stakes stay valid exactly as long as every bet that wins fits.** In a run, at every
head of the loop of every player there is money, every bet is between 1 and the money, no
result is outside an `int`, and a player leaves the loop to save its money or without money, if
and only if `M + 35 * am` is an `int` at each bet that wins. -/
theorem stakes_valid_iff {as : List Act} (hM : 100 ≤ M) (hint : M < 2 ^ 31)
    (he : (games N M fw fr).exec (begun N M fw fr) as = some t) :
    (games N M fw fr).Along (Valid N) (begun N M fw fr) as ∧ (∀ i < N, (t.seat i).player.Stake) ↔
      (games N M fw fr).Along Fits (begun N M fw fr) as := by
  have hbegun : (begun N M fw fr).Rich := fun _ => ⟨by omega, hint⟩
  constructor
  · rintro ⟨hvalid, -⟩
    exact hvalid.mono fun _ _ h => h.fits
  · intro hfits
    refine ⟨LTS.along_imp (fun _ _ _ hs hf hn => hs.next hf hn) (fun _ _ hs hf => hs.valid hf)
      hbegun hfits, fun i _ => ?_⟩
    have ht := LTS.along_inv (I := State.Rich) (fun _ _ _ hs hf hn => hs.next hf hn) hbegun hfits he
    exact (ht i).stake

/-- The only player bets `rand' % M + 1` on `num`, and `lucky` is drawn. -/
def luckyRound (rand' num lucky : Nat) : List Act :=
  [.player 0 1 rand' num, .player 0 0 0 0, .player 0 0 0 0, .croupier 0, .croupier 0,
    .croupier lucky, .croupier 0, .player 0 0 0 0]

def oneSeat (i : Nat) : Nat := i + 3

/-- A player bets 10 on 5 and loses. -/
theorem stakes_valid_loss : ∃ t, (games 1 100 oneSeat oneSeat).exec (begun 1 100 oneSeat oneSeat)
      (luckyRound 9 5 6) = some t ∧ (t.seat 0).player = .play 90 ∧
    ((games 1 100 oneSeat oneSeat).Along (Valid 1) (begun 1 100 oneSeat oneSeat)
        (luckyRound 9 5 6) ∧ (∀ i < 1, (t.seat i).player.Stake) ↔
      (games 1 100 oneSeat oneSeat).Along Fits (begun 1 100 oneSeat oneSeat)
        (luckyRound 9 5 6)) := by
  have hrun : ((games 1 100 oneSeat oneSeat).exec (begun 1 100 oneSeat oneSeat)
      (luckyRound 9 5 6)).map (fun s => (s.seat 0).player) = some (.play 90) := by decide +kernel
  obtain ⟨t, ht, hplayer⟩ := Option.map_eq_some_iff.mp hrun
  exact ⟨t, ht, hplayer, stakes_valid_iff (by decide) (by decide) ht⟩

/-- **A win overflows.** A player with 2147483647 bets all of it and wins; with the 36-fold
it would be rich, and it has -36 and leaves the loop. -/
theorem stakes_overflow : ∃ t, (games 1 2147483647 oneSeat oneSeat).exec
      (begun 1 2147483647 oneSeat oneSeat) (luckyRound 2147483646 5 5) = some t ∧
    (t.seat 0).got = [5] ∧ (t.seat 0).placed = [(2147483647, 5)] ∧
    ¬ Fits32 (balance 2147483647 2147483647 5 5) ∧
    winnings 2147483647 2147483647 5 5 = -36 ∧ (t.seat 0).player = .closeRead := by
  have hrun : ((games 1 2147483647 oneSeat oneSeat).exec (begun 1 2147483647 oneSeat oneSeat)
      (luckyRound 2147483646 5 5)).map (fun s => ((s.seat 0).got, (s.seat 0).placed,
        (s.seat 0).player)) = some ([5], [(2147483647, 5)], .closeRead) := by decide +kernel
  obtain ⟨t, ht, heq⟩ := Option.map_eq_some_iff.mp hrun
  simp only [Prod.mk.injEq] at heq
  exact ⟨t, ht, heq.1, heq.2.1, fun h => absurd h.2 (by decide), by decide +kernel, heq.2.2⟩

end Ops.Roulette
