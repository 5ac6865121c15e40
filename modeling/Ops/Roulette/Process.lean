import Mathlib.Logic.Function.Basic
import Ops.Lib.Bytes
import Ops.Lib.Transition

/-!
# The roulette (`Example Tasks/example.c`)

The players and the croupier as steps, one for each `int` that is read or written. A pipe
is the list of its values, oldest first, and takes more than there can be in it. A `read`
that finds nothing is no step; the croupier's sees the end of the file when the player is
gone, and a player's does not, since the croupier keeps its end (`InStep.held`). `SIGPIPE`
ends who writes to a pipe that nobody can read, and `ERR` ends everybody.

A `Seat` is all that belongs to one player: the descriptors of the croupier, the two pipes
and the process. `placed` and `got` keep what the player wrote and read, `collected` what the
croupier read of it and in which round, `drawn` the lucky numbers.
-/

namespace Ops.Roulette

def rouletteNums : Nat := 37

inductive Player where
  | play (M : Int)
  | writeAm (M am num : Int)
  | writeNum (M am num : Int)
  | readLucky (M am num : Int)
  | closeRead
  | closeWrite
  | exited
  | killed
  deriving DecidableEq, Repr

structure Seat where
  fw : Nat
  fr : Nat
  player : Player
  bets : List Int
  luck : List Int
  placed : List (Int × Int)
  collected : List ((Int × Int) × Nat)
  got : List Int

/-- The next call of the croupier: the index of a loop, and what it has read or drawn. -/
inductive Croupier where
  | collect (i : Nat)
  | readNum (i : Nat) (am : Int)
  | pay (i : Nat) (lucky : Int)
  | finished
  | killed
  deriving DecidableEq, Repr

structure State where
  seat : Nat → Seat
  croupier : Croupier
  players : Int
  drawn : List Int

/-- A step of a player, with three values of `rand`, a step of the croupier, or a signal that
interrupts its first `read`. -/
inductive Act where
  | player (i rand rand' rand'' : Nat)
  | croupier (rand : Nat)
  | eintr
  deriving DecidableEq, Repr

/-- The player has the writing end of the pipe to the croupier. -/
def Player.writes : Player → Bool
  | .exited | .killed => false
  | _ => true

def Player.reads : Player → Bool
  | .closeWrite | .exited | .killed => false
  | _ => true

/-! ## `child_work` -/

/-- The money after a round. The arithmetic is on 32 bits. -/
def winnings (M am num lucky : Int) : Int :=
  if lucky = num then add32 M (35 * am) else add32 M (-am)

def playLoop (M : Int) : Player := if M ≤ 0 then .closeRead else .play M

/-- A step of the player of a seat; `open'` if the croupier can read from it. -/
def Seat.childWork (p : Seat) (open' : Bool) (rand rand' rand'' : Nat) : Option Seat :=
  match p.player with
  | .play M =>
    if rand % 10 = 0 then some { p with player := .closeRead }
    -- `rand() % 0`
    else if M = 0 then some { p with player := .killed }
    else some { p with player := .writeAm M (rand' % M + 1) ((rand'' % rouletteNums : Nat) : Int) }
  | .writeAm M am num =>
    if open' then some { p with player := .writeNum M am num, bets := p.bets ++ [am] }
    else some { p with player := .killed }
  | .writeNum M am num =>
    if open' then
      some { p with
        player := .readLucky M am num
        bets := p.bets ++ [num]
        placed := p.placed ++ [(am, num)] }
    else some { p with player := .killed }
  | .readLucky M am num =>
    match p.luck with
    | [] => none
    | lucky :: rest =>
      some { p with
        player := playLoop (winnings M am num lucky)
        luck := rest
        got := p.got ++ [lucky] }
  | .closeRead => some { p with player := .closeWrite }
  | .closeWrite => some { p with player := .exited }
  | .exited | .killed => none

/-! ## `parent_work` -/

/-- The croupier has not ended. -/
def Croupier.plays : Croupier → Bool
  | .finished | .killed => false
  | _ => true

def State.setSeat (s : State) (i : Nat) (p : Seat) : State :=
  { s with seat := Function.update s.seat i p }

/-- The first half of the body of the loop over the bets. -/
def State.collect (s : State) (i : Nat) : Option State :=
  if (s.seat i).fw = 0 then some { s with croupier := .collect (i + 1) }
  else match (s.seat i).bets with
    | am :: rest =>
      some { s.setSeat i { s.seat i with bets := rest } with croupier := .readNum i am }
    | [] =>
      if (s.seat i).player.writes then none
      else
        some { s.setSeat i { s.seat i with fw := 0, fr := 0 } with
          croupier := .collect (i + 1)
          players := s.players - 1 }

/-- `ERR` -/
def State.abort (s : State) : State :=
  { s with
    seat := fun i => { s.seat i with player := .killed }
    croupier := .killed }

/-- The second half. End of file is an error here. -/
def State.readNum (s : State) (i : Nat) (am : Int) : Option State :=
  match (s.seat i).bets with
  | num :: rest =>
    some { s.setSeat i { s.seat i with
        bets := rest
        collected := (s.seat i).collected ++ [((am, num), s.drawn.length)] } with
      croupier := .collect (i + 1) }
  | [] => if (s.seat i).player.writes then none else some s.abort

/-- The body of the loop over the players that are told. -/
def State.pay (s : State) (i : Nat) (lucky : Int) : State :=
  if (s.seat i).fw = 0 then { s with croupier := .pay (i + 1) lucky }
  else if (s.seat i).player.reads then
    { s.setSeat i { s.seat i with luck := (s.seat i).luck ++ [lucky] } with
      croupier := .pay (i + 1) lucky }
  else { s with croupier := .killed }

def State.parentWork (N : Nat) (s : State) (rand : Nat) : Option State :=
  match s.croupier with
  | .collect i =>
    if i < N then s.collect i
    else if s.players ≤ 0 then some { s with croupier := .finished }
    else
      let lucky : Int := ((rand % rouletteNums : Nat) : Int)
      some { s with croupier := .pay 0 lucky, drawn := s.drawn ++ [lucky] }
  | .readNum i am => s.readNum i am
  | .pay i lucky =>
    if i < N then some (s.pay i lucky) else some { s with croupier := .collect 0 }
  | .finished | .killed => none

/-- `i--`, and `i++` of the loop. -/
def State.interrupt (N : Nat) (s : State) : Option State :=
  match s.croupier with
  | .collect i => if i < N ∧ (s.seat i).fw ≠ 0 then some { s with croupier := .collect i } else none
  | _ => none

def State.next (N : Nat) (s : State) : Act → Option State
  | .player i rand rand' rand'' =>
    if i < N then
      ((s.seat i).childWork (s.croupier.plays && (s.seat i).fr != 0) rand rand' rand'').map
        (s.setSeat i)
    else none
  | .croupier rand => s.parentWork N rand
  | .eintr => s.interrupt N

/-- The players are forked, and `parent_work` begins. -/
def begun (N : Nat) (M : Int) (fw fr : Nat → Nat) : State where
  seat i :=
    { fw := fw i
      fr := fr i
      player := .play M
      bets := []
      luck := []
      placed := []
      collected := []
      got := [] }
  croupier := .collect 0
  players := N
  drawn := []

/-- The game of `N` players with `M` each, and the descriptors of the pipes. -/
def games (N : Nat) (M : Int) (fw fr : Nat → Nat) : LTS State Act where
  Init s := s = begun N M fw fr
  next := State.next N

end Ops.Roulette
