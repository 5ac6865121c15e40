import Ops.Cities.Sane

/-!
# Complete frames

The first message of a client is used whatever its length, on top of what `data` holds from an
earlier event. As long as every client starts with a complete frame, all that the server does
is for a complete frame of the event's client (`framed`).
-/

namespace Ops.Cities

open Posix

variable {κ : Type} [DecidableEq κ] {a : Args} {s t : State κ} {act : Act κ}
variable {cs fd : Int} {received : List Byte} {evs todo : List Int} {c : κ}

/-! ## What should hold -/

/-- The deed is for the four bytes that the client of the event has sent in it. -/
def Deed.Whole (d : Deed κ) : Prop := d.received.length = dataSize ∧ d.frame = d.received

/-- All that the server has done was for complete frames; it changes `cities` or writes only where
this is recorded. -/
structure Framed (a : Args) (s : State κ) : Prop where
  whole : ∀ d ∈ s.deeds, d.Whole
  recorded : ∀ act t, s.next a act = some t →
    t.cities ≠ s.cities ∨ (∃ c, (t.net.conn c).out ≠ (s.net.conn c).out) →
      s.deeds.length < t.deeds.length

/-- The client that was just accepted. -/
def State.newcomer (s : State κ) : List κ :=
  match s.pc with
  | .greet cs _ => (s.net.fds cs).toList
  | _ => []

def Complete (s : State κ) : Act κ → Prop
  | .read _ => ∀ c ∈ s.newcomer, dataSize ≤ (s.net.conn c).inbox.length
  | _ => True

instance : ∀ act, Decidable (Complete s act)
  | .read _ => inferInstanceAs (Decidable (∀ c ∈ s.newcomer, _))
  | .peer _ | .pwait _ | .accept _ | .write _ => .isTrue trivial

/-! ## Steps -/

def Pc.Frame (data : List Byte) : Pc → Prop
  | .welcome _ received _ | .echo _ received _ | .broadcast _ received _ _ =>
    received.length = dataSize ∧ data = received
  | .events _ | .greet _ _ | .ended => True

structure Whole (s : State κ) : Prop where
  deeds : ∀ d ∈ s.deeds, d.Whole
  frame : s.pc.Frame s.data

theorem logged_whole (h : Whole s) : ∀ d ∈ s.logged.deeds, d.Whole := by
  have hframe := h.frame
  unfold State.logged
  split
  · rename_i hpc
    rw [hpc] at hframe
    exact deed_forall h.deeds hframe
  · rename_i hpc
    rw [hpc] at hframe
    exact deed_forall h.deeds hframe
  · rename_i hpc
    rw [hpc] at hframe
    exact deed_forall h.deeds hframe
  · exact h.deeds

theorem process_whole (hdeeds : ∀ d ∈ s.deeds, d.Whole)
    (hframe : received.length = dataSize ∧ s.data = received) :
    Whole (s.process cs received evs) := by
  have hpc : (s.process cs received evs).pc.Frame (s.process cs received evs).data := by
    obtain ⟨pc, hgoes, heq⟩ := process_shape s cs received evs
    rw [heq]
    cases hgoes with
    | events => trivial
    | broadcast => exact hframe
  exact ⟨process_deeds hdeeds (deed_forall hdeeds hframe), hpc⟩

theorem Whole.moves (h : Whole s) (hsane : Sane a s) (hcomplete : Complete s act)
    (hm : Moves a s act t) : Whole t := by
  have hframe := h.frame
  cases hm with
  | peer => exact ⟨h.deeds, h.frame⟩
  | pwait | accepted | surplus | vanished => exact ⟨h.deeds, trivial⟩
  | @greeted cs evs rs c hpc hfd =>
    have hnewcomer : c ∈ s.newcomer := by
      unfold State.newcomer
      rw [hpc]
      simp [hfd]
    have hlen : (s.frame c).length = dataSize := by
      unfold State.frame
      rw [List.length_take, Nat.min_eq_left (hcomplete c hnewcomer)]
    exact ⟨h.deeds, hlen, blit_all (by rw [hsane.data]; exact hlen.ge)⟩
  | @message fd evs rs c hpc hmem hfd =>
    refine ⟨h.deeds, ?_⟩
    show Pc.Frame _ (if _ then _ else _)
    split
    · rename_i hlen
      exact ⟨hlen, blit_all (by rw [hsane.data]; exact hlen.ge)⟩
    · trivial
  | @welcomed cs received evs ws net hpc hsent =>
    rw [hpc] at hframe
    refine process_whole (logged_whole h) ?_
    rw [logged_eq]
    exact hframe
  | @echoed cs received evs ws net hpc hsent =>
    rw [hpc] at hframe
    refine process_whole (logged_whole h) ?_
    rw [logged_eq]
    exact hframe
  | @sent cs fd received todo evs ws net hpc hsent =>
    rw [hpc] at hframe
    have hdata : State.data { s.logged with net := net } = received := by
      rw [logged_eq]
      exact hframe.2
    rcases broadcast_cases { s.logged with net := net } cs received evs todo with
      ⟨-, heq⟩ | ⟨skipped, fd', rest, -, -, -, -, heq⟩
    · rw [heq]
      exact ⟨logged_whole h, trivial⟩
    · rw [heq]
      exact ⟨logged_whole h, hframe.1, hdata⟩
  | ended hfatal hpc hdeeds =>
    refine ⟨by rw [hdeeds]; exact logged_whole h, ?_⟩
    rw [hpc]
    trivial

/-! ## What is recorded -/

theorem logged_longer (h : s.pc.target ≠ none) : s.deeds.length < s.logged.deeds.length := by
  have hadd : ∀ {effect : Effect} {cs fd : Int} {received : List Byte},
      s.deeds.length < (s.deed effect cs fd received).deeds.length := by
    intro effect cs fd received
    unfold State.deed
    simp
  unfold State.logged
  split
  · exact hadd
  · exact hadd
  · exact hadd
  · rename_i hwelcome hecho hbroadcast
    refine absurd ?_ h
    unfold Pc.target
    split
    · rename_i hpc
      exact absurd hpc (hwelcome _ _ _)
    · rename_i hpc
      exact absurd hpc (hecho _ _ _)
    · rename_i hpc
      exact absurd hpc (hbroadcast _ _ _ _ _)
    · rfl

theorem process_longer (s : State κ) (cs : Int) (received : List Byte) (evs : List Int) :
    s.deeds.length ≤ (s.process cs received evs).deeds.length := by
  rcases process_cases s cs received evs with ⟨-, heq⟩ | ⟨k, -, ⟨-, heq⟩ | ⟨-, heq⟩⟩
  · rw [heq]
    exact Nat.le_refl _
  · rw [heq]
    exact Nat.le_refl _
  · rw [heq]
    have hdeed : s.deeds.length ≤ (s.deed .change cs cs received).deeds.length := by
      unfold State.deed
      simp
    rcases broadcast_cases _ cs received evs s.clients with
      ⟨-, hgo⟩ | ⟨skipped, fd, rest, -, -, -, -, hgo⟩
    · rw [hgo]
      exact hdeed
    · rw [hgo]
      exact hdeed

theorem Moves.recorded (hm : Moves a s act t) :
    s.deeds.length < t.deeds.length ∨ Quiet s t := by
  cases hm with
  | peer hp => exact .inr ⟨rfl, rfl, (Net.peer_grows hp).out⟩
  | pwait | accepted | vanished => exact .inr ⟨rfl, rfl, fun _ => rfl⟩
  | surplus hpc hfull haccepts =>
    refine .inr ⟨rfl, rfl, fun c => ?_⟩
    cases haccepts with
    | conn | eagain => rfl
  | greeted | message => exact .inr ⟨rfl, rfl, Net.took_out s.net _ _⟩
  | @welcomed cs received evs ws net hpc =>
    refine .inl (Nat.lt_of_lt_of_le (logged_longer (by rw [hpc]; simp [Pc.target])) ?_)
    exact process_longer (State.enter { s.logged with net := net } cs) cs received evs
  | @echoed cs received evs ws net hpc =>
    refine .inl (Nat.lt_of_lt_of_le (logged_longer (by rw [hpc]; simp [Pc.target])) ?_)
    exact process_longer { s.logged with net := net } cs received evs
  | @sent cs fd received todo evs ws net hpc =>
    have hlonger : s.deeds.length < s.logged.deeds.length :=
      logged_longer (by rw [hpc]; simp [Pc.target])
    rcases broadcast_cases { s.logged with net := net } cs received evs todo with
      ⟨-, heq⟩ | ⟨skipped, fd', rest, -, -, -, -, heq⟩
    · rw [heq]
      exact .inl hlonger
    · rw [heq]
      exact .inl hlonger
  | ended hfatal hpc hdeeds hquiet =>
    by_cases htarget : s.pc.target = none
    · exact .inr (hquiet htarget)
    · rw [hdeeds]
      exact .inl (logged_longer htarget)

/-! ## Runs -/

/-- Whole frames in a state that is sane, unless the server has ended. -/
structure Inv (a : Args) (s : State κ) : Prop where
  whole : Whole s
  sane : s.pc = .ended ∨ Sane a s

namespace Inv

theorem step (h : Inv a s) (hcomplete : Complete s act) (hn : s.next a act = some t) :
    Inv a t := by
  rcases h.sane with hended | hsane
  · obtain ⟨hpc, hquiet⟩ := ended_next hended hn
    refine ⟨⟨by rw [hquiet.deeds]; exact h.whole.deeds, ?_⟩, .inl hpc⟩
    rw [hpc]
    trivial
  · have hm := next_moves hsane hn
    exact ⟨h.whole.moves hsane hcomplete hm, hsane.moves hm⟩

omit [DecidableEq κ] in
theorem init (h : Start a s) : Inv a s := by
  refine ⟨⟨fun d hd => ?_, ?_⟩, .inr (.init h)⟩
  · rw [h.deeds] at hd
    cases hd
  · rw [h.pc]
    trivial

theorem deeds_framed (h : Inv a s) : Framed a s := by
  refine ⟨h.whole.deeds, fun act t hn hseen => ?_⟩
  have hquiet : s.deeds.length < t.deeds.length ∨ Quiet s t := by
    rcases h.sane with hended | hsane
    · exact .inr (ended_next hended hn).2
    · exact (next_moves hsane hn).recorded
  refine hquiet.resolve_right fun hq => ?_
  rcases hseen with hcities | ⟨c, hc⟩
  · exact hcities hq.cities
  · exact hc (hq.out c)

end Inv

/-- **Complete frames**: as long as every client starts with a complete frame, whatever the server does
is for a complete frame, which is what the client of the event has sent in it. -/
theorem framed (h : (server κ a).ReachIf Complete s) : Framed a s :=
  (h.inv (I := Inv a) (fun _ hs => .init hs) fun _ _ _ _ hi hc hn => hi.step hc hn).deeds_framed

def takesFirst (c : Bool) (cs : Int) : List (Act Bool) :=
  [.peer (.connect 4 c), .peer (.send c [112, 48, 49, 46]), .pwait [4], .accept (.conn cs),
    .read [.data 3], .write [.wrote 3]]

/-- A second client takes the city, which the first one is told; it sends two bytes and leaves. -/
def takenOver : List (Act Bool) :=
  takesFirst true 5 ++ [.peer (.connect 4 false), .peer (.send false [103, 48, 49, 46]), .pwait [4],
    .accept (.conn 6), .read [.data 3], .write [.wrote 3], .write [.wrote 3],
    .peer (.send true [112, 48]), .peer (.close true), .pwait [5], .read [.data 3, .data 3]]

theorem framed_two : ∃ s, (server Bool sockets).execIf Complete (.idle Bool) takenOver = some s ∧
    s.cities 0 = 0 ∧ (s.net.conn true).out = [112, 48, 49, 46, 103, 48, 49, 46] ∧
      s.left = [true] ∧ Framed sockets s := by
  have hrun : ((server Bool sockets).execIf Complete (.idle Bool) takenOver).map
      (fun s => (s.cities 0, (s.net.conn true).out, s.left)) =
      some (0, [112, 48, 49, 46, 103, 48, 49, 46], [true]) := by decide +kernel
  obtain ⟨s, hs, heq⟩ := Option.map_eq_some_iff.mp hrun
  simp only [Prod.mk.injEq] at heq
  obtain ⟨hcities, hout, hleft⟩ := heq
  exact ⟨s, hs, hcities, hout, hleft, framed (LTS.ReachIf.execIf (.init idle_start) hs)⟩

/-- **A client that leaves without a frame** is echoed the frame of another client. -/
theorem not_framed : ∃ s, (server Bool sockets).Reach s ∧
    (s.net.conn false).sent = [] ∧ (s.net.conn false).out = [112, 48, 49, 46] ∧
      ¬ Framed sockets s := by
  have hrun : ((server Bool sockets).exec (.idle Bool) (takesFirst true 5 ++
      [.peer (.connect 4 false), .peer (.close false), .pwait [4], .accept (.conn 6),
        .read [.data 0], .write [.wrote 3]])).map
      (fun s => ((s.net.conn false).sent, (s.net.conn false).out,
        s.deeds.map fun d => d.received.length)) =
      some ([], [112, 48, 49, 46], [4, 4, 0]) := by decide +kernel
  obtain ⟨s, hs, heq⟩ := Option.map_eq_some_iff.mp hrun
  simp only [Prod.mk.injEq] at heq
  obtain ⟨hsent, hout, hdeeds⟩ := heq
  refine ⟨s, LTS.Reach.exec (.init idle_start) hs, hsent, hout, fun h => ?_⟩
  have hmem : 0 ∈ s.deeds.map fun d => d.received.length := by
    rw [hdeeds]
    simp
  obtain ⟨d, hd, hlen⟩ := List.mem_map.mp hmem
  cases hlen.symm.trans (h.whole d hd).1

end Ops.Cities
