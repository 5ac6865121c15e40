import Ops.Bounded.Process
import Ops.Lib.Circular

/-!
# The buffer is a queue

The rounds of the two threads tell what each semaphore has, where `in` and `out` are, and which
items are in the buffer. So the consumer takes what the producer made, in this order, and one of
them can always go on (`bounded_buffer`).
-/

namespace Ops.Bounded

open Posix

variable {N ITERATIONS : Nat} {s t : State}

/-! ## Where the threads are -/

namespace ProducerPc

def round (ITERATIONS : Nat) : ProducerPc → Nat
  | loop i | waitEmpty i | waitMtx i | store i | advance i | postMtx i | postNonempty i => i
  | done => ITERATIONS

/-- Between `sem_wait (&empty)` and `sem_post (&nonempty)`: 1 for an item being inserted. -/
def inserting : ProducerPc → Nat
  | waitMtx _ | store _ | advance _ | postMtx _ | postNonempty _ => 1
  | loop _ | waitEmpty _ | done => 0

def inMtx : ProducerPc → Nat
  | store _ | advance _ | postMtx _ => 1
  | loop _ | waitEmpty _ | waitMtx _ | postNonempty _ | done => 0

/-- The item of this round is in the buffer. -/
def stored : ProducerPc → Nat
  | advance _ | postMtx _ | postNonempty _ => 1
  | loop _ | waitEmpty _ | waitMtx _ | store _ | done => 0

def advanced : ProducerPc → Nat
  | postMtx _ | postNonempty _ => 1
  | loop _ | waitEmpty _ | waitMtx _ | store _ | advance _ | done => 0

def Fits (ITERATIONS : Nat) : ProducerPc → Prop
  | loop i => i ≤ ITERATIONS
  | waitEmpty i | waitMtx i | store i | advance i | postMtx i | postNonempty i => i < ITERATIONS
  | done => True

end ProducerPc

namespace ConsumerPc

def round (ITERATIONS : Nat) : ConsumerPc → Nat
  | loop i | waitNonempty i | waitMtx i | load i | advance i _ | check i _ | postMtx i
  | postEmpty i => i
  | done => ITERATIONS

/-- Between `sem_wait (&nonempty)` and `sem_post (&empty)`: 1 for an item being removed. -/
def removing : ConsumerPc → Nat
  | waitMtx _ | load _ | advance _ _ | check _ _ | postMtx _ | postEmpty _ => 1
  | loop _ | waitNonempty _ | done => 0

def inMtx : ConsumerPc → Nat
  | load _ | advance _ _ | check _ _ | postMtx _ => 1
  | loop _ | waitNonempty _ | waitMtx _ | postEmpty _ | done => 0

/-- The item of this round was taken. -/
def loaded : ConsumerPc → Nat
  | advance _ _ | check _ _ | postMtx _ | postEmpty _ => 1
  | loop _ | waitNonempty _ | waitMtx _ | load _ | done => 0

def advanced : ConsumerPc → Nat
  | check _ _ | postMtx _ | postEmpty _ => 1
  | loop _ | waitNonempty _ | waitMtx _ | load _ | advance _ _ | done => 0

/-- With the item of this round. -/
def Fits (ITERATIONS : Nat) : ConsumerPc → Prop
  | loop i => i ≤ ITERATIONS
  | waitNonempty i | waitMtx i | load i | postMtx i | postEmpty i => i < ITERATIONS
  | advance i item | check i item => i < ITERATIONS ∧ item = i
  | done => True

end ConsumerPc

def State.stored (ITERATIONS : Nat) (s : State) : Nat :=
  s.producer.round ITERATIONS + s.producer.stored

/-- How many items the consumer has taken. -/
def State.loaded (ITERATIONS : Nat) (s : State) : Nat :=
  s.consumer.round ITERATIONS + s.consumer.loaded

/-! ## What should hold -/

structure Correct (N ITERATIONS : Nat) (s : State) : Prop where
  taken : ∀ (i : Nat) (item : Int), s.taken[i]? = some item → item = i
  /-- What is not taken yet is in the buffer. -/
  kept : Circular N s.items (fun k => k) s.taken.length (s.stored ITERATIONS)
  all : s.consumer = .done → s.taken.length = ITERATIONS
  corruption : s.corruption = 0
  full : s.empty + s.nonempty + (s.producer.inserting + s.consumer.removing) = N
  in_ : s.in_ < N
  out : s.out < N
  live : s.producer ≠ .done ∨ s.consumer ≠ .done → ∃ act t, s.next N ITERATIONS act = some t

structure Inv (N ITERATIONS : Nat) (s : State) : Prop where
  mtx : s.mtx + (s.producer.inMtx + s.consumer.inMtx) = 1
  empty : s.empty + (s.producer.round ITERATIONS + s.producer.inserting) =
    N + s.consumer.round ITERATIONS
  nonempty : s.nonempty + (s.consumer.round ITERATIONS + s.consumer.removing) =
    s.producer.round ITERATIONS
  in_ : s.in_ = (s.producer.round ITERATIONS + s.producer.advanced) % N
  out : s.out = (s.consumer.round ITERATIONS + s.consumer.advanced) % N
  items : Circular N s.items (fun k => k) (s.loaded ITERATIONS) (s.stored ITERATIONS)
  taken : s.taken = (List.range (s.loaded ITERATIONS)).map Int.ofNat
  corruption : s.corruption = 0
  producer : s.producer.Fits ITERATIONS
  consumer : s.consumer.Fits ITERATIONS

namespace Inv

/-! ## Steps -/

/-- A step of the producer from `c₀`, with the new values of what it writes. -/
theorem produce {c₀ c : ProducerPc} {mtx empty nonempty in_ : Nat} {items : Nat → Int}
    (h : Inv N ITERATIONS s) (hpc : s.producer = c₀) (hmtx : mtx + c.inMtx = s.mtx + c₀.inMtx)
    (hempty : empty + (c.round ITERATIONS + c.inserting) =
      s.empty + (c₀.round ITERATIONS + c₀.inserting))
    (hnonempty : nonempty + c₀.round ITERATIONS = s.nonempty + c.round ITERATIONS)
    (hin : in_ = (c.round ITERATIONS + c.advanced) % N)
    (hitems : Circular N items (fun k => k) (s.loaded ITERATIONS)
      (c.round ITERATIONS + c.stored))
    (hfits : c.Fits ITERATIONS) :
    Inv N ITERATIONS { s with
      mtx := mtx, empty := empty, nonempty := nonempty, in_ := in_, items := items,
      producer := c } := by
  subst hpc
  exact {
    mtx := by
      have hbefore := h.mtx
      show mtx + (c.inMtx + s.consumer.inMtx) = 1
      omega
    empty := hempty.trans h.empty
    nonempty := by
      have hbefore := h.nonempty
      show nonempty + (s.consumer.round ITERATIONS + s.consumer.removing) = c.round ITERATIONS
      omega
    in_ := hin
    out := h.out
    items := hitems
    taken := h.taken
    corruption := h.corruption
    producer := hfits
    consumer := h.consumer }

/-- A step of the consumer from `c₀`, with the new values of what it writes. -/
theorem consume {c₀ c : ConsumerPc} {mtx empty nonempty out corruption : Nat} {taken : List Int}
    (h : Inv N ITERATIONS s) (hpc : s.consumer = c₀) (hmtx : mtx + c.inMtx = s.mtx + c₀.inMtx)
    (hempty : empty + c₀.round ITERATIONS = s.empty + c.round ITERATIONS)
    (hnonempty : nonempty + (c.round ITERATIONS + c.removing) =
      s.nonempty + (c₀.round ITERATIONS + c₀.removing))
    (hout : out = (c.round ITERATIONS + c.advanced) % N)
    (hitems : Circular N s.items (fun k => k) (c.round ITERATIONS + c.loaded)
      (s.stored ITERATIONS))
    (htaken : taken = (List.range (c.round ITERATIONS + c.loaded)).map Int.ofNat)
    (hcorruption : corruption = 0) (hfits : c.Fits ITERATIONS) :
    Inv N ITERATIONS { s with
      mtx := mtx, empty := empty, nonempty := nonempty, out := out, taken := taken,
      corruption := corruption, consumer := c } := by
  subst hpc
  exact {
    mtx := by
      have hbefore := h.mtx
      show mtx + (s.producer.inMtx + c.inMtx) = 1
      omega
    empty := by
      have hbefore := h.empty
      show empty + (s.producer.round ITERATIONS + s.producer.inserting) = N + c.round ITERATIONS
      omega
    nonempty := hnonempty.trans h.nonempty
    in_ := h.in_
    out := hout
    items := hitems
    taken := htaken
    corruption := hcorruption
    producer := h.producer
    consumer := hfits }

theorem produce_step (h : Inv N ITERATIONS s) (hn : s.produce N ITERATIONS = some t) :
    Inv N ITERATIONS t := by
  have hin := h.in_
  have hitems : Circular _ _ _ _ (s.producer.round ITERATIONS + s.producer.stored) := h.items
  have hempty := h.empty
  have hfits := h.producer
  unfold State.produce at hn
  obtain ⟨c, hpc⟩ : ∃ c, s.producer = c := ⟨_, rfl⟩
  rw [hpc] at hin hitems hempty hfits hn
  cases c with
  | loop i =>
    cases hn
    split
    · rename_i hi
      exact h.produce hpc rfl rfl rfl hin hitems hi
    · rename_i hi
      obtain rfl : i = ITERATIONS := Nat.le_antisymm hfits (Nat.not_lt.mp hi)
      exact h.produce hpc rfl rfl rfl hin hitems trivial
  | waitEmpty i =>
    obtain ⟨v, hv, rfl⟩ := Option.map_eq_some_iff.mp hn
    have hval := semWait_some.mp hv
    refine h.produce hpc rfl ?_ rfl hin hitems hfits
    show v + (i + 1) = s.empty + (i + 0)
    omega
  | waitMtx i =>
    obtain ⟨v, hv, rfl⟩ := Option.map_eq_some_iff.mp hn
    exact h.produce hpc (semWait_some.mp hv).symm rfl rfl hin hitems hfits
  | store i =>
    cases hn
    -- the place is free since `empty` has counted it
    have hroom : i < s.loaded ITERATIONS + N := by
      have hcounted : s.empty + (i + 1) = N + s.consumer.round ITERATIONS := hempty
      unfold State.loaded
      omega
    refine h.produce hpc rfl rfl rfl hin ?_ hfits
    rw [hin]
    exact hitems.store hroom
  | advance i =>
    cases hn
    refine h.produce hpc rfl rfl rfl ?_ hitems hfits
    rw [hin]
    exact place_next _ _
  | postMtx i =>
    cases hn
    exact h.produce hpc rfl rfl rfl hin hitems hfits
  | postNonempty i =>
    cases hn
    refine h.produce hpc rfl rfl ?_ hin hitems hfits
    show s.nonempty + 1 + i = s.nonempty + (i + 1)
    omega
  | done => cases hn

theorem consume_step (h : Inv N ITERATIONS s) (hn : s.consume N ITERATIONS = some t) :
    Inv N ITERATIONS t := by
  have hout := h.out
  have hitems : Circular _ _ _ (s.consumer.round ITERATIONS + s.consumer.loaded) _ := h.items
  have htaken : _ = (List.range (s.consumer.round ITERATIONS + s.consumer.loaded)).map _ := h.taken
  have hnonempty := h.nonempty
  have hfits := h.consumer
  have hnone := h.corruption
  unfold State.consume at hn
  obtain ⟨c, hpc⟩ : ∃ c, s.consumer = c := ⟨_, rfl⟩
  rw [hpc] at hout hitems htaken hnonempty hfits hn
  cases c with
  | loop i =>
    cases hn
    split
    · rename_i hi
      exact h.consume hpc rfl rfl rfl hout hitems htaken hnone hi
    · rename_i hi
      obtain rfl : i = ITERATIONS := Nat.le_antisymm hfits (Nat.not_lt.mp hi)
      exact h.consume hpc rfl rfl rfl hout hitems htaken hnone trivial
  | waitNonempty i =>
    obtain ⟨v, hv, rfl⟩ := Option.map_eq_some_iff.mp hn
    have hval := semWait_some.mp hv
    refine h.consume hpc rfl rfl ?_ hout hitems htaken hnone hfits
    show v + (i + 1) = s.nonempty + (i + 0)
    omega
  | waitMtx i =>
    obtain ⟨v, hv, rfl⟩ := Option.map_eq_some_iff.mp hn
    exact h.consume hpc (semWait_some.mp hv).symm rfl rfl hout hitems htaken hnone hfits
  | load i =>
    cases hn
    -- the item is there since `nonempty` has counted it
    have hsome : i < s.stored ITERATIONS := by
      have hcounted : s.nonempty + (i + 1) = s.producer.round ITERATIONS := hnonempty
      unfold State.stored
      omega
    have hitem : s.items s.out = i := by
      rw [hout]
      exact hitems.oldest hsome
    refine h.consume hpc rfl rfl rfl hout hitems.take ?_ hnone ⟨hfits, hitem⟩
    rw [htaken, hitem]
    show _ = (List.range (i + 1)).map Int.ofNat
    rw [List.range_succ, List.map_append]
    rfl
  | advance i item =>
    cases hn
    refine h.consume hpc rfl rfl rfl ?_ hitems htaken hnone hfits
    rw [hout]
    exact place_next _ _
  | check i item =>
    cases hn
    refine h.consume hpc rfl rfl rfl hout hitems htaken ?_ hfits.1
    rw [if_neg (not_not.mpr hfits.2), hnone]
  | postMtx i =>
    cases hn
    exact h.consume hpc rfl rfl rfl hout hitems htaken hnone hfits
  | postEmpty i =>
    cases hn
    refine h.consume hpc rfl ?_ rfl hout hitems htaken hnone hfits
    show s.empty + 1 + i = s.empty + (i + 1)
    omega
  | done => cases hn

theorem step {act : Act} (h : Inv N ITERATIONS s) (hn : s.next N ITERATIONS act = some t) :
    Inv N ITERATIONS t := by
  cases act with
  | producer => exact h.produce_step hn
  | consumer => exact h.consume_step hn

theorem init : Inv N ITERATIONS (.start N) where
  mtx := rfl
  empty := rfl
  nonempty := rfl
  in_ := (Nat.zero_mod N).symm
  out := (Nat.zero_mod N).symm
  items := .nil
  taken := rfl
  corruption := rfl
  producer := Nat.zero_le _
  consumer := Nat.zero_le _

theorem reach (hr : (buffer N ITERATIONS).Reach s) : Inv N ITERATIONS s :=
  LTS.Reach.inv (fun _ hs => hs ▸ init) (fun _ _ _ _ hi hn => hi.step hn) hr

/-! ## Progress -/

theorem produce_moves (hdone : s.producer ≠ .done)
    (hempty : (∃ i, s.producer = .waitEmpty i) → 0 < s.empty)
    (hmtx : (∃ i, s.producer = .waitMtx i) → 0 < s.mtx) :
    ∃ act t, s.next N ITERATIONS act = some t := by
  refine ⟨.producer, Option.isSome_iff_exists.mp ?_⟩
  show (s.produce N ITERATIONS).isSome = true
  unfold State.produce
  cases hpc : s.producer with
  | waitEmpty i => simp only [semWait_pos (hempty ⟨i, hpc⟩), Option.map_some, Option.isSome_some]
  | waitMtx i => simp only [semWait_pos (hmtx ⟨i, hpc⟩), Option.map_some, Option.isSome_some]
  | done => exact absurd hpc hdone
  | loop | store | advance | postMtx | postNonempty => rfl

theorem consume_moves (hdone : s.consumer ≠ .done)
    (hnonempty : (∃ i, s.consumer = .waitNonempty i) → 0 < s.nonempty)
    (hmtx : (∃ i, s.consumer = .waitMtx i) → 0 < s.mtx) :
    ∃ act t, s.next N ITERATIONS act = some t := by
  refine ⟨.consumer, Option.isSome_iff_exists.mp ?_⟩
  show (s.consume N ITERATIONS).isSome = true
  unfold State.consume
  cases hpc : s.consumer with
  | waitNonempty i =>
    simp only [semWait_pos (hnonempty ⟨i, hpc⟩), Option.map_some, Option.isSome_some]
  | waitMtx i => simp only [semWait_pos (hmtx ⟨i, hpc⟩), Option.map_some, Option.isSome_some]
  | done => exact absurd hpc hdone
  | loop | load | advance | check | postMtx | postEmpty => rfl

/-- Who waits for an item finds one if the other waits for a place or is done. -/
theorem not_both (h : Inv N ITERATIONS s) (hN : 1 ≤ N)
    (hproducer : s.producer = .done ∨ (∃ i, s.producer = .waitEmpty i) ∧ s.empty = 0)
    (hconsumer : s.consumer = .done ∨ (∃ i, s.consumer = .waitNonempty i) ∧ s.nonempty = 0) :
    s.producer = .done ∧ s.consumer = .done := by
  have hempty := h.empty
  have hnonempty := h.nonempty
  have hfits := h.producer
  have hfits' := h.consumer
  rcases hproducer with hp | ⟨⟨i, hp⟩, hzero⟩
  · rcases hconsumer with hc | ⟨⟨j, hc⟩, hzero'⟩
    · exact ⟨hp, hc⟩
    · rw [hp, hc] at hnonempty
      rw [hc] at hfits'
      have hall : s.nonempty + (j + 0) = ITERATIONS := hnonempty
      have hlt : j < ITERATIONS := hfits'
      omega
  · rcases hconsumer with hc | ⟨⟨j, hc⟩, hzero'⟩
    · rw [hp, hc] at hempty
      rw [hp] at hfits
      have hall : s.empty + (i + 0) = N + ITERATIONS := hempty
      have hlt : i < ITERATIONS := hfits
      omega
    · rw [hp, hc] at hempty hnonempty
      have hplaces : s.empty + (i + 0) = N + j := hempty
      have hitems : s.nonempty + (j + 0) = i := hnonempty
      omega

theorem live (h : Inv N ITERATIONS s) (hN : 1 ≤ N)
    (hsome : s.producer ≠ .done ∨ s.consumer ≠ .done) :
    ∃ act t, s.next N ITERATIONS act = some t := by
  have hmtx := h.mtx
  by_cases hin : s.producer.inMtx = 1
  · refine produce_moves ?_ ?_ ?_
    · rintro hpc
      rw [hpc] at hin
      cases hin
    all_goals
      rintro ⟨i, hpc⟩
      rw [hpc] at hin
      cases hin
  by_cases hin' : s.consumer.inMtx = 1
  · refine consume_moves ?_ ?_ ?_
    · rintro hpc
      rw [hpc] at hin'
      cases hin'
    all_goals
      rintro ⟨i, hpc⟩
      rw [hpc] at hin'
      cases hin'
  -- the mutex is free
  have hfree : 0 < s.mtx := by omega
  by_cases hproducer : s.producer = .done ∨ (∃ i, s.producer = .waitEmpty i) ∧ s.empty = 0
  · by_cases hconsumer : s.consumer = .done ∨ (∃ i, s.consumer = .waitNonempty i) ∧ s.nonempty = 0
    · obtain ⟨hp, hc⟩ := h.not_both hN hproducer hconsumer
      exact absurd hsome (by simp [hp, hc])
    · obtain ⟨hdone, hwait⟩ := not_or.mp hconsumer
      exact consume_moves hdone (fun hw => Nat.pos_of_ne_zero fun hz => hwait ⟨hw, hz⟩)
        fun _ => hfree
  · obtain ⟨hdone, hwait⟩ := not_or.mp hproducer
    exact produce_moves hdone (fun hw => Nat.pos_of_ne_zero fun hz => hwait ⟨hw, hz⟩)
      fun _ => hfree

theorem correct (h : Inv N ITERATIONS s) (hN : 1 ≤ N) : Correct N ITERATIONS s where
  taken i item hitem := by
    rw [h.taken, List.getElem?_map] at hitem
    obtain ⟨k, hk, rfl⟩ := Option.map_eq_some_iff.mp hitem
    obtain ⟨_, hnum⟩ := List.getElem?_eq_some_iff.mp hk
    rw [← hnum, List.getElem_range]
    rfl
  kept := by
    rw [h.taken, List.length_map, List.length_range]
    exact h.items
  all hdone := by
    rw [h.taken, List.length_map, List.length_range, State.loaded, hdone]
    rfl
  corruption := h.corruption
  full := by
    have hempty := h.empty
    have hnonempty := h.nonempty
    omega
  in_ := by
    rw [h.in_]
    exact Nat.mod_lt _ hN
  out := by
    rw [h.out]
    exact Nat.mod_lt _ hN
  live := h.live hN

end Inv

/-- **The bounded buffer.** In every state, for every capacity. -/
theorem bounded_buffer (N ITERATIONS : Nat) (hN : 1 ≤ N) :
    ∀ s, (buffer N ITERATIONS).Reach s → Correct N ITERATIONS s :=
  fun _ hr => (Inv.reach hr).correct hN

/-- Three items through two places: the buffer is full once, and the third item is in the place
of the first. -/
def threeItems : List Act :=
  List.replicate 14 .producer ++ List.replicate 8 .consumer ++ List.replicate 7 .producer ++
    List.replicate 16 .consumer

theorem bounded_buffer_three : ∃ s, (buffer 2 3).exec (.start 2) threeItems = some s ∧
    s.taken = [0, 1, 2] ∧ s.items 0 = 2 ∧ s.in_ = 1 ∧ Correct 2 3 s := by
  have hrun : ∃ s, (buffer 2 3).exec (.start 2) threeItems = some s ∧ s.taken = [0, 1, 2] ∧
      s.items 0 = 2 ∧ s.in_ = 1 := ⟨_, rfl, rfl, rfl, rfl⟩
  obtain ⟨s, he, htaken, hitems, hin⟩ := hrun
  exact ⟨s, he, htaken, hitems, hin,
    bounded_buffer 2 3 (by decide) s (LTS.Reach.exec (.init rfl) he)⟩

end Ops.Bounded
