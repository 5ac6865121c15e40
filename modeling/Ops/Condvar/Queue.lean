import Ops.Condvar.Process
import Ops.Lib.Circular

/-!
# No wake-up is lost

Where the two threads are tells how many items each of them has stored, loaded and counted in
`size`, so `size`, `in` and `out` are those of a queue while nobody has the mutex. A thread sleeps
only while its condition fails, or while the other one is about to signal. So the consumer takes
what the producer made, and one of them can always go on without a spurious wake-up
(`condition_variables`).
-/

namespace Ops.Condvar

open Posix

variable {N ITERATIONS : Nat} {s t : State}

/-! ## Where the threads are -/

namespace ProducerPc

/-- The items in the buffer or taken. -/
def stored (ITERATIONS : Nat) : ProducerPc → Nat
  | loop i | nanosleep i | lock i | test i | waiting i | woken i | store i => i
  | advance i | grow i | growTo i _ | signal i | unlock i => i + 1
  | done => ITERATIONS

/-- The items that `in` is past. -/
def advanced (ITERATIONS : Nat) : ProducerPc → Nat
  | loop i | nanosleep i | lock i | test i | waiting i | woken i | store i | advance i => i
  | grow i | growTo i _ | signal i | unlock i => i + 1
  | done => ITERATIONS

/-- The items that were added to `size`. -/
def grown (ITERATIONS : Nat) : ProducerPc → Nat
  | loop i | nanosleep i | lock i | test i | waiting i | woken i | store i | advance i | grow i
  | growTo i _ => i
  | signal i | unlock i => i + 1
  | done => ITERATIONS

def inMtx : ProducerPc → Bool
  | test _ | store _ | advance _ | grow _ | growTo _ _ | signal _ | unlock _ => true
  | loop _ | nanosleep _ | lock _ | waiting _ | woken _ | done => false

def waits : ProducerPc → Bool
  | waiting _ => true
  | _ => false

def signals : ProducerPc → Bool
  | signal _ => true
  | _ => false

/-- With `size`. -/
def Fits (N ITERATIONS : Nat) (size : Int) : ProducerPc → Prop
  | loop i => i ≤ ITERATIONS
  | nanosleep i | lock i | test i | waiting i | woken i | signal i | unlock i => i < ITERATIONS
  | store i | advance i | grow i => i < ITERATIONS ∧ size < N
  | growTo i n => i < ITERATIONS ∧ size < N ∧ n = size
  | done => True

theorem fits_of_out {c : ProducerPc} {size size' : Int} (hout : c.inMtx = false)
    (h : c.Fits N ITERATIONS size) : c.Fits N ITERATIONS size' := by
  cases c with
  | loop | nanosleep | lock | waiting | woken | done => exact h
  | _ => cases hout

theorem same_of_out (ITERATIONS : Nat) {c : ProducerPc} (hout : c.inMtx = false) :
    c.stored ITERATIONS = c.grown ITERATIONS ∧ c.advanced ITERATIONS = c.grown ITERATIONS := by
  cases c with
  | loop | nanosleep | lock | waiting | woken | done => exact ⟨rfl, rfl⟩
  | _ => cases hout

theorem grown_le (ITERATIONS : Nat) (c : ProducerPc) :
    c.grown ITERATIONS ≤ c.stored ITERATIONS := by
  cases c with
  | advance | grow | growTo => exact Nat.le_succ _
  | _ => exact Nat.le_refl _

theorem wake_cases (c : ProducerPc) :
    c.wake = c ∧ c.waits = false ∨ ∃ i, c = waiting i ∧ c.wake = woken i := by
  cases c with
  | waiting i => exact .inr ⟨i, rfl, rfl⟩
  | _ => exact .inl ⟨rfl, rfl⟩

theorem wake_waits (c : ProducerPc) : c.wake.waits = false := by
  cases c <;> rfl

end ProducerPc

namespace ConsumerPc

/-- The items that were taken. -/
def loaded (ITERATIONS : Nat) : ConsumerPc → Nat
  | loop i | lock i | test i | waiting i | woken i | load i => i
  | advance i | shrink i | shrinkTo i _ | signal i | unlock i => i + 1
  | done => ITERATIONS

/-- The items that `out` is past. -/
def advanced (ITERATIONS : Nat) : ConsumerPc → Nat
  | loop i | lock i | test i | waiting i | woken i | load i | advance i => i
  | shrink i | shrinkTo i _ | signal i | unlock i => i + 1
  | done => ITERATIONS

/-- The items that were subtracted from `size`. -/
def shrunk (ITERATIONS : Nat) : ConsumerPc → Nat
  | loop i | lock i | test i | waiting i | woken i | load i | advance i | shrink i | shrinkTo i _ =>
    i
  | signal i | unlock i => i + 1
  | done => ITERATIONS

def inMtx : ConsumerPc → Bool
  | test _ | load _ | advance _ | shrink _ | shrinkTo _ _ | signal _ | unlock _ => true
  | loop _ | lock _ | waiting _ | woken _ | done => false

def waits : ConsumerPc → Bool
  | waiting _ => true
  | _ => false

def signals : ConsumerPc → Bool
  | signal _ => true
  | _ => false

/-- With `size`. -/
def Fits (ITERATIONS : Nat) (size : Int) : ConsumerPc → Prop
  | loop i => i ≤ ITERATIONS
  | lock i | test i | waiting i | woken i | signal i | unlock i => i < ITERATIONS
  | load i | advance i | shrink i => i < ITERATIONS ∧ 0 < size
  | shrinkTo i n => i < ITERATIONS ∧ 0 < size ∧ n = size
  | done => True

theorem fits_of_out {c : ConsumerPc} {size size' : Int} (hout : c.inMtx = false)
    (h : c.Fits ITERATIONS size) : c.Fits ITERATIONS size' := by
  cases c with
  | loop | lock | waiting | woken | done => exact h
  | _ => cases hout

theorem same_of_out (ITERATIONS : Nat) {c : ConsumerPc} (hout : c.inMtx = false) :
    c.loaded ITERATIONS = c.shrunk ITERATIONS ∧ c.advanced ITERATIONS = c.shrunk ITERATIONS := by
  cases c with
  | loop | lock | waiting | woken | done => exact ⟨rfl, rfl⟩
  | _ => cases hout

theorem Fits.loaded_le {c : ConsumerPc} {size : Int} (h : c.Fits ITERATIONS size)
    (hsize : 0 ≤ size) : (c.loaded ITERATIONS : Int) ≤ c.shrunk ITERATIONS + size := by
  cases c with
  | advance i | shrink i =>
    have hpos : 0 < size := h.2
    show ((i + 1 : Nat) : Int) ≤ i + size
    omega
  | shrinkTo i =>
    have hpos : 0 < size := h.2.1
    show ((i + 1 : Nat) : Int) ≤ i + size
    omega
  | _ => exact Int.le_add_of_nonneg_right hsize

theorem wake_cases (c : ConsumerPc) :
    c.wake = c ∧ c.waits = false ∨ ∃ i, c = waiting i ∧ c.wake = woken i := by
  cases c with
  | waiting i => exact .inr ⟨i, rfl, rfl⟩
  | _ => exact .inl ⟨rfl, rfl⟩

theorem wake_waits (c : ConsumerPc) : c.wake.waits = false := by
  cases c <;> rfl

end ConsumerPc

/-- Who is between taking and giving back the mutex. -/
def inMtx (p : ProducerPc) (c : ConsumerPc) : Party → Bool
  | .producer => p.inMtx
  | .consumer => c.inMtx

/-- The items in the buffer, as `out` and `size` tell. -/
def State.queue (N : Nat) (s : State) : List Int :=
  (List.range s.size.toNat).map fun j => s.items ((s.out + j) % N)

/-! ## What should hold -/

structure Correct (N ITERATIONS : Nat) (s : State) : Prop where
  size : 0 ≤ s.size ∧ s.size ≤ N
  in_ : s.in_ < N
  out : s.out < N
  queue : s.mtx = .free → s.taken ++ s.queue N = s.made ∧ s.in_ = (s.out + s.size.toNat) % N
  made : ∀ (i : Nat) (item : Int), s.made[i]? = some item → item = i
  /-- The consumer takes what the producer made, in this order. -/
  taken : s.taken <+: s.made
  all : s.consumer = .done → s.taken.length = ITERATIONS
  awake : ¬ (s.producer.waits = true ∧ s.consumer.waits = true)
  producer : s.producer.waits = true →
    s.consumer ≠ .done ∧ (s.size < N → s.consumer.signals = true)
  consumer : s.consumer.waits = true →
    s.producer ≠ .done ∧ (0 < s.size → s.producer.signals = true)
  live : s.producer ≠ .done ∨ s.consumer ≠ .done → ∃ p t, s.next N ITERATIONS (.run p) = some t

structure Inv (N ITERATIONS : Nat) (s : State) : Prop where
  mtx : s.mtx.Guards (inMtx s.producer s.consumer)
  usable : s.mtx = .free ∨ ∃ p, s.mtx = .held p
  size : s.size + s.consumer.shrunk ITERATIONS = s.producer.grown ITERATIONS
  bounds : 0 ≤ s.size ∧ s.size ≤ N
  in_ : s.in_ = s.producer.advanced ITERATIONS % N
  out : s.out = s.consumer.advanced ITERATIONS % N
  items : Circular N s.items (fun k => k) (s.consumer.loaded ITERATIONS)
    (s.producer.stored ITERATIONS)
  made : s.made = (List.range (s.producer.stored ITERATIONS)).map Int.ofNat
  taken : s.taken = (List.range (s.consumer.loaded ITERATIONS)).map Int.ofNat
  producer : s.producer.Fits N ITERATIONS s.size
  consumer : s.consumer.Fits ITERATIONS s.size
  /-- A signal is on its way to who sleeps without a reason. -/
  producer_waits : s.producer.waits = true → s.size = N ∨ s.consumer.signals = true
  consumer_waits : s.consumer.waits = true → s.size = 0 ∨ s.producer.signals = true

namespace Inv

/-! ## The mutex -/

theorem consumer_out (h : Inv N ITERATIONS s) (hin : s.producer.inMtx = true) :
    s.consumer.inMtx = false :=
  h.mtx.alone (show inMtx s.producer s.consumer .producer = true from hin) .consumer (by decide)

theorem producer_out (h : Inv N ITERATIONS s) (hin : s.consumer.inMtx = true) :
    s.producer.inMtx = false :=
  h.mtx.alone (show inMtx s.producer s.consumer .consumer = true from hin) .producer (by decide)

/-- The mutex after a step of one of the threads. -/
structure Mtx (m : Mutex Party) (p : ProducerPc) (c : ConsumerPc) : Prop where
  guards : m.Guards (inMtx p c)
  usable : m = .free ∨ ∃ q, m = .held q

variable {p p' : ProducerPc} {c c' : ConsumerPc} {m : Mutex Party} {i : Nat}

theorem produce_keep (h : Inv N ITERATIONS s) (hpc : s.producer = p) (hin : p'.inMtx = p.inMtx) :
    Mtx s.mtx p' s.consumer where
  guards := h.mtx.congr fun q => by
    cases q with
    | producer => exact hin.trans (congrArg ProducerPc.inMtx hpc.symm)
    | consumer => rfl
  usable := h.usable

theorem consume_keep (h : Inv N ITERATIONS s) (hpc : s.consumer = c) (hin : c'.inMtx = c.inMtx) :
    Mtx s.mtx s.producer c' where
  guards := h.mtx.congr fun q => by
    cases q with
    | producer => rfl
    | consumer => exact hin.trans (congrArg ConsumerPc.inMtx hpc.symm)
  usable := h.usable

theorem produce_lock (h : Inv N ITERATIONS s) (hm : s.mtx.lock .producer = some m)
    (hin : p'.inMtx = true) : Mtx m p' s.consumer where
  guards := h.mtx.lock hm hin fun q hq => by
    cases q with
    | producer => exact absurd rfl hq
    | consumer => rfl
  usable := .inr ⟨_, Mutex.lock_some hm⟩

theorem consume_lock (h : Inv N ITERATIONS s) (hm : s.mtx.lock .consumer = some m)
    (hin : c'.inMtx = true) : Mtx m s.producer c' where
  guards := h.mtx.lock hm hin fun q hq => by
    cases q with
    | producer => rfl
    | consumer => exact absurd rfl hq
  usable := .inr ⟨_, Mutex.lock_some hm⟩

theorem produce_unlock (h : Inv N ITERATIONS s) (hm : s.mtx.unlock .producer = some m)
    (hin : p'.inMtx = false) : Mtx m p' s.consumer where
  guards := h.mtx.unlock hm hin fun q hq => by
    cases q with
    | producer => exact absurd rfl hq
    | consumer => rfl
  usable := .inl (Mutex.unlock_some hm).2

theorem consume_unlock (h : Inv N ITERATIONS s) (hm : s.mtx.unlock .consumer = some m)
    (hin : c'.inMtx = false) : Mtx m s.producer c' where
  guards := h.mtx.unlock hm hin fun q hq => by
    cases q with
    | producer => rfl
    | consumer => exact absurd rfl hq
  usable := .inl (Mutex.unlock_some hm).2

/-! ## Steps of the producer -/

/-- Who sleeps still has its reason, unless the producer has just signalled. -/
theorem consumer_waits_of (h : Inv N ITERATIONS s) (hpc : s.producer = p)
    (hsignals : p.signals = true → s.consumer.waits = false) (hw : s.consumer.waits = true) :
    s.size = 0 := by
  refine (h.consumer_waits hw).resolve_right fun hs => ?_
  rw [hpc] at hs
  rw [hsignals hs] at hw
  cases hw

theorem produce (h : Inv N ITERATIONS s) (hpc : s.producer = p) (hmtx : Mtx m p' s.consumer)
    (hstored : p'.stored ITERATIONS = p.stored ITERATIONS)
    (hadvanced : p'.advanced ITERATIONS = p.advanced ITERATIONS)
    (hgrown : p'.grown ITERATIONS = p.grown ITERATIONS) (hfits : p'.Fits N ITERATIONS s.size)
    (hwaits : p'.waits = true → s.size = N)
    (hsignals : p.signals = true → s.consumer.waits = false) :
    Inv N ITERATIONS { s with mtx := m, producer := p' } := by
  have hsize := h.size
  have hin := h.in_
  have hitems := h.items
  have hmade := h.made
  rw [hpc] at hsize hin hitems hmade
  exact { h with
    mtx := hmtx.guards
    usable := hmtx.usable
    size := hsize.trans (congrArg _ hgrown.symm)
    in_ := hin.trans (congrArg (· % N) hadvanced.symm)
    items := hstored ▸ hitems
    made := hmade.trans (congrArg (fun n => (List.range n).map Int.ofNat) hstored.symm)
    producer := hfits
    producer_waits := fun hw => .inl (hwaits hw)
    consumer_waits := fun hw => .inl (h.consumer_waits_of hpc hsignals hw) }

theorem produce_store (h : Inv N ITERATIONS s) (hpc : s.producer = .store i) :
    Inv N ITERATIONS { s with
      items := Function.update s.items s.in_ i, made := s.made ++ [(i : Int)],
      producer := .advance i } := by
  have hmtx : Mtx s.mtx (.advance i) s.consumer := h.produce_keep hpc rfl
  have hsize := h.size
  have hin := h.in_
  have hitems := h.items
  have hmade := h.made
  have hfits := h.producer
  have hout := h.consumer_out (by rw [hpc]; rfl)
  rw [hpc] at hsize hin hitems hmade hfits
  have hcount : s.size + s.consumer.shrunk ITERATIONS = i := hsize
  have hlt : s.size < N := hfits.2
  have hsame := (ConsumerPc.same_of_out ITERATIONS hout).1
  exact { h with
    mtx := hmtx.guards
    size := hsize
    in_ := hin
    items := by
      show Circular N (Function.update s.items s.in_ i) _ _ (i + 1)
      rw [hin]
      exact hitems.store (show i < s.consumer.loaded ITERATIONS + N by omega)
    made := by
      show s.made ++ [(i : Int)] = (List.range (i + 1)).map Int.ofNat
      rw [hmade, List.range_succ, List.map_append]
      rfl
    producer := hfits
    producer_waits := by rintro ⟨⟩
    consumer_waits := fun hw => .inl (h.consumer_waits_of hpc (by rintro ⟨⟩) hw) }

theorem produce_advance (h : Inv N ITERATIONS s) (hpc : s.producer = .advance i) :
    Inv N ITERATIONS { s with in_ := (s.in_ + 1) % N, producer := .grow i } := by
  have hmtx : Mtx s.mtx (.grow i) s.consumer := h.produce_keep hpc rfl
  have hsize := h.size
  have hin := h.in_
  have hitems := h.items
  have hmade := h.made
  have hfits := h.producer
  rw [hpc] at hsize hin hitems hmade hfits
  exact { h with
    mtx := hmtx.guards
    size := hsize
    in_ := by
      show (s.in_ + 1) % N = (i + 1) % N
      rw [hin]
      exact place_next i N
    items := hitems
    made := hmade
    producer := hfits
    producer_waits := by rintro ⟨⟩
    consumer_waits := fun hw => .inl (h.consumer_waits_of hpc (by rintro ⟨⟩) hw) }

theorem produce_growTo {n : Int} (h : Inv N ITERATIONS s) (hpc : s.producer = .growTo i n) :
    Inv N ITERATIONS { s with size := n + 1, producer := .signal i } := by
  have hmtx : Mtx s.mtx (.signal i) s.consumer := h.produce_keep hpc rfl
  have hsize := h.size
  have hin := h.in_
  have hitems := h.items
  have hmade := h.made
  have hfits := h.producer
  have hbounds := h.bounds
  have hout := h.consumer_out (by rw [hpc]; rfl)
  rw [hpc] at hsize hin hitems hmade hfits
  obtain ⟨hi, hlt, rfl⟩ := hfits
  have hcount : s.size + s.consumer.shrunk ITERATIONS = i := hsize
  exact { h with
    mtx := hmtx.guards
    size := by
      show s.size + 1 + s.consumer.shrunk ITERATIONS = ((i + 1 : Nat) : Int)
      omega
    bounds := by
      show 0 ≤ s.size + 1 ∧ s.size + 1 ≤ N
      omega
    in_ := hin
    items := hitems
    made := hmade
    producer := hi
    consumer := ConsumerPc.fits_of_out hout h.consumer
    producer_waits := by rintro ⟨⟩
    consumer_waits := fun _ => .inr rfl }

theorem wake_producer (h : Inv N ITERATIONS s) :
    Inv N ITERATIONS { s with producer := s.producer.wake } := by
  have hfits := h.producer
  rcases s.producer.wake_cases with ⟨hsame, -⟩ | ⟨i, hpc, hwoken⟩
  · rw [hsame]
    exact h
  · rw [hpc] at hfits
    rw [hwoken]
    exact h.produce hpc (m := s.mtx) (h.produce_keep hpc rfl) rfl rfl rfl hfits (by rintro ⟨⟩)
      (by rintro ⟨⟩)

/-! ## Steps of the consumer -/

/-- Who sleeps still has its reason, unless the consumer has just signalled. -/
theorem producer_waits_of (h : Inv N ITERATIONS s) (hpc : s.consumer = c)
    (hsignals : c.signals = true → s.producer.waits = false) (hw : s.producer.waits = true) :
    s.size = N := by
  refine (h.producer_waits hw).resolve_right fun hs => ?_
  rw [hpc] at hs
  rw [hsignals hs] at hw
  cases hw

theorem consume (h : Inv N ITERATIONS s) (hpc : s.consumer = c) (hmtx : Mtx m s.producer c')
    (hloaded : c'.loaded ITERATIONS = c.loaded ITERATIONS)
    (hadvanced : c'.advanced ITERATIONS = c.advanced ITERATIONS)
    (hshrunk : c'.shrunk ITERATIONS = c.shrunk ITERATIONS) (hfits : c'.Fits ITERATIONS s.size)
    (hwaits : c'.waits = true → s.size = 0)
    (hsignals : c.signals = true → s.producer.waits = false) :
    Inv N ITERATIONS { s with mtx := m, consumer := c' } := by
  have hsize := h.size
  have hout := h.out
  have hitems := h.items
  have htaken := h.taken
  rw [hpc] at hsize hout hitems htaken
  exact { h with
    mtx := hmtx.guards
    usable := hmtx.usable
    size := by
      show s.size + c'.shrunk ITERATIONS = s.producer.grown ITERATIONS
      rw [hshrunk]
      exact hsize
    out := hout.trans (congrArg (· % N) hadvanced.symm)
    items := hloaded ▸ hitems
    taken := htaken.trans (congrArg (fun n => (List.range n).map Int.ofNat) hloaded.symm)
    consumer := hfits
    producer_waits := fun hw => .inl (h.producer_waits_of hpc hsignals hw)
    consumer_waits := fun hw => .inl (hwaits hw) }

theorem consume_load (h : Inv N ITERATIONS s) (hpc : s.consumer = .load i) :
    Inv N ITERATIONS { s with
      taken := s.taken ++ [s.items s.out], consumer := .advance i } := by
  have hmtx : Mtx s.mtx s.producer (.advance i) := h.consume_keep hpc rfl
  have hsize := h.size
  have hout := h.out
  have hitems := h.items
  have htaken := h.taken
  have hfits := h.consumer
  have hin := h.producer_out (by rw [hpc]; rfl)
  rw [hpc] at hsize hout hitems htaken hfits
  have hcount : s.size + i = s.producer.grown ITERATIONS := hsize
  have hpos : 0 < s.size := hfits.2
  have hsame := (ProducerPc.same_of_out ITERATIONS hin).1
  have hitem : s.items s.out = i := by
    rw [hout]
    exact hitems.oldest (show i < s.producer.stored ITERATIONS by omega)
  exact { h with
    mtx := hmtx.guards
    size := hsize
    out := hout
    items := hitems.take
    taken := by
      show s.taken ++ [s.items s.out] = (List.range (i + 1)).map Int.ofNat
      rw [htaken, hitem, List.range_succ, List.map_append]
      rfl
    consumer := hfits
    producer_waits := fun hw => .inl (h.producer_waits_of hpc (by rintro ⟨⟩) hw)
    consumer_waits := by rintro ⟨⟩ }

theorem consume_advance (h : Inv N ITERATIONS s) (hpc : s.consumer = .advance i) :
    Inv N ITERATIONS { s with out := (s.out + 1) % N, consumer := .shrink i } := by
  have hmtx : Mtx s.mtx s.producer (.shrink i) := h.consume_keep hpc rfl
  have hsize := h.size
  have hout := h.out
  have hitems := h.items
  have htaken := h.taken
  have hfits := h.consumer
  rw [hpc] at hsize hout hitems htaken hfits
  exact { h with
    mtx := hmtx.guards
    size := hsize
    out := by
      show (s.out + 1) % N = (i + 1) % N
      rw [hout]
      exact place_next i N
    items := hitems
    taken := htaken
    consumer := hfits
    producer_waits := fun hw => .inl (h.producer_waits_of hpc (by rintro ⟨⟩) hw)
    consumer_waits := by rintro ⟨⟩ }

theorem consume_shrinkTo {n : Int} (h : Inv N ITERATIONS s) (hpc : s.consumer = .shrinkTo i n) :
    Inv N ITERATIONS { s with size := n - 1, consumer := .signal i } := by
  have hmtx : Mtx s.mtx s.producer (.signal i) := h.consume_keep hpc rfl
  have hsize := h.size
  have hout := h.out
  have hitems := h.items
  have htaken := h.taken
  have hfits := h.consumer
  have hbounds := h.bounds
  have hin := h.producer_out (by rw [hpc]; rfl)
  rw [hpc] at hsize hout hitems htaken hfits
  obtain ⟨hi, hpos, rfl⟩ := hfits
  have hcount : s.size + i = s.producer.grown ITERATIONS := hsize
  exact { h with
    mtx := hmtx.guards
    size := by
      show s.size - 1 + ((i + 1 : Nat) : Int) = s.producer.grown ITERATIONS
      omega
    bounds := by
      show 0 ≤ s.size - 1 ∧ s.size - 1 ≤ N
      omega
    out := hout
    items := hitems
    taken := htaken
    producer := ProducerPc.fits_of_out hin h.producer
    consumer := hi
    producer_waits := fun _ => .inr rfl
    consumer_waits := by rintro ⟨⟩ }

theorem wake_consumer (h : Inv N ITERATIONS s) :
    Inv N ITERATIONS { s with consumer := s.consumer.wake } := by
  have hfits := h.consumer
  rcases s.consumer.wake_cases with ⟨hsame, -⟩ | ⟨i, hpc, hwoken⟩
  · rw [hsame]
    exact h
  · rw [hpc] at hfits
    rw [hwoken]
    exact h.consume hpc (m := s.mtx) (h.consume_keep hpc rfl) rfl rfl rfl hfits (by rintro ⟨⟩)
      (by rintro ⟨⟩)

/-! ## Any step -/

theorem produce_step (h : Inv N ITERATIONS s) (hn : s.produce N ITERATIONS = some t) :
    Inv N ITERATIONS t := by
  have hfits := h.producer
  unfold State.produce at hn
  obtain ⟨p, hpc⟩ : ∃ p, s.producer = p := ⟨_, rfl⟩
  rw [hpc] at hfits hn
  cases p with
  | loop i =>
    cases hn
    split
    · rename_i hi
      exact h.produce hpc (h.produce_keep hpc rfl) rfl rfl rfl hi (by rintro ⟨⟩) (by rintro ⟨⟩)
    · rename_i hi
      obtain rfl : i = ITERATIONS := Nat.le_antisymm hfits (Nat.not_lt.mp hi)
      exact h.produce hpc (h.produce_keep hpc rfl) rfl rfl rfl trivial (by rintro ⟨⟩)
        (by rintro ⟨⟩)
  | nanosleep i =>
    cases hn
    exact h.produce hpc (h.produce_keep hpc rfl) rfl rfl rfl hfits (by rintro ⟨⟩) (by rintro ⟨⟩)
  | lock i | woken i =>
    obtain ⟨m, hm, rfl⟩ := Option.map_eq_some_iff.mp hn
    exact h.produce hpc (h.produce_lock hm rfl) rfl rfl rfl hfits (by rintro ⟨⟩) (by rintro ⟨⟩)
  | test i =>
    dsimp only at hn
    split at hn
    · rename_i hfull
      obtain ⟨m, hm, rfl⟩ := Option.map_eq_some_iff.mp hn
      exact h.produce hpc (h.produce_unlock hm rfl) rfl rfl rfl hfits
        (fun _ => le_antisymm h.bounds.2 hfull) (by rintro ⟨⟩)
    · rename_i hroom
      cases hn
      exact h.produce hpc (h.produce_keep hpc rfl) rfl rfl rfl ⟨hfits, not_le.mp hroom⟩
        (by rintro ⟨⟩) (by rintro ⟨⟩)
  | waiting i => cases hn
  | store i =>
    cases hn
    exact h.produce_store hpc
  | advance i =>
    cases hn
    exact h.produce_advance hpc
  | grow i =>
    cases hn
    exact h.produce hpc (h.produce_keep hpc rfl) rfl rfl rfl ⟨hfits.1, hfits.2, rfl⟩
      (by rintro ⟨⟩) (by rintro ⟨⟩)
  | growTo i n =>
    cases hn
    exact h.produce_growTo hpc
  | signal i =>
    cases hn
    have hwake := h.wake_consumer
    exact hwake.produce hpc (hwake.produce_keep hpc rfl) rfl rfl rfl hfits (by rintro ⟨⟩)
      fun _ => s.consumer.wake_waits
  | unlock i =>
    obtain ⟨m, hm, rfl⟩ := Option.map_eq_some_iff.mp hn
    exact h.produce hpc (h.produce_unlock hm rfl) rfl rfl rfl hfits (by rintro ⟨⟩) (by rintro ⟨⟩)
  | done => cases hn

theorem consume_step (h : Inv N ITERATIONS s) (hn : s.consume N ITERATIONS = some t) :
    Inv N ITERATIONS t := by
  have hfits := h.consumer
  unfold State.consume at hn
  obtain ⟨c, hpc⟩ : ∃ c, s.consumer = c := ⟨_, rfl⟩
  rw [hpc] at hfits hn
  cases c with
  | loop i =>
    cases hn
    split
    · rename_i hi
      exact h.consume hpc (h.consume_keep hpc rfl) rfl rfl rfl hi (by rintro ⟨⟩) (by rintro ⟨⟩)
    · rename_i hi
      obtain rfl : i = ITERATIONS := Nat.le_antisymm hfits (Nat.not_lt.mp hi)
      exact h.consume hpc (h.consume_keep hpc rfl) rfl rfl rfl trivial (by rintro ⟨⟩)
        (by rintro ⟨⟩)
  | lock i | woken i =>
    obtain ⟨m, hm, rfl⟩ := Option.map_eq_some_iff.mp hn
    exact h.consume hpc (h.consume_lock hm rfl) rfl rfl rfl hfits (by rintro ⟨⟩) (by rintro ⟨⟩)
  | test i =>
    dsimp only at hn
    split at hn
    · rename_i hempty
      obtain ⟨m, hm, rfl⟩ := Option.map_eq_some_iff.mp hn
      exact h.consume hpc (h.consume_unlock hm rfl) rfl rfl rfl hfits (fun _ => hempty)
        (by rintro ⟨⟩)
    · rename_i hsome
      cases hn
      exact h.consume hpc (h.consume_keep hpc rfl) rfl rfl rfl
        ⟨hfits, lt_of_le_of_ne h.bounds.1 (Ne.symm hsome)⟩ (by rintro ⟨⟩) (by rintro ⟨⟩)
  | waiting i => cases hn
  | load i =>
    cases hn
    exact h.consume_load hpc
  | advance i =>
    cases hn
    exact h.consume_advance hpc
  | shrink i =>
    cases hn
    exact h.consume hpc (h.consume_keep hpc rfl) rfl rfl rfl ⟨hfits.1, hfits.2, rfl⟩
      (by rintro ⟨⟩) (by rintro ⟨⟩)
  | shrinkTo i n =>
    cases hn
    exact h.consume_shrinkTo hpc
  | signal i =>
    cases hn
    have hwake := h.wake_producer
    exact hwake.consume hpc (hwake.consume_keep hpc rfl) rfl rfl rfl hfits (by rintro ⟨⟩)
      fun _ => s.producer.wake_waits
  | unlock i =>
    obtain ⟨m, hm, rfl⟩ := Option.map_eq_some_iff.mp hn
    exact h.consume hpc (h.consume_unlock hm rfl) rfl rfl rfl hfits (by rintro ⟨⟩) (by rintro ⟨⟩)
  | done => cases hn

theorem step {act : Act} (h : Inv N ITERATIONS s) (hn : s.next N ITERATIONS act = some t) :
    Inv N ITERATIONS t := by
  cases act with
  | run q =>
    cases q with
    | producer => exact h.produce_step hn
    | consumer => exact h.consume_step hn
  | wakeup q =>
    have hwake : s.wakeup q = some t := hn
    unfold State.wakeup at hwake
    cases q with
    | producer =>
      simp only at hwake
      split at hwake
      · cases hwake
      · cases hwake
        exact h.wake_producer
    | consumer =>
      simp only at hwake
      split at hwake
      · cases hwake
      · cases hwake
        exact h.wake_consumer

theorem init : Inv N ITERATIONS .start where
  mtx := ⟨by rintro _ ⟨⟩, by rintro (_ | _) ⟨⟩, by rintro (_ | _) _ ⟨⟩⟩
  usable := .inl rfl
  size := rfl
  bounds := ⟨le_refl 0, Int.natCast_nonneg N⟩
  in_ := (Nat.zero_mod N).symm
  out := (Nat.zero_mod N).symm
  items := .nil
  made := rfl
  taken := rfl
  producer := Nat.zero_le _
  consumer := Nat.zero_le _
  producer_waits := by rintro ⟨⟩
  consumer_waits := by rintro ⟨⟩

theorem reach (hr : (buffer N ITERATIONS).Reach s) : Inv N ITERATIONS s :=
  LTS.Reach.inv (fun _ hs => hs ▸ init) (fun _ _ _ _ hi hn => hi.step hn) hr

/-! ## Who can go on -/

theorem held {q : Party} (h : Inv N ITERATIONS s)
    (hin : inMtx s.producer s.consumer q = true) : s.mtx = .held q := by
  refine (h.mtx.busy q hin).resolve_right fun hdead => ?_
  rcases h.usable with hfree | ⟨r, hheld⟩
  · rw [hdead] at hfree
    cases hfree
  · rw [hdead] at hheld
    cases hheld

/-- A producer that does not sleep, and finds the mutex free if it wants it. -/
theorem produce_moves (h : Inv N ITERATIONS s) (hdone : s.producer ≠ .done)
    (hawake : s.producer.waits = false) (hfree : s.producer.inMtx = false → s.mtx = .free) :
    ∃ q t, s.next N ITERATIONS (.run q) = some t := by
  refine ⟨.producer, Option.isSome_iff_exists.mp ?_⟩
  have hheld : s.producer.inMtx = true → s.mtx = .held .producer := h.held (q := .producer)
  show (s.produce N ITERATIONS).isSome = true
  unfold State.produce
  cases hpc : s.producer with
  | waiting i => rw [hpc] at hawake; cases hawake
  | done => exact absurd hpc hdone
  | lock i | woken i =>
    rw [hpc] at hfree
    simp only [hfree rfl, Mutex.lock, Option.map_some, Option.isSome_some]
  | test i =>
    rw [hpc] at hheld
    simp only [hheld rfl, Mutex.unlock, if_true, Option.map_some]
    split <;> rfl
  | unlock i =>
    rw [hpc] at hheld
    simp only [hheld rfl, Mutex.unlock, if_true, Option.map_some, Option.isSome_some]
  | loop | nanosleep | store | advance | grow | growTo | signal => rfl

/-- A consumer that does not sleep, and finds the mutex free if it wants it. -/
theorem consume_moves (h : Inv N ITERATIONS s) (hdone : s.consumer ≠ .done)
    (hawake : s.consumer.waits = false) (hfree : s.consumer.inMtx = false → s.mtx = .free) :
    ∃ q t, s.next N ITERATIONS (.run q) = some t := by
  refine ⟨.consumer, Option.isSome_iff_exists.mp ?_⟩
  have hheld : s.consumer.inMtx = true → s.mtx = .held .consumer := h.held (q := .consumer)
  show (s.consume N ITERATIONS).isSome = true
  unfold State.consume
  cases hpc : s.consumer with
  | waiting i => rw [hpc] at hawake; cases hawake
  | done => exact absurd hpc hdone
  | lock i | woken i =>
    rw [hpc] at hfree
    simp only [hfree rfl, Mutex.lock, Option.map_some, Option.isSome_some]
  | test i =>
    rw [hpc] at hheld
    simp only [hheld rfl, Mutex.unlock, if_true, Option.map_some]
    split <;> rfl
  | unlock i =>
    rw [hpc] at hheld
    simp only [hheld rfl, Mutex.unlock, if_true, Option.map_some, Option.isSome_some]
  | loop | load | advance | shrink | shrinkTo | signal => rfl

theorem producer_sleeps (h : Inv N ITERATIONS s) (hw : s.producer.waits = true) :
    s.consumer ≠ .done := by
  intro hdone
  have hsize := h.size
  have hfits := h.producer
  have hfull : s.size = N := h.producer_waits_of hdone (by rintro ⟨⟩) hw
  cases hpc : s.producer with
  | waiting i =>
    rw [hpc, hdone] at hsize
    rw [hpc] at hfits
    have hcount : s.size + ITERATIONS = i := hsize
    have hlt : i < ITERATIONS := hfits
    omega
  | _ => rw [hpc] at hw; cases hw

/-- For a consumer that sleeps there is still an item to come. -/
theorem consumer_sleeps (h : Inv N ITERATIONS s) (hw : s.consumer.waits = true) :
    s.producer ≠ .done := by
  intro hdone
  have hsize := h.size
  have hfits := h.consumer
  have hempty : s.size = 0 := h.consumer_waits_of hdone (by rintro ⟨⟩) hw
  cases hpc : s.consumer with
  | waiting i =>
    rw [hpc, hdone] at hsize
    rw [hpc] at hfits
    have hcount : s.size + i = ITERATIONS := hsize
    have hlt : i < ITERATIONS := hfits
    omega
  | _ => rw [hpc] at hw; cases hw

/-- Two threads that sleep would have a full and an empty buffer. -/
theorem not_both (h : Inv N ITERATIONS s) (hN : 1 ≤ N) :
    ¬ (s.producer.waits = true ∧ s.consumer.waits = true) := by
  rintro ⟨hp, hc⟩
  have hfull : s.size = N := h.producer_waits_of rfl (fun hs => by
    cases hpc : s.consumer with
    | signal => rw [hpc] at hc; cases hc
    | _ => rw [hpc] at hs; cases hs) hp
  have hempty : s.size = 0 := h.consumer_waits_of rfl (fun hs => by
    cases hpc : s.producer with
    | signal => rw [hpc] at hp; cases hp
    | _ => rw [hpc] at hs; cases hs) hc
  omega

theorem live (h : Inv N ITERATIONS s) (hN : 1 ≤ N)
    (hsome : s.producer ≠ .done ∨ s.consumer ≠ .done) :
    ∃ q t, s.next N ITERATIONS (.run q) = some t := by
  rcases h.usable with hfree | ⟨q, hheld⟩
  · by_cases hp : s.producer ≠ .done ∧ s.producer.waits = false
    · exact h.produce_moves hp.1 hp.2 fun _ => hfree
    by_cases hc : s.consumer ≠ .done ∧ s.consumer.waits = false
    · exact h.consume_moves hc.1 hc.2 fun _ => hfree
    -- each of them sleeps or is done
    exfalso
    have hboth := h.not_both hN
    by_cases hpw : s.producer.waits = true
    · have hcd := h.producer_sleeps hpw
      exact hc ⟨hcd, Bool.eq_false_iff.mpr fun hcw => hboth ⟨hpw, hcw⟩⟩
    · have hpd : s.producer = .done := by
        by_contra hne
        exact hp ⟨hne, Bool.eq_false_iff.mpr hpw⟩
      have hcd := hsome.resolve_left (not_not.mpr hpd)
      exact hc ⟨hcd, Bool.eq_false_iff.mpr fun hcw => h.consumer_sleeps hcw hpd⟩
  · have hin := h.mtx.held q hheld
    cases q with
    | producer =>
      have hin' : s.producer.inMtx = true := hin
      refine h.produce_moves ?_ ?_ fun hout => ?_
      · rintro hpc
        rw [hpc] at hin'
        cases hin'
      · cases hpc : s.producer with
        | waiting => rw [hpc] at hin'; cases hin'
        | _ => rfl
      · rw [hin'] at hout
        cases hout
    | consumer =>
      have hin' : s.consumer.inMtx = true := hin
      refine h.consume_moves ?_ ?_ fun hout => ?_
      · rintro hpc
        rw [hpc] at hin'
        cases hin'
      · cases hpc : s.consumer with
        | waiting => rw [hpc] at hin'; cases hin'
        | _ => rfl
      · rw [hin'] at hout
        cases hout

/-! ## The queue -/

theorem loaded_le (h : Inv N ITERATIONS s) :
    s.consumer.loaded ITERATIONS ≤ s.producer.stored ITERATIONS := by
  have hsize := h.size
  have hgrown := s.producer.grown_le ITERATIONS
  have hloaded := h.consumer.loaded_le h.bounds.1
  omega

theorem queue (h : Inv N ITERATIONS s) (hfree : s.mtx = .free) :
    s.taken ++ s.queue N = s.made ∧ s.in_ = (s.out + s.size.toNat) % N := by
  have hnone := h.mtx.empty (by rw [hfree]; rintro q ⟨⟩) (by rw [hfree]; rintro ⟨⟩)
  obtain ⟨hstored, hin⟩ := ProducerPc.same_of_out ITERATIONS (hnone .producer)
  obtain ⟨hloaded, hout⟩ := ConsumerPc.same_of_out ITERATIONS (hnone .consumer)
  have hsize := h.size
  have hpos := h.bounds.1
  have hcount : s.producer.stored ITERATIONS =
      s.consumer.loaded ITERATIONS + s.size.toNat := by omega
  have hitems := h.items
  have hplace : s.out = s.consumer.loaded ITERATIONS % N := by rw [h.out, hout, hloaded]
  rw [hcount] at hitems
  constructor
  · rw [State.queue, hplace, hitems.contents, h.taken, h.made, hcount, List.range_add,
      List.map_append, List.map_map]
    rfl
  · rw [h.in_, hin, ← hstored, hcount, hplace, Nat.mod_add_mod]

theorem correct (h : Inv N ITERATIONS s) (hN : 1 ≤ N) : Correct N ITERATIONS s where
  size := h.bounds
  in_ := by
    rw [h.in_]
    exact Nat.mod_lt _ hN
  out := by
    rw [h.out]
    exact Nat.mod_lt _ hN
  queue := h.queue
  made i item hitem := by
    rw [h.made, List.getElem?_map] at hitem
    obtain ⟨k, hk, rfl⟩ := Option.map_eq_some_iff.mp hitem
    obtain ⟨_, hnum⟩ := List.getElem?_eq_some_iff.mp hk
    rw [← hnum, List.getElem_range]
    rfl
  taken := by
    obtain ⟨n, hn⟩ := Nat.exists_eq_add_of_le h.loaded_le
    rw [h.taken, h.made, hn, List.range_add, List.map_append]
    exact List.prefix_append _ _
  all hdone := by
    rw [h.taken, List.length_map, List.length_range, hdone]
    rfl
  awake := h.not_both hN
  producer hw := ⟨h.producer_sleeps hw, fun hlt =>
    (h.producer_waits hw).resolve_left fun hfull => by omega⟩
  consumer hw := ⟨h.consumer_sleeps hw, fun hpos =>
    (h.consumer_waits hw).resolve_left fun hempty => by omega⟩
  live := h.live hN

end Inv

/-- **The buffer with condition variables.** In every state, for every capacity, whatever wakes up
for no reason. -/
theorem condition_variables (N ITERATIONS : Nat) (hN : 1 ≤ N) :
    ∀ s, (buffer N ITERATIONS).Reach s → Correct N ITERATIONS s :=
  fun _ hr => (Inv.reach hr).correct hN

/-- The consumer sleeps on a buffer with one place, wakes up for no reason, sleeps again and is
woken by the first item. -/
theorem condition_variables_one :
    ∃ s, (buffer 1 2).Reach s ∧ s.made = [0] ∧ s.consumer = .woken 0 ∧ Correct 1 2 s := by
  have hrun : ∃ s, (buffer 1 2).exec .start
      (List.replicate 3 (.run .consumer) ++ .wakeup .consumer ::
        (List.replicate 2 (.run .consumer) ++ List.replicate 9 (.run .producer))) = some s ∧
      s.made = [0] ∧ s.consumer = .woken 0 :=
    ⟨_, rfl, rfl, rfl⟩
  obtain ⟨s, he, hmade, hwoken⟩ := hrun
  have hr : (buffer 1 2).Reach s := LTS.Reach.exec (.init rfl) he
  exact ⟨s, hr, hmade, hwoken, condition_variables 1 2 (by decide) s hr⟩

end Ops.Condvar
