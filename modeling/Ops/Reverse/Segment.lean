import Ops.Lib.Mirror
import Ops.Reverse.Locking

/-!
# What a `SIGUSR1` does to the array

`mainWork` exchanges the elements at two indexes that move towards each other. Only it
stores into the array, so the printing threads see the segment partly reversed, and
when the loop exits it is reversed (`sigusr1_reverses`). The array may begin with any
contents here (`arrayReverser`), not only with those of `prepareArray`.
-/

namespace Ops.Reverse

open Posix (Party Locks)

def startWith (n : Nat) (array : Nat → Nat) : State := { start n array with array := array }

def arrayReverser (n : Nat) : LTS State Act where
  Init s := ∃ array, s = startWith n array
  next := State.next n

/-- The array, at a place of the loop that began with `lo` and `hi`, and what `mainWork` has
loaded. -/
def MainPc.Content (array : Nat → Nat) (lo hi : Nat) : MainPc → (Nat → Nat) → Prop
  | .lockA a b, now | .lockB a b, now | .loadA a b, now => now = mirrored array lo hi a b
  | .loadB a b temp, now => now = mirrored array lo hi a b ∧ temp = array a
  | .storeA a b temp v, now =>
    now = mirrored array lo hi a b ∧ temp = array a ∧ v = array b
  | .storeB a b temp, now =>
    now = Function.update (mirrored array lo hi a b) a (array b) ∧ temp = array a
  | .unlockB a b, now | .unlockA a b, now | .narrow a b, now =>
    now = mirrored array lo hi (a + 1) (b - 1)
  | _, _ => False

/-- **The loop goes on**, in the segment from `lo` to `hi`. `indexes`: what the loop uses is in
the array and in the segment. `next`: so is what is used after the indexes have moved, for the
next turn or by the print behind the loop. -/
structure Reversing (n : Nat) (array : Nat → Nat) (lo hi : Nat) (s : State) : Prop where
  indexes : ∃ a b, s.main.pair = some (a, b) ∧ lo ≤ a ∧ a ≤ b ∧ b ≤ hi ∧ b < n ∧ a + b = lo + hi
  next : ∀ a b, s.main = .narrow a b → a + 1 < n ∧ 1 ≤ b ∧ b - 1 < n
  content : s.main.Content array lo hi s.array

/-- **The loop has exited**: the segment is reversed, and nothing else has changed. -/
structure Reversed (array : Nat → Nat) (lo hi : Nat) (s : State) : Prop where
  main : s.main = .clear1
  reversed : ∀ i, lo ≤ i → i ≤ hi → s.array i = array (lo + hi - i)
  others : ∀ i, i < lo ∨ hi < i → s.array i = array i

variable {n lo hi : Nat} {array : Nat → Nat} {s t : State}

theorem Reversing.frame (h : Reversing n array lo hi s) (hmain : t.main = s.main)
    (harray : t.array = s.array) : Reversing n array lo hi t :=
  ⟨by rw [hmain]; exact h.indexes, by rw [hmain]; exact h.next,
    by rw [hmain, harray]; exact h.content⟩

theorem Reversing.move (h : Reversing n array lo hi s) (hpair : t.main.pair = s.main.pair)
    (hnext : ∀ a b, t.main ≠ .narrow a b) (hcontent : t.main.Content array lo hi t.array) :
    Reversing n array lo hi t :=
  ⟨by rw [hpair]; exact h.indexes, fun a b hm => absurd hm (hnext a b), hcontent⟩

theorem Reversing.pair (h : Reversing n array lo hi s) {a b : Nat}
    (hpair : s.main.pair = some (a, b)) :
    lo ≤ a ∧ a ≤ b ∧ b ≤ hi ∧ b < n ∧ a + b = lo + hi := by
  obtain ⟨a', b', hpair', h⟩ := h.indexes
  obtain ⟨rfl, rfl⟩ := Prod.mk.inj (Option.some.inj (hpair.symm.trans hpair'))
  exact h

theorem narrow_exit {a b r r' : Nat} (hpc : s.main = .narrow a b)
    (hn : s.mainWork n r r' = some t) (ht : t.main = .clear1) : b - 1 ≤ a + 1 := by
  unfold State.mainWork at hn
  rw [hpc] at hn
  dsimp only at hn
  split at hn
  · assumption
  · cases hn
    cases ht

theorem Reversing.mainWork {r r' : Nat} (h : Reversing n array lo hi s) (hlock : Locking n s)
    (hn : s.mainWork n r r' = some t) :
    Reversing n array lo hi t ∨ Reversed array lo hi t := by
  have hcontent := h.content
  have hentered := hlock.entered
  cases mainWork_step hn with
  | woke hpc | chose1 hpc | chose2 hpc | none hpc | drawn hpc | cleared1 hpc | created hpc
  | cleared2 hpc => rw [hpc] at hcontent; exact absurd hcontent id
  | lockedA hpc | lockedB hpc =>
    rw [hpc] at hcontent
    exact .inl (h.move (by rw [hpc]; rfl) nofun hcontent)
  | @loadedA a b hpc =>
    rw [hpc] at hcontent
    have hle := (h.pair (a := a) (b := b) (by rw [hpc]; rfl)).2.1
    refine .inl (h.move (by rw [hpc]; rfl) nofun ⟨hcontent, ?_⟩)
    rw [show s.array = _ from hcontent, mirrored_left hle]
  | @loadedB a b temp hpc =>
    rw [hpc] at hcontent
    have hle := (h.pair (a := a) (b := b) (by rw [hpc]; rfl)).2.1
    refine .inl (h.move (by rw [hpc]; rfl) nofun ⟨hcontent.1, hcontent.2, ?_⟩)
    rw [hcontent.1, mirrored_right hle]
  | storedA hpc =>
    rw [hpc] at hcontent
    obtain ⟨hnow, htemp, rfl⟩ := hcontent
    refine .inl (h.move (by rw [hpc]; rfl) nofun ⟨?_, htemp⟩)
    rw [hnow]
  | @storedB a b temp hpc =>
    rw [hpc] at hcontent hentered
    obtain ⟨hnow, rfl⟩ := hcontent
    have hlt := hentered a b rfl rfl
    obtain ⟨hlo, -, hhi, -, hsum⟩ := h.pair (a := a) (b := b) (by rw [hpc]; rfl)
    refine .inl (h.move (by rw [hpc]; rfl) nofun ?_)
    show Function.update s.array b (array a) = _
    rw [hnow]
    exact mirrored_exchange hlo hlt hhi hsum
  | unlockedB hpc =>
    rw [hpc] at hcontent
    exact .inl (h.move (by rw [hpc]; rfl) nofun hcontent)
  | @unlockedA a b l hpc =>
    rw [hpc] at hcontent hentered
    have hlt := hentered a b rfl rfl
    have hin := h.pair (a := a) (b := b) (by rw [hpc]; rfl)
    refine .inl ⟨⟨a, b, rfl, hin⟩, fun a' b' hm => ?_, hcontent⟩
    cases hm
    omega
  | @reversed a b hpc =>
    have hmet := narrow_exit hpc hn rfl
    rw [hpc] at hcontent hentered
    have hlt := hentered a b rfl rfl
    obtain ⟨hlo, -, hhi, -, hsum⟩ := h.pair (a := a) (b := b) (by rw [hpc]; rfl)
    have hnow : s.array = mirrored array lo hi (a + 1) (b - 1) := hcontent
    refine .inr ⟨rfl, fun i hi hi' => ?_, fun i hi => ?_⟩
    · show s.array i = _
      rw [hnow]
      exact mirrored_met hmet (by omega) hi hi'
    · show s.array i = _
      rw [hnow]
      exact mirrored_outside (by omega) (by omega) hi
  | @narrowed a b hpc hwide =>
    rw [hpc] at hcontent
    have hin := h.pair (a := a) (b := b) (by rw [hpc]; rfl)
    refine .inl ⟨⟨a + 1, b - 1, rfl, by omega⟩, nofun, hcontent⟩

theorem Reversing.step {act : Act} (h : Reversing n array lo hi s) (hlock : Locking n s)
    (hn : s.next n act = some t) : Reversing n array lo hi t ∨ Reversed array lo hi t := by
  cases act with
  | kill sig => cases sig <;> cases hn <;> exact .inl (h.frame rfl rfl)
  | main r r' => exact h.mainWork hlock hn
  | printer k =>
    obtain ⟨c, l, line, rfl⟩ := printing_goto hn
    exact .inl (h.frame rfl rfl)

theorem arrayReverser_locking (h : (arrayReverser n).Reach s) : Locking n s := by
  refine h.inv (I := Locking n) ?_ fun _ _ _ _ hi hn => hi.step hn
  rintro _ ⟨array, rfl⟩
  have hstart : Locking n (Reverse.start n array) := Locking.start
  exact ⟨hstart.owned, hstart.pair, hstart.entered, hstart.uncreated, hstart.unlocking⟩

theorem draw_range (r r' : Nat) (hn : 2 ≤ n) :
    r % (n - 1) ≤ n - 2 ∧ r % (n - 1) ≤ r' % (n - r % (n - 1)) + r % (n - 1) ∧
      r' % (n - r % (n - 1)) + r % (n - 1) ≤ n - 1 := by
  have ha : r % (n - 1) < n - 1 := Nat.mod_lt _ (by omega)
  have hb : r' % (n - r % (n - 1)) < n - r % (n - 1) := Nat.mod_lt _ (by omega)
  omega

/-- **A `SIGUSR1` reverses a segment.** From the draw on, for any array, whatever signals come
and whatever the printing threads do: as long as the loop goes on all its indexes, and those of
the print behind it, are in the array, and when it exits the drawn segment is reversed and the
rest of the array unchanged. -/
theorem sigusr1_reverses {r r' : Nat} {as : List Act} (hn : 2 ≤ n) (h : (arrayReverser n).Reach s)
    (hdraw : s.main = .draw) (he : (arrayReverser n).exec s (.main r r' :: as) = some t) :
    let lo := r % (n - 1)
    let hi := r' % (n - lo) + lo
    lo ≤ n - 2 ∧ lo ≤ hi ∧ hi ≤ n - 1 ∧
      (Reversing n s.array lo hi t ∨ ∃ before after u, as = before ++ after ∧
        (arrayReverser n).exec s (.main r r' :: before) = some u ∧
          Reversed s.array lo hi u) := by
  intro lo hi
  obtain ⟨hlo, hle, hhi⟩ := draw_range r r' hn
  refine ⟨hlo, hle, hhi, ?_⟩
  obtain ⟨u, hu, hrest⟩ := LTS.exec_cons_some.mp he
  have hdrawn : u = { s with main := .lockA lo hi } := by
    have hnext : s.mainWork n r r' = some u := hu
    unfold State.mainWork at hnext
    rw [hdraw] at hnext
    dsimp only at hnext
    rw [if_neg (by omega)] at hnext
    exact (Option.some.inj hnext).symm
  have hbegin : Reversing n s.array lo hi u := by
    subst hdrawn
    have hlt : hi < n := Nat.lt_of_le_of_lt hhi (Nat.sub_lt (by omega) Nat.one_pos)
    exact ⟨⟨lo, hi, rfl, Nat.le_refl _, hle, Nat.le_refl _, hlt, rfl⟩, nofun,
      (mirrored_whole _ _ _).symm⟩
  have hlock := arrayReverser_locking (.step h hu)
  have huntil := LTS.exec_until (L := arrayReverser n)
    (I := fun s' => Reversing n s.array lo hi s' ∧ Locking n s')
    (G := Reversed s.array lo hi) (fun s' act t' hi' hn' => ?_) ⟨hbegin, hlock⟩ hrest
  · rcases huntil with hgoes | ⟨before, after, v, hsplit, hv, hdone⟩
    · exact .inl hgoes.1
    · exact .inr ⟨before, after, v, hsplit, (LTS.exec_cons hu before).trans hv, hdone⟩
  · rcases hi'.1.step hi'.2 hn' with hgoes | hdone
    · exact .inl ⟨hgoes, hi'.2.step hn'⟩
    · exact .inr hdone

/-- Three elements are reversed: one turn exchanges the outer two. -/
theorem sigusr1_reverses_three : ∃ s t : State, (arrayReverser 3).Reach s ∧
    (arrayReverser 3).exec s (List.replicate 10 (.main 0 2)) = some t ∧
    (List.range 3).map t.array = [30, 20, 10] ∧
    (Reversing 3 s.array 0 2 t ∨ ∃ before after u, List.replicate 9 (.main 0 2) = before ++ after ∧
      (arrayReverser 3).exec s (.main 0 2 :: before) = some u ∧ Reversed s.array 0 2 u) := by
  have hrun : ((arrayReverser 3).exec (startWith 3 fun i => 10 * i + 10)
      ([.kill .usr1] ++ List.replicate 2 (.main 0 0))).bind (fun s =>
        ((arrayReverser 3).exec s (List.replicate 10 (.main 0 2))).map fun t =>
          (s.main, (List.range 3).map t.array)) = some (.draw, [30, 20, 10]) := by decide
  obtain ⟨s, hs, hrest⟩ := Option.bind_eq_some_iff.mp hrun
  obtain ⟨t, ht, heq⟩ := Option.map_eq_some_iff.mp hrest
  simp only [Prod.mk.injEq] at heq
  have hreach : (arrayReverser 3).Reach s := LTS.Reach.exec (.init ⟨_, rfl⟩) hs
  exact ⟨s, t, hreach, ht, heq.2, (sigusr1_reverses (by decide) hreach heq.1 ht).2.2.2⟩

end Ops.Reverse
