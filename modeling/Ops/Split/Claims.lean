import Ops.Lib.Update
import Ops.Split.Process

/-!
# Which ranges are claimed

The claims are the multiples of `chunk` in order, whichever threads make them, and
none is made from `size / chunk` on.
-/

namespace Ops.Split

open Posix (Locks)

def Pc.holds : Pc → Option Unit
  | .test | .start | .increment _ | .unlock _ | .leave | .errorStore _ | .errorUnlock => some ()
  | _ => none

/-- What a thread knows of `next_chunk` by its place. -/
def Pc.Fits (size chunk next_chunk : Nat) : Pc → Prop
  | .start => next_chunk < size / chunk
  | .increment chunk_start => next_chunk < size / chunk ∧ chunk_start = next_chunk * chunk
  | .leave | .done => size / chunk ≤ next_chunk
  | _ => True

variable {n size chunk m : Nat} {s t : State n} {p : Fin n}

theorem Pc.Fits.succ {c : Pc} {next_chunk : Nat} (h : c.Fits size chunk next_chunk)
    (hc : c.holds ≠ some ()) : c.Fits size chunk (next_chunk + 1) := by
  cases c <;> simp_all [Pc.Fits, Pc.holds]
  omega

structure Inv (size chunk : Nat) (s : State n) : Prop where
  owned : s.locks.Owned fun q k => (s.pc q).holds = some k
  fits : ∀ q, (s.pc q).Fits size chunk s.next_chunk
  claimed : s.claimed = (List.range s.next_chunk).map (· * chunk)
  bound : s.next_chunk ≤ size / chunk
  uncreated : ∀ q : Fin n, s.created ≤ q → s.pc q = .off

namespace Inv

theorem goto_uncreated (h : Inv size chunk s) (hon : s.pc p ≠ .off) (c : Pc) (q : Fin n)
    (hq : s.created ≤ q) : Function.update s.pc p c q = .off := by
  have hoff := h.uncreated q hq
  have hne : q ≠ p := fun hqp => hon (hqp ▸ hoff)
  simp [hne, hoff]

theorem frame (h : Inv size chunk s) (hon : s.pc p ≠ .off) {c : Pc}
    (hpc : t.pc = Function.update s.pc p c)
    (howned : t.locks.Owned fun q k => (Function.update s.pc p c q).holds = some k)
    (hfits : (s.pc p).Fits size chunk s.next_chunk → c.Fits size chunk s.next_chunk)
    (hnext : t.next_chunk = s.next_chunk) (hclaimed : t.claimed = s.claimed)
    (hcreated : t.created = s.created) : Inv size chunk t := by
  refine ⟨?_, fun q => ?_, ?_, ?_, fun q hq => ?_⟩
  · rw [hpc]
    exact howned
  · rw [hpc, hnext]
    exact update_keeps (P := fun c => Pc.Fits size chunk s.next_chunk c) (h.fits q) hfits
  · rw [hclaimed, hnext]
    exact h.claimed
  · rw [hnext]
    exact h.bound
  · rw [hpc]
    exact h.goto_uncreated hon c q (hcreated ▸ hq)

theorem ended (h : Inv size chunk s) (phase : Phase) :
    Inv size chunk { s with phase := phase } :=
  ⟨h.owned, h.fits, h.claimed, h.bound, h.uncreated⟩

theorem claim (h : Inv size chunk s) (hon : s.pc p ≠ .off) {chunk_start : Nat}
    (hpc : s.pc p = .increment chunk_start) :
    Inv size chunk ({ s with
      next_chunk := s.next_chunk + 1
      claimed := s.claimed ++ [chunk_start] }.goto p (.unlock chunk_start)) := by
  obtain ⟨hlt, rfl⟩ : s.next_chunk < size / chunk ∧ chunk_start = s.next_chunk * chunk := by
    simpa [hpc, Pc.Fits] using h.fits p
  refine ⟨h.owned.move (by rw [hpc]; rfl), fun q => ?_, ?_, hlt, h.goto_uncreated hon _⟩
  · by_cases hq : q = p
    · simp [hq, State.goto, Pc.Fits]
    · have hother : (s.pc q).holds ≠ some () := fun hheld =>
        hq (h.owned.one hheld (show (s.pc p).holds = some () by rw [hpc]; rfl))
      simp only [State.goto, Function.update_of_ne hq]
      exact (h.fits q).succ hother
  · simp [State.goto, h.claimed, List.range_succ]

theorem thread_work {ok : Bool} (h : Inv size chunk s)
    (hn : s.thread_work size chunk p ok = some t) : Inv size chunk t := by
  unfold State.thread_work at hn
  have hon : s.pc p ≠ .off := fun hoff => by simp [hoff] at hn
  cases hpc : s.pc p with
  | off | done | failed => simp [hpc] at hn
  | malloc =>
    simp only [hpc, Option.some.injEq] at hn
    subst hn
    cases ok
    · exact h.frame hon rfl (h.owned.move (by rw [hpc]; rfl)) (fun _ => trivial) rfl rfl rfl
    · exact h.frame hon rfl (h.owned.move (by rw [hpc]; rfl)) (fun _ => trivial) rfl rfl rfl
  | lock | errorLock line =>
    simp only [hpc] at hn
    obtain ⟨l, hl, rfl⟩ := Option.map_eq_some_iff.mp hn
    exact h.frame hon rfl (h.owned.take hl (by rw [hpc]; rfl) rfl) (fun _ => trivial) rfl rfl rfl
  | test =>
    simp only [hpc] at hn
    split at hn
    · cases hn
      exact h.ended _
    · cases hn
      split
      · rename_i hend
        exact h.frame hon rfl (h.owned.move (by rw [hpc]; rfl)) (fun _ => hend) rfl rfl rfl
      · rename_i hmore
        exact h.frame hon rfl (h.owned.move (by rw [hpc]; rfl)) (fun _ => Nat.not_le.mp hmore)
          rfl rfl rfl
  | start =>
    simp only [hpc, Option.some.injEq] at hn
    subst hn
    refine h.frame hon rfl (h.owned.move (by rw [hpc]; rfl)) (fun hfits => ?_) rfl rfl rfl
    rw [hpc] at hfits
    exact ⟨hfits, rfl⟩
  | increment chunk_start =>
    simp only [hpc] at hn
    split at hn
    · cases hn
      exact h.claim hon hpc
    · cases hn
      exact h.ended _
  | unlock chunk_start | errorUnlock =>
    simp only [hpc] at hn
    obtain ⟨l, hl, rfl⟩ := Option.map_eq_some_iff.mp hn
    exact h.frame hon rfl (h.owned.drop hl (by rw [hpc]; rfl) rfl) (fun _ => trivial) rfl rfl rfl
  | pread chunk_start =>
    simp only [hpc, Option.some.injEq] at hn
    subst hn
    cases ok
    · exact h.frame hon rfl (h.owned.move (by rw [hpc]; rfl)) (fun _ => trivial) rfl rfl rfl
    · exact h.frame hon rfl (h.owned.move (by rw [hpc]; rfl)) (fun _ => trivial) rfl rfl rfl
  | node chunk_start =>
    simp only [hpc] at hn
    split at hn
    · cases hn
      exact h.frame hon rfl (h.owned.move (by rw [hpc]; rfl)) (fun _ => trivial) rfl rfl rfl
    · cases hn
      exact h.ended _
  | leave =>
    simp only [hpc] at hn
    obtain ⟨l, hl, rfl⟩ := Option.map_eq_some_iff.mp hn
    refine h.frame hon rfl (h.owned.drop hl (by rw [hpc]; rfl) rfl) (fun hfits => ?_) rfl rfl rfl
    rw [hpc] at hfits
    exact hfits
  | errorStore line =>
    simp only [hpc, Option.some.injEq] at hn
    subst hn
    exact h.frame hon rfl (h.owned.move (by rw [hpc]; rfl)) (fun _ => trivial) rfl rfl rfl

theorem step {act : Act n} (h : Inv size (size / m) s) (hn : s.next size m act = some t) :
    Inv size (size / m) t := by
  unfold State.next at hn
  split at hn
  · split at hn
    · rename_i hlt
      cases hn
      have hoff := h.uncreated ⟨s.created, hlt⟩ (Nat.le_refl _)
      refine ⟨h.owned.move (by rw [hoff]; rfl), fun q => ?_, h.claimed, h.bound, fun q hq => ?_⟩
      · exact update_keeps (P := fun c => Pc.Fits size (size / m) s.next_chunk c) (h.fits q)
          fun _ => trivial
      · have hle : s.created + 1 ≤ q := hq
        have hne : q ≠ ⟨s.created, hlt⟩ := fun hqp => by
          rw [hqp] at hle
          exact absurd hle (by simp)
        simpa [State.goto, hne] using h.uncreated q (by omega)
    · cases hn
  · exact h.thread_work hn
  · cases hn

theorem start : Inv size chunk (Split.start n) :=
  ⟨by simp [Locks.Owned, Split.start, Pc.holds], fun _ => trivial, rfl, Nat.zero_le _,
    fun _ _ => rfl⟩

theorem reach (h : (splitter size m n).Reach s) : Inv size (size / m) s := by
  refine h.inv (I := Inv size (size / m)) ?_ fun _ _ _ _ hi hn => hi.step hn
  rintro _ rfl
  exact .start

/-! ## The claimed ranges -/

theorem disjoint (h : Inv size chunk s) :
    s.claimed.Pairwise fun x y => x + chunk ≤ y ∨ y + chunk ≤ x := by
  rw [h.claimed, List.pairwise_map]
  refine List.pairwise_lt_range.imp fun {i j} hij => .inl ?_
  calc i * chunk + chunk = (i + 1) * chunk := (Nat.succ_mul i chunk).symm
    _ ≤ j * chunk := Nat.mul_le_mul_right chunk hij

theorem inside (h : Inv size chunk s) {x : Nat} (hx : x ∈ s.claimed) :
    x + chunk ≤ size / chunk * chunk := by
  rw [h.claimed] at hx
  obtain ⟨i, hi, rfl⟩ := List.mem_map.mp hx
  have hlt := List.mem_range.mp hi
  have hbound := h.bound
  calc i * chunk + chunk = (i + 1) * chunk := (Nat.succ_mul i chunk).symm
    _ ≤ size / chunk * chunk := Nat.mul_le_mul_right chunk (by omega)

/-- A thread that has left its loop has seen that all chunks are claimed. -/
theorem all_claimed (h : Inv size chunk s) (hp : s.pc p = .done) :
    s.next_chunk = size / chunk := by
  have hfits := h.fits p
  have hbound := h.bound
  rw [hp] at hfits
  simp only [Pc.Fits] at hfits
  omega

/-- A byte below the last multiple of `chunk` is in one range. -/
theorem covered (h : Inv size chunk s) (hp : s.pc p = .done) {b : Nat}
    (hb : b < size / chunk * chunk) :
    s.claimed.countP (fun x => x ≤ b ∧ b < x + chunk) = 1 := by
  have hpos : 0 < chunk := Nat.pos_of_ne_zero fun hzero => by simp [hzero] at hb
  have hmem : b / chunk ∈ List.range (size / chunk) :=
    List.mem_range.mpr ((Nat.div_lt_iff_lt_mul hpos).mpr hb)
  rw [h.claimed, h.all_claimed hp, List.countP_map]
  refine (List.countP_congr fun i _ => ?_).trans
    (List.count_eq_one_of_mem List.nodup_range hmem)
  have hiff : i * chunk ≤ b ∧ b < i * chunk + chunk ↔ i = b / chunk := by
    rw [← Nat.le_div_iff_mul_le hpos, ← Nat.succ_mul, ← Nat.div_lt_iff_lt_mul hpos]
    omega
  simp [hiff]

end Inv

end Ops.Split
