import Ops.Split.Join

/-!
# The joined list

`concat_and_print` builds the concatenation of the threads' lists, prints every node
once and frees every node and line once (`lists_joined`), while threads that have not
been joined push nodes to their lists.
-/

namespace Ops.Split.Join

variable {A : Type} {n i j k : Nat} {head tail : Option A} {tmp : A} {l r : List (Entry A)}
variable {e : Entry A} {s t : State A}

/-- The lists before `i` are joined. `last`: `tail` points to the last node. -/
structure Built (n i : Nat) (head tail : Option A) (s : State A) : Prop where
  le : i ≤ n
  apart : Apart n s.lists
  built : IsList s.mem head (joined i s.lists)
  last : ∀ l e, joined i s.lists = l ++ [e] → tail = some e.node
  rest : ∀ j, i ≤ j → j < n → IsList s.mem (s.head j) (s.lists j)
  silent : s.out = [] ∧ s.visited = [] ∧ s.freed = []

/-- List `i` is joined, and `tmp` has nodes `r` behind it. -/
structure Walking (n i : Nat) (head : Option A) (tmp : A) (r : List (Entry A)) (s : State A) :
    Prop where
  lt : i < n
  apart : Apart n s.lists
  built : IsList s.mem head (joined (i + 1) s.lists)
  here : ∃ l e, joined (i + 1) s.lists = l ++ e :: r ∧ tmp = e.node
  rest : ∀ j, i < j → j < n → IsList s.mem (s.head j) (s.lists j)
  silent : s.out = [] ∧ s.visited = [] ∧ s.freed = []

/-- The nodes `l` are printed, and `r` are not. -/
structure Printing (n : Nat) (head tmp : Option A) (l r : List (Entry A)) (s : State A) : Prop where
  apart : Apart n s.lists
  all : joined n s.lists = l ++ r
  built : IsList s.mem head (joined n s.lists)
  here : IsList s.mem tmp r
  visited : s.visited = l.map Entry.node
  out : s.out = l.map Entry.text
  freed : s.freed = []

/-- The nodes `l` are freed, and `r` are not. -/
structure Freeing (n : Nat) (head : Option A) (l r : List (Entry A)) (s : State A) : Prop where
  apart : Apart n s.lists
  all : joined n s.lists = l ++ r
  here : IsList s.mem head r
  visited : s.visited = (joined n s.lists).map Entry.node
  out : s.out = (joined n s.lists).map Entry.text
  freed : s.freed = cells l

/-- **Everything is done**: each node was visited once, in the order of the threads, and each
node and line freed once. -/
structure Done (n : Nat) (s : State A) : Prop where
  visited : s.visited = (joined n s.lists).map Entry.node
  out : s.out = (joined n s.lists).map Entry.text
  freed : s.freed = cells (joined n s.lists)
  once : s.visited.Nodup ∧ s.freed.Nodup

inductive Inv (n : Nat) (s : State A) : Prop where
  | join (i : Nat) (head tail : Option A) : s.pc = .join i head tail → Built n i head tail s →
      Inv n s
  | test (i : Nat) (head tail : Option A) : s.pc = .test i head tail → i < n →
      Built n i head tail s → Inv n s
  | walk (i : Nat) (head : Option A) (tmp : A) (r : List (Entry A)) : s.pc = .walk i head tmp →
      Walking n i head tmp r s → Inv n s
  | print (head tmp : Option A) (l r : List (Entry A)) : s.pc = .print head tmp →
      Printing n head tmp l r s → Inv n s
  | free (head : Option A) (l r : List (Entry A)) : s.pc = .free head →
      Freeing n head l r s → Inv n s
  | returned : s.pc = .returned → Done n s → Inv n s

/-! ## What the invariant says -/

theorem nodup_split (h : (cells (l ++ r)).Nodup) : (cells l).Disjoint (cells r) := by
  rw [cells_append] at h
  exact List.disjoint_of_nodup_append h

theorem nodes_sublist (l : List (Entry A)) : (l.map Entry.node).Sublist (cells l) := by
  induction l with
  | nil => exact List.Sublist.refl []
  | cons e l ih => exact (ih.cons_cons e.node).cons e.line

theorem Freeing.done (h : Freeing n none l r s) : Done n s := by
  have hnil := h.here.of_none
  have hall := h.all
  rw [hnil, List.append_nil] at hall
  have hnodup := h.apart.joined_nodup (Nat.le_refl n)
  refine ⟨h.visited, h.out, h.freed.trans (by rw [hall]), ?_, ?_⟩
  · rw [h.visited]
    exact hnodup.sublist (nodes_sublist _)
  · rw [h.freed, ← hall]
    exact hnodup

theorem Printing.done (h : Printing n head none l r s) :
    Freeing n head [] (joined n s.lists) { s with pc := .free head } := by
  have hnil := h.here.of_none
  have hall := h.all
  rw [hnil, List.append_nil] at hall
  exact ⟨h.apart, rfl, h.built, hall ▸ h.visited, hall ▸ h.out, h.freed⟩

theorem Built.done (h : Built n i head tail s) (hi : ¬ i < n) :
    Printing n head head [] (joined n s.lists) { s with pc := .print head head } := by
  obtain rfl : i = n := Nat.le_antisymm h.le (Nat.not_lt.mp hi)
  exact ⟨h.apart, rfl, h.built, h.built, h.silent.2.1, h.silent.1, h.silent.2.2⟩

theorem State.Start.inv (h : s.Start n) : Inv n s := by
  refine .join 0 none none h.pc ⟨Nat.zero_le n, h.apart, rfl, ?_, fun j _ => h.list j,
    h.out, h.visited, h.freed⟩
  intro l e hl
  cases l <;> cases hl

theorem Inv.defined (h : Inv n s) : s.pc ≠ .undefined := by
  intro hpc
  cases h <;> cases hpc.symm.trans ‹_›

theorem Inv.printed (h : Inv n s) (hpc : s.pc = .print head tail) :
    IsList s.mem head (joined n s.lists) ∧ (cells (joined n s.lists)).Nodup := by
  cases h with
  | print head' tmp l r hpc' hprint =>
    cases hpc.symm.trans hpc'
    exact ⟨hprint.built, hprint.apart.joined_nodup (Nat.le_refl n)⟩
  | join _ _ _ hpc' _ | test _ _ _ hpc' _ _ | walk _ _ _ _ hpc' _ | free _ _ _ hpc' _
  | returned hpc' _ => cases hpc.symm.trans hpc'

theorem Inv.returned_done (h : Inv n s) (hpc : s.pc = .returned) : Done n s := by
  cases h with
  | returned _ hdone => exact hdone
  | join _ _ _ hpc' _ | test _ _ _ hpc' _ _ | walk _ _ _ _ hpc' _ | print _ _ _ _ hpc' _
  | free _ _ _ hpc' _ => cases hpc.symm.trans hpc'

theorem Inv.unjoined (h : Inv n s) (hj : j < n) (hruns : s.pc.runs j = true) :
    IsList s.mem (s.head j) (s.lists j) := by
  cases h with
  | join i head tail hpc hbuilt =>
    rw [hpc] at hruns
    exact hbuilt.rest j (of_decide_eq_true hruns) hj
  | test i head tail hpc hi hbuilt =>
    rw [hpc] at hruns
    exact hbuilt.rest j (Nat.le_of_lt (of_decide_eq_true hruns)) hj
  | walk i head tmp r hpc hwalk =>
    rw [hpc] at hruns
    exact hwalk.rest j (of_decide_eq_true hruns) hj
  | print _ _ _ _ hpc _ | free _ _ _ hpc _ | returned hpc _ =>
    rw [hpc] at hruns
    cases hruns

/-! ## Pushes of the threads -/

/-- Thread `j` adds `e`. -/
structure Pushed (n j : Nat) (e : Entry A) (s t : State A) : Prop where
  lt : j < n
  runs : s.pc.runs j = true
  pc : t.pc = s.pc
  fresh : s.mem e.node = none ∧ s.mem e.line = none ∧ e.node ≠ e.line
  mem : ∀ e p, Holds s.mem e p → Holds t.mem e p
  new : Holds t.mem e (s.head j)
  head : t.head = Function.update s.head j (some e.node)
  lists : t.lists = Function.update s.lists j (e :: s.lists j)
  logs : t.out = s.out ∧ t.visited = s.visited ∧ t.freed = s.freed

theorem Pushed.list (h : Pushed n j e s t) (hk : IsList s.mem (s.head k) (s.lists k)) :
    IsList t.mem (t.head k) (t.lists k) := by
  have hold : IsList t.mem (s.head k) (s.lists k) := hk.frame fun e _ p => h.mem e p
  rw [h.head, h.lists]
  by_cases hkj : k = j
  · subst hkj
    rw [Function.update_self, Function.update_self]
    exact ⟨rfl, s.head k, h.new, hold⟩
  · rw [Function.update_of_ne hkj, Function.update_of_ne hkj]
    exact hold

theorem Pushed.joined (h : Pushed n j e s t) (hij : i ≤ j) :
    joined i t.lists = joined i s.lists := by
  rw [h.lists]
  exact joined_congr fun k hk => Function.update_of_ne (by omega) ..

theorem Pushed.built (h : Pushed n j e s t) (hij : i ≤ j)
    (hb : IsList s.mem head (Join.joined i s.lists)) :
    IsList t.mem head (Join.joined i t.lists) := by
  rw [h.joined hij]
  exact hb.frame fun e _ p => h.mem e p

theorem Pushed.apart (h : Pushed n j e s t) (ha : Apart n s.lists)
    (hb : IsList s.mem head (Join.joined i s.lists))
    (hrest : ∀ k, i ≤ k → k < n → IsList s.mem (s.head k) (s.lists k)) : Apart n t.lists := by
  have hheld : ∀ k < n, ∀ e' ∈ s.lists k, ∃ p, Holds s.mem e' p := by
    intro k hk e' he'
    by_cases hki : k < i
    · exact hb.holds (mem_joined.mpr ⟨k, hki, he'⟩)
    · exact (hrest k (Nat.not_lt.mp hki) hk).holds he'
  rw [h.lists]
  refine ha.push (fun k hk hmem => ?_) (fun k hk hmem => ?_) h.fresh.2.2
  · exact cells_allocated (hheld k hk) hmem h.fresh.1
  · exact cells_allocated (hheld k hk) hmem h.fresh.2.1

theorem Pushed.silent (h : Pushed n j e s t)
    (hs : s.out = [] ∧ s.visited = [] ∧ s.freed = []) :
    t.out = [] ∧ t.visited = [] ∧ t.freed = [] :=
  ⟨h.logs.1.trans hs.1, h.logs.2.1.trans hs.2.1, h.logs.2.2.trans hs.2.2⟩

theorem Built.pushed (hb : Built n i head tail s) (h : Pushed n j e s t) (hij : i ≤ j) :
    Built n i head tail t := by
  refine ⟨hb.le, h.apart hb.apart hb.built hb.rest, h.built hij hb.built, ?_,
    fun k hik hk => h.list (hb.rest k hik hk), h.silent hb.silent⟩
  rw [h.joined hij]
  exact hb.last

theorem Walking.pushed (hw : Walking n i head tmp r s) (h : Pushed n j e s t) (hij : i < j) :
    Walking n i head tmp r t := by
  refine ⟨hw.lt, h.apart hw.apart hw.built hw.rest, h.built hij hw.built, ?_,
    fun k hik hk => h.list (hw.rest k hik hk), h.silent hw.silent⟩
  rw [h.joined hij]
  exact hw.here

theorem Inv.pushed (hs : Inv n s) (h : Pushed n j e s t) : Inv n t := by
  have hruns := h.runs
  cases hs with
  | join i head tail hpc hb =>
    rw [hpc] at hruns
    exact .join i head tail (h.pc.trans hpc) (hb.pushed h (of_decide_eq_true hruns))
  | test i head tail hpc hi hb =>
    rw [hpc] at hruns
    have hij : i < j := of_decide_eq_true hruns
    exact .test i head tail (h.pc.trans hpc) hi (hb.pushed h (Nat.le_of_lt hij))
  | walk i head tmp r hpc hw =>
    rw [hpc] at hruns
    exact .walk i head tmp r (h.pc.trans hpc) (hw.pushed h (of_decide_eq_true hruns))
  | print head tmp l r hpc _ | free head l r hpc _ | returned hpc _ =>
    rw [hpc] at hruns
    cases hruns

/-! ## Steps -/

theorem Walking.walk (h : Walking n i head tmp r s) :
    (r = [] ∧ (s.walk i head tmp).pc = .join (i + 1) head (some tmp) ∧
        Built n (i + 1) head (some tmp) (s.walk i head tmp)) ∨
      ∃ e r', r = e :: r' ∧ (s.walk i head tmp).pc = .walk i head e.node ∧
        Walking n i head e.node r' (s.walk i head tmp) := by
  obtain ⟨l, e, hall, rfl⟩ := h.here
  have hbuilt := h.built
  rw [hall] at hbuilt
  obtain ⟨p, ⟨hnode, hline⟩, hrest⟩ := hbuilt.middle
  unfold State.walk
  rw [hnode]
  cases p with
  | none =>
    obtain rfl := hrest.of_none
    refine .inl ⟨rfl, rfl, h.lt, h.apart, h.built, fun l' e' hall' => ?_, h.rest, h.silent⟩
    have heq : l' ++ [e'] = l ++ [e] := hall'.symm.trans hall
    obtain ⟨-, he⟩ := List.append_inj' heq rfl
    cases he
    rfl
  | some b =>
    obtain ⟨e', r', rfl, rfl⟩ := hrest.of_some
    refine .inr ⟨e', r', rfl, rfl, h.lt, h.apart, h.built, ⟨l ++ [e], e', ?_, rfl⟩, h.rest,
      h.silent⟩
    show joined (i + 1) s.lists = l ++ [e] ++ e' :: r'
    rw [hall, List.append_assoc]
    rfl

theorem Printing.print {a : A} (h : Printing n head (some a) l r s) :
    ∃ e r' tmp, r = e :: r' ∧ (s.print head a).pc = .print head tmp ∧
      Printing n head tmp (l ++ [e]) r' (s.print head a) := by
  obtain ⟨e, r', rfl, rfl⟩ := h.here.of_some
  obtain ⟨-, p, ⟨hnode, hline⟩, hrest⟩ := h.here
  unfold State.print
  rw [hnode]
  dsimp only
  rw [hline]
  refine ⟨e, r', p, rfl, rfl, h.apart, ?_, h.built, hrest, ?_, ?_, h.freed⟩
  · show joined n s.lists = l ++ [e] ++ r'
    rw [h.all, List.append_assoc]
    rfl
  · show s.visited ++ [e.node] = _
    rw [h.visited, List.map_append]
    rfl
  · show s.out ++ [e.text] = _
    rw [h.out, List.map_append]
    rfl

variable [DecidableEq A]

theorem Built.link {b : A} (h : Built n i head tail s) (hi : i < n) (hb : s.head i = some b)
    (hhead : head ≠ none) :
    ∃ t, s.link tail (some b) (.walk i head b) = t ∧ t.pc = .walk i head b ∧
      ∃ r, Walking n i head b r t := by
  have hne : joined i s.lists ≠ [] := fun hnil => hhead (h.built.nil_iff.mpr hnil)
  obtain ⟨l, z, hz⟩ : ∃ l z, joined i s.lists = l ++ [z] :=
    ⟨_, _, (List.dropLast_append_getLast hne).symm⟩
  have htail := h.last l z hz
  have hbuilt := h.built
  have hnodup := h.apart.joined_nodup h.le
  rw [hz] at hbuilt hnodup
  obtain ⟨q, hznode, hzline⟩ := hbuilt.holds (List.mem_append_right l (List.mem_singleton_self z))
  have hself : z.line ≠ z.node := by
    intro heq
    rw [heq, hznode] at hzline
    cases hzline
  have hzmem : z.node ∈ cells (joined i s.lists) := by
    rw [hz]
    exact (mem_cells (List.mem_append_right l (List.mem_singleton_self z))).2
  obtain ⟨e, r, hlist, rfl⟩ := (hb ▸ h.rest i (Nat.le_refl i) hi).of_some
  refine ⟨_, rfl, ?_, r, ?_⟩
  · unfold State.link
    rw [htail]
    dsimp only
    rw [hznode]
  · unfold State.link
    rw [htail]
    dsimp only
    rw [hznode]
    -- the lists that are not joined are elsewhere
    have hrest : ∀ j, i ≤ j → j < n →
        IsList (Function.update s.mem z.node (some (.node z.line (some e.node)))) (s.head j)
          (s.lists j) := by
      intro j hij hj
      refine (h.rest j hij hj).frame fun e' he' p hp => ?_
      exact hp.update_apart he' (h.apart.joined_disjoint hij hj) hzmem
    refine ⟨hi, h.apart, ?_, ⟨joined i s.lists, e, ?_, rfl⟩,
      fun j hij => hrest j (Nat.le_of_lt hij), h.silent⟩
    · rw [joined_succ, hz]
      refine Chain.append (hbuilt.splice (r := some e.node) ⟨Function.update_self .., ?_⟩ ?_) ?_
      · exact (Function.update_of_ne hself ..).trans hzline
      · intro e' he' p hp
        exact hp.update_apart he' (nodup_split hnodup) (mem_cells (List.mem_singleton_self z)).2
      · exact hb ▸ hrest i (Nat.le_refl i) hi
    · rw [joined_succ, hlist]

theorem Built.test (h : Built n i head tail s) (hi : i < n) :
    ((s.test i head tail).pc = .join (i + 1) head tail ∧
        Built n (i + 1) head tail (s.test i head tail)) ∨
      ∃ head' tmp r, (s.test i head tail).pc = .walk i head' tmp ∧
        Walking n i head' tmp r (s.test i head tail) := by
  unfold State.test
  have hlist := h.rest i (Nat.le_refl i) hi
  cases hb : s.head i with
  | none =>
    rw [hb] at hlist
    have hnil := hlist.of_none
    refine .inl ⟨rfl, hi, h.apart, ?_, ?_, fun j hij => h.rest j (Nat.le_of_succ_le hij), h.silent⟩
    · show IsList s.mem head (joined (i + 1) s.lists)
      rw [joined_succ, hnil, List.append_nil]
      exact h.built
    · show ∀ l e, joined (i + 1) s.lists = l ++ [e] → tail = some e.node
      rw [joined_succ, hnil, List.append_nil]
      exact h.last
  | some b =>
    cases head with
    | none =>
      rw [hb] at hlist
      obtain ⟨e, r, hr, rfl⟩ := hlist.of_some
      have hnil := h.built.of_none
      refine .inr ⟨some e.node, e.node, r, rfl, hi, h.apart, ?_, ⟨[], e, ?_, rfl⟩,
        fun j hij => h.rest j (Nat.le_of_lt hij), h.silent⟩
      · show IsList s.mem (some e.node) (joined (i + 1) s.lists)
        rw [joined_succ, hnil]
        exact hlist
      · show joined (i + 1) s.lists = [] ++ e :: r
        rw [joined_succ, hnil, hr]
    | some a =>
      obtain ⟨t, rfl, hpc, r, hwalk⟩ := h.link hi hb nofun
      exact .inr ⟨some a, b, r, hpc, hwalk⟩

theorem Freeing.free {a : A} (h : Freeing n (some a) l r s) :
    ∃ e r' head, r = e :: r' ∧ (s.free a).pc = .free head ∧
      Freeing n head (l ++ [e]) r' (s.free a) := by
  obtain ⟨e, r', rfl, rfl⟩ := h.here.of_some
  obtain ⟨-, p, ⟨hnode, hline⟩, hrest⟩ := h.here
  have hnodup := h.apart.joined_nodup (Nat.le_refl n)
  rw [h.all, cells_append] at hnodup
  have hdisjoint : (cells r').Disjoint (cells [e]) := fun a ha ha' =>
    nodup_split (l := [e]) (List.Nodup.of_append_right hnodup) ha' ha
  have hmem := mem_cells (List.mem_singleton_self e)
  unfold State.free
  rw [hnode]
  dsimp only
  rw [hline]
  refine ⟨e, r', p, rfl, rfl, h.apart, ?_, ?_, h.visited, h.out, ?_⟩
  · show joined n s.lists = l ++ [e] ++ r'
    rw [h.all, List.append_assoc]
    rfl
  · refine hrest.frame fun e' he' q hq => ?_
    exact (hq.update_apart he' hdisjoint hmem.1).update_apart he' hdisjoint hmem.2
  · show s.freed ++ [e.line, e.node] = _
    rw [h.freed, cells_append]
    rfl

theorem Inv.concat (h : Inv n s) (hn : s.concat_and_print n = some t) : Inv n t := by
  unfold State.concat_and_print at hn
  cases h with
  | join i head tail hpc hbuilt =>
    rw [hpc] at hn
    cases hn
    by_cases hi : i < n
    · refine .test i head tail (by dsimp only; rw [if_pos hi]) hi ?_
      exact ⟨hbuilt.le, hbuilt.apart, hbuilt.built, hbuilt.last, hbuilt.rest, hbuilt.silent⟩
    · have hprint := hbuilt.done hi
      refine .print head head [] (joined n s.lists) (by dsimp only; rw [if_neg hi]) ?_
      exact ⟨hprint.apart, hprint.all, hprint.built, hprint.here, hprint.visited, hprint.out,
        hprint.freed⟩
  | test i head tail hpc hi hbuilt =>
    rw [hpc] at hn
    cases hn
    rcases hbuilt.test hi with ⟨hpc', hbuilt'⟩ | ⟨head', tmp, r, hpc', hwalk⟩
    · exact .join _ _ _ hpc' hbuilt'
    · exact .walk _ _ _ r hpc' hwalk
  | walk i head tmp r hpc hwalk =>
    rw [hpc] at hn
    cases hn
    rcases hwalk.walk with ⟨-, hpc', hbuilt⟩ | ⟨e, r', -, hpc', hwalk'⟩
    · exact .join _ _ _ hpc' hbuilt
    · exact .walk _ _ _ r' hpc' hwalk'
  | print head tmp l r hpc hprint =>
    rw [hpc] at hn
    cases tmp with
    | none =>
      cases hn
      exact .free head [] (joined n s.lists) rfl hprint.done
    | some a =>
      cases hn
      obtain ⟨e, r', tmp, -, hpc', hprint'⟩ := hprint.print
      exact .print head tmp _ r' hpc' hprint'
  | free head l r hpc hfree =>
    rw [hpc] at hn
    cases head with
    | none =>
      cases hn
      have hdone := hfree.done
      exact .returned rfl ⟨hdone.visited, hdone.out, hdone.freed, hdone.once⟩
    | some a =>
      cases hn
      obtain ⟨e, r', head, -, hpc', hfree'⟩ := hfree.free
      exact .free head _ r' hpc' hfree'
  | returned hpc hdone =>
    rw [hpc] at hn
    cases hn

theorem Holds.fresh {mem : A → Option (Cell A)} {a : A} {c : Option (Cell A)} {p : Option A}
    (h : Holds mem e p) (ha : mem a = none) : Holds (Function.update mem a c) e p := by
  refine h.update ?_ ?_
  · rintro rfl
    cases ha.symm.trans h.1
  · rintro rfl
    cases ha.symm.trans h.2

theorem pushed {node line : A} {text : List Byte} (h : s.push n j node line text = some t) :
    Pushed n j ⟨node, line, text⟩ s t := by
  unfold State.push at h
  split at h
  · next hif =>
    obtain ⟨hj, hruns, hnode, hline, hne⟩ := hif
    cases h
    refine ⟨hj, hruns, rfl, ⟨hnode, hline, hne⟩, fun e p he => ?_, ?_, rfl, rfl, rfl, rfl, rfl⟩
    · exact (he.fresh hline).fresh ((Function.update_of_ne hne ..).trans hnode)
    · refine ⟨Function.update_self .., ?_⟩
      exact (Function.update_of_ne hne.symm ..).trans (Function.update_self ..)
  · cases h

theorem Inv.next {a : Act A} (hs : Inv n s) (hn : s.next n a = some t) : Inv n t := by
  cases a with
  | concat => exact hs.concat hn
  | push j node line text => exact hs.pushed (Join.pushed hn)

theorem Inv.exec {as : List (Act A)} (hs : Inv n s) (he : (joins n).exec s as = some t) :
    Inv n t :=
  LTS.exec_inv (fun _ _ _ hu hn => hu.next hn) hs he

/-! ## `concat_and_print` ends -/

/-- `concat_and_print` returns when no thread pushes any more. -/
def Leads (n : Nat) (s : State A) : Prop :=
  ∃ as t, (∀ a ∈ as, a = .concat) ∧ (joins n).exec s as = some t ∧ t.pc = .returned

theorem Leads.step (hn : s.concat_and_print n = some t) (h : Leads n t) : Leads n s := by
  obtain ⟨as, u, has, he, hu⟩ := h
  refine ⟨.concat :: as, u, fun a ha => ?_, (LTS.exec_cons hn as).trans he, hu⟩
  rcases List.mem_cons.mp ha with rfl | ha
  · rfl
  · exact has a ha

theorem Freeing.leads (h : Freeing n head l r s) (hpc : s.pc = .free head) : Leads n s := by
  induction r generalizing l head s with
  | nil =>
    obtain rfl : head = none := h.here
    refine Leads.step (t := { s with pc := .returned }) ?_ ⟨[], _, nofun, rfl, rfl⟩
    unfold State.concat_and_print
    rw [hpc]
  | cons e r ih =>
    cases head with
    | none => cases h.here.of_none
    | some a =>
      obtain ⟨e', r', head', heq, hpc', hfree⟩ := h.free
      cases heq
      refine Leads.step ?_ (ih hfree hpc')
      unfold State.concat_and_print
      rw [hpc]

theorem Printing.leads {tmp' : Option A} (h : Printing n head tmp' l r s)
    (hpc : s.pc = .print head tmp') : Leads n s := by
  induction r generalizing l tmp' s with
  | nil =>
    obtain rfl : tmp' = none := h.here
    refine Leads.step ?_ (h.done.leads rfl)
    unfold State.concat_and_print
    rw [hpc]
  | cons e r ih =>
    cases tmp' with
    | none => cases h.here.of_none
    | some a =>
      obtain ⟨e', r', tmp'', heq, hpc', hprint⟩ := h.print
      cases heq
      refine Leads.step ?_ (ih hprint hpc')
      unfold State.concat_and_print
      rw [hpc]

theorem concat_walk (n : Nat) (hpc : s.pc = .walk i head tmp) :
    s.concat_and_print n = some (s.walk i head tmp) := by
  unfold State.concat_and_print
  rw [hpc]

theorem Walking.leads (h : Walking n i head tmp r s) (hpc : s.pc = .walk i head tmp)
    (hjoin : ∀ (head tail : Option A) (t : State A), t.pc = .join (i + 1) head tail →
      Built n (i + 1) head tail t → Leads n t) : Leads n s := by
  induction r generalizing tmp s with
  | nil =>
    rcases h.walk with ⟨-, hpc', hbuilt⟩ | ⟨e, r', hr, -⟩
    · exact Leads.step (concat_walk n hpc) (hjoin _ _ _ hpc' hbuilt)
    · cases hr
  | cons e r ih =>
    rcases h.walk with ⟨hr, -⟩ | ⟨e', r', hr, hpc', hwalk⟩
    · cases hr
    · cases hr
      exact Leads.step (concat_walk n hpc) (ih hwalk hpc')

theorem Built.leads_test (h : Built n i head tail s) (hi : i < n) (hpc : s.pc = .test i head tail)
    (hjoin : ∀ (head tail : Option A) (t : State A), t.pc = .join (i + 1) head tail →
      Built n (i + 1) head tail t → Leads n t) : Leads n s := by
  have hstep : s.concat_and_print n = some (s.test i head tail) := by
    unfold State.concat_and_print
    rw [hpc]
  rcases h.test hi with ⟨hpc', hbuilt⟩ | ⟨head', tmp, r, hpc', hwalk⟩
  · exact Leads.step hstep (hjoin _ _ _ hpc' hbuilt)
  · exact Leads.step hstep (hwalk.leads hpc' hjoin)

theorem Built.leads (h : Built n i head tail s) (hpc : s.pc = .join i head tail) : Leads n s := by
  obtain ⟨d, hd⟩ : ∃ d, d = n - i := ⟨_, rfl⟩
  induction d generalizing i head tail s with
  | zero =>
    have hi : ¬ i < n := by omega
    refine Leads.step (t := { s with pc := .print head head }) ?_ ((h.done hi).leads rfl)
    unfold State.concat_and_print
    rw [hpc]
    dsimp only
    rw [if_neg hi]
  | succ d ih =>
    have hi : i < n := by omega
    have hbuilt : Built n i head tail { s with pc := .test i head tail } :=
      ⟨h.le, h.apart, h.built, h.last, h.rest, h.silent⟩
    refine Leads.step (t := { s with pc := .test i head tail }) ?_
      (hbuilt.leads_test hi rfl fun head tail t hpc' hb => ih hb hpc' (by omega))
    unfold State.concat_and_print
    rw [hpc]
    dsimp only
    rw [if_pos hi]

theorem Inv.leads (h : Inv n s) : Leads n s := by
  cases h with
  | join i head tail hpc hbuilt => exact hbuilt.leads hpc
  | test i head tail hpc hi hbuilt =>
    exact hbuilt.leads_test hi hpc fun _ _ _ hpc' hb => hb.leads hpc'
  | walk i head tmp r hpc hwalk => exact hwalk.leads hpc fun _ _ _ hpc' hb => hb.leads hpc'
  | print head tmp l r hpc hprint => exact hprint.leads hpc
  | free head l r hpc hfree => exact hfree.leads hpc
  | returned hpc hdone => exact ⟨[], s, nofun, rfl, hpc⟩

theorem concat_lists (hn : s.concat_and_print n = some t) : t.lists = s.lists := by
  have hlink : ∀ (tail p : Option A) (c : Pc A), (s.link tail p c).lists = s.lists := by
    intro tail p c
    unfold State.link
    split
    · rfl
    · split <;> rfl
  unfold State.concat_and_print at hn
  split at hn <;> cases hn <;> try rfl
  · unfold State.test
    split
    · rfl
    · split
      · rfl
      · exact hlink ..
  · unfold State.walk
    split <;> rfl
  · unfold State.print
    split
    · split <;> rfl
    · rfl
  · unfold State.free
    split
    · split <;> rfl
    · rfl

theorem concat_lists_exec {as : List (Act A)} (has : ∀ a ∈ as, a = .concat)
    (he : (joins n).exec s as = some t) : t.lists = s.lists :=
  LTS.along_inv (I := fun u => u.lists = s.lists) (C := fun _ a => a = Act.concat)
    (fun u a v hu ha hn => by
      subst ha
      exact (concat_lists hn).trans hu)
    rfl (LTS.along_of_mem has) he

/-- `concat_and_print` alone returns, with everything done. -/
def Ends (n : Nat) (s : State A) : Prop :=
  ∃ as t, (∀ a ∈ as, a = .concat) ∧ (joins n).exec s as = some t ∧ t.pc = .returned ∧
    t.lists = s.lists ∧ Done n t

theorem Inv.ends (h : Inv n s) : Ends n s := by
  obtain ⟨as, t, has, he, hpc⟩ := h.leads
  exact ⟨as, t, has, he, hpc, concat_lists_exec has he, (h.exec he).returned_done hpc⟩

/-- **The joined list**: in every run no access is undefined, what is printed is the lists
one after the other, with every node once, and from every state `concat_and_print` comes
to its end, with each node visited once and each node and line freed once. -/
theorem lists_joined (n : Nat) (hs : s.Start n) (as : List (Act A))
    (he : (joins n).exec s as = some t) :
    t.pc ≠ .undefined ∧
      (∀ head tmp, t.pc = .print head tmp →
        IsList t.mem head (joined n t.lists) ∧ (cells (joined n t.lists)).Nodup) ∧
      (t.pc = .returned → Done n t) ∧ Ends n t := by
  have ht := hs.inv.exec he
  exact ⟨ht.defined, fun _ _ hpc => ht.printed hpc, ht.returned_done, ht.ends⟩

def threeThreads : State Nat where
  pc := .join 0 none none
  mem
    | 0 => some (.node 1 (some 2))
    | 1 => some (.text [97])
    | 2 => some (.node 3 none)
    | 3 => some (.text [98])
    | 4 => some (.node 5 none)
    | 5 => some (.text [99])
    | _ => none
  head
    | 0 => some 0
    | 2 => some 4
    | _ => none
  out := []
  lists
    | 0 => [⟨0, 1, [97]⟩, ⟨2, 3, [98]⟩]
    | 2 => [⟨4, 5, [99]⟩]
    | _ => []
  visited := []
  freed := []

theorem threeThreads_start : threeThreads.Start 3 := by
  have hnodup : ∀ j < 3, (cells (threeThreads.lists j)).Nodup := by decide
  have hdisjoint : ∀ i < 3, ∀ j < 3, i ≠ j →
      (cells (threeThreads.lists i ++ threeThreads.lists j)).Nodup := by decide
  refine ⟨rfl, fun j hj => ?_, ⟨hnodup, fun i hi j hj hij => nodup_split (hdisjoint i hi j hj hij)⟩,
    rfl, rfl, rfl⟩
  match j, hj with
  | 0, _ => exact ⟨rfl, _, ⟨rfl, rfl⟩, rfl, _, ⟨rfl, rfl⟩, rfl⟩
  | 1, _ => rfl
  | 2, _ => exact ⟨rfl, _, ⟨rfl, rfl⟩, rfl⟩

/-- The third thread has pushed one more. -/
theorem three_lists_joined :
    ∃ t, (joins 3).exec threeThreads [.concat, .push 2 6 7 [100]] = some t ∧ Ends 3 t :=
  ⟨_, rfl, (lists_joined 3 threeThreads_start [.concat, .push 2 6 7 [100]] rfl).2.2.2⟩

end Ops.Split.Join
