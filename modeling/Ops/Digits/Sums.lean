import Ops.Digits.Process
import Ops.Posix.Connections

/-!
# Each client's own sum

A message is stored over the beginning of `buffer`, and `strlen` counts on to the first NUL behind
it. The sum is the client's own if and only if the bytes that it counts too many add nothing, and
so it is along a whole run (`own_sums_iff`).
-/

namespace Ops.Digits

open Posix

variable {κ : Type} [DecidableEq κ] {server_fd : Int} {s t : State κ} {act : Act κ}

/-! ## Sums -/

def digitSum (text : List Byte) : Int := (text.map digit).sum

def isDigit (b : Byte) : Bool := '0'.toNat ≤ b.toNat && b.toNat ≤ '9'.toNat

theorem wrap16_eq (v : Int) : wrap16 v = (v + 2 ^ 15) % 2 ^ 16 - 2 ^ 15 := by
  rw [wrap16, BitVec.toInt_ofInt, Int.bmod_def]
  omega

theorem sum_eq (text : List Byte) : sum text = wrap16 (digitSum text) := by
  have hfrom : ∀ (text : List Byte) (v : Int),
      text.foldl (fun sum b => wrap16 (sum + digit b)) (wrap16 v) = wrap16 (v + digitSum text) := by
    intro text
    induction text with
    | nil => simp [digitSum]
    | cons b text ih =>
      intro v
      have hwrap : wrap16 (wrap16 v + digit b) = wrap16 (v + digit b) := by
        simp only [wrap16_eq]
        omega
      rw [List.foldl_cons, hwrap, ih]
      simp only [digitSum, List.map_cons, List.sum_cons, Int.add_assoc]
  have hzero := hfrom text 0
  rwa [Int.zero_add] at hzero

theorem digitSum_append (text more : List Byte) :
    digitSum (text ++ more) = digitSum text + digitSum more := by
  simp [digitSum]

theorem digit_range {b : Byte} (h : isDigit b = true) : 0 ≤ digit b ∧ digit b ≤ 9 := by
  simp only [isDigit, Bool.and_eq_true, decide_eq_true_eq] at h
  have hzero : '0'.toNat = 48 := rfl
  have hnine : '9'.toNat = 57 := rfl
  have hvalue : b.toBitVec.toInt = b.toNat := by
    rw [BitVec.toInt_eq_toNat_of_lt]
    · rfl
    · show 2 * b.toNat < 2 ^ 8
      omega
  unfold digit
  omega

theorem digitSum_range {text : List Byte} (h : ∀ b ∈ text, isDigit b = true) :
    0 ≤ digitSum text ∧ digitSum text ≤ 9 * text.length := by
  induction text with
  | nil => simp [digitSum]
  | cons b text ih =>
    obtain ⟨hb, htext⟩ := List.forall_mem_cons.mp h
    have hdigit := digit_range hb
    have hrest := ih htext
    simp only [digitSum, List.map_cons, List.sum_cons, List.length_cons] at *
    omega

theorem no_nul {text : List Byte} (h : ∀ b ∈ text, isDigit b = true) : 0 ∉ text := fun h0 => by
  cases h 0 h0

/-- Behind the first `n` bytes there is a NUL, and the bytes in front of it add nothing. -/
def Clears (buffer : List Byte) (n : Nat) : Prop :=
  ∃ tail, cstr (buffer.drop n) = some tail ∧ wrap16 (digitSum tail) = 0

/-- The sum of a message of digits in front of what the buffer still holds. -/
theorem own_sum_iff {msg : List Byte} (buffer : List Byte) (hmsg : ∀ b ∈ msg, isDigit b = true)
    (hlen : msg.length < bufferSize) :
    (∃ text, cstr (blit buffer 0 msg) = some text ∧ sum text = digitSum msg) ↔
      Clears buffer msg.length := by
  have hrange := digitSum_range hmsg
  have hsize : bufferSize = 1024 := rfl
  have hown : ∀ tail, sum (msg ++ tail) = digitSum msg ↔ wrap16 (digitSum tail) = 0 := by
    intro tail
    rw [sum_eq, digitSum_append, wrap16_eq, wrap16_eq]
    omega
  rw [blit_zero, cstr_append (no_nul hmsg)]
  constructor
  · rintro ⟨text, htext, hsum⟩
    obtain ⟨tail, htail, rfl⟩ := Option.map_eq_some_iff.mp htext
    exact ⟨tail, htail, (hown tail).mp hsum⟩
  · rintro ⟨tail, htail, hzero⟩
    exact ⟨msg ++ tail, by rw [htail]; rfl, (hown tail).mpr hzero⟩

/-! ## The maximum -/

/-- The greatest of the sums, and 0 if there is none. -/
def IsMax (m : Int) (sums : List Int) : Prop :=
  (∀ v ∈ sums, v ≤ m) ∧ (sums = [] ∧ m = 0 ∨ m ∈ sums)

theorem foldl_max (sums : List Int) (m : Int) :
    m ≤ sums.foldl max m ∧ (∀ v ∈ sums, v ≤ sums.foldl max m) ∧
      (sums.foldl max m = m ∨ sums.foldl max m ∈ sums) := by
  induction sums generalizing m with
  | nil => simp
  | cons v sums ih =>
    obtain ⟨hm, hall, hmem⟩ := ih (max m v)
    rw [List.foldl_cons]
    refine ⟨by omega, ?_, ?_⟩
    · intro w hw
      rcases List.mem_cons.mp hw with rfl | hw
      · omega
      · exact hall w hw
    · rcases hmem with heq | hmem
      · rcases Int.le_total m v with hle | hle
        · right
          rw [heq, Int.max_eq_right hle]
          exact List.mem_cons_self
        · left
          rw [heq, Int.max_eq_left hle]
      · exact .inr (List.mem_cons_of_mem _ hmem)

theorem isMax_foldl {sums : List Int} (h : ∀ v ∈ sums, 0 ≤ v) : IsMax (sums.foldl max 0) sums := by
  obtain ⟨-, hall, hmem⟩ := foldl_max sums 0
  refine ⟨hall, ?_⟩
  rcases hmem with hzero | hmem
  · cases sums with
    | nil => exact .inl ⟨rfl, rfl⟩
    | cons v sums =>
      have hv := hall v List.mem_cons_self
      have hpos := h v List.mem_cons_self
      have heq : v = List.foldl max 0 (v :: sums) := by omega
      right
      rw [← heq]
      exact List.mem_cons_self
  · exact .inr hmem

/-! ## What should hold -/

/-- The clients send at most 1023 digits and close. -/
def InDomain (s : State κ) : Act κ → Prop
  | .peer (.send c bytes) =>
    (∀ b ∈ bytes, isDigit b = true) ∧ ((s.net.conn c).sent ++ bytes).length < bufferSize
  | .peer (.reset _) | .peer (.abort _ _) => False
  | _ => True

instance : ∀ act, Decidable (InDomain s act)
  | .peer (.send _ _) => inferInstanceAs (Decidable (_ ∧ _))
  | .peer (.reset _) | .peer (.abort _ _) => .isFalse id
  | .peer (.connect _ _) | .peer (.close _) | .wait _ | .sigint | .accept _ | .read _ =>
    .isTrue trivial

/-- The connection that the next event is of. -/
def State.client (s : State κ) : List κ :=
  match s.pc with
  | .events (fd :: _) => (s.net.fds fd).toList
  | _ => []

/-- What a message leaves of `buffer` adds nothing. -/
def Clean (s : State κ) : Act κ → Prop
  | .read _ => ∀ c ∈ s.client, Clears s.buffer (s.net.conn c).inbox.length
  | _ => True

structure Scored (s : State κ) : Prop where
  defined : s.pc ≠ .ended .undefined
  own : ∀ e ∈ s.printed, e.2 = digitSum (s.net.conn e.1).sent

/-- Each connection is scored on its own message, and `max_sum` is the greatest of the sums. -/
structure OwnSums (s : State κ) : Prop where
  scored : Scored s
  max : IsMax s.max_sum (s.printed.map (·.2))

/-! ## Steps -/

/-- A connection whose sum is printed sends no more, and one that was read is not read again. -/
structure Inv (s : State κ) : Prop where
  net : s.net.Ok
  digits : ∀ c, (∀ b ∈ (s.net.conn c).sent, isDigit b = true) ∧
    (s.net.conn c).sent.length < bufferSize
  reset : ∀ c, (s.net.conn c).reset = false
  whole : ∀ e ∈ s.printed,
    (s.net.conn e.1).eof = true ∨ (s.net.conn e.1).sent.length + 1 = bufferSize
  once : ∀ evs, s.pc = .events evs → ∀ c, (s.net.conn c).got ≠ [] →
    s.net.Taken c ∧ ∀ fd, s.net.fds fd ≠ some c
  greatest : s.max_sum = (s.printed.map (·.2)).foldl max 0

theorem peer_sent {p : Peer κ} {net : Net κ} (h : Inv s) (hdom : InDomain s (.peer p))
    (hp : s.net.peer p = some net) (c : κ) :
    (net.conn c).reset = false ∧ ∃ bytes,
      (net.conn c).sent = (s.net.conn c).sent ++ bytes ∧ (∀ b ∈ bytes, isDigit b = true) ∧
        ((s.net.conn c).sent ++ bytes).length < bufferSize ∧
        ((s.net.conn c).eof = true → bytes = []) := by
  have hsame : ∀ {k : Conn}, k.reset = false → k.sent = (s.net.conn c).sent →
      k.reset = false ∧ ∃ bytes, k.sent = (s.net.conn c).sent ++ bytes ∧
        (∀ b ∈ bytes, isDigit b = true) ∧ ((s.net.conn c).sent ++ bytes).length < bufferSize ∧
        ((s.net.conn c).eof = true → bytes = []) := fun hreset hsent =>
    ⟨hreset, [], by rw [hsent, List.append_nil], by simp,
      by rw [List.append_nil]; exact (h.digits c).2, fun _ => rfl⟩
  have hold := hsame (h.reset c) rfl
  unfold Net.peer at hp
  cases p with
  | connect l d =>
    simp only at hp
    split at hp
    · cases hp
    · cases hp
      by_cases hc : c = d
      · subst hc
        simp only [Net.setConn_self]
        exact hsame (h.reset c) rfl
      · simp only [Net.setConn_of_ne _ hc]
        exact hold
  | send d bytes =>
    simp only at hp
    split at hp
    · rename_i hconnected
      cases hp
      by_cases hc : c = d
      · subst hc
        rw [Net.setConn_self]
        refine ⟨h.reset c, bytes, (List.append_assoc ..).symm, hdom.1, hdom.2, fun heof => ?_⟩
        unfold Conn.connected at hconnected
        rw [heof] at hconnected
        simp at hconnected
      · rw [Net.setConn_of_ne _ hc]
        exact hold
    · cases hp
  | close d =>
    simp only at hp
    split at hp
    · cases hp
      by_cases hc : c = d
      · subst hc
        rw [Net.setConn_self]
        exact hsame (h.reset c) rfl
      · rw [Net.setConn_of_ne _ hc]
        exact hold
    · cases hp
  | reset d | abort l d => exact hdom.elim

namespace Inv

theorem peer {p : Peer κ} {net : Net κ} (h : Inv s) (hdom : InDomain s (.peer p))
    (hp : s.net.peer p = some net) :
    Inv { s with net := net } ∧ ∀ e ∈ s.printed, (net.conn e.1).sent = (s.net.conn e.1).sent := by
  have hgrows := Net.peer_grows hp
  have hsent : ∀ e ∈ s.printed, (net.conn e.1).sent = (s.net.conn e.1).sent := by
    intro e he
    obtain ⟨-, bytes, hadd, -, hlen, heof⟩ := peer_sent h hdom hp e.1
    have hnil : bytes = [] := by
      rcases h.whole e he with hend | hfull
      · exact heof hend
      · rw [List.length_append] at hlen
        exact List.eq_nil_of_length_eq_zero (by omega)
    rw [hadd, hnil, List.append_nil]
  refine ⟨⟨h.net.peer hp, fun c => ?_, fun c => (peer_sent h hdom hp c).1, fun e he => ?_,
    fun evs hpc c hc => ?_, h.greatest⟩, hsent⟩
  · obtain ⟨-, bytes, hadd, hbytes, hlen, -⟩ := peer_sent h hdom hp c
    simp only [hadd]
    refine ⟨fun b hb => ?_, hlen⟩
    rcases List.mem_append.mp hb with hb | hb
    · exact (h.digits c).1 b hb
    · exact hbytes b hb
  · rcases h.whole e he with hend | hfull
    · exact .inl (hgrows.eof e.1 hend)
    · exact .inr ((congrArg (List.length · + 1) (hsent e he)).trans hfull)
  · simp only [hgrows.got] at hc
    obtain ⟨htaken, hfree⟩ := h.once evs hpc c hc
    refine ⟨htaken.peer hp, fun fd => ?_⟩
    simp only [hgrows.fds]
    exact hfree fd

omit [DecidableEq κ] in
theorem goto {pc : Pc} (h : Inv s) (hpc : ∀ evs, pc = .events evs → ∃ evs, s.pc = .events evs) :
    Inv (s.goto pc) :=
  ⟨h.net, h.digits, h.reset, h.whole, fun evs hevs =>
    let ⟨evs', hs⟩ := hpc evs hevs
    h.once evs' hs, h.greatest⟩

omit [DecidableEq κ] in
theorem accept {evs : List Int} {o : AcceptOutcome} (h : Inv s)
    (hpc : s.pc = .events (server_fd :: evs)) (hn : s.accept server_fd evs o = some t) :
    Inv t ∧ (Scored t ↔ Scored s) := by
  have hdefined : s.pc ≠ .ended .undefined := by
    rw [hpc]
    simp
  unfold State.accept at hn
  split at hn
  · cases hn
  obtain ⟨⟨r, net⟩, hr, rfl⟩ := Option.map_eq_some_iff.mp hn
  have hok := (Net.addNewClient_accepts hr).ok h.net
  cases Net.addNewClient_accepts hr with
  | @conn fd c rest hback =>
    have hsub : rest ⊆ s.net.backlog server_fd := by
      rw [hback]
      exact List.subset_cons_self c rest
    simp only
    split_ifs
    · exact ⟨⟨hok, h.digits, h.reset, h.whole, by rintro _ ⟨⟩, h.greatest⟩,
        ⟨fun ht => ⟨hdefined, ht.own⟩, fun hs => ⟨by simp [State.goto], hs.own⟩⟩⟩
    · refine ⟨⟨hok, h.digits, h.reset, h.whole, fun _ _ d hd => ?_, h.greatest⟩,
        ⟨fun ht => ⟨hdefined, ht.own⟩, fun hs => ⟨by simp [State.goto], hs.own⟩⟩⟩
      obtain ⟨htaken, hfree⟩ := h.once _ hpc d hd
      have hfewer := htaken.fewer hsub
      refine ⟨⟨hfewer.opened, hfewer.gone⟩, fun fd' => ?_⟩
      by_cases hfd : fd' = fd
      · subst hfd
        intro heq
        have hdc : c = d := by
          simpa only [Function.update_self, State.goto, Option.some.injEq] using heq
        exact htaken.gone server_fd (by rw [hback, hdc]; exact List.mem_cons_self)
      · simp only [State.goto, Function.update_of_ne hfd]
        exact hfree fd'
  | eagain =>
    exact ⟨⟨hok, h.digits, h.reset, h.whole, by rintro _ ⟨⟩, h.greatest⟩,
      ⟨fun ht => ⟨hdefined, ht.own⟩, fun hs => ⟨by simp [State.goto], hs.own⟩⟩⟩
  | error hback hreset => cases (h.reset _).symm.trans hreset

theorem read_cases {fd : Int} {evs : List Int} {rs : List ReadOutcome} (h : Inv s)
    (hpc : s.pc = .events (fd :: evs)) (hn : s.read fd evs rs = some t) :
    s.net.fds fd = none ∧ t = s.goto (.ended .exited) ∨
      ∃ c, s.net.fds fd = some c ∧
        ((s.net.conn c).eof = true ∨ (s.net.conn c).sent.length + 1 = bufferSize) ∧
        (s.net.conn c).inbox = (s.net.conn c).sent ∧
        t = State.score { s with
          net := s.net.took c []
          buffer := blit s.buffer 0 (s.net.conn c).inbox } fd evs := by
  unfold State.read at hn
  obtain ⟨⟨r, buf, net⟩, hr, rfl⟩ := Option.map_eq_some_iff.mp hn
  cases hfd : s.net.fds fd with
  | none =>
    unfold Net.bulkRead at hr
    rw [hfd] at hr
    cases hr
    exact .inl ⟨rfl, rfl⟩
  | some c =>
    obtain ⟨hreads, rest, hread, rfl⟩ := Net.bulkRead_conn hfd hr
    have hgot : (s.net.conn c).got = [] := by
      by_contra hgot
      exact (h.once _ hpc c hgot).2 fd hfd
    have hsent : (s.net.conn c).inbox = (s.net.conn c).sent := by
      unfold Conn.sent
      rw [hgot, List.nil_append]
    have hlen : (s.net.conn c).inbox.length < bufferSize := by
      rw [hsent]
      exact (h.digits c).2
    cases r with
    | error e =>
      have hreset := Net.reads_error hreads (bulkRead_error hread)
      cases (h.reset c).symm.trans hreset
    | ok n =>
      obtain ⟨-, hbuf, hrest, heof⟩ := bulkRead_ok (Nat.zero_le _) hread
      have hall : (s.net.conn c).inbox.length ≤ bufferSize - 1 := Nat.le_pred_of_lt hlen
      refine .inr ⟨c, rfl, ?_, hsent, ?_⟩
      · rcases Nat.lt_or_eq_of_le hall with hlt | heq
        · exact .inl (heof hlt)
        · exact .inr (by rw [← hsent, heq]; rfl)
      · rw [hbuf, hrest]
        simp only [Conn.stream, List.take_of_length_le hall, List.drop_of_length_le hall]

theorem scored {fd : Int} {evs : List Int} {c : κ} {text : List Byte} (h : Inv s)
    (hpc : s.pc = .events (fd :: evs)) (hc : s.net.fds fd = some c)
    (hend : (s.net.conn c).eof = true ∨ (s.net.conn c).sent.length + 1 = bufferSize)
    (hu : t = { s with
      net := s.net.took c []
      buffer := blit s.buffer 0 (s.net.conn c).inbox })
    (htext : cstr t.buffer = some text) :
    Inv (t.score fd evs) ∧
      (Scored (t.score fd evs) ↔ Scored s ∧ sum text = digitSum (s.net.conn c).sent) := by
  have hsent : ∀ d, (t.net.conn d).sent = (s.net.conn d).sent := by
    rw [hu]
    exact Net.took_sent (List.nil_suffix)
  have heof : ∀ d, (t.net.conn d).eof = (s.net.conn d).eof ∧
      (t.net.conn d).reset = (s.net.conn d).reset := by
    rw [hu]
    exact Net.took_eof s.net c []
  have hfds : t.net.fds = s.net.fds := by
    rw [hu]
    rfl
  have hprinted : t.printed = s.printed := by rw [hu]
  have hok : t.net.Ok := by
    rw [hu]
    exact h.net.took c []
  have hmax : (if sum text > t.max_sum then sum text else t.max_sum) =
      ((t.printed ++ [(c, sum text)]).map (·.2)).foldl max 0 := by
    have hold : t.max_sum = (t.printed.map (·.2)).foldl max 0 := by
      rw [hu]
      exact h.greatest
    rw [List.map_append, List.foldl_append, ← hold]
    simp only [List.map_cons, List.map_nil, List.foldl_cons, List.foldl_nil]
    split
    · omega
    · omega
  have hwhole : ∀ e ∈ t.printed ++ [(c, sum text)],
      (t.net.conn e.1).eof = true ∨ (t.net.conn e.1).sent.length + 1 = bufferSize := by
    intro e he
    rw [hsent, (heof e.1).1]
    rcases List.mem_append.mp he with he | he
    · exact h.whole e (by rwa [hprinted] at he)
    · rw [List.mem_singleton.mp he]
      exact hend
  have hdigits : ∀ d, (∀ b ∈ (t.net.conn d).sent, isDigit b = true) ∧
      (t.net.conn d).sent.length < bufferSize := fun d => by
    rw [hsent]
    exact h.digits d
  have hreset : ∀ d, (t.net.conn d).reset = false := fun d => (heof d).2.trans (h.reset d)
  have hscored : ∀ {u : State κ}, u.pc ≠ .ended .undefined → u.net.conn = t.net.conn →
      u.printed = t.printed ++ [(c, sum text)] →
        (Scored u ↔ Scored s ∧ sum text = digitSum (s.net.conn c).sent) := by
    intro u hpcu hconn hprint
    have hown : (∀ e ∈ u.printed, e.2 = digitSum (u.net.conn e.1).sent) ↔
        (∀ e ∈ s.printed, e.2 = digitSum (s.net.conn e.1).sent) ∧
          sum text = digitSum (s.net.conn c).sent := by
      rw [hprint, hconn, hprinted]
      simp only [hsent, List.forall_mem_append, List.forall_mem_singleton]
    constructor
    · exact fun hall => ⟨⟨by rw [hpc]; simp, (hown.mp hall.own).1⟩, (hown.mp hall.own).2⟩
    · exact fun hall => ⟨hpcu, hown.mpr ⟨hall.1.own, hall.2⟩⟩
  unfold State.score
  simp only [htext, hfds, hc, Option.toList_some, List.map_cons, List.map_nil]
  split
  · refine ⟨⟨hok.close fd, hdigits, hreset, hwhole, fun _ _ d hd => ?_, hmax⟩,
      hscored (by simp [State.goto]) rfl rfl⟩
    show (t.net.close fd).Taken d ∧ ∀ fd', Function.update t.net.fds fd none fd' ≠ some d
    by_cases hdc : d = c
    · subst hdc
      have hheld := hok.held fd d (by rw [hfds, hc])
      refine ⟨⟨hheld.1, fun l hl => (hok.queued l d hl).2 fd (by rw [hfds, hc])⟩, fun fd' hfd' => ?_⟩
      by_cases heq : fd' = fd
      · subst heq
        rw [Function.update_self] at hfd'
        cases hfd'
      · rw [Function.update_of_ne heq] at hfd'
        exact heq (hok.inj fd' fd d hfd' (by rw [hfds, hc]))
    · have hgot : (s.net.conn d).got ≠ [] := by
        have hconn : t.net.conn d = s.net.conn d := by
          rw [hu]
          exact Net.setConn_of_ne _ hdc _
        rwa [← hconn]
      obtain ⟨htaken, hfree⟩ := h.once _ hpc d hgot
      have htaken' : t.net.Taken d := by
        rw [hu]
        exact htaken.setConn rfl
      refine ⟨⟨htaken'.opened, htaken'.gone⟩, fun fd' hfd' => ?_⟩
      by_cases heq : fd' = fd
      · subst heq
        rw [Function.update_self] at hfd'
        cases hfd'
      · rw [Function.update_of_ne heq, hfds] at hfd'
        exact hfree fd' hfd'
  · exact ⟨⟨hok, hdigits, hreset, hwhole, by rintro _ ⟨⟩, hmax⟩,
      hscored (by simp [State.goto]) rfl rfl⟩

theorem read {fd : Int} {evs : List Int} {rs : List ReadOutcome} (h : Inv s)
    (hpc : s.pc = .events (fd :: evs)) (hn : s.read fd evs rs = some t) :
    Inv t ∧ (Scored t ↔ Scored s ∧ Clean s (.read rs)) := by
  have hclean : Clean s (.read rs) ↔
      ∀ c, s.net.fds fd = some c → Clears s.buffer (s.net.conn c).inbox.length := by
    simp [Clean, State.client, hpc]
  have hdefined : s.pc ≠ .ended .undefined := by
    rw [hpc]
    simp
  rw [hclean]
  rcases h.read_cases hpc hn with ⟨hnone, rfl⟩ | ⟨c, hc, hend, hsent, rfl⟩
  · refine ⟨h.goto (by rintro _ ⟨⟩), fun ht => ⟨⟨hdefined, ht.own⟩, fun c hc => ?_⟩,
      fun hs => ⟨by simp [State.goto], hs.1.own⟩⟩
    cases hnone.symm.trans hc
  · obtain ⟨u, hu⟩ : ∃ u, u = { s with
      net := s.net.took c []
      buffer := blit s.buffer 0 (s.net.conn c).inbox } := ⟨_, rfl⟩
    have hbuf : u.buffer = blit s.buffer 0 (s.net.conn c).sent := by rw [hu, hsent]
    have hown := own_sum_iff s.buffer (h.digits c).1 (h.digits c).2
    have hcond : (∀ d, s.net.fds fd = some d → Clears s.buffer (s.net.conn d).inbox.length) ↔
        Clears s.buffer (s.net.conn c).sent.length := by
      rw [hc, ← hsent]
      simp
    rw [← hu, hcond, ← hown, ← hbuf]
    cases htext : cstr u.buffer with
    | none =>
      have hscore : u.score fd evs = u.goto (.ended .undefined) := by
        unfold State.score
        rw [htext]
      rw [hscore]
      refine ⟨?_, fun ht => absurd rfl ht.defined, fun ⟨_, text, htext', _⟩ => ?_⟩
      · rw [hu]
        refine ⟨h.net.took c [], fun d => ?_, fun d => ?_, fun e he => ?_, by rintro _ ⟨⟩, h.greatest⟩
        · simp only [State.goto, Net.took_sent List.nil_suffix]
          exact h.digits d
        · exact (Net.took_eof s.net c [] d).2.trans (h.reset d)
        · simp only [State.goto, Net.took_sent List.nil_suffix, (Net.took_eof s.net c [] e.1).1]
          exact h.whole e he
      · cases htext'
    | some text =>
      obtain ⟨hinv, hiff⟩ := h.scored hpc hc hend hu htext
      refine ⟨hinv, hiff.trans (and_congr_right fun _ => ?_)⟩
      simp

theorem step (h : Inv s) (hdom : InDomain s act) (hn : s.next server_fd act = some t) :
    Inv t ∧ (Scored t ↔ Scored s ∧ Clean s act) := by
  unfold State.next at hn
  split at hn
  · rename_i p
    obtain ⟨net, hnet, rfl⟩ := Option.map_eq_some_iff.mp hn
    obtain ⟨hinv, hsent⟩ := h.peer hdom hnet
    have hown : (∀ e ∈ s.printed, e.2 = digitSum (net.conn e.1).sent) ↔
        ∀ e ∈ s.printed, e.2 = digitSum (s.net.conn e.1).sent :=
      forall₂_congr fun e he => by rw [hsent e he]
    exact ⟨hinv, fun ht => ⟨⟨ht.defined, hown.mp ht.own⟩, trivial⟩,
      fun hs => ⟨hs.1.defined, hown.mpr hs.1.own⟩⟩
  · rename_i evs hpc
    split at hn
    · cases hn
      exact ⟨h.goto fun _ _ => ⟨_, hpc⟩, fun ht => ⟨⟨by rw [hpc]; simp, ht.own⟩, trivial⟩,
        fun hs => ⟨by simp [State.goto], hs.1.own⟩⟩
    · cases hn
  · rename_i evs hpc
    cases hn
    exact ⟨h.goto (by rintro _ ⟨⟩), fun ht => ⟨⟨by rw [hpc]; simp, ht.own⟩, trivial⟩,
      fun hs => ⟨by simp [State.goto], hs.1.own⟩⟩
  · rename_i o fd evs hpc
    split at hn
    · rename_i hfd
      rw [hfd] at hpc
      obtain ⟨hinv, hiff⟩ := h.accept hpc hn
      exact ⟨hinv, hiff.trans (and_true _).to_iff.symm⟩
    · cases hn
  · rename_i rs fd evs hpc
    split at hn
    · cases hn
    · exact h.read hpc hn
  · cases hn

omit [DecidableEq κ] in
theorem init (h : Start server_fd s) : Inv s := by
  refine ⟨h.net.ok, fun c => ?_, fun c => ?_, fun e he => ?_, fun _ _ c hc => ?_, ?_⟩
  · rw [h.net.conn c]
    simp [Conn.sent, Conn.unused, bufferSize]
  · rw [h.net.conn c]
    rfl
  · rw [h.printed] at he
    cases he
  · rw [h.net.conn c] at hc
    cases hc rfl
  · rw [h.max_sum, h.printed]
    rfl

omit [DecidableEq κ] in
/-- The sums of messages of digits are not negative, so that `max_sum` is one of them. -/
theorem ownSums (h : Inv s) : OwnSums s ↔ Scored s := by
  refine ⟨OwnSums.scored, fun hs => ⟨hs, ?_⟩⟩
  rw [h.greatest]
  refine isMax_foldl fun v hv => ?_
  obtain ⟨e, he, rfl⟩ := List.mem_map.mp hv
  rw [hs.own e he]
  exact (digitSum_range (h.digits e.1).1).1

end Inv

/-- **Own sums**: along a run each connection is scored on its own message, and `max_sum` is the
greatest of the sums, if and only if what each message leaves of `buffer` adds nothing. -/
theorem own_sums_iff {start s : State κ} {acts : List (Act κ)} (hstart : Start server_fd start)
    (hdom : (server κ server_fd).Along InDomain start acts)
    (h : (server κ server_fd).exec start acts = some s) :
    OwnSums s ↔ (server κ server_fd).Along Clean start acts := by
  have hown : OwnSums start := by
    refine (Inv.init hstart).ownSums.mpr ⟨by rw [hstart.pc]; simp, fun e he => ?_⟩
    rw [hstart.printed] at he
    cases he
  have hkeep : ∀ s act t, Inv s → InDomain s act → (server κ server_fd).next s act = some t →
      Inv t := fun s act t hs hd hn => (hs.step hd hn).1
  have hstep : ∀ s act t, Inv s → InDomain s act → (server κ server_fd).next s act = some t →
      (OwnSums t ↔ OwnSums s ∧ Clean s act) := fun s act t hs hd hn => by
    obtain ⟨ht, hiff⟩ := hs.step hd hn
    rw [ht.ownSums, hs.ownSums, hiff]
  rw [LTS.along_iff_within hkeep hstep (Inv.init hstart) hdom h]
  exact and_iff_right hown

/-! ## Two runs -/

/-- `server_fd` is 3. -/
def State.idle (κ : Type) : State κ where
  pc := .events []
  buffer := List.replicate bufferSize 0
  max_sum := 0
  epoll := [3]
  net := Net.idle κ
  printed := []

omit [DecidableEq κ] in
theorem idle_start : Start 3 (State.idle κ) :=
  ⟨rfl, List.length_replicate, rfl, rfl, Net.idle_start, rfl, rfl⟩

/-- Two clients send `first` and `second`, one after the other, and are scored on descriptor 5. -/
def twoClients (first second : List Byte) : List (Act Bool) :=
  [.peer (.connect 3 true), .peer (.send true first), .peer (.close true), .wait [3],
    .accept (.conn 5), .wait [5], .read [.data first.length, .data 0], .peer (.connect 3 false),
    .peer (.send false second), .peer (.close false), .wait [3], .accept (.conn 5), .wait [5],
    .read [.data second.length, .data 0]]

/-- 7 and 42. -/
theorem own_sums_two : ∃ s,
    (server Bool 3).exec (.idle Bool) (twoClients [55] [52, 50]) = some s ∧
      s.printed = [(true, 7), (false, 6)] ∧
      (OwnSums s ↔ (server Bool 3).Along Clean (.idle Bool) (twoClients [55] [52, 50])) := by
  have hrun : ((server Bool 3).execIf InDomain (.idle Bool) (twoClients [55] [52, 50])).map
      (·.printed) = some [(true, 7), (false, 6)] := by decide +kernel
  obtain ⟨s, hs, hprinted⟩ := Option.map_eq_some_iff.mp hrun
  obtain ⟨hexec, hdom⟩ := LTS.along_of_execIf hs
  exact ⟨s, hexec, hprinted, own_sums_iff idle_start hdom hexec⟩

/-- **A shorter message after a longer one**: 42 and then 7, which is scored as 72. -/
theorem shorter_after_longer : ∃ s,
    (server Bool 3).exec (.idle Bool) (twoClients [52, 50] [55]) = some s ∧
      (server Bool 3).Along InDomain (.idle Bool) (twoClients [52, 50] [55]) ∧
      s.printed = [(true, 6), (false, 9)] ∧ ¬ OwnSums s := by
  have hrun : ((server Bool 3).execIf InDomain (.idle Bool) (twoClients [52, 50] [55])).map
      (fun s => (s.printed, (s.net.conn false).sent)) = some ([(true, 6), (false, 9)], [55]) := by
    decide +kernel
  obtain ⟨s, hs, heq⟩ := Option.map_eq_some_iff.mp hrun
  obtain ⟨hexec, hdom⟩ := LTS.along_of_execIf hs
  simp only [Prod.mk.injEq] at heq
  refine ⟨s, hexec, hdom, heq.1, fun h => ?_⟩
  have hown := h.scored.own (false, 9) (by rw [heq.1]; simp)
  rw [heq.2] at hown
  exact absurd hown (by decide)

end Ops.Digits
