import Ops.Chat.Server

/-!
# What a step of the chat does

`Moves` lists the steps of the clients and of the server, each with what the
code has tested before it; `next_moves` is the one place where the step function
is opened.
-/

namespace Ops.Chat

open Ops.Posix

variable {κ : Type} [DecidableEq κ]

/-- The connection that the calls of a step of the server are on. -/
def State.peer (s : State κ) : Act κ → Option κ
  | .authorize .. =>
    match s.pc with
    | .greet fd _ => s.fds fd
    | _ => none
  | .read .. =>
    match s.pc with
    | .events ((fd, _) :: _) => s.fds fd
    | _ => none
  | .echo _ =>
    match s.pc with
    | .echo fd _ _ => s.fds fd
    | _ => none
  | .forward _ =>
    match s.pc with
    | .forward fd _ (i :: _) _ => if (s.clients i).fd = some fd then none else (s.clients i).fd.bind s.fds
    | _ => none
  | _ => none

theorem Conn.writes_of_room {k : Conn} {n : Nat} (h : buffSize ≤ k.room) :
    k.writes [.wrote n] = true := by
  simp [Conn.writes, h]

theorem Conn.reads_error {k : Conn} {rs : List ReadOutcome} (h : k.reads rs = true) {e : Errno}
    (he : .error e ∈ rs) : e = .eagain ∨ k.reset = true := by
  have := List.all_eq_true.mp h _ he
  simpa using this

theorem Conn.writes_error {k : Conn} {ws : List WriteOutcome} (h : k.writes ws = true) {e : Errno}
    (he : .error e ∈ ws) : k.reset = true := by
  exact List.all_eq_true.mp (Bool.and_eq_true_iff.mp h).2 _ he

inductive Moves (a : Args) (s : State κ) : Act κ → State κ → Prop where
  | connect {c : κ} : (s.conn c).opened = false → Moves a s (.connect c)
      { s.setConn c { s.conn c with opened := true, room := a.sndbuf } with
        backlog := s.backlog ++ [c] }
  | client {act : Act κ} {c : κ} {k : Conn} {bytes : List Byte} : (s.conn c).opened = true →
      k.opened = true → k.out = (s.conn c).out → k.sent = (s.conn c).sent ++ bytes →
      k.inbox = (s.conn c).inbox ++ bytes → ((s.conn c).eof = true → k.eof = true ∧ bytes = []) →
      (s.conn c).room ≤ k.room →
      Moves a s act (s.setConn c k)
  | pwait {evs : List Event} : s.pc = .events [] → (evs.map Prod.fst).Nodup →
      (∀ e ∈ evs, e.1 ∈ s.epoll ∧ (e.2 = true → s.ready a e.1 = true)) →
      Moves a s (.pwait evs) { s with pc := .events evs }
  | interrupt {sigint : Bool} : Moves a s (.interrupt sigint) (s.interrupt sigint)
  | skip {e : Event} {evs : List Event} : s.pc = .events (e :: evs) →
      Moves a s .skip { s with pc := .events evs }
  | accept {evs : List Event} {fd : Nat} {c : κ} {backlog : List κ} :
      s.pc = .events ((a.serverFd, true) :: evs) → s.backlog = c :: backlog → s.fds fd = none →
      fd ≠ a.serverFd →
      Moves a s (.accept fd)
        { s with pc := .greet fd evs, fds := Function.update s.fds fd (some c), backlog := backlog }
  | turnAway {fd : Nat} {evs : List Event} {stack rest : List Byte} {rs : List ReadOutcome}
      {c : κ} : s.pc = .greet fd evs → s.fds fd = some c →
      Moves a s (.authorize stack rs) { s.took c rest with pc := .refused fd evs }
  | join {fd n : Nat} {evs : List Event} {stack buf rest : List Byte} {rs : List ReadOutcome}
      {c : κ} {clients : Clients} : s.pc = .greet fd evs → s.fds fd = some c →
      stack.length = buffSize →
      bulkRead rs (s.conn c).stream stack 0 0 buffSize = some ⟨.ok n, buf, rest⟩ →
      addAuthorizedUser a.key s.clients fd buf = some clients →
      Moves a s (.authorize stack rs)
        { s.took c rest with
          pc := .echo fd buf evs, clients := clients, hist := .join c buf :: s.hist }
  | refuse {fd : Nat} {evs : List Event} : s.pc = .refused fd evs →
      Moves a s .refuse { s with pc := .events evs, fds := Function.update s.fds fd none }
  | echo {fd : Nat} {buf : List Byte} {evs : List Event} {ws : List WriteOutcome} {c : κ} :
      s.pc = .echo fd buf evs → s.fds fd = some c → fd ∉ s.epoll →
      Moves a s (.echo ws)
        { s.wrote c (buf.take buffSize) with pc := .events evs, epoll := fd :: s.epoll }
  | say {fd n : Nat} {evs : List Event} {stack buf rest : List Byte} {rs : List ReadOutcome}
      {c : κ} : s.pc = .events ((fd, true) :: evs) → fd ≠ a.serverFd → s.fds fd = some c →
      stack.length = buffSize → 0 < n →
      bulkRead rs (s.conn c).stream stack 0 0 buffSize = some ⟨.ok n, buf, rest⟩ →
      Moves a s (.read stack rs)
        { s.took c rest with
          pc := .forward fd buf (List.finRange maxClientCount) evs, hist := .say c buf :: s.hist }
  | leave {fd : Nat} {evs : List Event} {stack rest : List Byte} {rs : List ReadOutcome} {c : κ}
      {i : Fin maxClientCount} : s.pc = .events ((fd, true) :: evs) → fd ≠ a.serverFd →
      s.fds fd = some c → s.slot fd = some i →
      Moves a s (.read stack rs)
        { s.took c rest with
          pc := .events evs, epoll := s.epoll.erase fd,
          clients := Function.update s.clients i { s.clients i with fd := none },
          fds := Function.update s.fds fd none, hist := .leave c :: s.hist }
  | again {fd : Nat} {evs : List Event} {stack rest : List Byte} {rs : List ReadOutcome} {c : κ} :
      s.pc = .events ((fd, true) :: evs) → .error .eagain ∈ rs →
      Moves a s (.read stack rs) { s.took c rest with pc := .events evs }
  | pass {fd : Nat} {buf : List Byte} {i : Fin maxClientCount} {todo : List (Fin maxClientCount)}
      {evs : List Event} {ws : List WriteOutcome} : s.pc = .forward fd buf (i :: todo) evs →
      (∀ t, (s.clients i).fd = some t → t = fd) →
      Moves a s (.forward ws) { s with pc := .forward fd buf todo evs }
  | deliver {fd t : Nat} {buf : List Byte} {i : Fin maxClientCount}
      {todo : List (Fin maxClientCount)} {evs : List Event} {ws : List WriteOutcome} {c : κ} :
      s.pc = .forward fd buf (i :: todo) evs → (s.clients i).fd = some t → t ≠ fd →
      s.fds t = some c →
      Moves a s (.forward ws)
        { s.wrote c (buf.take buffSize) with pc := .forward fd buf todo evs }
  | forwarded {fd : Nat} {buf : List Byte} {evs : List Event} {ws : List WriteOutcome} :
      s.pc = .forward fd buf [] evs → Moves a s (.forward ws) { s with pc := .events evs }
  /-- A descriptor that is not open, or not where the table or `epoll` has it. -/
  | broken {act : Act κ} {t : State κ} :
      (∃ fd evs, s.pc = .greet fd evs ∧ s.fds fd = none) ∨
      (∃ fd buf evs, s.pc = .echo fd buf evs ∧ (s.fds fd = none ∨ fd ∈ s.epoll)) ∨
      (∃ fd evs, s.pc = .events ((fd, true) :: evs) ∧ fd ≠ a.serverFd ∧
        (s.fds fd = none ∨ fd ∉ s.epoll ∨ s.slot fd = none)) ∨
      (∃ fd buf i todo evs t, s.pc = .forward fd buf (i :: todo) evs ∧
        (s.clients i).fd = some t ∧ s.fds t = none) → Moves a s act t
  | readFails {act : Act κ} {t : State κ} {rs : List ReadOutcome} {e : Errno} {c : κ} :
      (∃ stack, act = .authorize stack rs) ∨ (∃ stack, act = .read stack rs) →
      .error e ∈ rs → s.peer act = some c → e = .eagain ∨ (s.conn c).reset = true →
      t.pc = .ended .exited → Moves a s act t
  | writeFails {act : Act κ} {t : State κ} {e : Errno} {c : κ} : s.peer act = some c →
      (s.conn c).reset = true → t.pc = .ended (.ofErrno e) → Moves a s act t

theorem accept_moves {a : Args} {s t : State κ} {evs : List Event} {fd : Nat}
    (hpc : s.pc = .events ((a.serverFd, true) :: evs)) (h : s.accept a evs fd = some t) :
    Moves a s (.accept fd) t := by
  unfold State.accept at h
  split at h
  · cases h
  · rename_i c backlog hback
    split at h
    · rename_i hg
      cases h
      exact .accept hpc hback hg.1 hg.2
    · cases h

theorem authorize_moves {a : Args} {s t : State κ} {evs : List Event} {fd : Nat}
    {stack : List Byte} {rs : List ReadOutcome} (hpc : s.pc = .greet fd evs)
    (h : s.authorize a fd evs stack rs = some t) : Moves a s (.authorize stack rs) t := by
  unfold State.authorize at h
  split at h
  · rename_i hfd
    cases h
    exact .broken (.inl ⟨fd, evs, hpc, hfd⟩)
  · rename_i c hfd
    split at h
    · rename_i hg
      obtain ⟨hlen, hreads⟩ := hg
      split at h
      · cases h
      · rename_i hr
        cases h
        have he := bulkRead_error hr
        exact .readFails (.inl ⟨stack, rfl⟩) he (c := c) (by simp [State.peer, hpc, hfd])
          (Conn.reads_error hreads he) rfl
      · rename_i n buf rest hr
        split at h
        · cases h
          exact .turnAway hpc hfd
        · rename_i clients hadd
          cases h
          exact .join hpc hfd hlen hr hadd
    · cases h

theorem echo_moves {a : Args} {s t : State κ} {evs : List Event} {fd : Nat} {buf : List Byte}
    {ws : List WriteOutcome} (hpc : s.pc = .echo fd buf evs) (h : s.echo fd buf evs ws = some t) :
    Moves a s (.echo ws) t := by
  unfold State.echo at h
  split at h
  · rename_i hfd
    cases h
    exact .broken (.inr (.inl ⟨fd, buf, evs, hpc, .inl hfd⟩))
  · rename_i c hfd
    split at h
    · rename_i hwrites
      split at h
      · cases h
      · rename_i hw
        cases h
        exact .writeFails (c := c) (by simp [State.peer, hpc, hfd])
          (Conn.writes_error hwrites (bulkWrite_error hw)) rfl
      · rename_i hw
        obtain ⟨-, hout⟩ := bulkWrite_ok hw
        rw [List.nil_append] at hout
        subst hout
        split at h
        · rename_i hmem
          cases h
          exact .broken (.inr (.inl ⟨fd, buf, evs, hpc, .inr hmem⟩))
        · rename_i hmem
          cases h
          exact .echo hpc hfd hmem
    · cases h

theorem read_moves {a : Args} {s t : State κ} {evs : List Event} {fd : Nat} {stack : List Byte}
    {rs : List ReadOutcome} (hpc : s.pc = .events ((fd, true) :: evs)) (hne : fd ≠ a.serverFd)
    (h : s.read fd evs stack rs = some t) : Moves a s (.read stack rs) t := by
  unfold State.read at h
  split at h
  · rename_i hfd
    cases h
    exact .broken (.inr (.inr (.inl ⟨fd, evs, hpc, hne, .inl hfd⟩)))
  · rename_i c hfd
    split at h
    · rename_i hg
      split at h
      · cases h
      · rename_i n buf rest hr
        split at h
        · rename_i hpos
          cases h
          exact .say hpc hne hfd hg.1 hpos hr
        · cases h
          unfold State.hangup
          split
          · rename_i hmem
            simp only
            split
            · rename_i hslot
              exact .broken (.inr (.inr (.inl ⟨fd, evs, hpc, hne, .inr (.inr hslot)⟩)))
            · rename_i i hslot
              exact .leave hpc hne hfd hslot
          · rename_i hmem
            exact .broken (.inr (.inr (.inl ⟨fd, evs, hpc, hne, .inr (.inl hmem)⟩)))
      · rename_i hr
        cases h
        exact .again hpc (bulkRead_error hr)
      · rename_i hr
        cases h
        have he := bulkRead_error hr
        exact .readFails (.inr ⟨stack, rfl⟩) he (c := c) (by simp [State.peer, hpc, hfd])
          (Conn.reads_error hg.2 he) rfl
    · cases h

theorem forward_moves {a : Args} {s t : State κ} {evs : List Event} {fd : Nat} {buf : List Byte}
    {i : Fin maxClientCount} {todo : List (Fin maxClientCount)} {ws : List WriteOutcome}
    (hpc : s.pc = .forward fd buf (i :: todo) evs)
    (h : s.forward fd buf i todo evs ws = some t) : Moves a s (.forward ws) t := by
  unfold State.forward at h
  split at h
  · rename_i hnone
    cases h
    exact .pass hpc fun t ht => by rw [hnone] at ht; cases ht
  · rename_i u hu
    split at h
    · rename_i heq
      cases h
      exact .pass hpc fun t ht => by rw [hu] at ht; cases ht; exact heq
    · rename_i hne
      split at h
      · rename_i hfd
        cases h
        exact .broken (.inr (.inr (.inr ⟨fd, buf, i, todo, evs, u, hpc, hu, hfd⟩)))
      · rename_i c hfd
        split at h
        · rename_i hwrites
          split at h
          · cases h
          · rename_i hw
            cases h
            exact .writeFails (c := c) (by simp [State.peer, hpc, hu, hne, hfd])
              (Conn.writes_error hwrites (bulkWrite_error hw)) rfl
          · rename_i hw
            obtain ⟨-, hout⟩ := bulkWrite_ok hw
            rw [List.nil_append] at hout
            subst hout
            cases h
            exact .deliver hpc hu hne hfd
        · cases h

/-- **What a step does**, of the clients and of the server. -/
theorem next_moves {a : Args} {s t : State κ} {act : Act κ} (h : s.next a act = some t) :
    Moves a s act t := by
  unfold State.next at h
  split at h
  · split at h
    · cases h
    · rename_i ho
      cases h
      exact .connect (by simpa using ho)
  · split at h
    · rename_i ho
      cases h
      exact .client ho.1 ho.1 rfl rfl rfl (fun he => by rw [he] at ho; cases ho.2) (Nat.le_refl _)
    · cases h
  · split at h
    · rename_i ho
      cases h
      exact .client ho.1 ho.1 rfl (List.append_nil _).symm (List.append_nil _).symm
        (fun he => ⟨he, rfl⟩) (Nat.le_add_right ..)
    · cases h
  · split at h
    · rename_i ho
      cases h
      exact .client ho ho rfl (List.append_nil _).symm (List.append_nil _).symm
        (fun _ => ⟨rfl, rfl⟩) (Nat.le_refl _)
    · cases h
  · split at h
    · rename_i ho
      cases h
      exact .client ho ho rfl (List.append_nil _).symm (List.append_nil _).symm
        (fun _ => ⟨rfl, rfl⟩) (Nat.le_refl _)
    · cases h
  · rename_i hpc
    split at h
    · rename_i hg
      cases h
      exact .pwait hpc hg.2.2.1 hg.2.2.2
    · cases h
  · cases h
    exact .interrupt
  · rename_i hpc
    cases h
    exact .skip hpc
  · rename_i hpc
    split at h
    · rename_i he
      subst he
      exact accept_moves hpc h
    · cases h
  · rename_i hpc
    exact authorize_moves hpc h
  · rename_i hpc
    cases h
    exact .refuse hpc
  · rename_i hpc
    split at h
    · cases h
    · rename_i hne
      exact read_moves hpc hne h
  · rename_i hpc
    exact echo_moves hpc h
  · rename_i hpc
    cases h
    exact .forwarded hpc
  · rename_i hpc
    exact forward_moves hpc h
  · cases h

end Ops.Chat
