import Mathlib.Data.List.FinRange
import Mathlib.Logic.Function.Basic
import Ops.Posix.Bulk

/-!
# Authorisation in the chat server (`sop-chat (1).c`)

`addAuthorizedUser` is what `add_authorized_user` decides from its stack buffer
once `bulk_read` has returned. `bulk_read`'s length is only compared with 0, so a
short greeting is completed by what the buffer held before; `own_bytes_iff` says
for which greetings that makes no difference.
-/

namespace Ops.Chat

open Ops.Posix

abbrev maxClientCount : Nat := 4
abbrev maxEvents : Nat := 10
abbrev nameSize : Nat := 64
abbrev messageSize : Nat := 448
abbrev buffSize : Nat := nameSize + messageSize

/-- `client_t`; the descriptor `-1` is `none`. -/
structure Client where
  fd : Option Nat
  username : List Byte
  deriving DecidableEq

abbrev Clients : Type := Fin maxClientCount → Client

/-- `client_name`: the first field of the buffer, its last byte forced to NUL. -/
def clientName (buf : List Byte) : List Byte := (strncpy buf nameSize).set (nameSize - 1) 0

/-- `message`: the second field, its last byte forced to NUL. -/
def message (buf : List Byte) : List Byte :=
  (strncpy (buf.drop nameSize) messageSize).set (messageSize - 1) 0

/-- The loop over the table: the first slot without a client. -/
def freeSlot (clients : Clients) : Option (Fin maxClientCount) :=
  (List.finRange maxClientCount).find? fun i => (clients i).fd = none

/-- The table with the new client; `none` is `-1`. -/
def addAuthorizedUser (key : CString) (clients : Clients) (clientFd : Nat) (buf : List Byte) :
    Option Clients :=
  if cstr (message buf) ≠ some key.bytes then none
  else (freeSlot clients).map fun i =>
    Function.update clients i ⟨some clientFd, strncpy (clientName buf) nameSize⟩

/-- The buffer after `bulk_read` of a client that sends `g` and ends its stream. -/
def Received (g b buf : List Byte) : Prop :=
  ∃ rs n rest, bulkRead rs ⟨g, true⟩ b 0 0 buffSize = some ⟨.ok n, buf, rest⟩

theorem received_iff {g b buf : List Byte} : Received g b buf ↔ buf = blit b 0 (g.take buffSize) := by
  constructor
  · rintro ⟨rs, n, rest, h⟩
    exact (bulkRead_ok (Nat.zero_le _) h).2.1
  · rintro rfl
    obtain ⟨n, buf, rest, h⟩ := bulkRead_whole (s := ⟨g, true⟩) (m := buffSize) (k := buffSize)
      (.inl rfl) (by omega) b 0 0
    exact ⟨_, n, rest, (bulkRead_ok (Nat.zero_le _) h).2.1 ▸ h⟩

/-! ## The string that is compared with the key -/

/-- What `strcmp` sees of `message`. -/
def keyText (buf : List Byte) : List Byte := upToNul ((buf.drop nameSize).take (messageSize - 1))

theorem addAuthorizedUser_eq (key : CString) (clients : Clients) (clientFd : Nat) (buf : List Byte) :
    addAuthorizedUser key clients clientFd buf = if keyText buf ≠ key.bytes then none
      else (freeSlot clients).map fun i =>
        Function.update clients i ⟨some clientFd, strncpy (clientName buf) nameSize⟩ := by
  have htext : cstr (message buf) = some (keyText buf) := cstr_copy ..
  unfold addAuthorizedUser
  simp only [htext, ne_eq, Option.some.injEq]

/-- The second field: the client's own bytes, then the old ones. -/
theorem drop_blit {b g : List Byte} :
    (blit b 0 g).drop nameSize = g.drop nameSize ++ b.drop (max g.length nameSize) := by
  rw [blit_zero, List.drop_append, List.drop_drop]
  congr 2
  omega

theorem clientName_blit {b g : List Byte} (hg : nameSize ≤ g.length) :
    clientName (blit b 0 g) = clientName g := by
  unfold clientName strncpy
  rw [blit_zero, List.take_append_of_le_length hg]

/-- The client's own bytes reach to the end of the string. -/
def Complete (g : List Byte) : Prop := buffSize - 1 ≤ g.length ∨ 0 ∈ g.drop nameSize

theorem Complete.name {g : List Byte} (h : Complete g) : nameSize ≤ g.length := by
  rcases h with h | h
  · exact Nat.le_trans (by decide) h
  · have hpos := List.length_pos_of_mem h
    rw [List.length_drop] at hpos
    omega

theorem Complete.text {g : List Byte} (h : Complete g) (b : List Byte) :
    keyText (blit b 0 g) = keyText g := by
  unfold keyText
  rw [drop_blit]
  rcases h with h | h
  · rw [List.take_append_of_le_length]
    have h1 : buffSize = 512 := rfl
    have h2 : nameSize = 64 := rfl
    have h3 : messageSize = 448 := rfl
    rw [List.length_drop]
    omega
  · rw [upToNul_take, upToNul_append_nul h, ← upToNul_take]

/-- The string is short of the end, and the old bytes go on with it. -/
theorem text_incomplete {g : List Byte} (h : ¬ Complete g) (b : List Byte) :
    keyText (blit b 0 g) = (g.drop nameSize ++ upToNul (b.drop (max g.length nameSize))).take
      (messageSize - 1) := by
  simp only [Complete, not_or] at h
  unfold keyText
  rw [drop_blit, upToNul_take, upToNul_append h.2]

/-! ## What depends on the client only -/

/-- The client's bytes contain the key, with a NUL or the cut behind it. -/
def HasKey (key : CString) (g : List Byte) : Prop :=
  key.bytes <+: g.drop nameSize ∧
    (g[nameSize + key.bytes.length]? = some 0 ∨ nameSize + key.bytes.length = buffSize - 1)

/-- The decision and the stored name depend on the bytes `g` the client sends, and
it is accepted only when they contain the key. -/
def OwnBytes (key : CString) (g : List Byte) : Prop :=
  ∀ (clients : Clients) (clientFd : Nat) (b b' buf buf' : List Byte), b.length = buffSize →
    b'.length = buffSize → Received g b buf → Received g b' buf' →
    addAuthorizedUser key clients clientFd buf = addAuthorizedUser key clients clientFd buf' ∧
      ((addAuthorizedUser key clients clientFd buf).isSome → HasKey key g)

theorem Complete.hasKey {key : CString} {g : List Byte} (h : Complete g)
    (ht : keyText g = key.bytes) : HasKey key g := by
  have h1 : buffSize = 512 := rfl
  have h2 : nameSize = 64 := rfl
  have h3 : messageSize = 448 := rfl
  have hpre : key.bytes <+: (g.drop nameSize).take (messageSize - 1) := by
    rw [← ht]; exact List.takeWhile_prefix _
  have hlen := hpre.length_le
  rw [List.length_take, List.length_drop] at hlen
  refine ⟨hpre.trans (List.take_prefix ..), ?_⟩
  rcases upToNul_next ((g.drop nameSize).take (messageSize - 1)) with hn | hn
  · have ht' : upToNul ((g.drop nameSize).take (messageSize - 1)) = key.bytes := ht
    rw [ht', List.length_take, List.length_drop] at hn
    rcases h with h | h
    · right; omega
    · -- the NUL is behind the cut, or would have ended the string
      by_cases hshort : (g.drop nameSize).length ≤ messageSize - 1
      · rw [List.take_of_length_le hshort] at ht'
        have hself : upToNul (g.drop nameSize) = g.drop nameSize :=
          (List.takeWhile_prefix _).eq_of_length (by
            show (upToNul _).length = _
            rw [ht', hn, List.length_drop]
            rw [List.length_drop] at hshort; omega)
        exact absurd h (hself ▸ upToNul_noNul _)
      · rw [List.length_drop] at hshort
        right; omega
  · left
    have ht' : upToNul ((g.drop nameSize).take (messageSize - 1)) = key.bytes := ht
    rw [ht'] at hn
    have hlt : key.bytes.length < messageSize - 1 := by
      by_contra hge
      rw [List.getElem?_eq_none (by rw [List.length_take]; omega)] at hn
      cases hn
    rwa [List.getElem?_take_of_lt hlt, List.getElem?_drop] at hn

/-- Old bytes that make up a stack buffer, from position `q` on. -/
theorem exists_leftover {q : Nat} {r : List Byte} (hr : q + r.length = buffSize) :
    ∃ b : List Byte, b.length = buffSize ∧ b.drop q = r := by
  refine ⟨List.replicate q 0 ++ r, ?_, List.drop_left' List.length_replicate⟩
  rw [List.length_append, List.length_replicate, hr]

/-- An incomplete greeting that the key continues: whether it is accepted is up to
the old bytes. -/
theorem not_own {key : CString} {g : List Byte} (hg : ¬ Complete g)
    (hpre : g.drop nameSize <+: key.bytes) (hkey : key.bytes.length < messageSize) :
    ¬ OwnBytes key g := by
  intro hown
  have h1 : buffSize = 512 := rfl
  have h2 : nameSize = 64 := rfl
  have h3 : messageSize = 448 := rfl
  obtain ⟨k, hk⟩ := hpre
  have hg' := hg
  simp only [Complete, not_or] at hg'
  obtain ⟨hlen, hno⟩ := hg'
  have hq : max g.length nameSize = (g.drop nameSize).length + nameSize := by
    rw [List.length_drop]; omega
  have hshort : (g.drop nameSize).length < messageSize - 1 := by rw [List.length_drop]; omega
  have htake : g.take buffSize = g := List.take_of_length_le (by omega)
  have hkeylen : (g.drop nameSize).length + k.length = key.bytes.length := by
    rw [← hk, List.length_append]
  generalize hm : g.drop nameSize = m at *
  -- old bytes that complete the key
  obtain ⟨b, hb, hbr⟩ : ∃ b : List Byte, b.length = buffSize ∧
      b.drop (max g.length nameSize) = k ++ List.replicate (messageSize - key.bytes.length) 0 :=
    exists_leftover (by rw [List.length_append, List.length_replicate]; omega)
  have hyes : keyText (blit b 0 g) = key.bytes := by
    obtain ⟨n, hn⟩ : ∃ n, messageSize - key.bytes.length = n + 1 :=
      ⟨messageSize - key.bytes.length - 1, by omega⟩
    have hk0 : 0 ∉ k := fun h => key.noNul (hk ▸ List.mem_append_right _ h)
    have hzeros : upToNul (List.replicate (n + 1) 0) = [] := rfl
    rw [text_incomplete hg, hm, hbr, upToNul_append hk0, hn, hzeros, List.append_nil, hk,
      List.take_of_length_le (by omega)]
  -- and old bytes that do not
  obtain ⟨b', hb', hno'⟩ : ∃ b' : List Byte, b'.length = buffSize ∧
      keyText (blit b' 0 g) ≠ key.bytes := by
    by_cases hmk : k = []
    · obtain ⟨b', hb', hbr'⟩ : ∃ b' : List Byte, b'.length = buffSize ∧
          b'.drop (max g.length nameSize) = List.replicate (messageSize - m.length) 1 :=
        exists_leftover (by rw [List.length_replicate]; omega)
      refine ⟨b', hb', fun he => ?_⟩
      have hones : 0 ∉ List.replicate (messageSize - m.length) (1 : Byte) :=
        fun h => absurd (List.eq_of_mem_replicate h) (by decide)
      have hcount := congrArg List.length he
      rw [text_incomplete hg, hm, hbr', upToNul_eq_self hones] at hcount
      rw [List.length_take, List.length_append, List.length_replicate, ← hkeylen, hmk] at hcount
      simp only [List.length_nil] at hcount
      omega
    · obtain ⟨b', hb', hbr'⟩ : ∃ b' : List Byte, b'.length = buffSize ∧
          b'.drop (max g.length nameSize) = List.replicate (messageSize - m.length) 0 :=
        exists_leftover (by rw [List.length_replicate]; omega)
      refine ⟨b', hb', fun he => ?_⟩
      obtain ⟨n, hn⟩ : ∃ n, messageSize - m.length = n + 1 := ⟨messageSize - m.length - 1, by omega⟩
      have hzeros : upToNul (List.replicate (n + 1) 0) = [] := rfl
      rw [text_incomplete hg, hm, hbr', hn, hzeros, List.append_nil,
        List.take_of_length_le (by omega), ← hk, List.self_eq_append_right] at he
      exact hmk he
  let free : Clients := fun _ => ⟨none, []⟩
  obtain ⟨hsame, -⟩ := hown free 0 b b' _ _ hb hb' (received_iff.mpr rfl) (received_iff.mpr rfl)
  rw [htake, addAuthorizedUser_eq, addAuthorizedUser_eq, if_neg (not_not.mpr hyes),
    if_pos hno'] at hsame
  cases hsame

/-- **When the decision is the client's own**: when its bytes reach to the end of
the string that is compared with the key, or no continuation of them is the key. -/
theorem own_bytes_iff (key : CString) {g : List Byte} (hg : g.length ≤ buffSize) :
    OwnBytes key g ↔
      Complete g ∨ ¬ g.drop nameSize <+: key.bytes ∨ messageSize ≤ key.bytes.length := by
  constructor
  · intro hown
    by_contra hcon
    simp only [not_or, not_not, Nat.not_le] at hcon
    exact not_own hcon.1 hcon.2.1 hcon.2.2 hown
  · intro h clients clientFd b b' buf buf' hb hb' hbuf hbuf'
    have htake : g.take buffSize = g := List.take_of_length_le hg
    rw [received_iff, htake] at hbuf hbuf'
    subst hbuf hbuf'
    by_cases hc : Complete g
    · rw [addAuthorizedUser_eq, addAuthorizedUser_eq, hc.text, hc.text, clientName_blit hc.name,
        clientName_blit hc.name]
      refine ⟨rfl, fun hsome => ?_⟩
      by_cases ht : keyText g = key.bytes
      · exact hc.hasKey ht
      · rw [if_pos ht] at hsome; cases hsome
    · -- what is compared with the key begins with the client's bytes and is cut
      have h1 : buffSize = 512 := rfl
      have h2 : nameSize = 64 := rfl
      have h3 : messageSize = 448 := rfl
      have hno : ∀ b, keyText (blit b 0 g) ≠ key.bytes := by
        intro b he
        rw [text_incomplete hc] at he
        rcases h.resolve_left hc with h | h
        · refine h (he ▸ ?_)
          refine List.prefix_take_iff.mpr ⟨List.prefix_append .., ?_⟩
          simp only [Complete, not_or] at hc
          rw [List.length_drop]
          omega
        · have hlen := congrArg List.length he
          rw [List.length_take] at hlen
          omega
      rw [addAuthorizedUser_eq, addAuthorizedUser_eq, if_pos (hno b), if_pos (hno b')]
      exact ⟨rfl, fun hsome => by cases hsome⟩

/-- The key of one letter. -/
def keyA : CString := ⟨[97], by decide⟩

/-- A whole greeting with an empty name. -/
theorem own_bytes_whole : OwnBytes keyA (List.replicate 64 0 ++ 97 :: List.replicate 447 0) := by
  have hlen : (List.replicate 64 (0 : Byte) ++ 97 :: List.replicate 447 0).length = buffSize := by
    rw [List.length_append, List.length_cons, List.length_replicate, List.length_replicate]
  exact (own_bytes_iff keyA hlen.le).mpr (.inl (.inl (by rw [hlen]; decide)))

/-- A client that sends nothing and ends its stream. -/
theorem own_bytes_silent :
    ¬ ∀ (key : CString) (g : List Byte), g.length ≤ buffSize → OwnBytes key g := by
  intro h
  have hc : ¬ Complete [] := by rintro (h | h) <;> cases h
  have hpre : ([] : List Byte).drop nameSize <+: keyA.bytes := List.nil_prefix ..
  exact not_own hc hpre (by decide) (h keyA [] (Nat.zero_le _))

end Ops.Chat
