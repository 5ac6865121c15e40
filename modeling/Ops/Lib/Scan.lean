import Mathlib.Algebra.Ring.Int.Defs
import Mathlib.Data.List.TakeWhile

/-!
# Formatted texts

`decimal` is what `%d` prints of a number that is not negative, `decimalInt` what it prints of
any number, and `scan` gives the numbers that `sscanf` converts before the first mismatch: `%d`
skips white space and takes the longest run of digits after an optional sign, white space in the
format skips white space, and every other character has to be there. A text is a C string without
its NUL. `storeInt` is the value that the variable gets.
-/

namespace Ops

/-- `%d`. -/
def decimal (n : Nat) : List Char := Nat.toDigits 10 n

inductive Directive where
  | int
  | blank
  | lit (c : Char)
  deriving DecidableEq

/-- `isspace`. -/
def isSpace (c : Char) : Bool := c.toNat == 32 || (9 ≤ c.toNat && c.toNat ≤ 13)

def skipSpace (text : List Char) : List Char := text.dropWhile isSpace

/-- The optional sign in front of a number. -/
def takeSign : List Char → Int × List Char
  | '-' :: text => (-1, text)
  | '+' :: text => (1, text)
  | text => (1, text)

/-- The digits of a number, and the text after it. -/
def takeNumber (text : List Char) : Option (Nat × List Char) :=
  if text.takeWhile Char.isDigit = [] then none
  else some (Nat.ofDigitChars 10 (text.takeWhile Char.isDigit) 0, text.dropWhile Char.isDigit)

/-- The numbers that are converted. -/
def scan : List Directive → List Char → List Int
  | [], _ => []
  | .int :: format, text =>
    match takeNumber (takeSign (skipSpace text)).2 with
    | none => []
    | some (value, rest) => (takeSign (skipSpace text)).1 * value :: scan format rest
  | .blank :: format, text => scan format (skipSpace text)
  | .lit _ :: _, [] => []
  | .lit c :: format, c' :: rest => if c = c' then scan format rest else []

/-! ## A number that was printed is read back -/

theorem decimal_digit {n : Nat} {c : Char} (h : c ∈ decimal n) : c.isDigit = true :=
  Nat.isDigit_of_mem_toDigits (by decide) (by decide) h

theorem decimal_ne_nil (n : Nat) : decimal n ≠ [] := Nat.toDigits_ne_nil

/-- A text does not go on with a digit. -/
def NoDigit (rest : List Char) : Prop := ∀ c ∈ rest.head?, c.isDigit = false

theorem NoDigit.takeWhile {rest : List Char} (h : NoDigit rest) :
    rest.takeWhile Char.isDigit = [] := by
  cases rest with
  | nil => rfl
  | cons c rest =>
    have hc := h c rfl
    rw [List.takeWhile_cons_of_neg (by rw [hc]; nofun)]

theorem NoDigit.dropWhile {rest : List Char} (h : NoDigit rest) :
    rest.dropWhile Char.isDigit = rest := by
  cases rest with
  | nil => rfl
  | cons c rest =>
    have hc := h c rfl
    rw [List.dropWhile_cons_of_neg (by rw [hc]; nofun)]

theorem takeNumber_decimal (n : Nat) {rest : List Char} (h : NoDigit rest) :
    takeNumber (decimal n ++ rest) = some (n, rest) := by
  have hall : ∀ c ∈ decimal n, c.isDigit = true := fun c hc => decimal_digit hc
  unfold takeNumber
  rw [List.takeWhile_append_of_pos hall, List.dropWhile_append_of_pos hall, h.takeWhile,
    h.dropWhile, List.append_nil, if_neg (decimal_ne_nil n)]
  unfold decimal
  rw [Nat.ofDigitChars_ten_toDigits]

theorem isDigit_not_space {c : Char} (h : c.isDigit = true) : isSpace c = false := by
  unfold Char.isDigit at h
  unfold isSpace
  simp only [Bool.and_eq_true, decide_eq_true_eq, ge_iff_le] at h
  have hlow : 48 ≤ c.toNat := h.1
  simp only [Bool.or_eq_false_iff, beq_eq_false_iff_ne, Bool.and_eq_false_iff,
    decide_eq_false_iff_not]
  omega

theorem decimal_cons (n : Nat) : ∃ c cs, decimal n = c :: cs ∧ c.isDigit = true := by
  cases hd : decimal n with
  | nil => exact absurd hd (decimal_ne_nil n)
  | cons c cs => exact ⟨c, cs, rfl, decimal_digit (n := n) (by rw [hd]; exact List.mem_cons_self)⟩

theorem skipSpace_decimal (n : Nat) (rest : List Char) :
    skipSpace (decimal n ++ rest) = decimal n ++ rest := by
  obtain ⟨c, cs, hd, hc⟩ := decimal_cons n
  unfold skipSpace
  rw [hd, List.cons_append, List.dropWhile_cons_of_neg (by rw [isDigit_not_space hc]; nofun)]

theorem takeSign_decimal (n : Nat) (rest : List Char) :
    takeSign (decimal n ++ rest) = (1, decimal n ++ rest) := by
  obtain ⟨c, cs, hd, hc⟩ := decimal_cons n
  rw [hd, List.cons_append]
  unfold takeSign
  split
  · rename_i heq; cases heq; cases hc
  · rename_i heq; cases heq; cases hc
  · rfl

theorem scan_int (n : Nat) (format : List Directive) {rest : List Char} (h : NoDigit rest) :
    scan (.int :: format) (decimal n ++ rest) = (n : Int) :: scan format rest := by
  rw [scan, skipSpace_decimal, takeSign_decimal, takeNumber_decimal n h]
  simp only [Int.one_mul]

theorem scan_int_last (n : Nat) (format : List Directive) :
    scan (.int :: format) (decimal n) = (n : Int) :: scan format [] := by
  have hnil : NoDigit [] := nofun
  have h := scan_int n format hnil
  rwa [List.append_nil] at h

theorem scan_lit (c : Char) (format : List Directive) (rest : List Char) :
    scan (.lit c :: format) (c :: rest) = scan format rest := by
  rw [scan, if_pos rfl]

/-- White space in the format, in front of a number. -/
theorem scan_blank (n : Nat) (format : List Directive) (rest : List Char) :
    scan (.blank :: format) (' ' :: (decimal n ++ rest)) = scan format (decimal n ++ rest) := by
  have hblank : skipSpace (' ' :: (decimal n ++ rest)) = skipSpace (decimal n ++ rest) :=
    List.dropWhile_cons_of_pos rfl
  rw [scan, hblank, skipSpace_decimal]

/-! ## Numbers with a sign -/

def decimalInt (v : Int) : List Char :=
  if v < 0 then '-' :: decimal v.natAbs else decimal v.natAbs

/-- The value that `%d` stores: the nearest `long`, cut to 32 bits. -/
def storeInt (v : Int) : Int := (BitVec.ofInt 32 (max (-2 ^ 63) (min v (2 ^ 63 - 1)))).toInt

theorem storeInt_eq {v : Int} (hlow : -2 ^ 31 ≤ v) (hhigh : v < 2 ^ 31) : storeInt v = v := by
  have hsame : max (-2 ^ 63) (min v (2 ^ 63 - 1)) = v := by omega
  rw [storeInt, hsame, BitVec.toInt_ofInt, Int.bmod_def]
  omega

theorem decimalInt_neg {v : Int} (h : v < 0) : decimalInt v = '-' :: decimal v.natAbs := if_pos h

theorem decimalInt_nonneg {v : Int} (h : ¬ v < 0) : decimalInt v = decimal v.natAbs := if_neg h

theorem decimalInt_char {v : Int} {c : Char} (h : c ∈ decimalInt v) :
    c = '-' ∨ c.isDigit = true := by
  unfold decimalInt at h
  split at h
  · rcases List.mem_cons.mp h with hc | hc
    · exact .inl hc
    · exact .inr (decimal_digit hc)
  · exact .inr (decimal_digit h)

theorem skipSpace_decimalInt (v : Int) (rest : List Char) :
    skipSpace (decimalInt v ++ rest) = decimalInt v ++ rest := by
  by_cases hv : v < 0
  · rw [decimalInt_neg hv]
    exact List.dropWhile_cons_of_neg (by decide)
  · rw [decimalInt_nonneg hv]
    exact skipSpace_decimal _ rest

theorem scan_decimalInt (v : Int) (format : List Directive) {rest : List Char} (h : NoDigit rest) :
    scan (.int :: format) (decimalInt v ++ rest) = v :: scan format rest := by
  rw [scan, skipSpace_decimalInt]
  by_cases hv : v < 0
  · have hsign : takeSign ('-' :: (decimal v.natAbs ++ rest)) =
        (-1, decimal v.natAbs ++ rest) := rfl
    have hvalue : (-1 : Int) * v.natAbs = v := by omega
    rw [decimalInt_neg hv, List.cons_append, hsign, takeNumber_decimal _ h]
    simp only [hvalue]
  · have hvalue : (1 : Int) * v.natAbs = v := by omega
    rw [decimalInt_nonneg hv, takeSign_decimal, takeNumber_decimal _ h]
    simp only [hvalue]

theorem scan_decimalInt_last (v : Int) (format : List Directive) :
    scan (.int :: format) (decimalInt v) = v :: scan format [] := by
  have hnil : NoDigit [] := nofun
  have h := scan_decimalInt v format hnil
  rwa [List.append_nil] at h

theorem scan_blank_int (v : Int) (format : List Directive) (rest : List Char) :
    scan (.blank :: format) (' ' :: (decimalInt v ++ rest)) =
      scan format (decimalInt v ++ rest) := by
  have hblank : skipSpace (' ' :: (decimalInt v ++ rest)) = skipSpace (decimalInt v ++ rest) :=
    List.dropWhile_cons_of_pos rfl
  rw [scan, hblank, skipSpace_decimalInt]

end Ops
