import Mathlib.Data.List.Induction
import Mathlib.Data.List.TakeWhile
import Mathlib.Tactic

/-!
# Decimal numerals

A numeral is a word of decimal digits that does not begin with `'0'`, or is that letter alone
(`Decimal.Numeral`). A number has one numeral, the one that it is written as
(`Decimal.numeral_iff`). A word of digits that need not be a numeral still has a value, and so
has the front of any word: it is what `strtol` and `strtoul` read (`Decimal.scan`).
-/

namespace Decimal

/-! ### Words of digits -/

/-- What a word of digits stands for. -/
def value (text : List Char) : ℕ := Nat.ofDigitChars 10 text 0

/-- **A word of digits**, with one digit at least. -/
structure Digits (text : List Char) : Prop where
  ne_nil : text ≠ []
  isDigit : ∀ c ∈ text, c.isDigit

variable {text : List Char} {c : Char} {n : ℕ}

theorem value_concat (text : List Char) (c : Char) :
    value (text ++ [c]) = 10 * value text + (c.toNat - '0'.toNat) := by
  rw [value, Nat.ofDigitChars_append, Nat.ofDigitChars_cons, Nat.ofDigitChars_nil]
  rfl

/-- A letter that is no digit is not in such a word. -/
theorem Digits.notMem (h : Digits text) (hc : c.isDigit = false) : c ∉ text := by
  intro hmem
  rw [h.isDigit c hmem] at hc
  cases hc

/-! ### Numerals -/

/-- **A numeral** is a word of digits without a zero in front. -/
structure Numeral (text : List Char) (n : ℕ) : Prop extends Digits text where
  head : text.head? = some '0' → text = ['0']
  value_eq : value text = n

/-- What a number is written as begins with its first digit, which is not 0 unless it is alone. -/
theorem head?_toDigits (n : ℕ) (hn : 0 < n) : (Nat.toDigits 10 n).head? ≠ some '0' := by
  induction n using Nat.strong_induction_on with
  | _ n ih =>
    by_cases hlt : n < 10
    · rw [Nat.toDigits_of_lt_base hlt]
      interval_cases n <;> decide
    · have hle : 10 ≤ n := not_lt.mp hlt
      rw [Nat.toDigits_of_base_le (by norm_num) hle,
        List.head?_append_of_ne_nil _ Nat.toDigits_ne_nil]
      exact ih (n / 10) (by omega) (by omega)

/-- What a number is written as is a numeral. -/
theorem numeral_toDigits (n : ℕ) : Numeral (Nat.toDigits 10 n) n where
  ne_nil := Nat.toDigits_ne_nil
  isDigit := fun _ => Nat.isDigit_of_mem_toDigits (by norm_num) (by norm_num)
  head := by
    intro h
    rcases n.eq_zero_or_pos with rfl | hpos
    · exact Nat.toDigits_zero 10
    · exact absurd h (head?_toDigits n hpos)
  value_eq := Nat.ofDigitChars_ten_toDigits

/-- A digit is the one that its value is written as. -/
theorem digitChar_sub (hc : c.isDigit) : (c.toNat - '0'.toNat).digitChar = c := by
  obtain ⟨hlo, hhi⟩ := Char.isDigit_iff_toNat.mp hc
  have h0 : '0'.toNat = 48 := rfl
  have h9 : '9'.toNat = 57 := rfl
  refine Char.toNat_inj.mp ?_
  rw [Nat.toNat_digitChar_of_lt_ten (by omega)]
  omega

/-- **A number has one numeral.** -/
theorem Numeral.eq_toDigits (h : Numeral text n) : text = Nat.toDigits 10 n := by
  induction text using List.reverseRecOn generalizing n with
  | nil => exact absurd rfl h.ne_nil
  | append_singleton front c ih =>
    have hc : c.isDigit := h.isDigit c (by simp)
    have hlt : c.toNat - '0'.toNat < 10 := by
      obtain ⟨hlo, hhi⟩ := Char.isDigit_iff_toNat.mp hc
      have h9 : '9'.toNat = '0'.toNat + 9 := rfl
      omega
    have hvalue := h.value_eq
    rw [value_concat] at hvalue
    rcases eq_or_ne front [] with rfl | hne
    · -- one digit alone
      have hzero : value [] = 0 := Nat.ofDigitChars_nil
      rw [hzero, Nat.mul_zero, Nat.zero_add] at hvalue
      rw [← hvalue, Nat.toDigits_of_lt_base hlt, digitChar_sub hc]
      rfl
    · have hhead : front.head? ≠ some '0' := by
        intro h0
        have hall := h.head (by rw [List.head?_append_of_ne_nil _ hne, h0])
        have hlen := congrArg List.length hall
        rw [List.length_append] at hlen
        have hpos := List.length_pos_of_ne_nil hne
        simp only [List.length_singleton] at hlen
        omega
      have hfront := ih ⟨⟨hne, fun d hd => h.isDigit d (by simp [hd])⟩,
        fun h0 => absurd h0 hhead, rfl⟩
      have hpos : 0 < value front := by
        rcases (value front).eq_zero_or_pos with h0 | hpos
        · rw [h0, Nat.toDigits_zero] at hfront
          exact absurd (by rw [hfront]; rfl) hhead
        · exact hpos
      rw [← hvalue, ← Nat.toDigits_append_toDigits (by norm_num) hpos hlt, ← hfront,
        Nat.toDigits_of_lt_base hlt, digitChar_sub hc]

theorem numeral_iff : Numeral text n ↔ text = Nat.toDigits 10 n := by
  constructor
  · exact Numeral.eq_toDigits
  · rintro rfl
    exact numeral_toDigits n

/-! ### Numbers at the front of a word -/

/-- The letters of `isspace`. -/
def isspace (c : Char) : Bool := c = ' ' || ('\t'.toNat ≤ c.toNat && c.toNat ≤ '\r'.toNat)

/-- **What is read at the front**: whether there is a minus sign, and what the digits stand for. -/
def scan (text : List Char) : Bool × ℕ :=
  match text.dropWhile isspace with
  | '-' :: rest => (true, value (rest.takeWhile Char.isDigit))
  | '+' :: rest => (false, value (rest.takeWhile Char.isDigit))
  | rest => (false, value (rest.takeWhile Char.isDigit))

/-- `strtoul` in base 10, where `unsigned long` has 64 bits. -/
def strtoul (text : List Char) : UInt64 :=
  let (negative, n) := scan text
  if 2 ^ 64 ≤ n then UInt64.ofNat (2 ^ 64 - 1)
  else if negative then 0 - UInt64.ofNat n
  else UInt64.ofNat n

/-- `strtol` in base 10, where `long` has 64 bits. -/
def strtol (text : List Char) : ℤ :=
  let (negative, n) := scan text
  if negative then max (-n) (-2 ^ 63) else min n (2 ^ 63 - 1)

/-- A digit is neither a sign nor a space. -/
theorem isspace_eq_false (hc : c.isDigit) : isspace c = false := by
  obtain ⟨hlo, hhi⟩ := Char.isDigit_iff_toNat.mp hc
  have h0 : '0'.toNat = 48 := rfl
  have hcr : '\r'.toNat = 13 := rfl
  have hspace : c ≠ ' ' := by
    rintro rfl
    exact absurd hc (by decide)
  simp only [isspace, hspace, decide_false, Bool.false_or, Bool.and_eq_false_iff,
    decide_eq_false_iff_not]
  omega

/-- **All of a word of digits is read.** -/
theorem Digits.scan_eq (h : Digits text) : scan text = (false, value text) := by
  obtain ⟨c, rest, rfl⟩ := List.exists_cons_of_ne_nil h.ne_nil
  have hc : c.isDigit := h.isDigit c List.mem_cons_self
  have hminus : c ≠ '-' := by
    rintro rfl
    exact absurd hc (by decide)
  have hplus : c ≠ '+' := by
    rintro rfl
    exact absurd hc (by decide)
  have hdrop : (c :: rest).dropWhile isspace = c :: rest := by
    rw [List.dropWhile_cons, isspace_eq_false hc]
    rfl
  have htake : (c :: rest).takeWhile Char.isDigit = c :: rest :=
    List.takeWhile_eq_self_iff.mpr h.isDigit
  rw [scan, hdrop]
  split
  · next heq => exact absurd (List.cons.inj heq).1 hminus
  · next heq => exact absurd (List.cons.inj heq).1 hplus
  · rw [htake]

/-- The number is kept up to the greatest one. -/
theorem Digits.toNat_strtoul (h : Digits text) :
    (strtoul text).toNat = min (value text) (2 ^ 64 - 1) := by
  rw [strtoul, h.scan_eq]
  dsimp only
  rcases lt_or_ge (value text) (2 ^ 64) with hlt | hge
  · rw [if_neg (not_le.mpr hlt), if_neg Bool.false_ne_true, UInt64.toNat_ofNat_of_lt' hlt]
    omega
  · rw [if_pos hge, UInt64.toNat_ofNat_of_lt' (by norm_num)]
    omega

theorem Digits.strtol_eq (h : Digits text) : strtol text = min (value text : ℤ) (2 ^ 63 - 1) := by
  rw [strtol, h.scan_eq]
  exact if_neg Bool.false_ne_true

end Decimal
