import Mathlib.Data.Rat.Floor
import MushOS.Theory.Numeral

/-! # Decimal fractions

A rational number that is not negative, written as its integer part, a point, and a given
number of digits after it, without rounding. Reading such a string gives the number up to
one unit of the last digit (`Truncates.close`). The digits are a numeral just when the
fraction is a tenth or more (`fractionDigits_numeral_iff`): else there are zeros in front.
-/

namespace Numeral

def point : BitVec 8 := 46

/-- The characters `0` to `9`. -/
def IsDecimal (c : BitVec 8) : Prop := 48 ≤ c.toNat ∧ c.toNat < 58

/-- A number in decimal, where zero has a digit too. -/
def integerText (n : ℕ) : List (BitVec 8) := if n = 0 then [digitChar 0] else numeral 10 n

/-- The number that digits, a point and digits stand for. -/
def readDecimal (text : List (BitVec 8)) : ℚ :=
  value 10 (text.takeWhile (· ≠ point)) +
    value 10 (text.dropWhile (· ≠ point)).tail / 10 ^ (text.dropWhile (· ≠ point)).tail.length

/-- The first `n` digits of `x` after the point. -/
structure FractionDigits (x : ℚ) (n : ℕ) (digits : List (BitVec 8)) : Prop where
  length : digits.length = n
  decimal : ∀ c ∈ digits, IsDecimal c
  value : value 10 digits = ⌊Int.fract x * 10 ^ n⌋₊

/-- `x`, truncated after `n` digits. -/
def Truncates (x : ℚ) (n : ℕ) (text : List (BitVec 8)) : Prop :=
  ∃ digits, text = integerText ⌊x⌋₊ ++ point :: digits ∧ FractionDigits x n digits

section Reading
variable {x : ℚ} {n k : ℕ} {c : BitVec 8} {whole digits text : List (BitVec 8)}

theorem isDecimal_of_mem (hc : c ∈ numeral 10 n) : IsDecimal c := by
  have hall : ∀ d < 10, 48 ≤ (digitChar d).toNat ∧ (digitChar d).toNat < 58 := by decide
  rcases exists_digit (by decide) hc with ⟨d, hd, rfl⟩
  exact hall d hd

theorem IsDecimal.ne_point (hc : IsDecimal c) : c ≠ point := by
  rintro rfl
  have hlow : 48 ≤ 46 := hc.1
  omega

theorem isDecimal_of_mem_integerText (hc : c ∈ integerText n) : IsDecimal c := by
  unfold integerText at hc
  by_cases hn : n = 0
  · rw [if_pos hn] at hc
    rw [List.mem_singleton.mp hc]
    unfold IsDecimal
    decide
  · rw [if_neg hn] at hc
    exact isDecimal_of_mem hc

theorem value_integerText (n : ℕ) : value 10 (integerText n) = n := by
  unfold integerText
  by_cases hn : n = 0
  · rw [if_pos hn, hn]
    decide
  · rw [if_neg hn]
    exact value_numeral (by decide) (by decide) n

/-- The first point is the decimal point. -/
theorem readDecimal_append (hwhole : ∀ c ∈ whole, IsDecimal c) :
    readDecimal (whole ++ point :: digits) =
      value 10 whole + value 10 digits / 10 ^ digits.length := by
  have hne : ∀ c ∈ whole, decide (c ≠ point) = true := by
    intro c hc
    exact decide_eq_true (hwhole c hc).ne_point
  have htake : (whole ++ point :: digits).takeWhile (· ≠ point) = whole := by
    rw [List.takeWhile_append_of_pos hne, List.takeWhile_cons_of_neg (by simp), List.append_nil]
  have hdrop : (whole ++ point :: digits).dropWhile (· ≠ point) = point :: digits := by
    rw [List.dropWhile_append_of_pos hne, List.dropWhile_cons_of_neg (by simp)]
  unfold readDecimal
  rw [htake, hdrop, List.tail_cons]

/-- Less than one unit of the last digit is lost. -/
theorem Truncates.close (h : Truncates x n text) (hx : 0 ≤ x) :
    |x - readDecimal text| < 1 / 10 ^ n := by
  rcases h with ⟨digits, rfl, hdigits⟩
  have hpow : (0 : ℚ) < 10 ^ n := by positivity
  have hlow := Nat.floor_le (mul_nonneg (Int.fract_nonneg x) hpow.le)
  have hhigh := Nat.lt_floor_add_one (Int.fract x * 10 ^ n)
  have hparts : x = ⌊x⌋₊ + Int.fract x := by
    rw [natCast_floor_eq_intCast_floor hx]
    exact (Int.floor_add_fract x).symm
  have hread : x - readDecimal (integerText ⌊x⌋₊ ++ point :: digits) =
      (Int.fract x * 10 ^ n - ⌊Int.fract x * 10 ^ n⌋₊) / 10 ^ n := by
    rw [readDecimal_append fun c hc => isDecimal_of_mem_integerText hc, value_integerText,
      hdigits.value, hdigits.length, sub_div, mul_div_cancel_right₀ _ hpow.ne']
    linarith
  rw [hread, abs_of_nonneg (div_nonneg (sub_nonneg.mpr hlow) hpow.le)]
  exact div_lt_div_of_pos_right (by linarith) hpow

/-- A fraction of a tenth or more has all its digits in the numeral. -/
theorem fractionDigits_numeral_iff (hn : 1 ≤ n) :
    FractionDigits x n (numeral 10 ⌊Int.fract x * 10 ^ n⌋₊) ↔ 1 / 10 ≤ Int.fract x := by
  have hpow : (0 : ℚ) < 10 ^ n := by positivity
  have hfirst : (10 : ℚ) ^ n = 10 * 10 ^ (n - 1) := by
    rw [← pow_succ', Nat.sub_add_cancel hn]
  have hpow' : (0 : ℚ) < 10 ^ (n - 1) := by positivity
  have htenth : 10 ^ (n - 1) ≤ ⌊Int.fract x * 10 ^ n⌋₊ ↔ 1 / 10 ≤ Int.fract x := by
    rw [Nat.le_floor_iff (mul_nonneg (Int.fract_nonneg x) hpow.le), hfirst]
    push_cast
    constructor
    · intro hle
      by_contra hlt
      nlinarith
    · intro hle
      nlinarith
  constructor
  · intro hdigits
    have hlength := hdigits.length
    rw [← htenth, ← lt_length_numeral_iff (by decide)]
    omega
  · intro hle
    refine ⟨?_, fun c hc => isDecimal_of_mem hc, value_numeral (by decide) (by decide) _⟩
    have hlow := (lt_length_numeral_iff (r := 10) (by decide)).mpr (htenth.mpr hle)
    have hhigh : (numeral 10 ⌊Int.fract x * 10 ^ n⌋₊).length ≤ n := by
      rw [length_numeral_le_iff (by decide), Nat.floor_lt (mul_nonneg (Int.fract_nonneg x) hpow.le)]
      push_cast
      have := Int.fract_lt_one x
      nlinarith
    omega

/-- Of a fraction that is too small, a single digit is a zero. -/
theorem eq_zero_of_fractionDigits (h : FractionDigits x n digits) (hn : 1 ≤ n)
    (hvalue : ⌊Int.fract x * 10 ^ n⌋₊ = 0) (hle : digits.length ≤ 1) :
    digits = [digitChar 0] := by
  have hlength := h.length
  rcases List.length_eq_one_iff.mp (show digits.length = 1 by omega) with ⟨c, rfl⟩
  have hc := h.decimal c List.mem_cons_self
  have hdigit : value 10 [c] = digitValue c := by
    unfold value
    rw [List.foldl_cons, List.foldl_nil, Nat.mul_zero, Nat.zero_add]
  have h0 := h.value
  rw [hvalue, hdigit] at h0
  unfold digitValue at h0
  rw [if_pos hc.2] at h0
  have hnat : c.toNat = 48 := by
    have := hc.1
    omega
  rw [show c = digitChar 0 from BitVec.eq_of_toNat_eq hnat]

end Reading

end Numeral
