import Mathlib.Data.Nat.Digits.Lemmas
import Mathlib.Tactic

/-! # Numerals

Natural numbers written in a base of at most 36, most significant digit first and without
leading zeros: the digits are the characters `0` to `9`, then the capital letters. A numeral
reads back as the number (`value_numeral`).
-/

namespace Numeral

/-- The digit `d`. -/
def digitChar (d : ℕ) : BitVec 8 :=
  if d < 10 then BitVec.ofNat 8 (48 + d) else BitVec.ofNat 8 (55 + d)

/-- What a digit stands for. -/
def digitValue (c : BitVec 8) : ℕ := if c.toNat < 58 then c.toNat - 48 else c.toNat - 55

/-- The characters `0` to `9` and `A` to `Z`. -/
def IsDigit (c : BitVec 8) : Prop :=
  (48 ≤ c.toNat ∧ c.toNat < 58) ∨ (65 ≤ c.toNat ∧ c.toNat < 91)

instance (c : BitVec 8) : Decidable (IsDigit c) := inferInstanceAs (Decidable (_ ∨ _))

/-- The number `n` in base `r`; zero has no digit. -/
def numeral (r n : ℕ) : List (BitVec 8) := (Nat.digits r n).reverse.map digitChar

/-- The number digits stand for. -/
def value (r : ℕ) (text : List (BitVec 8)) : ℕ := text.foldl (fun v c => r * v + digitValue c) 0

section Digits
variable {d : ℕ}

theorem digitValue_digitChar (hd : d < 36) : digitValue (digitChar d) = d := by
  have hall : ∀ d < 36, digitValue (digitChar d) = d := by decide
  exact hall d hd

theorem isDigit_digitChar (hd : d < 36) : IsDigit (digitChar d) := by
  have hall : ∀ d < 36, IsDigit (digitChar d) := by decide
  exact hall d hd

theorem IsDigit.ne_zero {c : BitVec 8} (hc : IsDigit c) : c ≠ 0 := by
  rintro rfl
  exact absurd hc (by decide)

end Digits

section Numerals
variable {r n k : ℕ} {c : BitVec 8}

theorem numeral_zero (r : ℕ) : numeral r 0 = [] := by
  unfold numeral
  rw [Nat.digits_zero]
  rfl

/-- The last digit comes off the end. -/
theorem numeral_step (hr : 1 < r) (hn : n ≠ 0) :
    numeral r n = numeral r (n / r) ++ [digitChar (n % r)] := by
  unfold numeral
  rw [Nat.digits_def' hr (Nat.pos_of_ne_zero hn), List.reverse_cons, List.map_append]
  rfl

theorem length_numeral_le_iff (hr : 1 < r) : (numeral r n).length ≤ k ↔ n < r ^ k := by
  unfold numeral
  rw [List.length_map, List.length_reverse]
  exact Nat.digits_length_le_iff hr n

theorem lt_length_numeral_iff (hr : 1 < r) : k < (numeral r n).length ↔ r ^ k ≤ n := by
  rw [← not_le, length_numeral_le_iff hr, not_lt]

theorem length_numeral_pos (hr : 1 < r) (hn : n ≠ 0) : 0 < (numeral r n).length := by
  rw [lt_length_numeral_iff hr, Nat.pow_zero]
  exact Nat.pos_of_ne_zero hn

theorem exists_digit (hr : 1 < r) (hc : c ∈ numeral r n) : ∃ d < r, c = digitChar d := by
  unfold numeral at hc
  rcases List.mem_map.mp hc with ⟨d, hd, rfl⟩
  exact ⟨d, Nat.digits_lt_base hr (List.mem_reverse.mp hd), rfl⟩

theorem isDigit_of_mem (hr : 1 < r) (hle : r ≤ 36) (hc : c ∈ numeral r n) : IsDigit c := by
  rcases exists_digit hr hc with ⟨d, hd, rfl⟩
  exact isDigit_digitChar (by omega)

theorem digitValue_lt (hr : 1 < r) (hle : r ≤ 36) (hc : c ∈ numeral r n) : digitValue c < r := by
  rcases exists_digit hr hc with ⟨d, hd, rfl⟩
  rw [digitValue_digitChar (by omega)]
  exact hd

theorem value_append (r : ℕ) (text : List (BitVec 8)) (c : BitVec 8) :
    value r (text ++ [c]) = r * value r text + digitValue c := by
  unfold value
  rw [List.foldl_append]
  rfl

/-- A numeral reads back as its number. -/
theorem value_numeral (hr : 1 < r) (hle : r ≤ 36) (n : ℕ) : value r (numeral r n) = n := by
  induction n using Nat.strong_induction_on with
  | _ n ih =>
    by_cases hn : n = 0
    · rw [hn, numeral_zero]
      rfl
    · have hdiv : n / r < n := Nat.div_lt_self (Nat.pos_of_ne_zero hn) hr
      have hmod : n % r < r := Nat.mod_lt n (by omega)
      rw [numeral_step hr hn, value_append, ih _ hdiv, digitValue_digitChar (by omega)]
      exact Nat.div_add_mod n r

/-- There is no zero in front. -/
theorem head_numeral (hr : 1 < r) (hle : r ≤ 36) (n : ℕ) :
    (numeral r n).head? ≠ some (digitChar 0) := by
  induction n using Nat.strong_induction_on with
  | _ n ih =>
    by_cases hn : n = 0
    · rw [hn, numeral_zero]
      simp
    · rw [numeral_step hr hn]
      by_cases hlt : n < r
      · -- a single digit
        rw [Nat.div_eq_of_lt hlt, numeral_zero, Nat.mod_eq_of_lt hlt]
        intro heq
        have hdigit : digitChar n = digitChar 0 := Option.some.inj heq
        have hvalue := congrArg digitValue hdigit
        rw [digitValue_digitChar (by omega), digitValue_digitChar (by decide)] at hvalue
        exact hn hvalue
      · have hquot : n / r ≠ 0 := by
          rw [Ne, Nat.div_eq_zero_iff]
          omega
        have hpos := length_numeral_pos hr hquot
        rcases List.exists_cons_of_length_pos hpos with ⟨c, rest, hcons⟩
        have hhead := ih (n / r) (Nat.div_lt_self (Nat.pos_of_ne_zero hn) hr)
        rw [hcons] at hhead ⊢
        exact hhead

end Numerals

end Numeral
