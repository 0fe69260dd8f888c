import MushOS.Base.Format

/-! # number_to_string: numerals that read back

What `number_to_string` returns depends on the number and the base and on nothing else, so
there is no byte in it that has not been written. It is a numeral (`IsNumeral`): sign, mark of
the base and digits without a zero in front. Reading it (`readNumber`) gives the number, so that
different numbers have different strings.
-/

namespace MushOS

open ByteMemory Attempts Numeral

/-- The number a string of `number_to_string` stands for. -/
def readNumber (sys : NumberSystem) (text : List UByte) : ℤ :=
  if text.head? = some 45 then -(value sys.toNat (text.drop (1 + (baseText sys).length)) : ℤ)
  else value sys.toNat (text.drop (baseText sys).length)

/-- The string of a number: sign, mark and digits. -/
structure IsNumeral (sys : NumberSystem) (num : UDword) (text : List UByte) : Prop where
  shape : ∃ digits, text = signText (decide (num.toInt < 0)) ++ (baseText sys ++ digits) ∧
    digits ≠ [] ∧ (∀ c ∈ digits, IsDigit c ∧ digitValue c < sys.toNat) ∧
    (num ≠ 0 → digits.head? ≠ some (digitChar 0)) ∧
    value sys.toNat digits = num.toInt.natAbs
  readsBack : readNumber sys text = num.toInt

section Numbers
variable {sys : NumberSystem} {num : UDword}

theorem slt_zero (num : UDword) : num.slt 0 = decide (num.toInt < 0) := by
  rw [Bool.eq_iff_iff, BitVec.slt_iff_toInt_lt, decide_eq_true_iff]
  rfl

theorem toInt_ne_zero (h0 : num ≠ 0) : num.toInt ≠ 0 := by
  intro heq
  exact h0 (BitVec.eq_of_toInt_eq heq)

theorem value_digitsText (hb : IsBase sys) (num : UDword) :
    value sys.toNat (digitsText num sys) = num.toInt.natAbs := by
  unfold digitsText
  by_cases h0 : num = 0
  · rw [if_pos h0, h0]
    show sys.toNat * 0 + digitValue 48 = 0
    rw [Nat.mul_zero]
    decide
  · rw [if_neg h0]
    exact value_numeral hb.one_lt hb.2 _

theorem digitsText_ne_nil (hb : IsBase sys) (num : UDword) : digitsText num sys ≠ [] := by
  unfold digitsText
  by_cases h0 : num = 0
  · rw [if_pos h0]
    decide
  · rw [if_neg h0]
    exact List.ne_nil_of_length_pos
      (length_numeral_pos hb.one_lt (Int.natAbs_ne_zero.mpr (toInt_ne_zero h0)))

theorem digitsText_digits (hb : IsBase sys) {c : UByte} (hc : c ∈ digitsText num sys) :
    IsDigit c ∧ digitValue c < sys.toNat := by
  unfold digitsText at hc
  by_cases h0 : num = 0
  · rw [if_pos h0] at hc
    have hzero : c = 48 := List.mem_singleton.mp hc
    have hlow := hb.1
    rw [hzero, show digitValue 48 = 0 by decide]
    exact ⟨by decide, by omega⟩
  · rw [if_neg h0] at hc
    exact ⟨isDigit_of_mem hb.one_lt hb.2 hc, digitValue_lt hb.one_lt hb.2 hc⟩

/-- A number that is not negative does not begin with a sign. -/
theorem head_unsigned (hb : IsBase sys) (num : UDword) :
    (baseText sys ++ digitsText num sys).head? ≠ some 45 := by
  unfold baseText
  split
  · -- decimal: the first character is a digit
    rcases List.exists_cons_of_ne_nil (digitsText_ne_nil hb num) with ⟨c, rest, hcons⟩
    have hmem : c ∈ digitsText num sys := by
      rw [hcons]
      exact List.mem_cons_self
    have hdigit := (digitsText_digits hb hmem).1
    rw [hcons]
    intro heq
    rw [List.nil_append, List.head?_cons] at heq
    rw [Option.some.inj heq] at hdigit
    exact absurd hdigit (by decide)
  split
  · show some (48 : UByte) ≠ some 45
    decide
  split
  · show some (48 : UByte) ≠ some 45
    decide
  · show some (40 : UByte) ≠ some 45
    decide

theorem readNumber_numberText (hb : IsBase sys) (num : UDword) :
    readNumber sys (numberText num sys) = num.toInt := by
  have hvalue := value_digitsText hb num
  unfold numberText signText
  rw [slt_zero]
  by_cases hneg : num.toInt < 0
  · rw [decide_eq_true hneg]
    have hhead : (ascii "-" ++ (baseText sys ++ digitsText num sys)).head? = some 45 := rfl
    have hdrop : (ascii "-" ++ (baseText sys ++ digitsText num sys)).drop
        (1 + (baseText sys).length) = digitsText num sys := by
      rw [Nat.add_comm]
      show (baseText sys ++ digitsText num sys).drop (baseText sys).length = _
      exact List.drop_left
    unfold readNumber
    rw [if_pos rfl, if_pos hhead, hdrop, hvalue]
    omega
  · rw [decide_eq_false hneg]
    rw [if_neg Bool.false_ne_true, List.nil_append]
    unfold readNumber
    rw [if_neg (head_unsigned hb num), List.drop_left, hvalue]
    omega

theorem isNumeral_numberText (hb : IsBase sys) (num : UDword) :
    IsNumeral sys num (numberText num sys) := by
  refine ⟨⟨digitsText num sys, ?_, digitsText_ne_nil hb num, fun c hc => digitsText_digits hb hc,
    ?_, value_digitsText hb num⟩, readNumber_numberText hb num⟩
  · rw [← slt_zero]
    rfl
  · intro h0
    unfold digitsText
    rw [if_neg h0]
    exact head_numeral hb.one_lt hb.2 _

end Numbers

/-- **`number_to_string` is a faithful numeral.** -/
theorem numberToString_faithful {env : FormatEnv} {S : Finset Block} {h : Heap} {sys : NumberSystem}
    (hl : Live h S) (hliterals : env.literals.Placed S h) (hb : IsBase sys) (num : UDword)
    (hfirst : FirstFits S h ((digitsText num sys).length + 1)) :
    Succeeds (numberToString env num sys) h fun q h' =>
      Chars h'.mem q (numberText num sys) ∧ IsNumeral sys num (numberText num sys) ∧
        ∀ num', numberText num' sys = numberText num sys → num' = num := by
  have hfirst' : FirstFits (S ∪ blocksOf []) h ((digitsText num sys).length + 1) := by
    show FirstFits (S ∪ ∅) h _
    rw [Finset.union_empty]
    exact hfirst
  refine Yields.mono (numberToString_spec (Holding.start hl) hliterals hb num hfirst') ?_
  rintro q h' ⟨size, text, rfl, -, hh⟩
  refine ⟨(hh.strings _ List.mem_cons_self).1, isNumeral_numberText hb num, ?_⟩
  intro num' heq
  have hread := congrArg (readNumber sys) heq
  rw [readNumber_numberText hb, readNumber_numberText hb] at hread
  exact BitVec.eq_of_toInt_eq hread

/-- No allocation of this call fails. -/
theorem numberToString_returns :
    ((numberToString callEnv (-10) hexadecimal).run (strict rodataHeap)).isOk = true := by
  decide +kernel

/-- A negative number: the sign stands before the mark of the base. -/
theorem numberToString_hexadecimal : ∃ q h',
    (numberToString callEnv (-10) hexadecimal).run rodataHeap = .ok (q, h') ∧
      Chars h'.mem q (ascii "-0xA") := by
  have hfirst : FirstFits ∅ rodataHeap ((digitsText (-10) hexadecimal).length + 1) := by
    intro _
    decide +kernel
  have htext : numberText (-10) hexadecimal = ascii "-0xA" := by decide
  have hliterals : callEnv.literals.Placed ∅ rodataHeap := rodataLiterals_placed
  have hcall := numberToString_faithful rodataHeap_live hliterals isBase_hexadecimal (-10) hfirst
  rcases hcall.returns_of_isOk numberToString_returns with ⟨q, h', hrun, hchars, -⟩
  rw [htext] at hchars
  exact ⟨q, h', hrun, hchars⟩

end MushOS
