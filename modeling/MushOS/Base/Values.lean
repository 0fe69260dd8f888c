import MushOS.Theory.Numeral
import MushOS.Base.Strings

/-! # format.c: values as strings

The functions of `format.c` that turn a value into a new string. `int_to_string` counts
the digits first and writes them from the last to the first: the string is the numeral
(`intToString_spec`), except for zero, which has no digit to write. There the only byte of
the string stays as it is, whatever it is. `number_to_string` does not ask for zero,
`float_to_string` does.

`Builds S₀ h₀ T f h P` says that `f` adds one string to `T`, of which `P` holds.
-/

namespace MushOS

open ByteMemory Attempts Numeral

/-! ## Model -/

/-- `system`. The values of the enumeration are bases, and all the code asks of a `system` is
which base it is. -/
abbrev NumberSystem := UDword

def decimal : NumberSystem := 10
def hexadecimal : NumberSystem := 16
def binary : NumberSystem := 2

/-- The characters of a literal. -/
def ascii (s : String) : List UByte := s.toList.map fun c => BitVec.ofNat 8 c.toNat

/-- Where the string literals of `format.c` are. -/
structure Literals where
  trueWord : UDword
  falseWord : UDword
  nullWord : UDword
  dot : UDword
  minus : UDword
  hexMark : UDword
  binMark : UDword
  baseMark : UDword

/-- The literals are where they are said to be, and the heap does not write there. -/
structure Literals.Placed (literals : Literals) (S : Finset Block) (h : Heap) : Prop where
  trueWord : Readable S h literals.trueWord (ascii "true")
  falseWord : Readable S h literals.falseWord (ascii "false")
  nullWord : Readable S h literals.nullWord (ascii ".null")
  dot : Readable S h literals.dot (ascii ".")
  minus : Readable S h literals.minus (ascii "-")
  hexMark : Readable S h literals.hexMark (ascii "0x")
  binMark : Readable S h literals.binMark (ascii "0b")
  baseMark : Readable S h literals.baseMark (ascii "(base %d) ")

/-- The operations of the machine on `precise`. -/
structure PreciseOps (α : Type) where
  ofDword : UDword → α
  toDword : α → UDword
  sub : α → α → α
  mul : α → α → α
  negative : α → Bool

/-- `undefined`. -/
def undefinedChar : UByte := 63

def charToString (c : UByte) : HeapM UDword := do
  let str ← ralloc 2
  setChar str 0 c
  setChar str 1 0
  return str

def constToString (str : UDword) : HeapM UDword := do
  let length ← len str
  let result ← ralloc (BitVec.ofNat 32 (length + 1))
  writes (copyChars str result 0 0 length)
  setChar result (BitVec.ofNat 32 length) 0
  return result

def atomToChar (b : UByte) (sys : NumberSystem) : UByte :=
  if sys ≥ 2 ∧ sys ≤ 10 then b + 48
  else if sys > 10 ∧ sys ≤ 36 then
    if b < 10 then b + 48 else b + 65 - 10
  else undefinedChar

/-- The loop of `int_to_string` that counts the digits. -/
def powerLoop (b : UDword) (sys : NumberSystem) : ℕ → BitVec 64 → UDword → Option UDword
  | 0, _, _ => none
  | fuel + 1, mult, power =>
    if mult ≤ b.setWidth 64 then powerLoop b sys fuel (mult * sys.setWidth 64) (power + 1)
    else some power

/-- The loop of `int_to_string` that writes them. -/
def digitLoop (result : UDword) (sys : NumberSystem) : ℕ → UDword → UDword → Mem → Option Mem
  | 0, _, _, _ => none
  | fuel + 1, integer, power, m =>
    if integer ≠ 0 then
      let power := power - 1
      digitLoop result sys fuel (integer / sys) power
        (m.write8 (result + power) (atomToChar ((integer % sys).setWidth 8) sys))
    else some m

/-- The loops of `int_to_string` end within this many turns. -/
def digitTurns : ℕ := 33

def intToString (b : UDword) (sys : NumberSystem) : HeapM UDword := do
  let power ← ended (powerLoop b sys digitTurns (sys.setWidth 64) 1)
  let result ← ralloc (power + 1)
  setChar result power 0
  let m ← ended (← reads (digitLoop result sys digitTurns b power))
  writes fun _ => m
  return result

def booleanToString (literals : Literals) (b : UByte) : HeapM UDword :=
  if b ≠ 0 then constToString literals.trueWord else constToString literals.falseWord

section Precise
variable {α : Type}

/-- `for (u_dword i = 0; i < after_comma; i++) floating *= DECIMAL;` -/
def scaleLoop (ops : PreciseOps α) : ℕ → α → α
  | 0, floating => floating
  | n + 1, floating => scaleLoop ops n (ops.mul floating (ops.ofDword decimal))

/-- The two numbers of `float_to_string`, with the point between them. -/
def joinParts (literals : Literals) (whole floating : UDword) : HeapM UDword := do
  let integer ← intToString whole decimal
  let full ← concatenate integer literals.dot
  release integer
  let part ← intToString floating decimal
  let result ← concatenate full part
  release part
  release full
  return result

def floatToString (literals : Literals) (ops : PreciseOps α) (b : α) (afterComma : UDword) :
    HeapM UDword := do
  if afterComma ≠ 0 then
    let floating := scaleLoop ops afterComma.toNat (ops.sub b (ops.ofDword (ops.toDword b)))
    let result ← joinParts literals (ops.toDword b) (ops.toDword floating)
    if ops.negative b then
      let signum ← concatenate literals.minus result
      release result
      return signum
    else return result
  else intToString (ops.toDword b) decimal

end Precise

def pointerToString (literals : Literals) (ptr : UDword) : HeapM UDword := do
  if ptr = 0 then constToString literals.nullWord
  else
    let integer ← intToString ptr hexadecimal
    let result ← concatenate literals.dot integer
    release integer
    return result

/-- `switch (sys)` of `number_to_string`; `formatBase` is `format("(base %d) ", sys)`. -/
def markNumber (formatBase : HeapM UDword) (literals : Literals) (number : UDword)
    (sys : NumberSystem) : HeapM UDword := do
  if sys = decimal then return number
  else if sys = hexadecimal then
    let result ← concatenate literals.hexMark number
    release number
    return result
  else if sys = binary then
    let result ← concatenate literals.binMark number
    release number
    return result
  else
    let base ← formatBase
    let result ← concatenate base number
    release base
    release number
    return result

/-- The body of `number_to_string`, which calls `format`. -/
def numberToStringBy (formatBase : NumberSystem → HeapM UDword) (literals : Literals) (num : UDword)
    (sys : NumberSystem) : HeapM UDword := do
  let number ← (if num = 0 then charToString (atomToChar 0 sys)
    else if num.slt 0 then intToString (-num) sys else intToString num sys)
  let result ← markNumber (formatBase sys) literals number sys
  if num.slt 0 then
    let signum ← concatenate literals.minus result
    release result
    return signum
  else return result

/-! ## What the strings read -/

/-- The bases there are digits for. -/
def IsBase (sys : NumberSystem) : Prop := 2 ≤ sys.toNat ∧ sys.toNat ≤ 36

/-- What `int_to_string` returns: for zero, any string of at most one character. -/
def IntText (r n : ℕ) (text : List UByte) : Prop :=
  (n ≠ 0 → text = numeral r n) ∧ (n = 0 → text.length ≤ 1)

def charText (c : UByte) : List UByte := if c = 0 then [] else [c]

def booleanText (b : UByte) : List UByte := if b ≠ 0 then ascii "true" else ascii "false"

def pointerText (ptr : UDword) : List UByte :=
  if ptr = 0 then ascii ".null" else ascii "." ++ numeral 16 ptr.toNat

def signText (negative : Bool) : List UByte := if negative then ascii "-" else []

/-- What stands before a number that is not decimal. -/
def baseText (sys : NumberSystem) : List UByte :=
  if sys = decimal then []
  else if sys = hexadecimal then ascii "0x"
  else if sys = binary then ascii "0b"
  else ascii "(base " ++ numeral 10 sys.toNat ++ ascii ") "

/-- The digits of a number, without its sign. -/
def digitsText (num : UDword) (sys : NumberSystem) : List UByte :=
  if num = 0 then ascii "0" else numeral sys.toNat num.toInt.natAbs

/-- A number with its sign; there is no `dword` that is `2 ^ 31`, but its digits there are. -/
def numberText (num : UDword) (sys : NumberSystem) : List UByte :=
  signText (num.slt 0) ++ (baseText sys ++ digitsText num sys)

/-- What `float_to_string` returns. -/
def FloatText {α : Type} (ops : PreciseOps α) (b : α) (afterComma : UDword) (text : List UByte) :
    Prop :=
  if afterComma ≠ 0 then
    ∃ whole part, IntText 10 (ops.toDword b).toNat whole ∧
      IntText 10 (ops.toDword (scaleLoop ops afterComma.toNat
        (ops.sub b (ops.ofDword (ops.toDword b))))).toNat part ∧
      text = signText (ops.negative b) ++ (whole ++ ascii "." ++ part)
  else IntText 10 (ops.toDword b).toNat text

/-! ## Counting and writing digits -/

/-- How many bytes `int_to_string` makes room for before the null character. -/
def room (sys : NumberSystem) (b : UDword) : ℕ := Nat.max 1 (numeral sys.toNat b.toNat).length

section Digits
variable {sys : NumberSystem} {d n k : ℕ} {b : UDword}

theorem isBase_decimal : IsBase decimal := by
  unfold IsBase
  decide

theorem isBase_hexadecimal : IsBase hexadecimal := by
  unfold IsBase
  decide

theorem isBase_binary : IsBase binary := by
  unfold IsBase
  decide

theorem IsBase.one_lt (hb : IsBase sys) : 1 < sys.toNat := hb.1

theorem atomToChar_eq (hb : IsBase sys) (hd : d < sys.toNat) :
    atomToChar (BitVec.ofNat 8 d) sys = digitChar d := by
  rcases hb with ⟨hlow, hhigh⟩
  have hnat : (BitVec.ofNat 8 d).toNat = d := toNat_ofNat_of_lt (by omega)
  have hten : (10 : UDword).toNat = 10 := rfl
  unfold atomToChar digitChar
  by_cases hsmall : sys.toNat ≤ 10
  · have hle : sys ≥ 2 ∧ sys ≤ 10 := ⟨hlow, hsmall⟩
    rw [if_pos hle, if_pos (by omega), Nat.add_comm, BitVec.ofNat_add]
    rfl
  · have hnot : ¬ (sys ≥ 2 ∧ sys ≤ 10) := fun hle => hsmall hle.2
    have hgt : sys > 10 ∧ sys ≤ 36 := ⟨Nat.lt_of_not_le hsmall, hhigh⟩
    rw [if_neg hnot, if_pos hgt]
    by_cases hd10 : d < 10
    · have hlt : BitVec.ofNat 8 d < 10 := by
        rw [BitVec.lt_def, hnat]
        exact hd10
      rw [if_pos hlt, if_pos hd10, Nat.add_comm, BitVec.ofNat_add]
      rfl
    · have hlt : ¬ BitVec.ofNat 8 d < 10 := by
        rw [BitVec.lt_def, hnat]
        exact hd10
      rw [if_neg hlt, if_neg hd10]
      bv_omega

theorem numeral_nonzero {c : UByte} (hb : IsBase sys) (hc : c ∈ numeral sys.toNat n) : c ≠ 0 :=
  (isDigit_of_mem hb.one_lt hb.2 hc).ne_zero

/-- A `u_dword` has at most 32 digits. -/
theorem length_numeral_le (hb : IsBase sys) (hn : n < 2 ^ 32) :
    (numeral sys.toNat n).length ≤ 32 := by
  rw [length_numeral_le_iff hb.one_lt]
  calc n < 2 ^ 32 := hn
    _ ≤ sys.toNat ^ 32 := Nat.pow_le_pow_left hb.1 32

theorem IntText.length_le {text : List UByte} (hb : IsBase sys) (hn : n < 2 ^ 32)
    (ht : IntText sys.toNat n text) : text.length ≤ 32 := by
  by_cases h0 : n = 0
  · have := ht.2 h0
    omega
  · rw [ht.1 h0]
    exact length_numeral_le hb hn

/-- The digits are counted: the first power of the base that is greater, and not less
than the first. -/
theorem powerLoop_eq {fuel : ℕ} (hb : IsBase sys) (hk : 0 < k) (hkn : k ≤ n)
    (hlt : b.toNat < sys.toNat ^ n) (hge : ∀ j, 0 < j → j < n → sys.toNat ^ j ≤ b.toNat)
    (hfuel : n - k < fuel) :
    powerLoop b sys fuel (BitVec.ofNat 64 (sys.toNat ^ k)) (BitVec.ofNat 32 k) =
      some (BitVec.ofNat 32 n) := by
  induction fuel generalizing k with
  | zero => omega
  | succ fuel ih =>
    have hblt := b.isLt
    have hr := hb.2
    -- the power before was not greater
    have hpow : sys.toNat ^ k ≤ 2 ^ 32 * 36 := by
      rcases Nat.exists_eq_add_of_lt hk with ⟨j, rfl⟩
      rw [Nat.zero_add, Nat.pow_succ]
      have hj : sys.toNat ^ j ≤ 2 ^ 32 := by
        rcases Nat.eq_zero_or_pos j with rfl | hj
        · rw [Nat.pow_zero]
          decide
        · have := hge j hj (by omega)
          omega
      exact Nat.mul_le_mul hj hr
    have hmult : (BitVec.ofNat 64 (sys.toNat ^ k)).toNat = sys.toNat ^ k :=
      toNat_ofNat_of_lt (by omega)
    have hwide : (b.setWidth 64).toNat = b.toNat := by
      rw [BitVec.toNat_setWidth]
      omega
    have htest : BitVec.ofNat 64 (sys.toNat ^ k) ≤ b.setWidth 64 ↔ sys.toNat ^ k ≤ b.toNat := by
      rw [BitVec.le_def, hmult, hwide]
    unfold powerLoop
    by_cases hend : k = n
    · have hstop : ¬ BitVec.ofNat 64 (sys.toNat ^ k) ≤ b.setWidth 64 := by
        rw [htest, hend]
        omega
      rw [if_neg hstop, hend]
    · have hbase : sys.setWidth 64 = BitVec.ofNat 64 sys.toNat := (BitVec.ofNat_toNat 64 sys).symm
      rw [if_pos (htest.mpr (hge k hk (by omega))), hbase, ← BitVec.ofNat_mul, ← Nat.pow_succ]
      have hnext : BitVec.ofNat 32 k + 1 = BitVec.ofNat 32 (k + 1) := by
        rw [BitVec.ofNat_add]
        rfl
      rw [hnext]
      exact ih (by omega) (by omega) (by omega)

theorem room_le (hb : IsBase sys) (b : UDword) : room sys b ≤ 32 :=
  Nat.max_le.mpr ⟨by decide, length_numeral_le hb b.isLt⟩

theorem room_zero (sys : NumberSystem) : room sys 0 = 1 := by
  unfold room
  rw [show (0 : UDword).toNat = 0 from rfl, numeral_zero]
  rfl

theorem room_of_ne_zero (hb : IsBase sys) (hne : b.toNat ≠ 0) :
    room sys b = (numeral sys.toNat b.toNat).length :=
  Nat.max_eq_right (length_numeral_pos hb.one_lt hne)

/-- `int_to_string` makes room for every digit, and for one if there is none. -/
theorem powerLoop_room (hb : IsBase sys) (b : UDword) :
    powerLoop b sys digitTurns (sys.setWidth 64) 1 = some (BitVec.ofNat 32 (room sys b)) := by
  have hle := room_le hb b
  have hlt : b.toNat < sys.toNat ^ room sys b := by
    rw [← length_numeral_le_iff hb.one_lt]
    exact Nat.le_max_right _ _
  have hge : ∀ j, 0 < j → j < room sys b → sys.toNat ^ j ≤ b.toNat := by
    intro j hj hlt
    rw [← lt_length_numeral_iff hb.one_lt]
    rcases lt_max_iff.mp hlt with hlt | hlt
    · omega
    · exact hlt
  have hfirst : powerLoop b sys digitTurns (BitVec.ofNat 64 (sys.toNat ^ 1)) (BitVec.ofNat 32 1) =
      some (BitVec.ofNat 32 (room sys b)) := by
    refine powerLoop_eq hb (by decide) (Nat.le_max_left _ _) hlt hge ?_
    unfold digitTurns
    omega
  rw [Nat.pow_one, BitVec.ofNat_toNat] at hfirst
  exact hfirst

/-- The digits are written from the last to the first. -/
theorem digitLoop_eq {result integer : UDword} {fuel : ℕ} {m : Mem} (hb : IsBase sys)
    (hk : (numeral sys.toNat integer.toNat).length = k) (hfuel : k < fuel)
    (hfit : result.toNat + k ≤ 2 ^ 32) (hle : k ≤ 32) :
    ∃ m', digitLoop result sys fuel integer (BitVec.ofNat 32 k) m = some m' ∧
      Writes (span result.toNat k) m m' ∧ ∀ i < k,
        m'.bytes (result + BitVec.ofNat 32 i) = (numeral sys.toNat integer.toNat).getD i 0 := by
  induction fuel generalizing k integer m with
  | zero => omega
  | succ fuel ih =>
    unfold digitLoop
    by_cases h0 : integer = 0
    · -- no digit is left
      have hzero : k = 0 := by
        rw [← hk, h0]
        show (numeral sys.toNat 0).length = 0
        rw [numeral_zero]
        rfl
      rw [if_neg (not_not.mpr h0)]
      refine ⟨m, rfl, Writes.refl _ m, ?_⟩
      intro i hi
      omega
    · have hne : integer.toNat ≠ 0 := by
        intro heq
        exact h0 (BitVec.eq_of_toNat_eq heq)
      have hatom : (integer % sys).setWidth 8 = BitVec.ofNat 8 (integer.toNat % sys.toNat) := by
        apply BitVec.eq_of_toNat_eq
        rw [BitVec.toNat_setWidth, BitVec.toNat_umod, BitVec.toNat_ofNat]
      have hlt := Nat.mod_lt integer.toNat (Nat.lt_trans Nat.zero_lt_one hb.one_lt)
      rw [numeral_step hb.one_lt hne, List.length_append, List.length_singleton] at hk
      rcases Nat.exists_eq_add_of_lt (show 0 < k by omega) with ⟨j, rfl⟩
      rw [Nat.zero_add] at hk hfuel hfit hle ⊢
      have hbefore : BitVec.ofNat 32 (j + 1) - 1 = BitVec.ofNat 32 j := by
        bv_omega
      rw [if_pos h0, hbefore, hatom]
      dsimp only
      rw [atomToChar_eq hb hlt]
      have hlen : (numeral sys.toNat (integer / sys).toNat).length = j := by
        rw [BitVec.toNat_udiv]
        omega
      rcases ih hlen (by omega) (by omega) (by omega) with ⟨m', heq, hw, hdigits⟩
      refine ⟨m', heq, ?_, ?_⟩
      · refine (writes_write8 _ _ ?_).trans (hw.mono ?_)
        · rw [mem_span, toNat_add_ofNat (by omega)]
          omega
        · intro a ha
          rw [mem_span] at ha ⊢
          omega
      · intro i hi
        rw [BitVec.toNat_udiv] at hlen hdigits
        rw [numeral_step hb.one_lt hne]
        by_cases hlast : i = j
        · -- the last digit was written before the others
          have hout : result + BitVec.ofNat 32 j ∉ span result.toNat j := by
            rw [mem_span, toNat_add_ofNat (by omega)]
            omega
          rw [hlast, hw.frame _ hout, Mem.write8_bytes_self,
            List.getD_append_right _ _ _ _ (by omega), hlen, Nat.sub_self]
          rfl
        · rw [hdigits i (by omega), List.getD_append _ _ _ _ (by omega)]

/-- What is in the block in the end. -/
theorem digitLoop_chars (hb : IsBase sys) (result b : UDword) (m : Mem)
    (hfit : result.toNat + (room sys b + 1) ≤ 2 ^ 32) :
    ∃ m' text, digitLoop result sys digitTurns b (BitVec.ofNat 32 (room sys b))
        (m.write8 (result + BitVec.ofNat 32 (room sys b)) 0) = some m' ∧
      Writes (span result.toNat (room sys b + 1)) m m' ∧ Chars m' result text ∧
      text.length ≤ room sys b ∧ IntText sys.toNat b.toNat text := by
  have hclosed : Writes (span result.toNat (room sys b + 1)) m
      (m.write8 (result + BitVec.ofNat 32 (room sys b)) 0) := by
    refine writes_write8 _ _ ?_
    rw [mem_span, toNat_add_ofNat (by omega)]
    omega
  by_cases h0 : b = 0
  · -- nothing is written before the null character
    subst h0
    have hloop : digitLoop result sys digitTurns 0 (BitVec.ofNat 32 (room sys 0))
        (m.write8 (result + BitVec.ofNat 32 (room sys 0)) 0) =
          some (m.write8 (result + BitVec.ofNat 32 (room sys 0)) 0) := by
      unfold digitTurns digitLoop
      rw [if_neg (not_not.mpr rfl)]
    rw [room_zero] at hloop hclosed hfit ⊢
    have hne : result ≠ result + BitVec.ofNat 32 1 := by
      bv_omega
    have hzero : result + BitVec.ofNat 32 0 = result := BitVec.add_zero result
    by_cases hbyte : m.bytes result = 0
    · refine ⟨_, [], hloop, hclosed, ⟨?_, ?_⟩, by decide, ⟨?_, ?_⟩⟩
      · intro i hi
        have hi0 : i = 0 := Nat.le_zero.mp hi
        rw [hi0, hzero, Mem.write8_bytes_ne _ _ hne]
        exact hbyte
      · intro c hc
        cases hc
      · intro hn
        exact absurd rfl hn
      · intro _
        exact Nat.zero_le _
    · refine ⟨_, [m.bytes result], hloop, hclosed, ⟨?_, ?_⟩, le_rfl, ⟨?_, ?_⟩⟩
      · intro i hi
        rcases Nat.le_one_iff_eq_zero_or_eq_one.mp hi with rfl | rfl
        · rw [hzero, Mem.write8_bytes_ne _ _ hne]
          rfl
        · rw [Mem.write8_bytes_self]
          rfl
      · intro c hc
        rw [List.mem_singleton.mp hc]
        exact hbyte
      · intro hn
        exact absurd rfl hn
      · intro _
        exact le_rfl
  · have hne : b.toNat ≠ 0 := by
      intro heq
      exact h0 (BitVec.eq_of_toNat_eq heq)
    have hroom := room_of_ne_zero hb hne
    have hle := room_le hb b
    have hloop : ∃ m', digitLoop result sys digitTurns b (BitVec.ofNat 32 (room sys b))
        (m.write8 (result + BitVec.ofNat 32 (room sys b)) 0) = some m' ∧
      Writes (span result.toNat (room sys b))
          (m.write8 (result + BitVec.ofNat 32 (room sys b)) 0) m' ∧
      ∀ i < room sys b,
        m'.bytes (result + BitVec.ofNat 32 i) = (numeral sys.toNat b.toNat).getD i 0 := by
      refine digitLoop_eq hb hroom.symm ?_ (by omega) hle
      unfold digitTurns
      omega
    rcases hloop with ⟨m', heq, hw, hdigits⟩
    refine ⟨m', numeral sys.toNat b.toNat, heq, hclosed.trans (hw.mono ?_), ⟨?_, ?_⟩, hroom.ge,
      ⟨fun _ => rfl, fun h => absurd h hne⟩⟩
    · intro a ha
      rw [mem_span] at ha ⊢
      omega
    · intro i hi
      rw [← hroom] at hi
      by_cases hlast : i = room sys b
      · have hout : result + BitVec.ofNat 32 (room sys b) ∉ span result.toNat (room sys b) := by
          rw [mem_span, toNat_add_ofNat (by omega)]
          omega
        rw [hlast, hw.frame _ hout, Mem.write8_bytes_self, List.getD_eq_default _ _ (by omega)]
      · exact hdigits i (by omega)
    · intro c hc
      exact numeral_nonzero hb hc

end Digits

/-! ## What the functions build -/

/-- `f` adds a string to `T`, of which `P` holds. -/
def Builds (S₀ : Finset Block) (h₀ : Heap) (T : List Temp) (f : HeapM UDword) (h : Heap)
    (P : List UByte → Prop) : Prop :=
  Succeeds f h fun q h' => ∃ size text, P text ∧ text.length < intRange ∧
    Holding S₀ h₀ (⟨q, size, text⟩ :: T) h'

/-- The same, where the string's block has `R` and only the failures `E` occur. -/
def BuildsIn (E : Set Fault) (R : Block → Prop) (S₀ : Finset Block) (h₀ : Heap) (T : List Temp)
    (f : HeapM UDword) (h : Heap) (P : List UByte → Prop) : Prop :=
  Yields strict E f h fun q h' => ∃ size text, R ⟨q, size⟩ ∧ P text ∧ text.length < intRange ∧
    Holding S₀ h₀ (⟨q, size, text⟩ :: T) h'

section Builds
variable {S₀ : Finset Block} {h₀ h : Heap} {T : List Temp} {x y : Temp} {p q : UDword}
  {text text' : List UByte} {P : List UByte → Prop} {literals : Literals} {sys : NumberSystem}
  {E : Set Fault} {R : Block → Prop}

theorem succeeds_ended {α : Type} (a : α) (h : Heap) :
    Yields strict E (ended (some a)) h fun b h' => b = a ∧ h' = h := Yields.pure ⟨rfl, rfl⟩

theorem BuildsIn.builds {f : HeapM UDword}
    (hf : BuildsIn {.hung allocationException} R S₀ h₀ T f h P) : Builds S₀ h₀ T f h P := by
  refine Yields.mono hf ?_
  rintro q h' ⟨size, text, -, hP, hlt, hh⟩
  exact ⟨size, text, hP, hlt, hh⟩

theorem BuildsIn.mono {P' : List UByte → Prop} {f : HeapM UDword}
    (hf : BuildsIn E R S₀ h₀ T f h P) (himp : ∀ text, P text → P' text) :
    BuildsIn E R S₀ h₀ T f h P' := by
  refine Yields.mono hf ?_
  rintro q h' ⟨size, text, hR, hP, hlt, hh⟩
  exact ⟨size, text, hR, himp text hP, hlt, hh⟩

theorem Builds.mono {P' : List UByte → Prop} {f : HeapM UDword} (hf : Builds S₀ h₀ T f h P)
    (himp : ∀ text, P text → P' text) : Builds S₀ h₀ T f h P' := by
  refine Yields.mono hf ?_
  rintro q h' ⟨size, text, hP, hlt, hh⟩
  exact ⟨size, text, himp text hP, hlt, hh⟩

/-- What `int_to_string` does with a block for the digits. -/
theorem intToString_of_allocates (hh : Holding S₀ h₀ T h) (hb : IsBase sys) (b : UDword)
    (ha : Allocates E (S₀ ∪ blocksOf T) h (room sys b + 1) R) :
    BuildsIn E R S₀ h₀ T (intToString b sys) h (IntText sys.toNat b.toNat) := by
  have hroom := room_le hb b
  have hsize : (BitVec.ofNat 32 (room sys b) + 1).toNat = room sys b + 1 := by
    bv_omega
  unfold BuildsIn intToString
  rw [powerLoop_room hb]
  refine (succeeds_ended _ h).bind ?_
  rintro _ h' ⟨rfl, hsame⟩
  rw [hsame]
  refine (ha _ hsize).bind ?_
  rintro r h₁ ⟨hR, hgot⟩
  have hfit := hgot.live.payload_lt (Finset.mem_insert_self _ _)
  dsimp only at hfit
  rw [hsize] at hfit
  -- the digits are written from the last to the first
  rcases digitLoop_chars hb r b h₁.mem (by omega) with ⟨m', text, heq, hw, hchars, hlength, htext⟩
  refine (succeeds_writes _ h₁).bind ?_
  rintro _ _ rfl
  refine (succeeds_reads _ _).bind ?_
  rintro _ h₂ ⟨rfl, hsame⟩
  rw [hsame, heq]
  refine (succeeds_ended _ _).bind ?_
  rintro _ h₃ ⟨rfl, hsame⟩
  rw [hsame]
  refine (succeeds_writes _ _).bind ?_
  rintro _ _ rfl
  refine Yields.pure ⟨_, text, hR, htext, ?_, hh.push (hgot.write ?_) hchars ?_⟩
  · unfold intRange
    omega
  · unfold Block.payload
    rw [hsize]
    exact hw
  · omega

theorem intToString_spec (hh : Holding S₀ h₀ T h) (hb : IsBase sys) (b : UDword)
    (hfirst : FirstFits (S₀ ∪ blocksOf T) h (room sys b + 1)) :
    Builds S₀ h₀ T (intToString b sys) h (IntText sys.toNat b.toNat) := by
  have hroom := room_le hb b
  exact (intToString_of_allocates hh hb b (hh.allocates hfirst (by omega))).builds

/-- What `char_to_string` does with a block of two bytes. -/
theorem charToString_of_allocates (hh : Holding S₀ h₀ T h)
    (ha : Allocates E (S₀ ∪ blocksOf T) h 2 R) (c : UByte) :
    BuildsIn E R S₀ h₀ T (charToString c) h (· = charText c) := by
  refine (ha 2 rfl).bind ?_
  rintro r h₁ ⟨hR, hgot⟩
  have hfit := hgot.live.payload_lt (Finset.mem_insert_self _ _)
  dsimp only at hfit
  rw [show (2 : UDword).toNat = 2 from rfl] at hfit
  refine (succeeds_writes _ h₁).bind ?_
  rintro _ _ rfl
  refine (succeeds_writes _ _).bind ?_
  rintro _ _ rfl
  have hzero : r + 0 = r := BitVec.add_zero r
  have hnext : (r + 1).toNat = r.toNat + 1 := by
    bv_omega
  have hne : r ≠ r + 1 := by
    intro heq
    rw [← heq] at hnext
    omega
  rw [hzero]
  have hw : Writes (Block.mk r 2).payload h₁.mem ((h₁.mem.write8 r c).write8 (r + 1) 0) := by
    show Writes (span r.toNat 2) h₁.mem _
    refine (writes_write8 _ _ ?_).trans (writes_write8 _ _ ?_)
    · rw [mem_span]
      omega
    · rw [mem_span]
      omega
  have hchars : Chars ((h₁.mem.write8 r c).write8 (r + 1) 0) r (charText c) := by
    unfold charText
    by_cases hc : c = 0
    · -- a null character ends the string at once
      rw [if_pos hc]
      refine ⟨?_, fun _ h => absurd h List.not_mem_nil⟩
      intro i hi
      rw [Nat.le_zero.mp hi]
      show ((h₁.mem.write8 r c).write8 (r + 1) 0).bytes (r + 0) = 0
      rw [hzero, Mem.write8_bytes_ne _ _ hne, Mem.write8_bytes_self, hc]
    · rw [if_neg hc]
      refine ⟨?_, fun d hd => by rw [List.mem_singleton.mp hd]; exact hc⟩
      intro i hi
      rcases Nat.le_one_iff_eq_zero_or_eq_one.mp hi with rfl | rfl
      · show ((h₁.mem.write8 r c).write8 (r + 1) 0).bytes (r + 0) = c
        rw [hzero, Mem.write8_bytes_ne _ _ hne, Mem.write8_bytes_self]
      · exact Mem.write8_bytes_self _ _ _
  have hlength : (charText c).length ≤ 1 := by
    unfold charText
    split
    · exact Nat.zero_le _
    · exact le_rfl
  refine Yields.pure ⟨2, charText c, hR, rfl, ?_, hh.push (hgot.write hw) hchars ?_⟩
  · unfold intRange
    omega
  · show (charText c).length < 2
    omega

theorem charToString_spec (hh : Holding S₀ h₀ T h) (hfirst : FirstFits (S₀ ∪ blocksOf T) h 2)
    (c : UByte) : Builds S₀ h₀ T (charToString c) h (· = charText c) :=
  (charToString_of_allocates hh (hh.allocates hfirst (by decide)) c).builds

/-- What `const_to_string` does with a block for the characters. -/
theorem constToString_of_allocates (hh : Holding S₀ h₀ T h)
    (hp : Readable (S₀ ∪ blocksOf T) h p text)
    (ha : Allocates E (S₀ ∪ blocksOf T) h (text.length + 1) R) :
    BuildsIn E R S₀ h₀ T (constToString p) h (· = text) := by
  have hlt := hp.length_lt
  unfold intRange at hlt
  have hsize : (BitVec.ofNat 32 (text.length + 1)).toNat = text.length + 1 :=
    toNat_ofNat_of_lt (by omega)
  refine (len_spec hp).bind ?_
  rintro _ h' ⟨rfl, hsame⟩
  rw [hsame]
  refine (ha _ hsize).bind ?_
  rintro r h₁ ⟨hR, hgot⟩
  refine (succeeds_writes _ h₁).bind ?_
  rintro _ _ rfl
  refine (succeeds_writes _ _).bind ?_
  rintro _ _ rfl
  have hcopy := hh.slice hp (Nat.zero_le text.length) le_rfl hsize hgot
  rw [List.drop_zero, Nat.sub_zero, List.take_length] at hcopy
  exact Yields.pure ⟨_, text, hR, rfl, hp.length_lt, hcopy⟩

theorem constToString_spec (hh : Holding S₀ h₀ T h)
    (hfirst : FirstFits (S₀ ∪ blocksOf T) h (text.length + 1))
    (hp : Readable (S₀ ∪ blocksOf T) h p text) :
    Builds S₀ h₀ T (constToString p) h (· = text) := by
  have hlt := hp.length_lt
  unfold intRange at hlt
  exact (constToString_of_allocates hh hp (hh.allocates hfirst (by omega))).builds

/-- Two strings are put together, and one that is not needed any more is released. -/
theorem concatRelease_of_allocates (hh : Holding S₀ h₀ (x :: T) h)
    (hp : Readable (S₀ ∪ blocksOf (x :: T)) h p text)
    (hq : Readable (S₀ ∪ blocksOf (x :: T)) h q text')
    (hlt : text.length + text'.length < intRange)
    (ha : Allocates E (S₀ ∪ blocksOf (x :: T)) h (text.length + text'.length + 1) R) :
    BuildsIn E R S₀ h₀ T (do
      let result ← concatenate p q
      MushOS.release x.addr
      return result) h (· = text ++ text') := by
  unfold intRange at hlt
  refine (concatenate_of_allocates hh hp hq (by omega) ha).bind ?_
  rintro r h₁ ⟨hR, hh₁⟩
  have hboth : Holding S₀ h₀
      ([⟨r, BitVec.ofNat 32 (text.length + text'.length + 1), text ++ text'⟩] ++ x :: T) h₁ := hh₁
  refine hboth.release.bind fun _ h₂ hh₂ => ?_
  refine Yields.pure ⟨_, _, hR, rfl, ?_, hh₂⟩
  rw [List.length_append]
  exact hlt

theorem booleanToString_of_allocates (hh : Holding S₀ h₀ T h) (hl : literals.Placed S₀ h₀)
    (b : UByte) (ha : Allocates E (S₀ ∪ blocksOf T) h ((booleanText b).length + 1) R) :
    BuildsIn E R S₀ h₀ T (booleanToString literals b) h (· = booleanText b) := by
  unfold booleanText at ha
  unfold booleanToString booleanText
  by_cases hb : b ≠ 0
  · rw [if_pos hb] at ha
    rw [if_pos hb, if_pos hb]
    exact constToString_of_allocates hh (hh.readable hl.trueWord) ha
  · rw [if_neg hb] at ha
    rw [if_neg hb, if_neg hb]
    exact constToString_of_allocates hh (hh.readable hl.falseWord) ha

theorem length_booleanText_le (b : UByte) : (booleanText b).length ≤ 5 := by
  unfold booleanText
  split <;> decide

theorem booleanToString_spec (hh : Holding S₀ h₀ T h) (hT : T ≠ [])
    (hl : literals.Placed S₀ h₀) (b : UByte) :
    Builds S₀ h₀ T (booleanToString literals b) h (· = booleanText b) := by
  have hle := length_booleanText_le b
  exact (booleanToString_of_allocates hh hl b
    (hh.allocates (firstFits_of_ne hT) (by omega))).builds

/-- A short string, after a literal. -/
theorem mark_of_allocates {word : UDword} {mark : List UByte} (hh : Holding S₀ h₀ (x :: T) h)
    (hl : Readable S₀ h₀ word mark) (hmark : mark.length ≤ 32) (hx : x.text.length ≤ 65)
    (ha : Allocates E (S₀ ∪ blocksOf (x :: T)) h (mark.length + x.text.length + 1) R) :
    BuildsIn E R S₀ h₀ T (do
      let result ← concatenate word x.addr
      MushOS.release x.addr
      return result) h (· = mark ++ x.text) := by
  have hlt : x.text.length < intRange := by
    unfold intRange
    omega
  refine concatRelease_of_allocates hh (hh.readable hl) (hh.temp List.mem_cons_self hlt) ?_ ha
  unfold intRange
  omega

theorem mark_spec {word : UDword} {mark : List UByte} (hh : Holding S₀ h₀ (x :: T) h)
    (hl : Readable S₀ h₀ word mark) (hmark : mark.length ≤ 32) (hx : x.text.length ≤ 65) :
    Builds S₀ h₀ T (do
      let result ← concatenate word x.addr
      MushOS.release x.addr
      return result) h (· = mark ++ x.text) :=
  (mark_of_allocates hh hl hmark hx (hh.allocates firstFits_cons (by omega))).builds

theorem pointerToString_spec (hh : Holding S₀ h₀ T h) (hT : T ≠ [])
    (hl : literals.Placed S₀ h₀) (ptr : UDword) :
    Builds S₀ h₀ T (pointerToString literals ptr) h (· = pointerText ptr) := by
  unfold pointerToString pointerText
  by_cases h0 : ptr = 0
  · rw [if_pos h0, if_pos h0]
    exact constToString_spec hh (firstFits_of_ne hT) (hh.readable hl.nullWord)
  · have hne : ptr.toNat ≠ 0 := fun heq => h0 (BitVec.eq_of_toNat_eq heq)
    rw [if_neg h0, if_neg h0]
    refine Yields.bind (intToString_spec hh isBase_hexadecimal ptr (firstFits_of_ne hT)) ?_
    rintro integer h₁ ⟨size, text, htext, -, hh₁⟩
    have hlength := htext.length_le isBase_hexadecimal ptr.isLt
    have hbuilt := mark_spec hh₁ hl.dot (by decide) (show text.length ≤ 65 by omega)
    rw [htext.1 hne] at hbuilt
    exact hbuilt

/-- The sign in front, where there is one. -/
theorem sign_of_allocates {word : UDword} (negative : Bool) (hh : Holding S₀ h₀ (x :: T) h)
    (hl : Readable S₀ h₀ word (ascii "-")) (hx : x.text.length ≤ 65) (hR : R x.block)
    (ha : Allocates E (S₀ ∪ blocksOf (x :: T)) h ((ascii "-").length + x.text.length + 1) R) :
    BuildsIn E R S₀ h₀ T (do
      if negative then
        let signum ← concatenate word x.addr
        MushOS.release x.addr
        return signum
      else return x.addr) h (· = signText negative ++ x.text) := by
  unfold signText
  cases negative with
  | false =>
    refine Yields.pure ⟨x.size, x.text, hR, rfl, ?_, hh⟩
    unfold intRange
    omega
  | true => exact mark_of_allocates hh hl (by decide) hx ha

theorem sign_spec {word : UDword} (negative : Bool) (hh : Holding S₀ h₀ (x :: T) h)
    (hl : Readable S₀ h₀ word (ascii "-")) (hx : x.text.length ≤ 65) :
    Builds S₀ h₀ T (do
      if negative then
        let signum ← concatenate word x.addr
        MushOS.release x.addr
        return signum
      else return x.addr) h (· = signText negative ++ x.text) := by
  have hlength : (ascii "-").length = 1 := by decide
  exact (sign_of_allocates negative hh hl hx trivial
    (hh.allocates firstFits_cons (by omega))).builds

/-- The digits of a number, without its sign. -/
theorem digits_of_allocates (hh : Holding S₀ h₀ T h) (hb : IsBase sys) (num : UDword)
    (ha : Allocates E (S₀ ∪ blocksOf T) h ((digitsText num sys).length + 1) R) :
    BuildsIn E R S₀ h₀ T (if num = 0 then charToString (atomToChar 0 sys)
      else if num.slt 0 then intToString (-num) sys else intToString num sys) h
      (· = digitsText num sys) := by
  unfold digitsText at ha ⊢
  by_cases h0 : num = 0
  · rw [if_pos h0] at ha ⊢
    rw [if_pos h0]
    have hzero : charText (atomToChar 0 sys) = ascii "0" := by
      rw [show (0 : UByte) = BitVec.ofNat 8 0 from rfl, atomToChar_eq hb (by have := hb.1; omega)]
      decide
    rw [← hzero]
    exact charToString_of_allocates hh ha _
  · rw [if_neg h0] at ha ⊢
    rw [if_neg h0]
    have hne : num.toNat ≠ 0 := fun heq => h0 (BitVec.eq_of_toNat_eq heq)
    have hint := BitVec.toInt_eq_toNat_cond num
    by_cases hneg : num.slt 0 = true
    · -- the digits of the opposite, also where it is not a `dword`
      have habs : (-num).toNat = num.toInt.natAbs := by
        rw [BitVec.slt_iff_toInt_lt] at hneg
        rw [show (0 : UDword).toInt = 0 from rfl] at hneg
        rw [BitVec.toNat_neg]
        have := num.isLt
        split at hint <;> omega
      have hne' : (-num).toNat ≠ 0 := by
        omega
      rw [← habs, ← room_of_ne_zero hb hne'] at ha
      rw [if_pos hneg, ← habs]
      exact (intToString_of_allocates hh hb (-num) ha).mono fun text htext => htext.1 hne'
    · have habs : num.toNat = num.toInt.natAbs := by
        rw [BitVec.slt_iff_toInt_lt] at hneg
        rw [show (0 : UDword).toInt = 0 from rfl] at hneg
        have := num.isLt
        split at hint <;> omega
      rw [← habs, ← room_of_ne_zero hb hne] at ha
      rw [if_neg hneg, ← habs]
      exact (intToString_of_allocates hh hb num ha).mono fun text htext => htext.1 hne

theorem natAbs_toInt_lt (num : UDword) : num.toInt.natAbs < 2 ^ 32 := by
  have hlt := num.toInt_lt
  have hge := num.le_toInt
  omega

theorem length_digitsText_le (hb : IsBase sys) (num : UDword) :
    (digitsText num sys).length ≤ 32 := by
  unfold digitsText
  by_cases h0 : num = 0
  · rw [if_pos h0]
    decide
  · rw [if_neg h0]
    exact length_numeral_le hb (natAbs_toInt_lt num)

theorem digits_spec (hh : Holding S₀ h₀ T h) (hb : IsBase sys) (num : UDword)
    (hfirst : FirstFits (S₀ ∪ blocksOf T) h ((digitsText num sys).length + 1)) :
    Builds S₀ h₀ T (if num = 0 then charToString (atomToChar 0 sys)
      else if num.slt 0 then intToString (-num) sys else intToString num sys) h
      (· = digitsText num sys) := by
  have hle := length_digitsText_le hb num
  exact (digits_of_allocates hh hb num (hh.allocates hfirst (by omega))).builds

theorem length_baseText_le (hb : IsBase sys) : (baseText sys).length ≤ 10 := by
  have hten : (numeral 10 sys.toNat).length ≤ 2 := by
    rw [length_numeral_le_iff (by decide)]
    have := hb.2
    omega
  unfold baseText
  split
  · decide
  split
  · decide
  split
  · decide
  · rw [List.length_append, List.length_append, show (ascii "(base ").length = 6 by decide,
      show (ascii ") ").length = 2 by decide]
    omega

/-- What the bases without a mark of their own need of `format`. -/
def FormatsBase (S₀ : Finset Block) (h₀ : Heap) (formatBase : NumberSystem → HeapM UDword)
    (sys : NumberSystem) : Prop :=
  ∀ T h, T ≠ [] → Holding S₀ h₀ T h → Builds S₀ h₀ T (formatBase sys) h (· = baseText sys)

theorem markNumber_spec {formatBase : NumberSystem → HeapM UDword} (hh : Holding S₀ h₀ (x :: T) h)
    (hl : literals.Placed S₀ h₀) (hb : IsBase sys) (hx : x.text.length ≤ 32)
    (hformat : sys ≠ decimal → sys ≠ hexadecimal → sys ≠ binary →
      FormatsBase S₀ h₀ formatBase sys) :
    Builds S₀ h₀ T (markNumber (formatBase sys) literals x.addr sys) h
      (· = baseText sys ++ x.text) := by
  have hlen := length_baseText_le hb
  unfold markNumber
  by_cases hdec : sys = decimal
  · rw [if_pos hdec]
    have hbase : baseText sys = [] := if_pos hdec
    refine Yields.pure ⟨x.size, x.text, ?_, ?_, hh⟩
    · rw [hbase]
      rfl
    · unfold intRange
      omega
  rw [if_neg hdec]
  by_cases hhex : sys = hexadecimal
  · have hbase : baseText sys = ascii "0x" := by
      unfold baseText
      rw [if_neg hdec, if_pos hhex]
    rw [if_pos hhex, hbase]
    exact mark_spec hh hl.hexMark (by decide) (by omega)
  rw [if_neg hhex]
  by_cases hbin : sys = binary
  · have hbase : baseText sys = ascii "0b" := by
      unfold baseText
      rw [if_neg hdec, if_neg hhex, if_pos hbin]
    rw [if_pos hbin, hbase]
    exact mark_spec hh hl.binMark (by decide) (by omega)
  rw [if_neg hbin]
  -- any other base is written out, in decimal, before the number
  refine Yields.bind (hformat hdec hhex hbin _ _ (List.cons_ne_nil _ _) hh) ?_
  rintro base h₁ ⟨size, text, htext, hlt, hh₁⟩
  have hlength : text.length ≤ 10 := by
    rw [htext]
    exact hlen
  have hxlt : x.text.length < intRange := by
    unfold intRange
    omega
  refine (concatenate_spec hh₁ firstFits_cons (hh₁.temp List.mem_cons_self hlt)
    (hh₁.temp (List.mem_cons_of_mem _ List.mem_cons_self) hxlt) ?_).bind fun result h₂ hh₂ => ?_
  · show text.length + x.text.length + 13 < 2 ^ 32
    omega
  have hbase :
      Holding S₀ h₀ ([⟨result, _, text ++ x.text⟩] ++ ⟨base, size, text⟩ :: x :: T) h₂ := hh₂
  refine hbase.release.bind fun _ h₃ hh₃ => ?_
  have hnumber : Holding S₀ h₀ ([⟨result, _, text ++ x.text⟩] ++ x :: T) h₃ := hh₃
  refine hnumber.release.bind fun _ h₄ hh₄ => ?_
  refine Yields.pure ⟨_, _, ?_, ?_, hh₄⟩
  · rw [htext]
  · rw [List.length_append]
    unfold intRange
    omega

theorem numberToStringBy_spec {formatBase : NumberSystem → HeapM UDword} (hh : Holding S₀ h₀ T h)
    (hl : literals.Placed S₀ h₀) (hb : IsBase sys) (num : UDword)
    (hfirst : FirstFits (S₀ ∪ blocksOf T) h ((digitsText num sys).length + 1))
    (hformat : sys ≠ decimal → sys ≠ hexadecimal → sys ≠ binary →
      FormatsBase S₀ h₀ formatBase sys) :
    Builds S₀ h₀ T (numberToStringBy formatBase literals num sys) h (· = numberText num sys) := by
  unfold numberToStringBy numberText
  refine Yields.bind (digits_spec hh hb num hfirst) ?_
  rintro number h₁ ⟨size, digits, hdigits, -, hh₁⟩
  rw [← hdigits]
  have hlength : digits.length ≤ 32 := by
    rw [hdigits]
    exact length_digitsText_le hb num
  have hmarking := markNumber_spec hh₁ hl hb hlength hformat
  refine Yields.bind hmarking ?_
  rintro result h₂ ⟨size', marked, hmarked, -, hh₂⟩
  have hmark : marked = baseText sys ++ digits := hmarked
  rw [← hmark]
  have hle : marked.length ≤ 65 := by
    have := length_baseText_le hb
    rw [hmark, List.length_append]
    omega
  have hsigned := sign_spec (num.slt 0) hh₂ hl.minus hle
  exact hsigned

theorem joinParts_spec (hh : Holding S₀ h₀ T h) (hl : literals.Placed S₀ h₀)
    (whole floating : UDword) (hfirst : FirstFits (S₀ ∪ blocksOf T) h (room decimal whole + 1)) :
    Builds S₀ h₀ T (joinParts literals whole floating) h fun text => ∃ text₁ text₂,
      IntText 10 whole.toNat text₁ ∧ IntText 10 floating.toNat text₂ ∧
        text = text₁ ++ ascii "." ++ text₂ := by
  refine Yields.bind (intToString_spec hh isBase_decimal whole hfirst) ?_
  rintro integer h₁ ⟨size₁, text₁, htext₁, hlt₁, hh₁⟩
  have hlen₁ := htext₁.length_le isBase_decimal whole.isLt
  have hdot : (ascii ".").length = 1 := by decide
  refine (concatenate_spec hh₁ firstFits_cons (hh₁.temp List.mem_cons_self hlt₁)
    (hh₁.readable hl.dot) ?_).bind fun full h₂ hh₂ => ?_
  · rw [hdot]
    show text₁.length + 1 + 13 < 2 ^ 32
    omega
  have hfull : Holding S₀ h₀ ([⟨full, _, text₁ ++ ascii "."⟩] ++ ⟨integer, size₁, text₁⟩ :: T) h₂ :=
    hh₂
  refine hfull.release.bind fun _ h₃ hh₃ => ?_
  refine Yields.bind (intToString_spec hh₃ isBase_decimal floating firstFits_cons) ?_
  rintro part h₄ ⟨size₂, text₂, htext₂, hlt₂, hh₄⟩
  have hlen₂ := htext₂.length_le isBase_decimal floating.isLt
  have hlen : (text₁ ++ ascii ".").length ≤ 33 := by
    rw [List.length_append, hdot]
    omega
  refine (concatenate_spec hh₄ firstFits_cons
    (hh₄.temp (List.mem_cons_of_mem _ List.mem_cons_self) ?_) (hh₄.temp List.mem_cons_self hlt₂)
    ?_).bind fun result h₅ hh₅ => ?_
  · show (text₁ ++ ascii ".").length < 2 ^ 31
    omega
  · show (text₁ ++ ascii ".").length + text₂.length + 13 < 2 ^ 32
    omega
  -- the part and the rest are released, in this order
  have hpart : Holding S₀ h₀ ([⟨result, _, text₁ ++ ascii "." ++ text₂⟩] ++ ⟨part, size₂, text₂⟩ ::
      ⟨full, _, text₁ ++ ascii "."⟩ :: T) h₅ := hh₅
  refine hpart.release.bind fun _ h₆ hh₆ => ?_
  have hrest : Holding S₀ h₀ ([⟨result, _, text₁ ++ ascii "." ++ text₂⟩] ++
      ⟨full, _, text₁ ++ ascii "."⟩ :: T) h₆ := hh₆
  refine hrest.release.bind fun _ h₇ hh₇ => ?_
  refine Yields.pure ⟨_, _, ⟨text₁, text₂, htext₁, htext₂, rfl⟩, ?_, hh₇⟩
  rw [List.length_append]
  unfold intRange
  omega

theorem floatToString_spec {α : Type} {ops : PreciseOps α} (hh : Holding S₀ h₀ T h)
    (hl : literals.Placed S₀ h₀) (b : α) (afterComma : UDword)
    (hfirst : FirstFits (S₀ ∪ blocksOf T) h (room decimal (ops.toDword b) + 1)) :
    Builds S₀ h₀ T (floatToString literals ops b afterComma) h (FloatText ops b afterComma) := by
  unfold floatToString FloatText
  by_cases hcomma : afterComma ≠ 0
  · rw [if_pos hcomma]
    simp only [if_pos hcomma]
    refine Yields.bind (joinParts_spec hh hl _ _ hfirst) ?_
    rintro result h₁ ⟨size, text, ⟨whole, part, hwhole, hpart, htext⟩, -, hh₁⟩
    have hwlen := hwhole.length_le isBase_decimal (BitVec.isLt _)
    have hplen := hpart.length_le isBase_decimal (BitVec.isLt _)
    have hle : text.length ≤ 65 := by
      rw [htext, List.length_append, List.length_append, show (ascii ".").length = 1 by decide]
      omega
    have hsigned := sign_spec (ops.negative b) hh₁ hl.minus hle
    refine hsigned.mono ?_
    rintro _ rfl
    exact ⟨whole, part, hwhole, hpart, congrArg _ htext⟩
  · rw [if_neg hcomma]
    simp only [if_neg hcomma]
    exact intToString_spec hh isBase_decimal _ hfirst

end Builds

end MushOS
