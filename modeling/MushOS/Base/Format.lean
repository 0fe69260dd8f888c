import MushOS.Theory.Template
import MushOS.Base.Values
import MushOS.Base.Vararg

/-! # format.c: format

`format` goes through the template once. What is between two specifiers is copied in one
piece, from `printed` on; an argument is taken where a specifier says so. A mark without a
specifier takes both indices back: the mark is printed with what follows.

The specification does not know of indices. `Template.pieces` takes the template apart, and
`Template.Fills` says what it reads with the arguments, of which each specifier
has words of its own (`Renders`).
-/

namespace MushOS

open ByteMemory Attempts WordStack Template Numeral

/-! ## Model -/

/-- The cases of the `switch` in `format`. -/
inductive Specifier where
  | logical
  | pointer
  | decimal
  | hexadecimal
  | binary
  | float
  | character
  | text
deriving DecidableEq, Repr

/-- The labels of the cases. -/
def specifier (c : UByte) : Option Specifier :=
  if c = 108 then some .logical
  else if c = 112 then some .pointer
  else if c = 100 then some .decimal
  else if c = 104 then some .hexadecimal
  else if c = 98 then some .binary
  else if c = 102 then some .float
  else if c = 99 then some .character
  else if c = 115 then some .text
  else none

/-- `'%'`. -/
def percent : UByte := 37

/-- What a function has besides its named arguments: the literals, the arithmetic of the
machine and the stack; `ret` is the return address of the calls it makes. -/
structure FormatEnv where
  literals : Literals
  ops : PreciseOps (BitVec 64)
  ebp : UDword
  stack : Stack
  ret : UDword

/-- In the callee of `format(template, ...)`. -/
def FormatEnv.call (env : FormatEnv) (template : UDword) (args : List UDword) : FormatEnv :=
  let stack := env.stack.pushAll (env.ebp :: env.ret :: template :: args)
  { env with stack := stack, ebp := stack.top }

/-- `sizeof` of the type a case takes its argument as. -/
def Specifier.sizeof : Specifier → UDword
  | .logical => 1
  | .pointer => 4
  | .decimal => 4
  | .hexadecimal => 4
  | .binary => 4
  | .float => 8
  | .character => 1
  | .text => 4

/-- The argument of a case as a string; `number` is `number_to_string`. -/
def argumentToString (number : UDword → NumberSystem → HeapM UDword) (env : FormatEnv)
    (argumentor : UDword) : Specifier → HeapM UDword
  | .logical => booleanToString env.literals (getByteArg env.ebp argumentor env.stack)
  | .pointer => pointerToString env.literals (getArg env.ebp argumentor env.stack)
  | .decimal => number (getArg env.ebp argumentor env.stack) decimal
  | .hexadecimal => number (getArg env.ebp argumentor env.stack) hexadecimal
  | .binary => number (getArg env.ebp argumentor env.stack) binary
  | .float => floatToString env.literals env.ops (getQwordArg env.ebp argumentor env.stack) 4
  | .character => charToString (getByteArg env.ebp argumentor env.stack)
  | .text => constToString (getArg env.ebp argumentor env.stack)

def freeConcat (string1 string2 : UDword) : HeapM UDword := do
  let result ← concatenate string1 string2
  release string1
  release string2
  return result

/-- `str[i]`. -/
def charAt (str : UDword) (i : ℕ) : HeapM UByte := reads (·.read8 (str + BitVec.ofNat 32 i))

/-- The loop of `format`: the result, and how far the template is printed. -/
def formatLoop (number : UDword → NumberSystem → HeapM UDword) (env : FormatEnv)
    (template : UDword) :
    ℕ → UDword → UDword → ℕ → ℕ → HeapM (UDword × ℕ)
  | 0, _, _, _, _ => throw .endless
  | fuel + 1, result, argumentor, printed, j => do
    if j < (← len template) then
      if (← charAt template j) = percent then
        let result ← freeConcat result (← substringMid template printed j)
        let printed := j + 2
        let j := j + 1
        match specifier (← charAt template j) with
        | some v =>
          let result ← freeConcat result (← argumentToString number env argumentor v)
          formatLoop number env template fuel result (nextVararg argumentor v.sizeof)
              printed (j + 1)
        | none =>
          let j := j - 1
          let printed := printed - 2
          formatLoop number env template fuel result argumentor printed (j + 1)
      else formatLoop number env template fuel result argumentor printed (j + 1)
    else return (result, printed)

/-- The body of `format`, which calls `number_to_string`. -/
def formatBy (number : UDword → NumberSystem → HeapM UDword) (env : FormatEnv) (template : UDword) :
    HeapM UDword := do
  let result ← zalloc 1
  let argumentor := initVararg 4
  let (result, printed) ← formatLoop number env template intRange result argumentor 0 0
  freeConcat result (← substringBeg template printed)

/-- `number_to_string` and `format` call each other, here up to a depth. -/
def numberToStringAt : ℕ → FormatEnv → UDword → NumberSystem → HeapM UDword
  | 0, _, _, _ => throw .endless
  | depth + 1, env, num, sys =>
    numberToStringBy (fun sys =>
      let callee := env.call env.literals.baseMark [sys]
      formatBy (numberToStringAt depth callee) callee env.literals.baseMark) env.literals num sys

/-- `format` asks for three bases only, which need no template. -/
def callDepth : ℕ := 2

def numberToString (env : FormatEnv) (num : UDword) (sys : NumberSystem) : HeapM UDword :=
  numberToStringAt callDepth env num sys

def format (env : FormatEnv) (template : UDword) : HeapM UDword :=
  formatBy (numberToString env) env template

/-! ## Specification -/

/-- The words of an argument. -/
inductive Accepts (S : Finset Block) (h : Heap) : Specifier → List UDword → Prop where
  | word {v : Specifier} (w : UDword) (hv : v ≠ .float ∧ v ≠ .text) : Accepts S h v [w]
  | float (low high : UDword) : Accepts S h .float [low, high]
  | text {p : UDword} {text : List UByte} (hp : Readable S h p text) : Accepts S h .text [p]

/-- What an argument reads, given its words. -/
inductive Renders (ops : PreciseOps (BitVec 64)) (m : Mem) :
    Specifier → List UDword → List UByte → Prop where
  | logical (w : UDword) : Renders ops m .logical [w] (booleanText (w.setWidth 8))
  | pointer (w : UDword) : Renders ops m .pointer [w] (pointerText w)
  | decimal (w : UDword) : Renders ops m .decimal [w] (numberText w MushOS.decimal)
  | hexadecimal (w : UDword) : Renders ops m .hexadecimal [w] (numberText w MushOS.hexadecimal)
  | binary (w : UDword) : Renders ops m .binary [w] (numberText w MushOS.binary)
  | float {low high : UDword} {text : List UByte} (hf : FloatText ops (high ++ low) 4 text) :
      Renders ops m .float [low, high] text
  | character (w : UDword) : Renders ops m .character [w] (charText (w.setWidth 8))
  | text {p : UDword} {text : List UByte} (hp : Chars m p text) : Renders ops m .text [p] text

/-- The pieces of a template. -/
def formatPieces (text : List UByte) : List (Piece UByte Specifier) := pieces percent specifier text

/-- The frame of a call: below the saved frame pointer and the return address the template,
and below it the other arguments. -/
structure Called (env : FormatEnv) (template : UDword) (args : List UDword) : Prop where
  frame : ∃ s saved ret, env.stack = Stack.pushAll s (saved :: ret :: template :: args)
  ebp : env.ebp = env.stack.top
  fits : 4 * (args.length + 3) ≤ 2 ^ 32

/-- `number` writes the numbers of the three bases `format` asks for. -/
def WritesNumbers (S₀ : Finset Block) (h₀ : Heap) (number : UDword → NumberSystem → HeapM UDword) :
    Prop :=
  ∀ T h num sys, T ≠ [] → Holding S₀ h₀ T h → sys = decimal ∨ sys = hexadecimal ∨ sys = binary →
    Builds S₀ h₀ T (number num sys) h (· = numberText num sys)

/-! ## One argument -/

section Arguments
variable {S₀ : Finset Block} {h₀ h : Heap} {T : List Temp} {x y : Temp} {env : FormatEnv}
  {template a b : UDword} {args before w rest : List UDword} {v : Specifier}
  {number : UDword → NumberSystem → HeapM UDword} {E : Set Fault}

/-- The offset of the argument that follows `before`. -/
def offsetAfter (before : List UDword) : UDword := 4 * BitVec.ofNat 32 (before.length + 1)

theorem Called.getArg (hc : Called env template args) {k : ℕ} (hk : k < args.length) :
    MushOS.getArg env.ebp (4 * BitVec.ofNat 32 (k + 1)) env.stack = args[k] := by
  rcases hc.frame with ⟨s, saved, ret, hstack⟩
  have hfits := hc.fits
  rw [hc.ebp, hstack]
  exact getArg_frame hk (by omega)

/-- The first word of the argument. -/
theorem Called.getArg_offset (hc : Called env template (before ++ a :: rest)) :
    MushOS.getArg env.ebp (offsetAfter before) env.stack = a := by
  have hget := hc.getArg (k := before.length) (by simp)
  rw [List.getElem_append_right le_rfl] at hget
  unfold offsetAfter
  simpa using hget

/-- The second one. -/
theorem Called.getArg_offset_add (hc : Called env template (before ++ a :: b :: rest)) :
    MushOS.getArg env.ebp (offsetAfter before + 4) env.stack = b := by
  have hget := hc.getArg (k := before.length + 1) (by simp)
  have hoffset : offsetAfter before + 4 = 4 * BitVec.ofNat 32 (before.length + 1 + 1) := by
    unfold offsetAfter
    bv_omega
  rw [List.getElem_append_right (Nat.le_succ _)] at hget
  rw [hoffset]
  simpa using hget

/-- `get_vararg` goes to the next argument. -/
theorem nextVararg_offsetAfter (ha : Accepts S₀ h₀ v w) :
    nextVararg (offsetAfter before) v.sizeof = offsetAfter (before ++ w) := by
  have hnext : nextVararg (offsetAfter before) v.sizeof =
      offsetAfter before + BitVec.ofNat 32 (4 * w.length) := by
    unfold nextVararg
    congr 1
    cases ha with
    | word a hv => cases v <;> first | rfl | simp at hv
    | float low high => rfl
    | text hp => rfl
  rw [hnext]
  unfold offsetAfter
  rw [List.length_append]
  bv_omega

theorem argumentToString_spec (hh : Holding S₀ h₀ T h) (hT : T ≠ [])
    (hl : env.literals.Placed S₀ h₀) (hn : WritesNumbers S₀ h₀ number)
    (hc : Called env template (before ++ w ++ rest)) (ha : Accepts S₀ h₀ v w) :
    Builds S₀ h₀ T (argumentToString number env (offsetAfter before) v) h
      (Renders env.ops h₀.mem v w) := by
  cases ha with
  | word a hv =>
    -- every verb but `%f` and `%s` reads one word
    rw [List.append_assoc, List.singleton_append] at hc
    have hword := hc.getArg_offset
    cases v with
    | logical =>
      unfold argumentToString getByteArg
      rw [hword]
      refine (booleanToString_spec hh hT hl _).mono ?_
      rintro _ rfl
      exact Renders.logical a
    | pointer =>
      unfold argumentToString
      rw [hword]
      refine (pointerToString_spec hh hT hl _).mono ?_
      rintro _ rfl
      exact Renders.pointer a
    | decimal =>
      unfold argumentToString
      rw [hword]
      refine (hn T h a _ hT hh (Or.inl rfl)).mono ?_
      rintro _ rfl
      exact Renders.decimal a
    | hexadecimal =>
      unfold argumentToString
      rw [hword]
      refine (hn T h a _ hT hh (Or.inr (Or.inl rfl))).mono ?_
      rintro _ rfl
      exact Renders.hexadecimal a
    | binary =>
      unfold argumentToString
      rw [hword]
      refine (hn T h a _ hT hh (Or.inr (Or.inr rfl))).mono ?_
      rintro _ rfl
      exact Renders.binary a
    | float => exact absurd rfl hv.1
    | character =>
      unfold argumentToString getByteArg
      rw [hword]
      refine (charToString_spec hh (firstFits_of_ne hT) _).mono ?_
      rintro _ rfl
      exact Renders.character a
    | text => exact absurd rfl hv.2
  | float low high =>
    rw [List.append_assoc] at hc
    have hlow := hc.getArg_offset
    have hhigh := hc.getArg_offset_add
    unfold argumentToString getQwordArg
    rw [hlow, hhigh]
    exact (floatToString_spec hh hl _ _ (firstFits_of_ne hT)).mono fun _ => Renders.float
  | text hp =>
    rw [List.append_assoc, List.singleton_append] at hc
    have hword := hc.getArg_offset
    unfold argumentToString
    rw [hword]
    refine (constToString_spec hh (firstFits_of_ne hT) (hh.readable hp)).mono ?_
    rintro _ rfl
    exact Renders.text hp.chars

/-- Both strings are released, once there is a block for what they read together. -/
theorem freeConcat_of_allocates {R : Block → Prop} (hh : Holding S₀ h₀ (y :: x :: T) h)
    (hx : x.text.length < intRange) (hy : y.text.length < intRange)
    (ha : Allocates E (S₀ ∪ blocksOf (y :: x :: T)) h ((x.text ++ y.text).length + 1) R) :
    Yields strict E (freeConcat x.addr y.addr) h fun r h' =>
      (x.text ++ y.text).length < intRange ∧
        R ⟨r, BitVec.ofNat 32 ((x.text ++ y.text).length + 1)⟩ ∧ Holding S₀ h₀
        (⟨r, BitVec.ofNat 32 ((x.text ++ y.text).length + 1), x.text ++ y.text⟩ :: T) h' := by
  have hxmem : x ∈ y :: x :: T := List.mem_cons_of_mem _ List.mem_cons_self
  have hymem : y ∈ y :: x :: T := List.mem_cons_self
  have hxfits := (hh.strings x hxmem).2
  have hyfits := (hh.strings y hymem).2
  have hne := hh.ne_of_cons
  have hpair := hh.pair hxmem hymem hne
  rw [List.length_append] at ha
  refine (concatenate_of_allocates hh (hh.temp hxmem hx) (hh.temp hymem hy) (by omega)
    ha).bind fun r h₁ hr => ?_
  rcases hr with ⟨hR, hh₁⟩
  rw [← List.length_append] at hh₁ hR
  -- three blocks are there now, so the new string is not too long for an `int`
  have hsize : (BitVec.ofNat 32 ((x.text ++ y.text).length + 1)).toNat =
      (x.text ++ y.text).length + 1 := by
    rw [List.length_append]
    exact toNat_ofNat_of_lt (by omega)
  have hnodup := hh₁.nodup
  rw [List.map_cons, List.nodup_cons] at hnodup
  have hrx : r ≠ x.addr := fun heq => hnodup.1 (List.mem_map.mpr ⟨x, hxmem, heq.symm⟩)
  have hry : r ≠ y.addr := fun heq => hnodup.1 (List.mem_map.mpr ⟨y, hymem, heq.symm⟩)
  have htriple := hh₁.triple List.mem_cons_self (List.mem_cons_of_mem _ hxmem)
    (List.mem_cons_of_mem _ hymem) hrx hry hne
  dsimp only at htriple
  rw [hsize] at htriple
  rw [List.length_append] at htriple
  have hfirst : Holding S₀ h₀ ([⟨r, _, x.text ++ y.text⟩, y] ++ x :: T) h₁ := hh₁
  refine hfirst.release.bind fun _ h₂ hh₂ => ?_
  have hsecond : Holding S₀ h₀ ([⟨r, _, x.text ++ y.text⟩] ++ y :: T) h₂ := hh₂
  refine hsecond.release.bind fun _ h₃ hh₃ => ?_
  refine Yields.pure ⟨?_, hR, hh₃⟩
  rw [List.length_append]
  unfold intRange
  omega

theorem freeConcat_spec (hh : Holding S₀ h₀ (y :: x :: T) h) (hx : x.text.length < intRange)
    (hy : y.text.length < intRange) :
    Succeeds (freeConcat x.addr y.addr) h fun r h' =>
      (x.text ++ y.text).length < intRange ∧ Holding S₀ h₀
        (⟨r, BitVec.ofNat 32 ((x.text ++ y.text).length + 1), x.text ++ y.text⟩ :: T) h' := by
  have hxmem : x ∈ y :: x :: T := List.mem_cons_of_mem _ List.mem_cons_self
  have hpair := hh.pair hxmem List.mem_cons_self hh.ne_of_cons
  have hxfits := (hh.strings x hxmem).2
  have hyfits := (hh.strings y List.mem_cons_self).2
  refine (freeConcat_of_allocates hh hx hy (hh.allocates firstFits_cons ?_)).mono ?_
  · rw [List.length_append]
    omega
  · rintro r h' ⟨hlt, -, hh'⟩
    exact ⟨hlt, hh'⟩

end Arguments

/-! ## The loop -/

/-- The loop of `format` is at `j`: `acc` is put together, and the arguments that the rest of
the template needs are there. -/
structure Scan (S₀ : Finset Block) (h₀ : Heap) (text : List UByte) (args : List UDword)
    (result argumentor : UDword) (printed j : ℕ) (acc : List UByte) (rest : List UDword)
    (h : Heap) : Prop where
  holding : Holding S₀ h₀ [⟨result, BitVec.ofNat 32 (acc.length + 1), acc⟩] h
  length_lt : acc.length < intRange
  printed_le : printed ≤ j
  inside : j ≤ text.length
  argument : ∃ before, args = before ++ rest ∧ argumentor = offsetAfter before
  supplies : Supplies (Accepts S₀ h₀) (formatPieces (text.drop j)) rest

/-- What the loop returns: with what is not printed yet, the result reads what it has read
and what the rest of the template reads. -/
def Scanned (S₀ : Finset Block) (h₀ : Heap) (ops : PreciseOps (BitVec 64)) (text acc : List UByte)
    (printed j : ℕ) (rest : List UDword) (r : UDword × ℕ) (h : Heap) : Prop :=
  ∃ acc' out, Holding S₀ h₀ [⟨r.1, BitVec.ofNat 32 (acc'.length + 1), acc'⟩] h ∧
    acc'.length < intRange ∧ r.2 ≤ text.length ∧
    Fills (Renders ops h₀.mem) (formatPieces (text.drop j)) rest out ∧
    acc' ++ text.drop r.2 = acc ++ (text.drop printed).take (j - printed) ++ out

section Loop
variable {S₀ S : Finset Block} {h₀ h h' : Heap} {env : FormatEnv}
  {template p result argumentor : UDword}
  {text acc out piece : List UByte} {args rest w : List UDword} {printed j i : ℕ} {v : Specifier}
  {r : UDword × ℕ} {number : UDword → NumberSystem → HeapM UDword} {E : Set Fault}

theorem charAt_spec (hp : Readable S h p text) (hi : i ≤ text.length) :
    Yields strict E (charAt p i) h fun c h' => c = text.getD i 0 ∧ h' = h := by
  refine (succeeds_reads _ h).mono ?_
  rintro c h' ⟨rfl, hsame⟩
  exact ⟨hp.chars.bytes i hi, hsame⟩

theorem getD_of_lt (hj : j < text.length) : text.getD j 0 = text[j] := List.getD_eq_getElem _ _ hj

/-- One more character, of those that are not printed yet. -/
theorem take_succ_drop (hle : printed ≤ j) (hj : j < text.length) :
    (text.drop printed).take (j + 1 - printed) =
      (text.drop printed).take (j - printed) ++ [text[j]] := by
  have hsucc : j + 1 - printed = j - printed + 1 := by omega
  rw [hsucc, List.take_add_one, List.getElem?_drop, show printed + (j - printed) = j by omega,
    List.getElem?_eq_getElem hj]
  rfl

theorem formatPieces_char (hj : j < text.length) (hc : text[j] ≠ percent) :
    formatPieces (text.drop j) = .char text[j] :: formatPieces (text.drop (j + 1)) := by
  unfold formatPieces
  rw [List.drop_eq_getElem_cons hj, pieces_char hc]

/-- A mark that no specifier follows, or nothing at all. -/
theorem formatPieces_mark (hj : j < text.length) (hc : text[j] = percent)
    (hv : specifier (text.getD (j + 1) 0) = none) :
    formatPieces (text.drop j) = .char text[j] :: formatPieces (text.drop (j + 1)) := by
  have hrest : (text.drop (j + 1)).head?.bind specifier = none := by
    rw [List.head?_drop]
    by_cases hnext : j + 1 < text.length
    · rw [getD_of_lt hnext] at hv
      rw [List.getElem?_eq_getElem hnext]
      exact hv
    · rw [List.getElem?_eq_none (Nat.le_of_not_lt hnext)]
      rfl
  unfold formatPieces
  rw [List.drop_eq_getElem_cons hj, hc, pieces_mark hrest]

theorem formatPieces_conversion (hj : j < text.length) (hc : text[j] = percent)
    (hv : specifier (text.getD (j + 1) 0) = some v) :
    j + 1 < text.length ∧
      formatPieces (text.drop j) = .conversion v :: formatPieces (text.drop (j + 2)) := by
  by_cases hnext : j + 1 < text.length
  · rw [getD_of_lt hnext] at hv
    refine ⟨hnext, ?_⟩
    unfold formatPieces
    rw [List.drop_eq_getElem_cons hj, List.drop_eq_getElem_cons hnext, hc, pieces_conversion hv]
  · -- the null character is no specifier
    rw [List.getD_eq_default _ _ (Nat.le_of_not_lt hnext)] at hv
    cases hv

/-- A character is passed. -/
theorem Scan.char (hs : Scan S₀ h₀ text args result argumentor printed j acc rest h)
    (hj : j < text.length)
    (hpieces : formatPieces (text.drop j) = .char text[j] :: formatPieces (text.drop (j + 1))) :
    Supplies (Accepts S₀ h₀) (formatPieces (text.drop (j + 1))) rest := by
  have hsupplies := hs.supplies
  rw [hpieces] at hsupplies
  cases hsupplies with
  | char c hrest => exact hrest

/-- A specifier takes an argument. -/
theorem Scan.conversion (hs : Scan S₀ h₀ text args result argumentor printed j acc rest h)
    (hpieces : formatPieces (text.drop j) = .conversion v :: formatPieces (text.drop (j + 2))) :
    ∃ w rest', rest = w ++ rest' ∧ Accepts S₀ h₀ v w ∧
      Supplies (Accepts S₀ h₀) (formatPieces (text.drop (j + 2))) rest' := by
  have hsupplies := hs.supplies
  rw [hpieces] at hsupplies
  cases hsupplies with
  | conversion hw hrest => exact ⟨_, _, rfl, hw, hrest⟩

theorem Scanned.char {ops : PreciseOps (BitVec 64)}
    (hs : Scanned S₀ h₀ ops text acc printed (j + 1) rest r h)
    (hle : printed ≤ j) (hj : j < text.length)
    (hpieces : formatPieces (text.drop j) = .char text[j] :: formatPieces (text.drop (j + 1))) :
    Scanned S₀ h₀ ops text acc printed j rest r h := by
  rcases hs with ⟨acc', out, hh, hlt, hin, hfills, htext⟩
  refine ⟨acc', text[j] :: out, hh, hlt, hin, ?_, ?_⟩
  · rw [hpieces]
    exact Fills.char _ hfills
  · rw [htext, take_succ_drop hle hj]
    simp

/-- The mark is printed with what follows. -/
theorem Scanned.mark {ops : PreciseOps (BitVec 64)} (hj : j < text.length)
    (hs : Scanned S₀ h₀ ops text (acc ++ (text.drop printed).take (j - printed)) j (j + 1) rest r h)
    (hpieces : formatPieces (text.drop j) = .char text[j] :: formatPieces (text.drop (j + 1))) :
    Scanned S₀ h₀ ops text acc printed j rest r h := by
  rcases hs.char le_rfl hj hpieces with ⟨acc', out, hh, hlt, hin, hfills, htext⟩
  refine ⟨acc', out, hh, hlt, hin, hfills, ?_⟩
  rw [htext, Nat.sub_self, List.take_zero, List.append_nil]

theorem Scanned.conversion {ops : PreciseOps (BitVec 64)} (hw : Renders ops h₀.mem v w piece)
    (hs : Scanned S₀ h₀ ops text (acc ++ (text.drop printed).take (j - printed) ++ piece)
      (j + 2) (j + 2) rest r h)
    (hpieces : formatPieces (text.drop j) = .conversion v :: formatPieces (text.drop (j + 2))) :
    Scanned S₀ h₀ ops text acc printed j (w ++ rest) r h := by
  rcases hs with ⟨acc', out, hh, hlt, hin, hfills, htext⟩
  refine ⟨acc', piece ++ out, hh, hlt, hin, ?_, ?_⟩
  · rw [hpieces]
    exact Fills.conversion hw hfills
  · rw [htext, Nat.sub_self, List.take_zero, List.append_nil, List.append_assoc]

/-- The piece of the template before a mark is printed, and it goes on with `g`. -/
theorem Scan.print {α : Type} {g : UDword → HeapM α} {Q : α → Heap → Prop}
    (hs : Scan S₀ h₀ text args result argumentor printed j acc rest h) (hp : Readable S₀ h₀ p text)
    (hg : ∀ r h', (acc ++ (text.drop printed).take (j - printed)).length < intRange →
      Holding S₀ h₀
        [⟨r, BitVec.ofNat 32 ((acc ++ (text.drop printed).take (j - printed)).length + 1),
          acc ++ (text.drop printed).take (j - printed)⟩] h' → Succeeds (g r) h' Q) :
    Succeeds (do
      let piece ← substringMid p printed j
      let result ← freeConcat result piece
      g result) h Q := by
  have hshort : ((text.drop printed).take (j - printed)).length < intRange := by
    have hle : ((text.drop printed).take (j - printed)).length ≤ text.length := by
      rw [List.length_take, List.length_drop]
      omega
    exact lt_of_le_of_lt hle hp.length_lt
  refine (substringMid_spec hs.holding firstFits_cons (hs.holding.readable hp)
    hs.printed_le hs.inside).bind fun q h₁ hh₁ => ?_
  have hconcat := freeConcat_spec hh₁ hs.length_lt hshort
  exact hconcat.bind fun r h' hr => hg r h' hr.1 hr.2

/-- The loop, from any character on. -/
theorem formatLoop_spec (hc : Called env template args) (hl : env.literals.Placed S₀ h₀)
    (hn : WritesNumbers S₀ h₀ number) (hp : Readable S₀ h₀ p text) {fuel : ℕ} {argumentor : UDword}
    (hs : Scan S₀ h₀ text args result argumentor printed j acc rest h)
    (hfuel : text.length - j < fuel) :
    Succeeds (formatLoop number env p fuel result argumentor printed j) h
      (Scanned S₀ h₀ env.ops text acc printed j rest) := by
  induction fuel generalizing result argumentor printed j acc rest h with
  | zero => omega
  | succ fuel ih =>
    have hpt := hs.holding.readable hp
    unfold formatLoop
    refine (len_spec hpt).bind ?_
    rintro _ h' ⟨rfl, hsame⟩
    rw [hsame]
    by_cases hj : j < text.length
    · rw [if_pos hj]
      refine (charAt_spec hpt hj.le).bind ?_
      rintro c h' ⟨rfl, hsame⟩
      rw [hsame, getD_of_lt hj]
      by_cases hmark : text[j] = percent
      · rw [if_pos hmark]
        refine hs.print hp fun r₁ h₁ hlt₁ hh₁ => ?_
        refine (charAt_spec (hh₁.readable hp) hj).bind ?_
        rintro c h' ⟨rfl, hsame⟩
        rw [hsame]
        rcases hs.argument with ⟨before, hargs, hoffset⟩
        cases hv : specifier (text.getD (j + 1) 0) with
        | none =>
          -- both indices are taken back
          dsimp only
          rw [Nat.add_sub_cancel, Nat.add_sub_cancel]
          have hpieces := formatPieces_mark hj hmark hv
          have hnext : Scan S₀ h₀ text args r₁ argumentor j (j + 1)
              (acc ++ (text.drop printed).take (j - printed)) rest h₁ :=
            ⟨hh₁, hlt₁, Nat.le_succ j, hj, hs.argument, hs.char hj hpieces⟩
          exact (ih hnext (by omega)).mono fun r h' hr => hr.mark hj hpieces
        | some v =>
          rcases formatPieces_conversion hj hmark hv with ⟨hin, hpieces⟩
          rcases hs.conversion hpieces with ⟨w, rest', rfl, hw, hsupplies⟩
          rw [hargs, ← List.append_assoc] at hc
          dsimp only
          rw [hoffset]
          refine Yields.bind (argumentToString_spec hh₁ (List.cons_ne_nil _ _) hl hn hc hw) ?_
          rintro q h₂ ⟨size, piece, hpiece, hlt₂, hh₂⟩
          have hconcat := freeConcat_spec hh₂ hlt₁ hlt₂
          refine hconcat.bind fun r₂ h₃ hr₂ => ?_
          have hnext : Scan S₀ h₀ text args r₂ (nextVararg (offsetAfter before) v.sizeof) (j + 2)
              (j + 2) (acc ++ (text.drop printed).take (j - printed) ++ piece) rest' h₃ := by
            refine ⟨hr₂.2, hr₂.1, le_rfl, hin, ⟨before ++ w, ?_, nextVararg_offsetAfter hw⟩,
              hsupplies⟩
            rw [hargs, List.append_assoc]
          exact (ih hnext (by omega)).mono fun r h' hr => hr.conversion hpiece hpieces
      · -- a character that is printed with what follows
        rw [if_neg hmark]
        have hpieces := formatPieces_char hj hmark
        have hnext : Scan S₀ h₀ text args result argumentor printed (j + 1) acc rest h :=
          ⟨hs.holding, hs.length_lt, Nat.le_succ_of_le hs.printed_le, hj, hs.argument,
            hs.char hj hpieces⟩
        exact (ih hnext (by omega)).mono fun r h' hr => hr.char hs.printed_le hj hpieces
    · -- the end of the template
      rw [if_neg hj]
      have hend : j = text.length := Nat.le_antisymm hs.inside (Nat.le_of_not_lt hj)
      refine Yields.pure ⟨acc, [], hs.holding, hs.length_lt, hs.printed_le.trans hs.inside, ?_, ?_⟩
      · rw [hend, List.drop_length]
        exact Fills.nil rest
      · rw [List.append_nil, hend, List.take_of_length_le]
        rw [List.length_drop]

end Loop

/-! ## The whole -/

section Format
variable {S : Finset Block} {h : Heap} {env : FormatEnv} {p : UDword} {text : List UByte}
  {args : List UDword}

/-- `zalloc(1)` is the empty string. -/
theorem zalloc_of_allocates {E : Set Fault} {R : Block → Prop} (hl : Live h S)
    (ha : Allocates E S h 1 R) : Yields strict E (zalloc 1) h fun r h' =>
      R ⟨r, 1⟩ ∧ Holding S h [⟨r, 1, []⟩] h' := by
  -- `zalloc` as a program of this logic
  have hprogram : zalloc 1 = (do
      let result ← MushOS.ralloc 1
      writes (memoryClear result 1 0)
      return result : HeapM UDword) := by
    funext h
    show (MushOS.ralloc 1 h >>= _) = (MushOS.ralloc 1 h >>= _)
    congr 1
  rw [hprogram]
  refine (ha 1 rfl).bind ?_
  rintro r h₁ ⟨hR, hgot⟩
  refine (succeeds_writes _ h₁).bind ?_
  rintro _ _ rfl
  have hgot' : Obtains (S ∪ blocksOf []) h 1 r h₁ := by
    show Obtains (S ∪ ∅) h 1 r h₁
    rw [Finset.union_empty]
    exact hgot
  have hfit := hgot.live.payload_lt (Finset.mem_insert_self _ _)
  rw [show (1 : UDword).toNat = 1 from rfl] at hfit
  dsimp only at hfit
  have hw : Writes (Block.mk r 1).payload h₁.mem (memoryClear r 1 0 h₁.mem) :=
    writes_memoryClear r 1 0 (by rw [show (1 : UDword).toNat = 1 from rfl]; omega) _
  refine Yields.pure ⟨hR, (Holding.start hl).push (hgot'.write hw) ⟨?_, ?_⟩ (by decide)⟩
  · intro i hi
    rw [Nat.le_zero.mp hi]
    refine memoryClear_bytes (by rw [show (1 : UDword).toNat = 1 from rfl]; omega) _ ?_
    rw [mem_span, show r + BitVec.ofNat 32 0 = r from BitVec.add_zero r]
    exact ⟨le_rfl, Nat.lt_add_of_pos_right (by decide)⟩
  · intro c hmem
    cases hmem

theorem zalloc_spec (hl : Live h S) (hroom : FirstFits S h 1) :
    Succeeds (zalloc 1) h fun r h' => Holding S h [⟨r, 1, []⟩] h' := by
  refine (zalloc_of_allocates hl (hl.allocates (by decide) fun hempty => ?_)).mono ?_
  · have hfit := hroom hempty
    exact ⟨hfit, by omega⟩
  · intro r h' hr
    exact hr.2

/-- The heap has one block more, which is the string `out` at `q` and may be released. -/
structure AddsString (S : Finset Block) (h : Heap) (q : UDword) (h' : Heap) (out : List UByte) :
    Prop where
  string : Chars h'.mem q out
  size : MushOS.size h' q = .ok (BitVec.ofNat 32 (out.length + 1))
  fits : out.length + 1 < 2 ^ 32
  fresh : ∀ b ∈ S, b.addr ≠ q
  live : Live h' (insert ⟨q, BitVec.ofNat 32 (out.length + 1)⟩ S)
  preserves : Preserves S h h'
  released : ∃ h'', MushOS.unalloc q h' = .ok h'' ∧ Live h'' S ∧ Preserves S h h''

/-- One string is left. -/
theorem Holding.addsString {q : UDword} {h' : Heap} {out : List UByte}
    (hh : Holding S h [⟨q, BitVec.ofNat 32 (out.length + 1), out⟩] h')
    (hlt : out.length < intRange) : AddsString S h q h' out := by
  have hblock : S ∪ blocksOf [⟨q, BitVec.ofNat 32 (out.length + 1), out⟩] =
      insert ⟨q, BitVec.ofNat 32 (out.length + 1)⟩ S := union_blocksOf_singleton _ _
  have hfresh : ∀ b ∈ S, b.addr ≠ q := fun b hb => hh.apart _ List.mem_cons_self b hb
  have hlive := hh.live
  rw [hblock] at hlive
  have hmem := Finset.mem_insert_self (⟨q, BitVec.ofNat 32 (out.length + 1)⟩ : Block) S
  refine ⟨(hh.strings _ List.mem_cons_self).1, ?_, ?_, hfresh, hlive, hh.preserves, ?_⟩
  · rcases hlive with ⟨blocks, hw, hblocks⟩
    rw [← hblocks, List.mem_toFinset] at hmem
    exact hw.size_eq hmem
  · unfold intRange at hlt
    omega
  · rcases hlive.unalloc hmem with ⟨h'', heq, hl'', hp⟩
    rw [Finset.erase_insert (fun hq => hfresh _ hq rfl)] at hl''
    exact ⟨h'', heq, hl'', hh.preserves.trans (hp.mono (Finset.subset_insert _ _))⟩

/-- The new string reads what the template reads with the arguments. -/
theorem formatBy_spec {number : UDword → NumberSystem → HeapM UDword} (hl : Live h S)
    (hroom : FirstFits S h 1)
    (hliterals : env.literals.Placed S h) (hn : WritesNumbers S h number) (hp : Readable S h p text)
    (hc : Called env p args) (hargs : Supplies (Accepts S h) (formatPieces text) args) :
    Succeeds (formatBy number env p) h fun q h' => ∃ out,
      Fills (Renders env.ops h.mem) (formatPieces text) args out ∧ out.length < intRange ∧
        Holding S h [⟨q, BitVec.ofNat 32 (out.length + 1), out⟩] h' := by
  refine Yields.bind (zalloc_spec hl hroom) fun r h₁ hh₁ => ?_
  -- nothing has been scanned, and the first argument is behind the template
  have hscan : Scan S h text args r (initVararg 4) 0 0 [] args h₁ := by
    refine ⟨hh₁, ?_, le_rfl, Nat.zero_le _, ⟨[], rfl, ?_⟩, ?_⟩
    · unfold intRange
      exact Nat.two_pow_pos 31
    · decide
    · rw [List.drop_zero]
      exact hargs
  refine Yields.bind (formatLoop_spec hc hliterals hn hp hscan ?_) ?_
  · exact hp.length_lt
  rintro ⟨q, printed⟩ h₂ ⟨acc, out, hh₂, hlt, hprinted, hfills, htext⟩
  have hshort : (text.drop printed).length < intRange := by
    have hle : (text.drop printed).length ≤ text.length := by
      rw [List.length_drop]
      exact Nat.sub_le _ _
    exact lt_of_le_of_lt hle hp.length_lt
  -- what is behind the last conversion is added as it is
  refine (substringBeg_spec hh₂ firstFits_cons (hh₂.readable hp) hprinted).bind
    fun piece h₃ hh₃ => ?_
  have hconcat := freeConcat_spec hh₃ hlt hshort
  refine hconcat.mono ?_
  rintro r h₄ ⟨hlt₄, hh₄⟩
  dsimp only at htext hlt₄ hh₄
  rw [htext] at hlt₄ hh₄
  refine ⟨out, hfills, hlt₄, hh₄⟩

theorem called_call (env : FormatEnv) (p : UDword) {args : List UDword}
    (hfits : 4 * (args.length + 3) ≤ 2 ^ 32) : Called (env.call p args) p args :=
  ⟨⟨env.stack, env.ebp, env.ret, rfl⟩, rfl, hfits⟩

/-- A base is a positive number in decimal. -/
theorem numberText_base {sys : NumberSystem} (hb : IsBase sys) :
    numberText sys decimal = numeral 10 sys.toNat := by
  have hint : sys.toInt = sys.toNat := by
    have := hb.2
    rw [BitVec.toInt_eq_toNat_cond, if_pos (by omega)]
  have hpositive : sys.slt 0 = false := by
    rw [Bool.eq_false_iff, Ne, BitVec.slt_iff_toInt_lt, hint]
    rw [show (0 : UDword).toInt = 0 from rfl]
    omega
  have hne : sys ≠ 0 := by
    rintro rfl
    have := hb.1
    exact absurd this (by decide)
  unfold numberText signText baseText digitsText
  rw [hpositive, if_pos rfl, if_neg hne, hint]
  rfl

/-- `format("(base %d) ", sys)`. -/
theorem formatBase_spec {S₀ : Finset Block} {h₀ : Heap}
    {number : NumberSystem → UDword → NumberSystem → HeapM UDword} {sys : NumberSystem}
    (hb : IsBase sys) (hdec : sys ≠ decimal) (hhex : sys ≠ hexadecimal)
    (hbin : sys ≠ binary) (hliterals : env.literals.Placed S₀ h₀)
    (hn : ∀ S h, env.literals.Placed S h → WritesNumbers S h (number sys)) :
    FormatsBase S₀ h₀ (fun sys => formatBy (number sys) (env.call env.literals.baseMark [sys])
      env.literals.baseMark) sys := by
  intro T h hT hh
  have hplaced : env.literals.Placed (S₀ ∪ blocksOf T) h :=
    ⟨hh.readable hliterals.trueWord, hh.readable hliterals.falseWord,
      hh.readable hliterals.nullWord, hh.readable hliterals.dot, hh.readable hliterals.minus,
      hh.readable hliterals.hexMark, hh.readable hliterals.binMark, hh.readable hliterals.baseMark⟩
  have hpieces : formatPieces (ascii "(base %d) ") =
      (ascii "(base ").map .char ++ .conversion .decimal :: ((ascii ") ").map .char ++ []) := by
    decide
  have hargs : Supplies (Accepts (S₀ ∪ blocksOf T) h)
        (formatPieces (ascii "(base %d) ")) [sys] := by
    rw [hpieces]
    exact Supplies.chars _ (Supplies.conversion (Accepts.word sys (by decide))
      (Supplies.chars _ (Supplies.nil [])))
  have hfits : 4 * ([sys].length + 3) ≤ 2 ^ 32 := by
    rw [List.length_singleton]
    decide
  have hinner : Succeeds (formatBy (number sys) (env.call env.literals.baseMark [sys])
      env.literals.baseMark) h fun q h' => ∃ out,
        Fills (Renders env.ops h.mem) (formatPieces (ascii "(base %d) ")) [sys] out ∧
          out.length < intRange ∧ Holding (S₀ ∪ blocksOf T) h
            [⟨q, BitVec.ofNat 32 (out.length + 1), out⟩] h' :=
    formatBy_spec hh.live (firstFits_of_ne hT) hplaced (hn _ _ hplaced) hplaced.baseMark
      (called_call env _ hfits) hargs
  refine Yields.mono hinner ?_
  rintro q h' ⟨out, hfills, hlt, hnew⟩
  refine ⟨_, out, ?_, hlt, hh.append hnew⟩
  -- the number of the base is the only argument
  rw [hpieces] at hfills
  rcases hfills.chars with ⟨rest, rfl, hrest⟩
  rcases hrest.split with ⟨w, ws, text, rest', hwords, rfl, hw, hrest'⟩
  rcases hrest'.chars with ⟨last, rfl, hlast⟩
  cases hw with
  | decimal w =>
    cases hlast with
    | nil =>
      have hword : w = sys := (List.cons.inj hwords).1.symm
      rw [hword, numberText_base hb]
      unfold baseText
      rw [if_neg hdec, if_neg hhex, if_neg hbin, List.append_nil, List.append_assoc]

theorem isBase_of_three {sys : NumberSystem}
    (hthree : sys = decimal ∨ sys = hexadecimal ∨ sys = binary) : IsBase sys := by
  rcases hthree with rfl | rfl | rfl
  · exact isBase_decimal
  · exact isBase_hexadecimal
  · exact isBase_binary

theorem numberToStringAt_spec {S₀ : Finset Block} {h₀ h : Heap} {T : List Temp} {num : UDword}
    {sys : NumberSystem} {depth : ℕ} (hh : Holding S₀ h₀ T h)
    (hfirst : FirstFits (S₀ ∪ blocksOf T) h ((digitsText num sys).length + 1))
    (hliterals : env.literals.Placed S₀ h₀) (hb : IsBase sys)
    (hdepth : sys ≠ decimal → sys ≠ hexadecimal → sys ≠ binary → 0 < depth) :
    Builds S₀ h₀ T (numberToStringAt (depth + 1) env num sys) h (· = numberText num sys) := by
  induction depth generalizing env S₀ h₀ h T num sys with
  | zero =>
    refine numberToStringBy_spec hh hliterals hb num hfirst fun hdec hhex hbin => ?_
    exact absurd (hdepth hdec hhex hbin) (Nat.lt_irrefl 0)
  | succ depth ih =>
    refine numberToStringBy_spec hh hliterals hb num hfirst fun hdec hhex hbin => ?_
    -- the inner call gets a decimal number, for which there is no further call
    have hn : ∀ S h, env.literals.Placed S h → WritesNumbers S h
        (numberToStringAt (depth + 1) (env.call env.literals.baseMark [sys])) := by
      intro S h hplaced T h' num sys' hT hh hthree
      refine ih hh (firstFits_of_ne hT) hplaced (isBase_of_three hthree) ?_
      intro hdec hhex hbin
      rcases hthree with heq | heq | heq
      · exact absurd heq hdec
      · exact absurd heq hhex
      · exact absurd heq hbin
    have hbase : FormatsBase S₀ h₀ (fun sys => formatBy
        (numberToStringAt (depth + 1) (env.call env.literals.baseMark [sys]))
        (env.call env.literals.baseMark [sys]) env.literals.baseMark) sys :=
      formatBase_spec hb hdec hhex hbin hliterals hn
    exact hbase

/-- **`number_to_string`**, for every base there are digits for. -/
theorem numberToString_spec {S₀ : Finset Block} {h₀ h : Heap} {T : List Temp} {sys : NumberSystem}
    (hh : Holding S₀ h₀ T h) (hliterals : env.literals.Placed S₀ h₀) (hb : IsBase sys)
    (num : UDword) (hfirst : FirstFits (S₀ ∪ blocksOf T) h ((digitsText num sys).length + 1)) :
    Builds S₀ h₀ T (numberToString env num sys) h (· = numberText num sys) :=
  numberToStringAt_spec hh hfirst hliterals hb fun _ _ _ => Nat.one_pos

/-- **`format`** returns a new string, which reads what the template reads with the
arguments. -/
theorem format_spec (hl : Live h S) (hroom : FirstFits S h 1)
    (hliterals : env.literals.Placed S h) (hp : Readable S h p text) (hc : Called env p args)
    (hargs : Supplies (Accepts S h) (formatPieces text) args) :
    Succeeds (format env p) h fun q h' => ∃ out,
      Fills (Renders env.ops h.mem) (formatPieces text) args out ∧ out.length < intRange ∧
        Holding S h [⟨q, BitVec.ofNat 32 (out.length + 1), out⟩] h' := by
  refine formatBy_spec hl hroom hliterals ?_ hp hc hargs
  intro T h' num sys hT hh hthree
  exact numberToString_spec hh hliterals (isBase_of_three hthree) num (firstFits_of_ne hT)

/-- **`format` implements its template language.** -/
theorem format_fills (hl : Live h S) (hroom : FirstFits S h 1)
    (hliterals : env.literals.Placed S h) (hp : Readable S h p text) (hc : Called env p args)
    (hargs : Supplies (Accepts S h) (formatPieces text) args) :
    Succeeds (format env p) h fun q h' => ∃ out,
      Fills (Renders env.ops h.mem) (formatPieces text) args out ∧ Chars h'.mem q out := by
  refine (format_spec hl hroom hliterals hp hc hargs).mono ?_
  rintro q h' ⟨out, hfills, -, hh⟩
  exact ⟨out, hfills, (hh.strings _ List.mem_cons_self).1⟩

/-- **`format` leaks nothing**, and touches nothing else. -/
theorem format_leaksNothing (hl : Live h S)
    (hroom : FirstFits S h 1)
    (hliterals : env.literals.Placed S h) (hp : Readable S h p text) (hc : Called env p args)
    (hargs : Supplies (Accepts S h) (formatPieces text) args) :
    Succeeds (format env p) h fun q h' => ∃ out, AddsString S h q h' out := by
  refine (format_spec hl hroom hliterals hp hc hargs).mono ?_
  rintro q h' ⟨out, -, hlt, hh⟩
  exact ⟨out, hh.addsString hlt⟩

end Format

/-! ## A call with one argument -/

/-- The literals of `format.c` and a template, one after another. -/
def rodata : List UByte :=
  ["true", "false", ".null", ".", "-", "0x", "0b", "(base %d) ", "%d%%"].flatMap
    fun s => ascii s ++ [0]

/-- An empty heap of a hundred bytes, with the strings above it. -/
def rodataHeap : Heap :=
  initializeHeap 0x1000 100
    { noHeap with mem := ⟨fun a => rodata.getD (a.toNat - 0x2000) 0, []⟩ }

def rodataLiterals : Literals :=
  ⟨0x2000, 0x2005, 0x200b, 0x2011, 0x2013, 0x2015, 0x2018, 0x201b⟩

/-- No operation on `precise` is needed. -/
def noPrecise : PreciseOps (BitVec 64) :=
  ⟨fun _ => 0, fun _ => 0, fun b _ => b, fun b _ => b, fun _ => false⟩

/-- `format("%d%%", -5)`. -/
def callEnv : FormatEnv where
  literals := rodataLiterals
  ops := noPrecise
  ebp := 0x8ff0
  stack := ⟨0x9000, [0x8ffc, 0x100, 0x2026, -5], fun _ => 0⟩
  ret := 0x200

/-- A string above a heap without blocks. -/
theorem readable_above {h : Heap} {bound : ℕ} {p : UDword} {text : List UByte}
    (hend : h.heapEnd.toNat ≤ bound) (hlt : text.length < 100)
    (hbytes : ∀ i ≤ text.length, h.mem.bytes (p + BitVec.ofNat 32 i) = text.getD i 0)
    (hnonzero : text.all (· ≠ 0) = true)
    (habove : ∀ i ≤ text.length, bound ≤ (p + BitVec.ofNat 32 i).toNat) :
    Readable ∅ h p text := by
  refine ⟨⟨hbytes, ?_⟩, ?_, ?_⟩
  · intro c hc
    exact of_decide_eq_true (List.all_eq_true.mp hnonzero c hc)
  · intro i hi
    refine Or.inl fun hin => ?_
    have := habove i hi
    have hlt' := hin.2
    omega
  · unfold intRange
    omega

/-- Where the strings of `rodata` are. -/
def RodataAbove (h : Heap) : Prop :=
  h.heapEnd.toNat ≤ 0x2000 ∧
    ∀ i < 43, h.mem.bytes (0x2000 + BitVec.ofNat 32 i) = rodata.getD i 0

theorem RodataAbove.readable {h : Heap} (hr : RodataAbove h) (start : ℕ) {text : List UByte}
    (hfits : start + text.length < 43)
    (htext : ∀ i ≤ text.length, rodata.getD (start + i) 0 = text.getD i 0)
    (hnonzero : text.all (· ≠ 0) = true) :
    Readable ∅ h (0x2000 + BitVec.ofNat 32 start) text := by
  refine readable_above hr.1 (by omega) ?_ hnonzero ?_
  · intro i hi
    rw [BitVec.add_assoc, ← BitVec.ofNat_add, hr.2 _ (by omega)]
    exact htext i hi
  · intro i hi
    bv_omega

theorem RodataAbove.placed {h : Heap} (hr : RodataAbove h) : rodataLiterals.Placed ∅ h where
  trueWord := hr.readable 0 (by decide) (by decide) (by decide)
  falseWord := hr.readable 5 (by decide) (by decide) (by decide)
  nullWord := hr.readable 11 (by decide) (by decide) (by decide)
  dot := hr.readable 17 (by decide) (by decide) (by decide)
  minus := hr.readable 19 (by decide) (by decide) (by decide)
  hexMark := hr.readable 21 (by decide) (by decide) (by decide)
  binMark := hr.readable 24 (by decide) (by decide) (by decide)
  baseMark := hr.readable 27 (by decide) (by decide) (by decide)

theorem rodataHeap_above : RodataAbove rodataHeap := by
  refine ⟨?_, by decide +kernel⟩
  have hend : rodataHeap.heapEnd.toNat = 0x1000 + 100 :=
    (initializeHeap_spec (by decide) (by decide) _).2.2.2.1
  omega

theorem rodataLiterals_placed : rodataLiterals.Placed ∅ rodataHeap := rodataHeap_above.placed

/-- An empty heap of four thousand bytes below the same strings. -/
def wideHeap : Heap :=
  initializeHeap 0x1000 4000
    { noHeap with mem := ⟨fun a => rodata.getD (a.toNat - 0x2000) 0, []⟩ }

theorem wideHeap_live : Live wideHeap ∅ :=
  ⟨[], (initializeHeap_spec (by decide) (by decide) _).1, rfl⟩

theorem wideHeap_above : RodataAbove wideHeap := by
  refine ⟨?_, by decide +kernel⟩
  have hend : wideHeap.heapEnd.toNat = 0x1000 + 4000 :=
    (initializeHeap_spec (by decide) (by decide) _).2.2.2.1
  omega

theorem callEnv_called : Called callEnv 0x2026 [-5] where
  frame := ⟨⟨0x9000, [], fun _ => 0⟩, 0x8ffc, 0x100, rfl⟩
  ebp := by decide
  fits := by decide

theorem callEnv_supplied {S : Finset Block} {h : Heap} :
    Supplies (Accepts S h) (formatPieces (ascii "%d%%")) [-5] := by
  have hpieces : formatPieces (ascii "%d%%") =
      [.conversion .decimal, .char percent, .char percent] := by decide
  rw [hpieces]
  exact Supplies.conversion (Accepts.word (-5) (by decide)) (Supplies.char _ (Supplies.char _
    (Supplies.nil [])))

theorem rodataHeap_live : Live rodataHeap ∅ :=
  ⟨[], (initializeHeap_spec (by decide) (by decide) _).1, rfl⟩

theorem rodataHeap_room : FirstFits ∅ rodataHeap 1 := by
  intro _
  decide +kernel

end MushOS
