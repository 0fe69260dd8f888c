import MushOS.Base.Format
import MushOS.Base.HeapRoom

/-! # format.c: formatting with room

`format` takes a block for every piece of the template and for every string it puts together.
If the conversions of the template read words only, all these strings are short, and there are
not many of them. So with some room after the last block (`formatRoom`) no allocation of
`format` fails, and what it returns ends below the limit of that room (`format_returns`).
-/

namespace MushOS

open ByteMemory Attempts Template

/-! ## Strings below a limit -/

/-- The strings `T` have been added, and there are still `n` bytes up to the limit. -/
structure Within (limit n : ℕ) (S₀ : Finset Block) (h₀ : Heap) (T : List Temp) (h : Heap) :
    Prop where
  holding : Holding S₀ h₀ T h
  room : Headroom limit n (S₀ ∪ blocksOf T) h

/-- `f` adds a string to `T`, of which `P` holds, and leaves `n` bytes of the room. -/
def BuildsWithin (limit n : ℕ) (S₀ : Finset Block) (h₀ : Heap) (T : List Temp) (f : HeapM UDword)
    (h : Heap) (P : List UByte → Prop) : Prop :=
  Yields strict ∅ f h fun q h' => ∃ size text, P text ∧ text.length < intRange ∧
    Within limit n S₀ h₀ (⟨q, size, text⟩ :: T) h'

/-- Every conversion of the template takes one word. -/
def OnlyWords (text : List UByte) : Prop :=
  ∀ i < text.length, text.getD i 0 = percent →
    specifier (text.getD (i + 1) 0) ≠ some .float ∧ specifier (text.getD (i + 1) 0) ≠ some .text

instance (text : List UByte) : Decidable (OnlyWords text) :=
  inferInstanceAs (Decidable (∀ i < text.length, _ → _))

/-- A block that no string of `format` exceeds, its header included: the template, 35 characters
for each conversion, and what a number is put together from. -/
def formatBlock (text : List UByte) : ℕ := text.length + 35 * text.count percent + 48

/-- Six blocks for each conversion, and three for the rest. -/
def formatRoom (text : List UByte) : ℕ := (6 * text.count percent + 3) * formatBlock text

section Within
variable {limit n m c k : ℕ} {S₀ : Finset Block} {h₀ h h' : Heap} {T T' : List Temp} {x y : Temp}
  {P P' : List UByte → Prop} {f : HeapM UDword} {sys : NumberSystem} {literals : Literals}

theorem blocksOf_subset (hsub : T' ⊆ T) : blocksOf T' ⊆ blocksOf T := by
  intro b hb
  rcases mem_blocksOf.mp hb with ⟨x, hx, rfl⟩
  exact mem_blocksOf.mpr ⟨x, hsub hx, rfl⟩

theorem Within.mono (hw : Within limit n S₀ h₀ T h) (hle : m ≤ n) : Within limit m S₀ h₀ T h :=
  ⟨hw.holding, hw.room.mono hle (Finset.Subset.refl _) (SameBounds.refl h)⟩

theorem BuildsWithin.mono (hf : BuildsWithin limit n S₀ h₀ T f h P) (hle : m ≤ n)
    (himp : ∀ text, P text → P' text) : BuildsWithin limit m S₀ h₀ T f h P' := by
  refine Yields.mono hf ?_
  rintro q h' ⟨size, text, hP, hlt, hw⟩
  exact ⟨size, text, himp text hP, hlt, hw.mono hle⟩

/-- A block that fits into `c` bytes, with its header. -/
theorem Within.allocates (hw : Within limit (n + c) S₀ h₀ T h) (hle : k + 12 ≤ c) :
    Allocates ∅ (S₀ ∪ blocksOf T) h k fun b => b.stop + n ≤ limit :=
  (hw.room.mono (Nat.add_le_add_left hle n) (Finset.Subset.refl _)
    (SameBounds.refl h)).allocates hw.holding.live

/-- A string in a new block, while some of the others have been released. -/
theorem Within.step (hw : Within limit (n + c) S₀ h₀ T h) (hh : Holding S₀ h₀ (x :: T') h')
    (hx : x.block.stop + n ≤ limit) (hsub : T' ⊆ T) : Within limit n S₀ h₀ (x :: T') h' := by
  have hbounds : SameBounds h h' := by
    have hb := hw.holding.preserves.bounds
    have hb' := hh.preserves.bounds
    exact ⟨hb'.header.trans hb.header.symm, hb'.heapStart.trans hb.heapStart.symm,
      hb'.heapEnd.trans hb.heapEnd.symm⟩
  have hsub' : S₀ ∪ blocksOf T' ⊆ S₀ ∪ blocksOf T :=
    Finset.union_subset_union_right (blocksOf_subset hsub)
  refine ⟨hh, ?_⟩
  have hroom := (hw.room.mono (Nat.le_add_right n c) hsub' hbounds).insert hx
  have hblocks : S₀ ∪ blocksOf (x :: T') = insert x.block (S₀ ∪ blocksOf T') := by
    rw [← List.singleton_append, union_blocksOf_append, union_blocksOf_singleton]
  rw [hblocks]
  exact hroom

/-- What is built in one block. -/
theorem BuildsIn.within (hf : BuildsIn ∅ (fun b => b.stop + n ≤ limit) S₀ h₀ T' f h P)
    (hw : Within limit (n + c) S₀ h₀ T h) (hsub : T' ⊆ T) :
    BuildsWithin limit n S₀ h₀ T' f h P := by
  refine Yields.mono hf ?_
  rintro q h' ⟨size, text, hR, hP, hlt, hh⟩
  exact ⟨size, text, hP, hlt, hw.step hh hR hsub⟩

/-! ## Words -/

theorem length_numberText_le (hb : IsBase sys)
    (hthree : sys = decimal ∨ sys = hexadecimal ∨ sys = binary) (num : UDword) :
    (numberText num sys).length ≤ 35 := by
  have hdigits := length_digitsText_le hb num
  have hbase : (baseText sys).length ≤ 2 := by
    rcases hthree with rfl | rfl | rfl <;> decide
  have hsign : (signText (num.slt 0)).length ≤ 1 := by
    unfold signText
    split <;> decide
  unfold numberText
  rw [List.length_append, List.length_append]
  omega

/-- The mark of one of the three bases. -/
theorem markNumber_within {formatBase : HeapM UDword} (hw : Within limit (n + c) S₀ h₀ (x :: T) h)
    (hl : literals.Placed S₀ h₀) (hthree : sys = decimal ∨ sys = hexadecimal ∨ sys = binary)
    (hx : x.text.length ≤ 32) (hc : 48 ≤ c) :
    BuildsWithin limit n S₀ h₀ T (markNumber formatBase literals x.addr sys) h
      (· = baseText sys ++ x.text) := by
  have hmark : ∀ (mark : List UByte) (word : UDword), mark.length ≤ 2 → Readable S₀ h₀ word mark →
      BuildsWithin limit n S₀ h₀ T (do
        let result ← concatenate word x.addr
        release x.addr
        return result) h (· = mark ++ x.text) := by
    intro mark word hle hreadable
    exact (mark_of_allocates hw.holding hreadable (by omega) (by omega)
      (hw.allocates (by omega))).within hw (List.subset_cons_self x T)
  unfold markNumber
  rcases hthree with rfl | rfl | rfl
  · refine Yields.pure ⟨x.size, x.text, ?_, ?_, hw.mono (Nat.le_add_right n c)⟩
    · rfl
    · unfold intRange
      omega
  · exact hmark (ascii "0x") literals.hexMark (by decide) hl.hexMark
  · exact hmark (ascii "0b") literals.binMark (by decide) hl.binMark

/-- **A number** takes three blocks. -/
theorem numberToStringBy_within {formatBase : NumberSystem → HeapM UDword}
    (hw : Within limit (n + 3 * c) S₀ h₀ T h) (hl : literals.Placed S₀ h₀)
    (hthree : sys = decimal ∨ sys = hexadecimal ∨ sys = binary) (num : UDword) (hc : 48 ≤ c) :
    BuildsWithin limit n S₀ h₀ T (numberToStringBy formatBase literals num sys) h
      (· = numberText num sys) := by
  have hb := isBase_of_three hthree
  have hlength := length_digitsText_le hb num
  have hw₀ : Within limit (n + c + c + c) S₀ h₀ T h := hw.mono (by omega)
  unfold numberToStringBy numberText
  have hbuilt := (digits_of_allocates hw₀.holding hb num
    (hw₀.allocates (by omega))).within hw₀ (List.Subset.refl T)
  -- digits, then the mark of the base before them, then the sign: three blocks at most
  refine Yields.bind hbuilt ?_
  rintro number h₁ ⟨size, digits, hdigits, -, hw₁⟩
  rw [← hdigits] at hlength ⊢
  have hmarking := @markNumber_within _ _ _ _ _ _ _ _ _ _ (formatBase sys) hw₁ hl hthree hlength hc
  refine Yields.bind hmarking ?_
  rintro result h₂ ⟨size', marked, hmarked, -, hw₂⟩
  have hmark : marked = baseText sys ++ digits := hmarked
  have hle : marked.length ≤ 34 := by
    have hbase : (baseText sys).length ≤ 2 := by
      rcases hthree with rfl | rfl | rfl <;> decide
    rw [hmark, List.length_append]
    omega
  rw [← hmark]
  have hone : (ascii "-").length = 1 := by decide
  have hbelow := hw₂.room.below _ (Finset.mem_union_right S₀
    (mem_blocksOf.mpr ⟨⟨result, size', marked⟩, List.mem_cons_self, rfl⟩))
  have hkept : (Temp.block ⟨result, size', marked⟩).stop + n ≤ limit := by omega
  have hsize : (ascii "-").length + marked.length + 1 + 12 ≤ c := by omega
  have hsigned := (sign_of_allocates (num.slt 0) hw₂.holding hl.minus
    (Nat.le_trans hle (by decide)) hkept (hw₂.allocates hsize)).within hw₂
      (List.subset_cons_self _ T)
  exact hsigned

theorem numberToStringAt_within {env : FormatEnv} {depth : ℕ}
    (hw : Within limit (n + 3 * c) S₀ h₀ T h) (hl : env.literals.Placed S₀ h₀)
    (hthree : sys = decimal ∨ sys = hexadecimal ∨ sys = binary) (num : UDword) (hc : 48 ≤ c) :
    BuildsWithin limit n S₀ h₀ T (numberToStringAt (depth + 1) env num sys) h
      (· = numberText num sys) :=
  numberToStringBy_within hw hl hthree num hc

/-- An argument of one word, whatever the word is. -/
theorem argumentToString_within {env : FormatEnv} {argumentor : UDword} {v : Specifier}
    (hw : Within limit (n + 3 * c) S₀ h₀ T h) (hl : env.literals.Placed S₀ h₀)
    (hv : v ≠ .float ∧ v ≠ .text) (hc : 48 ≤ c) :
    BuildsWithin limit n S₀ h₀ T (argumentToString (numberToString env) env argumentor v) h
      (·.length ≤ 35) := by
  have hw₁ : Within limit (n + c + c) S₀ h₀ T h := hw.mono (by omega)
  -- the three number conversions differ in the base only
  have hnumber : ∀ num sys, sys = decimal ∨ sys = hexadecimal ∨ sys = binary →
      BuildsWithin limit n S₀ h₀ T (numberToString env num sys) h (·.length ≤ 35) := by
    intro num sys hthree
    refine BuildsWithin.mono (numberToStringAt_within hw hl hthree num hc) le_rfl ?_
    rintro _ rfl
    exact length_numberText_le (isBase_of_three hthree) hthree num
  have hsub := List.Subset.refl T
  cases v with
  | logical =>
    have hle := length_booleanText_le (getByteArg env.ebp argumentor env.stack)
    refine ((booleanToString_of_allocates hw₁.holding hl _
      (hw₁.allocates (by omega))).within hw₁ hsub).mono (by omega) ?_
    rintro _ rfl
    omega
  | pointer =>
    unfold argumentToString pointerToString
    by_cases h0 : getArg env.ebp argumentor env.stack = 0
    · rw [if_pos h0]
      have hnull : (ascii ".null").length = 5 := by decide
      refine ((constToString_of_allocates hw₁.holding (hw₁.holding.readable hl.nullWord)
        (hw₁.allocates (by omega))).within hw₁ hsub).mono (by omega) ?_
      rintro _ rfl
      omega
    · rw [if_neg h0]
      have hroom := room_le isBase_hexadecimal (getArg env.ebp argumentor env.stack)
      refine Yields.bind ((intToString_of_allocates hw₁.holding isBase_hexadecimal _
        (hw₁.allocates (by omega))).within hw₁ hsub) ?_
      -- the digits stand behind a dot, which takes a second block
      rintro integer h₁ ⟨size, text, htext, -, hw₂⟩
      have hle := htext.length_le isBase_hexadecimal (BitVec.isLt _)
      have hone : (ascii ".").length = 1 := by decide
      refine ((mark_of_allocates hw₂.holding hl.dot (by omega) (Nat.le_trans hle (by decide))
        (hw₂.allocates (show (ascii ".").length + text.length + 1 + 12 ≤ c by omega))).within hw₂
          (List.subset_cons_self _ T)).mono le_rfl ?_
      rintro _ rfl
      rw [List.length_append]
      show (ascii ".").length + text.length ≤ 35
      omega
  | decimal => exact hnumber _ _ (Or.inl rfl)
  | hexadecimal => exact hnumber _ _ (Or.inr (Or.inl rfl))
  | binary => exact hnumber _ _ (Or.inr (Or.inr rfl))
  | float => exact absurd rfl hv.1
  | character =>
    refine ((charToString_of_allocates hw₁.holding (hw₁.allocates (by omega)) _).within hw₁
      hsub).mono (by omega) ?_
    rintro _ rfl
    unfold charText
    split <;> simp
  | text => exact absurd rfl hv.2

/-! ## The loop -/

section Loop
variable {env : FormatEnv} {p result argumentor : UDword} {text acc : List UByte} {printed j : ℕ}

theorem freeConcat_within (hw : Within limit (n + c) S₀ h₀ (y :: x :: T) h)
    (hlength : x.text.length + y.text.length + 13 ≤ c) (hc : c ≤ intRange) :
    Yields strict ∅ (freeConcat x.addr y.addr) h fun r h' => Within limit n S₀ h₀
      (⟨r, BitVec.ofNat 32 ((x.text ++ y.text).length + 1), x.text ++ y.text⟩ :: T) h' := by
  have hsize : (x.text ++ y.text).length + 1 + 12 ≤ c := by
    rw [List.length_append]
    omega
  refine (freeConcat_of_allocates hw.holding (by omega) (by omega) (hw.allocates hsize)).mono ?_
  rintro r h' ⟨-, hR, hh⟩
  exact hw.step hh hR fun z hz => List.mem_cons_of_mem _ (List.mem_cons_of_mem _ hz)

/-- The piece of the template before a mark is printed, and it goes on with `g`. -/
theorem Within.print {α : Type} {g : UDword → HeapM α} {Q : α → Heap → Prop}
    (hw : Within limit (n + c + c) S₀ h₀ [⟨result, BitVec.ofNat 32 (acc.length + 1), acc⟩] h)
    (hp : Readable S₀ h₀ p text) (hle : printed ≤ j) (hin : j ≤ text.length)
    (hshort : acc.length + (text.length - printed) + 13 ≤ c) (hc : c ≤ intRange)
    (hg : ∀ r h', Within limit n S₀ h₀
        [⟨r, BitVec.ofNat 32 ((acc ++ (text.drop printed).take (j - printed)).length + 1),
          acc ++ (text.drop printed).take (j - printed)⟩] h' → Yields strict ∅ (g r) h' Q) :
    Yields strict ∅ (do
      let piece ← substringMid p printed j
      let result ← freeConcat result piece
      g result) h Q := by
  have hpiece : ((text.drop printed).take (j - printed)).length = j - printed := by
    rw [List.length_take, List.length_drop]
    omega
  refine (substringMid_of_allocates hw.holding (hw.holding.readable hp) hle hin
    (hw.allocates (by omega))).bind ?_
  rintro q h₁ ⟨hR, hh₁⟩
  have hw₁ := hw.step hh₁ hR (List.Subset.refl _)
  have hconcat := freeConcat_within hw₁
    (show acc.length + ((text.drop printed).take (j - printed)).length + 13 ≤ c by omega) hc
  exact hconcat.bind fun r h' hr => hg r h' hr

/-- The loop of `format` is at `j`, with room for the marks that are to come. -/
structure WordScan (limit n c : ℕ) (S₀ : Finset Block) (h₀ : Heap) (text : List UByte)
    (result : UDword) (printed j : ℕ) (acc : List UByte) (h : Heap) : Prop where
  within : Within limit (n + 6 * c * (text.drop j).count percent) S₀ h₀
    [⟨result, BitVec.ofNat 32 (acc.length + 1), acc⟩] h
  short : acc.length + (text.length - printed) + 35 * (text.drop j).count percent + 13 ≤ c
  printed_le : printed ≤ j
  inside : j ≤ text.length

/-- There is no specifier after the last character. -/
theorem inside_of_specifier {v : Specifier} (hv : specifier (text.getD (j + 1) 0) = some v) :
    j + 2 ≤ text.length := by
  by_contra hlt
  rw [List.getD_eq_default _ _ (by omega)] at hv
  cases hv

theorem count_drop_succ (hj : j < text.length) (hmark : text[j] = percent) :
    (text.drop j).count percent = (text.drop (j + 1)).count percent + 1 := by
  rw [List.drop_eq_getElem_cons hj, hmark, List.count_cons_self]

theorem count_drop_le (text : List UByte) {i j : ℕ} (hle : i ≤ j) :
    (text.drop j).count percent ≤ (text.drop i).count percent := by
  have hdrop : text.drop j = (text.drop i).drop (j - i) := by
    rw [List.drop_drop, Nat.add_sub_cancel' hle]
  rw [hdrop]
  exact (List.drop_sublist _ _).count_le _

/-- The loop, from any character on, keeps to its share of the room. -/
theorem formatLoop_within (hl : env.literals.Placed S₀ h₀) (hp : Readable S₀ h₀ p text)
    (hwords : OnlyWords text) (hlow : 48 ≤ c) (hc : c ≤ intRange) {fuel : ℕ} {argumentor : UDword}
    (hs : WordScan limit n c S₀ h₀ text result printed j acc h) (hfuel : text.length - j < fuel) :
    Yields strict ∅ (formatLoop (numberToString env) env p fuel result argumentor printed j) h
      fun r h' => ∃ acc', Within limit n S₀ h₀
          [⟨r.1, BitVec.ofNat 32 (acc'.length + 1), acc'⟩] h' ∧
        acc'.length + (text.length - r.2) + 13 ≤ c ∧ r.2 ≤ text.length := by
  induction fuel generalizing result argumentor printed j acc h with
  | zero => omega
  | succ fuel ih =>
    have hshort := hs.short
    have hprinted := hs.printed_le
    have hpt := hs.within.holding.readable hp
    unfold formatLoop
    refine (len_spec hpt).bind ?_
    rintro _ h' ⟨rfl, hsame⟩
    rw [hsame]
    by_cases hj : j < text.length
    · rw [if_pos hj]
      refine (charAt_spec hpt hj.le).bind ?_
      rintro c' h' ⟨rfl, hsame⟩
      rw [hsame]
      by_cases hmark : text.getD j 0 = percent
      · rw [if_pos hmark]
        have hcount := count_drop_succ hj ((getD_of_lt hj).symm.trans hmark)
        have hword := hwords j hj hmark
        have hw := hs.within
        rw [hcount] at hw hshort
        generalize hk : (text.drop (j + 1)).count percent = k at *
        -- six blocks for this mark, two of them for the piece before it
        have hw' : Within limit (n + 6 * c * k + 4 * c + c + c) S₀ h₀
            [⟨result, BitVec.ofNat 32 (acc.length + 1), acc⟩] h := by
          refine hw.mono ?_
          rw [Nat.mul_add]
          omega
        refine hw'.print hp hprinted hs.inside (by omega) hc ?_
        intro r₁ h₁ hw₁
        have hlength : (acc ++ (text.drop printed).take (j - printed)).length =
            acc.length + (j - printed) := by
          rw [List.length_append, List.length_take, List.length_drop]
          omega
        generalize acc ++ (text.drop printed).take (j - printed) = acc₁ at hw₁ hlength
        refine (charAt_spec (hw₁.holding.readable hp) hj).bind ?_
        rintro c' h' ⟨rfl, hsame⟩
        rw [hsame]
        cases hv : specifier (text.getD (j + 1) 0) with
        | none =>
          -- both indices are taken back
          dsimp only
          rw [Nat.add_sub_cancel, Nat.add_sub_cancel]
          refine ih ⟨hw₁.mono (by rw [hk]; omega), ?_, Nat.le_succ j, hj⟩ (by omega)
          rw [hk]
          omega
        | some v =>
          have hin := inside_of_specifier hv
          have hle : (text.drop (j + 2)).count percent ≤ k := by
            rw [← hk]
            exact count_drop_le text (Nat.le_succ (j + 1))
          rw [hv] at hword
          dsimp only
          have hw₁' : Within limit (n + 6 * c * k + c + 3 * c) S₀ h₀
              [⟨r₁, BitVec.ofNat 32 (acc₁.length + 1), acc₁⟩] h₁ := hw₁.mono (by omega)
          have hargument := @argumentToString_within _ _ _ _ _ _ _ env argumentor v hw₁' hl
            ⟨fun heq => hword.1 (congrArg some heq), fun heq => hword.2 (congrArg some heq)⟩ hlow
          refine Yields.bind hargument ?_
          rintro q h₂ ⟨size, piece, hpiece, -, hw₂⟩
          have hconcat := freeConcat_within hw₂
            (show acc₁.length + piece.length + 13 ≤ c by omega) hc
          refine hconcat.bind fun r₂ h₃ hw₃ => ?_
          have hrest : 6 * c * (text.drop (j + 2)).count percent ≤ 6 * c * k :=
            Nat.mul_le_mul_left _ hle
          have hnext : WordScan limit n c S₀ h₀ text r₂ (j + 2) (j + 2) (acc₁ ++ piece) h₃ := by
            refine ⟨hw₃.mono (by omega), ?_, le_rfl, hin⟩
            rw [List.length_append]
            omega
          exact ih hnext (by omega)
      · -- a character that is printed with what follows
        rw [if_neg hmark]
        have hle : (text.drop (j + 1)).count percent ≤ (text.drop j).count percent :=
          count_drop_le text (Nat.le_succ j)
        have hrest : 6 * c * (text.drop (j + 1)).count percent ≤
            6 * c * (text.drop j).count percent := Nat.mul_le_mul_left _ hle
        exact ih ⟨hs.within.mono (by omega), by omega, Nat.le_succ_of_le hprinted, hj⟩ (by omega)
    · rw [if_neg hj]
      refine Yields.pure ⟨acc, hs.within.mono (Nat.le_add_right _ _), ?_, hprinted.trans hs.inside⟩
      show acc.length + (text.length - printed) + 13 ≤ c
      omega

end Loop

end Within

/-! ## The whole -/

section Format
variable {S : Finset Block} {h : Heap} {env : FormatEnv} {p : UDword} {text : List UByte}
  {args : List UDword} {limit n : ℕ}

/-- The string that is returned, and what is left of the room. -/
theorem format_within (hl : Live h S) (hroom : Headroom limit (n + formatRoom text) S h)
    (hliterals : env.literals.Placed S h) (hp : Readable S h p text) (hwords : OnlyWords text) :
    Yields strict ∅ (format env p) h fun q h' => ∃ out,
      Within limit n S h [⟨q, BitVec.ofNat 32 (out.length + 1), out⟩] h' := by
  obtain ⟨c, hc⟩ : ∃ c, c = formatBlock text := ⟨_, rfl⟩
  have hblock : c = text.length + 35 * text.count percent + 48 := hc
  have hbytes : formatRoom text = 6 * c * text.count percent + c + c + c := by
    unfold formatRoom
    rw [← hc]
    ring
  have hsmall : c ≤ intRange := by
    have hstart := hroom.start
    have hinside := hroom.inside
    have hend := h.heapEnd.isLt
    unfold intRange
    omega
  -- the empty result, the scan, the rest of the template and the joined text each take a block
  have hstart : Within limit (n + 6 * c * text.count percent + c + c + c) S h [] h := by
    refine ⟨Holding.start hl, hroom.mono (by omega) ?_ (SameBounds.refl h)⟩
    exact Finset.union_subset (Finset.Subset.refl S) (Finset.empty_subset S)
  unfold format formatBy
  refine (zalloc_of_allocates hl
    (R := fun b => b.stop + (n + 6 * c * text.count percent + c + c) ≤ limit) ?_).bind ?_
  · have hone := hstart.allocates (show 1 + 12 ≤ c by omega)
    have hempty : S ∪ blocksOf [] = S := Finset.union_empty S
    rwa [hempty] at hone
  rintro r h₁ ⟨hR, hh₁⟩
  have hw₁ := hstart.step hh₁ hR (List.Subset.refl _)
  have hscan : WordScan limit (n + c + c) c S h text r 0 0 [] h₁ := by
    refine ⟨?_, ?_, le_rfl, Nat.zero_le _⟩
    · rw [List.drop_zero]
      exact hw₁.mono (by omega)
    · rw [List.drop_zero, List.length_nil]
      omega
  -- the scan gives back all it takes but the result so far
  refine (formatLoop_within hliterals hp hwords (by omega) hsmall hscan hp.length_lt).bind ?_
  rintro ⟨q, printed⟩ h₂ ⟨acc, hw₂, hshort, hprinted⟩
  dsimp only at hw₂ hshort hprinted
  refine (substringBeg_of_allocates hw₂.holding (hw₂.holding.readable hp) hprinted
    (hw₂.allocates (by omega))).bind ?_
  rintro piece h₃ ⟨hR₃, hh₃⟩
  have hw₃ := hw₂.step hh₃ hR₃ (List.Subset.refl _)
  have hconcat := freeConcat_within hw₃
    (show acc.length + (text.drop printed).length + 13 ≤ c by rw [List.length_drop]; omega) hsmall
  exact hconcat.mono fun r h' hw => ⟨_, hw⟩

/-- **With room `format` returns**, and its string ends below the limit. -/
theorem format_returns (hl : Live h S) (hroom : Headroom limit (n + formatRoom text) S h)
    (hliterals : env.literals.Placed S h) (hp : Readable S h p text) (hwords : OnlyWords text)
    (hc : Called env p args) (hargs : Supplies (Accepts S h) (formatPieces text) args) :
    Yields strict ∅ (format env p) h fun q h' => ∃ out,
      Fills (Renders env.ops h.mem) (formatPieces text) args out ∧ out.length < intRange ∧
        Within limit n S h [⟨q, BitVec.ofNat 32 (out.length + 1), out⟩] h' := by
  have hfirst : FirstFits S h 1 := by
    intro _
    have hstart := hroom.start
    have hinside := hroom.inside
    have hpos : 48 ≤ formatRoom text := by
      unfold formatRoom formatBlock
      nlinarith
    omega
  refine ((format_within hl hroom hliterals hp hwords).both
    (format_spec hl hfirst hliterals hp hc hargs)).mono ?_
  rintro q h' ⟨⟨out, hw⟩, out', hfills, hlt, hh⟩
  -- there is one string at the address
  have hsame := ((hw.holding.strings _ List.mem_cons_self).1).unique
    (hh.strings _ List.mem_cons_self).1
  dsimp only at hsame
  rw [hsame] at hw
  exact ⟨out', hfills, hlt, hw⟩

end Format

/-! ### A heap of four thousand bytes -/

theorem wideHeap_bounds :
    wideHeap.heapStart.toNat = 0x100c ∧ wideHeap.heapEnd.toNat = 0x1fa0 := by
  rcases @initializeHeap_spec 0x1000 4000 (by decide) (by decide) _ with ⟨-, -, hstart, hend, -⟩
  exact ⟨hstart, hend⟩

theorem wideHeap_room : FirstFits ∅ wideHeap 1 := by
  intro _
  rw [wideHeap_bounds.1, wideHeap_bounds.2]
  decide

theorem wideHeap_headroom : Headroom 8084 (0 + formatRoom (ascii "%d%%")) ∅ wideHeap where
  start := by
    rw [wideHeap_bounds.1]
    decide
  below := by simp
  inside := wideHeap_bounds.2.ge

theorem wideTemplate_readable : Readable ∅ wideHeap 0x2026 (ascii "%d%%") :=
  wideHeap_above.readable 38 (by decide) (by decide) (by decide)

/-- There is room for what `"%d%%"` asks. -/
theorem format_returns_percent : ∃ q h' out, (format callEnv 0x2026).run wideHeap = .ok (q, h') ∧
    Within 8084 0 ∅ wideHeap [⟨q, BitVec.ofNat 32 (out.length + 1), out⟩] h' := by
  have hcall := format_returns wideHeap_live wideHeap_headroom wideHeap_above.placed
    wideTemplate_readable (by decide) callEnv_called callEnv_supplied
  rcases hcall.returns with ⟨q, h', hrun, out, -, -, hw⟩
  exact ⟨q, h', out, hrun, hw⟩

/-- The call returns, and the marks after the number stay. -/
theorem format_fills_five : ∃ q h', (format callEnv 0x2026).run wideHeap = .ok (q, h') ∧
    Chars h'.mem q (ascii "-5%%") := by
  have hfills := format_fills wideHeap_live wideHeap_room wideHeap_above.placed
    wideTemplate_readable
    callEnv_called callEnv_supplied
  have hcall := format_returns wideHeap_live wideHeap_headroom wideHeap_above.placed
    wideTemplate_readable (by decide) callEnv_called callEnv_supplied
  rcases (hcall.both hfills).returns with ⟨q, h', hrun, -, out, hfills, hchars⟩
  refine ⟨q, h', hrun, ?_⟩
  have hout : out = ascii "-5%%" := by
    have hpieces : formatPieces (ascii "%d%%") =
        [.conversion .decimal, .char percent, .char percent] := by
      decide
    rw [hpieces] at hfills
    generalize hargs : [(-5 : UDword)] = args at hfills
    cases hfills with
    | conversion hw hrest =>
      cases hw with
      | decimal w =>
        have hword : w = -5 := (List.cons.inj hargs).1.symm
        cases hrest with
        | char c hrest =>
          cases hrest with
          | char c hrest =>
            cases hrest with
            | nil =>
              rw [hword]
              decide
  rw [← hout]
  exact hchars

/-- The string it returns is the only new block. -/
theorem format_leaksNothing_five : ∃ q h', (format callEnv 0x2026).run wideHeap = .ok (q, h') ∧
    ∃ out, AddsString ∅ wideHeap q h' out := by
  have hadds := format_leaksNothing wideHeap_live wideHeap_room wideHeap_above.placed
    wideTemplate_readable callEnv_called callEnv_supplied
  have hcall := format_returns wideHeap_live wideHeap_headroom wideHeap_above.placed
    wideTemplate_readable (by decide) callEnv_called callEnv_supplied
  rcases (hcall.both hadds).returns with ⟨q, h', hrun, -, hadded⟩
  exact ⟨q, h', hrun, hadded⟩

end MushOS
