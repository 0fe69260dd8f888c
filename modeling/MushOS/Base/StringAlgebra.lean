import MushOS.Base.Format
import MushOS.Base.Positions

/-! # string.c: slices and joins

`equals` decides whether two strings are the same list of characters (`equals_spec`). The
functions that build strings are those on lists: an expression made of calls of them, whichever
argument is evaluated first, returns a string that reads what the expression says
(`StringExpr.run_spec`). So the laws of lists are laws of strings: a string cut at two places
and joined again is equal to itself, lengths add up, and joining is associative (`stringLaws`).

The length of a string is an `int`, here as in `Strings.lean`, and so is that of a joined one.
-/

namespace MushOS

open Attempts ByteMemory

/-! ## Comparing -/

section Equals
variable {m : Mem} {p q : UDword} {text text' : List UByte} {fuel i : ℕ}
  {S : Finset Block} {h : Heap}

/-- The loop compares the rest of two strings that have begun alike. -/
theorem equalsLoop_eq (hc : Chars m p text) (hc' : Chars m q text') (hi : i ≤ text.length)
    (hi' : i ≤ text'.length) (hfuel : text.length - i < fuel)
    (hbefore : text.take i = text'.take i) :
    equalsLoop p q m fuel i = some (if text = text' then 1 else 0) := by
  induction fuel generalizing i with
  | zero => omega
  | succ fuel ih =>
    have hbyte : m.read8 (p + BitVec.ofNat 32 i) = text.getD i 0 := hc.bytes i hi
    have hbyte' : m.read8 (q + BitVec.ofNat 32 i) = text'.getD i 0 := hc'.bytes i hi'
    have hend := hc.read8_eq_zero_iff hi
    have hend' := hc'.read8_eq_zero_iff hi'
    unfold equalsLoop
    dsimp only
    by_cases hin : i < text.length ∧ i < text'.length
    · -- both have a character here
      rw [if_pos ⟨fun h0 => by have := hend.mp h0; omega, fun h0 => by have := hend'.mp h0; omega⟩,
        hbyte, hbyte']
      by_cases hchar : text.getD i 0 = text'.getD i 0
      · rw [if_pos hchar]
        refine ih (by omega) (by omega) (by omega) ?_
        rw [List.getD_eq_getElem _ _ hin.1, List.getD_eq_getElem _ _ hin.2] at hchar
        rw [List.take_add_one, List.take_add_one, hbefore, List.getElem?_eq_getElem hin.1,
          List.getElem?_eq_getElem hin.2, hchar]
      · rw [if_neg hchar, if_neg]
        rintro rfl
        exact hchar rfl
    · -- one of them ends here, or both do
      have hnot : ¬ (m.read8 (p + BitVec.ofNat 32 i) ≠ 0 ∧
          m.read8 (q + BitVec.ofNat 32 i) ≠ 0) := by
        rintro ⟨hne, hne'⟩
        have := mt hend.mpr hne
        have := mt hend'.mpr hne'
        omega
      rw [if_neg hnot]
      by_cases hboth : i = text.length ∧ i = text'.length
      · have hsame : text = text' := by
          rw [List.take_of_length_le (by omega), List.take_of_length_le (by omega)] at hbefore
          exact hbefore
        rw [if_pos ⟨hend.mpr hboth.1, hend'.mpr hboth.2⟩, if_pos hsame]
      · rw [if_neg (fun h0 => hboth ⟨hend.mp h0.1, hend'.mp h0.2⟩), if_neg]
        rintro rfl
        omega

theorem equals_spec (hp : Readable S h p text) (hq : Readable S h q text') :
    Succeeds (equals p q) h fun b h' => b = (if text = text' then 1 else 0) ∧ h' = h := by
  have hlt := hp.length_lt
  refine (succeeds_reads _ h).bind ?_
  rintro found _ ⟨rfl, rfl⟩
  rw [equalsLoop_eq hp.chars hq.chars (Nat.zero_le _) (Nat.zero_le _) (by omega) rfl]
  exact Yields.pure ⟨rfl, rfl⟩

end Equals

/-! ## Expressions over strings -/

/-- Calls of the functions of `string.c`, one in the other. A string that is there already is
given with what it reads; `concatenate` evaluates its first argument first, or last. -/
inductive StringExpr where
  | str (addr : UDword) (text : List UByte)
  | beg (e : StringExpr) (start : ℕ)
  | mid (e : StringExpr) (start stop : ℕ)
  | fin (e : StringExpr) (stop : ℕ)
  | cat (firstFirst : Bool) (e₁ e₂ : StringExpr)

namespace StringExpr

/-- The calls. -/
def run : StringExpr → HeapM UDword
  | str addr _ => return addr
  | beg e start => do
    let str ← e.run
    substringBeg str start
  | mid e start stop => do
    let str ← e.run
    substringMid str start stop
  | fin e stop => do
    let str ← e.run
    substringEnd str stop
  | cat true e₁ e₂ => do
    let str1 ← e₁.run
    let str2 ← e₂.run
    concatenate str1 str2
  | cat false e₁ e₂ => do
    let str2 ← e₂.run
    let str1 ← e₁.run
    concatenate str1 str2

/-- What the result reads: slices and joins of lists. -/
def text : StringExpr → List UByte
  | str _ text => text
  | beg e start => e.text.drop start
  | mid e start stop => (e.text.drop start).take (stop - start)
  | fin e stop => e.text.take stop
  | cat _ e₁ e₂ => e₁.text ++ e₂.text

/-- The sizes of the blocks that are taken. -/
def sizes : StringExpr → List ℕ
  | str _ _ => []
  | beg e start => (e.text.length - start + 1) :: e.sizes
  | mid e start stop => (stop - start + 1) :: e.sizes
  | fin e stop => (stop + 1) :: e.sizes
  | cat _ e₁ e₂ => (e₁.text.length + e₂.text.length + 1) :: (e₁.sizes ++ e₂.sizes)

/-- The strings are there, the indices are in them, and lengths are of type `int`. -/
def Defined (S : Finset Block) (h : Heap) : StringExpr → Prop
  | str addr text => Readable S h addr text
  | beg e start => e.Defined S h ∧ start ≤ e.text.length
  | mid e start stop => e.Defined S h ∧ start ≤ stop ∧ stop ≤ e.text.length
  | fin e stop => e.Defined S h ∧ stop ≤ e.text.length
  | cat _ e₁ e₂ => e₁.Defined S h ∧ e₂.Defined S h ∧ e₁.text.length + e₂.text.length < intRange

end StringExpr

section Evaluation
variable {S S' : Finset Block} {h h' h'' : Heap} {T T' : List Temp} {p size : UDword}
  {text : List UByte} {n k : ℕ} {e : StringExpr}

theorem FirstFits.le (hfits : FirstFits S h n) (hk : k ≤ n) : FirstFits S h k := by
  intro hempty
  have := hfits hempty
  omega

/-- If the first block fits, so does each of the next. -/
theorem FirstFits.holding (hfits : FirstFits S h n) (hh : Holding S h T h') :
    FirstFits (S ∪ blocksOf T) h' n := by
  by_cases hT : T = []
  · subst hT
    intro hempty
    have hbounds := hh.preserves.bounds
    rw [hbounds.heapStart, hbounds.heapEnd]
    exact hfits (Finset.union_eq_empty.mp hempty).1
  · exact firstFits_of_ne hT

theorem StringExpr.Defined.later (hd : e.Defined S h) (hp : Preserves S h h') (hsub : S ⊆ S') :
    e.Defined S' h' := by
  induction e with
  | str addr text => exact (Readable.preserved hd hp).mono hsub
  | beg e start ih => exact ⟨ih hd.1, hd.2⟩
  | mid e start stop ih => exact ⟨ih hd.1, hd.2⟩
  | fin e stop ih => exact ⟨ih hd.1, hd.2⟩
  | cat firstFirst e₁ e₂ ih₁ ih₂ => exact ⟨ih₁ hd.1, ih₂ hd.2.1, hd.2.2⟩

/-- What evaluating an expression comes to: strings have been built, and the result is one of
them, or one that has been there. -/
def Evaluates (S : Finset Block) (h : Heap) (text : List UByte) (f : HeapM UDword) : Prop :=
  Succeeds f h fun q h' => ∃ T, Holding S h T h' ∧ Readable (S ∪ blocksOf T) h' q text

/-- The block on top is the result. -/
theorem Holding.result (hh : Holding S h (⟨p, size, text⟩ :: T) h') (hlt : text.length < intRange) :
    ∃ T, Holding S h T h' ∧ Readable (S ∪ blocksOf T) h' p text :=
  ⟨_, hh, hh.temp List.mem_cons_self hlt⟩

/-- A slice of a string. -/
theorem slice_evaluates {start stop : ℕ} (hh : Holding S h T h')
    (hp : Readable (S ∪ blocksOf T) h' p text) (hle : start ≤ stop) (hstop : stop ≤ text.length)
    (hfits : FirstFits S h (stop - start + 1)) :
    Succeeds (substringMid p start stop) h' fun q h'' => ∃ T, Holding S h T h'' ∧
      Readable (S ∪ blocksOf T) h'' q ((text.drop start).take (stop - start)) := by
  refine (substringMid_spec hh (hfits.holding hh) hp hle hstop).mono fun q h'' hh' => ?_
  refine hh'.result ?_
  have hlt := hp.length_lt
  rw [List.length_take, List.length_drop]
  omega

/-- A join of two strings. -/
theorem concatenate_evaluates {q : UDword} {text' : List UByte} (hh : Holding S h T h')
    (hp : Readable (S ∪ blocksOf T) h' p text) (hq : Readable (S ∪ blocksOf T) h' q text')
    (hlt : text.length + text'.length < intRange)
    (hfits : FirstFits S h (text.length + text'.length + 1)) :
    Succeeds (concatenate p q) h' fun r h'' => ∃ T, Holding S h T h'' ∧
      Readable (S ∪ blocksOf T) h'' r (text ++ text') := by
  have hwrap : text.length + text'.length + 13 < 2 ^ 32 := by
    unfold intRange at hlt
    omega
  refine (concatenate_spec hh (hfits.holding hh) hp hq hwrap).mono fun r h'' hh' => ?_
  refine hh'.result ?_
  rw [List.length_append]
  exact hlt

/-- One expression after another: the first result is still there. -/
theorem Evaluates.both {β : Type} {f₁ f₂ : HeapM UDword} {g : UDword → UDword → HeapM β}
    {text₁ text₂ : List UByte} {Q : β → Heap → Prop} (h₁ : Evaluates S h text₁ f₁)
    (h₂ : ∀ T h', Holding S h T h' → Evaluates (S ∪ blocksOf T) h' text₂ f₂)
    (hg : ∀ p q T h', Holding S h T h' → Readable (S ∪ blocksOf T) h' p text₁ →
      Readable (S ∪ blocksOf T) h' q text₂ → Succeeds (g p q) h' Q) :
    Succeeds (do
      let p ← f₁
      let q ← f₂
      g p q) h Q := by
  refine Yields.bind h₁ ?_
  rintro p h' ⟨T, hh, hp⟩
  refine Yields.bind (h₂ T h' hh) ?_
  rintro q h'' ⟨T', hh', hq⟩
  have hblocks := union_blocksOf_append S T T'
  refine hg p q (T' ++ T) h'' (hh.append hh') ?_ ?_
  · rw [hblocks]
    exact (hp.preserved hh'.preserves).mono Finset.subset_union_left
  · rw [hblocks]
    exact hq

/-- **The functions of `string.c` are those on lists**: an expression of calls, whichever
argument is evaluated first, returns the list the expression stands for. -/
theorem StringExpr.run_spec (hl : Live h S) (hd : e.Defined S h)
    (hfits : ∀ n ∈ e.sizes, FirstFits S h n) : Evaluates S h e.text e.run := by
  induction e generalizing S h with
  | str addr text =>
    refine Yields.pure ⟨[], Holding.start hl, ?_⟩
    exact Readable.mono hd Finset.subset_union_left
  | beg e start ih =>
    refine Yields.bind (ih hl hd.1 fun n hn => hfits n (List.mem_cons_of_mem _ hn)) ?_
    rintro str h' ⟨T, hh, hstr⟩
    refine (len_spec hstr).bind ?_
    rintro _ _ ⟨rfl, rfl⟩
    have hslice := slice_evaluates hh hstr hd.2 le_rfl (hfits _ List.mem_cons_self)
    rw [List.take_of_length_le (by rw [List.length_drop])] at hslice
    exact hslice
  | mid e start stop ih =>
    refine Yields.bind (ih hl hd.1 fun n hn => hfits n (List.mem_cons_of_mem _ hn)) ?_
    rintro str h' ⟨T, hh, hstr⟩
    exact slice_evaluates hh hstr hd.2.1 hd.2.2 (hfits _ List.mem_cons_self)
  | fin e stop ih =>
    refine Yields.bind (ih hl hd.1 fun n hn => hfits n (List.mem_cons_of_mem _ hn)) ?_
    rintro str h' ⟨T, hh, hstr⟩
    exact slice_evaluates hh hstr (Nat.zero_le stop) hd.2 (hfits _ List.mem_cons_self)
  | cat firstFirst e₁ e₂ ih₁ ih₂ =>
    rcases hd with ⟨hd₁, hd₂, hlt⟩
    have hfits₁ : ∀ n ∈ e₁.sizes, FirstFits S h n := fun n hn =>
      hfits n (List.mem_cons_of_mem _ (List.mem_append_left _ hn))
    have hfits₂ : ∀ n ∈ e₂.sizes, FirstFits S h n := fun n hn =>
      hfits n (List.mem_cons_of_mem _ (List.mem_append_right _ hn))
    have hjoin := hfits _ List.mem_cons_self
    -- C leaves open which operand is evaluated first
    cases firstFirst with
    | true =>
      have hnext : ∀ T h', Holding S h T h' → Evaluates (S ∪ blocksOf T) h' e₂.text e₂.run :=
        fun T h' hh => ih₂ hh.live (hd₂.later hh.preserves Finset.subset_union_left)
          fun n hn => (hfits₂ n hn).holding hh
      exact (ih₁ hl hd₁ hfits₁).both hnext fun p q T h' hh hp hq =>
        concatenate_evaluates hh hp hq hlt hjoin
    | false =>
      have hnext : ∀ T h', Holding S h T h' → Evaluates (S ∪ blocksOf T) h' e₁.text e₁.run :=
        fun T h' hh => ih₁ hh.live (hd₁.later hh.preserves Finset.subset_union_left)
          fun n hn => (hfits₁ n hn).holding hh
      exact (ih₂ hl hd₂ hfits₂).both hnext fun q p T h' hh hq hp =>
        concatenate_evaluates hh hp hq hlt hjoin

end Evaluation

/-! ## The laws -/

/-- `equals` of two expressions. -/
def StringExpr.compare (firstFirst : Bool) (e₁ e₂ : StringExpr) : HeapM UByte :=
  match firstFirst with
  | true => do
    let str1 ← e₁.run
    let str2 ← e₂.run
    equals str1 str2
  | false => do
    let str2 ← e₂.run
    let str1 ← e₁.run
    equals str1 str2

/-- The three pieces of a string, cut at `i` and at `j`, put together again. -/
def StringExpr.rejoin (outer inner : Bool) (str : StringExpr) (i j : ℕ) : StringExpr :=
  .cat outer (.cat inner (.fin str i) (.mid str i j)) (.beg str j)

/-- The lengths of two strings, and of the two joined. -/
def lengths (str1 str2 : UDword) : HeapM (ℕ × ℕ × ℕ) := do
  let n1 ← len str1
  let n2 ← len str2
  let result ← concatenate str1 str2
  let n ← len result
  return (n1, n2, n)

/-- How slices, joins and comparisons of strings go together, whichever argument is evaluated
first. Where no block is taken yet, `FirstFits` says that the longest one fits. -/
structure StringLaws (S : Finset Block) (h : Heap) : Prop where
  slice : ∀ p s i j, Readable S h p s → i ≤ j → j ≤ s.length → FirstFits S h (j - i + 1) →
    Succeeds (substringMid p i j) h fun q h' => AddsString S h q h' ((s.drop i).take (j - i)) ∧
      MushOS.size h' q = .ok (BitVec.ofNat 32 (j - i + 1))
  inverse : ∀ p s i j order outer inner, Readable S h p s → i ≤ j → j ≤ s.length →
    FirstFits S h (s.length + 1) →
      Succeeds (StringExpr.compare order ((StringExpr.str p s).rejoin outer inner i j) (.str p s)) h
        fun c _ => c = 1
  additive : ∀ p q a b, Readable S h p a → Readable S h q b → a.length + b.length < intRange →
    FirstFits S h (a.length + b.length + 1) →
      Succeeds (lengths p q) h fun n _ => n = (a.length, b.length, a.length + b.length)
  associative : ∀ p q r a b c o₁ o₂ o₃ o₄ order, Readable S h p a → Readable S h q b →
    Readable S h r c → a.length + b.length + c.length < intRange →
      FirstFits S h (a.length + b.length + c.length + 1) →
        Succeeds (StringExpr.compare order
          (.cat o₁ (.cat o₂ (.str p a) (.str q b)) (.str r c))
          (.cat o₃ (.str p a) (.cat o₄ (.str q b) (.str r c)))) h fun d _ => d = 1
  decides : ∀ p q a b, Readable S h p a → Readable S h q b →
    Succeeds (equals p q) h fun c h' => h' = h ∧
      (c ≠ 0 ↔ a.length = b.length ∧ ∀ i < a.length, a[i]? = b[i]?)

section Laws
variable {S : Finset Block} {h : Heap} {e₁ e₂ : StringExpr}

/-- An expression that is evaluated after others. -/
theorem StringExpr.Defined.run_later {e : StringExpr} {T : List Temp} {h' : Heap}
    (hd : e.Defined S h) (hfits : ∀ n ∈ e.sizes, FirstFits S h n) (hh : Holding S h T h') :
    Evaluates (S ∪ blocksOf T) h' e.text e.run :=
  StringExpr.run_spec hh.live (hd.later hh.preserves Finset.subset_union_left)
    fun n hn => (hfits n hn).holding hh

/-- `equals` of two expressions compares the lists they stand for. -/
theorem StringExpr.compare_spec (firstFirst : Bool) (hl : Live h S) (hd₁ : e₁.Defined S h)
    (hd₂ : e₂.Defined S h) (hfits₁ : ∀ n ∈ e₁.sizes, FirstFits S h n)
    (hfits₂ : ∀ n ∈ e₂.sizes, FirstFits S h n) :
    Succeeds (StringExpr.compare firstFirst e₁ e₂) h fun c _ =>
      c = if e₁.text = e₂.text then 1 else 0 := by
  cases firstFirst with
  | true =>
    exact (StringExpr.run_spec hl hd₁ hfits₁).both (fun T h' hh => hd₂.run_later hfits₂ hh)
      fun p q T h' hh hp hq => (equals_spec hp hq).mono fun c _ hc => hc.1
  | false =>
    exact (StringExpr.run_spec hl hd₂ hfits₂).both (fun T h' hh => hd₁.run_later hfits₁ hh)
      fun q p T h' hh hq hp => (equals_spec hp hq).mono fun c _ hc => hc.1

theorem text_rejoin {outer inner : Bool} {e : StringExpr} {i j : ℕ} (hle : i ≤ j) :
    (e.rejoin outer inner i j).text = e.text := by
  show e.text.take i ++ (e.text.drop i).take (j - i) ++ e.text.drop j = e.text
  rw [← List.take_add, Nat.add_sub_cancel' hle, List.take_append_drop]

theorem substringMid_adds {p : UDword} {s : List UByte} {i j : ℕ} (hl : Live h S)
    (hp : Readable S h p s) (hle : i ≤ j) (hj : j ≤ s.length) (hfits : FirstFits S h (j - i + 1)) :
    Succeeds (substringMid p i j) h fun q h' => AddsString S h q h' ((s.drop i).take (j - i)) ∧
      MushOS.size h' q = .ok (BitVec.ofNat 32 (j - i + 1)) := by
  have hlength : ((s.drop i).take (j - i)).length = j - i := by
    rw [List.length_take, List.length_drop]
    omega
  have hlt : ((s.drop i).take (j - i)).length < intRange := by
    have := hp.length_lt
    omega
  have hstart := Holding.start hl
  refine (substringMid_spec hstart (hfits.holding hstart)
    (hp.mono Finset.subset_union_left) hle hj).mono fun q h' hh => ?_
  have hadds : AddsString S h q h' ((s.drop i).take (j - i)) := by
    refine Holding.addsString ?_ hlt
    rw [hlength]
    exact hh
  have hsize := hadds.size
  rw [hlength] at hsize
  exact ⟨hadds, hsize⟩

theorem rejoin_equal {p : UDword} {s : List UByte} {i j : ℕ} (order outer inner : Bool)
    (hl : Live h S) (hp : Readable S h p s) (hle : i ≤ j) (hj : j ≤ s.length)
    (hfits : FirstFits S h (s.length + 1)) :
    Succeeds (StringExpr.compare order ((StringExpr.str p s).rejoin outer inner i j) (.str p s)) h
      fun c _ => c = 1 := by
  have hlt := hp.length_lt
  have hfirst : (s.take i).length = i := List.length_take_of_le (hle.trans hj)
  have hsecond : ((s.drop i).take (j - i)).length = j - i := by
    rw [List.length_take, List.length_drop]
    omega
  have hthird : (s.drop j).length = s.length - j := List.length_drop
  have hjoined : (s.take i ++ (s.drop i).take (j - i)).length = j := by
    rw [List.length_append, hfirst, hsecond]
    omega
  have hd : ((StringExpr.str p s).rejoin outer inner i j).Defined S h := by
    refine ⟨⟨⟨hp, hle.trans hj⟩, ⟨hp, hle, hj⟩, ?_⟩, ⟨hp, hj⟩, ?_⟩
    · show (s.take i).length + ((s.drop i).take (j - i)).length < intRange
      omega
    · show (s.take i ++ (s.drop i).take (j - i)).length + (s.drop j).length < intRange
      omega
  -- no piece is longer than the string
  have hsizes : ∀ n ∈ ((StringExpr.str p s).rejoin outer inner i j).sizes, n ≤ s.length + 1 := by
    have hlist : ((StringExpr.str p s).rejoin outer inner i j).sizes =
        [(s.take i ++ (s.drop i).take (j - i)).length + (s.drop j).length + 1,
          (s.take i).length + ((s.drop i).take (j - i)).length + 1, i + 1, j - i + 1,
          s.length - j + 1] := rfl
    rw [hlist, hjoined, hfirst, hsecond, hthird]
    simp only [List.forall_mem_cons]
    refine ⟨by omega, by omega, by omega, by omega, by omega, fun n hn => ?_⟩
    exact absurd hn List.not_mem_nil
  have hstr : (StringExpr.str p s).Defined S h := hp
  refine (StringExpr.compare_spec order hl hd hstr (fun n hn => hfits.le (hsizes n hn))
    fun n hn => absurd hn List.not_mem_nil).mono fun c _ hc => ?_
  rw [hc, if_pos (text_rejoin hle)]

theorem lengths_add {p q : UDword} {a b : List UByte} (hl : Live h S) (hp : Readable S h p a)
    (hq : Readable S h q b) (hlt : a.length + b.length < intRange)
    (hfits : FirstFits S h (a.length + b.length + 1)) :
    Succeeds (lengths p q) h fun n _ => n = (a.length, b.length, a.length + b.length) := by
  refine (len_spec hp).bind ?_
  rintro _ _ ⟨rfl, rfl⟩
  refine (len_spec hq).bind ?_
  rintro _ _ ⟨rfl, rfl⟩
  have hstart := Holding.start hl
  refine Yields.bind (concatenate_evaluates hstart (hp.mono Finset.subset_union_left)
    (hq.mono Finset.subset_union_left) hlt hfits) ?_
  rintro r h' ⟨T, -, hr⟩
  refine (len_spec hr).bind ?_
  rintro _ _ ⟨rfl, rfl⟩
  refine Yields.pure ?_
  rw [List.length_append]

theorem concatenate_assoc {p q r : UDword} {a b c : List UByte} (o₁ o₂ o₃ o₄ order : Bool)
    (hl : Live h S) (hp : Readable S h p a) (hq : Readable S h q b) (hr : Readable S h r c)
    (hlt : a.length + b.length + c.length < intRange)
    (hfits : FirstFits S h (a.length + b.length + c.length + 1)) :
    Succeeds (StringExpr.compare order (.cat o₁ (.cat o₂ (.str p a) (.str q b)) (.str r c))
      (.cat o₃ (.str p a) (.cat o₄ (.str q b) (.str r c)))) h fun d _ => d = 1 := by
  have hab : (a ++ b).length = a.length + b.length := List.length_append
  have hbc : (b ++ c).length = b.length + c.length := List.length_append
  have hd₁ : (StringExpr.cat o₁ (.cat o₂ (.str p a) (.str q b)) (.str r c)).Defined S h := by
    refine ⟨⟨hp, hq, ?_⟩, hr, ?_⟩
    · show a.length + b.length < intRange
      omega
    · show (a ++ b).length + c.length < intRange
      omega
  have hd₂ : (StringExpr.cat o₃ (.str p a) (.cat o₄ (.str q b) (.str r c))).Defined S h := by
    refine ⟨hp, ⟨hq, hr, ?_⟩, ?_⟩
    · show b.length + c.length < intRange
      omega
    · show a.length + (b ++ c).length < intRange
      omega
  -- the outer concatenation allocates last, and the most
  have hfits₁ : ∀ n ∈ (StringExpr.cat o₁ (.cat o₂ (.str p a) (.str q b)) (.str r c)).sizes,
      FirstFits S h n := by
    have hlist : (StringExpr.cat o₁ (.cat o₂ (.str p a) (.str q b)) (.str r c)).sizes =
        [(a ++ b).length + c.length + 1, a.length + b.length + 1] := rfl
    rw [hlist, hab]
    simp only [List.forall_mem_cons]
    exact ⟨hfits, hfits.le (by omega), fun n hn => absurd hn List.not_mem_nil⟩
  have hfits₂ : ∀ n ∈ (StringExpr.cat o₃ (.str p a) (.cat o₄ (.str q b) (.str r c))).sizes,
      FirstFits S h n := by
    have hlist : (StringExpr.cat o₃ (.str p a) (.cat o₄ (.str q b) (.str r c))).sizes =
        [a.length + (b ++ c).length + 1, b.length + c.length + 1] := rfl
    rw [hlist, hbc]
    simp only [List.forall_mem_cons]
    exact ⟨hfits.le (by omega), hfits.le (by omega), fun n hn => absurd hn List.not_mem_nil⟩
  refine (StringExpr.compare_spec order hl hd₁ hd₂ hfits₁ hfits₂).mono fun d _ hd => ?_
  have hsame : a ++ b ++ c = a ++ (b ++ c) := List.append_assoc a b c
  rw [hd]
  exact if_pos hsame

theorem equals_decides {p q : UDword} {a b : List UByte} (hp : Readable S h p a)
    (hq : Readable S h q b) : Succeeds (equals p q) h fun c h' => h' = h ∧
      (c ≠ 0 ↔ a.length = b.length ∧ ∀ i < a.length, a[i]? = b[i]?) := by
  refine (equals_spec hp hq).mono ?_
  rintro c h' ⟨rfl, rfl⟩
  refine ⟨rfl, ?_⟩
  by_cases hab : a = b
  · rw [if_pos hab]
    subst hab
    exact ⟨fun _ => ⟨rfl, fun _ _ => rfl⟩, fun _ => by decide⟩
  · rw [if_neg hab]
    refine ⟨fun hne => absurd rfl hne, ?_⟩
    rintro ⟨hlength, hchars⟩
    refine absurd (List.ext_getElem? fun i => ?_) hab
    by_cases hi : i < a.length
    · exact hchars i hi
    · rw [List.getElem?_eq_none (by omega), List.getElem?_eq_none (by omega)]

/-- **Slicing and joining are inverse**, lengths add up, joining is associative, and `equals`
decides whether two strings are the same list of characters. -/
theorem stringLaws (hl : Live h S) : StringLaws S h where
  slice _ _ _ _ hp hle hj hfits := substringMid_adds hl hp hle hj hfits
  inverse _ _ _ _ order outer inner hp hle hj hfits :=
    rejoin_equal order outer inner hl hp hle hj hfits
  additive _ _ _ _ hp hq hlt hfits := lengths_add hl hp hq hlt hfits
  associative _ _ _ _ _ _ o₁ o₂ o₃ o₄ order hp hq hr hlt hfits :=
    concatenate_assoc o₁ o₂ o₃ o₄ order hl hp hq hr hlt hfits
  decides _ _ _ _ hp hq := equals_decides hp hq

/-- The mark of a base, cut after one character and after five. -/
theorem stringLaws_base : StringLaws ∅ rodataHeap ∧
    Succeeds (StringExpr.compare true
      ((StringExpr.str 0x201b (ascii "(base %d) ")).rejoin true false 1 5)
      (.str 0x201b (ascii "(base %d) "))) rodataHeap fun c _ => c = 1 := by
  have hroom : FirstFits ∅ rodataHeap ((ascii "(base %d) ").length + 1) := by
    intro _
    decide +kernel
  exact ⟨stringLaws rodataHeap_live, (stringLaws rodataHeap_live).inverse _ _ 1 5 true true false
    rodataLiterals_placed.baseMark (by decide) (by decide) hroom⟩

end Laws

end MushOS
