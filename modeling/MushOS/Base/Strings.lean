import Mathlib.Data.List.GetD
import MushOS.Base.Live

/-! # string.c: strings on the heap

Code that builds strings takes a new block for every one and releases those it
needs no more. `Holding S₀ h₀ T h` is where such code is at: the heap `h₀`, whose blocks are
`S₀`, has become `h`, the blocks are those of `S₀` and the strings `T`, newest first, and no
byte that was settled in `S₀` has changed. A function that returns a new string puts it in
front of `T` (`concatenate_spec`, `substringMid_spec`); `unalloc` takes one out
(`Holding.release`).

The counters of these functions are of type `int`, which a string of `2 ^ 31` characters
overflows: there is no such string.
-/

namespace MushOS

open ByteMemory Attempts

/-! ## Model -/

/-- The number of values of an `int` that are not negative. -/
def intRange : ℕ := 2 ^ 31

/-- The loop of `len`, from the character `i` on. -/
def lenLoop (str : UDword) (m : Mem) : ℕ → ℕ → Option ℕ
  | 0, _ => none
  | fuel + 1, i =>
    if m.read8 (str + BitVec.ofNat 32 i) = 0 then some i else lenLoop str m fuel (i + 1)

/-- What a loop has come to, if it has ended. -/
def ended {α : Type} : Option α → HeapM α
  | some a => return a
  | none => throw .endless

def len (str : UDword) : HeapM ℕ := do
  ended (← reads fun m => lenLoop str m intRange 0)

/-- `for (i = 0; i < n; ++i) dest[shift + i] = source[skip + i];` -/
def copyChars (source dest : UDword) (skip shift : ℕ) : ℕ → Mem → Mem
  | 0, m => m
  | n + 1, m =>
    let m := copyChars source dest skip shift n m
    m.write8 (dest + BitVec.ofNat 32 (shift + n)) (m.read8 (source + BitVec.ofNat 32 (skip + n)))

/-- `dest[i] = c;` -/
def setChar (dest : UDword) (i : UDword) (c : UByte) : HeapM Unit := writes (·.write8 (dest + i) c)

/-- The loop of `equals`, from the character `i` on, and the test after it. -/
def equalsLoop (str1 str2 : UDword) (m : Mem) : ℕ → ℕ → Option UByte
  | 0, _ => none
  | fuel + 1, i =>
    let c1 := m.read8 (str1 + BitVec.ofNat 32 i)
    let c2 := m.read8 (str2 + BitVec.ofNat 32 i)
    if c1 ≠ 0 ∧ c2 ≠ 0 then
      if c1 = c2 then equalsLoop str1 str2 m fuel (i + 1) else some 0
    else if c1 = 0 ∧ c2 = 0 then some 1 else some 0

def equals (str1 str2 : UDword) : HeapM UByte := do
  ended (← reads fun m => equalsLoop str1 str2 m intRange 0)

def substringMid (str : UDword) (start stop : ℕ) : HeapM UDword := do
  let size := BitVec.ofNat 32 stop - BitVec.ofNat 32 start
  let result ← ralloc (size + 1)
  writes (copyChars str result start 0 (stop - start))
  setChar result size 0
  return result

def substringBeg (str : UDword) (start : ℕ) : HeapM UDword := do
  substringMid str start (← len str)

def substringEnd (str : UDword) (stop : ℕ) : HeapM UDword := substringMid str 0 stop

def concatenate (str1 str2 : UDword) : HeapM UDword := do
  let str1Length ← len str1
  let str2Length ← len str2
  let result ← ralloc (BitVec.ofNat 32 (str1Length + str2Length + 1))
  writes (copyChars str1 result 0 0 str1Length)
  writes (copyChars str2 result 0 str1Length str2Length)
  setChar result (BitVec.ofNat 32 (str1Length + str2Length)) 0
  return result

/-! ## Strings in the memory -/

/-- The characters `text` and a null character, at `p`. -/
structure Chars (m : Mem) (p : UDword) (text : List UByte) : Prop where
  bytes : ∀ i ≤ text.length, m.bytes (p + BitVec.ofNat 32 i) = text.getD i 0
  nonzero : ∀ c ∈ text, c ≠ 0

/-- A string that nothing the heap does can change. -/
structure Readable (S : Finset Block) (h : Heap) (p : UDword) (text : List UByte) : Prop where
  chars : Chars h.mem p text
  settled : ∀ i ≤ text.length, p + BitVec.ofNat 32 i ∈ Settled h S
  length_lt : text.length < intRange

/-- A string on the heap, and the block it is in. -/
structure Temp where
  addr : UDword
  size : UDword
  text : List UByte

def Temp.block (x : Temp) : Block := ⟨x.addr, x.size⟩

/-- The blocks of strings. -/
def blocksOf (T : List Temp) : Finset Block := (T.map Temp.block).toFinset

/-- From `h₀`, whose blocks are `S₀`, to `h` just the strings `T` have been added. -/
structure Holding (S₀ : Finset Block) (h₀ : Heap) (T : List Temp) (h : Heap) : Prop where
  live : Live h (S₀ ∪ blocksOf T)
  nodup : (T.map Temp.addr).Nodup
  apart : ∀ x ∈ T, ∀ b ∈ S₀, b.addr ≠ x.addr
  preserves : Preserves S₀ h₀ h
  strings : ∀ x ∈ T, Chars h.mem x.addr x.text ∧ x.text.length < x.size.toNat

section Chars
variable {m m' : Mem} {p q : UDword} {text text' : List UByte} {n i fuel skip shift : ℕ}

theorem Chars.congr (hc : Chars m p text)
    (hbytes : ∀ i ≤ text.length, m'.bytes (p + BitVec.ofNat 32 i) =
      m.bytes (p + BitVec.ofNat 32 i)) :
    Chars m' p text := by
  refine ⟨?_, hc.nonzero⟩
  intro i hi
  rw [hbytes i hi]
  exact hc.bytes i hi

theorem length_le_of_chars (hc : Chars m p text) (hc' : Chars m p text') :
    text'.length ≤ text.length := by
  by_contra hlt
  rw [not_le] at hlt
  have hend := hc.bytes text.length le_rfl
  have hchar := hc'.bytes text.length hlt.le
  rw [List.getD_eq_default _ _ le_rfl] at hend
  rw [hend, List.getD_eq_getElem _ _ hlt] at hchar
  exact hc'.nonzero _ (List.getElem_mem hlt) hchar.symm

/-- There is one string at an address. -/
theorem Chars.unique (hc : Chars m p text) (hc' : Chars m p text') : text = text' := by
  have hlength := Nat.le_antisymm (length_le_of_chars hc' hc) (length_le_of_chars hc hc')
  refine List.ext_getElem hlength fun i hi hi' => ?_
  have hchar := hc.bytes i hi.le
  have hchar' := hc'.bytes i hi'.le
  rw [List.getD_eq_getElem _ _ hi] at hchar
  rw [List.getD_eq_getElem _ _ hi'] at hchar'
  rw [← hchar, hchar']

/-- The loop of `len` stops at the null character. -/
theorem lenLoop_eq (hc : Chars m p text) (hi : i ≤ text.length) (hfuel : text.length - i < fuel) :
    lenLoop p m fuel i = some text.length := by
  induction fuel generalizing i with
  | zero => omega
  | succ fuel ih =>
    have hbyte := hc.bytes i hi
    unfold lenLoop Mem.read8
    rw [hbyte]
    by_cases hlast : i = text.length
    · have hnull : text.getD i 0 = 0 := by
        rw [hlast]
        simp
      rw [if_pos hnull, hlast]
    · have hlt : i < text.length := by omega
      have hchar : text.getD i 0 ≠ 0 := by
        rw [List.getD_eq_getElem _ _ hlt]
        exact hc.nonzero _ (List.getElem_mem hlt)
      rw [if_neg hchar]
      exact ih (by omega) (by omega)

theorem writes_copyChars (hfit : q.toNat + shift + n ≤ 2 ^ 32) :
    Writes (span (q.toNat + shift) n) m (copyChars p q skip shift n m) := by
  induction n with
  | zero => exact Writes.refl _ m
  | succ n ih =>
    refine ((ih (by omega)).mono ?_).trans (writes_write8 _ _ ?_)
    · intro a ha
      rw [mem_span] at ha ⊢
      omega
    · rw [mem_span, toNat_add_ofNat (by omega)]
      omega

/-- The characters copied, from a source that is not written. -/
theorem copyChars_bytes (hfit : q.toNat + shift + n ≤ 2 ^ 32)
    (hout : ∀ i < n, p + BitVec.ofNat 32 (skip + i) ∉ span (q.toNat + shift) n) (hi : i < n) :
    (copyChars p q skip shift n m).bytes (q + BitVec.ofNat 32 (shift + i)) =
      m.bytes (p + BitVec.ofNat 32 (skip + i)) := by
  induction n with
  | zero => omega
  | succ n ih =>
    have hsub : ∀ a, a ∉ span (q.toNat + shift) (n + 1) → a ∉ span (q.toNat + shift) n := by
      intro a ha hmem
      rw [mem_span] at ha hmem
      omega
    rw [copyChars]
    by_cases hin : i = n
    · rw [hin, Mem.write8_bytes_self]
      exact (writes_copyChars (by omega)).frame _ (hsub _ (hout n (by omega)))
    · rw [Mem.write8_bytes_ne, ih (by omega) (fun j hj => hsub _ (hout j (by omega))) (by omega)]
      intro heq
      have hnat := congrArg BitVec.toNat heq
      rw [toNat_add_ofNat (by omega), toNat_add_ofNat (by omega)] at hnat
      omega

/-- A piece of a string, copied and closed. -/
theorem chars_slice {stop : ℕ} (hc : Chars m p text) (hle : skip ≤ stop)
    (hstop : stop ≤ text.length)
    (hfit : q.toNat + (stop - skip + 1) ≤ 2 ^ 32)
    (hout : ∀ i ≤ text.length, p + BitVec.ofNat 32 i ∉ span q.toNat (stop - skip + 1)) :
    Writes (span q.toNat (stop - skip + 1)) m ((copyChars p q skip 0 (stop - skip) m).write8
      (q + BitVec.ofNat 32 (stop - skip)) 0) ∧
    Chars ((copyChars p q skip 0 (stop - skip) m).write8
      (q + BitVec.ofNat 32 (stop - skip)) 0) q ((text.drop skip).take (stop - skip)) := by
  have hlast : (q + BitVec.ofNat 32 (stop - skip)).toNat = q.toNat + (stop - skip) :=
    toNat_add_ofNat (by omega)
  have hlength : ((text.drop skip).take (stop - skip)).length = stop - skip := by
    rw [List.length_take, List.length_drop]
    omega
  have hsub : span (q.toNat + 0) (stop - skip) ⊆ span q.toNat (stop - skip + 1) := by
    intro a ha
    rw [mem_span] at ha ⊢
    omega
  constructor
  · refine ((writes_copyChars (by omega)).mono hsub).trans (writes_write8 _ _ ?_)
    rw [mem_span]
    omega
  · refine ⟨?_, fun c hmem => hc.nonzero c (List.mem_of_mem_drop (List.mem_of_mem_take hmem))⟩
    intro i hi
    rw [hlength] at hi
    -- the byte behind the copied characters ends the string
    by_cases hend : i = stop - skip
    · rw [hend, Mem.write8_bytes_self, List.getD_eq_default _ _ (by omega)]
    · have haddr : (q + BitVec.ofNat 32 i).toNat = q.toNat + i := toNat_add_ofNat (by omega)
      have hne : q + BitVec.ofNat 32 i ≠ q + BitVec.ofNat 32 (stop - skip) := by
        intro heq
        rw [heq] at haddr
        omega
      have hcopied : (copyChars p q skip 0 (stop - skip) m).bytes (q + BitVec.ofNat 32 (0 + i)) =
          m.bytes (p + BitVec.ofNat 32 (skip + i)) :=
        copyChars_bytes (by omega) (fun j hj hmem => hout (skip + j) (by omega) (hsub hmem))
          (by omega)
      rw [Nat.zero_add] at hcopied
      rw [Mem.write8_bytes_ne _ _ hne, hcopied, hc.bytes _ (by omega)]
      simp [show i < stop - skip by omega]

/-- Two strings, one after the other, and closed. -/
theorem chars_append {p' : UDword} {text' : List UByte} (hc : Chars m p text)
    (hc' : Chars m p' text') (hfit : q.toNat + (text.length + text'.length + 1) ≤ 2 ^ 32)
    (hout : ∀ i ≤ text.length, p + BitVec.ofNat 32 i ∉
      span q.toNat (text.length + text'.length + 1))
    (hout' : ∀ i ≤ text'.length, p' + BitVec.ofNat 32 i ∉
      span q.toNat (text.length + text'.length + 1)) :
    Writes (span q.toNat (text.length + text'.length + 1)) m
      ((copyChars p' q 0 text.length text'.length (copyChars p q 0 0 text.length m)).write8
        (q + BitVec.ofNat 32 (text.length + text'.length)) 0) ∧
    Chars ((copyChars p' q 0 text.length text'.length (copyChars p q 0 0 text.length m)).write8
      (q + BitVec.ofNat 32 (text.length + text'.length)) 0) q (text ++ text') := by
  have hlast : (q + BitVec.ofNat 32 (text.length + text'.length)).toNat =
      q.toNat + (text.length + text'.length) := toNat_add_ofNat (by omega)
  have hfirst : span (q.toNat + 0) text.length ⊆ span q.toNat (text.length + text'.length + 1) := by
    intro a ha
    rw [mem_span] at ha ⊢
    omega
  have hsecond : span (q.toNat + text.length) text'.length ⊆
      span q.toNat (text.length + text'.length + 1) := by
    intro a ha
    rw [mem_span] at ha ⊢
    omega
  have hw₁ : Writes (span (q.toNat + 0) text.length) m (copyChars p q 0 0 text.length m) :=
    writes_copyChars (by omega)
  have hw₂ : Writes (span (q.toNat + text.length) text'.length) (copyChars p q 0 0 text.length m)
      (copyChars p' q 0 text.length text'.length (copyChars p q 0 0 text.length m)) :=
    writes_copyChars (by omega)
  constructor
  · refine ((hw₁.mono hfirst).trans (hw₂.mono hsecond)).trans (writes_write8 _ _ ?_)
    rw [mem_span]
    omega
  · refine ⟨?_, ?_⟩
    · intro i hi
      rw [List.length_append] at hi
      by_cases hend : i = text.length + text'.length
      · rw [hend, Mem.write8_bytes_self, List.getD_eq_default _ _ (by simp)]
      · have haddr : (q + BitVec.ofNat 32 i).toNat = q.toNat + i := toNat_add_ofNat (by omega)
        have hne : q + BitVec.ofNat 32 i ≠ q + BitVec.ofNat 32 (text.length + text'.length) := by
          intro heq
          rw [heq] at haddr
          omega
        rw [Mem.write8_bytes_ne _ _ hne]
        by_cases hlt : i < text.length
        · -- a character of the first string, which the second loop leaves
          have hcopied : (copyChars p q 0 0 text.length m).bytes (q + BitVec.ofNat 32 (0 + i)) =
              m.bytes (p + BitVec.ofNat 32 (0 + i)) :=
            copyChars_bytes (by omega) (fun j hj hmem => hout (0 + j) (by omega) (hfirst hmem)) hlt
          rw [Nat.zero_add] at hcopied
          have hkept : q + BitVec.ofNat 32 i ∉ span (q.toNat + text.length) text'.length := by
            rw [mem_span]
            omega
          rw [hw₂.frame _ hkept, hcopied, hc.bytes i (by omega), List.getD_append _ _ _ _ hlt]
        · rcases Nat.exists_eq_add_of_le (Nat.le_of_not_lt hlt) with ⟨j, rfl⟩
          have hcopied : (copyChars p' q 0 text.length text'.length
              (copyChars p q 0 0 text.length m)).bytes (q + BitVec.ofNat 32 (text.length + j)) =
                (copyChars p q 0 0 text.length m).bytes (p' + BitVec.ofNat 32 (0 + j)) :=
            copyChars_bytes (by omega)
              (fun j hj hmem => hout' (0 + j) (by omega) (hsecond hmem)) (by omega)
          rw [Nat.zero_add] at hcopied
          have hkept : p' + BitVec.ofNat 32 j ∉ span (q.toNat + 0) text.length :=
            fun hmem => hout' j (by omega) (hfirst hmem)
          rw [hcopied, hw₁.frame _ hkept, hc'.bytes j (by omega),
            List.getD_append_right _ _ _ _ (by omega), Nat.add_sub_cancel_left]
    · intro c hmem
      rcases List.mem_append.mp hmem with hmem | hmem
      · exact hc.nonzero c hmem
      · exact hc'.nonzero c hmem

end Chars

/-! ## Taking strings and releasing them -/

section Holding
variable {S₀ S S' : Finset Block} {h₀ h h' : Heap} {T T₁ T₂ : List Temp} {x y z : Temp}
  {p q size : UDword} {text : List UByte}

theorem mem_blocksOf {b : Block} : b ∈ blocksOf T ↔ ∃ x ∈ T, x.block = b := by
  unfold blocksOf
  rw [List.mem_toFinset, List.mem_map]

theorem Readable.mono (hr : Readable S h p text) (hsub : S ⊆ S') : Readable S' h p text :=
  ⟨hr.chars, fun i hi => settled_mono hsub (hr.settled i hi), hr.length_lt⟩

theorem Readable.preserved (hr : Readable S h p text) (hp : Preserves S h h') :
    Readable S h' p text := by
  refine ⟨hr.chars.congr fun i hi => hp.bytes _ (hr.settled i hi), ?_, hr.length_lt⟩
  intro i hi
  rw [hp.bounds.settled]
  exact hr.settled i hi

/-- Nothing has been taken yet. -/
theorem Holding.start (hl : Live h S) : Holding S h [] h := by
  refine ⟨?_, List.nodup_nil, ?_, Preserves.refl S h, ?_⟩
  · show Live h (S ∪ ∅)
    rw [Finset.union_empty]
    exact hl
  · intro x hx
    cases hx
  · intro x hx
    cases hx

/-- A string that was there before. -/
theorem Holding.readable (hh : Holding S₀ h₀ T h) (hr : Readable S₀ h₀ p text) :
    Readable (S₀ ∪ blocksOf T) h p text :=
  (hr.preserved hh.preserves).mono Finset.subset_union_left

/-- A string that has been built. -/
theorem Holding.temp (hh : Holding S₀ h₀ T h) (hx : x ∈ T) (hlt : x.text.length < intRange) :
    Readable (S₀ ∪ blocksOf T) h x.addr x.text := by
  rcases hh.strings x hx with ⟨hchars, hfits⟩
  have hmem : x.block ∈ S₀ ∪ blocksOf T := Finset.mem_union_right _ (mem_blocksOf.mpr ⟨x, hx, rfl⟩)
  refine ⟨hchars, ?_, hlt⟩
  intro i hi
  refine Or.inr ⟨x.block, hmem, ?_⟩
  exact hh.live.mem_payload hmem (show i < x.size.toNat by omega)

/-- If no block is taken yet, one of `n` bytes fits. -/
def FirstFits (S : Finset Block) (h : Heap) (n : ℕ) : Prop :=
  S = ∅ → h.heapStart.toNat + 12 + n ≤ h.heapEnd.toNat

/-- A string is a block. -/
theorem firstFits_of_ne {n : ℕ} (hT : T ≠ []) : FirstFits (S₀ ∪ blocksOf T) h n := by
  intro hempty
  rcases List.exists_cons_of_ne_nil hT with ⟨x, T, rfl⟩
  have hmem : x.block ∈ S₀ ∪ blocksOf (x :: T) :=
    Finset.mem_union_right _ (mem_blocksOf.mpr ⟨x, List.mem_cons_self, rfl⟩)
  rw [hempty] at hmem
  exact absurd hmem (Finset.notMem_empty _)

theorem firstFits_cons {n : ℕ} : FirstFits (S₀ ∪ blocksOf (x :: T)) h n :=
  firstFits_of_ne (List.cons_ne_nil _ _)

/-- No more is known of an allocation than that it may fail. -/
theorem Holding.allocates {n : ℕ} (hh : Holding S₀ h₀ T h)
    (hfirst : FirstFits (S₀ ∪ blocksOf T) h (n + 1)) (hwrap : n + 13 < 2 ^ 32) :
    Allocates {.hung allocationException} (S₀ ∪ blocksOf T) h (n + 1) fun _ => True := by
  refine hh.live.allocates hwrap fun hempty => ?_
  have hfit := hfirst hempty
  exact ⟨by omega, by omega⟩

theorem blocksOf_append (T₁ T₂ : List Temp) : blocksOf (T₁ ++ T₂) = blocksOf T₁ ∪ blocksOf T₂ := by
  unfold blocksOf
  rw [List.map_append, List.toFinset_append]

/-- The blocks with those of more strings. -/
theorem union_blocksOf_append (S : Finset Block) (T₁ T₂ : List Temp) :
    S ∪ blocksOf (T₂ ++ T₁) = S ∪ blocksOf T₁ ∪ blocksOf T₂ := by
  rw [blocksOf_append, Finset.union_comm (blocksOf T₂), Finset.union_assoc]

/-- More strings, on top of those that have been built. -/
theorem Holding.append {h'' : Heap} (hh : Holding S₀ h₀ T₁ h')
    (hh' : Holding (S₀ ∪ blocksOf T₁) h' T₂ h'') : Holding S₀ h₀ (T₂ ++ T₁) h'' := by
  have hblocks := union_blocksOf_append S₀ T₁ T₂
  have hapart : ∀ x ∈ T₂, ∀ y ∈ T₁, y.addr ≠ x.addr := fun x hx y hy =>
    hh'.apart x hx y.block (Finset.mem_union_right _ (mem_blocksOf.mpr ⟨y, hy, rfl⟩))
  refine ⟨?_, ?_, ?_, hh.preserves.trans (hh'.preserves.mono Finset.subset_union_left), ?_⟩
  · rw [hblocks]
    exact hh'.live
  · rw [List.map_append]
    refine List.nodup_append.mpr ⟨hh'.nodup, hh.nodup, ?_⟩
    intro a ha b hb heq
    rcases List.mem_map.mp ha with ⟨x, hx, rfl⟩
    rcases List.mem_map.mp hb with ⟨y, hy, rfl⟩
    exact hapart x hx y hy heq.symm
  · intro x hx b hb
    rcases List.mem_append.mp hx with hx | hx
    · exact hh'.apart x hx b (Finset.mem_union_left _ hb)
    · exact hh.apart x hx b hb
  · intro x hx
    rcases List.mem_append.mp hx with hx | hx
    · exact hh'.strings x hx
    · -- the strings before are settled
      rcases hh.strings x hx with ⟨hchars, hfits⟩
      have hmem : x.block ∈ S₀ ∪ blocksOf T₁ :=
        Finset.mem_union_right _ (mem_blocksOf.mpr ⟨x, hx, rfl⟩)
      refine ⟨hchars.congr fun i hi => hh'.preserves.bytes _ (Or.inr ⟨x.block, hmem, ?_⟩), hfits⟩
      exact hh.live.mem_payload hmem (show i < x.size.toNat by omega)

theorem union_blocksOf_singleton (S : Finset Block) (x : Temp) :
    S ∪ blocksOf [x] = insert x.block S := by
  rw [Finset.insert_eq, Finset.union_comm]
  rfl

/-- A block that has been taken and filled is a string. -/
theorem Holding.single (hgot : Obtains S h size p h') (hc : Chars h'.mem p text)
    (hlt : text.length < size.toNat) : Holding S h [⟨p, size, text⟩] h' := by
  refine ⟨?_, List.nodup_singleton _, ?_, hgot.preserves, ?_⟩
  · rw [union_blocksOf_singleton]
    exact hgot.live
  · intro x hx b hb
    rw [List.mem_singleton.mp hx]
    exact hgot.fresh b hb
  · intro x hx
    rw [List.mem_singleton.mp hx]
    exact ⟨hc, hlt⟩

theorem Holding.push (hh : Holding S₀ h₀ T h) (hgot : Obtains (S₀ ∪ blocksOf T) h size p h')
    (hc : Chars h'.mem p text) (hlt : text.length < size.toNat) :
    Holding S₀ h₀ (⟨p, size, text⟩ :: T) h' :=
  hh.append (Holding.single hgot hc hlt)

/-- `unalloc` of one of the strings. -/
theorem Holding.release {E : Set Fault} (hh : Holding S₀ h₀ (T₁ ++ x :: T₂) h) :
    Yields strict E (release x.addr) h fun _ h' => Holding S₀ h₀ (T₁ ++ T₂) h' := by
  have hx : x ∈ T₁ ++ x :: T₂ := List.mem_append_right _ List.mem_cons_self
  have hmem : x.block ∈ S₀ ∪ blocksOf (T₁ ++ x :: T₂) :=
    Finset.mem_union_right _ (mem_blocksOf.mpr ⟨x, hx, rfl⟩)
  have hnodup := hh.nodup
  rw [List.map_append, List.map_cons, List.nodup_middle, List.nodup_cons, ← List.map_append]
    at hnodup
  -- the temporaries have different addresses, so only `x` goes
  have hother : ∀ y ∈ T₁ ++ T₂, y.block ≠ x.block := by
    intro y hy heq
    exact hnodup.1 (List.mem_map.mpr ⟨y, hy, congrArg Block.addr heq⟩)
  have hsub : ∀ y ∈ T₁ ++ T₂, y ∈ T₁ ++ x :: T₂ := by
    intro y hy
    rcases List.mem_append.mp hy with hy | hy
    · exact List.mem_append_left _ hy
    · exact List.mem_append_right _ (List.mem_cons_of_mem _ hy)
  have herase : (S₀ ∪ blocksOf (T₁ ++ x :: T₂)).erase x.block = S₀ ∪ blocksOf (T₁ ++ T₂) := by
    ext b
    rw [Finset.mem_erase, Finset.mem_union, Finset.mem_union, mem_blocksOf, mem_blocksOf]
    constructor
    · rintro ⟨hne, hb | ⟨y, hy, rfl⟩⟩
      · exact Or.inl hb
      · refine Or.inr ⟨y, ?_, rfl⟩
        rcases List.mem_append.mp hy with hy | hy
        · exact List.mem_append_left _ hy
        · rcases List.mem_cons.mp hy with rfl | hy
          · exact absurd rfl hne
          · exact List.mem_append_right _ hy
    · rintro (hb | ⟨y, hy, rfl⟩)
      · exact ⟨fun heq => hh.apart x hx b hb (congrArg Block.addr heq), Or.inl hb⟩
      · exact ⟨hother y hy, Or.inr ⟨y, hsub y hy, rfl⟩⟩
  refine (hh.live.release hmem).mono ?_
  rintro _ h' ⟨hl, hp⟩
  rw [herase] at hl
  refine ⟨hl, hnodup.2, fun y hy => hh.apart y (hsub y hy),
    hh.preserves.trans (hp.mono Finset.subset_union_left), ?_⟩
  intro y hy
  rcases hh.strings y (hsub y hy) with ⟨hchars, hfits⟩
  have hymem : y.block ∈ S₀ ∪ blocksOf (T₁ ++ x :: T₂) :=
    Finset.mem_union_right _ (mem_blocksOf.mpr ⟨y, hsub y hy, rfl⟩)
  refine ⟨hchars.congr fun i hi => hp.bytes _ (Or.inr ⟨y.block, hymem, ?_⟩), hfits⟩
  exact hh.live.mem_payload hymem (show i < y.size.toNat by omega)

/-- Strings that have been built one after the other are in different places. -/
theorem Holding.ne_of_cons (hh : Holding S₀ h₀ (y :: x :: T) h) : x.addr ≠ y.addr := by
  have hnodup := hh.nodup
  rw [List.map_cons, List.nodup_cons, List.map_cons] at hnodup
  exact fun heq => hnodup.1 (heq ▸ List.mem_cons_self)

/-- Two strings fit in the address space. -/
theorem Holding.pair (hh : Holding S₀ h₀ T h) (hx : x ∈ T) (hy : y ∈ T) (hne : x.addr ≠ y.addr) :
    x.size.toNat + y.size.toNat + 24 < 2 ^ 32 := by
  have hx' := Finset.mem_union_right S₀ (mem_blocksOf.mpr ⟨x, hx, rfl⟩)
  have hy' := Finset.mem_union_right S₀ (mem_blocksOf.mpr ⟨y, hy, rfl⟩)
  have hxb := hh.live.bounds hx'
  have hyb := hh.live.bounds hy'
  have hend := h.heapEnd.isLt
  have horder := hh.live.sorted hx' hy'
  unfold Block.Before Block.stop at horder
  unfold Temp.block at hxb hyb horder
  dsimp only at hxb hyb horder
  rcases horder with heq | hlt | hlt
  · exact absurd (congrArg Block.addr heq) hne
  · omega
  · omega

/-- So do three. -/
theorem Holding.triple (hh : Holding S₀ h₀ T h) (hx : x ∈ T) (hy : y ∈ T) (hz : z ∈ T)
    (hxy : x.addr ≠ y.addr) (hxz : x.addr ≠ z.addr) (hyz : y.addr ≠ z.addr) :
    x.size.toNat + y.size.toNat + z.size.toNat < 2 ^ 32 := by
  have hx' := Finset.mem_union_right S₀ (mem_blocksOf.mpr ⟨x, hx, rfl⟩)
  have hy' := Finset.mem_union_right S₀ (mem_blocksOf.mpr ⟨y, hy, rfl⟩)
  have hz' := Finset.mem_union_right S₀ (mem_blocksOf.mpr ⟨z, hz, rfl⟩)
  have hxb := hh.live.bounds hx'
  have hyb := hh.live.bounds hy'
  have hzb := hh.live.bounds hz'
  have hend := h.heapEnd.isLt
  have horder := hh.live.sorted hx' hy'
  have horder' := hh.live.sorted hx' hz'
  have horder'' := hh.live.sorted hy' hz'
  unfold Block.Before Block.stop at horder horder' horder''
  unfold Temp.block at hxb hyb hzb horder horder' horder''
  dsimp only at hxb hyb hzb horder horder' horder''
  rcases horder with heq | horder
  · exact absurd (congrArg Block.addr heq) hxy
  rcases horder' with heq | horder'
  · exact absurd (congrArg Block.addr heq) hxz
  rcases horder'' with heq | horder''
  · exact absurd (congrArg Block.addr heq) hyz
  omega

end Holding

/-! ## What the functions return -/

section Functions
variable {S₀ S : Finset Block} {h₀ h h' : Heap} {T : List Temp} {p q r size : UDword}
  {text text' : List UByte} {start stop : ℕ} {E : Set Fault} {R : Block → Prop}

theorem len_spec (hr : Readable S h p text) :
    Yields strict E (len p) h fun n h' => n = text.length ∧ h' = h := by
  refine (succeeds_reads _ h).bind ?_
  rintro found _ ⟨rfl, rfl⟩
  have hlt := hr.length_lt
  rw [lenLoop_eq hr.chars (Nat.zero_le _) (by omega)]
  exact Yields.pure ⟨rfl, rfl⟩

/-- What is settled is not in the block that has just been taken. -/
theorem Obtains.not_payload (hgot : Obtains S h size r h') {a : UDword} (ha : a ∈ Settled h S) :
    a ∉ (Block.mk r size).payload := by
  have hmem := Finset.mem_insert_self (⟨r, size⟩ : Block) S
  have hbounds := hgot.live.bounds hmem
  dsimp only at hbounds
  rw [hgot.preserves.bounds.header, hgot.preserves.bounds.heapEnd] at hbounds
  rcases ha with hout | ⟨b, hb, ha⟩
  · intro hin
    refine hout ?_
    unfold Block.payload at hin
    rw [mem_span] at hin
    dsimp only at hin
    exact ⟨by omega, by omega⟩
  · refine hgot.live.payload_disjoint (Finset.mem_insert_of_mem hb) hmem ?_ ha
    rintro rfl
    exact hgot.fresh _ hb rfl

/-- A new block, filled with a piece of a string. -/
theorem Holding.slice (hh : Holding S₀ h₀ T h) (hp : Readable (S₀ ∪ blocksOf T) h p text)
    (hle : start ≤ stop) (hstop : stop ≤ text.length) (hsize : size.toNat = stop - start + 1)
    (hgot : Obtains (S₀ ∪ blocksOf T) h size r h') :
    Holding S₀ h₀ (⟨r, size, (text.drop start).take (stop - start)⟩ :: T)
      { h' with
        mem := (copyChars p r start 0 (stop - start) h'.mem).write8
          (r + BitVec.ofNat 32 (stop - start)) 0 } := by
  have hfit := hgot.live.payload_lt (Finset.mem_insert_self _ _)
  dsimp only at hfit
  have hspan : (Block.mk r size).payload = span r.toNat (stop - start + 1) := by
    unfold Block.payload
    rw [hsize]
  have hchars : Chars h'.mem p text :=
    hp.chars.congr fun i hi => hgot.preserves.bytes _ (hp.settled i hi)
  have hout : ∀ i ≤ text.length, p + BitVec.ofNat 32 i ∉ span r.toNat (stop - start + 1) := by
    intro i hi
    rw [← hspan]
    exact hgot.not_payload (hp.settled i hi)
  rcases chars_slice hchars hle hstop (by omega) hout with ⟨hw, hcopy⟩
  rw [← hspan] at hw
  refine hh.push (hgot.write hw) hcopy ?_
  rw [List.length_take]
  omega

/-- What `substring_mid` does with a block for the characters. -/
theorem substringMid_of_allocates (hh : Holding S₀ h₀ T h)
    (hp : Readable (S₀ ∪ blocksOf T) h p text) (hle : start ≤ stop) (hstop : stop ≤ text.length)
    (ha : Allocates E (S₀ ∪ blocksOf T) h (stop - start + 1) R) :
    Yields strict E (substringMid p start stop) h fun r h' =>
      R ⟨r, BitVec.ofNat 32 (stop - start + 1)⟩ ∧ Holding S₀ h₀
        (⟨r, BitVec.ofNat 32 (stop - start + 1), (text.drop start).take (stop - start)⟩ :: T)
          h' := by
  have hlt := hp.length_lt
  unfold intRange at hlt
  have hdiff : BitVec.ofNat 32 stop - BitVec.ofNat 32 start = BitVec.ofNat 32 (stop - start) := by
    bv_omega
  have hnext : BitVec.ofNat 32 (stop - start) + 1 = BitVec.ofNat 32 (stop - start + 1) := by
    bv_omega
  have hsize : (BitVec.ofNat 32 (stop - start + 1)).toNat = stop - start + 1 :=
    toNat_ofNat_of_lt (by omega)
  unfold substringMid
  dsimp only
  rw [hdiff, hnext]
  refine (ha _ hsize).bind ?_
  rintro r h₁ ⟨hR, hgot⟩
  refine (succeeds_writes _ h₁).bind ?_
  rintro _ _ rfl
  refine (succeeds_writes _ _).bind ?_
  rintro _ _ rfl
  exact Yields.pure ⟨hR, hh.slice hp hle hstop hsize hgot⟩

/-- **`substring_mid`** returns a new string. -/
theorem substringMid_spec (hh : Holding S₀ h₀ T h)
    (hfirst : FirstFits (S₀ ∪ blocksOf T) h (stop - start + 1))
    (hp : Readable (S₀ ∪ blocksOf T) h p text) (hle : start ≤ stop) (hstop : stop ≤ text.length) :
    Succeeds (substringMid p start stop) h fun r h' =>
      Holding S₀ h₀
        (⟨r, BitVec.ofNat 32 (stop - start + 1), (text.drop start).take (stop - start)⟩ :: T)
          h' := by
  have hlt := hp.length_lt
  unfold intRange at hlt
  exact (substringMid_of_allocates hh hp hle hstop (hh.allocates hfirst (by omega))).mono
    fun _ _ hr => hr.2

/-- To the end of the string. -/
theorem substringBeg_of_allocates (hh : Holding S₀ h₀ T h)
    (hp : Readable (S₀ ∪ blocksOf T) h p text) (hle : start ≤ text.length)
    (ha : Allocates E (S₀ ∪ blocksOf T) h (text.length - start + 1) R) :
    Yields strict E (substringBeg p start) h fun r h' =>
      R ⟨r, BitVec.ofNat 32 (text.length - start + 1)⟩ ∧ Holding S₀ h₀
        (⟨r, BitVec.ofNat 32 (text.length - start + 1), text.drop start⟩ :: T) h' := by
  refine (len_spec hp).bind ?_
  rintro _ h' ⟨rfl, hsame⟩
  rw [hsame]
  refine (substringMid_of_allocates hh hp hle le_rfl ha).mono ?_
  rintro r h' ⟨hR, hh'⟩
  rw [List.take_of_length_le (by rw [List.length_drop])] at hh'
  exact ⟨hR, hh'⟩

theorem substringBeg_spec (hh : Holding S₀ h₀ T h)
    (hfirst : FirstFits (S₀ ∪ blocksOf T) h (text.length - start + 1))
    (hp : Readable (S₀ ∪ blocksOf T) h p text) (hle : start ≤ text.length) :
    Succeeds (substringBeg p start) h fun r h' =>
      Holding S₀ h₀ (⟨r, BitVec.ofNat 32 (text.length - start + 1), text.drop start⟩ :: T) h' := by
  have hlt := hp.length_lt
  unfold intRange at hlt
  exact (substringBeg_of_allocates hh hp hle (hh.allocates hfirst (by omega))).mono
    fun _ _ hr => hr.2

/-- Two strings, copied into a new block. -/
theorem Obtains.joined (hgot : Obtains S h size r h') (hp : Readable S h p text)
    (hq : Readable S h q text') (hsize : size.toNat = text.length + text'.length + 1) :
    Obtains S h size r { h' with
      mem := (copyChars q r 0 text.length text'.length
        (copyChars p r 0 0 text.length h'.mem)).write8
          (r + BitVec.ofNat 32 (text.length + text'.length)) 0 } ∧
    Chars ((copyChars q r 0 text.length text'.length
      (copyChars p r 0 0 text.length h'.mem)).write8
        (r + BitVec.ofNat 32 (text.length + text'.length)) 0) r (text ++ text') := by
  have hfit := hgot.live.payload_lt (Finset.mem_insert_self _ _)
  dsimp only at hfit
  rw [hsize] at hfit
  have hkept : ∀ a ∈ Settled h S, h'.mem.bytes a = h.mem.bytes a := hgot.preserves.bytes
  have hspan : (Block.mk r size).payload = span r.toNat (text.length + text'.length + 1) := by
    unfold Block.payload
    rw [hsize]
  -- both strings are settled, so neither is in the new block
  have hnot : ∀ a ∈ Settled h S, a ∉ span r.toNat (text.length + text'.length + 1) := by
    intro a ha
    rw [← hspan]
    exact hgot.not_payload ha
  rcases chars_append (q := r) (hp.chars.congr fun i hi => hkept _ (hp.settled i hi))
    (hq.chars.congr fun i hi => hkept _ (hq.settled i hi)) (by omega)
    (fun i hi => hnot _ (hp.settled i hi)) (fun i hi => hnot _ (hq.settled i hi)) with ⟨hw, hchars⟩
  rw [← hspan] at hw
  exact ⟨hgot.write hw, hchars⟩

/-- What `concatenate` does with a block for both strings. -/
theorem concatenate_of_allocates (hh : Holding S₀ h₀ T h)
    (hp : Readable (S₀ ∪ blocksOf T) h p text) (hq : Readable (S₀ ∪ blocksOf T) h q text')
    (hwrap : text.length + text'.length + 13 < 2 ^ 32)
    (ha : Allocates E (S₀ ∪ blocksOf T) h (text.length + text'.length + 1) R) :
    Yields strict E (concatenate p q) h fun r h' =>
      R ⟨r, BitVec.ofNat 32 (text.length + text'.length + 1)⟩ ∧
        Holding S₀ h₀ (⟨r, BitVec.ofNat 32 (text.length + text'.length + 1), text ++ text'⟩ :: T)
          h' := by
  have hsize : (BitVec.ofNat 32 (text.length + text'.length + 1)).toNat =
      text.length + text'.length + 1 := toNat_ofNat_of_lt (by omega)
  refine (len_spec hp).bind ?_
  rintro _ h' ⟨rfl, hsame⟩
  rw [hsame]
  refine (len_spec hq).bind ?_
  rintro _ h' ⟨rfl, hsame⟩
  rw [hsame]
  refine (ha _ hsize).bind ?_
  rintro r h₁ ⟨hR, hgot⟩
  rcases hgot.joined hp hq hsize with ⟨hjoined, hchars⟩
  refine (succeeds_writes _ h₁).bind ?_
  rintro _ _ rfl
  refine (succeeds_writes _ _).bind ?_
  rintro _ _ rfl
  refine (succeeds_writes _ _).bind ?_
  rintro _ _ rfl
  refine Yields.pure ⟨hR, hh.push hjoined hchars ?_⟩
  rw [hsize, List.length_append]
  omega

/-- **`concatenate`** returns a new string. -/
theorem concatenate_spec (hh : Holding S₀ h₀ T h)
    (hfirst : FirstFits (S₀ ∪ blocksOf T) h (text.length + text'.length + 1))
    (hp : Readable (S₀ ∪ blocksOf T) h p text) (hq : Readable (S₀ ∪ blocksOf T) h q text')
    (hwrap : text.length + text'.length + 13 < 2 ^ 32) :
    Succeeds (concatenate p q) h fun r h' =>
      Holding S₀ h₀ (⟨r, BitVec.ofNat 32 (text.length + text'.length + 1), text ++ text'⟩ :: T)
        h' :=
  (concatenate_of_allocates hh hp hq hwrap (hh.allocates hfirst hwrap)).mono fun _ _ hr => hr.2

end Functions

end MushOS
