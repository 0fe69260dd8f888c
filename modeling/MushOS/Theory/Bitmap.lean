import Mathlib.Data.Finset.Card
import Mathlib.Tactic

/-! # Bitmaps of slots

A pool of equal slots with one bit for each: slot `s` is bit `s % 8` of byte
`s / 8`, and a set bit means taken. `free m n` is the set of the slots of the
first `n` bytes that are not taken; taking a slot erases it from that set and
does nothing else. `Lowest m n s` says that `s` is the first of these slots, the one
a scan of the bytes finds (`lowest_of_scan`).
-/

namespace Bitmap

abbrev Bytes := ℕ → BitVec 8

/-- The bit of slot `s`. -/
def taken (m : Bytes) (s : ℕ) : Bool := (m (s / 8)).getLsbD (s % 8)

/-- The map with bit `b` of byte `i` set. -/
def setBit (m : Bytes) (i b : ℕ) : Bytes :=
  fun j => if j = i then m i ||| (1#8 <<< b) else m j

/-- The map with bit `b` of byte `i` cleared. -/
def clearBit (m : Bytes) (i b : ℕ) : Bytes :=
  fun j => if j = i then m i &&& ~~~(1#8 <<< b) else m j

/-- The slots of the first `n` bytes that are not taken. -/
def free (m : Bytes) (n : ℕ) : Finset ℕ :=
  (Finset.range (n * 8)).filter fun s => taken m s = false

@[simp] theorem mem_free {m : Bytes} {n s : ℕ} :
    s ∈ free m n ↔ s < n * 8 ∧ taken m s = false := by
  simp [free]

theorem getLsbD_or_one_shiftLeft (x : BitVec 8) {b c : ℕ} (hb : b < 8) :
    (x ||| (1#8 <<< b)).getLsbD c = (decide (c = b) || x.getLsbD c) := by
  by_cases hc : c < 8
  · rw [BitVec.getLsbD_or, BitVec.getLsbD_shiftLeft]
    by_cases hcb : c = b
    · subst hcb
      simp [hc]
    · have hbit : c - b ≠ 0 ∨ c < b := by omega
      simp only [hcb, decide_false, Bool.false_or]
      rcases hbit with hne | hlt
      · have hone : (1#8).getLsbD (c - b) = false := by
          rw [BitVec.getLsbD_one]
          simp [hne]
        simp [hone]
      · simp [hlt]
  · have hx : ∀ y : BitVec 8, y.getLsbD c = false := fun y => BitVec.getLsbD_of_ge y c (by omega)
    have hcb : c ≠ b := by omega
    simp [hx, hcb]

/-- Setting the bit of a slot takes that slot. -/
theorem taken_setBit (m : Bytes) {i b : ℕ} (hb : b < 8) (s : ℕ) :
    taken (setBit m i b) s = (decide (s = i * 8 + b) || taken m s) := by
  unfold taken setBit
  by_cases hbyte : s / 8 = i
  · rw [if_pos hbyte, ← hbyte, getLsbD_or_one_shiftLeft _ hb]
    have hiff : s % 8 = b ↔ s = s / 8 * 8 + b := by omega
    simp only [hiff]
  · have hne : s ≠ i * 8 + b := by omega
    rw [if_neg hbyte]
    simp [hne]

/-- Clearing the bit of a slot leaves every other slot. -/
theorem taken_clearBit_ne (m : Bytes) {i b s : ℕ} (hb : b < 8) (hs : s ≠ i * 8 + b) :
    taken (clearBit m i b) s = taken m s := by
  unfold taken clearBit
  by_cases hbyte : s / 8 = i
  · have hbit : (1#8 <<< b).getLsbD (s % 8) = false := by
      have h := getLsbD_or_one_shiftLeft 0#8 hb (c := s % 8)
      rw [BitVec.zero_or, BitVec.getLsbD_zero, Bool.or_false] at h
      rw [h, decide_eq_false_iff_not]
      omega
    have hlt : s % 8 < 8 := Nat.mod_lt s (by decide)
    rw [if_pos hbyte, ← hbyte, BitVec.getLsbD_and, BitVec.getLsbD_not, hbit]
    simp [hlt]
  · rw [if_neg hbyte]

/-- Clearing the bit of a slot frees that slot. -/
theorem taken_clearBit (m : Bytes) {i b : ℕ} (hb : b < 8) (s : ℕ) :
    taken (clearBit m i b) s = (decide (s ≠ i * 8 + b) && taken m s) := by
  by_cases hs : s = i * 8 + b
  · have hdiv : s / 8 = i := by omega
    have hmod : s % 8 = b := by omega
    have hbit := getLsbD_or_one_shiftLeft 0#8 hb (c := b)
    rw [BitVec.zero_or] at hbit
    unfold taken clearBit
    rw [if_pos hdiv, hmod, BitVec.getLsbD_and, BitVec.getLsbD_not, hbit]
    simp [hs]
  · rw [taken_clearBit_ne m hb hs]
    simp [hs]

theorem free_setBit (m : Bytes) {i b n : ℕ} (hb : b < 8) :
    free (setBit m i b) n = (free m n).erase (i * 8 + b) := by
  ext s
  rw [Finset.mem_erase, mem_free, mem_free, taken_setBit m hb]
  by_cases hs : s = i * 8 + b
  · simp [hs]
  · simp [hs]

/-- A byte with a clear bit has a free slot. -/
theorem mem_free_of_clear {m : Bytes} {n i b : ℕ} (hi : i < n) (hb : b < 8)
    (hclear : (m i).getLsbD b = false) : i * 8 + b ∈ free m n := by
  have hdiv : (i * 8 + b) / 8 = i := by omega
  have hmod : (i * 8 + b) % 8 = b := by omega
  rw [mem_free]
  constructor
  · omega
  · unfold taken
    rw [hdiv, hmod]
    exact hclear

/-- A map whose bytes are all full has no free slot. -/
theorem free_eq_empty {m : Bytes} {n : ℕ}
    (hfull : ∀ i < n, ∀ b < 8, (m i).getLsbD b = true) : free m n = ∅ := by
  ext s
  rw [mem_free]
  constructor
  · intro hs
    have htaken := hfull (s / 8) (by omega) (s % 8) (by omega)
    unfold taken at hs
    rw [htaken] at hs
    exact absurd hs.2 (by decide)
  · intro hs
    exact absurd hs (Finset.notMem_empty s)

/-! ## The lowest free slot -/

/-- Slot `s` is the lowest of the first `n` bytes that is not taken. -/
structure Lowest (m : Bytes) (n s : ℕ) : Prop where
  lt : s < n * 8
  clear : taken m s = false
  below : ∀ c < s, taken m c = true

/-- There is one lowest slot. -/
theorem Lowest.unique {m : Bytes} {n s t : ℕ} (hs : Lowest m n s) (ht : Lowest m n t) :
    s = t := by
  rcases Nat.lt_trichotomy s t with hlt | heq | hlt
  · have hset := ht.below s hlt
    rw [hs.clear] at hset
    cases hset
  · exact heq
  · have hset := hs.below t hlt
    rw [ht.clear] at hset
    cases hset

/-- The bytes before `i` are full, and bit `b` is the first clear one of byte `i`. -/
theorem lowest_of_scan {m : Bytes} {n i b : ℕ} (hi : i < n) (hb : b < 8)
    (hfull : ∀ s < i * 8, taken m s = true) (hclear : (m i).getLsbD b = false)
    (hbelow : ∀ c < b, (m i).getLsbD c = true) : Lowest m n (i * 8 + b) := by
  rcases mem_free.mp (mem_free_of_clear hi hb hclear) with ⟨hlt, htaken⟩
  refine ⟨hlt, htaken, ?_⟩
  intro c hc
  by_cases hbyte : c < i * 8
  · exact hfull c hbyte
  · have hdiv : c / 8 = i := by omega
    unfold taken
    rw [hdiv]
    exact hbelow (c % 8) (by omega)

/-- When the slots taken are those below `k`, the lowest free one is `k`. -/
theorem lowest_of_prefix {m : Bytes} {n k : ℕ} (hk : k < n * 8)
    (hbits : ∀ s < n * 8, taken m s = decide (s < k)) : Lowest m n k := by
  refine ⟨hk, ?_, ?_⟩
  · rw [hbits k hk, decide_eq_false_iff_not]
    exact Nat.lt_irrefl k
  · intro c hc
    rw [hbits c (by omega), decide_eq_true_eq]
    exact hc

/-- In an empty map every slot is free. -/
theorem free_zero (n : ℕ) : free (fun _ => 0) n = Finset.range (n * 8) := by
  ext s
  rw [mem_free, Finset.mem_range]
  exact and_iff_left BitVec.getLsbD_zero

end Bitmap
