import MushOS.Theory.ByteMemory

/-! # memory.c: bulk copies and fills

The byte loops of `lib/base/memory.c` over the flat memory. The loop counter is
an `int` compared as unsigned with a 32-bit count and added to a 32-bit pointer,
so iteration `i` works on the address `start + i` modulo `2 ^ 32`.
-/

namespace MushOS

open ByteMemory

/-- `u_byte`, `u_word` and `u_dword` of `generic.h`. -/
abbrev UByte := BitVec 8
abbrev UWord := BitVec 16
abbrev UDword := BitVec 32

/-! ## Model -/

/-- Iterations `0 .. n - 1` of the loop of `memory_copy`. -/
def memoryCopyLoop (source dest : UDword) : ℕ → Mem → Mem
  | 0, m => m
  | n + 1, m =>
    let m := memoryCopyLoop source dest n m
    m.write8 (dest + BitVec.ofNat 32 n) (m.read8 (source + BitVec.ofNat 32 n))

def memoryCopy (source dest numBytes : UDword) (m : Mem) : Mem :=
  memoryCopyLoop source dest numBytes.toNat m

/-- Iterations `0 .. n - 1` of the loop of `memory_clear`. -/
def memoryClearLoop (start : UDword) (sample : UByte) : ℕ → Mem → Mem
  | 0, m => m
  | n + 1, m => (memoryClearLoop start sample n m).write8 (start + BitVec.ofNat 32 n) sample

def memoryClear (start numBytes : UDword) (sample : UByte) (m : Mem) : Mem :=
  memoryClearLoop start sample numBytes.toNat m

/-- Bytes `0 .. j - 1` of copy `i` of `memory_fill`. -/
def memoryFillSample (dest : UDword) (sample : List UByte) (i : ℕ) : ℕ → Mem → Mem
  | 0, m => m
  | j + 1, m =>
    (memoryFillSample dest sample i j m).write8
      (dest + BitVec.ofNat 32 (i * sample.length + j)) (sample.getD j 0)

/-- Copies `0 .. n - 1` of the loop of `memory_fill`. -/
def memoryFillLoop (dest : UDword) (sample : List UByte) : ℕ → Mem → Mem
  | 0, m => m
  | n + 1, m => memoryFillSample dest sample n sample.length (memoryFillLoop dest sample n m)

/-- `memory_fill`, from a local variable of the caller, given by its bytes. -/
def memoryFill (dest : UDword) (sample : List UByte) (times : UDword) (m : Mem) : Mem :=
  memoryFillLoop dest sample times.toNat m

/-! ## What the loops write -/

theorem toNat_ofNat_of_lt {w n : ℕ} (h : n < 2 ^ w) : (BitVec.ofNat w n).toNat = n := by
  rw [BitVec.toNat_ofNat, Nat.mod_eq_of_lt h]

/-- The address of byte `n` of a range that does not wrap. -/
theorem toNat_add_ofNat {start : UDword} {n : ℕ} (h : start.toNat + n < 2 ^ 32) :
    (start + BitVec.ofNat 32 n).toNat = start.toNat + n := by
  rw [BitVec.toNat_add, BitVec.toNat_ofNat, Nat.add_mod_mod, Nat.mod_eq_of_lt h]

theorem writes_memoryClearLoop (start : UDword) (sample : UByte) {n : ℕ}
    (hw : start.toNat + n ≤ 2 ^ 32) (m : Mem) :
    Writes (span start.toNat n) m (memoryClearLoop start sample n m) := by
  induction n with
  | zero => exact Writes.refl _ m
  | succ n ih =>
    have hsub : span start.toNat n ⊆ span start.toNat (n + 1) := by
      intro a ha
      simp only [mem_span] at ha ⊢
      omega
    refine ((ih (by omega)).mono hsub).trans (writes_write8 _ _ ?_)
    rw [mem_span, toNat_add_ofNat (by omega)]
    omega

theorem memoryClearLoop_bytes {start : UDword} {sample : UByte} {n : ℕ}
    (hw : start.toNat + n ≤ 2 ^ 32) (m : Mem) {a : UDword} (ha : a ∈ span start.toNat n) :
    (memoryClearLoop start sample n m).bytes a = sample := by
  induction n with
  | zero => simp only [mem_span] at ha; omega
  | succ n ih =>
    by_cases hlast : a = start + BitVec.ofNat 32 n
    · rw [memoryClearLoop, hlast, Mem.write8_bytes_self]
    · rw [memoryClearLoop, Mem.write8_bytes_ne _ _ hlast]
      refine ih (by omega) ⟨ha.1, ?_⟩
      have hne : a.toNat ≠ start.toNat + n := by
        rw [← toNat_add_ofNat (by omega)]
        exact fun h => hlast (BitVec.eq_of_toNat_eq h)
      have := ha.2
      omega

theorem writes_memoryCopyLoop (source dest : UDword) {n : ℕ}
    (hw : dest.toNat + n ≤ 2 ^ 32) (m : Mem) :
    Writes (span dest.toNat n) m (memoryCopyLoop source dest n m) := by
  induction n with
  | zero => exact Writes.refl _ m
  | succ n ih =>
    have hsub : span dest.toNat n ⊆ span dest.toNat (n + 1) := by
      intro a ha
      simp only [mem_span] at ha ⊢
      omega
    refine ((ih (by omega)).mono hsub).trans (writes_write8 _ _ ?_)
    rw [mem_span, toNat_add_ofNat (by omega)]
    omega

/-- A copy between ranges that do not overlap. -/
theorem memoryCopyLoop_bytes {source dest : UDword} {n k : ℕ} (hs : source.toNat + n ≤ 2 ^ 32)
    (hd : dest.toNat + n ≤ 2 ^ 32)
    (hapart : source.toNat + n ≤ dest.toNat ∨ dest.toNat + n ≤ source.toNat)
    (m : Mem) (hk : k < n) :
    (memoryCopyLoop source dest n m).bytes (dest + BitVec.ofNat 32 k) =
      m.bytes (source + BitVec.ofNat 32 k) := by
  induction n with
  | zero => omega
  | succ n ih =>
    rw [memoryCopyLoop]
    by_cases hkn : k = n
    · subst hkn
      rw [Mem.write8_bytes_self]
      refine (writes_memoryCopyLoop source dest (by omega) m).frame _ ?_
      intro hmem
      rw [mem_span, toNat_add_ofNat (by omega)] at hmem
      omega
    · rw [Mem.write8_bytes_ne, ih (by omega) (by omega) (by omega) (by omega)]
      intro heq
      have hnat := congrArg BitVec.toNat heq
      rw [toNat_add_ofNat (by omega), toNat_add_ofNat (by omega)] at hnat
      omega

theorem writes_memoryFillSample {dest : UDword} {sample : List UByte} {i j : ℕ}
    (hw : dest.toNat + (i * sample.length + j) ≤ 2 ^ 32) (m : Mem) :
    Writes (span (dest.toNat + i * sample.length) j) m (memoryFillSample dest sample i j m) := by
  induction j with
  | zero => exact Writes.refl _ m
  | succ j ih =>
    refine ((ih (by omega)).mono ?_).trans (writes_write8 _ _ ?_)
    · intro a ha
      simp only [mem_span] at ha ⊢
      omega
    · rw [mem_span, toNat_add_ofNat (by omega)]
      omega

theorem memoryFillSample_bytes {dest : UDword} {sample : List UByte} {i j k : ℕ}
    (hw : dest.toNat + (i * sample.length + j) ≤ 2 ^ 32) (m : Mem) (hk : k < j) :
    (memoryFillSample dest sample i j m).bytes (dest + BitVec.ofNat 32 (i * sample.length + k)) =
      sample.getD k 0 := by
  induction j with
  | zero => omega
  | succ j ih =>
    rw [memoryFillSample]
    by_cases hkj : k = j
    · rw [hkj, Mem.write8_bytes_self]
    · rw [Mem.write8_bytes_ne, ih (by omega) (by omega)]
      intro heq
      have hnat := congrArg BitVec.toNat heq
      rw [toNat_add_ofNat (by omega), toNat_add_ofNat (by omega)] at hnat
      omega

theorem writes_memoryFillLoop (dest : UDword) (sample : List UByte) {n : ℕ}
    (hw : dest.toNat + n * sample.length ≤ 2 ^ 32) (m : Mem) :
    Writes (span dest.toNat (n * sample.length)) m (memoryFillLoop dest sample n m) := by
  induction n with
  | zero => exact Writes.refl _ m
  | succ n ih =>
    rw [Nat.add_mul, Nat.one_mul] at hw ⊢
    refine ((ih (by omega)).mono ?_).trans ((writes_memoryFillSample (by omega) _).mono ?_)
    · intro a ha
      simp only [mem_span] at ha ⊢
      omega
    · intro a ha
      simp only [mem_span] at ha ⊢
      omega

/-- Every copy of the sample is there. -/
theorem memoryFillLoop_bytes {dest : UDword} {sample : List UByte} {n i k : ℕ}
    (hw : dest.toNat + n * sample.length ≤ 2 ^ 32) (m : Mem) (hi : i < n) (hk : k < sample.length) :
    (memoryFillLoop dest sample n m).bytes (dest + BitVec.ofNat 32 (i * sample.length + k)) =
      sample.getD k 0 := by
  induction n with
  | zero => omega
  | succ n ih =>
    rw [memoryFillLoop]
    rw [Nat.add_mul, Nat.one_mul] at hw
    by_cases hin : i = n
    · rw [hin, memoryFillSample_bytes (by omega) _ hk]
    · have hle := Nat.mul_le_mul_right sample.length (show i + 1 ≤ n by omega)
      rw [Nat.add_mul, Nat.one_mul] at hle
      rw [(writes_memoryFillSample (by omega) _).frame, ih (by omega) (by omega)]
      intro hmem
      rw [mem_span, toNat_add_ofNat (by omega)] at hmem
      omega

theorem writes_memoryClear (start numBytes : UDword) (sample : UByte)
    (hw : start.toNat + numBytes.toNat ≤ 2 ^ 32) (m : Mem) :
    Writes (span start.toNat numBytes.toNat) m (memoryClear start numBytes sample m) :=
  writes_memoryClearLoop start sample hw m

theorem memoryClear_bytes {start numBytes : UDword} {sample : UByte}
    (hw : start.toNat + numBytes.toNat ≤ 2 ^ 32) (m : Mem) {a : UDword}
    (ha : a ∈ span start.toNat numBytes.toNat) :
    (memoryClear start numBytes sample m).bytes a = sample :=
  memoryClearLoop_bytes hw m ha

theorem writes_memoryCopy (source dest numBytes : UDword)
    (hw : dest.toNat + numBytes.toNat ≤ 2 ^ 32) (m : Mem) :
    Writes (span dest.toNat numBytes.toNat) m (memoryCopy source dest numBytes m) :=
  writes_memoryCopyLoop source dest hw m

end MushOS
