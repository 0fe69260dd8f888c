import MushOS.Theory.ByteMemory

/-! # Memory in pages of 4096 bytes

The page of an address is `a / 4096`. `pages K` is the footprint made of the
pages in `K`, and `SamePage m k m' k'` says that page `k'` of `m'` holds, byte for
byte, what page `k` of `m` holds. A page number `k` below `2 ^ 20` starts at the
address `k * 4096`, and word `i < 1024` of it lies in it whole.
-/

namespace ByteMemory

/-- The page an address lies in. -/
def pageOf (a : Word) : ℕ := a.toNat / 4096

theorem pageOf_lt (a : Word) : pageOf a < 2 ^ 20 := by
  have := a.isLt
  unfold pageOf
  omega

/-- The addresses of the pages in `K`. -/
def pages (K : Set ℕ) : Set Word := {a | pageOf a ∈ K}

@[simp] theorem mem_pages {K : Set ℕ} {a : Word} : a ∈ pages K ↔ pageOf a ∈ K := Iff.rfl

theorem pages_mono {K L : Set ℕ} (h : K ⊆ L) : pages K ⊆ pages L := fun _ ha => h ha

theorem pages_singleton (k : ℕ) : pages {k} = span (k * 4096) 4096 := by
  ext a
  rw [mem_pages, Set.mem_singleton_iff, mem_span]
  unfold pageOf
  omega

/-- Byte `o` of page `k`. -/
def pageByte (k o : ℕ) : Word := BitVec.ofNat 32 (k * 4096 + o)

theorem toNat_pageByte {k o : ℕ} (hk : k < 2 ^ 20) (ho : o < 4096) :
    (pageByte k o).toNat = k * 4096 + o := by
  unfold pageByte
  rw [BitVec.toNat_ofNat]
  exact Nat.mod_eq_of_lt (by omega)

theorem pageOf_pageByte {k o : ℕ} (hk : k < 2 ^ 20) (ho : o < 4096) :
    pageOf (pageByte k o) = k := by
  unfold pageOf
  rw [toNat_pageByte hk ho]
  omega

/-- Page `k'` of `m'` is a copy of page `k` of `m`. -/
def SamePage (m : Mem) (k : ℕ) (m' : Mem) (k' : ℕ) : Prop :=
  ∀ o < 4096, m'.bytes (pageByte k' o) = m.bytes (pageByte k o)

section
variable {m m' m'' : Mem} {k k' k'' : ℕ}

theorem SamePage.refl (m : Mem) (k : ℕ) : SamePage m k m k := fun _ _ => rfl

theorem SamePage.trans (h : SamePage m k m' k') (h' : SamePage m' k' m'' k'') :
    SamePage m k m'' k'' := by
  intro o ho
  rw [h' o ho, h o ho]

theorem SamePage.symm (h : SamePage m k m' k') : SamePage m' k' m k := by
  intro o ho
  exact (h o ho).symm

/-- A page outside the footprint stays as it is. -/
theorem Writes.samePage {K : Set ℕ} (h : Writes (pages K) m m') (hk : k < 2 ^ 20)
    (hK : k ∉ K) : SamePage m k m' k := by
  intro o ho
  apply h.frame
  rw [mem_pages, pageOf_pageByte hk ho]
  exact hK

/-- A word read from the same place of two pages that are the same. -/
theorem SamePage.read32 (h : SamePage m k m' k') {a a' : Word} {o : ℕ}
    (hk : k < 2 ^ 20) (hk' : k' < 2 ^ 20) (ho : o + 4 ≤ 4096) (ha : a.toNat = k * 4096 + o)
    (ha' : a'.toNat = k' * 4096 + o) : m'.read32 a' = m.read32 a := by
  have hbyte : ∀ j : ℕ, j < 4 → m'.read8 (a' + BitVec.ofNat 32 j) =
      m.read8 (a + BitVec.ofNat 32 j) := by
    intro j hj
    have heq : a + BitVec.ofNat 32 j = pageByte k (o + j) := by
      apply BitVec.eq_of_toNat_eq
      rw [toNat_pageByte hk (by omega), BitVec.toNat_add, BitVec.toNat_ofNat, ha]
      omega
    have heq' : a' + BitVec.ofNat 32 j = pageByte k' (o + j) := by
      apply BitVec.eq_of_toNat_eq
      rw [toNat_pageByte hk' (by omega), BitVec.toNat_add, BitVec.toNat_ofNat, ha']
      omega
    rw [heq, heq']
    exact h (o + j) (by omega)
  have h0 : m'.read8 a' = m.read8 a := by simpa using hbyte 0 (by omega)
  have h1 : m'.read8 (a' + 1) = m.read8 (a + 1) := hbyte 1 (by omega)
  have h2 : m'.read8 (a' + 2) = m.read8 (a + 2) := hbyte 2 (by omega)
  have h3 : m'.read8 (a' + 3) = m.read8 (a + 3) := hbyte 3 (by omega)
  simp only [Mem.read32, h0, h1, h2, h3]

end

end ByteMemory
