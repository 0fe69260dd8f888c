import Mathlib.Data.Set.Basic
import Mathlib.Tactic

/-! # Byte-addressed 32-bit memory

A flat little-endian memory: one byte at every 32-bit address, no permissions
and no unmapped holes. Everything a program stores is a sequence of byte
writes, so two questions decide every proof about it:

* what does a read return after a write (`read32_write32_self`,
  `Writes.read32`);
* which bytes can an operation have touched (`Writes S m m'`).

A memory also carries the list of the addresses written so far. No operation
reads it: it is there because "writes no byte outside `S`" is a statement
about the writes themselves, and a byte that is overwritten with the value it
already held has been written all the same.
-/

namespace ByteMemory

abbrev Byte := BitVec 8
abbrev Word := BitVec 32

/-- The bytes of the memory, and the addresses written so far (newest first). -/
structure Mem where
  bytes : Word → Byte
  written : List Word

/-- The addresses in `[lo, lo + n)`, as unbounded integers. -/
def span (lo n : ℕ) : Set Word := {a | lo ≤ a.toNat ∧ a.toNat < lo + n}

@[simp] theorem mem_span {lo n : ℕ} {a : Word} :
    a ∈ span lo n ↔ lo ≤ a.toNat ∧ a.toNat < lo + n := Iff.rfl

namespace Mem

/-! ## Reads and writes -/

def read8 (m : Mem) (a : Word) : Byte := m.bytes a

def write8 (m : Mem) (a : Word) (v : Byte) : Mem where
  bytes := fun x => if x = a then v else m.bytes x
  written := a :: m.written

/-- A 32-bit little-endian read; the address wraps like the address bus does. -/
def read32 (m : Mem) (a : Word) : Word :=
  m.read8 (a + 3) ++ m.read8 (a + 2) ++ m.read8 (a + 1) ++ m.read8 a

/-- A 32-bit little-endian write. -/
def write32 (m : Mem) (a v : Word) : Mem :=
  (((m.write8 a (v.extractLsb' 0 8)).write8 (a + 1) (v.extractLsb' 8 8)).write8
    (a + 2) (v.extractLsb' 16 8)).write8 (a + 3) (v.extractLsb' 24 8)

/-- The same bytes with an empty list of writes, to watch one operation alone. -/
def watch (m : Mem) : Mem := { m with written := [] }

@[simp] theorem watch_bytes (m : Mem) : m.watch.bytes = m.bytes := rfl
@[simp] theorem watch_written (m : Mem) : m.watch.written = [] := rfl

@[simp] theorem write8_bytes_self (m : Mem) (a : Word) (v : Byte) :
    (m.write8 a v).bytes a = v := by
  simp [write8]

@[simp] theorem write8_bytes_ne (m : Mem) {a b : Word} (v : Byte) (h : b ≠ a) :
    (m.write8 a v).bytes b = m.bytes b := by
  simp [write8, h]

@[simp] theorem write8_written (m : Mem) (a : Word) (v : Byte) :
    (m.write8 a v).written = a :: m.written := rfl

/-- The four bytes of a word, put back together. -/
theorem append_bytes (v : Word) :
    (v.extractLsb' 24 8 ++ v.extractLsb' 16 8 ++ v.extractLsb' 8 8 ++
      v.extractLsb' 0 8 : Word) = v := by
  ext i hi
  simp
  grind

@[simp] theorem read32_write32_self (m : Mem) (a v : Word) :
    (m.write32 a v).read32 a = v := by
  have h01 : a ≠ a + 1 := by bv_omega
  have h02 : a ≠ a + 2 := by bv_omega
  have h03 : a ≠ a + 3 := by bv_omega
  have h12 : a + 1 ≠ a + 2 := by bv_omega
  have h13 : a + 1 ≠ a + 3 := by bv_omega
  have h23 : a + 2 ≠ a + 3 := by bv_omega
  simp only [read32, write32, read8, write8_bytes_self, write8_bytes_ne _ _ h01,
    write8_bytes_ne _ _ h02, write8_bytes_ne _ _ h03, write8_bytes_ne _ _ h12,
    write8_bytes_ne _ _ h13, write8_bytes_ne _ _ h23, append_bytes]

/-- A word read depends on its four bytes only. -/
theorem read32_congr {m m' : Mem} {a : Word} (hw : a.toNat + 4 ≤ 2 ^ 32)
    (h : ∀ x ∈ span a.toNat 4, m'.bytes x = m.bytes x) :
    m'.read32 a = m.read32 a := by
  have h0 : m'.bytes a = m.bytes a := h a ⟨by omega, by omega⟩
  have h1 : m'.bytes (a + 1) = m.bytes (a + 1) := h _ ⟨by bv_omega, by bv_omega⟩
  have h2 : m'.bytes (a + 2) = m.bytes (a + 2) := h _ ⟨by bv_omega, by bv_omega⟩
  have h3 : m'.bytes (a + 3) = m.bytes (a + 3) := h _ ⟨by bv_omega, by bv_omega⟩
  simp only [read32, read8, h0, h1, h2, h3]

/-- Byte `r` of a word that was written. -/
theorem write32_bytes (m : Mem) (a v : Word) {r : ℕ} (hr : r < 4) :
    (m.write32 a v).bytes (a + BitVec.ofNat 32 r) = v.extractLsb' (8 * r) 8 := by
  have h01 : a ≠ a + 1 := by bv_omega
  have h02 : a ≠ a + 2 := by bv_omega
  have h03 : a ≠ a + 3 := by bv_omega
  have h12 : a + 1 ≠ a + 2 := by bv_omega
  have h13 : a + 1 ≠ a + 3 := by bv_omega
  have h23 : a + 2 ≠ a + 3 := by bv_omega
  have hcases : r = 0 ∨ r = 1 ∨ r = 2 ∨ r = 3 := by omega
  unfold write32
  rcases hcases with rfl | rfl | rfl | rfl
  · rw [show a + BitVec.ofNat 32 0 = a by simp, write8_bytes_ne _ _ h03, write8_bytes_ne _ _ h02,
      write8_bytes_ne _ _ h01, write8_bytes_self]
  · rw [show BitVec.ofNat 32 1 = 1 from rfl, write8_bytes_ne _ _ h13, write8_bytes_ne _ _ h12,
      write8_bytes_self]
  · rw [show BitVec.ofNat 32 2 = 2 from rfl, write8_bytes_ne _ _ h23, write8_bytes_self]
  · rw [show BitVec.ofNat 32 3 = 3 from rfl, write8_bytes_self]

/-- Byte `r` of a word that was read. -/
theorem read32_extract (m : Mem) (a : Word) {r : ℕ} (hr : r < 4) :
    (m.read32 a).extractLsb' (8 * r) 8 = m.bytes (a + BitVec.ofNat 32 r) := by
  have hcases : r = 0 ∨ r = 1 ∨ r = 2 ∨ r = 3 := by omega
  unfold read32 read8
  rcases hcases with rfl | rfl | rfl | rfl
  · rw [show a + BitVec.ofNat 32 0 = a by simp]
    ext i hi
    simp only [BitVec.getElem_extractLsb', BitVec.getLsbD_append]
    simp
    grind
  · rw [show BitVec.ofNat 32 1 = 1 from rfl]
    ext i hi
    simp only [BitVec.getElem_extractLsb', BitVec.getLsbD_append]
    simp
    grind
  · rw [show BitVec.ofNat 32 2 = 2 from rfl]
    ext i hi
    simp only [BitVec.getElem_extractLsb', BitVec.getLsbD_append]
    simp
    grind
  · rw [show BitVec.ofNat 32 3 = 3 from rfl]
    ext i hi
    simp only [BitVec.getElem_extractLsb', BitVec.getLsbD_append]
    simp
    grind

end Mem

/-! ## Footprints

`Writes S m m'` is the frame rule of the memory: from `m` to `m'` only bytes in
`S` were written. It composes along a sequence of operations, and every read
outside `S` is carried over by `Writes.read32` and `Writes.frame`. -/

/-- From `m` to `m'` only addresses in `S` were written. -/
structure Writes (S : Set Word) (m m' : Mem) : Prop where
  frame : ∀ a, a ∉ S → m'.bytes a = m.bytes a
  inside : ∀ a ∈ m'.written, a ∈ m.written ∨ a ∈ S
  kept : ∀ a ∈ m.written, a ∈ m'.written

namespace Writes

variable {S T : Set Word} {m m₁ m₂ m' : Mem}

theorem refl (S : Set Word) (m : Mem) : Writes S m m :=
  ⟨fun _ _ => rfl, fun _ h => Or.inl h, fun _ h => h⟩

theorem mono (h : Writes S m m') (hST : S ⊆ T) : Writes T m m' :=
  ⟨fun a ha => h.frame a fun hs => ha (hST hs),
   fun a ha => (h.inside a ha).imp_right fun hs => hST hs, h.kept⟩

theorem trans (h₁ : Writes S m m₁) (h₂ : Writes S m₁ m₂) : Writes S m m₂ := by
  refine ⟨fun a ha => (h₂.frame a ha).trans (h₁.frame a ha), fun a ha => ?_,
    fun a ha => h₂.kept a (h₁.kept a ha)⟩
  rcases h₂.inside a ha with h | h
  · exact h₁.inside a h
  · exact Or.inr h

/-- A word outside the footprint reads as before. -/
theorem read32 (h : Writes S m m') {a : Word} (hw : a.toNat + 4 ≤ 2 ^ 32)
    (hS : ∀ x ∈ span a.toNat 4, x ∉ S) : m'.read32 a = m.read32 a :=
  Mem.read32_congr hw fun x hx => h.frame x (hS x hx)

end Writes

theorem writes_write8 {S : Set Word} (m : Mem) {a : Word} (v : Byte) (ha : a ∈ S) :
    Writes S m (m.write8 a v) := by
  refine ⟨fun x hx => ?_, fun x hx => ?_, fun x hx => ?_⟩
  · exact Mem.write8_bytes_ne m v (fun h => hx (h ▸ ha))
  · rcases List.mem_cons.mp hx with rfl | h
    · exact Or.inr ha
    · exact Or.inl h
  · exact List.mem_cons_of_mem a hx

theorem writes_write32 {S : Set Word} (m : Mem) {a : Word} (v : Word)
    (hw : a.toNat + 4 ≤ 2 ^ 32) (hS : ∀ x ∈ span a.toNat 4, x ∈ S) :
    Writes S m (m.write32 a v) := by
  have h0 : a ∈ S := hS a ⟨by omega, by omega⟩
  have h1 : a + 1 ∈ S := hS _ ⟨by bv_omega, by bv_omega⟩
  have h2 : a + 2 ∈ S := hS _ ⟨by bv_omega, by bv_omega⟩
  have h3 : a + 3 ∈ S := hS _ ⟨by bv_omega, by bv_omega⟩
  exact (((writes_write8 m _ h0).trans (writes_write8 _ _ h1)).trans
    (writes_write8 _ _ h2)).trans (writes_write8 _ _ h3)

/-- Two words that do not overlap: writing one leaves the other alone. -/
theorem read32_write32_ne (m : Mem) {a b : Word} (v : Word)
    (ha : a.toNat + 4 ≤ 2 ^ 32) (hb : b.toNat + 4 ≤ 2 ^ 32)
    (h : a.toNat + 4 ≤ b.toNat ∨ b.toNat + 4 ≤ a.toNat) :
    (m.write32 a v).read32 b = m.read32 b := by
  refine (writes_write32 (S := span a.toNat 4) m v ha fun _ hx => hx).read32 hb ?_
  intro x hx hx'
  simp only [mem_span] at hx hx'
  omega

end ByteMemory
