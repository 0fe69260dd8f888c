import MushOS.Theory.Pages

/-! # Memories that agree outside a set

Two runs of one program on memories that differ in a set `S` of hidden bytes. As long
as neither run reads a hidden byte, both read the same and write the same, and the
memories go on agreeing outside `S`; what one side alone writes into `S` does not
count.
-/

namespace ByteMemory

/-- The bytes outside `S` are the same. -/
def AgreeOutside (S : Set Word) (m m' : Mem) : Prop := ∀ a ∉ S, m'.bytes a = m.bytes a

namespace AgreeOutside

variable {S T : Set Word} {m m' m₁ m₁' : Mem} {a v : Word} {k i : ℕ}

theorem refl (S : Set Word) (m : Mem) : AgreeOutside S m m := fun _ _ => rfl

theorem read8 (h : AgreeOutside S m m') (ha : a ∉ S) : m'.read8 a = m.read8 a := h a ha

/-- A word none of whose bytes is hidden. -/
theorem read32 (h : AgreeOutside S m m') (hw : a.toNat + 4 ≤ 2 ^ 32)
    (hS : ∀ x ∈ span a.toNat 4, x ∉ S) : m'.read32 a = m.read32 a :=
  Mem.read32_congr hw fun x hx => h x (hS x hx)

theorem write8 (h : AgreeOutside S m m') (a : Word) (b : Byte) :
    AgreeOutside S (m.write8 a b) (m'.write8 a b) := by
  intro x hx
  by_cases hxa : x = a
  · subst hxa
    rw [Mem.write8_bytes_self, Mem.write8_bytes_self]
  · rw [Mem.write8_bytes_ne _ _ hxa, Mem.write8_bytes_ne _ _ hxa]
    exact h x hx

theorem write32 (h : AgreeOutside S m m') (a v : Word) :
    AgreeOutside S (m.write32 a v) (m'.write32 a v) :=
  (((h.write8 _ _).write8 _ _).write8 _ _).write8 _ _

/-- One side writes hidden bytes only. -/
theorem hidden (h : AgreeOutside S m m') (hw : Writes T m' m₁') (hT : T ⊆ S) :
    AgreeOutside S m m₁' := by
  intro x hx
  rw [hw.frame x fun hmem => hx (hT hmem)]
  exact h x hx

/-- Both sides write the same values into `T`, and nothing else. -/
theorem of_writes (h : AgreeOutside S m m') (hw : Writes T m m₁) (hw' : Writes T m' m₁')
    (hsame : ∀ x ∈ T, x ∉ S → m₁'.bytes x = m₁.bytes x) : AgreeOutside S m₁ m₁' := by
  intro x hx
  by_cases hT : x ∈ T
  · exact hsame x hT hx
  · rw [hw.frame x hT, hw'.frame x hT]
    exact h x hx

/-- A page without hidden bytes. -/
theorem samePage (h : AgreeOutside S m m') (hk : k < 2 ^ 20) (hS : ∀ x ∈ S, pageOf x ≠ k) :
    SamePage m k m' k := by
  intro o ho
  refine h _ fun hmem => hS _ hmem ?_
  exact pageOf_pageByte hk ho

end AgreeOutside

end ByteMemory
