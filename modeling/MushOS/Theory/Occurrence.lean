import Mathlib.Data.List.Duplicate
import Mathlib.Data.List.NodupEquivFin
import Mathlib.Order.Bounds.Basic
import Mathlib.Tactic

/-! # Where an element occurs in a list

A search along a list returns an index, or `-1` when it finds nothing. `IsFirst` and
`IsLast` say what a search from the front and one from the back are for.
-/

namespace Occurrence

variable {α : Type*} {l : List α} {a : α} {first last : ℤ}

/-- The indices at which `a` occurs in `l`. -/
def occurrences (l : List α) (a : α) : Set ℕ := {i | l[i]? = some a}

theorem mem_occurrences {i : ℕ} : i ∈ occurrences l a ↔ l[i]? = some a := Iff.rfl

theorem lt_of_mem_occurrences {i : ℕ} (h : i ∈ occurrences l a) : i < l.length :=
  (List.getElem?_eq_some_iff.mp h).1

theorem occurrences_nonempty : (occurrences l a).Nonempty ↔ a ∈ l :=
  List.mem_iff_getElem?.symm

/-- Not before the second element means in the tail. -/
theorem mem_tail_iff : a ∈ l.tail ↔ ∃ i ∈ occurrences l a, 1 ≤ i := by
  rw [List.mem_iff_getElem?]
  constructor
  · rintro ⟨i, hi⟩
    rw [List.getElem?_tail] at hi
    exact ⟨i + 1, hi, by omega⟩
  · rintro ⟨i, hi, hpos⟩
    rcases Nat.exists_eq_add_of_le' hpos with ⟨j, rfl⟩
    exact ⟨j, by rw [List.getElem?_tail]; exact hi⟩

theorem count_le_one_iff [DecidableEq α] :
    l.count a ≤ 1 ↔ ∀ i ∈ occurrences l a, ∀ j ∈ occurrences l a, i = j := by
  rw [← Nat.not_lt, ← Nat.succ_le_iff, ← List.duplicate_iff_two_le_count,
    List.duplicate_iff_exists_distinct_get]
  constructor
  · intro hnot i hi j hj
    rcases List.getElem?_eq_some_iff.mp hi with ⟨hil, hia⟩
    rcases List.getElem?_eq_some_iff.mp hj with ⟨hjl, hja⟩
    rcases Nat.lt_trichotomy i j with hlt | heq | hlt
    · exact absurd ⟨⟨i, hil⟩, ⟨j, hjl⟩, hlt, hia.symm, hja.symm⟩ hnot
    · exact heq
    · exact absurd ⟨⟨j, hjl⟩, ⟨i, hil⟩, hlt, hja.symm, hia.symm⟩ hnot
  · rintro hsame ⟨i, j, hlt, hi, hj⟩
    have hij := hsame i (List.getElem?_eq_some_iff.mpr ⟨i.isLt, hi.symm⟩) j
      (List.getElem?_eq_some_iff.mpr ⟨j.isLt, hj.symm⟩)
    exact absurd hij (Nat.ne_of_lt hlt)

/-- What a search from the front returns. -/
def IsFirst (l : List α) (a : α) (first : ℤ) : Prop :=
  first = -1 ∧ a ∉ l ∨ ∃ i : ℕ, first = i ∧ IsLeast (occurrences l a) i

/-- What a search from the back returns. -/
def IsLast (l : List α) (a : α) (last : ℤ) : Prop :=
  last = -1 ∧ a ∉ l ∨ ∃ i : ℕ, last = i ∧ IsGreatest (occurrences l a) i

theorem IsFirst.eq_neg_one_iff (h : IsFirst l a first) : first = -1 ↔ a ∉ l := by
  rcases h with ⟨hnone, hnot⟩ | ⟨i, rfl, hleast⟩
  · exact iff_of_true hnone hnot
  · refine iff_of_false (by omega) ?_
    rw [not_not]
    exact occurrences_nonempty.mp ⟨i, hleast.1⟩

theorem IsLast.eq_neg_one_iff (h : IsLast l a last) : last = -1 ↔ a ∉ l := by
  rcases h with ⟨hnone, hnot⟩ | ⟨i, rfl, hgreatest⟩
  · exact iff_of_true hnone hnot
  · refine iff_of_false (by omega) ?_
    rw [not_not]
    exact occurrences_nonempty.mp ⟨i, hgreatest.1⟩

/-- The two searches meet when there is at most one place. -/
theorem IsFirst.meets [DecidableEq α] (hf : IsFirst l a first) (hl : IsLast l a last) :
    first ≤ last ∧ (first = last ↔ l.count a ≤ 1) := by
  rw [count_le_one_iff]
  by_cases ha : a ∈ l
  · rcases hf with ⟨-, hnot⟩ | ⟨i, rfl, hleast⟩
    · exact absurd ha hnot
    rcases hl with ⟨-, hnot⟩ | ⟨j, rfl, hgreatest⟩
    · exact absurd ha hnot
    have hij : i ≤ j := hleast.2 hgreatest.1
    refine ⟨by omega, ?_, ?_⟩
    · intro heq k hk k' hk'
      have hk₁ := hleast.2 hk
      have hk₂ := hgreatest.2 hk
      have hk₃ := hleast.2 hk'
      have hk₄ := hgreatest.2 hk'
      omega
    · intro hsame
      rw [hsame i hleast.1 j hgreatest.1]
  · have hfirst := hf.eq_neg_one_iff.mpr ha
    have hlast := hl.eq_neg_one_iff.mpr ha
    refine ⟨by omega, iff_of_true (by omega) ?_⟩
    intro i hi
    exact absurd (occurrences_nonempty.mp ⟨i, hi⟩) ha

end Occurrence
