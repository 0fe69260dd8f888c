import MushOS.Theory.Agreement
import MushOS.Base.HeapUndo

/-! # What an allocation looks at

`ralloc` reads the header of the heap and the headers of its blocks, and nothing else.
Two well-formed heaps with the same blocks therefore give the same answer, however
much their payloads differ, and the writes that link the new block in are the same
(`ralloc_congr`). The blocks themselves are determined by the memory
(`WellFormed.blocks_unique`).
-/

namespace MushOS

open ByteMemory Links

section Congr
variable {h h' k : Heap} {blocks blocks' : List Block} {size p q v : UDword} {f : BlockMember}
  {S : Set UDword}

/-- **`ralloc` depends on the metadata only**: where it puts a block in one heap, it puts
it in the other. -/
theorem ralloc_congr (hw : WellFormed h blocks) (hw' : WellFormed h' blocks) (hs : SameBounds h h')
    (hhandler : h.handlers allocationExceptionId = some .kernel)
    (heq : ralloc size h = .ok (p, k)) :
    ∃ xs ys, blocks = xs ++ ys ∧ k = h.place size xs ys p ∧
      ralloc size h' = .ok (p, h'.place size xs ys p) := by
  by_cases hne : blocks = []
  · subst hne
    rw [ralloc_empty hw, Except.ok.injEq, Prod.mk.injEq] at heq
    rcases heq with ⟨rfl, rfl⟩
    refine ⟨[], [], rfl, rfl, ?_⟩
    rw [ralloc_empty hw', hs.heapStart]
  rcases foldl_take size (gaps h blocks) ⟨h.heapEnd - h.heapStart, 0, 0, 0⟩ with
    ⟨-, hno⟩ | ⟨g, hg, hbest, -, hlt, -⟩
  · -- no gap passes, and the handler of the kernel does not return
    have hid : h.handlers allocationException.id = some .kernel := hhandler
    have hhung : throwException allocationException h = .error (.hung allocationException) := by
      simp only [throwException, hid]
    rw [ralloc_none hw hne hno, rallocFailure, hhung] at heq
    cases heq
  · rcases mem_gaps.mp hg with ⟨xs, ys, rfl, rfl⟩
    have hgap : gapOf h' xs ys = gapOf h xs ys := by
      unfold gapOf gapFirst gapAfter
      rw [hs.heapStart, hs.heapEnd]
    rcases ralloc_takes hw hne hlt hbest with ⟨q, hq, hok⟩
    rw [← gaps_congr hs, ← hs.heapStart, ← hs.heapEnd, ← hgap] at hbest
    rw [← hs.heapStart, ← hs.heapEnd, ← hgap] at hlt
    rcases ralloc_takes hw' hne hlt hbest with ⟨q', hq', hok'⟩
    rw [hok, Except.ok.injEq, Prod.mk.injEq] at heq
    rcases heq with ⟨rfl, rfl⟩
    have hsame : q' = q := by
      apply BitVec.eq_of_toNat_eq
      rw [hq, hq', hs.heapStart]
    rw [hsame] at hok'
    exact ⟨xs, ys, rfl, rfl, hok'⟩

/-! ## The same writes -/

theorem AgreeOutside.patch (hag : AgreeOutside S h.mem h'.mem) :
    AgreeOutside S (h.patch p f v).mem (h'.patch p f v).mem := by
  unfold Heap.patch
  by_cases hp : p ≠ 0
  · rw [if_pos hp, if_pos hp]
    exact hag.write32 _ _
  · rw [if_neg hp, if_neg hp]
    exact hag

/-- Linking a block in. -/
theorem AgreeOutside.place (hag : AgreeOutside S h.mem h'.mem) (hheader : h'.header = h.header)
    (size : UDword) (xs ys : List Block) (p : UDword) :
    AgreeOutside S (h.place size xs ys p).mem (h'.place size xs ys p).mem := by
  have hmembers : AgreeOutside S (h.linkIn p size (lastAddr xs) (headAddr ys)).mem
      (h'.linkIn p size (lastAddr xs) (headAddr ys)).mem := by
    unfold Heap.linkIn
    refine AgreeOutside.patch (AgreeOutside.patch ?_)
    exact ((hag.write32 _ _).write32 _ _).write32 _ _
  unfold Heap.place Heap.linkFirst
  by_cases hxs : xs = []
  · rw [if_pos hxs, if_pos hxs]
    have hfirst := hmembers.write32 h.header p
    unfold Heap.setFirstAddress
    rw [show (h.linkIn p size (lastAddr xs) (headAddr ys)).header = h.header by
        simp [Heap.linkIn, header_patch],
      show (h'.linkIn p size (lastAddr xs) (headAddr ys)).header = h.header by
        simp [Heap.linkIn, header_patch, hheader]]
    exact hfirst
  · rw [if_neg hxs, if_neg hxs]
    exact hmembers

/-! ## The blocks of a heap -/

theorem WellFormed.blocks_eq (hw : WellFormed h blocks) :
    blocks = (addrs blocks).map fun a => ⟨a, h.field .size a⟩ := by
  unfold addrs
  rw [List.map_map]
  refine (List.map_id _).symm.trans (List.map_congr_left ?_)
  intro b hb
  show b = ⟨b.addr, h.field .size b.addr⟩
  rw [hw.size b hb]

/-- The memory says what the blocks are. -/
theorem WellFormed.blocks_unique (hw : WellFormed h blocks) (hw' : WellFormed h blocks') :
    blocks' = blocks := by
  have haddrs : addrs blocks' = addrs blocks :=
    Option.some.inj (hw'.walk_eq.symm.trans hw.walk_eq)
  rw [hw'.blocks_eq, hw.blocks_eq, haddrs]

end Congr

end MushOS
