import MushOS.Base.HeapContents

/-! # unalloc undoes ralloc, and frees commute

The headers of a well-formed heap are a function of its blocks (`sameList`): two
histories that end with the same blocks end with the same `first_address` and the
same fields, however many stale links they leave behind. Two results rest on this:

* freeing what `ralloc` has just returned restores the list, so that every later
  request is answered as before. The one exception is a block of no bytes at the
  very end of an empty heap, which `get_header` takes for one outside of it
  (`unalloc_undoes_iff`);
* freeing a set of blocks gives the same list in any order (`frees_commute`).
-/

namespace MushOS

open ByteMemory Links WellFormed

/-! ## The list as a function of the blocks -/

/-- `h'` has the first block of `h`, and the headers of `h` on `blocks`. -/
structure SameList (h h' : Heap) (blocks : List Block) : Prop where
  first : h'.firstAddress = h.firstAddress
  fields : ∀ b ∈ blocks, ∀ f, h'.field f b.addr = h.field f b.addr

/-- What the next request for `size` bytes is answered with. -/
def answer (h : Heap) (size : UDword) : Except Fault UDword := (ralloc size h).map Prod.fst

section Determined
variable {h h' : Heap} {blocks : List Block} {size p : UDword}

theorem answer_of_ok (heq : ralloc size h = .ok (p, h')) : answer h size = .ok p := by
  rw [answer, heq]
  rfl

theorem WellFormed.sameList (hw : WellFormed h blocks) (hw' : WellFormed h' blocks) :
    SameList h h' blocks := by
  refine ⟨hw'.first.trans hw.first.symm, fun b hb f => ?_⟩
  rcases List.append_of_mem hb with ⟨xs, ys, rfl⟩
  cases f with
  | size => exact (hw'.size b hb).trans (hw.size b hb).symm
  | previous => exact hw'.links.2.trans hw.links.2.symm
  | next => exact hw'.links.1.trans hw.links.1.symm

theorem gaps_congr (hs : SameBounds h h') (blocks : List Block) :
    gaps h' blocks = gaps h blocks := by
  have hafter : ∀ bs, gapsAfter h' bs = gapsAfter h bs := by
    intro bs
    induction bs with
    | nil => rfl
    | cons b bs ih => rw [gapsAfter, gapsAfter, ih, gapAfter, gapAfter, hs.heapEnd]
  rw [gaps, gaps, hafter, gapFirst, gapFirst, hs.heapStart]

theorem answer_failure (hhandlers : h'.handlers = h.handlers)
    (hfail : ralloc size h = rallocFailure h) (hfail' : ralloc size h' = rallocFailure h') :
    answer h' size = answer h size := by
  rw [answer, answer, hfail, hfail', rallocFailure, rallocFailure, throwException,
    throwException, hhandlers]
  cases h.handlers allocationException.id with
  | none => rfl
  | some handler => cases handler <;> rfl

/-- Heaps with the same blocks answer every request alike. -/
theorem answer_congr (hw : WellFormed h blocks) (hw' : WellFormed h' blocks)
    (hs : SameBounds h h') (hhandlers : h'.handlers = h.handlers) (size : UDword) :
    answer h' size = answer h size := by
  by_cases hne : blocks = []
  · subst hne
    rw [answer_of_ok (ralloc_empty hw size), answer_of_ok (ralloc_empty hw' size), hs.heapStart]
  have hstart : (⟨h'.heapEnd - h'.heapStart, 0, 0, 0⟩ : Best) =
      ⟨h.heapEnd - h.heapStart, 0, 0, 0⟩ := by
    rw [hs.heapStart, hs.heapEnd]
  have hgaps := gaps_congr hs blocks
  rcases foldl_take_first size (gaps h blocks) ⟨h.heapEnd - h.heapStart, 0, 0, 0⟩ with
    ⟨-, hno⟩ | ⟨before, g, after, hsplit, heq, -, hlt, -, -⟩
  · refine answer_failure hhandlers (ralloc_none hw hne hno) (ralloc_none hw' hne ?_)
    intro g hg
    rw [hgaps] at hg
    rw [Gap.Passes, hs.heapStart, hs.heapEnd]
    exact hno g hg
  · -- the same gap is taken in both
    rcases mem_gaps.mp (show g ∈ gaps h blocks by rw [hsplit]; simp) with ⟨xs, ys, rfl, rfl⟩
    have hgap : gapOf h' xs ys = gapOf h xs ys := by
      rcases List.eq_nil_or_concat xs with rfl | ⟨xs', b, rfl⟩
      · rw [gapOf_nil, gapOf_nil, gapFirst, gapFirst, hs.heapStart]
      · rw [List.concat_eq_append, gapOf_concat, gapOf_concat, gapAfter, gapAfter, hs.heapEnd]
    rcases ralloc_takes hw hne hlt heq with ⟨p, hp, hralloc⟩
    obtain ⟨p', hp', hralloc'⟩ := ralloc_takes hw' hne
      (by rw [hgap, hs.heapStart, hs.heapEnd]; exact hlt) (by rw [hgaps, hstart, hgap]; exact heq)
    have hpp : p' = p := BitVec.eq_of_toNat_eq (by rw [hp, hp', hs.heapStart])
    rw [answer_of_ok hralloc, answer_of_ok hralloc', hpp]

end Determined

/-! ## unalloc after ralloc -/

/-- Freeing `p` restores the list of `h`, and with it the answer to every request. -/
def UndoneBy (h h₁ : Heap) (blocks : List Block) (p : UDword) : Prop :=
  ∃ h₂, unalloc p h₁ = .ok h₂ ∧ SameList h h₂ blocks ∧ ∀ n, answer h₂ n = answer h n

section Undo
variable {h h₁ : Heap} {blocks xs ys : List Block} {p size : UDword}

/-- A block that has been linked in is unlinked without a trace in the list. -/
theorem undone_of_place (hw : WellFormed h (xs ++ ys))
    (hw₁ : WellFormed h₁ (xs ++ ⟨p, size⟩ :: ys))
    {S : Set UDword} (hedits : Edits S h h₁) : UndoneBy h h₁ (xs ++ ys) p := by
  rcases hw₁.unalloc with ⟨h₂, hfree, hw₂, hedits₂⟩
  refine ⟨h₂, hfree, hw.sameList hw₂, fun n => ?_⟩
  exact answer_congr hw hw₂ (hedits.bounds.trans hedits₂.bounds)
    (hedits₂.handlers.trans hedits.handlers) n

/-- In an empty heap of one block header, the block starts where the heap ends, and
`get_header` throws. -/
theorem not_undone_at_end (hw : WellFormed h [])
    (hend : h.heapEnd.toNat = h.heapStart.toNat + 12) (heq : ralloc size h = .ok (p, h₁)) :
    ¬ UndoneBy h h₁ [] p := by
  rw [ralloc_empty hw size, Except.ok.injEq, Prod.mk.injEq] at heq
  rcases heq with ⟨rfl, rfl⟩
  have hlt := h.heapEnd.isLt
  have hstart := hw.heapStart
  have hp : h.heapStart + sizeofHeapBlockHeader = h.heapEnd := by
    refine BitVec.eq_of_toNat_eq ?_
    rw [hend, BitVec.toNat_add_of_lt (by unfold sizeofHeapBlockHeader; simp; omega)]
    rfl
  have hp24 : h.header.toNat + 24 ≤ (h.heapStart + sizeofHeapBlockHeader).toNat := by
    rw [hp]
    omega
  have hw' : WellFormed h ([] ++ []) := hw
  have hplace := sameBounds_place hw' hp24 size
  have hout : isInHeap (h.place size [] [] (h.heapStart + sizeofHeapBlockHeader))
      (h.heapStart + sizeofHeapBlockHeader) = false := by
    rw [hplace.isInHeap, isInHeap, hp]
    simp
  rintro ⟨h₂, hfree, -⟩
  rw [unalloc, getHeader, if_neg (by rw [hout]; simp)] at hfree
  cases hfree

/-- **When `unalloc` undoes `ralloc`**, for every well-formed heap, every size of at most
the heap, and every block `ralloc` returns. -/
theorem unalloc_undoes_iff (hw : WellFormed h blocks)
    (hfit : size.toNat + 12 ≤ h.heapEnd.toNat - h.heapStart.toNat)
    (heq : ralloc size h = .ok (p, h₁)) (hp : p ≠ 0) :
    UndoneBy h h₁ blocks p ↔
      ¬ (blocks = [] ∧ h.heapEnd.toNat = h.heapStart.toNat + 12) := by
  by_cases hcorner : blocks = [] ∧ h.heapEnd.toNat = h.heapStart.toNat + 12
  · rcases hcorner with ⟨rfl, hend⟩
    exact iff_of_false (not_undone_at_end hw hend heq) fun hnot => hnot ⟨rfl, hend⟩
  refine iff_of_true ?_ hcorner
  have hstart := hw.heapStart
  have hlt := h.heapEnd.isLt
  have hempty : blocks = [] → h.heapStart.toNat + 12 + size.toNat ≤ h.heapEnd.toNat ∧
      h.heapStart.toNat + 12 < h.heapEnd.toNat := by
    intro hnil
    have hne : h.heapEnd.toNat ≠ h.heapStart.toNat + 12 := fun hend => hcorner ⟨hnil, hend⟩
    omega
  rcases ralloc_spec hw size (by omega) hempty with
    hfail | ⟨xs, ys, q, rfl, hralloc, hw₁, hedits⟩
  · -- nothing is returned but null
    rw [hfail, rallocFailure] at heq
    rcases ok_of_bind_ok heq with ⟨h', -, hret⟩
    cases hret
    exact absurd rfl hp
  · rw [hralloc, Except.ok.injEq, Prod.mk.injEq] at heq
    rcases heq with ⟨rfl, rfl⟩
    exact undone_of_place hw hw₁ hedits

end Undo

theorem unalloc_undoes_small : ∃ p h₁, ralloc 4 smallHeap = .ok (p, h₁) ∧
    UndoneBy smallHeap h₁ [] p := by
  have hp : smallHeap.heapStart + sizeofHeapBlockHeader ≠ 0 := by decide +kernel
  have heq := ralloc_empty smallHeap_wellFormed 4
  refine ⟨_, _, heq, (unalloc_undoes_iff smallHeap_wellFormed (by decide +kernel) heq hp).mpr ?_⟩
  rintro ⟨-, hend⟩
  exact absurd hend (by decide +kernel)

/-- A heap of 24 bytes has room for one block of no bytes. -/
def tinyHeap : Heap := initializeHeap 0x1000 24 noHeap

theorem tinyHeap_wellFormed : WellFormed tinyHeap [] :=
  (initializeHeap_spec (by decide) (by decide) noHeap).1

/-- It cannot be freed. -/
theorem unalloc_throws_tiny :
    (0 : UDword).toNat + 12 ≤ tinyHeap.heapEnd.toNat - tinyHeap.heapStart.toNat ∧
      ∃ p h₁, p ≠ 0 ∧ ralloc 0 tinyHeap = .ok (p, h₁) ∧ ¬ UndoneBy tinyHeap h₁ [] p := by
  have hp : tinyHeap.heapStart + sizeofHeapBlockHeader ≠ 0 := by decide +kernel
  have heq := ralloc_empty tinyHeap_wellFormed 0
  have hend : tinyHeap.heapEnd.toNat = tinyHeap.heapStart.toNat + 12 := by decide +kernel
  exact ⟨by decide +kernel, _, _, hp, heq, not_undone_at_end tinyHeap_wellFormed hend heq⟩

/-! ## Freeing several blocks -/

/-- `unalloc` of each of the pointers, in this order. -/
def unallocAll : List UDword → Heap → Except Fault Heap
  | [], h => return h
  | p :: ps, h => do
    let h ← unalloc p h
    unallocAll ps h

/-- The blocks that are not freed. -/
def remaining (blocks : List Block) (freed : List UDword) : List Block :=
  blocks.filter fun b => b.addr ∉ freed

section Frees
variable {h : Heap} {blocks : List Block} {freed freed' : List UDword}

theorem remaining_cons {xs ys : List Block} {b : Block} (hnd : b.addr ∉ addrs (xs ++ ys)) :
    remaining (xs ++ b :: ys) (b.addr :: freed) = remaining (xs ++ ys) freed := by
  have hother : ∀ c ∈ xs ++ ys, (c.addr ∉ b.addr :: freed) = (c.addr ∉ freed) := by
    intro c hc
    have hne : c.addr ≠ b.addr := fun e => hnd (e ▸ mem_addrs hc)
    simp [hne]
  unfold remaining
  rw [List.filter_append, List.filter_append, List.filter_cons_of_neg (by simp)]
  congr 1
  · exact List.filter_congr fun c hc => by simp only [hother c (List.mem_append_left _ hc)]
  · exact List.filter_congr fun c hc => by simp only [hother c (List.mem_append_right _ hc)]

/-- Freeing blocks one by one leaves a well-formed heap of the others. -/
theorem unallocAll_spec (hw : WellFormed h blocks) (hnodup : freed.Nodup)
    (hlive : ∀ p ∈ freed, p ∈ addrs blocks) :
    ∃ h', unallocAll freed h = .ok h' ∧ WellFormed h' (remaining blocks freed) ∧
      SameBounds h h' := by
  induction freed generalizing h blocks with
  | nil => exact ⟨h, rfl, by simpa [remaining] using hw, SameBounds.refl h⟩
  | cons p ps ih =>
    rcases List.mem_map.mp (hlive p (by simp)) with ⟨b, hb, rfl⟩
    rcases List.append_of_mem hb with ⟨xs, ys, rfl⟩
    rcases hw.unalloc with ⟨h₁, hfree, hw₁, hedits⟩
    have hnd := nodup_addrs hw.sorted
    rw [addrs_append, addrs_cons, List.nodup_middle, List.nodup_cons, ← addrs_append] at hnd
    rw [List.nodup_cons] at hnodup
    have hlive₁ : ∀ p ∈ ps, p ∈ addrs (xs ++ ys) := by
      intro p hp
      have hmem := (addrs_perm_middle xs ys b).mem_iff.mp (hlive p (by simp [hp]))
      refine (List.mem_cons.mp hmem).resolve_left ?_
      rintro rfl
      exact hnodup.1 hp
    rcases ih hw₁ hnodup.2 hlive₁ with ⟨h', hrest, hw', hbounds⟩
    refine ⟨h', ?_, ?_, hedits.bounds.trans hbounds⟩
    · rw [unallocAll, hfree, ok_bind]
      exact hrest
    · rwa [remaining_cons hnd.1]

theorem remaining_perm (hperm : freed.Perm freed') :
    remaining blocks freed' = remaining blocks freed := by
  unfold remaining
  exact List.filter_congr fun b _ => by simp only [hperm.mem_iff]

/-- **Frees commute**: any two orders leave the same list, and when every block is freed
the heap is as good as new. -/
theorem frees_commute (hw : WellFormed h blocks) (hnodup : freed.Nodup)
    (hlive : ∀ p ∈ freed, p ∈ addrs blocks) (hperm : freed.Perm freed') :
    ∃ h₁ h₂, unallocAll freed h = .ok h₁ ∧ unallocAll freed' h = .ok h₂ ∧
      SameList h₁ h₂ (remaining blocks freed) ∧
      ((∀ p ∈ addrs blocks, p ∈ freed) → h₁.firstAddress = 0 ∧ h₂.firstAddress = 0 ∧
        ∀ n, answer h₁ n = .ok (h.heapStart + sizeofHeapBlockHeader) ∧
          answer h₂ n = .ok (h.heapStart + sizeofHeapBlockHeader)) := by
  rcases unallocAll_spec hw hnodup hlive with ⟨h₁, hrun₁, hw₁, hs₁⟩
  rcases unallocAll_spec hw (hperm.nodup_iff.mp hnodup)
    fun p hp => hlive p (hperm.mem_iff.mpr hp) with ⟨h₂, hrun₂, hw₂, hs₂⟩
  rw [remaining_perm hperm] at hw₂
  refine ⟨h₁, h₂, hrun₁, hrun₂, hw₁.sameList hw₂, fun hall => ?_⟩
  have hnone : remaining blocks freed = [] := by
    refine List.filter_eq_nil_iff.mpr fun b hb => ?_
    simpa using hall _ (mem_addrs hb)
  rw [hnone] at hw₁ hw₂
  refine ⟨hw₁.first, hw₂.first, fun n => ⟨?_, ?_⟩⟩
  · rw [answer_of_ok (ralloc_empty hw₁ n), hs₁.heapStart]
  · rw [answer_of_ok (ralloc_empty hw₂ n), hs₂.heapStart]

end Frees

theorem frees_commute_two : ∃ h₁ h₂, unallocAll [0x1018, 0x1028] twoBlocks = .ok h₁ ∧
    unallocAll [0x1028, 0x1018] twoBlocks = .ok h₂ ∧ h₁.firstAddress = 0 ∧
      h₂.firstAddress = 0 := by
  have hnodup : [(0x1018 : UDword), 0x1028].Nodup := by decide
  rcases frees_commute twoBlocks_wellFormed hnodup (by simp) (List.Perm.swap _ _ _) with
    ⟨h₁, h₂, hrun₁, hrun₂, -, hall⟩
  rcases hall (by simp) with ⟨hfirst₁, hfirst₂, -⟩
  exact ⟨h₁, h₂, hrun₁, hrun₂, hfirst₁, hfirst₂⟩

end MushOS
