import MushOS.Base.HeapRuns

/-! # challoc: shrinking, growing in place, moving

`heap.h` says that a block is moved "only if in-place growth is not available".
What the code takes for available is that `new_size` is below the distance from
the payload to `block->next`:

* with a next block, that distance includes the twelve bytes of its header;
* without one, `block->next` is null and the distance is everything up to the end
  of the address space.

`challoc_keeps_iff` is the exact condition under which the heap is well formed
afterwards: the code shrank, or grew into bytes that are free, or moved.
-/

namespace MushOS

open ByteMemory Links WellFormed

/-! ## The property and the condition -/

/-- The heap is well formed, its blocks being the `others` and one of `newSize`
bytes at `q`. -/
def ResizesTo (h' : Heap) (others : List Block) (q newSize : UDword) : Prop :=
  ∃ blocks, WellFormed h' blocks ∧ blocks.Perm (⟨q, newSize⟩ :: others)

/-- Where the code thinks the free bytes before the blocks `ys` end: at the payload
of the next block, or at the end of the address space. -/
def growthLimit (ys : List Block) : ℕ := (ys.head?.map fun c => c.addr.toNat).getD (2 ^ 32)

@[simp] theorem growthLimit_nil : growthLimit [] = 2 ^ 32 := rfl
@[simp] theorem growthLimit_cons (c : Block) (ys : List Block) :
    growthLimit (c :: ys) = c.addr.toNat := rfl

/-- The block `b`, followed by `ys`, does not grow, or grows into free bytes, or
grows beyond what the code takes for free. -/
def ResizeFits (h : Heap) (b : Block) (ys : List Block) (newSize : UDword) : Prop :=
  newSize.toNat ≤ b.size.toNat ∨
    b.addr.toNat + newSize.toNat ≤ gapStop h.heapEnd.toNat ys ∨
    growthLimit ys ≤ b.addr.toNat + newSize.toNat

/-! ## Exceptions -/

section Raised
variable {h h' : Heap} {p v : UDword} {f : BlockMember}

theorem raised_setIfPresent (heq : setIfPresent p f v h = .ok h') : h'.raised = h.raised := by
  unfold setIfPresent getHeader at heq
  split at heq
  · split at heq
    · rw [ok_bind] at heq
      cases heq
      rfl
    · cases heq
  · cases heq
    rfl

/-- `unalloc` raises nothing, whatever the heap looks like. -/
theorem raised_unalloc (heq : unalloc p h = .ok h') : h'.raised = h.raised := by
  unfold unalloc at heq
  cases hblock : getHeader h p with
  | error fault => rw [hblock] at heq; cases heq
  | ok block =>
    rw [hblock, ok_bind] at heq
    dsimp only at heq
    obtain ⟨h1, hh1⟩ : ∃ h1, h1 = if p = h.firstAddress then
        h.setFirstAddress (h.member block .next) else h := ⟨_, rfl⟩
    have hraised1 : h1.raised = h.raised := by
      rw [hh1]
      split <;> rfl
    rw [← hh1] at heq
    cases hnext : setIfPresent (h1.member block .next) .previous (h1.member block .previous) h1 with
    | error fault => rw [hnext] at heq; cases heq
    | ok h2 =>
      rw [hnext, ok_bind] at heq
      rw [raised_setIfPresent heq, raised_setIfPresent hnext, hraised1]

end Raised

/-! ## Growing and shrinking in place -/

section Resize
variable {h h' : Heap} {xs ys : List Block} {b : Block} {q newSize : UDword}

/-- Rewriting the size of a block, as long as it ends before the next header. -/
theorem WellFormed.setSize (hw : WellFormed h (xs ++ b :: ys))
    (hfit : b.addr.toNat + newSize.toNat ≤ gapStop h.heapEnd.toNat ys) :
    WellFormed (h.setMember (b.addr - sizeofHeapBlockHeader) .size newSize)
      (xs ++ ⟨b.addr, newSize⟩ :: ys) := by
  have hbmem : b.addr ∈ addrs (xs ++ b :: ys) := by simp
  have hge := hw.ge_of_mem_addrs hbmem
  have hfield : ∀ p ∈ addrs (xs ++ b :: ys), ∀ g,
      (h.setMember (b.addr - sizeofHeapBlockHeader) .size newSize).field g p =
        if p = b.addr ∧ g = .size then newSize else h.field g p := by
    intro p hp g
    have := hw.ge_of_mem_addrs hp
    exact field_setMember (by omega) (hw.apart hbmem hp)
  refine hw.resize hfit (sameBounds_setMember hge) (firstAddress_setMember hge)
    (fun p hp => ?_) (fun p hp => ?_) (fun p hp => ?_)
  · rw [hfield p hp]
    simp
  · rw [hfield p hp]
    simp
  · rw [hfield p hp]
    simp

/-- A well-formed heap cannot hold a block that runs into the next header or over
the end of the heap. -/
theorem gapStop_of_resizesTo (hw : WellFormed h (xs ++ b :: ys)) (hs : SameBounds h h')
    (hres : ResizesTo h' (xs ++ ys) b.addr newSize) :
    b.addr.toNat + newSize.toNat ≤ gapStop h.heapEnd.toNat ys := by
  rcases hres with ⟨blocks, hw', hperm⟩
  have hb' : (⟨b.addr, newSize⟩ : Block) ∈ blocks := hperm.mem_iff.mpr (by simp)
  cases ys with
  | nil =>
    have := (hw'.inside _ hb').2.1
    rw [hs.heapEnd] at this
    exact this
  | cons c ys =>
    have hc' : c ∈ blocks := hperm.mem_iff.mpr (by simp)
    have hbc : b.Before c :=
      List.rel_of_pairwise_cons (List.pairwise_append.mp hw.sorted).2.1 (by simp)
    have hlt := addr_lt_of_before hbc
    rw [gapStop_cons]
    rcases before_cases hw'.sorted hb' hc' with rfl | hlt' | hlt'
    · simp only at hlt
      omega
    · unfold Block.Before Block.stop at hlt'
      simp only at hlt'
      omega
    · have := addr_lt_of_before hlt'
      simp only at this
      omega

/-! ## What challoc does -/

/-- The pointer difference `block->next - structure`, compared as unsigned. -/
theorem lt_next_sub_iff (hw : WellFormed h (xs ++ b :: ys)) (newSize : UDword) :
    newSize < h.member (b.addr - sizeofHeapBlockHeader) .next - b.addr ↔
      b.addr.toNat + newSize.toNat < growthLimit ys := by
  have hnext : h.member (b.addr - sizeofHeapBlockHeader) .next = headAddr ys := hw.links.1
  have hge := hw.addr_ge (b := b) (by simp)
  have hlt := b.addr.isLt
  rw [hnext, BitVec.lt_def]
  cases ys with
  | nil =>
    rw [headAddr_nil, growthLimit_nil]
    bv_omega
  | cons c ys =>
    have hbc : b.Before c :=
      List.rel_of_pairwise_cons (List.pairwise_append.mp hw.sorted).2.1 (by simp)
    have := addr_lt_of_before hbc
    rw [headAddr_cons, growthLimit_cons]
    bv_omega

/-- The path of `challoc` that moves the block. -/
def challocMove (p newSize : UDword) (h : Heap) : Except Fault (UDword × Heap) := do
  let (newStructure, h) ← ralloc newSize h
  let h := { h with
    mem := memoryCopy p newStructure (h.member (p - sizeofHeapBlockHeader) .size) h.mem }
  let h ← unalloc p h
  return (newStructure, h)

/-- The three ways of `challoc`. -/
theorem challoc_eq (hw : WellFormed h (xs ++ b :: ys)) (newSize : UDword) :
    challoc b.addr newSize h =
      if newSize.toNat = b.size.toNat then .ok (b.addr, h)
      else if newSize.toNat < b.size.toNat ∨
          b.addr.toNat + newSize.toNat < growthLimit ys then
        .ok (b.addr, h.setMember (b.addr - sizeofHeapBlockHeader) .size newSize)
      else challocMove b.addr newSize h := by
  have hsize : h.member (b.addr - sizeofHeapBlockHeader) .size = b.size :=
    hw.size b (by simp)
  have hin := hw.isInHeap (p := b.addr) (by simp)
  unfold challoc
  rw [getHeader_ok hin, ok_bind]
  simp only [hsize, gt_iff_lt, BitVec.lt_def, ← lt_next_sub_iff hw newSize]
  rcases Nat.lt_trichotomy newSize.toNat b.size.toNat with hlt | heq | hgt
  · rw [if_pos hlt, if_neg (by omega), if_pos (Or.inl hlt)]
    rfl
  · rw [if_neg (by omega), if_neg (by omega), if_pos heq]
    rfl
  · rw [if_neg (by omega), if_pos hgt]
    -- there is no next block, or the size is below the distance to it
    by_cases hplace : newSize.toNat <
        (h.member (b.addr - sizeofHeapBlockHeader) .next - b.addr).toNat
    · rw [if_pos hplace, if_neg (by omega), if_pos (Or.inr hplace)]
      rfl
    · rw [if_neg hplace, if_neg (by omega), if_neg (by omega)]
      rfl

/-- The block `b` has been moved to `p`: the list is the other blocks and the new one,
which holds the bytes of `b`; the payloads of the others are as they were. -/
structure Moved (h h' : Heap) (b : Block) (others : List Block) (p newSize : UDword) : Prop where
  list : ResizesTo h' others p newSize
  raised : h'.raised = h.raised
  bytes : ∀ i < b.size.toNat,
    h'.mem.bytes (p + BitVec.ofNat 32 i) = h.mem.bytes (b.addr + BitVec.ofNat 32 i)
  others : ∀ c ∈ others, ∀ a ∈ c.payload, h'.mem.bytes a = h.mem.bytes a

/-- **Moving a block**: the bytes are copied into the payload of the new block, and
the old one is unlinked. -/
theorem challocMove_spec (hw : WellFormed h (xs ++ b :: ys))
    (hspan : newSize.toNat ≤ h.heapEnd.toNat - h.heapStart.toNat)
    (hgrow : b.size.toNat ≤ newSize.toNat) :
    ralloc newSize h = rallocFailure h ∨
      ∃ p h', challocMove b.addr newSize h = .ok (p, h') ∧ p ≠ b.addr ∧
        Moved h h' b (xs ++ ys) p newSize := by
  have hstart := hw.heapStart
  have hend := h.heapEnd.isLt
  rcases ralloc_spec hw newSize (by omega) (fun e => by simp at e) with
    hfail | ⟨us, vs, p, hsplit, hralloc, hw1, hedits⟩
  · exact Or.inl hfail
  right
  have hmem1 : (⟨p, newSize⟩ : Block) ∈ us ++ ⟨p, newSize⟩ :: vs := by simp
  have hold : ∀ c ∈ xs ++ b :: ys, c ∈ us ++ ⟨p, newSize⟩ :: vs ∧ c.addr ≠ p := by
    intro c hc
    have hnd := nodup_addrs hw1.sorted
    rw [addrs_append, addrs_cons, List.nodup_middle, List.nodup_cons, ← addrs_append] at hnd
    have hfresh : p ∉ addrs (us ++ vs) := hnd.1
    rw [hsplit] at hc
    exact ⟨mem_insert hc, fun e => hfresh (e ▸ mem_addrs hc)⟩
  rcases hold b (by simp) with ⟨hb1, hbp⟩
  have hsize : (h.place newSize us vs p).member (b.addr - sizeofHeapBlockHeader) .size =
      b.size := hw1.size b hb1
  have hlt := hw1.payload_lt hmem1
  have hblt := hw1.payload_lt hb1
  simp only at hlt
  have hcopy : Writes (Block.mk p newSize).payload (h.place newSize us vs p).mem
      (memoryCopy b.addr p b.size (h.place newSize us vs p).mem) := by
    refine (writes_memoryCopy b.addr p b.size (by omega) _).mono fun a ha => ?_
    simp only [Block.payload, mem_span] at ha ⊢
    omega
  have hw2 := (hw1.of_payload_writes hmem1 hcopy).1
  rcases List.append_of_mem hb1 with ⟨us', vs', hsplit'⟩
  rw [hsplit'] at hw2
  rcases hw2.unalloc with ⟨h3, hfree, hw3, hedits3⟩
  -- linking in and unlinking write no payload
  have hlink : ∀ c ∈ us ++ ⟨p, newSize⟩ :: vs, ∀ a ∈ c.payload,
      (h.place newSize us vs p).mem.bytes a = h.mem.bytes a := by
    intro c hc a ha
    refine hedits.writes.frame a ?_
    rw [← hedits.bounds.header]
    exact hw1.payload_not_metadata hc ha
  have hunlink : ∀ c ∈ us ++ ⟨p, newSize⟩ :: vs, ∀ a ∈ c.payload, h3.mem.bytes a =
      (memoryCopy b.addr p b.size (h.place newSize us vs p).mem).bytes a := by
    intro c hc a ha
    rw [hsplit'] at hc
    exact hedits3.writes.frame a (hw2.payload_not_metadata hc ha)
  have hperm : (b :: (us' ++ vs')).Perm (b :: ⟨p, newSize⟩ :: (xs ++ ys)) :=
    calc (b :: (us' ++ vs')).Perm (us' ++ b :: vs') := List.perm_middle.symm
      _ = us ++ ⟨p, newSize⟩ :: vs := hsplit'.symm
      List.Perm _ (⟨p, newSize⟩ :: (us ++ vs)) := List.perm_middle
      _ = ⟨p, newSize⟩ :: (xs ++ b :: ys) := by rw [hsplit]
      List.Perm _ (⟨p, newSize⟩ :: b :: (xs ++ ys)) := List.perm_middle.cons _
      List.Perm _ (b :: ⟨p, newSize⟩ :: (xs ++ ys)) := List.Perm.swap _ _ _
  refine ⟨p, h3, ?_, Ne.symm hbp, ⟨us' ++ vs', hw3, hperm.cons_inv⟩, ?_, fun i hi => ?_,
    fun c hc a ha => ?_⟩
  · rw [challocMove, hralloc, ok_bind]
    simp only [hsize, hfree, ok_bind]
    rfl
  · exact (raised_unalloc hfree).trans hedits.raised
  · have hapart : b.addr.toNat + b.size.toNat ≤ p.toNat ∨
        p.toNat + b.size.toNat ≤ b.addr.toNat := by
      rcases before_cases hw1.sorted hb1 hmem1 with heq | hlt' | hlt'
      · exact absurd (congrArg Block.addr heq) hbp
      · unfold Block.Before Block.stop at hlt'
        simp only at hlt'
        omega
      · unfold Block.Before Block.stop at hlt'
        simp only at hlt'
        omega
    have hp : p + BitVec.ofNat 32 i ∈ (Block.mk p newSize).payload := by
      rw [Block.payload, mem_span, toNat_add_ofNat (by omega)]
      simp only
      omega
    have hbi : b.addr + BitVec.ofNat 32 i ∈ b.payload := by
      rw [Block.payload, mem_span, toNat_add_ofNat (by omega)]
      omega
    rw [hunlink _ hmem1 _ hp, ← hlink b hb1 _ hbi]
    exact memoryCopyLoop_bytes (by omega) (by omega) hapart _ hi
  · have hc' : c ∈ xs ++ b :: ys := mem_insert hc
    rcases hold c hc' with ⟨hc1, hcp⟩
    rw [hunlink c hc1 a ha, hcopy.frame a, hlink c hc1 a ha]
    exact hw1.payload_disjoint hc1 hmem1 (fun e => hcp (congrArg Block.addr e)) ha

/-- When `ralloc` raises an exception, nothing `challoc` does after it takes it back. -/
theorem raised_challocMove (hfail : ralloc newSize h = rallocFailure h)
    (heq : challocMove b.addr newSize h = .ok (q, h')) :
    h'.raised = allocationException :: h.raised := by
  rw [challocMove, hfail, rallocFailure] at heq
  cases hthrow : throwException allocationException h with
  | error fault => rw [hthrow] at heq; cases heq
  | ok h1 =>
    have hraised1 : h1.raised = allocationException :: h.raised := by
      unfold throwException at hthrow
      split at hthrow
      · cases hthrow
      · cases hthrow
        rfl
      · cases hthrow
    rw [hthrow, ok_bind] at heq
    -- the null pointer is taken for the new block, and the old one is released
    change (do
      let h ← unalloc b.addr { h1 with
        mem := memoryCopy b.addr 0 (h1.member (b.addr - sizeofHeapBlockHeader) .size) h1.mem }
      return ((0 : UDword), h)) = _ at heq
    cases hfree : unalloc b.addr { h1 with
        mem := memoryCopy b.addr 0 (h1.member (b.addr - sizeofHeapBlockHeader) .size) h1.mem } with
    | error fault => rw [hfree] at heq; cases heq
    | ok h2 =>
      rw [hfree, ok_bind] at heq
      cases heq
      rw [raised_unalloc hfree, hraised1]

theorem challocMove_resizesTo (hw : WellFormed h (xs ++ b :: ys))
    (hspan : newSize.toNat ≤ h.heapEnd.toNat - h.heapStart.toNat)
    (hgrow : b.size.toNat ≤ newSize.toNat) (heq : challocMove b.addr newSize h = .ok (q, h'))
    (hraised : h'.raised = h.raised) : ResizesTo h' (xs ++ ys) q newSize := by
  rcases challocMove_spec hw hspan hgrow with hfail | ⟨p, h1, hmove, -, hmoved⟩
  · rw [raised_challocMove hfail heq] at hraised
    exact absurd hraised (List.cons_ne_self _ _)
  · rw [hmove, Except.ok.injEq, Prod.mk.injEq] at heq
    rcases heq with ⟨rfl, rfl⟩
    exact hmoved.list

/-- **When `challoc` keeps the heap well formed**: for every well-formed heap, live
block and new size of at most the heap, if nothing was raised. -/
theorem challoc_keeps_iff (hw : WellFormed h (xs ++ b :: ys))
    (hspan : newSize.toNat ≤ h.heapEnd.toNat - h.heapStart.toNat)
    (heq : challoc b.addr newSize h = .ok (q, h')) (hraised : h'.raised = h.raised) :
    ResizesTo h' (xs ++ ys) q newSize ↔ ResizeFits h b ys newSize := by
  rw [challoc_eq hw] at heq
  have hge := hw.addr_ge (b := b) (by simp)
  split at heq
  · -- the size stays
    rename_i hsame
    cases heq
    refine iff_of_true ⟨xs ++ b :: ys, hw, ?_⟩ (Or.inl (by omega))
    rw [BitVec.eq_of_toNat_eq hsame]
    exact List.perm_middle
  split at heq
  · -- in place
    rename_i hplace
    cases heq
    have hbounds : SameBounds h (h.setMember (b.addr - sizeofHeapBlockHeader) .size newSize) :=
      sameBounds_setMember hge
    constructor
    · exact fun hres => Or.inr (Or.inl (gapStop_of_resizesTo hw hbounds hres))
    · intro hfits
      have hfit : b.addr.toNat + newSize.toNat ≤ gapStop h.heapEnd.toNat ys := by
        have hold : b.addr.toNat + b.size.toNat ≤ gapStop h.heapEnd.toNat ys :=
          gapStop_of_resizesTo hw (SameBounds.refl h) ⟨_, hw, List.perm_middle⟩
        rcases hfits with hle | hfit | hmoved
        · omega
        · exact hfit
        · omega
      exact ⟨_, hw.setSize hfit, List.perm_middle⟩
  · -- moved
    rename_i hne hmove
    rw [not_or] at hmove
    refine iff_of_true (challocMove_resizesTo hw hspan (by omega) heq hraised) ?_
    exact Or.inr (Or.inr (by omega))

end Resize

/-! ## Two blocks of four bytes, side by side -/

/-- The hundred-byte heap after two requests for four bytes. -/
def twoBlocks : Heap :=
  match (do let (_, h) ← ralloc 4 smallHeap; ralloc 4 h) with
  | .ok (_, h) => h
  | .error _ => smallHeap

theorem twoBlocks_wellFormed : WellFormed twoBlocks ([] ++ ⟨0x1018, 4⟩ :: [⟨0x1028, 4⟩]) where
  heapStart := by decide +kernel
  heapEnd := by decide +kernel
  first := by decide +kernel
  size := by decide +kernel
  next := ⟨by decide +kernel, by decide +kernel, trivial⟩
  previous := ⟨by decide +kernel, by decide +kernel, trivial⟩
  sorted := by
    unfold Block.Before Block.stop
    decide
  inside := by
    unfold Block.stop
    decide +kernel

/-- Shrinking the first block to two bytes is among the cases that are fine. -/
theorem challoc_shrinks_two : ∃ q h', challoc 0x1018 2 twoBlocks = .ok (q, h') ∧
    ResizesTo h' ([] ++ [⟨0x1028, 4⟩]) q 2 := by
  have heq := challoc_eq twoBlocks_wellFormed 2
  rw [if_neg (by decide), if_pos (Or.inl (by decide))] at heq
  exact ⟨_, _, heq, (challoc_keeps_iff twoBlocks_wellFormed (by decide +kernel) heq rfl).mpr
    (Or.inl (by decide))⟩

/-- Growing it to ten bytes happens in place, over the header of the second one. -/
theorem challoc_overlaps_next_header :
    WellFormed twoBlocks ([] ++ ⟨0x1018, 4⟩ :: [⟨0x1028, 4⟩]) ∧
    10 ≤ twoBlocks.heapEnd.toNat - twoBlocks.heapStart.toNat ∧
    ∃ q h', challoc 0x1018 10 twoBlocks = .ok (q, h') ∧ h'.raised = twoBlocks.raised ∧
      ¬ ResizesTo h' ([] ++ [⟨0x1028, 4⟩]) q 10 := by
  have heq := challoc_eq twoBlocks_wellFormed 10
  rw [if_neg (by decide), if_pos (Or.inr (by decide))] at heq
  refine ⟨twoBlocks_wellFormed, by decide +kernel, _, _, heq, rfl, fun hres => ?_⟩
  have hbounds := sameBounds_setMember (h := twoBlocks) (p := 0x1018) (f := .size) (v := 10)
    (by decide +kernel)
  exact absurd (gapStop_of_resizesTo twoBlocks_wellFormed hbounds hres) (by decide)

end MushOS
