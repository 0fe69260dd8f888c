import MushOS.Base.HeapResize

/-! # challoc keeps the contents

Whatever way `challoc` takes (leave the block, rewrite its size in place, move
it), the caller finds the bytes it had, up to the smaller of the two sizes, and
nobody else sees a difference. This holds where the grown block runs into the next
header, too: only the size field is written then (`inPlace_keepsContents`).

`challoc_keepsContents` is about every well-formed heap, live block and new size of
at most the heap for which no exception is raised, and says that the call returns.
-/

namespace MushOS

open ByteMemory Links WellFormed

/-! ## Contents -/

/-- `challoc` does not serve the request in place. -/
def Moves (h : Heap) (p newSize : UDword) : Prop :=
  h.field .size p < newSize ∧ ¬ newSize < h.field .next p - p

/-- `challoc` raises the allocation exception: it asks for a new block, and there is
no room for one. -/
def ChallocRaises (h : Heap) (p newSize : UDword) : Prop :=
  Moves h p newSize ∧ FailsCleanly h newSize

/-- What `challoc` keeps when it turns the block `b` into one of `newSize` bytes at `q`,
next to the blocks `others`. `chain` is the list as it is walked afterwards. -/
structure KeepsContents (h h' : Heap) (b : Block) (others : List Block) (q newSize : UDword)
    (chain : List UDword) : Prop where
  size : MushOS.size h' q = .ok newSize
  bytes : ∀ i < min b.size.toNat newSize.toNat,
    h'.mem.bytes (q + BitVec.ofNat 32 i) = h.mem.bytes (b.addr + BitVec.ofNat 32 i)
  sizes : ∀ c ∈ others, MushOS.size h' c.addr = .ok c.size
  payloads : ∀ c ∈ others, ∀ a ∈ c.payload, h'.mem.bytes a = h.mem.bytes a
  walked : walk (h'.field .next) 0 chainFuel h'.firstAddress = some chain
  listed : chain.Perm (q :: addrs others)
  once : q ≠ b.addr → b.addr ∉ chain ∧ chain.count q = 1

/-! ## The three ways -/

/-- The list of a well-formed heap is what a walk from `first_address` meets. -/
theorem WellFormed.walk_eq {h : Heap} {blocks : List Block} (hw : WellFormed h blocks) :
    walk (h.field .next) 0 chainFuel h.firstAddress = some (addrs blocks) := by
  have hlen := hw.length_lt
  rw [hw.first]
  refine hw.next.walk (fun h0 => hw.ne_zero h0 rfl) ?_
  rwa [addrs, List.length_map]

section Ways
variable {h h' : Heap} {xs ys : List Block} {b : Block} {q newSize : UDword}

theorem addrs_perm_middle (xs ys : List Block) (b : Block) :
    (addrs (xs ++ b :: ys)).Perm (b.addr :: addrs (xs ++ ys)) := by
  rw [addrs_append, addrs_cons, addrs_append]
  exact List.perm_middle

/-- The size stays. -/
theorem same_keepsContents (hw : WellFormed h (xs ++ b :: ys)) :
    KeepsContents h h b (xs ++ ys) b.addr b.size (addrs (xs ++ b :: ys)) where
  size := hw.size_eq (by simp)
  bytes _ _ := rfl
  sizes c hc := hw.size_eq (mem_insert hc)
  payloads _ _ _ _ := rfl
  walked := hw.walk_eq
  listed := addrs_perm_middle xs ys b
  once hne := absurd rfl hne

/-- Only the size field is written, whatever the size. -/
theorem inPlace_keepsContents (hw : WellFormed h (xs ++ b :: ys)) (newSize : UDword) :
    KeepsContents h (h.setMember (b.addr - sizeofHeapBlockHeader) .size newSize) b (xs ++ ys)
      b.addr newSize (addrs (xs ++ b :: ys)) := by
  have hbmem : b.addr ∈ addrs (xs ++ b :: ys) := by simp
  have hge := hw.ge_of_mem_addrs hbmem
  have hbounds : SameBounds h (h.setMember (b.addr - sizeofHeapBlockHeader) .size newSize) :=
    sameBounds_setMember hge
  have hfield : ∀ p ∈ addrs (xs ++ b :: ys), ∀ g,
      (h.setMember (b.addr - sizeofHeapBlockHeader) .size newSize).field g p =
        if p = b.addr ∧ g = .size then newSize else h.field g p := by
    intro p hp g
    have := hw.ge_of_mem_addrs hp
    exact field_setMember (by omega) (hw.apart hbmem hp)
  have hsize : ∀ c ∈ xs ++ b :: ys, MushOS.size
      (h.setMember (b.addr - sizeofHeapBlockHeader) .size newSize) c.addr =
        .ok (if c.addr = b.addr then newSize else h.field .size c.addr) := by
    intro c hc
    have hin : isInHeap _ c.addr = true := hbounds.isInHeap.trans (hw.isInHeap (mem_addrs hc))
    rw [MushOS.size, getHeader_ok hin, ok_bind]
    have hc' := hfield c.addr (mem_addrs hc) .size
    simp only [and_true] at hc'
    exact congrArg Except.ok hc'
  -- the bytes of the size field are in no payload
  have hbytes : ∀ c ∈ xs ++ b :: ys, ∀ a ∈ c.payload,
      (h.setMember (b.addr - sizeofHeapBlockHeader) .size newSize).mem.bytes a =
        h.mem.bytes a := by
    intro c hc a ha
    have hheader : span (b.addr.toNat - 12) 12 ⊆ metadata h.header (xs ++ b :: ys) :=
      header_subset_metadata hbmem
    have hedits := edits_setMember (h := h) (v := newSize) (f := .size) hge hheader
    exact hedits.writes.frame a (hw.payload_not_metadata hc ha)
  refine ⟨?_, fun i hi => ?_, fun c hc => ?_, fun c hc => hbytes c (mem_insert hc), ?_,
    addrs_perm_middle xs ys b, fun hne => absurd rfl hne⟩
  · rw [hsize b (by simp), if_pos rfl]
  · have hlt := hw.payload_lt (b := b) (by simp)
    refine hbytes b (by simp) _ ?_
    rw [Block.payload, mem_span, toNat_add_ofNat (by omega)]
    omega
  · have hnd := nodup_addrs hw.sorted
    rw [addrs_append, addrs_cons, List.nodup_middle, List.nodup_cons, ← addrs_append] at hnd
    have hne : c.addr ≠ b.addr := fun e => hnd.1 (e ▸ mem_addrs hc)
    rw [hsize c (mem_insert hc), if_neg hne]
    exact congrArg Except.ok (hw.size c (mem_insert hc))
  · have hnext : Forward ((h.setMember (b.addr - sizeofHeapBlockHeader) .size newSize).field .next)
        (addrs (xs ++ b :: ys)) 0 := by
      refine hw.next.congr fun p hp => ?_
      rw [hfield p hp]
      simp
    have hlen := hw.length_lt
    rw [firstAddress_setMember hge, hw.first]
    refine hnext.walk (fun h0 => hw.ne_zero h0 rfl) ?_
    rwa [addrs, List.length_map]

/-- The block is moved. -/
theorem moved_keepsContents (hw : WellFormed h (xs ++ b :: ys)) (hne : q ≠ b.addr)
    (hgrow : b.size.toNat ≤ newSize.toNat) (hmoved : Moved h h' b (xs ++ ys) q newSize) :
    ∃ chain, KeepsContents h h' b (xs ++ ys) q newSize chain := by
  rcases hmoved.list with ⟨blocks, hw', hperm⟩
  have hmem : ∀ c, c = ⟨q, newSize⟩ ∨ c ∈ xs ++ ys → c ∈ blocks := by
    intro c hc
    exact hperm.mem_iff.mpr (List.mem_cons.mpr hc)
  have hlisted : (addrs blocks).Perm (q :: addrs (xs ++ ys)) := hperm.map Block.addr
  refine ⟨addrs blocks, hw'.size_eq (hmem ⟨q, newSize⟩ (Or.inl rfl)), fun i hi => ?_,
    fun c hc => hw'.size_eq (hmem c (Or.inr hc)), hmoved.others, hw'.walk_eq, hlisted, fun _ => ?_⟩
  · exact hmoved.bytes i (by omega)
  · have hnd := nodup_addrs hw.sorted
    rw [addrs_append, addrs_cons, List.nodup_middle, List.nodup_cons, ← addrs_append] at hnd
    refine ⟨fun hb => ?_, ?_⟩
    · rcases List.mem_cons.mp (hlisted.mem_iff.mp hb) with heq | hb
      · exact hne heq.symm
      · exact hnd.1 hb
    · exact List.count_eq_one_of_mem (nodup_addrs hw'.sorted) (hlisted.mem_iff.mpr (by simp))

/-- The test of `challoc`, over the fields of the block. -/
theorem moves_iff (hw : WellFormed h (xs ++ b :: ys)) (newSize : UDword) :
    Moves h b.addr newSize ↔
      b.size.toNat < newSize.toNat ∧ growthLimit ys ≤ b.addr.toNat + newSize.toNat := by
  have hsize : h.field .size b.addr = b.size := hw.size b (by simp)
  have hlt : newSize < h.field .next b.addr - b.addr ↔ _ := lt_next_sub_iff hw newSize
  rw [Moves, hsize, hlt, Nat.not_lt]
  rfl

end Ways

/-- **`challoc` preserves contents.** -/
theorem challoc_keepsContents {h : Heap} {xs ys : List Block} {b : Block} {newSize : UDword}
    (hw : WellFormed h (xs ++ b :: ys))
    (hspan : newSize.toNat ≤ h.heapEnd.toNat - h.heapStart.toNat)
    (hquiet : ¬ ChallocRaises h b.addr newSize) :
    ∃ q h' chain, challoc b.addr newSize h = .ok (q, h') ∧ h'.raised = h.raised ∧
      KeepsContents h h' b (xs ++ ys) q newSize chain := by
  rw [challoc_eq hw]
  split
  · -- the size stays
    rename_i hsame
    rw [BitVec.eq_of_toNat_eq hsame]
    exact ⟨_, _, _, rfl, rfl, same_keepsContents hw⟩
  split
  · -- in place
    exact ⟨_, _, _, rfl, rfl, inPlace_keepsContents hw newSize⟩
  · -- moved
    rename_i hne hmove
    rw [not_or] at hmove
    have hgrow : b.size.toNat < newSize.toNat := by omega
    rcases challocMove_spec hw hspan hgrow.le with hfail | ⟨q, h', heq, hne', hmoved⟩
    · have hmoves := (moves_iff hw newSize).mpr ⟨hgrow, by omega⟩
      exact absurd ⟨hmoves, failsCleanly_of_eq hfail⟩ hquiet
    · rcases moved_keepsContents hw hne' hgrow.le hmoved with ⟨chain, hkeeps⟩
      exact ⟨q, h', chain, heq, hmoved.raised, hkeeps⟩

/-! ## Two blocks of four bytes, side by side -/

/-- Growing the first block to two bytes more than it has takes the way in place. -/
theorem challoc_keepsContents_two : ∃ q h' chain, challoc 0x1018 6 twoBlocks = .ok (q, h') ∧
    KeepsContents twoBlocks h' ⟨0x1018, 4⟩ [⟨0x1028, 4⟩] q 6 chain := by
  have hspan : (6 : UDword).toNat ≤ twoBlocks.heapEnd.toNat - twoBlocks.heapStart.toNat := by
    decide +kernel
  have hquiet : ¬ ChallocRaises twoBlocks 0x1018 6 := by
    rintro ⟨hmoves, -⟩
    have hlimit := ((moves_iff twoBlocks_wellFormed 6).mp hmoves).2
    exact absurd hlimit (by decide)
  rcases challoc_keepsContents twoBlocks_wellFormed hspan hquiet with ⟨q, h', chain, heq, -, hkeeps⟩
  exact ⟨q, h', chain, heq, hkeeps⟩

end MushOS
