import MushOS.Theory.Links
import MushOS.Base.Heap

/-! # Well-formed heaps

The representation invariant of the heap and the three edits that keep it:

* `WellFormed h blocks`: the chain from `first_address` is `blocks`, linked both
  ways, in ascending order, no two blocks overlapping, every block (header and
  payload) inside the heap;
* `WellFormed.insert`: linking a block into a gap (the four cases of `ralloc`:
  empty heap, before the first block, between two, after the last);
* `WellFormed.remove`: unlinking a block (the four cases of `unalloc`);
* `WellFormed.resize`: rewriting a size in place (`challoc`).

Headers and payloads share one memory, so each edit comes with its footprint:
only `metadata`, the heap header and the block headers, is written.
-/

namespace MushOS

open ByteMemory Links

/-! ## Blocks -/

/-- A live block: the address of its payload and the size of it. -/
structure Block where
  addr : UDword
  size : UDword
deriving DecidableEq, Repr

namespace Block

/-- The first address after the payload, as an unbounded integer. -/
def stop (b : Block) : ℕ := b.addr.toNat + b.size.toNat

/-- `b`, payload included, ends before the header of `c` starts. -/
def Before (b c : Block) : Prop := b.stop + 12 ≤ c.addr.toNat

def payload (b : Block) : Set UDword := span b.addr.toNat b.size.toNat

def header (b : Block) : Set UDword := span (b.addr.toNat - 12) 12

end Block

/-- The member `f` of the block whose payload is at `p`. -/
def Heap.field (h : Heap) (f : BlockMember) (p : UDword) : UDword :=
  h.member (p - sizeofHeapBlockHeader) f

/-- The addresses of the payloads. -/
def addrs (blocks : List Block) : List UDword := blocks.map Block.addr

@[simp] theorem addrs_nil : addrs [] = [] := rfl
@[simp] theorem addrs_cons (b : Block) (bs : List Block) :
    addrs (b :: bs) = b.addr :: addrs bs := rfl
/-- The payloads of two lists one after another. -/
@[simp] theorem addrs_append (bs cs : List Block) :
    addrs (bs ++ cs) = addrs bs ++ addrs cs := List.map_append

/-- The payload of a block of the list. -/
theorem mem_addrs {b : Block} {bs : List Block} (h : b ∈ bs) : b.addr ∈ addrs bs :=
  List.mem_map_of_mem h

/-! ## The invariant -/

/-- The heap is well formed, and `blocks` are its blocks in chain order. -/
structure WellFormed (h : Heap) (blocks : List Block) : Prop where
  heapStart : h.heapStart.toNat = h.header.toNat + 12
  heapEnd : h.heapStart.toNat ≤ h.heapEnd.toNat
  first : h.firstAddress = (addrs blocks).headD 0
  size : ∀ b ∈ blocks, h.field .size b.addr = b.size
  next : Forward (h.field .next) (addrs blocks) 0
  previous : Backward (h.field .previous) 0 (addrs blocks)
  sorted : blocks.Pairwise Block.Before
  inside : ∀ b ∈ blocks, h.heapStart.toNat + 12 ≤ b.addr.toNat ∧
    b.stop ≤ h.heapEnd.toNat ∧ b.addr.toNat < h.heapEnd.toNat

/-- The bytes that belong to the heap and not to its clients. -/
def metadata (header : UDword) (blocks : List Block) : Set UDword :=
  span header.toNat 12 ∪ {a | ∃ b ∈ blocks, a ∈ b.header}

/-! ## Where the members are -/

/-- Two blocks whose headers do not overlap. -/
def Apart (p q : UDword) : Prop :=
  12 ≤ p.toNat ∧ 12 ≤ q.toNat ∧ (p.toNat + 12 ≤ q.toNat ∨ q.toNat + 12 ≤ p.toNat)

/-- The members are the three words of a header. -/
theorem BlockMember.offset_le (f : BlockMember) : f.offset.toNat ≤ 8 := by
  cases f <;> decide

/-- Two members do not overlap. -/
theorem BlockMember.offset_apart {f g : BlockMember} (h : f ≠ g) :
    f.offset.toNat + 4 ≤ g.offset.toNat ∨ g.offset.toNat + 4 ≤ f.offset.toNat := by
  cases f <;> cases g <;> simp_all [BlockMember.offset]

/-- The address of a member, twelve bytes back from the payload. -/
theorem toNat_memberAddress {p : UDword} (hp : 12 ≤ p.toNat) (f : BlockMember) :
    (p - sizeofHeapBlockHeader + f.offset).toNat + 12 = p.toNat + f.offset.toNat := by
  have hlt := p.isLt
  cases f <;> simp only [BlockMember.offset, sizeofHeapBlockHeader] <;> bv_omega

section Members
variable {h : Heap} {p q v : UDword} {f g : BlockMember}

/-- A member reads as it was written. -/
theorem field_setMember_self :
    (h.setMember (p - sizeofHeapBlockHeader) f v).field f p = v :=
  Mem.read32_write32_self _ _ _

/-- The other members of the block keep their values. -/
theorem field_setMember_other (hp : 12 ≤ p.toNat) (hfg : f ≠ g) :
    (h.setMember (p - sizeofHeapBlockHeader) f v).field g p = h.field g p := by
  have hf := toNat_memberAddress hp f
  have hg := toNat_memberAddress hp g
  have hlt := p.isLt
  have hfo := f.offset_le
  have hgo := g.offset_le
  have hap := BlockMember.offset_apart hfg
  exact read32_write32_ne _ _ (by omega) (by omega) (by omega)

/-- So do those of a block whose header is apart. -/
theorem field_setMember_apart (hpq : Apart p q) :
    (h.setMember (p - sizeofHeapBlockHeader) f v).field g q = h.field g q := by
  rcases hpq with ⟨hp, hq, hd⟩
  have hf := toNat_memberAddress hp f
  have hg := toNat_memberAddress hq g
  have hlt := p.isLt
  have hlt' := q.isLt
  have hfo := f.offset_le
  have hgo := g.offset_le
  exact read32_write32_ne _ _ (by omega) (by omega) (by omega)

/-- A member write seen from any block whose header is the same one or apart. -/
theorem field_setMember (hq : 12 ≤ q.toNat) (hpq : p = q ∨ Apart p q) :
    (h.setMember (p - sizeofHeapBlockHeader) f v).field g q =
      if q = p ∧ g = f then v else h.field g q := by
  rcases hpq with rfl | hpq
  · by_cases hfg : g = f
    · subst hfg
      simp [field_setMember_self]
    · simp [hfg, field_setMember_other hq (Ne.symm hfg)]
  · have hne : q ≠ p := by
      rintro rfl
      have := hpq.2.2
      omega
    simp [hne, field_setMember_apart hpq]

/-- Writing a member of a block after the heap header leaves the header alone. -/
theorem read32_setMember (hp : h.header.toNat + 24 ≤ p.toNat) {k : UDword}
    (hk : k.toNat ≤ 8) :
    (h.setMember (p - sizeofHeapBlockHeader) f v).mem.read32 (h.header + k) =
      h.mem.read32 (h.header + k) := by
  have hf := toNat_memberAddress (p := p) (by omega) f
  have hlt := p.isLt
  have hfo := f.offset_le
  have hk' : (h.header + k).toNat = h.header.toNat + k.toNat := by bv_omega
  exact read32_write32_ne _ _ (by omega) (by omega) (by omega)

/-- A member write leaves `first_address`. -/
theorem firstAddress_setMember (hp : h.header.toNat + 24 ≤ p.toNat) :
    (h.setMember (p - sizeofHeapBlockHeader) f v).firstAddress = h.firstAddress := by
  simpa [Heap.firstAddress, Heap.setMember] using
    read32_setMember (f := f) (v := v) hp (k := 0) (by decide)

/-- A member write leaves `heap_start`. -/
theorem heapStart_setMember (hp : h.header.toNat + 24 ≤ p.toNat) :
    (h.setMember (p - sizeofHeapBlockHeader) f v).heapStart = h.heapStart :=
  read32_setMember hp (by decide)

/-- A member write leaves `heap_end`. -/
theorem heapEnd_setMember (hp : h.header.toNat + 24 ≤ p.toNat) :
    (h.setMember (p - sizeofHeapBlockHeader) f v).heapEnd = h.heapEnd :=
  read32_setMember hp (by decide)

@[simp] theorem header_setMember : (h.setMember p f v).header = h.header := rfl
@[simp] theorem header_setFirstAddress : (h.setFirstAddress v).header = h.header := rfl

/-- `first_address` reads as it was written. -/
@[simp] theorem firstAddress_setFirstAddress : (h.setFirstAddress v).firstAddress = v :=
  Mem.read32_write32_self _ _ _

/-- Writing `first_address` leaves `heap_start`. -/
theorem heapStart_setFirstAddress (hh : h.header.toNat + 12 ≤ 2 ^ 32) :
    (h.setFirstAddress v).heapStart = h.heapStart := by
  have h4 : (h.header + 4).toNat = h.header.toNat + 4 := by bv_omega
  show (h.mem.write32 h.header v).read32 (h.header + 4) = _
  exact read32_write32_ne _ _ (by omega) (by omega) (by omega)

/-- Writing `first_address` leaves `heap_end`. -/
theorem heapEnd_setFirstAddress (hh : h.header.toNat + 12 ≤ 2 ^ 32) :
    (h.setFirstAddress v).heapEnd = h.heapEnd := by
  have h8 : (h.header + 8).toNat = h.header.toNat + 8 := by bv_omega
  show (h.mem.write32 h.header v).read32 (h.header + 8) = _
  exact read32_write32_ne _ _ (by omega) (by omega) (by omega)

/-- Writing `first_address` leaves the members of the blocks. -/
theorem field_setFirstAddress (hp : h.header.toNat + 24 ≤ p.toNat) :
    (h.setFirstAddress v).field f p = h.field f p := by
  have hf := toNat_memberAddress (p := p) (by omega) f
  have hlt := p.isLt
  have hfo := f.offset_le
  exact read32_write32_ne _ _ (by omega) (by omega) (by omega)

/-! ## Optional neighbours -/

/-- The state after `if (p) get_header(p)->f = v;`. -/
def Heap.patch (h : Heap) (p : UDword) (f : BlockMember) (v : UDword) : Heap :=
  if p ≠ 0 then h.setMember (p - sizeofHeapBlockHeader) f v else h

/-- `get_header` of an address in the heap. -/
theorem getHeader_ok (hp : isInHeap h p = true) :
    getHeader h p = .ok (p - sizeofHeapBlockHeader) := by
  simp [getHeader, hp]

/-- A guarded member write does not fault on a neighbour that is null or in the heap. -/
theorem setIfPresent_eq (hp : p = 0 ∨ isInHeap h p = true) :
    setIfPresent p f v h = .ok (h.patch p f v) := by
  by_cases h0 : p = 0
  · simp [setIfPresent, Heap.patch, h0]
    rfl
  · have hin : isInHeap h p = true := hp.resolve_left h0
    simp only [setIfPresent, Heap.patch, h0, ne_eq, not_false_eq_true, if_true,
      getHeader_ok hin]
    rfl

/-- A guarded member write seen from any block. -/
theorem field_patch (hq : 12 ≤ q.toNat) (hpq : p = 0 ∨ p = q ∨ Apart p q) :
    (h.patch p f v).field g q = if q = p ∧ g = f then v else h.field g q := by
  by_cases h0 : p = 0
  · have hne : q ≠ p := by
      rintro rfl
      simp [h0] at hq
    rw [Heap.patch, if_neg (not_not.mpr h0), if_neg fun e => hne e.1]
  · rw [Heap.patch, if_pos h0, field_setMember hq (hpq.resolve_left h0)]

@[simp] theorem header_patch : (h.patch p f v).header = h.header := by
  unfold Heap.patch
  split <;> rfl

/-- It leaves `first_address`. -/
theorem firstAddress_patch (hp : p = 0 ∨ h.header.toNat + 24 ≤ p.toNat) :
    (h.patch p f v).firstAddress = h.firstAddress := by
  unfold Heap.patch
  split
  · exact firstAddress_setMember (hp.resolve_left ‹_›)
  · rfl

/-- It leaves `heap_start`. -/
theorem heapStart_patch (hp : p = 0 ∨ h.header.toNat + 24 ≤ p.toNat) :
    (h.patch p f v).heapStart = h.heapStart := by
  unfold Heap.patch
  split
  · exact heapStart_setMember (hp.resolve_left ‹_›)
  · rfl

/-- It leaves `heap_end`. -/
theorem heapEnd_patch (hp : p = 0 ∨ h.header.toNat + 24 ≤ p.toNat) :
    (h.patch p f v).heapEnd = h.heapEnd := by
  unfold Heap.patch
  split
  · exact heapEnd_setMember (hp.resolve_left ‹_›)
  · rfl

end Members

/-! ## Blocks in order -/

section Order
variable {blocks xs ys : List Block} {b c : Block} {lo hi : ℕ}

/-- Where the gap after the blocks `xs` starts. -/
def gapStart (lo : ℕ) (xs : List Block) : ℕ := (xs.getLast?.map Block.stop).getD lo

/-- Where the gap before the blocks `ys` stops. -/
def gapStop (hi : ℕ) (ys : List Block) : ℕ :=
  (ys.head?.map fun c => c.addr.toNat - 12).getD hi

/-- Before the first block the gap starts with the heap. -/
@[simp] theorem gapStart_nil : gapStart lo [] = lo := rfl
/-- After the last block the gap stops with the heap. -/
@[simp] theorem gapStop_nil : gapStop hi [] = hi := rfl

/-- After the block `b` the gap starts where `b` stops. -/
@[simp] theorem gapStart_concat : gapStart lo (xs ++ [b]) = b.stop := by
  simp [gapStart]

/-- Before the block `c` the gap stops at the header of `c`. -/
@[simp] theorem gapStop_cons : gapStop hi (c :: ys) = c.addr.toNat - 12 := rfl

/-- The blocks before a gap stop before it starts. -/
theorem stop_le_gapStart (lo : ℕ) (hs : xs.Pairwise Block.Before) (hb : b ∈ xs) :
    b.stop ≤ gapStart lo xs := by
  rcases List.eq_nil_or_concat xs with rfl | ⟨xs', l, rfl⟩
  · simp at hb
  · rw [List.concat_eq_append] at hs hb ⊢
    rw [gapStart_concat]
    rw [List.pairwise_append] at hs
    rcases List.mem_append.mp hb with h | h
    · have hbl : b.Before l := hs.2.2 b h l (by simp)
      unfold Block.Before at hbl
      unfold Block.stop at hbl ⊢
      omega
    · rw [List.mem_singleton.mp h]

/-- The blocks after a gap have their headers behind it. -/
theorem gapStop_le (hi : ℕ) (hs : ys.Pairwise Block.Before) (hc : c ∈ ys)
    (h12 : ∀ c ∈ ys, 12 ≤ c.addr.toNat) : gapStop hi ys + 12 ≤ c.addr.toNat := by
  cases ys with
  | nil => simp at hc
  | cons y ys =>
    have hy := h12 y (by simp)
    rw [gapStop_cons]
    rcases List.mem_cons.mp hc with rfl | hc
    · omega
    · have hyc : y.Before c := List.rel_of_pairwise_cons hs hc
      unfold Block.Before Block.stop at hyc
      omega

/-- Two blocks of a sorted list are the same or come one before the other. -/
theorem before_cases (hs : blocks.Pairwise Block.Before) (hb : b ∈ blocks) (hc : c ∈ blocks) :
    b = c ∨ b.Before c ∨ c.Before b := by
  by_contra hne
  push Not at hne
  rw [List.pairwise_iff_getElem] at hs
  rcases List.getElem_of_mem hb with ⟨i, hi, rfl⟩
  rcases List.getElem_of_mem hc with ⟨j, hj, rfl⟩
  rcases Nat.lt_trichotomy i j with hij | rfl | hij
  · exact hne.2.1 (hs i j hi hj hij)
  · exact hne.1 rfl
  · exact hne.2.2 (hs j i hj hi hij)

/-- The payload of a later block is a header further on. -/
theorem addr_lt_of_before (h : b.Before c) : b.addr.toNat + 12 ≤ c.addr.toNat := by
  unfold Block.Before Block.stop at h
  omega

/-- No two blocks of a sorted list have one payload. -/
theorem nodup_addrs (hs : blocks.Pairwise Block.Before) : (addrs blocks).Nodup := by
  refine (List.pairwise_map.mpr (hs.imp ?_) : (blocks.map Block.addr).Pairwise (· ≠ ·))
  intro b c h e
  have := addr_lt_of_before h
  rw [e] at this
  omega

/-- The headers of two blocks of a sorted list are one or apart. -/
theorem apart_of_mem (hs : blocks.Pairwise Block.Before)
    (h12 : ∀ b ∈ blocks, 12 ≤ b.addr.toNat) {p q : UDword} (hp : p ∈ addrs blocks)
    (hq : q ∈ addrs blocks) : p = q ∨ Apart p q := by
  rcases List.mem_map.mp hp with ⟨b, hb, rfl⟩
  rcases List.mem_map.mp hq with ⟨c, hc, rfl⟩
  rcases before_cases hs hb hc with rfl | h | h
  · exact Or.inl rfl
  · exact Or.inr ⟨h12 b hb, h12 c hc, Or.inl (addr_lt_of_before h)⟩
  · exact Or.inr ⟨h12 b hb, h12 c hc, Or.inr (addr_lt_of_before h)⟩

end Order

/-! ## What a well-formed heap says of its blocks -/

namespace WellFormed
variable {h h' : Heap} {blocks xs ys : List Block} {b : Block} {p : UDword}

/-- A block lies after the header of the heap and its own header. -/
theorem addr_ge (hw : WellFormed h blocks) (hb : b ∈ blocks) :
    h.header.toNat + 24 ≤ b.addr.toNat := by
  have := (hw.inside b hb).1
  have := hw.heapStart
  omega

/-- The same of the payload alone. -/
theorem ge_of_mem_addrs (hw : WellFormed h blocks) (hp : p ∈ addrs blocks) :
    h.header.toNat + 24 ≤ p.toNat := by
  rcases List.mem_map.mp hp with ⟨b, hb, rfl⟩
  exact hw.addr_ge hb

/-- No payload is null. -/
theorem ne_zero (hw : WellFormed h blocks) (hp : p ∈ addrs blocks) : p ≠ 0 := by
  have := hw.ge_of_mem_addrs hp
  rintro rfl
  simp at this

/-- Every payload passes the test `is_in_heap`. -/
theorem isInHeap (hw : WellFormed h blocks) (hp : p ∈ addrs blocks) :
    isInHeap h p = true := by
  rcases List.mem_map.mp hp with ⟨b, hb, rfl⟩
  rcases hw.inside b hb with ⟨h1, -, h3⟩
  simp only [MushOS.isInHeap, Bool.and_eq_true, decide_eq_true_eq]
  exact ⟨by bv_omega, by bv_omega⟩

/-- The header of the heap does not wrap. -/
theorem header_lt (hw : WellFormed h blocks) : h.header.toNat + 12 < 2 ^ 32 := by
  have := h.heapStart.isLt
  have := hw.heapStart
  omega

/-- The headers of two blocks are one or apart. -/
theorem apart (hw : WellFormed h blocks) {q : UDword} (hp : p ∈ addrs blocks)
    (hq : q ∈ addrs blocks) : p = q ∨ Apart p q :=
  apart_of_mem hw.sorted (fun b hb => by have := hw.addr_ge hb; omega) hp hq

/-- The size `size(p)` returns. -/
theorem size_eq (hw : WellFormed h blocks) (hb : b ∈ blocks) :
    MushOS.size h b.addr = .ok b.size := by
  have hin := hw.isInHeap (mem_addrs hb)
  simp only [MushOS.size, getHeader_ok hin]
  exact congrArg Except.ok (hw.size b hb)

end WellFormed

end MushOS
