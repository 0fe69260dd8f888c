import MushOS.Base.HeapAlloc

/-! # ralloc stays in bounds or fails cleanly, and when it does not

`RallocContract` is what `heap.h` promises of `ralloc`: a block inside the heap
and away from every live block, or an allocation exception and nothing else.
The code keeps it in a non-empty heap for every size whose sum with the header
does not wrap. It does not keep it in two situations, and
`ralloc_contract_iff` says exactly which:

* in an empty heap the request is placed without being compared with anything;
* for the last twelve sizes below `2 ^ 32`, `size + sizeof(heap_block_header)`
  wraps to less than a header, and a gap that short is enough.
-/

namespace MushOS

open ByteMemory Links WellFormed

/-! ## Initialisation -/

/-- A heap set up by `initialize_heap` is empty and well formed, and spans the
bytes after its header. -/
theorem initializeHeap_spec {start n : UDword} (hn : 12 ≤ n.toNat)
    (hw : start.toNat + n.toNat < 2 ^ 32) (h : Heap) :
    WellFormed (initializeHeap start n h) [] ∧
      (initializeHeap start n h).header = start ∧
      (initializeHeap start n h).heapStart.toNat = start.toNat + 12 ∧
      (initializeHeap start n h).heapEnd.toNat = start.toNat + n.toNat ∧
      (initializeHeap start n h).handlers allocationExceptionId = some .library := by
  have h4 : (start + 4).toNat = start.toNat + 4 := by bv_omega
  have h8 : (start + 8).toNat = start.toNat + 8 := by bv_omega
  have h12 : (start + sizeofHeapHeader).toNat = start.toNat + 12 := by
    unfold sizeofHeapHeader
    bv_omega
  have hend : (start + n).toNat = start.toNat + n.toNat := BitVec.toNat_add_of_lt hw
  have hheader : (initializeHeap start n h).header = start := rfl
  -- the three words of the header, written one after another
  have hfirst : (initializeHeap start n h).firstAddress = 0 := firstAddress_setFirstAddress
  have hheapEnd : (initializeHeap start n h).heapEnd = start + n := by
    show (((_ : Mem).write32 (start + 8) _).write32 start 0).read32 (start + 8) = _
    rw [read32_write32_ne _ _ (by omega) (by omega) (by omega), Mem.read32_write32_self]
  have hheapStart : (initializeHeap start n h).heapStart = start + sizeofHeapHeader := by
    show (((Mem.write32 _ (start + 4) _).write32 (start + 8) _).write32 start 0).read32
      (start + 4) = _
    rw [read32_write32_ne _ _ (by omega) (by omega) (by omega),
      read32_write32_ne _ _ (by omega) (by omega) (by omega), Mem.read32_write32_self]
  refine ⟨?_, hheader, by rw [hheapStart, h12], by rw [hheapEnd, hend], rfl⟩
  exact {
    heapStart := by rw [hheapStart, h12, hheader]
    heapEnd := by rw [hheapStart, h12, hheapEnd, hend]; omega
    first := hfirst
    size := by simp
    next := trivial
    previous := trivial
    sorted := List.Pairwise.nil
    inside := by simp }

/-! ## A request that fits -/

/-- **ralloc on a well-formed heap**, for a size that does not wrap and, in an
empty heap, that fits: either no gap is taken, or the block is linked into one
and the heap is well formed again. -/
theorem ralloc_spec {h : Heap} {blocks : List Block} (hw : WellFormed h blocks)
    (size : UDword) (hwrap : size.toNat + 12 < 2 ^ 32)
    (hempty : blocks = [] → h.heapStart.toNat + 12 + size.toNat ≤ h.heapEnd.toNat ∧
      h.heapStart.toNat + 12 < h.heapEnd.toNat) :
    ralloc size h = rallocFailure h ∨
      ∃ xs ys p, blocks = xs ++ ys ∧ ralloc size h = .ok (p, h.place size xs ys p) ∧
        WellFormed (h.place size xs ys p) (xs ++ ⟨p, size⟩ :: ys) ∧
        Edits (metadata h.header (xs ++ ⟨p, size⟩ :: ys)) h (h.place size xs ys p) := by
  have hneed : (size + sizeofHeapBlockHeader).toNat = size.toNat + 12 :=
    BitVec.toNat_add_of_lt hwrap
  by_cases hne : blocks = []
  · subst hne
    rcases hempty rfl with ⟨hfit, hroom⟩
    have hp : (h.heapStart + sizeofHeapBlockHeader).toNat = h.heapStart.toNat + 12 := by
      have := h.heapEnd.isLt
      exact BitVec.toNat_add_of_lt (by unfold sizeofHeapBlockHeader; simp; omega)
    exact Or.inr ⟨[], [], _, rfl, ralloc_empty hw size,
      @WellFormed.linkIn h [] [] _ size hw (by rw [hp]; simp) (by rw [hp]; simpa using hfit)
        (by rw [hp]; exact hroom)⟩
  -- otherwise there are blocks, and a gap passes the test of the search or none does
  by_cases hpass : ∃ g ∈ gaps h blocks, g.Passes h size
  · rcases hpass with ⟨g, hg, hpass⟩
    rcases ralloc_found hw hne hg hpass with ⟨xs, ys, p, rfl, hp, hpass, -, heq⟩
    have htaken := hw.gapOf_taken hne hpass.2
    have hfree := hpass.1
    rw [BitVec.le_def, hneed] at hfree
    -- the block starts inside even where it is the last
    have hend : p.toNat < h.heapEnd.toNat := by
      cases ys with
      | nil =>
        rw [if_pos rfl, gapStop_nil] at htaken
        omega
      | cons c ys =>
        have := (hw.inside c (by simp)).2.2
        rw [gapStop_cons] at htaken
        omega
    exact Or.inr ⟨xs, ys, p, rfl, heq, hw.linkIn (by omega) (by omega) hend⟩
  · push Not at hpass
    exact Or.inl (ralloc_none hw hne hpass)

/-! ## The contract -/

/-- `ralloc` raised the allocation exception and did nothing else; it returned
null when the handler returned. -/
def FailsCleanly (h : Heap) (size : UDword) : Prop :=
  match h.handlers allocationExceptionId with
  | some .library => ralloc size h = .ok (0, { h with raised := allocationException :: h.raised })
  | some .kernel => ralloc size h = .error (.hung allocationException)
  | none => ralloc size h = .error (.unhandled allocationException)

/-- `ralloc` returned a block that lies inside the heap, header included, and
overlaps neither the header nor the payload of a live block. -/
def ReturnsFreeBlock (h : Heap) (blocks : List Block) (size : UDword) : Prop :=
  ∃ p h', ralloc size h = .ok (p, h') ∧ h.heapStart.toNat + 12 ≤ p.toNat ∧
    p.toNat + size.toNat ≤ h.heapEnd.toNat ∧
    ∀ b ∈ blocks, p.toNat + size.toNat + 12 ≤ b.addr.toNat ∨ b.stop + 12 ≤ p.toNat

/-- What `heap.h` says of `ralloc`. -/
def RallocContract (h : Heap) (blocks : List Block) (size : UDword) : Prop :=
  ReturnsFreeBlock h blocks size ∨ FailsCleanly h size

/-- The bytes between the blocks `xs` and the blocks `ys`. -/
def gapLength (h : Heap) (xs ys : List Block) : ℕ :=
  gapStop h.heapEnd.toNat ys - gapStart h.heapStart.toNat xs

theorem failsCleanly_of_eq {h : Heap} {size : UDword} (heq : ralloc size h = rallocFailure h) :
    FailsCleanly h size := by
  unfold FailsCleanly
  rw [heq, rallocFailure]
  have hid : h.handlers allocationException.id = h.handlers allocationExceptionId := rfl
  cases hh : h.handlers allocationExceptionId with
  | none => simp only [throwException, hid, hh]; rfl
  | some handler => cases handler <;> (simp only [throwException, hid, hh]; rfl)

/-- A `ralloc` that returns without raising anything has not failed cleanly. -/
theorem not_failsCleanly {h h' : Heap} {size p : UDword} (heq : ralloc size h = .ok (p, h'))
    (hraised : h'.raised = h.raised) : ¬ FailsCleanly h size := by
  unfold FailsCleanly
  rw [heq]
  split
  · intro e
    rw [Except.ok.injEq, Prod.mk.injEq] at e
    rw [e.2] at hraised
    exact List.cons_ne_self _ _ hraised
  · exact fun e => by cases e
  · exact fun e => by cases e

/-- In a non-empty heap, whether some gap passes the test of the search, for a
size whose sum with the header wraps. -/
theorem exists_passes_of_wrap {h : Heap} {blocks : List Block} (hw : WellFormed h blocks)
    (hne : blocks ≠ []) {size : UDword} (hwrap : 2 ^ 32 ≤ size.toNat + 12) :
    (∃ g ∈ gaps h blocks, g.Passes h size) ↔
      ∃ xs ys, blocks = xs ++ ys ∧
        size.toNat + 12 + (if ys = [] then 12 else 0) ≤ gapLength h xs ys + 2 ^ 32 := by
  -- the size with its header has wrapped round, so a gap far too short passes
  have hneed : (size + sizeofHeapBlockHeader).toNat + 2 ^ 32 = size.toNat + 12 := by
    have := size.isLt
    unfold sizeofHeapBlockHeader
    bv_omega
  have hspan : (h.heapEnd - h.heapStart).toNat = h.heapEnd.toNat - h.heapStart.toNat := by
    have := hw.heapEnd
    bv_omega
  constructor
  · rintro ⟨g, hg, h1, h2⟩
    rcases mem_gaps.mp hg with ⟨xs, ys, rfl, rfl⟩
    have htaken := hw.gapOf_taken hne h2
    rw [BitVec.le_def] at h1
    refine ⟨xs, ys, rfl, ?_⟩
    unfold gapLength
    omega
  · rintro ⟨xs, ys, rfl, hlen⟩
    refine ⟨gapOf h xs ys, mem_gaps.mpr ⟨xs, ys, rfl, rfl⟩, ?_⟩
    have hle := hw.gapStart_le
    have hstart := hw.heapStart
    unfold gapLength at hlen
    unfold Gap.Passes
    rw [BitVec.le_def, BitVec.lt_def, hspan]
    cases ys with
    | cons c ys =>
      have hfree := hw.gapOf_free
      have := (hw.inside c (by simp)).2.2
      have := (hw.inside c (by simp)).1
      rw [if_neg (by simp)] at hlen
      rw [gapStop_cons] at hle hlen hfree
      omega
    | nil =>
      have hlast := hw.gapOf_free_last (by simpa using hne)
      rw [if_pos rfl, gapStop_nil] at hlen
      rw [gapStop_nil] at hle
      have hsz := size.isLt
      rw [if_pos (by omega)] at hlast
      omega

/-- Sizes whose sum with the header wraps fit in no heap. -/
theorem not_returnsFreeBlock_of_wrap {h : Heap} {blocks : List Block} {size : UDword}
    (hwrap : 2 ^ 32 ≤ size.toNat + 12) : ¬ ReturnsFreeBlock h blocks size := by
  rintro ⟨p, h', -, h1, h2, -⟩
  have := h.heapEnd.isLt
  omega

/-- A block that has been linked in lies inside the heap, away from the others. -/
theorem returnsFreeBlock_of_insert {h h' : Heap} {xs ys : List Block} {p size : UDword}
    (heq : ralloc size h = .ok (p, h')) (hw' : WellFormed h' (xs ++ ⟨p, size⟩ :: ys))
    (hbounds : SameBounds h h') : ReturnsFreeBlock h (xs ++ ys) size := by
  rcases hw'.inside ⟨p, size⟩ (by simp) with ⟨h1, h2, -⟩
  rw [hbounds.heapStart] at h1
  rw [hbounds.heapEnd] at h2
  have hsorted := hw'.sorted
  rw [List.pairwise_append] at hsorted
  refine ⟨p, h', heq, h1, h2, fun b hb => ?_⟩
  rcases List.mem_append.mp hb with hb | hb
  · right
    exact hsorted.2.2 b hb ⟨p, size⟩ (by simp)
  · left
    exact List.rel_of_pairwise_cons hsorted.2.1 hb

/-- In an empty heap the contract is the comparison the code leaves out. -/
theorem rallocContract_nil {h : Heap} (hw : WellFormed h []) (size : UDword) :
    RallocContract h [] size ↔ h.heapStart.toNat + 12 + size.toNat ≤ h.heapEnd.toNat := by
  have heq := ralloc_empty hw size
  have hlt := h.heapEnd.isLt
  constructor
  · rintro (⟨p, h', -, h1, h2, -⟩ | hfails)
    · omega
    · refine absurd hfails (not_failsCleanly heq ?_)
      unfold Heap.place Heap.linkFirst Heap.linkIn
      simp [Heap.setFirstAddress, Heap.setMember, Heap.patch]
  · intro hfit
    have hp : (h.heapStart + sizeofHeapBlockHeader).toNat = h.heapStart.toNat + 12 :=
      BitVec.toNat_add_of_lt (by unfold sizeofHeapBlockHeader; simp; omega)
    exact Or.inl ⟨_, _, heq, by omega, by omega, by simp⟩

/-- **When `ralloc` keeps its contract**, for every well-formed heap and every
32-bit size. -/
theorem ralloc_contract_iff {h : Heap} {blocks : List Block} (hw : WellFormed h blocks)
    (size : UDword) :
    RallocContract h blocks size ↔
      (blocks = [] ∧ h.heapStart.toNat + 12 + size.toNat ≤ h.heapEnd.toNat) ∨
      (blocks ≠ [] ∧ (size.toNat + 12 < 2 ^ 32 ∨ ∀ xs ys, blocks = xs ++ ys →
        gapLength h xs ys + 2 ^ 32 < size.toNat + 12 + (if ys = [] then 12 else 0))) := by
  by_cases hne : blocks = []
  · subst hne
    simpa using rallocContract_nil hw size
  by_cases hwrap : size.toNat + 12 < 2 ^ 32
  · have hcontract : RallocContract h blocks size := by
      rcases ralloc_spec hw size hwrap (fun e => absurd e hne) with
        heq | ⟨xs, ys, p, rfl, heq, hw', hedits⟩
      · exact Or.inr (failsCleanly_of_eq heq)
      · exact Or.inl (returnsFreeBlock_of_insert heq hw' hedits.bounds)
    exact iff_of_true hcontract (Or.inr ⟨hne, Or.inl hwrap⟩)
  have hpasses : (∃ g ∈ gaps h blocks, g.Passes h size) ↔ _ :=
    exists_passes_of_wrap hw hne (by omega)
  constructor
  · -- where the size wraps, a gap that passes is granted a block that does not fit
    intro hcontract
    refine Or.inr ⟨hne, Or.inr fun xs ys hsplit => ?_⟩
    by_contra hlen
    rcases hpasses.mpr ⟨xs, ys, hsplit, by omega⟩ with ⟨g, hg, hpass⟩
    rcases ralloc_found hw hne hg hpass with ⟨xs', ys', p, -, -, -, -, heq⟩
    rcases hcontract with hfree | hfails
    · exact not_returnsFreeBlock_of_wrap (by omega) hfree
    · refine not_failsCleanly heq ?_ hfails
      unfold Heap.place Heap.linkFirst Heap.linkIn Heap.patch
      split <;> split <;> split <;> rfl
  · rintro (⟨he, -⟩ | ⟨-, hsmall | hgaps⟩)
    · exact absurd he hne
    · exact absurd hsmall hwrap
    · refine Or.inr (failsCleanly_of_eq (ralloc_none hw hne fun g hg hpass => ?_))
      rcases hpasses.mp ⟨g, hg, hpass⟩ with ⟨xs, ys, hsplit, hlen⟩
      have := hgaps xs ys hsplit
      omega

/-! ## An empty heap of a hundred bytes -/

/-- A zeroed memory with no heap in it yet. -/
def noHeap : Heap := ⟨⟨fun _ => 0, []⟩, 0, fun _ => none, []⟩

/-- A heap of a hundred bytes, its header included. -/
def smallHeap : Heap := initializeHeap 0x1000 100 noHeap

theorem smallHeap_wellFormed : WellFormed smallHeap [] :=
  (initializeHeap_spec (by decide) (by decide) noHeap).1

/-- A request for four bytes in it is within the contract. -/
theorem ralloc_contract_small : RallocContract smallHeap [] 4 :=
  (ralloc_contract_iff smallHeap_wellFormed 4).mpr (Or.inl ⟨rfl, by decide +kernel⟩)

/-- Its first request is served whatever its size: a thousand bytes of a hundred. -/
theorem ralloc_exceeds_small_heap :
    WellFormed smallHeap [] ∧ ¬ RallocContract smallHeap [] 1000 := by
  refine ⟨smallHeap_wellFormed, fun hcontract => ?_⟩
  have hfit := (rallocContract_nil smallHeap_wellFormed 1000).mp hcontract
  exact absurd hfit (by decide +kernel)

end MushOS
