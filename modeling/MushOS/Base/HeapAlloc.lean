import MushOS.Base.HeapOps

/-! # The search of ralloc and its outcomes

`ralloc` walks the list once and keeps the smallest gap that is large enough.
Here the walk is a fold of `Best.consider` over the list of gaps
(`rallocSearch_eq`), `foldl_consider` says which gap such a fold ends with, and
`gapOf_numbers` says what the code's unsigned gap sizes mean: exact everywhere,
except after the last block, where the code takes a header too much off and
wraps when fewer than twelve bytes are left (the wrapped value is never below
the size of the heap, so it is never taken).

The outcomes of `ralloc` follow: `ralloc_empty`, `ralloc_found`, `ralloc_none`.
-/

namespace MushOS

open ByteMemory Links WellFormed

/-! ## Gaps -/

/-- What the code computes about a gap. -/
structure Gap where
  free : UDword
  address : UDword
  previous : UDword
  next : UDword
deriving DecidableEq, Repr

def Best.take (best : Best) (size : UDword) (g : Gap) : Best :=
  best.consider size g.free g.address g.previous g.next

/-- A gap as the search remembers it. -/
def Gap.best (g : Gap) : Best := ⟨g.free, g.address, g.previous, g.next⟩

/-- The gap before the first block. -/
def gapFirst (h : Heap) (blocks : List Block) : Gap where
  free := headAddr blocks - h.heapStart - sizeofHeapBlockHeader
  address := h.heapStart
  previous := 0
  next := headAddr blocks

/-- The gap between `b` and the blocks `ys` after it, or the end of the heap. -/
def gapAfter (h : Heap) (b : Block) (ys : List Block) : Gap where
  free := (if ys = [] then h.heapEnd else headAddr ys) - b.addr - b.size - sizeofHeapBlockHeader
  address := b.addr + b.size
  previous := b.addr
  next := headAddr ys

/-- The gaps after each of the blocks. -/
def gapsAfter (h : Heap) : List Block → List Gap
  | [] => []
  | b :: ys => gapAfter h b ys :: gapsAfter h ys

/-- The gaps of a heap, in the order of the search. -/
def gaps (h : Heap) (blocks : List Block) : List Gap := gapFirst h blocks :: gapsAfter h blocks

/-- The gap between the blocks `xs` and the blocks `ys`. -/
def gapOf (h : Heap) (xs ys : List Block) : Gap :=
  match xs.getLast? with
  | none => gapFirst h ys
  | some b => gapAfter h b ys

@[simp] theorem gapOf_nil (h : Heap) (ys : List Block) : gapOf h [] ys = gapFirst h ys := rfl

@[simp] theorem gapOf_concat (h : Heap) (xs ys : List Block) (b : Block) :
    gapOf h (xs ++ [b]) ys = gapAfter h b ys := by
  simp [gapOf]

theorem mem_gapsAfter {h : Heap} {blocks : List Block} {g : Gap} :
    g ∈ gapsAfter h blocks ↔ ∃ xs b ys, blocks = xs ++ b :: ys ∧ g = gapAfter h b ys := by
  induction blocks with
  | nil => simp [gapsAfter]
  | cons c cs ih =>
    rw [gapsAfter, List.mem_cons, ih]
    constructor
    · rintro (rfl | ⟨xs, b, ys, rfl, rfl⟩)
      · exact ⟨[], c, cs, rfl, rfl⟩
      · exact ⟨c :: xs, b, ys, rfl, rfl⟩
    · rintro ⟨xs, b, ys, hcs, rfl⟩
      cases xs with
      | nil =>
        rw [List.nil_append, List.cons.injEq] at hcs
        rcases hcs with ⟨rfl, rfl⟩
        exact Or.inl rfl
      | cons x xs =>
        rw [List.cons_append, List.cons.injEq] at hcs
        exact Or.inr ⟨xs, b, ys, hcs.2, rfl⟩

/-- A gap is where the list splits in two. -/
theorem mem_gaps {h : Heap} {blocks : List Block} {g : Gap} :
    g ∈ gaps h blocks ↔ ∃ xs ys, blocks = xs ++ ys ∧ g = gapOf h xs ys := by
  rw [gaps, List.mem_cons, mem_gapsAfter]
  constructor
  · rintro (rfl | ⟨xs, b, ys, rfl, rfl⟩)
    · exact ⟨[], blocks, rfl, rfl⟩
    · exact ⟨xs ++ [b], ys, by simp, by simp⟩
  · rintro ⟨xs, ys, rfl, rfl⟩
    rcases List.eq_nil_or_concat xs with rfl | ⟨xs', b, rfl⟩
    · exact Or.inl rfl
    · exact Or.inr ⟨xs', b, ys, by simp, by simp⟩

/-! ## The fold -/

/-- The fold ends with what it started with when no gap passes the test, and
otherwise with the first of the smallest gaps among those that do. -/
theorem foldl_take_first (size : UDword) (gs : List Gap) (best : Best) :
    (gs.foldl (fun b g => b.take size g) best = best ∧
      ∀ g ∈ gs, ¬ (size + sizeofHeapBlockHeader ≤ g.free ∧ g.free < best.bestSize)) ∨
    ∃ before g after, gs = before ++ g :: after ∧
      gs.foldl (fun b g => b.take size g) best = g.best ∧
      size + sizeofHeapBlockHeader ≤ g.free ∧ g.free < best.bestSize ∧
      (∀ g' ∈ before, size + sizeofHeapBlockHeader ≤ g'.free → g.free < g'.free) ∧
      ∀ g' ∈ after, size + sizeofHeapBlockHeader ≤ g'.free → g.free ≤ g'.free := by
  induction gs generalizing best with
  | nil => exact Or.inl ⟨rfl, by simp⟩
  | cons g gs ih =>
    rw [List.foldl_cons]
    by_cases hg : size + sizeofHeapBlockHeader ≤ g.free ∧ g.free < best.bestSize
    · have htake : best.take size g = g.best := by
        rw [Best.take, Best.consider, if_pos hg]
        rfl
      rw [htake]
      right
      rcases ih g.best with ⟨heq, hno⟩ | ⟨before, g', after, rfl, heq, hfit, hlt, hbefore, hafter⟩
      · refine ⟨[], g, gs, rfl, heq, hg.1, hg.2, by simp, fun g' hg' hfit' => ?_⟩
        have := hno g' hg'
        rw [not_and] at this
        exact BitVec.not_lt.mp (this hfit')
      · have hlt' : g'.free < g.free := hlt
        refine ⟨g :: before, g', after, rfl, heq, hfit, BitVec.lt_trans hlt' hg.2, ?_, hafter⟩
        intro g'' hg'' hfit''
        rcases List.mem_cons.mp hg'' with rfl | hg''
        · exact hlt'
        · exact hbefore g'' hg'' hfit''
    · have htake : best.take size g = best := by
        rw [Best.take, Best.consider, if_neg hg]
      rw [htake]
      rcases ih best with ⟨heq, hno⟩ | ⟨before, g', after, rfl, heq, hfit, hlt, hbefore, hafter⟩
      · refine Or.inl ⟨heq, fun g' hg' => ?_⟩
        rcases List.mem_cons.mp hg' with rfl | hg'
        · exact hg
        · exact hno g' hg'
      · refine Or.inr ⟨g :: before, g', after, rfl, heq, hfit, hlt, ?_, hafter⟩
        intro g'' hg'' hfit''
        rcases List.mem_cons.mp hg'' with rfl | hg''
        · -- it does not pass, so it is not below the best so far
          rw [not_and] at hg
          have := BitVec.not_lt.mp (hg hfit'')
          bv_omega
        · exact hbefore g'' hg'' hfit''

theorem foldl_take (size : UDword) (gs : List Gap) (best : Best) :
    (gs.foldl (fun b g => b.take size g) best = best ∧
      ∀ g ∈ gs, ¬ (size + sizeofHeapBlockHeader ≤ g.free ∧ g.free < best.bestSize)) ∨
    ∃ g ∈ gs, gs.foldl (fun b g => b.take size g) best = g.best ∧
      size + sizeofHeapBlockHeader ≤ g.free ∧ g.free < best.bestSize ∧
      ∀ g' ∈ gs, size + sizeofHeapBlockHeader ≤ g'.free → g.free ≤ g'.free := by
  rcases foldl_take_first size gs best with
    hno | ⟨before, g, after, rfl, heq, hfit, hlt, hbefore, hafter⟩
  · exact Or.inl hno
  · refine Or.inr ⟨g, by simp, heq, hfit, hlt, fun g' hg' hfit' => ?_⟩
    rcases List.mem_append.mp hg' with hg' | hg'
    · exact BitVec.le_of_lt (hbefore g' hg' hfit')
    · rcases List.mem_cons.mp hg' with rfl | hg'
      · exact BitVec.le_refl _
      · exact hafter g' hg' hfit'

/-- The loop of `ralloc` is the fold over the gaps that follow. -/
theorem rallocSearch_eq {h : Heap} (size : UDword) {xs ys : List Block} {b : Block}
    (hw : WellFormed h (xs ++ b :: ys)) (fuel : ℕ) (hfuel : ys.length < fuel) (best : Best) :
    rallocSearch h size fuel b.addr best =
      .ok ((gapsAfter h (b :: ys)).foldl (fun b g => b.take size g) best) := by
  -- the loop goes on from block to block, and the gap behind each is the next of the list
  induction ys generalizing xs b fuel best with
  | nil =>
    obtain ⟨fuel, rfl⟩ : ∃ f, fuel = f + 1 := ⟨fuel - 1, by simp at hfuel; omega⟩
    have hnext : h.member (b.addr - sizeofHeapBlockHeader) .next = 0 := hw.links.1
    have hsize : h.member (b.addr - sizeofHeapBlockHeader) .size = b.size :=
      hw.size b (by simp)
    simp only [rallocSearch, getHeader_ok (hw.isInHeap (p := b.addr) (by simp))]
    show (if _ = (0 : UDword) then _ else _) = _
    rw [hnext, hsize, if_pos rfl]
    rfl
  | cons c ys ih =>
    obtain ⟨fuel, rfl⟩ : ∃ f, fuel = f + 1 := ⟨fuel - 1, by simp at hfuel; omega⟩
    have hnext : h.member (b.addr - sizeofHeapBlockHeader) .next = c.addr := hw.links.1
    have hsize : h.member (b.addr - sizeofHeapBlockHeader) .size = b.size :=
      hw.size b (by simp)
    have hc0 : c.addr ≠ 0 := hw.ne_zero (by simp)
    have hw' : WellFormed h ((xs ++ [b]) ++ c :: ys) := by simpa using hw
    simp only [rallocSearch, getHeader_ok (hw.isInHeap (p := b.addr) (by simp))]
    show (if _ = (0 : UDword) then _ else _) = _
    rw [hnext, hsize, if_neg hc0, ih hw' fuel (by simpa using hfuel)]
    rfl

/-! ## What the gap sizes mean -/

namespace WellFormed
variable {h : Heap} {blocks xs ys : List Block} {b : Block}

/-- The blocks before a gap end before it starts, each with its own header. -/
theorem length_le_gapStart (hs : xs.Pairwise Block.Before) {lo : ℕ}
    (hlo : ∀ b ∈ xs, lo + 12 ≤ b.addr.toNat) : lo + 12 * xs.length ≤ gapStart lo xs := by
  induction xs using List.reverseRecOn with
  | nil => simp
  | append_singleton xs l ih =>
    rw [List.pairwise_append] at hs
    have hxs := ih hs.1 fun b hb => hlo b (by simp [hb])
    have hl := hlo l (by simp)
    have hstart : gapStart lo xs + 12 ≤ l.addr.toNat := by
      rcases List.eq_nil_or_concat xs with rfl | ⟨xs', k, rfl⟩
      · exact hl
      · rw [List.concat_eq_append] at hs ⊢
        rw [gapStart_concat]
        exact hs.2.2 k (by simp) l (by simp)
    rw [gapStart_concat, List.length_append, List.length_singleton]
    unfold Block.stop
    omega

theorem gapStart_le (hw : WellFormed h (xs ++ ys)) :
    h.heapStart.toNat ≤ gapStart h.heapStart.toNat xs ∧
      gapStart h.heapStart.toNat xs ≤ gapStop h.heapEnd.toNat ys := by
  have hend := hw.heapEnd
  rcases List.eq_nil_or_concat xs with rfl | ⟨xs', k, rfl⟩
  · refine ⟨le_refl _, ?_⟩
    cases ys with
    | nil => exact hend
    | cons c ys =>
      have := (hw.inside c (by simp)).1
      rw [gapStart_nil, gapStop_cons]
      omega
  · rw [List.concat_eq_append, gapStart_concat]
    have hk := hw.inside k (by simp)
    refine ⟨by unfold Block.stop; omega, ?_⟩
    cases ys with
    | nil => exact hk.2.1
    | cons c ys =>
      have hs := hw.sorted
      rw [List.concat_eq_append, List.pairwise_append] at hs
      have := hs.2.2 k (by simp) c (by simp)
      unfold Block.Before at this
      rw [gapStop_cons]
      omega

/-- The list is short enough for the walk to end. -/
theorem length_lt (hw : WellFormed h blocks) : blocks.length < chainFuel := by
  have h1 := length_le_gapStart hw.sorted fun b hb => (hw.inside b hb).1
  have h2 : WellFormed h (blocks ++ []) := by simpa using hw
  have h3 := h2.gapStart_le.2
  rw [gapStop_nil] at h3
  have := h.heapEnd.isLt
  unfold chainFuel
  omega

/-- The links and the address the code computes for a gap. -/
theorem gapOf_links (hw : WellFormed h (xs ++ ys)) :
    (gapOf h xs ys).address.toNat = gapStart h.heapStart.toNat xs ∧
      (gapOf h xs ys).previous = lastAddr xs ∧ (gapOf h xs ys).next = headAddr ys := by
  rcases List.eq_nil_or_concat xs with rfl | ⟨xs', b, rfl⟩
  · exact ⟨rfl, rfl, rfl⟩
  · have hb := (hw.inside b (by simp)).2.1
    have hlt := h.heapEnd.isLt
    unfold Block.stop at hb
    rw [List.concat_eq_append, gapOf_concat, gapStart_concat, lastAddr_concat]
    refine ⟨?_, rfl, rfl⟩
    exact BitVec.toNat_add_of_lt (by omega)

/-- The size the code computes for a gap before a block is exact. -/
theorem gapOf_free (hw : WellFormed h (xs ++ b :: ys)) :
    (gapOf h xs (b :: ys)).free.toNat + gapStart h.heapStart.toNat xs =
      gapStop h.heapEnd.toNat (b :: ys) := by
  have hle := hw.gapStart_le.2
  have hb := hw.inside b (by simp)
  have hlt := b.addr.isLt
  rw [gapStop_cons] at hle ⊢
  rcases List.eq_nil_or_concat xs with rfl | ⟨xs', k, rfl⟩
  · simp only [gapOf_nil, gapFirst, headAddr_cons, gapStart_nil, sizeofHeapBlockHeader] at hle ⊢
    bv_omega
  · simp only [List.concat_eq_append, gapStart_concat, Block.stop] at hle
    simp only [List.concat_eq_append, gapOf_concat, gapAfter, gapStart_concat, Block.stop,
      headAddr_cons, reduceCtorEq, if_false, sizeofHeapBlockHeader]
    bv_omega

/-- After the last block the code takes a header too much off, and wraps when
fewer than twelve bytes are left. -/
theorem gapOf_free_last (hw : WellFormed h (xs ++ [])) (hne : xs ≠ []) :
    if gapStart h.heapStart.toNat xs + 12 ≤ h.heapEnd.toNat then
      (gapOf h xs []).free.toNat + gapStart h.heapStart.toNat xs + 12 = h.heapEnd.toNat
    else 2 ^ 32 - 12 ≤ (gapOf h xs []).free.toNat := by
  rcases List.eq_nil_or_concat xs with rfl | ⟨xs', k, rfl⟩
  · exact absurd rfl hne
  · have hk := (hw.inside k (by simp)).2.1
    have hlt := h.heapEnd.isLt
    simp only [List.concat_eq_append, gapOf_concat, gapAfter, gapStart_concat, Block.stop,
      if_true, sizeofHeapBlockHeader] at hk ⊢
    split <;> bv_omega

/-- A gap the search may take: its size is exact, short of a header after the
last block. -/
theorem gapOf_taken (hw : WellFormed h (xs ++ ys)) (hne : xs ++ ys ≠ [])
    (hlt : (gapOf h xs ys).free < h.heapEnd - h.heapStart) :
    (gapOf h xs ys).free.toNat + gapStart h.heapStart.toNat xs + (if ys = [] then 12 else 0) =
      gapStop h.heapEnd.toNat ys := by
  cases ys with
  | cons c ys => simpa using hw.gapOf_free
  | nil =>
    have hlast := hw.gapOf_free_last (by simpa using hne)
    have hle := hw.heapEnd
    have hstart := hw.heapStart
    have hend := h.heapEnd.isLt
    rw [if_pos rfl, gapStop_nil]
    split at hlast
    · exact hlast
    · -- a wrapped size is not below the size of the heap
      have hspan : (h.heapEnd - h.heapStart).toNat = h.heapEnd.toNat - h.heapStart.toNat := by
        bv_omega
      rw [BitVec.lt_def, hspan] at hlt
      omega

theorem firstAddress_eq_zero (hw : WellFormed h []) : h.firstAddress = 0 := hw.first

theorem firstAddress_ne_zero (hw : WellFormed h (b :: ys)) : h.firstAddress ≠ 0 := by
  have : h.firstAddress = b.addr := hw.first
  rw [this]
  exact hw.ne_zero (by simp)

end WellFormed

/-! ## The outcomes of ralloc -/

/-- What `ralloc` leaves and returns when no gap is taken. -/
def rallocFailure (h : Heap) : Except Fault (UDword × Heap) := do
  let h ← throwException allocationException h
  return (0, h)

/-- The gap `g` passes the test of the search, for a heap with these bounds. -/
def Gap.Passes (h : Heap) (size : UDword) (g : Gap) : Prop :=
  size + sizeofHeapBlockHeader ≤ g.free ∧ g.free < h.heapEnd - h.heapStart

/-- The heap after `ralloc` has put a block into the gap between `xs` and `ys`. -/
def Heap.place (h : Heap) (size : UDword) (xs ys : List Block) (p : UDword) : Heap :=
  (h.linkIn p size (lastAddr xs) (headAddr ys)).linkFirst xs p

/-- Wherever the block is put, the heap header is not in the way. -/
theorem sameBounds_place {h : Heap} {xs ys : List Block} (hw : WellFormed h (xs ++ ys))
    {p : UDword} (hp : h.header.toNat + 24 ≤ p.toNat) (size : UDword) :
    SameBounds h (h.place size xs ys p) := by
  have hlink : Edits Set.univ h (h.linkIn p size (lastAddr xs) (headAddr ys)) :=
    edits_linkIn hp (hw.nullOrAfter (last_mem xs ys)) (hw.nullOrAfter (head_mem xs ys))
      (fun _ _ => trivial) (fun _ _ _ => trivial) fun _ _ _ => trivial
  unfold Heap.place Heap.linkFirst
  split
  · refine hlink.bounds.trans (sameBounds_setFirstAddress ?_)
    have := hw.header_lt
    rw [hlink.bounds.header]
    omega
  · exact hlink.bounds

/-- In an empty heap the request is not compared with anything. -/
theorem ralloc_empty {h : Heap} (hw : WellFormed h []) (size : UDword) :
    ralloc size h = .ok (h.heapStart + sizeofHeapBlockHeader,
      h.place size [] [] (h.heapStart + sizeofHeapBlockHeader)) := by
  have hadd : h.heapStart + sizeofHeapBlockHeader - sizeofHeapBlockHeader = h.heapStart :=
    BitVec.add_sub_cancel _ _
  simp only [ralloc, hw.firstAddress_eq_zero, if_true, Heap.place, Heap.linkFirst, Heap.linkIn,
    hadd, lastAddr_nil, headAddr_nil]
  rfl

/-- The search as a whole, over the gaps of a non-empty heap. -/
theorem rallocSearch_eq_fold {h : Heap} {blocks : List Block} (hw : WellFormed h blocks)
    (hne : blocks ≠ []) (size : UDword) :
    rallocSearch h size chainFuel h.firstAddress (Best.consider ⟨h.heapEnd - h.heapStart, 0, 0, 0⟩
      size (h.firstAddress - h.heapStart - sizeofHeapBlockHeader) h.heapStart 0 h.firstAddress) =
      .ok ((gaps h blocks).foldl (fun b g => b.take size g)
        ⟨h.heapEnd - h.heapStart, 0, 0, 0⟩) := by
  rcases List.exists_cons_of_ne_nil hne with ⟨b, ys, rfl⟩
  have hfirst : h.firstAddress = b.addr := hw.first
  have hlen := hw.length_lt
  have hsearch := rallocSearch_eq size (show WellFormed h ([] ++ b :: ys) from hw) chainFuel
    (by rw [List.length_cons] at hlen; omega)
    (Best.take ⟨h.heapEnd - h.heapStart, 0, 0, 0⟩ size (gapFirst h (b :: ys)))
  rw [Best.take, gapFirst, headAddr_cons] at hsearch
  rw [hfirst]
  exact hsearch

/-- A non-empty heap: the search, then the rest of `ralloc`. -/
theorem ralloc_eq_fold {h : Heap} {blocks : List Block} (hw : WellFormed h blocks)
    (hne : blocks ≠ []) (size : UDword) {best : Best}
    (hbest : (gaps h blocks).foldl (fun b g => b.take size g)
      ⟨h.heapEnd - h.heapStart, 0, 0, 0⟩ = best) :
    ralloc size h = (do
      let (finalAddress, h) ← if best.bestAddress ≠ 0 then
          allocateSpace best.bestAddress size best.bestPrevious best.bestNext h
        else pure (0, h)
      let h := if best.bestAddress = h.heapStart then h.setFirstAddress finalAddress else h
      let h ← if finalAddress = 0 then throwException allocationException h else pure h
      return (finalAddress, h)) := by
  have hsearch := rallocSearch_eq_fold hw hne size
  rw [hbest] at hsearch
  have hfirst : h.firstAddress ≠ 0 := by
    rcases List.exists_cons_of_ne_nil hne with ⟨b, ys, rfl⟩
    exact hw.firstAddress_ne_zero
  simp only [ralloc, if_neg hfirst]
  rw [hsearch]
  rfl

/-- No gap is large enough: `ralloc` throws, and changes nothing. -/
theorem ralloc_none {h : Heap} {blocks : List Block} (hw : WellFormed h blocks)
    (hne : blocks ≠ []) {size : UDword} (hno : ∀ g ∈ gaps h blocks, ¬ g.Passes h size) :
    ralloc size h = rallocFailure h := by
  have hstart0 : (0 : UDword) ≠ h.heapStart := by
    have := hw.heapStart
    rintro h0
    rw [← h0] at this
    simp at this
  rcases foldl_take size (gaps h blocks) ⟨h.heapEnd - h.heapStart, 0, 0, 0⟩ with
    ⟨heq, -⟩ | ⟨g, hg, -, h1, h2, -⟩
  · rw [ralloc_eq_fold hw hne size heq]
    simp only [ne_eq, not_true_eq_false, if_false, pure_bind, if_true, if_neg hstart0]
    rfl
  · exact absurd ⟨h1, h2⟩ (hno g hg)

/-- The end of `ralloc`, from the search on. -/
def rallocCommit (size : UDword) (best : Best) (h : Heap) : Except Fault (UDword × Heap) := do
  let (finalAddress, h) ← if best.bestAddress ≠ 0 then
      allocateSpace best.bestAddress size best.bestPrevious best.bestNext h
    else pure (0, h)
  let h := if best.bestAddress = h.heapStart then h.setFirstAddress finalAddress else h
  let h ← if finalAddress = 0 then throwException allocationException h else pure h
  return (finalAddress, h)

/-- The search has ended with the gap between `xs` and `ys`: the block is put there. -/
theorem rallocCommit_eq {h : Heap} {xs ys : List Block} (hw : WellFormed h (xs ++ ys))
    {best : Best} (size : UDword)
    (haddr : best.bestAddress.toNat = gapStart h.heapStart.toNat xs)
    (hprev : best.bestPrevious = lastAddr xs) (hnext : best.bestNext = headAddr ys)
    (hp : best.bestAddress.toNat + 12 < 2 ^ 32) :
    ∃ p, p.toNat = gapStart h.heapStart.toNat xs + 12 ∧
      rallocCommit size best h = .ok (p, h.place size xs ys p) := by
  have hle := hw.gapStart_le
  have hstart := hw.heapStart
  have hpNat : (best.bestAddress + sizeofHeapBlockHeader).toNat =
      gapStart h.heapStart.toNat xs + 12 := by
    rw [← haddr]
    exact BitVec.toNat_add_of_lt hp
  obtain ⟨p, hpdef⟩ : ∃ p, p = best.bestAddress + sizeofHeapBlockHeader := ⟨_, rfl⟩
  have hpsub : best.bestAddress = p - sizeofHeapBlockHeader := by
    rw [hpdef]
    exact (BitVec.add_sub_cancel _ _).symm
  rw [← hpdef] at hpNat
  have hp24 : h.header.toNat + 24 ≤ p.toNat := by omega
  refine ⟨p, hpNat, ?_⟩
  have haddr0 : best.bestAddress ≠ 0 := by
    intro h0
    rw [h0] at haddr
    simp at haddr
    omega
  have hp0 : p ≠ 0 := by
    rintro rfl
    simp at hp24
  have hlast := last_mem xs ys
  have hhead := head_mem xs ys
  have halloc := allocateSpace_eq size hp24 (hw.nullOrIn hlast)
    (hw.nullOrAfter hlast) (hw.nullOrIn hhead)
  have hsame : (h.linkIn p size (lastAddr xs) (headAddr ys)).heapStart = h.heapStart :=
    (edits_linkIn (S := Set.univ) hp24 (hw.nullOrAfter hlast) (hw.nullOrAfter hhead)
      (fun _ _ => trivial) (fun _ _ _ => trivial) (fun _ _ _ => trivial)).bounds.heapStart
  -- the gap starts at the start of the heap exactly when it is the first one
  have hiff : best.bestAddress = h.heapStart ↔ xs = [] := by
    rw [← BitVec.toNat_inj, haddr]
    rcases List.eq_nil_or_concat xs with rfl | ⟨xs', k, rfl⟩
    · simp
    · have hk := (hw.inside k (by simp)).1
      rw [List.concat_eq_append, gapStart_concat]
      unfold Block.stop
      simp only [List.append_eq_nil_iff, List.cons_ne_self, and_false, iff_false]
      omega
  simp only [rallocCommit, ne_eq, haddr0, not_false_eq_true, if_true, hprev, hnext]
  rw [hpsub, halloc, ok_bind]
  simp only [if_neg hp0, pure_bind, ← hpsub, hsame]
  by_cases hx : xs = []
  · rw [if_pos (hiff.mpr hx), Heap.place, Heap.linkFirst, if_pos hx]
    rfl
  · rw [if_neg (fun e => hx (hiff.mp e)), Heap.place, Heap.linkFirst, if_neg hx]
    rfl

/-- The gap between `xs` and `ys` is the one the search ends with. -/
theorem ralloc_takes {h : Heap} {xs ys : List Block} (hw : WellFormed h (xs ++ ys))
    (hne : xs ++ ys ≠ []) {size : UDword} (hlt : (gapOf h xs ys).free < h.heapEnd - h.heapStart)
    (heq : (gaps h (xs ++ ys)).foldl (fun b g => b.take size g)
      ⟨h.heapEnd - h.heapStart, 0, 0, 0⟩ = (gapOf h xs ys).best) :
    ∃ p, p.toNat = gapStart h.heapStart.toNat xs + 12 ∧
      ralloc size h = .ok (p, h.place size xs ys p) := by
  rcases hw.gapOf_links with ⟨haddr, hprev, hnext⟩
  have htaken := hw.gapOf_taken hne hlt
  have hle := hw.gapStart_le
  have hendlt := h.heapEnd.isLt
  -- the block is placed inside, so its address does not wrap
  have hp : (gapOf h xs ys).address.toNat + 12 < 2 ^ 32 := by
    cases ys with
    | nil =>
      rw [if_pos rfl, gapStop_nil] at htaken
      omega
    | cons c ys =>
      have := (hw.inside c (by simp)).1
      have := c.addr.isLt
      rw [gapStop_cons] at hle
      omega
  rcases @rallocCommit_eq h xs ys hw (gapOf h xs ys).best size haddr hprev hnext hp with
    ⟨p, hpNat, hcommit⟩
  refine ⟨p, hpNat, ?_⟩
  rw [ralloc_eq_fold hw hne size heq]
  exact hcommit

/-- Some gap passes: `ralloc` puts the block at the start of a smallest one. -/
theorem ralloc_found {h : Heap} {blocks : List Block} (hw : WellFormed h blocks)
    (hne : blocks ≠ []) {size : UDword} {g : Gap} (hg : g ∈ gaps h blocks)
    (hpass : g.Passes h size) :
    ∃ xs ys p, blocks = xs ++ ys ∧ p.toNat = gapStart h.heapStart.toNat xs + 12 ∧
      (gapOf h xs ys).Passes h size ∧
      (∀ g ∈ gaps h blocks, size + sizeofHeapBlockHeader ≤ g.free →
        (gapOf h xs ys).free ≤ g.free) ∧
      ralloc size h = .ok (p, h.place size xs ys p) := by
  rcases foldl_take size (gaps h blocks) ⟨h.heapEnd - h.heapStart, 0, 0, 0⟩ with
    ⟨-, hno⟩ | ⟨g', hg', heq, h1, h2, hmin⟩
  · exact absurd hpass (hno g hg)
  rcases mem_gaps.mp hg' with ⟨xs, ys, rfl, rfl⟩
  rcases ralloc_takes hw hne h2 heq with ⟨p, hp, hralloc⟩
  exact ⟨xs, ys, p, rfl, hp, ⟨h1, h2⟩, hmin, hralloc⟩

/-- The gap the search ends with: the first of the smallest ones that pass. -/
def Chosen (h : Heap) (blocks : List Block) (size : UDword) (g : Gap) : Prop :=
  ∃ before after, gaps h blocks = before ++ g :: after ∧ g.Passes h size ∧
    (∀ g' ∈ before, size + sizeofHeapBlockHeader ≤ g'.free → g.free < g'.free) ∧
    ∀ g' ∈ after, size + sizeofHeapBlockHeader ≤ g'.free → g.free ≤ g'.free

/-- There is one such gap at most. -/
theorem Chosen.unique {h : Heap} {blocks : List Block} {size : UDword} {g g' : Gap}
    (hg : Chosen h blocks size g) (hg' : Chosen h blocks size g') : g = g' := by
  rcases hg with ⟨before, after, hgaps, hpass, hbefore, hafter⟩
  rcases hg' with ⟨before', after', hgaps', hpass', hbefore', hafter'⟩
  rw [hgaps] at hgaps'
  rcases List.append_eq_append_iff.mp hgaps' with ⟨mid, rfl, hmid⟩ | ⟨mid, rfl, hmid⟩
  · cases mid with
    | nil => exact (List.cons.inj hmid).1
    | cons c mid =>
      -- `g'` comes after `g`, and would have to be smaller
      rcases List.cons.inj hmid with ⟨rfl, rfl⟩
      have hle := hafter g' (by simp) hpass'.1
      have hlt := hbefore' g (by simp) hpass.1
      exact absurd hlt (BitVec.not_lt.mpr hle)
  · cases mid with
    | nil => exact (List.cons.inj hmid).1.symm
    | cons c mid =>
      rcases List.cons.inj hmid with ⟨rfl, rfl⟩
      have hle := hafter' g (by simp) hpass.1
      have hlt := hbefore g' (by simp) hpass'.1
      exact absurd hlt (BitVec.not_lt.mpr hle)

/-- Where the block goes in a heap that is not empty. -/
theorem ralloc_chosen {h : Heap} {blocks : List Block} (hw : WellFormed h blocks)
    (hne : blocks ≠ []) (size : UDword) :
    ralloc size h = rallocFailure h ∨
      ∃ g p h', Chosen h blocks size g ∧ p.toNat = g.address.toNat + 12 ∧
        ralloc size h = .ok (p, h') := by
  rcases foldl_take_first size (gaps h blocks) ⟨h.heapEnd - h.heapStart, 0, 0, 0⟩ with
    ⟨-, hno⟩ | ⟨before, g, after, hgaps, heq, h1, h2, hbefore, hafter⟩
  · exact Or.inl (ralloc_none hw hne hno)
  · rcases mem_gaps.mp (show g ∈ gaps h blocks by rw [hgaps]; simp) with ⟨xs, ys, rfl, rfl⟩
    rcases ralloc_takes hw hne h2 heq with ⟨p, hp, hralloc⟩
    rw [← hw.gapOf_links.1] at hp
    exact Or.inr ⟨_, p, _, ⟨before, after, hgaps, ⟨h1, h2⟩, hbefore, hafter⟩, hp, hralloc⟩

end MushOS
