import MushOS.Theory.Attempts
import MushOS.Base.HeapRuns

/-! # Live blocks

Allocation and release for code that works with several blocks at once. The heap
is seen as a finite set of live blocks: `ralloc` adds one, `unalloc` takes one
out, and neither touches a byte outside of the heap or in the payload of a live
block (`Preserves`).

"No allocation fails" is said with the handler of the kernel, which does not
return: `Yields` of `Theory/Attempts.lean`, for `strict`.
-/

namespace MushOS

open ByteMemory WellFormed Attempts

/-! ## Sets of blocks -/

/-- The heap is well formed, and its blocks are those of `S`. -/
def Live (h : Heap) (S : Finset Block) : Prop :=
  ∃ blocks, WellFormed h blocks ∧ blocks.toFinset = S

/-- The bytes of the heap, from its header to its end. -/
def Heap.region (h : Heap) : Set UDword :=
  {a | h.header.toNat ≤ a.toNat ∧ a.toNat < h.heapEnd.toNat}

/-- The bytes that are not the heap's to write: those outside of it, and the payloads
of its blocks. -/
def Settled (h : Heap) (S : Finset Block) : Set UDword :=
  {a | a ∉ h.region ∨ ∃ b ∈ S, a ∈ b.payload}

/-- The heap has kept its bounds and every byte settled in `S`. -/
structure Preserves (S : Finset Block) (h h' : Heap) : Prop where
  bounds : SameBounds h h'
  handlers : h'.handlers = h.handlers
  raised : h'.raised = h.raised
  bytes : ∀ a ∈ Settled h S, h'.mem.bytes a = h.mem.bytes a

section
variable {h h' h'' : Heap} {S T : Finset Block} {b c : Block} {a p size : UDword}

theorem settled_mono (hST : S ⊆ T) : Settled h S ⊆ Settled h T := by
  rintro a (hout | ⟨b, hb, ha⟩)
  · exact Or.inl hout
  · exact Or.inr ⟨b, hST hb, ha⟩

theorem SameBounds.settled (hbounds : SameBounds h h') : Settled h' S = Settled h S := by
  unfold Settled Heap.region
  rw [hbounds.header, hbounds.heapEnd]

namespace Preserves

theorem refl (S : Finset Block) (h : Heap) : Preserves S h h :=
  ⟨SameBounds.refl h, rfl, rfl, fun _ _ => rfl⟩

theorem mono (hp : Preserves T h h') (hST : S ⊆ T) : Preserves S h h' :=
  ⟨hp.bounds, hp.handlers, hp.raised, fun a ha => hp.bytes a (settled_mono hST ha)⟩

theorem trans (hp : Preserves S h h') (hq : Preserves S h' h'') : Preserves S h h'' := by
  refine ⟨hp.bounds.trans hq.bounds, hq.handlers.trans hp.handlers, hq.raised.trans hp.raised, ?_⟩
  intro a ha
  rw [hq.bytes a (by rw [hp.bounds.settled]; exact ha), hp.bytes a ha]

end Preserves

/-- The blocks with one more. -/
theorem toFinset_insert {xs ys : List Block} :
    (xs ++ b :: ys).toFinset = insert b (xs ++ ys).toFinset := by
  ext c
  simp only [List.mem_toFinset, Finset.mem_insert, List.mem_append, List.mem_cons]
  tauto

/-- The blocks without one of them. -/
theorem toFinset_erase {xs ys : List Block} (hw : WellFormed h (xs ++ b :: ys)) :
    (xs ++ ys).toFinset = (xs ++ b :: ys).toFinset.erase b := by
  have hnd := nodup_addrs hw.sorted
  rw [addrs_append, addrs_cons, List.nodup_middle, List.nodup_cons, ← addrs_append] at hnd
  have hnot : b ∉ xs ++ ys := fun hmem => hnd.1 (mem_addrs hmem)
  ext c
  simp only [List.mem_toFinset, Finset.mem_erase, List.mem_append, List.mem_cons] at hnot ⊢
  constructor
  · rintro hc
    exact ⟨fun heq => hnot (heq ▸ hc), by tauto⟩
  · tauto

namespace Live

theorem sorted (hl : Live h S) (hb : b ∈ S) (hc : c ∈ S) : b = c ∨ b.Before c ∨ c.Before b := by
  rcases hl with ⟨blocks, hw, rfl⟩
  exact before_cases hw.sorted (List.mem_toFinset.mp hb) (List.mem_toFinset.mp hc)

theorem bounds (hl : Live h S) (hb : b ∈ S) :
    h.heapStart.toNat + 12 ≤ b.addr.toNat ∧ b.addr.toNat + b.size.toNat ≤ h.heapEnd.toNat ∧
      h.header.toNat + 24 ≤ b.addr.toNat := by
  rcases hl with ⟨blocks, hw, rfl⟩
  have hb' := List.mem_toFinset.mp hb
  rcases hw.inside b hb' with ⟨hlo, hhi, -⟩
  exact ⟨hlo, hhi, hw.addr_ge hb'⟩

theorem payload_lt (hl : Live h S) (hb : b ∈ S) : b.addr.toNat + b.size.toNat < 2 ^ 32 := by
  have hbounds := hl.bounds hb
  have := h.heapEnd.isLt
  omega

theorem ne_zero (hl : Live h S) (hb : b ∈ S) : b.addr ≠ 0 := by
  intro h0
  have hbounds := hl.bounds hb
  rw [h0] at hbounds
  simp at hbounds

theorem payload_disjoint (hl : Live h S) (hb : b ∈ S) (hc : c ∈ S) (hne : b ≠ c)
    (ha : a ∈ b.payload) : a ∉ c.payload := by
  rcases hl with ⟨blocks, hw, rfl⟩
  exact hw.payload_disjoint (List.mem_toFinset.mp hb) (List.mem_toFinset.mp hc) hne ha

/-- The address of a byte of a block. -/
theorem mem_payload (hl : Live h S) (hb : b ∈ S) {i : ℕ} (hi : i < b.size.toNat) :
    b.addr + BitVec.ofNat 32 i ∈ b.payload := by
  have hlt := hl.payload_lt hb
  rw [Block.payload, mem_span, toNat_add_ofNat (by omega)]
  omega

theorem congr_mem (hl : Live h S) (hheader : h'.header = h.header) (hmem : h'.mem = h.mem) :
    Live h' S := by
  rcases hl with ⟨blocks, hw, rfl⟩
  exact ⟨blocks, hw.congr_mem hheader hmem, rfl⟩

/-- Writing in one of the blocks leaves the others. -/
theorem write (hl : Live h S) (hb : b ∈ S) {m : Mem} (hm : Writes b.payload h.mem m) :
    Live { h with mem := m } S ∧ Preserves (S.erase b) h { h with mem := m } := by
  have hdisjoint := fun (c : Block) (hc : c ∈ S.erase b) (a : UDword) =>
    hl.payload_disjoint (Finset.mem_of_mem_erase hc) hb (Finset.ne_of_mem_erase hc) (a := a)
  have hinside := hl.bounds hb
  rcases hl with ⟨blocks, hw, rfl⟩
  rcases hw.of_payload_writes (List.mem_toFinset.mp hb) hm with ⟨hw', hbounds⟩
  refine ⟨⟨blocks, hw', rfl⟩, hbounds, rfl, rfl, ?_⟩
  rintro a (hout | ⟨c, hc, ha⟩)
  · refine hm.frame a fun hmem => hout ?_
    simp only [Block.payload, mem_span] at hmem
    exact ⟨by omega, by omega⟩
  · exact hm.frame a (hdisjoint c hc a ha)

/-- The metadata of a heap whose blocks include those of `S` is not settled in `S`. -/
theorem metadata_not_settled {blocks : List Block} (hw : WellFormed h blocks)
    (hS : ∀ b ∈ S, b ∈ blocks) (ha : a ∈ Settled h S) : a ∉ metadata h.header blocks := by
  rcases ha with hout | ⟨b, hb, ha⟩
  · intro hmeta
    refine hout ?_
    have hstart := hw.heapStart
    have hend := hw.heapEnd
    rcases hmeta with hmeta | ⟨c, hc, hmeta⟩
    · simp only [mem_span] at hmeta
      exact ⟨by omega, by omega⟩
    · have hge := hw.addr_ge hc
      have hlt := (hw.inside c hc).2.2
      simp only [Block.header, mem_span] at hmeta
      exact ⟨by omega, by omega⟩
  · exact hw.payload_not_metadata (hS b hb) ha

/-- Releasing a block. -/
theorem unalloc (hl : Live h S) (hb : b ∈ S) :
    ∃ h', MushOS.unalloc b.addr h = .ok h' ∧ Live h' (S.erase b) ∧ Preserves S h h' := by
  rcases hl with ⟨blocks, hw, rfl⟩
  rcases List.append_of_mem (List.mem_toFinset.mp hb) with ⟨xs, ys, rfl⟩
  rcases hw.unalloc with ⟨h', heq, hw', hedits⟩
  refine ⟨h', heq, ⟨xs ++ ys, hw', toFinset_erase hw⟩, hedits.bounds, hedits.handlers,
    hedits.raised, ?_⟩
  intro a ha
  exact hedits.writes.frame a (metadata_not_settled hw (fun c hc => List.mem_toFinset.mp hc) ha)

end Live

/-! ## Allocation -/

/-- The same heap with the handler of the kernel, which does not return. -/
def strict (h : Heap) : Heap := handleExceptions allocationExceptionId .kernel h

/-- What an allocation has obtained. -/
structure Obtains (S : Finset Block) (h : Heap) (size p : UDword) (h' : Heap) : Prop where
  fresh : ∀ b ∈ S, b.addr ≠ p
  live : Live h' (insert ⟨p, size⟩ S)
  preserves : Preserves S h h'

def Heap.withHandlers (hs : UByte → Option ExceptionHandler) (h : Heap) : Heap :=
  { h with handlers := hs }

theorem setIfPresent_withHandlers (hs : UByte → Option ExceptionHandler) (block : UDword)
    (f : BlockMember) (v : UDword) (h : Heap) : setIfPresent block f v (h.withHandlers hs) =
      (setIfPresent block f v h).map (Heap.withHandlers hs) := by
  unfold setIfPresent getHeader
  by_cases h0 : block ≠ 0
  · rw [if_pos h0, if_pos h0, show isInHeap (h.withHandlers hs) block = isInHeap h block from rfl]
    by_cases hin : isInHeap h block = true
    · rw [if_pos hin]
      rfl
    · rw [if_neg hin]
      rfl
  · rw [if_neg h0, if_neg h0]
    rfl

theorem allocateSpace_withHandlers (hs : UByte → Option ExceptionHandler)
    (p size previous next : UDword) (h : Heap) :
    allocateSpace p size previous next (h.withHandlers hs) =
      (allocateSpace p size previous next h).map (Prod.map id (Heap.withHandlers hs)) := by
  unfold allocateSpace
  have hset : ∀ (f : BlockMember) (v : UDword) (h : Heap),
      (h.withHandlers hs).setMember p f v = (h.setMember p f v).withHandlers hs :=
    fun _ _ _ => rfl
  simp only [hset, setIfPresent_withHandlers]
  cases setIfPresent previous .next (p + sizeofHeapBlockHeader)
    (((h.setMember p .size size).setMember p .previous previous).setMember p .next next) with
  | error e => rfl
  | ok h₁ =>
    simp only [Except.map, ok_bind, setIfPresent_withHandlers]
    cases setIfPresent next .previous (p + sizeofHeapBlockHeader) h₁ with
    | error e => rfl
    | ok h₂ => rfl

theorem rallocSearch_withHandlers (hs : UByte → Option ExceptionHandler) (h : Heap)
    (size : UDword) (fuel : ℕ) (current : UDword) (best : Best) :
    rallocSearch (h.withHandlers hs) size fuel current best =
      rallocSearch h size fuel current best := by
  induction fuel generalizing current best with
  | zero => rfl
  | succ fuel ih =>
    rw [rallocSearch, rallocSearch]
    have hheader : getHeader (h.withHandlers hs) current = getHeader h current := rfl
    have hmember : ∀ block f, (h.withHandlers hs).member block f = h.member block f :=
      fun _ _ => rfl
    simp only [hheader, hmember, ih]
    rfl

/-- What is returned after the handler has returned. -/
theorem null_of_throw {q : UDword} {h₁ : Heap}
    (heq : (do
      let h ← throwException allocationException h₁
      return (q, h) : Except Fault (UDword × Heap)) = .ok (p, h')) (hq : q = 0) : p = 0 := by
  cases hthrow : throwException allocationException h₁ with
  | error e =>
    rw [hthrow] at heq
    cases heq
  | ok h₂ =>
    rw [hthrow] at heq
    rw [← (Prod.mk.inj (Except.ok.inj heq)).1, hq]

/-- An allocation that succeeds does not see the handler. -/
theorem ralloc_withHandlers (hs : UByte → Option ExceptionHandler)
    (heq : ralloc size h = .ok (p, h')) (hp : p ≠ 0) :
    ralloc size (h.withHandlers hs) = .ok (p, h'.withHandlers hs) := by
  unfold ralloc at heq ⊢
  rw [show (h.withHandlers hs).firstAddress = h.firstAddress from rfl,
    show (h.withHandlers hs).heapStart = h.heapStart from rfl,
    show (h.withHandlers hs).heapEnd = h.heapEnd from rfl]
  by_cases h0 : h.firstAddress = 0
  · rw [if_pos h0] at heq ⊢
    rw [allocateSpace_withHandlers]
    cases halloc : allocateSpace h.heapStart size 0 0 h with
    | error e =>
      rw [halloc] at heq
      cases heq
    | ok r =>
      rw [halloc] at heq
      rcases Prod.mk.inj (Except.ok.inj heq) with ⟨rfl, rfl⟩
      rfl
  · rw [if_neg h0] at heq ⊢
    simp only [rallocSearch_withHandlers]
    cases hsearch : rallocSearch h size chainFuel h.firstAddress
        (Best.consider ⟨h.heapEnd - h.heapStart, 0, 0, 0⟩ size
          (h.firstAddress - h.heapStart - sizeofHeapBlockHeader) h.heapStart 0 h.firstAddress) with
    | error e =>
      simp only [hsearch] at heq
      cases heq
    | ok best =>
      simp only [hsearch, ok_bind] at heq ⊢
      by_cases hbest : best.bestAddress ≠ 0
      · rw [if_pos hbest] at heq ⊢
        rw [allocateSpace_withHandlers]
        cases halloc : allocateSpace best.bestAddress size best.bestPrevious best.bestNext h with
        | error e =>
          rw [halloc] at heq
          cases heq
        | ok r =>
          rcases r with ⟨q, h₁⟩
          rw [halloc] at heq
          simp only [Except.map, ok_bind, Prod.map, id] at heq ⊢
          by_cases hq : q = 0
          · -- the handler would be called with a null result
            exact absurd (null_of_throw (by rw [if_pos hq] at heq; exact heq) hq) hp
          · rw [if_neg hq] at heq ⊢
            rcases Prod.mk.inj (Except.ok.inj heq) with ⟨rfl, rfl⟩
            rw [show (h₁.withHandlers hs).heapStart = h₁.heapStart from rfl]
            by_cases hfirst : best.bestAddress = h₁.heapStart
            · rw [if_pos hfirst, if_pos hfirst]
              rfl
            · rw [if_neg hfirst, if_neg hfirst]
              rfl
      · rw [if_neg hbest] at heq
        simp only [pure_bind, if_true] at heq
        exact absurd (null_of_throw heq rfl) hp

/-- Programs over the heap. -/
abbrev HeapM := StateT Heap (Except Fault)

/-- Unless an allocation fails, `f` returns with `Q`. -/
abbrev Succeeds {α : Type} (f : HeapM α) (h : Heap) (Q : α → Heap → Prop) : Prop :=
  Yields strict {.hung allocationException} f h Q

/-- A block of `n` bytes with `R` is taken, or one of the failures `E` occurs. -/
def Allocates (E : Set Fault) (S : Finset Block) (h : Heap) (n : ℕ) (R : Block → Prop) : Prop :=
  ∀ size : UDword, size.toNat = n →
    Yields strict E (MushOS.ralloc size) h fun p h' => R ⟨p, size⟩ ∧ Obtains S h size p h'

/-- `unalloc(structure);` -/
def release (structure' : UDword) : HeapM Unit := fun h => do
  let h ← MushOS.unalloc structure' h
  return ((), h)

/-- A block that has been linked in is an allocation, and its bytes are as they were. -/
theorem obtains_place {xs ys : List Block}
    (hw : WellFormed (h.place size xs ys p) (xs ++ ⟨p, size⟩ :: ys))
    (hedits : Edits (metadata h.header (xs ++ ⟨p, size⟩ :: ys)) h (h.place size xs ys p)) :
    Obtains (xs ++ ys).toFinset h size p (h.place size xs ys p) ∧
      ∀ a ∈ (Block.mk p size).payload, (h.place size xs ys p).mem.bytes a = h.mem.bytes a := by
  have hnd := nodup_addrs hw.sorted
  rw [addrs_append, addrs_cons, List.nodup_middle, List.nodup_cons, ← addrs_append] at hnd
  have hframe : ∀ S : Finset Block, (∀ b ∈ S, b ∈ xs ++ ⟨p, size⟩ :: ys) → ∀ a ∈ Settled h S,
      (h.place size xs ys p).mem.bytes a = h.mem.bytes a := by
    intro S hS a ha
    refine hedits.writes.frame a ?_
    rw [← hedits.bounds.header]
    refine Live.metadata_not_settled hw hS ?_
    rw [hedits.bounds.settled]
    exact ha
  refine ⟨⟨?_, ⟨_, hw, toFinset_insert⟩, hedits.bounds, hedits.handlers, hedits.raised, ?_⟩, ?_⟩
  · intro b hb haddr
    exact hnd.1 (List.mem_map.mpr ⟨b, List.mem_toFinset.mp hb, haddr⟩)
  · exact hframe _ fun b hb => mem_insert (List.mem_toFinset.mp hb)
  · intro a ha
    refine hframe {⟨p, size⟩} (fun b hb => ?_) a (Or.inr ⟨_, Finset.mem_singleton_self _, ha⟩)
    rw [Finset.mem_singleton.mp hb]
    simp

/-- A request that does not wrap and, in an empty heap, fits. -/
theorem Live.ralloc (hl : Live h S) (hwrap : size.toNat + 12 < 2 ^ 32)
    (hempty : S = ∅ → h.heapStart.toNat + 12 + size.toNat ≤ h.heapEnd.toNat ∧
      h.heapStart.toNat + 12 < h.heapEnd.toNat) :
    Succeeds (MushOS.ralloc size) h (Obtains S h size) := by
  rcases hl with ⟨blocks, hw, rfl⟩
  have hempty' : blocks = [] → h.heapStart.toNat + 12 + size.toNat ≤ h.heapEnd.toNat ∧
      h.heapStart.toNat + 12 < h.heapEnd.toNat := by
    rintro rfl
    exact hempty rfl
  rcases ralloc_spec hw size hwrap hempty' with hfail | ⟨xs, ys, p, rfl, heq, hw', hedits⟩
  · -- the strict heap has no room either
    left
    refine ⟨_, rfl, ?_⟩
    have hw' : WellFormed (strict h) blocks := hw.congr_mem rfl rfl
    rcases ralloc_spec hw' size hwrap hempty' with
      hfail' | ⟨xs, ys, p, rfl, heq, hw', -⟩
    · exact hfail'.trans rfl
    · have heq' := ralloc_withHandlers h.handlers heq (hw'.ne_zero (by simp))
      exact absurd (null_of_throw (hfail.symm.trans heq') rfl) (hw'.ne_zero (by simp))
  · right
    have hstrict : MushOS.ralloc size (strict h) = .ok (p, strict (h.place size xs ys p)) := by
      have heq' := ralloc_withHandlers (strict h).handlers heq (hw'.ne_zero (by simp))
      unfold strict handleExceptions
      rw [hedits.handlers]
      exact heq'
    exact ⟨p, _, heq, hstrict, (obtains_place hw' hedits).1⟩

/-- No more is known of an allocation than that it may fail. -/
theorem Live.allocates {n : ℕ} (hl : Live h S) (hwrap : n + 12 < 2 ^ 32)
    (hempty : S = ∅ → h.heapStart.toNat + 12 + n ≤ h.heapEnd.toNat ∧
      h.heapStart.toNat + 12 < h.heapEnd.toNat) :
    Allocates {.hung allocationException} S h n fun _ => True := by
  rintro size rfl
  exact Yields.mono (hl.ralloc hwrap hempty) fun p h' hgot => ⟨trivial, hgot⟩

theorem unalloc_withHandlers (hs : UByte → Option ExceptionHandler)
    (heq : MushOS.unalloc p h = .ok h') :
    MushOS.unalloc p (h.withHandlers hs) = .ok (h'.withHandlers hs) := by
  unfold MushOS.unalloc at heq ⊢
  rcases ok_of_bind_ok heq with ⟨block, hblock, heq⟩
  rw [show getHeader (h.withHandlers hs) p = .ok block from hblock, ok_bind]
  obtain ⟨h₁, hh₁⟩ : ∃ h₁, h₁ = if p = h.firstAddress then
      h.setFirstAddress (h.member block .next) else h := ⟨_, rfl⟩
  have hfirst : (if p = (h.withHandlers hs).firstAddress then
      (h.withHandlers hs).setFirstAddress ((h.withHandlers hs).member block .next)
      else h.withHandlers hs) = h₁.withHandlers hs := by
    rw [hh₁, show (h.withHandlers hs).firstAddress = h.firstAddress from rfl]
    split <;> rfl
  simp only [← hh₁] at heq
  simp only [hfirst]
  rcases ok_of_bind_ok heq with ⟨h₂, hset, heq⟩
  have hmember : ∀ (h : Heap) (f : BlockMember),
      (h.withHandlers hs).member block f = h.member block f := fun _ _ => rfl
  rw [hmember, hmember, setIfPresent_withHandlers, hset]
  show setIfPresent _ _ _ (h₂.withHandlers hs) = _
  rw [hmember, hmember, setIfPresent_withHandlers, heq]
  rfl

/-- Releasing a live block. -/
theorem Live.release {E : Set Fault} (hl : Live h S) (hb : b ∈ S) :
    Yields strict E (release b.addr) h fun _ h' => Live h' (S.erase b) ∧ Preserves S h h' := by
  rcases hl.unalloc hb with ⟨h', heq, hl', hp⟩
  refine Or.inr ⟨(), h', ?_, ?_, hl', hp⟩
  · show (MushOS.unalloc b.addr h >>= fun h => Except.ok ((), h)) = _
    rw [heq]
    rfl
  · have heq' := unalloc_withHandlers (strict h).handlers heq
    have hstrict : strict h' = h'.withHandlers (strict h).handlers := by
      unfold strict handleExceptions
      rw [hp.handlers]
      rfl
    show (MushOS.unalloc b.addr (strict h) >>= fun h => Except.ok ((), h)) = _
    rw [hstrict, show strict h = h.withHandlers (strict h).handlers from rfl, heq']
    rfl

/-! ## Reading and writing -/

/-- Something read from the memory. -/
def reads {α : Type} (f : Mem → α) : HeapM α := fun h => .ok (f h.mem, h)

/-- Something written to the memory. -/
def writes (f : Mem → Mem) : HeapM Unit := fun h => .ok ((), { h with mem := f h.mem })

theorem succeeds_reads {α : Type} {E : Set Fault} (f : Mem → α) (h : Heap) :
    Yields strict E (reads f) h fun a h' => a = f h.mem ∧ h' = h :=
  Or.inr ⟨f h.mem, h, rfl, rfl, rfl, rfl⟩

theorem succeeds_writes {E : Set Fault} (f : Mem → Mem) (h : Heap) :
    Yields strict E (writes f) h fun _ h' => h' = { h with mem := f h.mem } :=
  Or.inr ⟨(), { h with mem := f h.mem }, rfl, rfl, rfl⟩

/-- Filling the new block. -/
theorem Obtains.write (hgot : Obtains S h size p h') {m : Mem}
    (hm : Writes (Block.mk p size).payload h'.mem m) : Obtains S h size p { h' with mem := m } := by
  rcases hgot.live.write (Finset.mem_insert_self _ _) hm with ⟨hl, hp⟩
  refine ⟨hgot.fresh, hl, hgot.preserves.trans (hp.mono ?_)⟩
  intro b hb
  refine Finset.mem_erase.mpr ⟨?_, Finset.mem_insert_of_mem hb⟩
  rintro rfl
  exact hgot.fresh _ hb rfl

end

/-! ## The heap of the kernel -/

def kernelHeapStart : UDword := 0x50000
def kernelHeapSize : UDword := 0x80000

/-- What `_start` sets up: the heap, with the handler of the kernel. -/
def kernelHeap (h : Heap) : Heap := strict (initializeHeap kernelHeapStart kernelHeapSize h)

theorem kernelHeap_spec (h : Heap) :
    WellFormed (kernelHeap h) [] ∧ (kernelHeap h).header = kernelHeapStart ∧
      (kernelHeap h).heapStart.toNat = 0x5000c ∧ (kernelHeap h).heapEnd.toNat = 0xd0000 ∧
      (kernelHeap h).handlers allocationExceptionId = some .kernel := by
  have hsize : 12 ≤ kernelHeapSize.toNat := by decide
  have hfits : kernelHeapStart.toNat + kernelHeapSize.toNat < 2 ^ 32 := by decide
  rcases initializeHeap_spec hsize hfits h with ⟨hw, hheader, hstart, hend, -⟩
  rw [show kernelHeapStart.toNat + 12 = 0x5000c from rfl] at hstart
  rw [show kernelHeapStart.toNat + kernelHeapSize.toNat = 0xd0000 from rfl] at hend
  unfold kernelHeap
  obtain ⟨h₀, hh₀⟩ : ∃ h₀, h₀ = initializeHeap kernelHeapStart kernelHeapSize h := ⟨_, rfl⟩
  rw [← hh₀] at hw hheader hstart hend ⊢
  exact ⟨hw.congr_mem rfl rfl, hheader, hstart, hend, rfl⟩

end MushOS
