import MushOS.Base.HeapEdits

/-! # Linking and unlinking in memory

What the header writes of `allocate_space` and `unalloc` do to a well-formed
heap, through the edits of `HeapEdits`:

* `allocateSpace_eq` and `WellFormed.linkIn`: the header of the new block is
  written, its neighbours are redirected, and the heap is well formed again;
* `WellFormed.unalloc`: the neighbours of the block are redirected past it.

`Edits S h h'` says what stays: bounds, handlers, exceptions, and every byte
outside `S`. Both operations edit metadata only.
-/

namespace MushOS

open ByteMemory Links

/-! ## Bounds and footprints of a member write -/

section Members
variable {h h' h₁ h₂ : Heap} {p q v : UDword} {f : BlockMember}

theorem SameBounds.refl (h : Heap) : SameBounds h h := ⟨rfl, rfl, rfl⟩

/-- Two steps that keep the bounds. -/
theorem SameBounds.trans (h₁₂ : SameBounds h h₁) (h₂₃ : SameBounds h₁ h₂) : SameBounds h h₂ :=
  ⟨h₂₃.header.trans h₁₂.header, h₂₃.heapStart.trans h₁₂.heapStart,
    h₂₃.heapEnd.trans h₁₂.heapEnd⟩

/-- While the bounds stay, so does the test `is_in_heap`. -/
theorem SameBounds.isInHeap (hs : SameBounds h h') : isInHeap h' p = isInHeap h p := by
  simp only [MushOS.isInHeap, hs.heapStart, hs.heapEnd]

/-- A member write keeps the bounds. -/
theorem sameBounds_setMember (hp : h.header.toNat + 24 ≤ p.toNat) :
    SameBounds h (h.setMember (p - sizeofHeapBlockHeader) f v) :=
  ⟨rfl, heapStart_setMember hp, heapEnd_setMember hp⟩

/-- So does a guarded one. -/
theorem sameBounds_patch (hp : p = 0 ∨ h.header.toNat + 24 ≤ p.toNat) :
    SameBounds h (h.patch p f v) :=
  ⟨header_patch, heapStart_patch hp, heapEnd_patch hp⟩

/-- So does writing `first_address`. -/
theorem sameBounds_setFirstAddress (hh : h.header.toNat + 12 ≤ 2 ^ 32) :
    SameBounds h (h.setFirstAddress v) :=
  ⟨rfl, heapStart_setFirstAddress hh, heapEnd_setFirstAddress hh⟩

/-- Only the list and the bytes of `S` may differ: no exception was raised. -/
structure Edits (S : Set UDword) (h h' : Heap) : Prop where
  bounds : SameBounds h h'
  handlers : h'.handlers = h.handlers
  raised : h'.raised = h.raised
  writes : Writes S h.mem h'.mem

/-- No step at all edits nothing. -/
theorem Edits.refl (S : Set UDword) (h : Heap) : Edits S h h :=
  ⟨SameBounds.refl h, rfl, rfl, Writes.refl S h.mem⟩

/-- Two edits within the same bytes. -/
theorem Edits.trans {S : Set UDword} (h₁₂ : Edits S h h₁) (h₂₃ : Edits S h₁ h₂) :
    Edits S h h₂ :=
  ⟨h₁₂.bounds.trans h₂₃.bounds, h₂₃.handlers.trans h₁₂.handlers,
    h₂₃.raised.trans h₁₂.raised, h₁₂.writes.trans h₂₃.writes⟩

/-- A member write stays inside the header of its block. -/
theorem edits_setMember {S : Set UDword} (hp : h.header.toNat + 24 ≤ p.toNat)
    (hS : span (p.toNat - 12) 12 ⊆ S) :
    Edits S h (h.setMember (p - sizeofHeapBlockHeader) f v) := by
  refine ⟨sameBounds_setMember hp, rfl, rfl, ?_⟩
  have hf := toNat_memberAddress (p := p) (by omega) f
  have hlt := p.isLt
  have hfo := f.offset_le
  refine writes_write32 _ _ (by omega) fun x hx => hS ?_
  simp only [mem_span] at hx ⊢
  omega

/-- A guarded member write stays inside the header of its block, if there is one. -/
theorem edits_patch {S : Set UDword} (hp : p = 0 ∨ h.header.toNat + 24 ≤ p.toNat)
    (hS : p ≠ 0 → span (p.toNat - 12) 12 ⊆ S) : Edits S h (h.patch p f v) := by
  unfold Heap.patch
  split
  · exact edits_setMember (hp.resolve_left ‹_›) (hS ‹_›)
  · exact Edits.refl S h

/-- Writing `first_address` stays inside the header of the heap. -/
theorem edits_setFirstAddress {S : Set UDword} (hh : h.header.toNat + 12 ≤ 2 ^ 32)
    (hS : span h.header.toNat 12 ⊆ S) : Edits S h (h.setFirstAddress v) := by
  refine ⟨sameBounds_setFirstAddress hh, rfl, rfl, ?_⟩
  refine writes_write32 _ _ (by omega) fun x hx => hS ?_
  simp only [mem_span] at hx ⊢
  omega

end Members

/-! ## allocate_space -/

/-- The heap after `allocate_space` has linked the block `p` in. -/
def Heap.linkIn (h : Heap) (p size previous next : UDword) : Heap :=
  ((((h.setMember (p - sizeofHeapBlockHeader) .size size).setMember
    (p - sizeofHeapBlockHeader) .previous previous).setMember
    (p - sizeofHeapBlockHeader) .next next).patch previous .next p).patch next .previous p

section LinkIn
variable {h : Heap} {p q size previous next : UDword}

/-- Null, or the payload of a block after the heap header. -/
def NullOrAfter (h : Heap) (p : UDword) : Prop := p = 0 ∨ h.header.toNat + 24 ≤ p.toNat

/-- `allocate_space` does not fault on neighbours that are null or in the heap. -/
theorem allocateSpace_eq (size : UDword) (hp : h.header.toNat + 24 ≤ p.toNat)
    (hprev : previous = 0 ∨ isInHeap h previous = true)
    (hprev' : NullOrAfter h previous) (hnext : next = 0 ∨ isInHeap h next = true) :
    allocateSpace (p - sizeofHeapBlockHeader) size previous next h =
      .ok (p, h.linkIn p size previous next) := by
  have hp1 := sameBounds_setMember (f := .size) (v := size) hp
  have hp2 := hp1.trans (sameBounds_setMember (f := .previous) (v := previous) hp)
  have hp3 := hp2.trans (sameBounds_setMember (f := .next) (v := next) hp)
  have hp4 := hp3.trans (sameBounds_patch (f := .next) (v := p) hprev')
  have hadd : p - sizeofHeapBlockHeader + sizeofHeapBlockHeader = p :=
    BitVec.sub_add_cancel p _
  simp only [allocateSpace, hadd]
  rw [setIfPresent_eq (by rwa [hp3.isInHeap])]
  show (setIfPresent next _ _ _ >>= _) = _
  rw [setIfPresent_eq (by rwa [hp4.isInHeap])]
  rfl

/-- Linking in writes the headers of the new block and of its neighbours. -/
theorem edits_linkIn {S : Set UDword} (hp : h.header.toNat + 24 ≤ p.toNat)
    (hprev : NullOrAfter h previous) (hnext : NullOrAfter h next)
    (hSp : span (p.toNat - 12) 12 ⊆ S)
    (hSprev : previous ≠ 0 → span (previous.toNat - 12) 12 ⊆ S)
    (hSnext : next ≠ 0 → span (next.toNat - 12) 12 ⊆ S) :
    Edits S h (h.linkIn p size previous next) := by
  have h1 : Edits S h (h.setMember (p - sizeofHeapBlockHeader) .size size) :=
    edits_setMember hp hSp
  have h2 := h1.trans (edits_setMember (f := .previous) (v := previous) hp hSp)
  have h3 := h2.trans (edits_setMember (f := .next) (v := next) hp hSp)
  have h4 := h3.trans (edits_patch (f := .next) (v := p) hprev hSprev)
  refine h4.trans (edits_patch ?_ hSnext)
  rwa [NullOrAfter, ← h4.bounds.header] at hnext

/-- It leaves `first_address` to the caller. -/
theorem firstAddress_linkIn (size : UDword) (hp : h.header.toNat + 24 ≤ p.toNat)
    (hprev : NullOrAfter h previous) (hnext : NullOrAfter h next) :
    (h.linkIn p size previous next).firstAddress = h.firstAddress := by
  rw [Heap.linkIn, firstAddress_patch, firstAddress_patch, firstAddress_setMember,
    firstAddress_setMember, firstAddress_setMember hp]
  · exact hp
  · exact hp
  · exact hprev
  · simpa [NullOrAfter] using hnext

/-- The members after linking in, seen from a block that is apart from, or one
of, the three that are written. -/
theorem field_linkIn (h : Heap) (size : UDword) (hq : 12 ≤ q.toNat) (hp : p = q ∨ Apart p q)
    (hprev : previous = 0 ∨ previous = q ∨ Apart previous q)
    (hnext : next = 0 ∨ next = q ∨ Apart next q) (g : BlockMember) :
    (h.linkIn p size previous next).field g q =
      if q = next ∧ g = .previous then p else
      if q = previous ∧ g = .next then p else
      if q = p ∧ g = .next then next else
      if q = p ∧ g = .previous then previous else
      if q = p ∧ g = .size then size else h.field g q := by
  rw [Heap.linkIn, field_patch hq hnext, field_patch hq hprev, field_setMember hq hp,
    field_setMember hq hp, field_setMember hq hp]

end LinkIn

namespace WellFormed
variable {h : Heap} {xs ys blocks : List Block} {b : Block} {p size : UDword}

/-- A neighbour of a gap is null or a block of the list. -/
theorem nullOrAfter (hw : WellFormed h blocks) (hp : p = 0 ∨ p ∈ addrs blocks) :
    NullOrAfter h p :=
  hp.imp_right hw.ge_of_mem_addrs

/-- A neighbour of a gap is null or in the heap. -/
theorem nullOrIn (hw : WellFormed h blocks) (hp : p = 0 ∨ p ∈ addrs blocks) :
    p = 0 ∨ MushOS.isInHeap h p = true :=
  hp.imp_right hw.isInHeap

/-- The block before a gap is one of the list. -/
theorem last_mem (xs ys : List Block) : lastAddr xs = 0 ∨ lastAddr xs ∈ addrs (xs ++ ys) :=
  (lastAddr_eq_or_mem xs).imp_right fun h => by simp [h]

/-- So is the block after it. -/
theorem head_mem (xs ys : List Block) : headAddr ys = 0 ∨ headAddr ys ∈ addrs (xs ++ ys) :=
  (headAddr_eq_or_mem ys).imp_right fun h => by simp [h]

end WellFormed

/-- The bytes of a block header are metadata. -/
theorem header_subset_metadata {header p : UDword} {blocks : List Block}
    (hp : p ∈ addrs blocks) : span (p.toNat - 12) 12 ⊆ metadata header blocks := by
  rcases List.mem_map.mp hp with ⟨b, hb, rfl⟩
  exact fun a ha => Or.inr ⟨b, hb, ha⟩

/-- `first_address` follows when the new block is the first one. -/
def Heap.linkFirst (h : Heap) (xs : List Block) (p : UDword) : Heap :=
  if xs = [] then h.setFirstAddress p else h

/-- Linking a block into a gap of a well-formed heap. -/
theorem WellFormed.linkIn {h : Heap} {xs ys : List Block} {p size : UDword}
    (hw : WellFormed h (xs ++ ys)) (hfree : gapStart h.heapStart.toNat xs + 12 ≤ p.toNat)
    (hfit : p.toNat + size.toNat ≤ gapStop h.heapEnd.toNat ys)
    (hend : p.toNat < h.heapEnd.toNat) :
    WellFormed ((h.linkIn p size (lastAddr xs) (headAddr ys)).linkFirst xs p)
        (xs ++ ⟨p, size⟩ :: ys) ∧
      Edits (metadata h.header (xs ++ ⟨p, size⟩ :: ys)) h
        ((h.linkIn p size (lastAddr xs) (headAddr ys)).linkFirst xs p) := by
  rcases hw.insert_order hfree hfit hend with ⟨hsorted, hinside⟩
  have hstart := hw.heapStart
  have hge : ∀ q ∈ addrs (xs ++ ⟨p, size⟩ :: ys), h.header.toNat + 24 ≤ q.toNat := by
    intro q hq
    rcases List.mem_map.mp hq with ⟨b, hb, rfl⟩
    have := (hinside b hb).1
    omega
  have hapart : ∀ q ∈ addrs (xs ++ ⟨p, size⟩ :: ys), ∀ r ∈ addrs (xs ++ ⟨p, size⟩ :: ys),
      r = q ∨ Apart r q := by
    intro q hq r hr
    refine apart_of_mem hsorted (fun b hb => ?_) hr hq
    have := hge _ (mem_addrs hb)
    omega
  have hold : ∀ q, q = 0 ∨ q ∈ addrs (xs ++ ys) →
      q = 0 ∨ q ∈ addrs (xs ++ ⟨p, size⟩ :: ys) := by
    rintro q (h | h)
    · exact Or.inl h
    · right
      rw [addrs_append, List.mem_append] at h
      rw [addrs_append, addrs_cons, List.mem_append, List.mem_cons]
      tauto
  have hpmem : p ∈ addrs (xs ++ ⟨p, size⟩ :: ys) := by simp
  have hlast := hold _ (last_mem xs ys)
  have hhead := hold _ (head_mem xs ys)
  have hp24 := hge p hpmem
  have hlastN := hw.nullOrAfter (last_mem xs ys)
  have hheadN := hw.nullOrAfter (head_mem xs ys)
  have hedits : Edits (metadata h.header (xs ++ ⟨p, size⟩ :: ys)) h
      (h.linkIn p size (lastAddr xs) (headAddr ys)) :=
    edits_linkIn hp24 hlastN hheadN (header_subset_metadata hpmem)
      (fun h0 => header_subset_metadata (hlast.resolve_left h0))
      (fun h0 => header_subset_metadata (hhead.resolve_left h0))
  have hfields : ∀ q ∈ addrs (xs ++ ⟨p, size⟩ :: ys), ∀ g, _ := fun q hq g =>
    field_linkIn h size (by have := hge q hq; omega) (hapart q hq p hpmem)
      (hlast.imp_right (hapart q hq _)) (hhead.imp_right (hapart q hq _)) g
  have hfirst1 := firstAddress_linkIn size hp24 hlastN hheadN
  have hall : Edits (metadata h.header (xs ++ ⟨p, size⟩ :: ys)) h
      ((h.linkIn p size (lastAddr xs) (headAddr ys)).linkFirst xs p) := by
    unfold Heap.linkFirst
    split
    · refine hedits.trans (edits_setFirstAddress ?_ ?_)
      · rw [hedits.bounds.header]
        omega
      · rw [hedits.bounds.header]
        exact fun a ha => Or.inl ha
    · exact hedits
  have hfield : ∀ q ∈ addrs (xs ++ ⟨p, size⟩ :: ys), ∀ g,
      ((h.linkIn p size (lastAddr xs) (headAddr ys)).linkFirst xs p).field g q =
        (h.linkIn p size (lastAddr xs) (headAddr ys)).field g q := by
    intro q hq g
    unfold Heap.linkFirst
    split
    · refine field_setFirstAddress ?_
      rw [hedits.bounds.header]
      exact hge q hq
    · rfl
  -- the new block is none of its neighbours
  have hnd := nodup_addrs hsorted
  rw [addrs_append, addrs_cons, List.nodup_middle, List.nodup_cons, List.mem_append,
    not_or] at hnd
  have hp0 : p ≠ 0 := by
    rintro rfl
    simp at hp24
  have hpl : p ≠ lastAddr xs := fun e => by
    rcases lastAddr_eq_or_mem xs with h0 | h0
    · exact hp0 (e.trans h0)
    · exact hnd.1.1 (e ▸ h0)
  have hph : p ≠ headAddr ys := fun e => by
    rcases headAddr_eq_or_mem ys with h0 | h0
    · exact hp0 (e.trans h0)
    · exact hnd.1.2 (e ▸ h0)
  refine ⟨hw.insert hfree hfit hend hall.bounds ?_ (fun q hq => ?_) (fun q hq => ?_)
    fun q hq => ?_, hall⟩
  · unfold Heap.linkFirst
    split
    · exact firstAddress_setFirstAddress
    · exact hfirst1
  · rw [hfield q hq, hfields q hq]
    simp
  · rw [hfield q hq, hfields q hq]
    by_cases hqp : q = p
    · simp [hqp, hph]
    · simp [hqp]
  · rw [hfield q hq, hfields q hq]
    by_cases hqp : q = p
    · simp [hqp, hpl]
    · simp [hqp]

/-! ## unalloc -/

namespace WellFormed
variable {h : Heap} {xs ys : List Block} {b : Block}

/-- The links of a block are its neighbours in the list. -/
theorem links (hw : WellFormed h (xs ++ b :: ys)) :
    h.field .next b.addr = headAddr ys ∧ h.field .previous b.addr = lastAddr xs := by
  have hn := hw.next
  have hp := hw.previous
  rw [addrs_append, addrs_cons] at hn hp
  exact ⟨(forward_append.mp hn).2.1, (backward_append.mp hp).2.1⟩

/-- A block is the first one when there is none before it. -/
theorem first_eq_iff (hw : WellFormed h (xs ++ b :: ys)) : b.addr = h.firstAddress ↔ xs = [] := by
  rw [hw.first]
  cases xs with
  | nil => simp
  | cons x xs =>
    have hnd := nodup_addrs hw.sorted
    simp only [List.cons_append, addrs_cons, List.nodup_cons, addrs_append] at hnd
    have hne : b.addr ≠ x.addr := fun e => hnd.1 (by simp [e])
    simp [hne]

/-- A neighbour of `b` is null or in the list without `b`. -/
theorem neighbour_ne (hw : WellFormed h (xs ++ b :: ys)) :
    b.addr ≠ headAddr ys ∧ b.addr ≠ lastAddr xs := by
  have hnd := nodup_addrs hw.sorted
  rw [addrs_append, addrs_cons, List.nodup_middle, List.nodup_cons, List.mem_append,
    not_or] at hnd
  have h0 : b.addr ≠ 0 := hw.ne_zero (by simp)
  constructor
  · intro e
    rcases headAddr_eq_or_mem ys with h | h
    · exact h0 (e.trans h)
    · exact hnd.1.2 (e ▸ h)
  · intro e
    rcases lastAddr_eq_or_mem xs with h | h
    · exact h0 (e.trans h)
    · exact hnd.1.1 (e ▸ h)

/-- **Freeing a live block** unlinks it and edits metadata only. -/
theorem unalloc (hw : WellFormed h (xs ++ b :: ys)) :
    ∃ h', MushOS.unalloc b.addr h = .ok h' ∧ WellFormed h' (xs ++ ys) ∧
      Edits (metadata h.header (xs ++ b :: ys)) h h' := by
  have hmem : ∀ q, q ∈ addrs (xs ++ ys) → q ∈ addrs (xs ++ b :: ys) := by
    intro q hq
    rw [addrs_append, List.mem_append] at hq
    rw [addrs_append, addrs_cons, List.mem_append, List.mem_cons]
    tauto
  have hlast := (last_mem xs ys).imp_right (hmem _)
  have hhead := (head_mem xs ys).imp_right (hmem _)
  have hbmem : b.addr ∈ addrs (xs ++ b :: ys) := by simp
  have hb24 := hw.ge_of_mem_addrs hbmem
  have hne := hw.neighbour_ne
  have hlt := hw.header_lt
  rcases hw.links with ⟨hbn, hbp⟩
  -- first_address
  obtain ⟨h1, hh1⟩ : ∃ h1, h1 = if b.addr = h.firstAddress then
      h.setFirstAddress (h.field .next b.addr) else h := ⟨_, rfl⟩
  have he1 : Edits (metadata h.header (xs ++ b :: ys)) h h1 := by
    rw [hh1]
    split
    · exact edits_setFirstAddress (by omega) fun a ha => Or.inl ha
    · exact Edits.refl _ h
  have hf1 : ∀ q ∈ addrs (xs ++ b :: ys), ∀ g, h1.field g q = h.field g q := by
    intro q hq g
    rw [hh1]
    split
    · exact field_setFirstAddress (hw.ge_of_mem_addrs hq)
    · rfl
  have hfirst1 : h1.firstAddress = if xs = [] then headAddr ys else h.firstAddress := by
    rw [hh1]
    by_cases hx : xs = []
    · rw [if_pos (hw.first_eq_iff.mpr hx), firstAddress_setFirstAddress, hbn, if_pos hx]
    · rw [if_neg (fun e => hx (hw.first_eq_iff.mp e)), if_neg hx]
  -- the neighbours
  have hlast1 : NullOrAfter h1 (lastAddr xs) := by
    rw [NullOrAfter, he1.bounds.header]
    exact hw.nullOrAfter hlast
  have hhead1 : NullOrAfter h1 (headAddr ys) := by
    rw [NullOrAfter, he1.bounds.header]
    exact hw.nullOrAfter hhead
  obtain ⟨h2, hh2⟩ : ∃ h2, h2 = h1.patch (headAddr ys) .previous (lastAddr xs) := ⟨_, rfl⟩
  have he2 : Edits (metadata h.header (xs ++ b :: ys)) h1 h2 := hh2 ▸
    edits_patch hhead1 fun h0 => header_subset_metadata (hhead.resolve_left h0)
  have hlast2 : NullOrAfter h2 (lastAddr xs) := by
    rwa [NullOrAfter, he2.bounds.header]
  have hf2 : ∀ q ∈ addrs (xs ++ b :: ys), ∀ g, h2.field g q =
      if q = headAddr ys ∧ g = .previous then lastAddr xs else h.field g q := by
    intro q hq g
    have := hw.ge_of_mem_addrs hq
    rw [hh2, field_patch (by omega) (hhead.imp_right fun hm => hw.apart hm hq), hf1 q hq]
  obtain ⟨h3, hh3⟩ : ∃ h3, h3 = h2.patch (lastAddr xs) .next (headAddr ys) := ⟨_, rfl⟩
  have he3 : Edits (metadata h.header (xs ++ b :: ys)) h2 h3 := hh3 ▸
    edits_patch hlast2 fun h0 => header_subset_metadata (hlast.resolve_left h0)
  have hall := (he1.trans he2).trans he3
  have hf3 : ∀ q ∈ addrs (xs ++ b :: ys), ∀ g, h3.field g q =
      if q = lastAddr xs ∧ g = .next then headAddr ys else
      if q = headAddr ys ∧ g = .previous then lastAddr xs else h.field g q := by
    intro q hq g
    have := hw.ge_of_mem_addrs hq
    rw [hh3, field_patch (by omega) (hlast.imp_right fun hm => hw.apart hm hq), hf2 q hq]
  refine ⟨h3, ?_, hw.remove hall.bounds ?_ (fun q hq => ?_) (fun q hq => ?_)
    fun q hq => ?_, hall⟩
  · -- the code reads the links back from the block it frees
    have hn1 : h1.member (b.addr - sizeofHeapBlockHeader) .next = headAddr ys :=
      (hf1 _ hbmem .next).trans hbn
    have hp1 : h1.member (b.addr - sizeofHeapBlockHeader) .previous = lastAddr xs :=
      (hf1 _ hbmem .previous).trans hbp
    have hn2 : h2.member (b.addr - sizeofHeapBlockHeader) .next = headAddr ys := by
      refine (hf2 _ hbmem .next).trans ?_
      simp [hbn]
    have hp2 : h2.member (b.addr - sizeofHeapBlockHeader) .previous = lastAddr xs := by
      refine (hf2 _ hbmem .previous).trans ?_
      simp [hne.1, hbp]
    have hin1 := (hw.nullOrIn hhead).imp_right fun h => he1.bounds.isInHeap.trans h
    have hin2 := (hw.nullOrIn hlast).imp_right fun h =>
      (he1.trans he2).bounds.isInHeap.trans h
    simp only [MushOS.unalloc, getHeader_ok (hw.isInHeap hbmem)]
    show (setIfPresent _ _ _ _ >>= _) = _
    rw [show h.member (b.addr - sizeofHeapBlockHeader) .next = h.field .next b.addr from rfl,
      ← hh1, hn1, hp1, setIfPresent_eq hin1, ← hh2]
    show setIfPresent _ _ _ _ = _
    rw [hn2, hp2, setIfPresent_eq hin2, ← hh3]
  · have hfp : h3.firstAddress = h1.firstAddress := by
      rw [hh3, firstAddress_patch hlast2, hh2, firstAddress_patch hhead1]
    rw [hfp, hfirst1]
  · rw [hf3 q (hmem q hq)]
    simp
  · rw [hf3 q (hmem q hq)]
    simp
  · rw [hf3 q (hmem q hq)]
    simp

end WellFormed

end MushOS
