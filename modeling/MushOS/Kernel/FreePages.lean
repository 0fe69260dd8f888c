import MushOS.Kernel.CloneEntries
import MushOS.Kernel.FrameRelease

/-! # pages.c: giving a directory back

`free_frame` and `free_page_table` turn an address back into the number of a bit without
dividing it by the size of a page. What they clear is therefore the lowest bit of a byte
512 bytes further on for each page, which is a byte of the bitmap for the first page only;
behind it lies whatever the heap has there, as a rule the other bitmap. An entry that is
absent is given back as a table in page 0, far outside the heap.

So `free_page_table` undoes `clone_directory` only if there is nothing to give back but
the directory itself, in slot 0, and every other bit it clears is already clear
(`freeClone_undoes_iff`).
-/

namespace MushOS

open ByteMemory Loop

/-! ## Model -/

namespace InMemory

/-- `pool[index / 8] &= ~(0x1 << (index % 8))`, wherever that byte is. -/
def clearBit (pool index : UDword) (h : Heap) : Heap :=
  let a := pool + index / 8
  { h with mem := h.mem.write8 a (h.mem.read8 a &&& ~~~(1#8 <<< (index % 8).toNat)) }

/-- The body of `free_page_table`; `freeContents` is the call its loop makes. -/
def freeFolder (pagingPool : UDword) (freeContents : UDword → Heap → Heap) (table : UDword)
    (h : Heap) : Heap :=
  loop (fun i h => freeContents (getContentsAsPage (h.mem.entry table i)) h) pagesInTable
    (clearBit pagingPool (table - pagingPoolStart) h)

def freePageTable (pools : PoolPointers) (table : UDword) (topLevel : Bool) (h : Heap) : Heap :=
  let freeTable := freeFolder pools.pagingPool (freeFrame pools.userSpacePool)
  if topLevel then freeFolder pools.pagingPool freeTable table h else freeTable table h

/-- `free_page_table(clone_directory(src), true)`, with the writes of the former watched. -/
def freeClone (pools : PoolPointers) (src : UDword) (h : Heap) : Except Fault Heap := do
  let (dir, h) ← cloneDirectory pools src h
  return freePageTable pools dir true { h with mem := h.mem.watch }

end InMemory

/-- Freeing the clone undoes the cloning: both bitmaps are as before, and no byte outside of
them has been written. -/
def UndoesClone (pools : PoolPointers) (src : UDword) (h : Heap) : Prop :=
  ∃ h', InMemory.freeClone pools src h = .ok h' ∧
    (∀ a ∈ pools.bitmaps, h'.mem.bytes a = h.mem.bytes a) ∧
      ∀ a ∈ h'.mem.written, a ∈ pools.bitmaps

/-- The byte `free_page_table` writes for a folder. -/
def folderByte (pools : PoolPointers) (table : UDword) : UDword :=
  pools.pagingPool + (table - pagingPoolStart) / 8

/-- The byte `free_frame` writes. -/
def frameByte (pools : PoolPointers) (address : UDword) : UDword :=
  pools.userSpacePool + (address - userSpaceStart) / 8

/-- A byte of a bitmap whose lowest bit is clear anyway. -/
def Harmless (pools : PoolPointers) (m : Mem) (a : UDword) : Prop :=
  a ∈ pools.bitmaps ∧ (m.bytes a).getLsbD 0 = false

/-- A clone of `src` is a folder in slot 0 with the 1024 tables of `src`, and giving these
and all their entries back clears no bit. -/
structure Undoable (pools : PoolPointers) (m : Mem) (src : UDword) : Prop where
  slotZero : FolderIs false pools m 0x100
  shared : ∀ i < 1024, (m.entry src i).present = true ∧ isCloned m (m.entry src i) = false
  tables : ∀ i < 1024, Harmless pools m (folderByte pools (getContentsAsPage (m.entry src i)))
  frames : ∀ i < 1024, ∀ j < 1024, Harmless pools m (frameByte pools
    (getContentsAsPage (m.entry (getContentsAsPage (m.entry src i)) j)))

/-! ## Clearing the lowest bit of bytes -/

/-- From `m` to `m'` some bytes of `S` have been written, each to have its lowest bit clear. -/
def ClearsIn (S : Set UDword) (m m' : Mem) : Prop :=
  ∃ as : List UDword, (∀ a ∈ as, a ∈ S) ∧ m'.written = as ++ m.written ∧
    ∀ a, m'.bytes a = if a ∈ as then m.bytes a &&& 0xfe else m.bytes a

theorem getLsbD_and_fe (x : UByte) {b : ℕ} (hb : b < 8) :
    (x &&& 0xfe).getLsbD b = (decide (b ≠ 0) && x.getLsbD b) := by
  have hmask : ∀ b < 8, (0xfe : UByte).getLsbD b = decide (b ≠ 0) := by decide
  rw [BitVec.getLsbD_and, hmask b hb, Bool.and_comm]

theorem and_fe_of_clear {x : UByte} (hx : x.getLsbD 0 = false) : x &&& 0xfe = x := by
  apply BitVec.eq_of_getLsbD_eq
  intro b hb
  rw [getLsbD_and_fe x hb]
  by_cases h0 : b = 0
  · rw [h0, hx, Bool.and_false]
  · rw [decide_eq_true h0, Bool.true_and]

namespace ClearsIn
variable {S T : Set UDword} {m m₁ m' : Mem} {a : UDword}

theorem refl (S : Set UDword) (m : Mem) : ClearsIn S m m :=
  ⟨[], fun _ ha => absurd ha List.not_mem_nil, rfl, fun _ => rfl⟩

theorem mono (h : ClearsIn S m m') (hsub : S ⊆ T) : ClearsIn T m m' := by
  rcases h with ⟨as, has, hwritten, hbytes⟩
  exact ⟨as, fun a ha => hsub (has a ha), hwritten, hbytes⟩

theorem trans (h : ClearsIn S m m₁) (h' : ClearsIn S m₁ m') : ClearsIn S m m' := by
  rcases h with ⟨as, has, hwritten, hbytes⟩
  rcases h' with ⟨bs, hbs, hwritten', hbytes'⟩
  refine ⟨bs ++ as, ?_, ?_, ?_⟩
  · intro a ha
    rcases List.mem_append.mp ha with hb | ha
    · exact hbs a hb
    · exact has a ha
  · rw [hwritten', hwritten, List.append_assoc]
  · intro a
    rw [hbytes', hbytes]
    by_cases ha : a ∈ as
    · by_cases hb : a ∈ bs
      · simp [ha, hb, BitVec.and_assoc]
      · simp [ha, hb]
    · simp [ha]

theorem written (h : ClearsIn S m m') (ha : a ∈ m.written) : a ∈ m'.written := by
  rcases h with ⟨as, -, hwritten, -⟩
  rw [hwritten]
  exact List.mem_append_right _ ha

/-- What has been written is in `S`. -/
theorem inside (h : ClearsIn S m m') (hm : m.written = []) (ha : a ∈ m'.written) : a ∈ S := by
  rcases h with ⟨as, has, hwritten, -⟩
  rw [hwritten, hm, List.append_nil] at ha
  exact has a ha

/-- A byte that has not been written. -/
theorem bytes_of_not_mem (h : ClearsIn S m m') (ha : a ∉ S) : m'.bytes a = m.bytes a := by
  rcases h with ⟨as, has, -, hbytes⟩
  rw [hbytes, if_neg fun hmem => ha (has a hmem)]

theorem bytes_of_not_written (h : ClearsIn S m m') (ha : a ∉ m'.written) :
    m'.bytes a = m.bytes a := by
  rcases h with ⟨as, -, hwritten, hbytes⟩
  rw [hbytes, if_neg fun hmem => ha (by rw [hwritten]; exact List.mem_append_left _ hmem)]

/-- A byte that has. -/
theorem bytes_of_written (h : ClearsIn S m m') (hm : m.written = []) (ha : a ∈ m'.written) :
    m'.bytes a = m.bytes a &&& 0xfe := by
  rcases h with ⟨as, -, hwritten, hbytes⟩
  rw [hwritten, hm, List.append_nil] at ha
  rw [hbytes, if_pos ha]

end ClearsIn

/-! ## What is cleared -/

section Bytes
variable {pools : PoolPointers} {S : Set UDword} {h : Heap} {pool index : UDword} {k : ℕ}

/-- The number of the bit is a multiple of eight. -/
theorem clearsIn_clearBit (hindex : index.toNat % 8 = 0) (ha : pool + index / 8 ∈ S) :
    ClearsIn S h.mem (InMemory.clearBit pool index h).mem := by
  have hbit : (index % 8).toNat = 0 := hindex
  refine ⟨[pool + index / 8], ?_, rfl, ?_⟩
  · intro a hmem
    rw [List.mem_singleton.mp hmem]
    exact ha
  · intro a
    unfold InMemory.clearBit
    rw [hbit]
    by_cases heq : a = pool + index / 8
    · rw [if_pos (List.mem_singleton.mpr heq), heq]
      exact Mem.write8_bytes_self _ _ _
    · rw [if_neg fun hmem => heq (List.mem_singleton.mp hmem)]
      exact Mem.write8_bytes_ne _ _ heq

theorem index_folder (hk : k < 2 ^ 20) :
    (pageStart k - pagingPoolStart).toNat = (k * 4096 + (2 ^ 32 - 0x100000)) % 2 ^ 32 := by
  have hstart : pagingPoolStart.toNat = 0x100000 := rfl
  rw [BitVec.toNat_sub, toNat_pageStart hk, hstart]
  omega

theorem index_frame (hk : k < 2 ^ 20) :
    (pageStart k - userSpaceStart).toNat = (k * 4096 + (2 ^ 32 - 0x1000000)) % 2 ^ 32 := by
  have hstart : userSpaceStart.toNat = 0x1000000 := rfl
  rw [BitVec.toNat_sub, toNat_pageStart hk, hstart]
  omega

/-- For a folder of the paging pool the byte is 512 bytes further for each slot. -/
theorem toNat_folderByte (hpool : pools.pagingPool.toNat < 0x100000) (hlow : 0x100 ≤ k)
    (hk : k < 2 ^ 20) :
    (folderByte pools (pageStart k)).toNat = pools.pagingPool.toNat + 512 * (k - 0x100) := by
  have hindex := index_folder hk
  unfold folderByte
  rw [BitVec.toNat_add, BitVec.toNat_udiv, hindex, show (8 : UDword).toNat = 8 from rfl]
  omega

/-- For a page below it the byte is outside of the heap. -/
theorem folderByte_outside (hpool : pools.pagingPool.toNat < 0x100000) (hk : k < 0x100) :
    folderByte pools (pageStart k) ∉ heapRegion := by
  have hindex := index_folder (k := k) (by omega)
  unfold folderByte
  rw [mem_heapRegion, BitVec.toNat_add, BitVec.toNat_udiv, hindex,
    show (8 : UDword).toNat = 8 from rfl]
  omega

/-- For a frame the byte is not before the bitmap, or outside of the heap. -/
theorem frameByte_ge (hpool : pools.userSpacePool.toNat < 0x100000) (hk : k < 2 ^ 20) :
    pools.userSpacePool.toNat ≤ (frameByte pools (pageStart k)).toNat := by
  have hindex := index_frame hk
  unfold frameByte
  rw [BitVec.toNat_add, BitVec.toNat_udiv, hindex, show (8 : UDword).toNat = 8 from rfl]
  omega

theorem index_folder_mod (hk : k < 2 ^ 20) : (pageStart k - pagingPoolStart).toNat % 8 = 0 := by
  rw [index_folder hk]
  omega

theorem index_frame_mod (hk : k < 2 ^ 20) : (pageStart k - userSpaceStart).toNat % 8 = 0 := by
  rw [index_frame hk]
  omega

end Bytes

/-! ## The tree that is given back -/

/-- The bytes `free_page_table(dir, true)` writes, when the folders are as in `m`. -/
def freedBytes (pools : PoolPointers) (m : Mem) (dir : UDword) : Set UDword :=
  {a | a = folderByte pools dir ∨ ∃ i < 1024,
    a = folderByte pools (getContentsAsPage (m.entry dir i)) ∨ ∃ j < 1024, a = frameByte pools
      (getContentsAsPage (m.entry (getContentsAsPage (m.entry dir i)) j))}

section Freeing
variable {pools : PoolPointers} {blocks : List Block} {S : Set UDword} {h h' : Heap}
  {pagingPool table : UDword} {freeContents : UDword → Heap → Heap} {k i d : ℕ}

theorem clearsIn_freeFrame (hk : k < 2 ^ 20) (ha : frameByte pools (pageStart k) ∈ S) :
    ClearsIn S h.mem (InMemory.freeFrame pools.userSpacePool (pageStart k) h).mem :=
  clearsIn_clearBit (index_frame_mod hk) ha

/-- The loop of `free_page_table`, when every call it makes stays in `S`. -/
theorem clearsIn_freeFolder (hk : k < 2 ^ 20) (ha : folderByte pools (pageStart k) ∈ S)
    (hcalls : ∀ i < 1024, ∀ h', ClearsIn S h.mem h'.mem →
      ClearsIn S h'.mem (freeContents (getContentsAsPage (h'.mem.entry (pageStart k) i)) h').mem) :
    ClearsIn S h.mem
      (InMemory.freeFolder pools.pagingPool freeContents (pageStart k) h).mem := by
  refine loop_induction (P := fun _ (h' : Heap) => ClearsIn S h.mem h'.mem)
    (clearsIn_clearBit (index_folder_mod hk) ha) ?_
  intro i h' hi hc
  exact hc.trans (hcalls i hi h' hc)

theorem clearsIn_univ_freeFrame (pools : PoolPointers) (k : ℕ) (hk : k < 2 ^ 20) (h : Heap) :
    ClearsIn Set.univ h.mem (InMemory.freeFrame pools.userSpacePool (pageStart k) h).mem :=
  clearsIn_freeFrame hk (Set.mem_univ _)

theorem clearsIn_univ_freeFolder (pools : PoolPointers)
    (hcalls : ∀ k < 2 ^ 20, ∀ h, ClearsIn Set.univ h.mem (freeContents (pageStart k) h).mem)
    (k : ℕ) (hk : k < 2 ^ 20) (h : Heap) : ClearsIn Set.univ h.mem
      (InMemory.freeFolder pools.pagingPool freeContents (pageStart k) h).mem := by
  refine clearsIn_freeFolder hk (Set.mem_univ _) ?_
  intro i _ h' _
  rw [getContentsAsPage_eq]
  exact hcalls _ (frame_lt _) h'

/-- The byte of the folder itself is written. -/
theorem folderByte_written (pools : PoolPointers)
    (hcalls : ∀ k < 2 ^ 20, ∀ h, ClearsIn Set.univ h.mem (freeContents (pageStart k) h).mem)
    (k : ℕ) (h : Heap) : folderByte pools (pageStart k) ∈
      (InMemory.freeFolder pools.pagingPool freeContents (pageStart k) h).mem.written := by
  refine loop_induction (P := fun _ (h' : Heap) => folderByte pools (pageStart k) ∈ h'.mem.written)
    List.mem_cons_self ?_
  intro i h' _ hmem
  rw [getContentsAsPage_eq]
  exact (hcalls _ (frame_lt _) h').written hmem

/-- Each call of the loop, between what comes before it and what comes after. -/
theorem freeFolder_passes (pools : PoolPointers)
    (hcalls : ∀ k < 2 ^ 20, ∀ h, ClearsIn Set.univ h.mem (freeContents (pageStart k) h).mem)
    (hk : k < 2 ^ 20) (h : Heap) (hi : i < 1024) : ∃ h', ClearsIn Set.univ h.mem h'.mem ∧
      ClearsIn Set.univ (freeContents (getContentsAsPage (h'.mem.entry (pageStart k) i)) h').mem
        (InMemory.freeFolder pools.pagingPool freeContents (pageStart k) h).mem := by
  rcases loop_passes
    (R := fun h h' : Heap => ClearsIn Set.univ h.mem h'.mem) (fun _ => ClearsIn.refl _ _)
    (fun _ _ _ => ClearsIn.trans) (n := pagesInTable)
    (f := fun i h => freeContents (getContentsAsPage (h.mem.entry (pageStart k) i)) h)
    (by
      intro i h' _
      rw [getContentsAsPage_eq]
      exact hcalls _ (frame_lt _) h')
    (InMemory.clearBit pools.pagingPool (pageStart k - pagingPoolStart) h) hi with
    ⟨h', hbefore, hafter⟩
  exact ⟨h', (clearsIn_clearBit (index_folder_mod hk) (Set.mem_univ _)).trans hbefore, hafter⟩

/-- While only bytes in the region of the heap are written, folders outside read as before. -/
theorem entry_of_written (hc : ClearsIn Set.univ h.mem h'.mem)
    (hinside : ∀ a ∈ h'.mem.written, a ∈ heapRegion) (hk : k < 2 ^ 20) (hout : OutsideHeap k)
    (hi : i < 1024) : h'.mem.entry (pageStart k) i = h.mem.entry (pageStart k) i := by
  refine entry_samePage (fun o ho => ?_) hk hk hi
  exact hc.bytes_of_not_written fun hmem =>
    hout.not_mem (pageOf_pageByte hk ho) (hinside _ hmem)

theorem entry_of_clearsIn (hc : ClearsIn S h.mem h'.mem) (hS : S ⊆ heapRegion) (hk : k < 2 ^ 20)
    (hout : OutsideHeap k) (hi : i < 1024) :
    h'.mem.entry (pageStart k) i = h.mem.entry (pageStart k) i := by
  refine entry_samePage (fun o ho => ?_) hk hk hi
  exact hc.bytes_of_not_mem fun hmem => hout.not_mem (pageOf_pageByte hk ho) (hS hmem)

/-- If all that is written lies in the region of the heap, then these bytes are written. -/
theorem freedBytes_written (pools : PoolPointers) (hd : d < 2 ^ 20) (hout : OutsideHeap d)
    (htables : ∀ i < 1024, OutsideHeap (h.mem.entry (pageStart d) i).frame.toNat)
    (hinside : ∀ a ∈ (InMemory.freePageTable pools (pageStart d) true h).mem.written,
      a ∈ heapRegion) :
    ∀ a ∈ freedBytes pools h.mem (pageStart d),
      a ∈ (InMemory.freePageTable pools (pageStart d) true h).mem.written := by
  have hframes := clearsIn_univ_freeFrame pools
  have hfolders := clearsIn_univ_freeFolder pools hframes
  obtain ⟨h', hfinal⟩ : ∃ h', InMemory.freePageTable pools (pageStart d) true h = h' := ⟨_, rfl⟩
  have hdef := hfinal
  unfold InMemory.freePageTable at hdef
  rw [if_pos rfl] at hdef
  rw [hfinal] at hinside ⊢
  rintro a (rfl | ⟨i, hi, hcase⟩)
  · rw [← hdef]
    exact folderByte_written pools hfolders d h
  · rcases freeFolder_passes pools hfolders hd h hi with ⟨h₁, hbefore, hafter⟩
    rw [hdef] at hafter
    -- entry `i` of the directory is still there when its turn comes
    have hentry : h₁.mem.entry (pageStart d) i = h.mem.entry (pageStart d) i := by
      refine entry_of_written hbefore (fun a ha => hinside a (hafter.written ?_)) hd hout hi
      rw [getContentsAsPage_eq]
      exact (hfolders _ (frame_lt _) h₁).written ha
    obtain ⟨e, he⟩ : ∃ e, h.mem.entry (pageStart d) i = e := ⟨_, rfl⟩
    have htable := htables i hi
    rw [hentry, he, getContentsAsPage_eq] at hafter
    rw [he, getContentsAsPage_eq] at hcase
    rw [he] at htable
    rcases hcase with rfl | ⟨j, hj, rfl⟩
    · exact hafter.written (folderByte_written pools hframes _ _)
    · rcases freeFolder_passes pools hframes (frame_lt e) h₁ hj with ⟨h₂, hbefore₂, hafter₂⟩
      have hall := hafter₂.trans hafter
      have hentry₂ : h₂.mem.entry (pageStart e.frame.toNat) j =
          h.mem.entry (pageStart e.frame.toNat) j := by
        refine entry_of_written (hbefore.trans hbefore₂)
          (fun a ha => hinside a (hall.written ?_)) (frame_lt e) htable hj
        rw [getContentsAsPage_eq]
        exact (hframes _ (frame_lt _) h₂).written ha
      rw [hentry₂] at hall
      exact hall.written List.mem_cons_self

/-- If these bytes lie in the region of the heap, then no other is written. -/
theorem clearsIn_freedBytes (pools : PoolPointers) (hd : d < 2 ^ 20) (hout : OutsideHeap d)
    (htables : ∀ i < 1024, OutsideHeap (h.mem.entry (pageStart d) i).frame.toNat)
    (hregion : freedBytes pools h.mem (pageStart d) ⊆ heapRegion) :
    ClearsIn (freedBytes pools h.mem (pageStart d)) h.mem
      (InMemory.freePageTable pools (pageStart d) true h).mem := by
  unfold InMemory.freePageTable
  rw [if_pos rfl]
  refine clearsIn_freeFolder hd (Or.inl rfl) ?_
  intro i hi h₁ hc
  rw [entry_of_clearsIn hc hregion hd hout hi, getContentsAsPage_eq]
  refine clearsIn_freeFolder (frame_lt _) ?_ ?_
  · refine Or.inr ⟨i, hi, Or.inl ?_⟩
    rw [getContentsAsPage_eq]
  · intro j hj h₂ hc₂
    rw [entry_of_clearsIn (hc.trans hc₂) hregion (frame_lt _) (htables i hi) hj]
    rw [getContentsAsPage_eq]
    refine clearsIn_freeFrame (frame_lt _) (Or.inr ⟨i, hi, Or.inr ⟨j, hj, ?_⟩⟩)
    rw [getContentsAsPage_eq, getContentsAsPage_eq]

end Freeing

/-! ## Freeing a clone -/

section FreeClone
variable {pools : PoolPointers} {blocks : List Block} {h h₁ h' : Heap} {src a : UDword}
  {d i k : ℕ}

/-- Undoing a clone, in terms of the bytes that giving it back writes. -/
theorem undoesClone_iff (hp : HoldsPools pools blocks h)
    (hok : InMemory.cloneDirectory pools src h = .ok (pageStart d, h')) (hd : d < 2 ^ 20)
    (hout : OutsideHeap d)
    (htables : ∀ i < 1024, OutsideHeap (h'.mem.entry (pageStart d) i).frame.toNat) :
    UndoesClone pools src h ↔ freedBytes pools h'.mem (pageStart d) ⊆ pools.bitmaps ∧
      ∀ a ∈ pools.bitmaps,
        (a ∈ freedBytes pools h'.mem (pageStart d) → h'.mem.bytes a &&& 0xfe = h.mem.bytes a) ∧
        (a ∉ freedBytes pools h'.mem (pageStart d) → h'.mem.bytes a = h.mem.bytes a) := by
  obtain ⟨g, hg⟩ : ∃ g, InMemory.freePageTable pools (pageStart d) true
    { h' with mem := h'.mem.watch } = g := ⟨_, rfl⟩
  have hfree : InMemory.freeClone pools src h = .ok g := by
    unfold InMemory.freeClone
    rw [hok, ← hg]
    rfl
  have hwritten := freedBytes_written pools (h := { h' with mem := h'.mem.watch }) hd
    hout htables
  have hclears := clearsIn_freedBytes pools (h := { h' with mem := h'.mem.watch }) hd
    hout htables
  rw [hg] at hwritten hclears
  -- the bitmaps are in the heap, and no folder is
  have hregion : ∀ a ∈ pools.bitmaps, a ∈ heapRegion := fun a ha => hp.bitmaps_region ha
  unfold UndoesClone
  constructor
  · -- what has been written is inside, so each byte freed is one of a bitmap
    rintro ⟨g', hg', hbytes, hinside⟩
    obtain rfl : g = g' := Except.ok.inj (hfree.symm.trans hg')
    have hall := hwritten fun a ha => hregion a (hinside a ha)
    have hsub : freedBytes pools h'.mem (pageStart d) ⊆ pools.bitmaps :=
      fun a ha => hinside a (hall a ha)
    have hc := hclears fun a ha => hregion a (hsub ha)
    refine ⟨hsub, fun a ha => ⟨fun hmem => ?_, fun hmem => ?_⟩⟩
    · rw [← hbytes a ha]
      exact (hc.bytes_of_written rfl (hall a hmem)).symm
    · rw [← hbytes a ha]
      exact (hc.bytes_of_not_mem hmem).symm
  · rintro ⟨hsub, hbytes⟩
    have hc := hclears fun a ha => hregion a (hsub ha)
    have hinside : ∀ a ∈ g.mem.written, a ∈ freedBytes pools h'.mem (pageStart d) :=
      fun a ha => hc.inside rfl ha
    refine ⟨g, hfree, fun a ha => ?_, fun a ha => hsub (hinside a ha)⟩
    rcases hbytes a ha with ⟨hfreed, hothers⟩
    -- a byte freed loses its lowest bit, any other is as after the clone
    by_cases hmem : a ∈ freedBytes pools h'.mem (pageStart d)
    · rw [← hfreed hmem]
      exact hc.bytes_of_written rfl
        (hwritten (fun a ha => hregion a (hsub (hinside a ha))) a hmem)
    · rw [← hothers hmem]
      exact hc.bytes_of_not_mem hmem

/-- A clone in page 0 is given back outside of the heap. -/
theorem not_undoesClone_zero (hp : HoldsPools pools blocks h)
    (hok : InMemory.cloneDirectory pools src h = .ok (pageStart 0, h')) :
    ¬ UndoesClone pools src h := by
  rintro ⟨g, hg, -, hinside⟩
  have hpool := (hp.bitmaps_region (Or.inl ⟨0, by decide, rfl⟩)).2
  unfold InMemory.freeClone at hg
  rw [hok] at hg
  rcases Except.ok.inj hg with rfl
  unfold InMemory.freePageTable at hinside
  rw [if_pos rfl] at hinside
  have hmem := folderByte_written pools
    (clearsIn_univ_freeFolder pools (clearsIn_univ_freeFrame pools)) 0
    { h' with mem := h'.mem.watch }
  rw [BitVec.add_zero] at hpool
  exact folderByte_outside hpool (by decide) (hp.bitmaps_region (hinside _ hmem))

/-- The two bitmaps in the order of their blocks. -/
theorem HoldsPools.order (hp : HoldsPools pools blocks h) :
    pools.pagingPool.toNat < 0x100000 ∧ pools.userSpacePool.toNat < 0x100000 ∧
      (pools.pagingPool.toNat + 448 ≤ pools.userSpacePool.toNat ∨
        pools.userSpacePool.toNat + 7680 ≤ pools.pagingPool.toNat) := by
  have hpaging := hp.bitmaps_region (Or.inl ⟨0, by decide, rfl⟩)
  have huser := hp.bitmaps_region (Or.inr ⟨0, by decide, rfl⟩)
  rw [mem_heapRegion, BitVec.add_zero] at hpaging huser
  refine ⟨hpaging.2, huser.2, ?_⟩
  have hsizes : (BitVec.ofNat 32 pagingPoolSize).toNat = 448 ∧
      (BitVec.ofNat 32 userSpacePoolSize).toNat = 7680 := by decide
  rcases before_cases hp.heap.wellFormed.sorted hp.pagingPool hp.userSpacePool with
    heq | hbefore | hbefore
  · exact absurd heq (HoldsPools.blocks_ne pools)
  · unfold Block.Before Block.stop at hbefore
    simp only [hsizes.1] at hbefore
    omega
  · unfold Block.Before Block.stop at hbefore
    simp only [hsizes.2] at hbefore
    omega

/-- The addresses of the two bitmaps, as numbers. -/
theorem HoldsPools.mem_bitmaps (hp : HoldsPools pools blocks h) (ha : a ∈ pools.bitmaps) :
    pools.pagingPool.toNat ≤ a.toNat ∧ a.toNat < pools.pagingPool.toNat + 448 ∨
      pools.userSpacePool.toNat ≤ a.toNat ∧ a.toNat < pools.userSpacePool.toNat + 7680 := by
  rcases hp.order with ⟨hpaging, huser, -⟩
  have hsizes : pagingPoolSize = 448 ∧ userSpacePoolSize = 7680 := ⟨rfl, rfl⟩
  rcases ha with ⟨i, hi, rfl⟩ | ⟨i, hi, rfl⟩
  · left
    rw [toNat_add_ofNat (by omega)]
    omega
  · right
    rw [toNat_add_ofNat (by omega)]
    omega

/-- The entries of a clone are in the paging pool, or page 0. -/
theorem ClonesEntries.outside (hc : ClonesEntries pools src h.mem d 1024 h₁ h')
    (hsrc : SourceInUse pools h.mem src) (hi : i < 1024) :
    OutsideHeap (h'.mem.entry (pageStart d) i).frame.toNat := by
  have hentry := hc.entries i hi
  by_cases hpresent : (h.mem.entry src i).present = true
  · by_cases hcl : isCloned h.mem (h.mem.entry src i) = true
    · rcases hentry.cloned hcl with hzero | ⟨hfree, -⟩
      · exact Or.inl (by omega)
      · exact (outsideHeap_of_folder hfree).2
    · rw [Bool.not_eq_true] at hcl
      rw [hentry.shared hpresent hcl]
      exact (outsideHeap_of_folder (hsrc.tables i hi hpresent)).2
  · rw [Bool.not_eq_true] at hpresent
    have hzero : PagePointer.absent.frame.toNat = 0 := by decide
    rw [hentry.absent hpresent, hzero]
    exact Or.inl (by decide)

/-- No entry of a clone is its own directory. -/
theorem ClonesEntries.frame_ne (hc : ClonesEntries pools src h.mem d 1024 h₁ h')
    (htakes : TakesFolderOf pools d h h₁) (hsrc : SourceInUse pools h.mem src) (hi : i < 1024) :
    (h'.mem.entry (pageStart d) i).frame.toNat ≠ d := by
  have hentry := hc.entries i hi
  have hd := htakes.free.1
  by_cases hpresent : (h.mem.entry src i).present = true
  · by_cases hcl : isCloned h.mem (h.mem.entry src i) = true
    · rcases hentry.cloned hcl with hzero | ⟨hfree, -⟩
      · omega
      · exact folderIs_ne hfree htakes.taken
    · rw [Bool.not_eq_true] at hcl
      rw [hentry.shared hpresent hcl]
      exact folderIs_ne (hsrc.tables i hi hpresent) htakes.free
  · rw [Bool.not_eq_true] at hpresent
    have hzero : PagePointer.absent.frame.toNat = 0 := by decide
    rw [hentry.absent hpresent, hzero]
    omega

/-- A clone of `src` that is given back inside the bitmaps. -/
structure FreedInside (pools : PoolPointers) (blocks : List Block) (src : UDword) (d : ℕ)
    (h h₁ h' : Heap) : Prop where
  holds : HoldsPools pools blocks h
  source : SourceInUse pools h.mem src
  takes : TakesFolderOf pools d h h₁
  clones : ClonesEntries pools src h.mem d 1024 h₁ h'
  inside : freedBytes pools h'.mem (pageStart d) ⊆ pools.bitmaps

namespace FreedInside

/-- An entry whose byte is in a bitmap names a page of the paging pool, or behind it. -/
theorem frame_ge (hf : FreedInside pools blocks src d h h₁ h') (hi : i < 1024) :
    0x100 ≤ (h'.mem.entry (pageStart d) i).frame.toNat := by
  by_contra hlow
  rcases hf.holds.order with ⟨hpool, -, -⟩
  refine folderByte_outside hpool (not_le.mp hlow) (hf.holds.bitmaps_region (hf.inside ?_))
  refine Or.inr ⟨i, hi, Or.inl ?_⟩
  rw [getContentsAsPage_eq]

/-- The bitmap of the user space comes second: the bytes of the directory and of its first
entry cannot both be the first one of the bitmap of the paging pool. -/
theorem order (hf : FreedInside pools blocks src d h h₁ h') :
    pools.pagingPool.toNat + 448 ≤ pools.userSpacePool.toNat := by
  rcases hf.holds.order with ⟨hpool, -, horder | horder⟩
  · exact horder
  exfalso
  -- every byte is behind the bitmap of the user space, so only slot 0 is left
  have hzero : ∀ k < 2 ^ 20, 0x100 ≤ k → folderByte pools (pageStart k) ∈ pools.bitmaps →
      k = 0x100 := by
    intro k hk hlow hmem
    have haddr := toNat_folderByte hpool hlow hk
    have hrange := hf.holds.mem_bitmaps hmem
    omega
  have hd := hzero d (outsideHeap_of_folder hf.takes.free).1 hf.takes.free.1
      (hf.inside (Or.inl rfl))
  have hfirst := hzero _ (frame_lt (h'.mem.entry (pageStart d) 0))
    (hf.frame_ge (by decide))
    (hf.inside (Or.inr ⟨0, by decide, Or.inl (by rw [getContentsAsPage_eq])⟩))
  exact hf.clones.frame_ne hf.takes hf.source (by decide) (hfirst.trans hd.symm)

/-- Of the bitmap of the paging pool only the first byte is written. -/
theorem slot_of_freed (hf : FreedInside pools blocks src d h h₁ h') {b : ℕ} (hb : b < 448)
    (hmem : pools.pagingPool + BitVec.ofNat 32 b ∈ freedBytes pools h'.mem (pageStart d)) :
    b = 0 := by
  have horder := hf.order
  rcases hf.holds.order with ⟨hpool, huser, -⟩
  have haddr : (pools.pagingPool + BitVec.ofNat 32 b).toNat = pools.pagingPool.toNat + b :=
    toNat_add_ofNat (by omega)
  have hfolder : ∀ k < 2 ^ 20, 0x100 ≤ k →
      pools.pagingPool + BitVec.ofNat 32 b = folderByte pools (pageStart k) → b = 0 := by
    intro k hk hlow heq
    have hk' := toNat_folderByte hpool hlow hk
    rw [← heq, haddr] at hk'
    omega
  rcases hmem with heq | ⟨i, hi, heq | ⟨j, hj, heq⟩⟩
  · exact hfolder d (outsideHeap_of_folder hf.takes.free).1 hf.takes.free.1 heq
  · rw [getContentsAsPage_eq] at heq
    exact hfolder _ (frame_lt _) (hf.frame_ge hi) heq
  · rw [getContentsAsPage_eq] at heq
    have hge := frameByte_ge huser (frame_lt (h'.mem.entry
      (getContentsAsPage (h'.mem.entry (pageStart d) i)) j))
    rw [← heq, haddr] at hge
    omega

/-- Of the folders that are taken on the way, only that in slot 0 is given back. -/
theorem folder_of_restored (hf : FreedInside pools blocks src d h h₁ h')
    (hbytes : ∀ a ∈ pools.bitmaps,
      (a ∈ freedBytes pools h'.mem (pageStart d) → h'.mem.bytes a &&& 0xfe = h.mem.bytes a) ∧
      (a ∉ freedBytes pools h'.mem (pageStart d) → h'.mem.bytes a = h.mem.bytes a))
    (hfree : FolderIs false pools h.mem k) (htaken : FolderIs true pools h'.mem k) : k = 0x100 := by
  rcases hfree with ⟨hlow, hhigh, hclear⟩
  rcases htaken with ⟨-, -, hset⟩
  have hbyte : (k - 0x100) / 8 < 448 := by omega
  rcases hbytes (pools.pagingPool + BitVec.ofNat 32 ((k - 0x100) / 8))
    (Or.inl ⟨_, hbyte, rfl⟩) with ⟨hfreed, hothers⟩
  unfold Bitmap.taken bitmapOf Mem.read8 at hclear hset
  by_cases hmem : pools.pagingPool + BitVec.ofNat 32 ((k - 0x100) / 8) ∈
      freedBytes pools h'.mem (pageStart d)
  · have hzero := hf.slot_of_freed hbyte hmem
    -- it is the first byte, and a bit other than the lowest would stay set
    rw [← hfreed hmem, getLsbD_and_fe _ (Nat.mod_lt _ (by decide)), hset, Bool.and_true,
      decide_eq_false_iff_not, not_not] at hclear
    omega
  · rw [hothers hmem, hclear] at hset
    cases hset

/-- When the bitmaps are restored, what is given back is harmless. -/
theorem undoable (hf : FreedInside pools blocks src d h h₁ h')
    (hbytes : ∀ a ∈ pools.bitmaps,
      (a ∈ freedBytes pools h'.mem (pageStart d) → h'.mem.bytes a &&& 0xfe = h.mem.bytes a) ∧
      (a ∉ freedBytes pools h'.mem (pageStart d) → h'.mem.bytes a = h.mem.bytes a)) :
    Undoable pools h.mem src := by
  have hd : d = 0x100 := hf.folder_of_restored hbytes hf.takes.free
    (hf.clones.grows.taken d hf.takes.taken)
  have hshared : ∀ i < 1024, (h.mem.entry src i).present = true ∧
      isCloned h.mem (h.mem.entry src i) = false := by
    intro i hi
    have hentry := hf.clones.entries i hi
    have hge := hf.frame_ge hi
    constructor
    · -- an absent entry is given back as a table in page 0
      by_contra hpresent
      rw [Bool.not_eq_true] at hpresent
      have hzero : PagePointer.absent.frame.toNat = 0 := by decide
      rw [hentry.absent hpresent, hzero] at hge
      omega
    · -- the table of a cloned entry is in another slot than the directory
      by_contra hcl
      rw [Bool.not_eq_false] at hcl
      rcases hentry.cloned hcl with hzero | ⟨hfree, htaken⟩
      · omega
      · have hslot := hf.folder_of_restored hbytes (hf.takes.grows.free hfree) htaken
        exact folderIs_ne hfree hf.takes.taken (hslot.trans hd.symm)
  have hsame : ∀ i < 1024, h'.mem.entry (pageStart d) i = h.mem.entry src i := fun i hi =>
    (hf.clones.entries i hi).shared (hshared i hi).1 (hshared i hi).2
  have hharmless : ∀ a ∈ freedBytes pools h'.mem (pageStart d), Harmless pools h.mem a := by
    intro a ha
    refine ⟨hf.inside ha, ?_⟩
    rw [← (hbytes a (hf.inside ha)).1 ha, getLsbD_and_fe _ (by decide)]
    rfl
  refine ⟨?_, hshared, ?_, ?_⟩
  · rw [← hd]
    exact hf.takes.free
  · intro i hi
    refine hharmless _ (Or.inr ⟨i, hi, Or.inl ?_⟩)
    rw [hsame i hi]
  · intro i hi j hj
    refine hharmless _ (Or.inr ⟨i, hi, Or.inr ⟨j, hj, ?_⟩⟩)
    rw [hsame i hi, getContentsAsPage_eq (h.mem.entry src i), hf.clones.source hf.holds hf.takes
      (hf.source.tables i hi (hshared i hi).1) hj]

end FreedInside

/-- The slot a clone takes is the lowest free one. -/
theorem TakesFolderOf.eq_zero (htakes : TakesFolderOf pools d h h₁)
    (hzero : FolderIs false pools h.mem 0x100) : d = 0x100 := by
  have hlow := htakes.free.1
  by_contra hne
  have hset := htakes.lowest.below 0 (by omega)
  have hclear := hzero.2.2
  rw [Nat.sub_self, hset] at hclear
  cases hclear

/-- The bitmaps after the directory has been taken in slot 0. -/
theorem TakesFolderOf.bitmaps (htakes : TakesFolderOf pools 0x100 h h₁)
    (hp : HoldsPools pools blocks h) :
    (∀ a ∈ pools.bitmaps, a ≠ pools.pagingPool → h₁.mem.bytes a = h.mem.bytes a) ∧
      h₁.mem.bytes pools.pagingPool &&& 0xfe = h.mem.bytes pools.pagingPool := by
  have hbits := htakes.takes.bits
  have hclear := htakes.free.2.2
  constructor
  · intro a ha hne
    refine htakes.takes.writes.frame a ?_
    rintro (hbyte | hpage)
    · exact hne (by rw [hbyte]; exact BitVec.add_zero _)
    · have hout : OutsideHeap 0x100 := Or.inr (le_refl _)
      refine hp.bitmaps_not_page hout ha ?_
      unfold PagePool.cleared at hpage
      dsimp only at hpage
      rw [slotAddress_paging, toNat_pageStart (by decide), mem_span] at hpage
      unfold pageOf
      omega
  · -- bit 0 was clear and is set, the other bits of the byte are as they were
    apply BitVec.eq_of_getLsbD_eq
    intro b hb
    have hbit := hbits b (by unfold pagingPoolSize; omega)
    have hdiv : b / 8 = 0 := by omega
    have hmod : b % 8 = b := by omega
    unfold Bitmap.taken bitmapOf Mem.read8 at hbit hclear
    rw [hdiv, hmod, BitVec.add_zero] at hbit
    rw [Nat.sub_self, Nat.zero_div, Nat.zero_mod, BitVec.add_zero] at hclear
    rw [getLsbD_and_fe _ hb, hbit]
    by_cases h0 : b = 0
    · rw [h0, hclear]
      rfl
    · simp [h0]

/-- Under the condition everything that is given back is harmless, but for the directory. -/
theorem Undoable.restores (hu : Undoable pools h.mem src) (hp : HoldsPools pools blocks h)
    (hsrc : SourceInUse pools h.mem src) (htakes : TakesFolderOf pools d h h₁)
    (hc : ClonesEntries pools src h.mem d 1024 h₁ h') :
    freedBytes pools h'.mem (pageStart d) ⊆ pools.bitmaps ∧ ∀ a ∈ pools.bitmaps,
      (a ∈ freedBytes pools h'.mem (pageStart d) → h'.mem.bytes a &&& 0xfe = h.mem.bytes a) ∧
      (a ∉ freedBytes pools h'.mem (pageStart d) → h'.mem.bytes a = h.mem.bytes a) := by
  rcases htakes.eq_zero hu.slotZero with rfl
  rcases htakes.bitmaps hp with ⟨hothers, hfirst⟩
  have hbyte : folderByte pools (pageStart 0x100) = pools.pagingPool := by
    have hindex : (pageStart 0x100 - pagingPoolStart) / 8 = 0 := by decide
    unfold folderByte
    rw [hindex]
    exact BitVec.add_zero _
  have hsame : ∀ i < 1024, h'.mem.entry (pageStart 0x100) i = h.mem.entry src i := fun i hi =>
    (hc.entries i hi).shared (hu.shared i hi).1 (hu.shared i hi).2
  -- what is given back is the directory, or one of the bytes of the condition
  have hfreed : ∀ a ∈ freedBytes pools h'.mem (pageStart 0x100),
      a = pools.pagingPool ∨ Harmless pools h.mem a := by
    rintro a (heq | ⟨i, hi, heq | ⟨j, hj, heq⟩⟩)
    · exact Or.inl (heq.trans hbyte)
    · right
      rw [heq, hsame i hi]
      exact hu.tables i hi
    · right
      have hframe := hu.frames i hi j hj
      rw [getContentsAsPage_eq] at hframe
      rw [heq, hsame i hi, getContentsAsPage_eq (h.mem.entry src i),
        hc.source hp htakes (hsrc.tables i hi (hu.shared i hi).1) hj]
      exact hframe
  have hpool : pools.pagingPool ∈ pools.bitmaps :=
    Or.inl ⟨0, by decide, (BitVec.add_zero _).symm⟩
  have hkept := hc.bitmaps fun j hj => (hu.shared j hj).2
  refine ⟨?_, fun a ha => ⟨fun hmem => ?_, fun hmem => ?_⟩⟩
  · intro a ha
    rcases hfreed a ha with rfl | hharmless
    · exact hpool
    · exact hharmless.1
  · rw [hkept a ha]
    by_cases hzero : a = pools.pagingPool
    · rw [hzero]
      exact hfirst
    · rw [hothers a ha hzero]
      exact and_fe_of_clear ((hfreed a hmem).resolve_left hzero).2
  · rw [hkept a ha]
    refine hothers a ha ?_
    rintro rfl
    exact hmem (Or.inl hbyte.symm)

/-- Only under the condition is a clone undone. -/
theorem undoable_of_undoes (hp : HoldsPools pools blocks h) (hsrc : SourceInUse pools h.mem src)
    (hundoes : UndoesClone pools src h) : Undoable pools h.mem src := by
  rcases hp.cloneDirectory hsrc with ⟨d, h₁, h', hok, ⟨rfl, -⟩ | ⟨htakes, hc⟩⟩
  · exact absurd hundoes (not_undoesClone_zero hp hok)
  · rcases outsideHeap_of_folder htakes.free with ⟨hlt, hout⟩
    rw [undoesClone_iff hp hok hlt hout fun i hi => hc.outside hsrc hi] at hundoes
    rcases hundoes with ⟨hsub, hbytes⟩
    exact FreedInside.undoable ⟨hp, hsrc, htakes, hc, hsub⟩ hbytes

/-- Under the condition it is. -/
theorem undoes_of_undoable (hp : HoldsPools pools blocks h) (hsrc : SourceInUse pools h.mem src)
    (hu : Undoable pools h.mem src) : UndoesClone pools src h := by
  rcases hp.cloneDirectory hsrc with ⟨d, h₁, h', hok, ⟨-, hnone⟩ | ⟨htakes, hc⟩⟩
  · exact absurd hu.slotZero (hnone _)
  · rcases outsideHeap_of_folder htakes.free with ⟨hlt, hout⟩
    rw [undoesClone_iff hp hok hlt hout fun i hi => hc.outside hsrc hi]
    exact hu.restores hp hsrc htakes hc

/-- **When `free_page_table` undoes `clone_directory`**, for every source in use, every state
of the pools and every place of the two bitmaps in the heap. -/
theorem freeClone_undoes_iff (hp : HoldsPools pools blocks h)
    (hsrc : SourceInUse pools h.mem src) : UndoesClone pools src h ↔ Undoable pools h.mem src :=
  ⟨undoable_of_undoes hp hsrc, undoes_of_undoable hp hsrc⟩

end FreeClone

/-! ## Two directories -/

section Examples
variable {paging user : UByte} {m : Mem} {a w : UDword} {c i k : ℕ}

/-- The heap of the bitmaps with the first byte of each, and the pages of `m` behind it. -/
def heapWithPages (paging user : UByte) (m : Mem) : Heap where
  mem := ⟨fun a => if 0x100 ≤ pageOf a then m.bytes a
    else ((poolHeap.mem.write8 0x50018 paging).write8 0x501e4 user).bytes a, []⟩
  header := 0x50000
  handlers := fun _ => some .kernel
  raised := []

theorem heapWithPages_region (ha : a ∈ heapRegion) : (heapWithPages paging user m).mem.bytes a =
    ((poolHeap.mem.write8 0x50018 paging).write8 0x501e4 user).bytes a := by
  have hlow : ¬ 0x100 ≤ pageOf a := by
    rw [mem_heapRegion] at ha
    unfold pageOf
    omega
  exact if_neg hlow

/-- Its blocks are the two bitmaps. -/
theorem heapWithPages_holds (paging user : UByte) (m : Mem) :
    HoldsPools ⟨0x50018, 0x501e4⟩ poolBlocks (heapWithPages paging user m) := by
  have hb : (⟨0x50018, 448⟩ : Block) ∈ poolBlocks ∧ (⟨0x501e4, 7680⟩ : Block) ∈ poolBlocks := by
    decide
  have hbounds : poolHeap.heapStart.toNat + 36 ≤ poolHeap.heapEnd.toNat ∧
      poolHeap.heapEnd.toNat ≤ 0x100000 := by decide +kernel
  have hkernel : KernelHeap { poolHeap with handlers := fun _ => some .kernel } poolBlocks :=
    ⟨poolHeap_wellFormed.congr_mem rfl rfl, rfl, by decide, hbounds.1, hbounds.2⟩
  -- the two bytes that differ are payload
  have hcongr : WellFormed (heapWithPages paging user m) poolBlocks ∧
      SameBounds poolHeap (heapWithPages paging user m) := by
    refine poolHeap_wellFormed.congr rfl ?_
    intro a ha
    have hpaging : a ≠ 0x50018 := by
      rintro rfl
      exact poolHeap_wellFormed.payload_not_metadata hb.1 ⟨by decide, by decide⟩ ha
    have huser : a ≠ 0x501e4 := by
      rintro rfl
      exact poolHeap_wellFormed.payload_not_metadata hb.2 ⟨by decide, by decide⟩ ha
    rw [heapWithPages_region (hkernel.metadata_region ha), Mem.write8_bytes_ne _ _ huser,
      Mem.write8_bytes_ne _ _ hpaging]
  rcases hcongr with ⟨hw, hsame⟩
  refine ⟨⟨hw, rfl, hkernel.low, ?_, ?_⟩, hb.1, hb.2⟩
  · rw [hsame.heapStart, hsame.heapEnd]
    exact hbounds.1
  · rw [hsame.heapEnd]
    exact hbounds.2

/-- A byte of a bitmap is clear, but for the first one of each. -/
theorem heapWithPages_byte {b : Block} (hb : b ∈ poolBlocks) (hi : i < b.size.toNat) (h0 : i ≠ 0) :
    (heapWithPages paging user m).mem.bytes (b.addr + BitVec.ofNat 32 i) = 0 := by
  have hblocks : ∀ b ∈ poolBlocks, (b.addr = 0x50018 ∨ b.addr = 0x501e4) ∧
      b.size.toNat ≤ 7680 ∧ (b.addr = 0x50018 → b.size.toNat = 448) := by decide
  rcases hblocks b hb with ⟨haddr, hsize, hpaging⟩
  have hregion : b.addr + BitVec.ofNat 32 i ∈ heapRegion := by
    rw [mem_heapRegion]
    rcases haddr with heq | heq
    · rw [heq]
      bv_omega
    · rw [heq]
      bv_omega
  have hne : b.addr + BitVec.ofNat 32 i ≠ 0x50018 ∧ b.addr + BitVec.ofNat 32 i ≠ 0x501e4 := by
    rcases haddr with heq | heq
    · have hlt := hpaging heq
      rw [heq]
      constructor
      · bv_omega
      · bv_omega
    · rw [heq]
      constructor
      · bv_omega
      · bv_omega
  rw [heapWithPages_region hregion, Mem.write8_bytes_ne _ _ hne.2, Mem.write8_bytes_ne _ _ hne.1]
  -- all eight bits are clear
  apply BitVec.eq_of_getLsbD_eq
  intro j hj
  have hclear := poolHeap_clear hb (i * 8 + j) (by omega)
  have hdiv : (i * 8 + j) / 8 = i := by omega
  have hmod : (i * 8 + j) % 8 = j := by omega
  unfold Bitmap.taken bitmapOf Mem.read8 at hclear
  rw [hdiv, hmod] at hclear
  rw [hclear]
  exact BitVec.getLsbD_zero.symm

theorem heapWithPages_firstBytes (paging user : UByte) (m : Mem) :
    (heapWithPages paging user m).mem.bytes 0x50018 = paging ∧
    (heapWithPages paging user m).mem.bytes 0x501e4 = user := by
  constructor
  · rw [heapWithPages_region ⟨by decide, by decide⟩, Mem.write8_bytes_ne _ _ (by decide),
      Mem.write8_bytes_self]
  · rw [heapWithPages_region ⟨by decide, by decide⟩, Mem.write8_bytes_self]

/-- The slots of the first byte are as that byte says, all others are free. -/
theorem heapWithPages_taken {b : Block} {v : UByte} (hb : b ∈ poolBlocks)
    (hv : (heapWithPages paging user m).mem.bytes b.addr = v) (hc : c < b.size.toNat * 8) :
    Bitmap.taken (bitmapOf b.addr (heapWithPages paging user m).mem) c =
      if c < 8 then v.getLsbD c else false := by
  unfold Bitmap.taken bitmapOf Mem.read8
  by_cases hfirst : c < 8
  · have hdiv : c / 8 = 0 := by omega
    have hmod : c % 8 = c := by omega
    rw [if_pos hfirst, hdiv, hmod, BitVec.add_zero, hv]
  · rw [if_neg hfirst, heapWithPages_byte hb (by omega) (by omega)]
    exact BitVec.getLsbD_zero

theorem heapWithPages_folder (paging : UByte) (hlow : 0x100 ≤ k) (hk : k < 0x108) :
    FolderIs (paging.getLsbD (k - 0x100)) ⟨0x50018, 0x501e4⟩
        (heapWithPages paging user m).mem k := by
  have hbit := heapWithPages_taken (b := ⟨0x50018, 448⟩) (c := k - 0x100) (by decide)
    (heapWithPages_firstBytes paging user m).1 (by
      show k - 0x100 < 448 * 8
      omega)
  rw [if_pos (by omega)] at hbit
  exact ⟨hlow, by omega, hbit⟩

theorem heapWithPages_entry (hlow : 0x100 ≤ k) (hk : k < 2 ^ 20) (hi : i < 1024) :
    (heapWithPages paging user m).mem.entry (pageStart k) i = m.entry (pageStart k) i := by
  refine entry_samePage (fun o ho => ?_) hk hk hi
  have hpage : 0x100 ≤ pageOf (pageByte k o) := by
    rw [pageOf_pageByte hk ho]
    exact hlow
  exact if_pos hpage

/-- A page full of one word. -/
theorem entry_of_filled (hk : k < 2 ^ 20) (hi : i < 1024)
    (hfilled : ∀ o < 4096, m.bytes (pageByte k o) = w.extractLsb' (8 * (o % 4)) 8) :
    m.entry (pageStart k) i = PagePointer.decode w := by
  have hbyte : ∀ r < 4, m.bytes (entryAddress (pageStart k) i + BitVec.ofNat 32 r) =
      w.extractLsb' (8 * r) 8 := by
    intro r hr
    have haddr : entryAddress (pageStart k) i + BitVec.ofNat 32 r = pageByte k (4 * i + r) := by
      apply BitVec.eq_of_toNat_eq
      rw [toNat_pageByte hk (by omega), BitVec.toNat_add, toNat_entryAddress hk hi,
        BitVec.toNat_ofNat]
      omega
    have hmod : (4 * i + r) % 4 = r := by omega
    rw [haddr, hfilled _ (by omega), hmod]
  have h0 := hbyte 0 (by decide)
  rw [BitVec.add_zero] at h0
  have h1 : m.bytes (entryAddress (pageStart k) i + 1) = _ := hbyte 1 (by decide)
  have h2 : m.bytes (entryAddress (pageStart k) i + 2) = _ := hbyte 2 (by decide)
  have h3 : m.bytes (entryAddress (pageStart k) i + 3) = _ := hbyte 3 (by decide)
  unfold Mem.entry Mem.read32 Mem.read8
  rw [h0, h1, h2, h3]
  exact congrArg PagePointer.decode (Mem.append_bytes w)

/-- A directory in page `0x102`, all its entries for the table in page `0x101`, whose entries
are all for the second frame; none of them is for the user. -/
def sharedPages : Mem :=
  ⟨fun a => (if pageOf a = 0x102 then (0x00101003 : UDword) else 0x01001003).extractLsb'
    (8 * (a.toNat % 4)) 8, []⟩

/-- Slots 1 and 2 of the paging pool are taken, and so is the second frame. -/
def sharedHeap : Heap := heapWithPages 6 2 sharedPages

theorem sharedHeap_directory (hi : i < 1024) :
    sharedHeap.mem.entry (pageStart 0x102) i = PagePointer.decode 0x00101003 := by
  unfold sharedHeap
  rw [heapWithPages_entry (by decide) (by decide) hi]
  refine entry_of_filled (by decide) hi fun o ho => ?_
  have hmod : (pageByte 0x102 o).toNat % 4 = o % 4 := by
    rw [toNat_pageByte (by decide) ho]
    omega
  unfold sharedPages
  simp only [pageOf_pageByte (show 0x102 < 2 ^ 20 by decide) ho, if_true, hmod]

theorem sharedHeap_table (hi : i < 1024) :
    sharedHeap.mem.entry (pageStart 0x101) i = PagePointer.decode 0x01001003 := by
  unfold sharedHeap
  rw [heapWithPages_entry (by decide) (by decide) hi]
  refine entry_of_filled (by decide) hi fun o ho => ?_
  have hmod : (pageByte 0x101 o).toNat % 4 = o % 4 := by
    rw [toNat_pageByte (by decide) ho]
    omega
  have hpage : ¬ pageOf (pageByte 0x101 o) = 0x102 := by
    rw [pageOf_pageByte (by decide) ho]
    decide
  unfold sharedPages
  simp only [hpage, if_false, hmod]

theorem sharedHeap_source :
    SourceInUse ⟨0x50018, 0x501e4⟩ sharedHeap.mem (pageStart 0x102) := by
  refine ⟨by decide, ?_, fun i hi _ => ?_⟩
  · rw [pageOf_pageStart (by decide)]
    exact heapWithPages_folder 6 (by decide) (by decide)
  · rw [sharedHeap_directory hi]
    exact heapWithPages_folder 6 (k := 0x101) (by decide) (by decide)

/-- The byte of the table is one of the other bitmap, and so is that of the frame. -/
theorem sharedHeap_harmless (hi : i < 7680) (h0 : i ≠ 0) :
    Harmless ⟨0x50018, 0x501e4⟩ sharedHeap.mem (0x501e4 + BitVec.ofNat 32 i) := by
  refine ⟨Or.inr ⟨i, hi, rfl⟩, ?_⟩
  have hbyte : sharedHeap.mem.bytes (0x501e4 + BitVec.ofNat 32 i) = 0 :=
    heapWithPages_byte (b := ⟨0x501e4, 7680⟩) (by decide) hi h0
  rw [hbyte]
  decide

theorem sharedHeap_undoable :
    Undoable ⟨0x50018, 0x501e4⟩ sharedHeap.mem (pageStart 0x102) := by
  have htable : getContentsAsPage (PagePointer.decode 0x00101003) = pageStart 0x101 := by decide
  have hframe : getContentsAsPage (PagePointer.decode 0x01001003) = pageStart 0x1001 := by decide
  refine ⟨?_, fun i hi => ?_, fun i hi => ?_, fun i hi j hj => ?_⟩
  · exact heapWithPages_folder 6 (by decide) (by decide)
  · rw [sharedHeap_directory hi]
    refine ⟨by decide, ?_⟩
    have hkernel : containsUserPages (PagePointer.decode 0x00101003) sharedHeap.mem = false := by
      rw [Bool.eq_false_iff]
      intro hcontains
      rw [containsUserPages_iff] at hcontains
      rcases hcontains with ⟨j, hj, huser⟩
      rw [show (PagePointer.decode 0x00101003).frame.toNat = 0x101 by decide,
        sharedHeap_table hj] at huser
      exact absurd huser (by decide)
    unfold isCloned
    rw [hkernel]
    decide
  · rw [sharedHeap_directory hi, htable]
    exact sharedHeap_harmless (i := 0x34) (by decide) (by decide)
  · rw [sharedHeap_directory hi, htable, sharedHeap_table hj, hframe]
    exact sharedHeap_harmless (i := 0x200) (by decide) (by decide)

/-- The clone of this directory is undone: its only folder is in slot 0, and the bits cleared
besides are those of frames that are free. -/
theorem freeClone_undoes_iff_shared :
    UndoesClone ⟨0x50018, 0x501e4⟩ (pageStart 0x102) sharedHeap :=
  (freeClone_undoes_iff (heapWithPages_holds _ _ _) sharedHeap_source).mpr sharedHeap_undoable

/-- The directory with one user page, in the first two slots, with its frame taken. -/
def onePageHeap : Heap := heapWithPages 3 1 onePage

/-- Its clone is not undone, though all other slots of both pools are free. -/
theorem freeClone_leaks :
    HoldsPools ⟨0x50018, 0x501e4⟩ poolBlocks onePageHeap ∧
      SourceInUse ⟨0x50018, 0x501e4⟩ onePageHeap.mem (pageStart 0x100) ∧
      (∀ c < 3584, 2 ≤ c → Bitmap.taken (bitmapOf 0x50018 onePageHeap.mem) c = false) ∧
      (∀ c < 61440, 1 ≤ c → Bitmap.taken (bitmapOf 0x501e4 onePageHeap.mem) c = false) ∧
      ¬ UndoesClone ⟨0x50018, 0x501e4⟩ (pageStart 0x100) onePageHeap := by
  have hp : HoldsPools ⟨0x50018, 0x501e4⟩ poolBlocks onePageHeap := heapWithPages_holds 3 1 onePage
  have hdirectory : FolderIs true ⟨0x50018, 0x501e4⟩ onePageHeap.mem 0x100 :=
    heapWithPages_folder 3 (by decide) (by decide)
  have hsrc : SourceInUse ⟨0x50018, 0x501e4⟩ onePageHeap.mem (pageStart 0x100) := by
    refine ⟨by decide, ?_, fun i hi hpresent => ?_⟩
    · rw [pageOf_pageStart (by decide)]
      exact hdirectory
    · unfold onePageHeap at hpresent ⊢
      rw [heapWithPages_entry (by decide) (by decide) hi, onePage_directory hi] at hpresent ⊢
      by_cases h0 : i = 0
      · rw [if_pos h0]
        exact heapWithPages_folder 3 (k := 0x101) (by decide) (by decide)
      · rw [if_neg h0] at hpresent
        cases hpresent
  have hbytes := heapWithPages_firstBytes 3 1 onePage
  have hbits : ∀ c < 8, (2 ≤ c → (3 : UByte).getLsbD c = false) ∧
      (1 ≤ c → (1 : UByte).getLsbD c = false) := by decide
  refine ⟨hp, hsrc, fun c hc hlow => ?_, fun c hc hlow => ?_, fun hundoes => ?_⟩
  · refine (heapWithPages_taken (b := ⟨0x50018, 448⟩) (by decide) hbytes.1 hc).trans ?_
    by_cases hfirst : c < 8
    · rw [if_pos hfirst]
      exact (hbits c hfirst).1 hlow
    · rw [if_neg hfirst]
  · refine (heapWithPages_taken (b := ⟨0x501e4, 7680⟩) (by decide) hbytes.2 hc).trans ?_
    by_cases hfirst : c < 8
    · rw [if_pos hfirst]
      exact (hbits c hfirst).2 hlow
    · rw [if_neg hfirst]
  · -- the clone cannot be in slot 0, which the source itself has
    exact absurd rfl (folderIs_ne hdirectory (undoable_of_undoes hp hsrc hundoes).slotZero)

end Examples

end MushOS
