import MushOS.Kernel.PagingInMemory

/-! # clone_directory, entry by entry

What `clone_directory` leaves in the one memory that holds the directories and both
bitmaps, for every source in use and whatever its user pages are. An absent entry stays
absent, the entry of a shared table is the one of the source, and the entry of a cloned
table names a folder that was free, or page 0 (`ClonedFrom`).

`Grows pools K h h'` is the frame rule: bytes of the bitmaps and of the pages in `K` are
written, and no folder of the paging pool is given back. The pages a function may take on
the way are those that are free at its start (`spare`), so the new directory is none of
those `clone_table` writes.
-/

namespace MushOS

open ByteMemory Loop

/-- The folder in page `k` belongs to the paging pool, with this bit. -/
def FolderIs (taken : Bool) (pools : PoolPointers) (m : Mem) (k : ℕ) : Prop :=
  0x100 ≤ k ∧ k < 0xf00 ∧ Bitmap.taken (bitmapOf pools.pagingPool m) (k - 0x100) = taken

/-- The pages an allocator may return: free folders, frames, and page 0. -/
def spare (pools : PoolPointers) (m : Mem) : Set ℕ :=
  {k | k < 2 ^ 20 ∧ (k = 0 ∨ 0x1000 ≤ k ∨ FolderIs false pools m k)}

/-- A source directory in use, with its tables in the paging pool. -/
structure SourceInUse (pools : PoolPointers) (m : Mem) (src : UDword) : Prop where
  aligned : src.toNat % 4096 = 0
  directory : FolderIs true pools m (pageOf src)
  tables : ∀ i < 1024, (m.entry src i).present = true →
    FolderIs true pools m (m.entry src i).frame.toNat

/-- Both bitmaps are blocks of the heap of the kernel. -/
structure HoldsPools (pools : PoolPointers) (blocks : List Block) (h : Heap) : Prop where
  heap : KernelHeap h blocks
  pagingPool : ⟨pools.pagingPool, BitVec.ofNat 32 pagingPoolSize⟩ ∈ blocks
  userSpacePool : ⟨pools.userSpacePool, BitVec.ofNat 32 userSpacePoolSize⟩ ∈ blocks

/-- Bytes of the bitmaps and of the pages in `K` are written, and no folder is given back. -/
structure Grows (pools : PoolPointers) (K : Set ℕ) (h h' : Heap) : Prop where
  writes : Writes (pools.bitmaps ∪ pages K) h.mem h'.mem
  taken : ∀ k, FolderIs true pools h.mem k → FolderIs true pools h'.mem k
  others : h' = { h with mem := h'.mem }

/-- The entry `e'` that a clone has for the entry `e` of its source. -/
structure ClonedFrom (pools : PoolPointers) (m m₁ m' : Mem) (e e' : PagePointer) : Prop where
  absent : e.present = false → e' = PagePointer.absent
  shared : e.present = true → isCloned m e = false → e' = e
  cloned : isCloned m e = true → e'.frame.toNat = 0 ∨
    FolderIs false pools m₁ e'.frame.toNat ∧ FolderIs true pools m' e'.frame.toNat

/-- The clone of `src`, when the first `n` entries of the directory `d` are there: `h₁` is
the state in which `d` had been taken. -/
structure ClonesEntries (pools : PoolPointers) (src : UDword) (m : Mem) (d n : ℕ)
    (h₁ h' : Heap) : Prop where
  grows : Grows pools (insert d (spare pools h₁.mem)) h₁ h'
  entries : ∀ j < n, ClonedFrom pools m h₁.mem h'.mem (m.entry src j)
    (h'.mem.entry (pageStart d) j)
  rest : ∀ j < 1024, n ≤ j → h'.mem.entry (pageStart d) j = PagePointer.absent
  bitmaps : (∀ j < n, isCloned m (m.entry src j) = false) →
    ∀ a ∈ pools.bitmaps, h'.mem.bytes a = h₁.mem.bytes a

/-! ## Spare pages -/

section Spare
variable {pools : PoolPointers} {blocks : List Block} {K L : Set ℕ} {h h₁ h' : Heap} {m m' : Mem}
  {k i : ℕ} {a : UDword}

theorem outsideHeap_of_folder {v : Bool} (hk : FolderIs v pools m k) : k < 2 ^ 20 ∧ OutsideHeap k :=
  ⟨by have := hk.2.1; omega, Or.inr hk.1⟩

theorem outsideHeap_of_spare (hk : k ∈ spare pools m) : k < 2 ^ 20 ∧ OutsideHeap k := by
  rcases hk with ⟨hlt, hzero | hframe | hfolder⟩
  · exact ⟨hlt, Or.inl (by omega)⟩
  · exact ⟨hlt, Or.inr (by omega)⟩
  · exact outsideHeap_of_folder hfolder

/-- A folder in use is not spare. -/
theorem not_spare (hk : FolderIs true pools m k) : k ∉ spare pools m := by
  rcases hk with ⟨hlow, hhigh, htaken⟩
  rintro ⟨-, hzero | hframe | hfolder⟩
  · omega
  · omega
  · rw [hfolder.2.2] at htaken
    cases htaken

theorem folderIs_ne {v : Bool} (hk : FolderIs v pools m k) (hi : FolderIs (!v) pools m i) :
    k ≠ i := by
  rintro rfl
  have hbit := hk.2.2.symm.trans hi.2.2
  cases v with
  | false => cases hbit
  | true => cases hbit

theorem Grows.refl (pools : PoolPointers) (K : Set ℕ) (h : Heap) : Grows pools K h h :=
  ⟨Writes.refl _ _, fun _ hk => hk, rfl⟩

theorem Grows.trans (hg : Grows pools K h h₁) (hg' : Grows pools K h₁ h') : Grows pools K h h' := by
  refine ⟨hg.writes.trans hg'.writes, fun k hk => hg'.taken k (hg.taken k hk), ?_⟩
  rw [hg'.others, hg.others]

theorem Grows.mono (hg : Grows pools K h h') (hsub : K ⊆ L) : Grows pools L h h' := by
  refine ⟨hg.writes.mono ?_, hg.taken, hg.others⟩
  exact Set.union_subset_union_right _ (pages_mono hsub)

/-- A folder that is free later was free before. -/
theorem Grows.free (hg : Grows pools K h h') (hk : FolderIs false pools h'.mem k) :
    FolderIs false pools h.mem k := by
  refine ⟨hk.1, hk.2.1, ?_⟩
  by_contra hset
  rw [Bool.not_eq_false] at hset
  exact absurd rfl (folderIs_ne (hg.taken k ⟨hk.1, hk.2.1, hset⟩) hk)

/-- So is every spare page. -/
theorem Grows.spare_subset (hg : Grows pools K h h') : spare pools h'.mem ⊆ spare pools h.mem := by
  rintro k ⟨hlt, hzero | hframe | hfolder⟩
  · exact ⟨hlt, Or.inl hzero⟩
  · exact ⟨hlt, Or.inr (Or.inl hframe)⟩
  · exact ⟨hlt, Or.inr (Or.inr (hg.free hfolder))⟩

end Spare

namespace HoldsPools
variable {pools : PoolPointers} {blocks : List Block} {K L : Set ℕ} {h h₁ h' : Heap} {m m' : Mem}
  {k i : ℕ} {a : UDword}

theorem bitmaps_region (hp : HoldsPools pools blocks h) (ha : a ∈ pools.bitmaps) :
    a ∈ heapRegion := by
  rcases ha with ha | ha
  · exact (hp.heap.bitmap_region (by decide) hp.pagingPool ha).1
  · exact (hp.heap.bitmap_region (by decide) hp.userSpacePool ha).1

theorem bitmaps_not_page (hp : HoldsPools pools blocks h) (hout : OutsideHeap k)
    (ha : a ∈ pools.bitmaps) : pageOf a ≠ k :=
  fun hpage => hout.not_mem hpage (hp.bitmaps_region ha)

/-- The blocks of the two bitmaps are different ones. -/
theorem blocks_ne (pools : PoolPointers) :
    (⟨pools.pagingPool, BitVec.ofNat 32 pagingPoolSize⟩ : Block) ≠
      ⟨pools.userSpacePool, BitVec.ofNat 32 userSpacePoolSize⟩ := by
  intro heq
  have hsize : BitVec.ofNat 32 pagingPoolSize ≠ BitVec.ofNat 32 userSpacePoolSize := by decide
  exact hsize (congrArg Block.size heq)

theorem apart (hp : HoldsPools pools blocks h)
    (ha : a ∈ bitmapSpan pools.pagingPool pagingPoolSize) :
    a ∉ bitmapSpan pools.userSpacePool userSpacePoolSize := by
  intro ha'
  exact hp.heap.wellFormed.payload_disjoint hp.pagingPool hp.userSpacePool (blocks_ne pools)
    (hp.heap.bitmap_region (by decide) hp.pagingPool ha).2
    (hp.heap.bitmap_region (by decide) hp.userSpacePool ha').2

/-- The heap and its blocks while bitmaps and pages outside the heap are written. -/
theorem grows (hp : HoldsPools pools blocks h) (hK : ∀ k ∈ K, OutsideHeap k)
    (hg : Grows pools K h h') : HoldsPools pools blocks h' := by
  refine ⟨?_, hp.pagingPool, hp.userSpacePool⟩
  rw [hg.others]
  refine hp.heap.of_writes hg.writes ?_
  rintro a hmeta ((ha | ha) | ha)
  · exact hp.heap.wellFormed.payload_not_metadata hp.pagingPool
      (hp.heap.bitmap_region (by decide) hp.pagingPool ha).2 hmeta
  · exact hp.heap.wellFormed.payload_not_metadata hp.userSpacePool
      (hp.heap.bitmap_region (by decide) hp.userSpacePool ha).2 hmeta
  · exact (hK _ ha).not_mem rfl (hp.heap.metadata_region hmeta)

/-- A folder that is not in `K`. -/
theorem samePage (hp : HoldsPools pools blocks h) (hg : Grows pools K h h') (hk : k < 2 ^ 20)
    (hout : OutsideHeap k) (hK : k ∉ K) : SamePage h.mem k h'.mem k := by
  intro o ho
  refine hg.writes.frame _ ?_
  rintro (hmem | hmem)
  · exact hp.bitmaps_not_page hout hmem (pageOf_pageByte hk ho)
  · rw [mem_pages, pageOf_pageByte hk ho] at hmem
    exact hK hmem

theorem entry (hp : HoldsPools pools blocks h) (hg : Grows pools K h h') (hk : k < 2 ^ 20)
    (hout : OutsideHeap k) (hK : k ∉ K) (hi : i < 1024) :
    h'.mem.entry (pageStart k) i = h.mem.entry (pageStart k) i :=
  entry_samePage (hp.samePage hg hk hout hK) hk hk hi

/-- Writes into pages outside the heap. -/
theorem grows_pages (hp : HoldsPools pools blocks h) (hout : ∀ k ∈ K, OutsideHeap k)
    (hm : Writes (pages K) h.mem m) : Grows pools K h { h with mem := m } := by
  refine ⟨hm.mono Set.subset_union_right, ?_, rfl⟩
  rintro k ⟨hlow, hhigh, htaken⟩
  refine ⟨hlow, hhigh, ?_⟩
  rw [← htaken]
  refine taken_of_byte (hm.frame _ fun hmem => ?_)
  have hbyte : (k - 0x100) / 8 < pagingPoolSize := by
    unfold pagingPoolSize
    omega
  exact hp.bitmaps_not_page (hout _ hmem) (Or.inl ⟨_, hbyte, rfl⟩) rfl

/-- `folder->contents[i] = p`. -/
theorem grows_setEntry (hp : HoldsPools pools blocks h) (hk : k < 2 ^ 20) (hout : OutsideHeap k)
    (hi : i < 1024) (p : PagePointer) :
    Grows pools {k} h { h with mem := h.mem.setEntry (pageStart k) i p } := by
  refine hp.grows_pages ?_ (writes_setEntry h.mem hk hi)
  rintro n rfl
  exact hout

/-- A bitmap that is a block of the heap hosts its pool. -/
theorem hosts (hp : HoldsPools pools blocks h) {pool : UDword} {n : ℕ} (kind : PagePool)
    (hn : n < 2 ^ 20) (hreach : kind.start.toNat + 4096 * (n * 8) < 2 ^ 32)
    (hb : ⟨pool, BitVec.ofNat 32 n⟩ ∈ blocks) : HostsPool kind pool n h := by
  have hsize : (BitVec.ofNat 32 n).toNat = n := toNat_ofNat_of_lt (by omega)
  have hstart := PagePool.toNat_start kind
  refine (hostsPool_of_block hp.heap.wellFormed hb hsize hreach ?_).1
  intro a ha hregion
  have hlow : a ∈ heapRegion := by
    rcases ha with hmeta | hpayload
    · exact hp.heap.metadata_region hmeta
    · have hin := hp.heap.wellFormed.inside _ hb
      have hheap := hp.heap.wellFormed.heapStart
      have hlow := hp.heap.low
      have hhigh := hp.heap.high
      unfold Block.stop at hin
      unfold Block.payload at hpayload
      rw [mem_span] at hpayload
      rw [mem_heapRegion]
      omega
  unfold PagePool.region at hregion
  rw [mem_span] at hregion
  rw [mem_heapRegion] at hlow
  omega

end HoldsPools

/-! ## The allocators -/

section Allocators
variable {pools : PoolPointers} {blocks : List Block} {K : Set ℕ} {h h' : Heap} {k b : ℕ}

theorem slotAddress_paging (b : ℕ) : PagePool.paging.slotAddress b = pageStart (b + 0x100) := by
  have hstart : PagePool.paging.start = BitVec.ofNat 32 (0x100 * 4096) := rfl
  unfold PagePool.slotAddress pageStart
  rw [hstart, ← BitVec.ofNat_add, Nat.add_mul, Nat.add_comm, Nat.mul_comm 4096 b]

theorem slotAddress_userSpace (b : ℕ) :
    PagePool.userSpace.slotAddress b = pageStart (b + 0x1000) := by
  have hstart : PagePool.userSpace.start = BitVec.ofNat 32 (0x1000 * 4096) := rfl
  unfold PagePool.slotAddress pageStart
  rw [hstart, ← BitVec.ofNat_add, Nat.add_mul, Nat.add_comm, Nat.mul_comm 4096 b]

/-- `allocate_frame`: a frame, or page 0. -/
theorem HoldsPools.allocateFrame (hp : HoldsPools pools blocks h) :
    ∃ n h', InMemory.allocateFrame pools.userSpacePool h = .ok (pageStart n, h') ∧
      n ∈ spare pools h.mem ∧ Grows pools ∅ h h' := by
  have hosts : HostsPool .userSpace pools.userSpacePool userSpacePoolSize h :=
    hp.hosts .userSpace (by decide) (by decide) hp.userSpacePool
  rcases allocate_spec hosts with ⟨b, h', hlowest, hok, htakes⟩ | ⟨-, hok⟩
  · have hb := hlowest.lt
    have hsize : userSpacePoolSize = 7680 := rfl
    rw [slotAddress_userSpace] at hok
    refine ⟨b + 0x1000, h', hok, ⟨by omega, Or.inr (Or.inl (Nat.le_add_left _ _))⟩, ?_, ?_,
      htakes.others⟩
    · refine htakes.writes.mono ?_
      rintro a (ha | ha)
      · exact Or.inl (Or.inr ⟨b / 8, by omega, ha⟩)
      · exact absurd ha (Set.notMem_empty a)
    · -- the byte written is none of the other bitmap
      rintro k ⟨hlow, hhigh, htaken⟩
      refine ⟨hlow, hhigh, ?_⟩
      rw [← htaken]
      refine taken_of_byte (htakes.writes.frame _ ?_)
      have hbyte : (k - 0x100) / 8 < pagingPoolSize := by
        unfold pagingPoolSize
        omega
      rintro (ha | ha)
      · exact hp.apart ⟨_, hbyte, rfl⟩ ⟨b / 8, by omega, ha⟩
      · exact ha
  · exact ⟨0, h, hok, ⟨by decide, Or.inl rfl⟩, Grows.refl _ _ _⟩

/-- The folder in page `k`, the lowest free one, is taken and cleared. -/
structure TakesFolderOf (pools : PoolPointers) (k : ℕ) (h h' : Heap) : Prop where
  lowest : Bitmap.Lowest (bitmapOf pools.pagingPool h.mem) pagingPoolSize (k - 0x100)
  takes : TakesSlot .paging pools.pagingPool pagingPoolSize (k - 0x100) h h'
  free : FolderIs false pools h.mem k
  taken : FolderIs true pools h'.mem k
  grows : Grows pools {k} h h'

/-- `allocate_page_folder`: a folder, or page 0 when there is none left. -/
theorem HoldsPools.allocatePageFolder (hp : HoldsPools pools blocks h) :
    ∃ k h', InMemory.allocatePageFolder pools.pagingPool h = .ok (pageStart k, h') ∧
      ((k = 0 ∧ ∀ n, ¬ FolderIs false pools h.mem n) ∧ h' = h ∨ TakesFolderOf pools k h h') := by
  have hosts : HostsPool .paging pools.pagingPool pagingPoolSize h :=
    hp.hosts .paging (by decide) (by decide) hp.pagingPool
  rcases allocate_spec hosts with ⟨b, h', hlowest, hok, htakes⟩ | ⟨hfull, hok⟩
  · have hb := hlowest.lt
    have hsize : pagingPoolSize = 448 := rfl
    have hbits := htakes.bits
    have hslot : b + 0x100 - 0x100 = b := Nat.add_sub_cancel b 0x100
    rw [slotAddress_paging] at hok
    refine ⟨b + 0x100, h', hok, Or.inr ⟨?_, ?_, ?_, ?_, ?_, ?_, htakes.others⟩⟩
    · rwa [hslot]
    · rwa [hslot]
    · refine ⟨by omega, by omega, ?_⟩
      rw [hslot]
      exact hlowest.clear
    · refine ⟨by omega, by omega, ?_⟩
      rw [hslot, hbits b hb, decide_eq_true rfl, Bool.true_or]
    · -- one byte of the bitmap, and the page of the slot
      refine htakes.writes.mono ?_
      rintro a (ha | ha)
      · exact Or.inl (Or.inl ⟨b / 8, by omega, ha⟩)
      · right
        unfold PagePool.cleared at ha
        dsimp only at ha
        rw [slotAddress_paging, toNat_pageStart (by omega)] at ha
        rwa [pages_singleton]
    · rintro k ⟨hlow, hhigh, htaken⟩
      refine ⟨hlow, hhigh, ?_⟩
      rw [hbits _ (by omega), htaken, Bool.or_true]
  · refine ⟨0, h, hok, Or.inl ⟨⟨rfl, ?_⟩, rfl⟩⟩
    rintro n ⟨hlow, hhigh, hclear⟩
    have hsize : pagingPoolSize = 448 := rfl
    rw [hfull (n - 0x100) (by omega)] at hclear
    cases hclear

end Allocators

/-! ## clone_table -/

section CloneTable
variable {pools : PoolPointers} {blocks : List Block} {K : Set ℕ} {h h' : Heap} {k i : ℕ}

/-- One iteration of `clone_table`, whatever the source is. -/
theorem HoldsPools.cloneTableEntry (hp : HoldsPools pools blocks h) (src : PagePointer)
    (pages : UDword) (hk : k ∈ K) (hK : ∀ k ∈ K, k < 2 ^ 20 ∧ OutsideHeap k)
    (hspare : spare pools h.mem ⊆ K) (hi : i < 1024) :
    ∃ h', InMemory.cloneTableEntry pools src (pageStart k) pages i h = .ok h' ∧
      Grows pools K h h' := by
  rcases hK k hk with ⟨hlt, hout⟩
  have hsub : ({k} : Set ℕ) ⊆ K := Set.singleton_subset_iff.mpr hk
  unfold InMemory.cloneTableEntry
  by_cases hpresent : (h.mem.entry pages i).present = false
  · rw [if_pos hpresent]
    exact ⟨h, rfl, Grows.refl _ _ _⟩
  rw [if_neg hpresent]
  by_cases huser : (src.user || (h.mem.entry pages i).user) = true
  · rw [if_pos huser]
    -- the assignment, the new frame, and the assignment of its number
    have hg₁ := (hp.grows_setEntry hlt hout hi (clonePagePointer (h.mem.entry pages i))).mono hsub
    have hp₁ := hp.grows (fun k hk => (hK k hk).2) hg₁
    rcases hp₁.allocateFrame with ⟨n, h₂, hok, hn, hg₂⟩
    have hg₂ := hg₂.mono (Set.empty_subset K)
    have hp₂ := hp₁.grows (fun k hk => (hK k hk).2) hg₂
    have hnK : n ∈ K := hspare (hg₁.spare_subset hn)
    have hg₃ := (hp₂.grows_setEntry hlt hout hi
      { h₂.mem.entry (pageStart k) i with frame := frameOf (pageStart n) }).mono hsub
    have hp₃ := hp₂.grows (fun k hk => (hK k hk).2) hg₃
    simp only [hok, ok_bind, entry_setEntry_self, getContentsAsPage_eq,
      toNat_frameOf_pageStart (hK n hnK).1]
    refine ⟨_, rfl, hg₁.trans (hg₂.trans (hg₃.trans ?_))⟩
    refine (hp₃.grows_pages (K := {n}) ?_ (writes_copyPagePhysical (hK n hnK).1 _ _)).mono
      (Set.singleton_subset_iff.mpr hnK)
    rintro j rfl
    exact (hK j hnK).2
  · rw [if_neg huser]
    exact ⟨_, rfl, (hp.grows_setEntry hlt hout hi _).mono hsub⟩

/-- `clone_table`: the entry of the source with another frame, which was spare. -/
theorem HoldsPools.cloneTable (hp : HoldsPools pools blocks h) (src : PagePointer) :
    ∃ t h',
        InMemory.cloneTable pools src h = .ok ({ src with frame := frameOf (pageStart t) }, h') ∧
      Grows pools (spare pools h.mem) h h' ∧ t < 2 ^ 20 ∧
      (t = 0 ∨ FolderIs false pools h.mem t ∧ FolderIs true pools h'.mem t) := by
  rcases hp.allocatePageFolder with ⟨t, h₁, hok, hfolder⟩
  have ht : t ∈ spare pools h.mem := by
    rcases hfolder with ⟨⟨rfl, -⟩, -⟩ | htakes
    · exact ⟨by decide, Or.inl rfl⟩
    · exact ⟨(outsideHeap_of_folder htakes.free).1, Or.inr (Or.inr htakes.free)⟩
  have hg₁ : Grows pools (spare pools h.mem) h h₁ := by
    rcases hfolder with ⟨-, rfl⟩ | htakes
    · exact Grows.refl _ _ _
    · exact htakes.grows.mono (Set.singleton_subset_iff.mpr ht)
  have hout : ∀ k ∈ spare pools h.mem, k < 2 ^ 20 ∧ OutsideHeap k := fun k hk =>
    outsideHeap_of_spare hk
  -- no turn of the loop gives a folder back
  rcases loopM_induction
    (f := InMemory.cloneTableEntry pools src (pageStart t) (getContentsAsPage src))
    (n := pagesInTable) (t := h₁) (P := fun _ h' => Grows pools (spare pools h.mem) h₁ h')
    (Grows.refl _ _ _) (by
      intro i h' hi hg
      have hall := hg₁.trans hg
      obtain ⟨h'', hok', hg'⟩ := (hp.grows (fun k hk => (hout k hk).2) hall).cloneTableEntry src
        (getContentsAsPage src) ht hout hall.spare_subset hi
      exact ⟨h'', hok', hg.trans hg'⟩) with ⟨h', hloop, hg⟩
  refine ⟨t, h', ?_, hg₁.trans hg, (hout t ht).1, ?_⟩
  · unfold InMemory.cloneTable
    rw [hok, ok_bind]
    simp only [hloop]
    rfl
  · rcases hfolder with ⟨⟨hzero, -⟩, -⟩ | htakes
    · exact Or.inl hzero
    · exact Or.inr ⟨htakes.free, hg.taken t htakes.taken⟩

end CloneTable

/-! ## clone_directory -/

section CloneDirectory
variable {pools : PoolPointers} {blocks : List Block} {h h₁ h' : Heap} {src : UDword} {d n i : ℕ}

/-- Before the first iteration the directory is clear. -/
theorem clonesEntries_zero (htakes : TakesFolderOf pools d h h₁) (src : UDword) (m : Mem) :
    ClonesEntries pools src m d 0 h₁ h₁ := by
  have hlt := (outsideHeap_of_folder htakes.free).1
  refine ⟨Grows.refl _ _ _, fun j hj => absurd hj (Nat.not_lt_zero j), ?_, fun _ _ _ => rfl⟩
  intro j hj _
  refine entry_cleared hlt hj fun o ho => htakes.takes.zeroed _ ?_
  have hslot : d - 0x100 + 0x100 = d := Nat.sub_add_cancel htakes.free.1
  unfold PagePool.cleared
  dsimp only
  rw [slotAddress_paging, hslot, toNat_pageStart hlt, mem_span, toNat_pageByte hlt ho]
  omega

/-- The entries of the source, and of its tables, are none of the pages that are written. -/
theorem ClonesEntries.source (hc : ClonesEntries pools src h.mem d n h₁ h')
    (hp : HoldsPools pools blocks h) (htakes : TakesFolderOf pools d h h₁) {k : ℕ}
    (hk : FolderIs true pools h.mem k) (hi : i < 1024) :
    h'.mem.entry (pageStart k) i = h.mem.entry (pageStart k) i := by
  rcases outsideHeap_of_folder hk with ⟨hlt, hout⟩
  have hne : k ≠ d := folderIs_ne hk htakes.free
  have hd : ∀ n ∈ ({d} : Set ℕ), OutsideHeap n := by
    rintro n rfl
    exact (outsideHeap_of_folder htakes.free).2
  rw [(hp.grows hd htakes.grows).entry hc.grows hlt hout ?_ hi,
    hp.entry htakes.grows hlt hout (by simpa using hne) hi]
  rintro (heq | hspare)
  · exact hne heq
  · exact not_spare (htakes.grows.taken k hk) hspare

/-- Folders stay in use. -/
theorem ClonedFrom.later {m m₁ : Mem} {K : Set ℕ} {e e' : PagePointer}
    (hc : ClonedFrom pools m m₁ h.mem e e') (hg : Grows pools K h h') :
    ClonedFrom pools m m₁ h'.mem e e' := by
  refine ⟨hc.absent, hc.shared, fun hcloned => ?_⟩
  rcases hc.cloned hcloned with hzero | ⟨hfree, htaken⟩
  · exact Or.inl hzero
  · exact Or.inr ⟨hfree, hg.taken _ htaken⟩

theorem insert_outside (hd : FolderIs false pools h.mem d) :
    ∀ k ∈ insert d (spare pools h₁.mem), OutsideHeap k := by
  rintro k (rfl | hk)
  · exact (outsideHeap_of_folder hd).2
  · exact (outsideHeap_of_spare hk).2

/-- The next entry is written, when pages that are spare have been taken for its table. -/
theorem ClonesEntries.write {m : Mem} {h₂ : Heap} {e : PagePointer}
    (hc : ClonesEntries pools src m d n h₁ h') (hp : HoldsPools pools blocks h₁)
    (hfree : FolderIs false pools h.mem d) (hd : FolderIs true pools h₁.mem d) (hn : n < 1024)
    (hg : Grows pools (spare pools h'.mem) h' h₂)
    (hnew : ClonedFrom pools m h₁.mem h₂.mem (m.entry src n) e)
    (hbitmaps : isCloned m (m.entry src n) = false →
      ∀ a ∈ pools.bitmaps, h₂.mem.bytes a = h'.mem.bytes a) :
    ClonesEntries pools src m d (n + 1) h₁
      { h₂ with mem := h₂.mem.setEntry (pageStart d) n e } := by
  rcases outsideHeap_of_folder hd with ⟨hlt, hout⟩
  have hp' := hp.grows (insert_outside hfree) hc.grows
  have hp₂ := hp'.grows (fun k hk => (outsideHeap_of_spare hk).2) hg
  have hset := hp₂.grows_setEntry hlt hout hn e
  -- the directory is in use, so `h₂` has it as `h'` has
  have hkept : ∀ j < 1024, h₂.mem.entry (pageStart d) j = h'.mem.entry (pageStart d) j :=
    fun j hj => hp'.entry hg hlt hout (not_spare (hc.grows.taken d hd)) hj
  have hother : ∀ j < 1024, j ≠ n → (h₂.mem.setEntry (pageStart d) n e).entry (pageStart d) j =
      h'.mem.entry (pageStart d) j := by
    intro j hj hne
    rw [entry_setEntry_ne _ hlt hn hj (Ne.symm hne), hkept j hj]
  refine ⟨?_, ?_, ?_, ?_⟩
  · refine hc.grows.trans ((hg.mono ?_).trans (hset.mono (by simp)))
    exact hc.grows.spare_subset.trans (Set.subset_insert _ _)
  · intro j hj
    by_cases hjn : j = n
    · subst hjn
      rw [entry_setEntry_self]
      exact hnew.later hset
    · rw [hother j (by omega) hjn]
      exact ((hc.entries j (by omega)).later hg).later hset
  · intro j hj hle
    rw [hother j hj (by omega)]
    exact hc.rest j hj (by omega)
  · intro hall a ha
    rw [(writes_setEntry h₂.mem hlt hn).frame a (hp₂.bitmaps_not_page hout ha),
      hbitmaps (hall n (by omega)) a ha]
    exact hc.bitmaps (fun j hj => hall j (by omega)) a ha

/-- One iteration. -/
theorem ClonesEntries.step (hc : ClonesEntries pools src h.mem d n h₁ h')
    (hp : HoldsPools pools blocks h) (htakes : TakesFolderOf pools d h h₁)
    (hsrc : SourceInUse pools h.mem src) (hn : n < 1024) :
    ∃ h'', InMemory.cloneDirectoryEntry pools src (pageStart d) n h' = .ok h'' ∧
      ClonesEntries pools src h.mem d (n + 1) h₁ h'' := by
  have hp₁ : HoldsPools pools blocks h₁ := by
    refine hp.grows ?_ htakes.grows
    rintro k rfl
    exact (outsideHeap_of_folder htakes.free).2
  have hp' := hp₁.grows (insert_outside htakes.free) hc.grows
  have hentry : h'.mem.entry src n = h.mem.entry src n := by
    rw [eq_pageStart hsrc.aligned]
    exact hc.source hp htakes hsrc.directory hn
  obtain ⟨e, he⟩ : ∃ e, h.mem.entry src n = e := ⟨_, rfl⟩
  unfold InMemory.cloneDirectoryEntry
  rw [hentry, he]
  by_cases hpresent : e.present = false
  · -- nothing is written, and the new directory is clear there
    rw [if_pos hpresent]
    refine ⟨h', rfl, hc.grows, ?_, fun j hj hle => hc.rest j hj (by omega),
      fun hall => hc.bitmaps fun j hj => hall j (by omega)⟩
    intro j hj
    by_cases hjn : j = n
    · subst hjn
      rw [he, hc.rest j hn (le_refl j)]
      refine ⟨fun _ => rfl, fun hset => ?_, fun hset => ?_⟩
      · rw [hpresent] at hset
        cases hset
      · unfold isCloned at hset
        rw [hpresent, Bool.false_and] at hset
        cases hset
    · exact hc.entries j (by omega)
  rw [if_neg hpresent]
  rw [Bool.not_eq_false] at hpresent
  have htable : FolderIs true pools h.mem e.frame.toNat := by
    rw [← he]
    exact hsrc.tables n hn (by rw [he, hpresent])
  have hsame : isCloned h'.mem e = isCloned h.mem e :=
    isCloned_congr fun j hj => hc.source hp htakes htable hj
  have hcloned : (e.user || containsUserPages e h'.mem) = isCloned h.mem e := by
    rw [← hsame]
    unfold isCloned
    rw [hpresent, Bool.true_and]
  rw [hcloned]
  by_cases hcl : isCloned h.mem e = true
  · rw [if_pos hcl]
    rcases hp'.cloneTable e with ⟨t, h₂, hok, hg, ht, hnew⟩
    rw [hok]
    refine ⟨_, rfl, hc.write hp₁ htakes.free htakes.taken hn hg ⟨?_, ?_, fun _ => ?_⟩ ?_⟩
    · intro habsent
      rw [he, hpresent] at habsent
      cases habsent
    · intro _ hshared
      rw [he, hcl] at hshared
      cases hshared
    · show (frameOf (pageStart t)).toNat = 0 ∨ _
      rw [toNat_frameOf_pageStart ht]
      rcases hnew with hzero | ⟨hfree, htaken⟩
      · exact Or.inl hzero
      · exact Or.inr ⟨hc.grows.free hfree, htaken⟩
    · intro hshared
      rw [he, hcl] at hshared
      cases hshared
  · rw [if_neg hcl]
    refine ⟨_, rfl, hc.write hp₁ htakes.free htakes.taken hn (Grows.refl _ _ _) ?_
      fun _ _ _ => rfl⟩
    rw [he]
    refine ⟨fun habsent => ?_, fun _ _ => rfl, fun hset => absurd hset hcl⟩
    rw [hpresent] at habsent
    cases habsent

/-- An iteration into any page outside the heap returns. -/
theorem HoldsPools.cloneDirectoryEntry (hp : HoldsPools pools blocks h) (src : UDword)
    (hd : d < 2 ^ 20) (hout : OutsideHeap d) (hi : i < 1024) :
    ∃ h', InMemory.cloneDirectoryEntry pools src (pageStart d) i h = .ok h' ∧
      HoldsPools pools blocks h' := by
  have hwrite : ∀ h₁ : Heap, HoldsPools pools blocks h₁ → ∀ e : PagePointer, HoldsPools pools blocks
      { h₁ with mem := h₁.mem.setEntry (pageStart d) i e } := by
    intro h₁ hp₁ e
    refine hp₁.grows ?_ (hp₁.grows_setEntry hd hout hi e)
    rintro k rfl
    exact hout
  unfold InMemory.cloneDirectoryEntry
  by_cases hpresent : (h.mem.entry src i).present = false
  · rw [if_pos hpresent]
    exact ⟨h, rfl, hp⟩
  rw [if_neg hpresent]
  by_cases hcl : ((h.mem.entry src i).user || containsUserPages (h.mem.entry src i) h.mem) = true
  · rw [if_pos hcl]
    rcases hp.cloneTable (h.mem.entry src i) with ⟨t, h₁, hok, hg, -⟩
    rw [hok]
    exact ⟨_, rfl, hwrite h₁ (hp.grows (fun k hk => (outsideHeap_of_spare hk).2) hg) _⟩
  · rw [if_neg hcl]
    exact ⟨_, rfl, hwrite h hp _⟩

/-- **`clone_directory`** of a source in use, whatever the pools hold: without a free folder
the directory is page 0, and otherwise every entry is cloned into the lowest one. -/
theorem HoldsPools.cloneDirectory (hp : HoldsPools pools blocks h)
    (hsrc : SourceInUse pools h.mem src) :
    ∃ d h₁ h', InMemory.cloneDirectory pools src h = .ok (pageStart d, h') ∧
      ((d = 0 ∧ ∀ n, ¬ FolderIs false pools h.mem n) ∨
        TakesFolderOf pools d h h₁ ∧ ClonesEntries pools src h.mem d 1024 h₁ h') := by
  rcases hp.allocatePageFolder with ⟨d, h₁, hok, hfolder⟩
  -- the loop returns, and does what it should if there is a directory
  have hloop : ∃ h', loopM (InMemory.cloneDirectoryEntry pools src (pageStart d)) pagesInTable h₁ =
      .ok h' ∧ ((d = 0 ∧ ∀ n, ¬ FolderIs false pools h.mem n) ∨
        TakesFolderOf pools d h h₁ ∧ ClonesEntries pools src h.mem d 1024 h₁ h') := by
    rcases hfolder with ⟨⟨rfl, hnone⟩, rfl⟩ | htakes
    · rcases loopM_induction
        (f := InMemory.cloneDirectoryEntry pools src (pageStart 0)) (n := pagesInTable)
        (t := h₁) (P := fun _ h' => HoldsPools pools blocks h') hp fun i h' hi hp' =>
          hp'.cloneDirectoryEntry src (by decide) (Or.inl (by decide)) hi with ⟨h', hloop, -⟩
      exact ⟨h', hloop, Or.inl ⟨rfl, hnone⟩⟩
    · rcases loopM_induction
        (f := InMemory.cloneDirectoryEntry pools src (pageStart d)) (n := pagesInTable)
        (t := h₁) (P := fun i h' => ClonesEntries pools src h.mem d i h₁ h')
        (clonesEntries_zero htakes src h.mem) fun i h' hi hc => hc.step hp htakes hsrc hi with
        ⟨h', hloop, hclones⟩
      exact ⟨h', hloop, Or.inr ⟨htakes, hclones⟩⟩
  rcases hloop with ⟨h', hrun, hcase⟩
  refine ⟨d, h₁, h', ?_, hcase⟩
  unfold InMemory.cloneDirectory
  rw [hok, ok_bind]
  simp only [hrun]
  rfl

end CloneDirectory

end MushOS
