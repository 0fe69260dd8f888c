import MushOS.Base.HeapRoom
import MushOS.Kernel.MemoryKernel

/-! # kernel.c: from an empty heap to the first task

The end of `_start`, where `initialise_paging` and `initialise_tasking` run on the heap
set up at `0x50000`, whatever the drivers have left in the rest of the memory. Nothing
on the way can fail: the bitmaps and the first task are allocated one after another
from the start of the heap, and the paging pool holds more than the kernel's directory.
-/

namespace MushOS

open ByteMemory Loop

/-! ## One block after another -/

/-- The heap of `kernel.c` with these blocks, one after another up to the address `stop`. -/
structure Compact (h : Heap) (blocks : List Block) (stop : ℕ) : Prop where
  heap : KernelHeap h blocks
  header : h.header = kernelHeapStart
  heapEnd : h.heapEnd.toNat = 0xd0000
  packed : Packed 0x5000c blocks
  gap : gapStart 0x5000c blocks = stop

namespace Compact
variable {h h' : Heap} {blocks blocks' : List Block} {stop n : ℕ} {m : Mem} {S : Set UDword}

theorem heapStart (hc : Compact h blocks stop) : h.heapStart.toNat = 0x5000c := by
  rw [hc.heap.wellFormed.heapStart, hc.header]
  rfl

/-- Writes that leave the list alone. -/
theorem of_writes (hc : Compact h blocks stop) (hm : Writes S h.mem m)
    (hS : ∀ a ∈ metadata h.header blocks, a ∉ S) : Compact { h with mem := m } blocks stop := by
  obtain ⟨-, hbounds⟩ :
      WellFormed { h with mem := m } blocks ∧ SameBounds h { h with mem := m } :=
    hc.heap.wellFormed.congr rfl fun a ha => hm.frame a (hS a ha)
  refine ⟨hc.heap.of_writes hm hS, hc.header, ?_, hc.packed, hc.gap⟩
  rw [hbounds.heapEnd]
  exact hc.heapEnd

/-- A heap in which the metadata are the same. -/
theorem congr (hc : Compact h blocks stop) (hk : KernelHeap h' blocks) (hsame : SameBounds h h') :
    Compact h' blocks stop := by
  refine ⟨hk, ?_, ?_, hc.packed, hc.gap⟩
  · rw [hsame.header]
    exact hc.header
  · rw [hsame.heapEnd]
    exact hc.heapEnd

/-- **Allocating takes the next bytes.** -/
theorem ralloc (hc : Compact h blocks stop) {size : UDword}
    (hroom : stop + size.toNat + 24 ≤ 0xd0000) :
    ∃ p h', MushOS.ralloc size h = .ok (p, h') ∧ p.toNat = stop + 12 ∧
      Compact h' (blocks ++ [⟨p, size⟩]) (stop + 12 + size.toNat) := by
  have hstart := hc.heapStart
  have hend := hc.heapEnd
  have hgap := hc.gap
  have hpacked := hc.packed
  rcases @ralloc_packed h blocks size hc.heap.wellFormed
    (by rw [hstart]; exact hpacked) (by rw [hstart, hgap, hend]; exact hroom) with
    ⟨p, h', hralloc, hp, hw⟩
  rw [hstart, hgap] at hp
  rcases hc.heap.allocate (by omega) (fun hnil => by
    rw [hnil, gapStart_nil] at hgap
    omega) hralloc with ⟨blocks', hk, -, -, -, hbounds, -⟩
  rcases hk.wellFormed.blocks_unique hw with rfl
  refine ⟨p, h', hralloc, hp, hk, ?_, ?_, ?_, ?_⟩
  · rw [hbounds.header]
    exact hc.header
  · rw [hbounds.heapEnd]
    exact hend
  · exact hpacked.snoc (by rw [hgap]; exact hp)
  · rw [gapStart_concat]
    show p.toNat + size.toNat = stop + 12 + size.toNat
    rw [hp]

/-- A bitmap. -/
theorem allocatePool (hc : Compact h blocks stop) (hn : n < 2 ^ 20)
    (hroom : stop + n + 24 ≤ 0xd0000) :
    ∃ p h', InMemory.allocatePool n h = .ok (p, h') ∧ p.toNat = stop + 12 ∧
      Compact h' (blocks ++ [⟨p, BitVec.ofNat 32 n⟩]) (stop + 12 + n) ∧
      NewPool blocks n h p h' (blocks ++ [⟨p, BitVec.ofNat 32 n⟩]) := by
  have hsize : (BitVec.ofNat 32 n).toNat = n := toNat_ofNat_of_lt (by omega)
  have hgap := hc.gap
  rcases hc.ralloc (by rw [hsize]; exact hroom) with ⟨p, h₁, hralloc, hp, hc₁⟩
  rw [hsize] at hc₁
  have hb : (⟨p, BitVec.ofNat 32 n⟩ : Block) ∈ blocks ++ [⟨p, BitVec.ofNat 32 n⟩] := by simp
  have hclear : Writes (Block.payload ⟨p, BitVec.ofNat 32 n⟩) h₁.mem
      (memoryClear p (BitVec.ofNat 32 n) 0 h₁.mem) :=
    writes_memoryClear p (BitVec.ofNat 32 n) 0 (by omega) h₁.mem
  have hc₂ := hc₁.of_writes hclear fun a hmeta hmem =>
    hc₁.heap.wellFormed.payload_not_metadata hb hmem hmeta
  have hok : InMemory.allocatePool n h =
      .ok (p, { h₁ with mem := memoryClear p (BitVec.ofNat 32 n) 0 h₁.mem }) := by
    unfold InMemory.allocatePool
    rw [hralloc]
    rfl
  rcases allocatePool_spec hc.heap hn (by
    rintro rfl
    rw [gapStart_nil] at hgap
    rw [hc.heapStart, hc.heapEnd]
    omega) hok with ⟨blocks', hnew⟩
  rcases hnew.heap.wellFormed.blocks_unique hc₂.heap.wellFormed with rfl
  exact ⟨p, _, hok, hp, hc₂, hnew⟩

end Compact

/-! ## Tasks on such a heap -/

section Task
variable {k : Kernel} {blocks : List Block} {stop : ℕ} {t directory : UDword}

/-- `task->f = x`. -/
theorem Compact.setMember (hc : Compact k.heap blocks stop) (ht : ⟨t, sizeofTask⟩ ∈ blocks)
    (f : TaskMember) (x : UDword) : Compact (k.setMember t f x).heap blocks stop := by
  have hbounds := hc.heap.task_bounds ht
  refine hc.of_writes (writes_setMember (f := f) (v := x) (by omega)) ?_
  intro a hmeta hmem
  exact hc.heap.task_not_metadata ht hmem hmeta

/-- A task is the next 24 bytes. -/
theorem Compact.createTask (hc : Compact k.heap blocks stop) (hroom : stop + 48 ≤ 0xd0000)
    (directory : UDword) :
    ∃ t k', MushOS.createTask directory k = .ok (t, k') ∧ t.toNat = stop + 12 ∧
      Compact k'.heap (blocks ++ [⟨t, sizeofTask⟩]) (stop + 36) := by
  have hsize : sizeofTask.toNat = 24 := rfl
  rcases @Compact.ralloc _ _ _ hc sizeofTask (by omega) with ⟨t, h₁, hralloc, ht, hc₁⟩
  have hb : (⟨t, sizeofTask⟩ : Block) ∈ blocks ++ [⟨t, sizeofTask⟩] := by simp
  have hid := Compact.setMember (k := { k with heap := h₁ }) hc₁ hb .id k.nextPid
  have hpid : Compact { Kernel.setMember { k with heap := h₁ } t .id k.nextPid with
      nextPid := k.nextPid + 1 }.heap (blocks ++ [⟨t, sizeofTask⟩]) (stop + 36) := hid
  have hall := ((((hpid.setMember hb .ebp 0).setMember hb .esp 0).setMember hb .eip 0).setMember hb
    .pageDirectory directory).setMember hb .next 0
  refine ⟨t, _, ?_, ht, hall⟩
  unfold MushOS.createTask
  rw [hralloc]
  rfl

end Task

/-! ## initialise_paging and initialise_tasking -/

/-- The heap keeps its bounds while pages outside of it are written. -/
theorem Resident.bounds {pools : PoolPointers} {blocks : List Block} {g h : Heap} {s : Paging}
    (hr : Resident pools blocks g h s)
    (hkept : ∀ a ∈ heapRegion, s.mem.bytes a = g.mem.bytes a) : SameBounds h g := by
  refine (hr.heap.wellFormed.congr (by rw [hr.others]) ?_).2
  intro a ha
  rw [← hkept a (hr.heap.metadata_region ha)]
  exact (hr.agree a fun hbitmap => (hr.bitmaps_apart hbitmap).1 ha).symm

/-- The two bitmaps, and the first task. -/
def startBlocks : List Block :=
  [⟨0x50018, BitVec.ofNat 32 pagingPoolSize⟩, ⟨0x501e4, BitVec.ofNat 32 userSpacePoolSize⟩,
    ⟨0x51ff0, sizeofTask⟩]

section Start
variable {h : Heap}

/-- `initialise_paging` on an empty heap. -/
theorem initialisePaging_compact (hc : Compact h [] 0x5000c) (garbage : ℕ → PagePointer) :
    ∃ g h', InMemory.initialisePaging garbage h =
        .ok (⟨0x50018, 0x501e4⟩, (initialisePaging garbage g.mem).1, h') ∧
      Compact h' (startBlocks.take 2) 0x51fe4 ∧
      Resident ⟨0x50018, 0x501e4⟩ (startBlocks.take 2) g h'
        (initialisePaging garbage g.mem).2 := by
  have hpagingSize : pagingPoolSize = 0x1c0 := by decide
  have huserSize : userSpacePoolSize = 0x1e00 := by decide
  rcases hc.allocatePool (n := pagingPoolSize) (by omega)
    (by omega) with ⟨p, h₁, hpaging, hp, hc₁, hnew₁⟩
  obtain rfl : p = 0x50018 := BitVec.eq_of_toNat_eq hp
  rcases hc₁.allocatePool (n := userSpacePoolSize) (by omega)
    (by omega) with ⟨q, g, huser, hq, hc₂, hnew₂⟩
  obtain rfl : q = 0x501e4 := by
    apply BitVec.eq_of_toNat_eq
    rw [hq, hpagingSize]
    rfl
  rcases initialisePaging_of_pools garbage hpaging huser
    (hnew₁.resident hnew₂) with ⟨h', hok, hresident⟩
  refine ⟨g, h', hok, ?_, hresident⟩
  -- the directory and its tables are outside the heap
  rcases initialisePaging_spec garbage g.mem with ⟨-, hevolves⟩
  have hbounds := hresident.bounds fun a ha =>
    (hevolves.mono (Set.empty_subset {0})).not_heapRegion ha
  have hc₃ := hc₂.congr hresident.heap ⟨hbounds.header.symm, hbounds.heapStart.symm,
    hbounds.heapEnd.symm⟩
  have hstop : 0x5000c + 12 + pagingPoolSize + 12 + userSpacePoolSize = 0x51fe4 := by
    rw [hpagingSize, huserSize]
  rw [hstop] at hc₃
  exact hc₃

end Start

/-! ## What the kernel starts with -/

section Init
variable {s s₁ : Paging} {d b n : ℕ} {k : Kernel}

theorem freeFrames_getPage (garbage : PagePointer) (a : UDword) (make : Bool) (dir : UDword)
    (s : Paging) : freeFrames (getPage garbage a make dir s).2 = freeFrames s := by
  rcases allocatePageFolder_cases s with ⟨t, s₁, hcall, hfolder⟩
  unfold getPage
  by_cases hrange : a > userSpaceEnd
  · rw [if_pos hrange]
  rw [if_neg hrange]
  dsimp only
  split_ifs
  · rfl
  · rw [hcall]
    exact hfolder.frames
  · rfl

/-- `initialise_paging` takes no frame of the user space. -/
theorem freeFrames_initialisePaging (garbage : ℕ → PagePointer) (m : Mem) :
    freeFrames (initialisePaging garbage m).2 = freeFrames (freshPools m) := by
  rcases allocatePageFolder_cases (freshPools m) with ⟨d, s₁, hcall, hfolder⟩
  have hcall' : allocatePageFolder ⟨m, ⟨fun _ => 0⟩, ⟨fun _ => 0⟩⟩ = (pageStart d, s₁) := hcall
  rw [← hfolder.frames]
  unfold initialisePaging
  simp only [hcall']
  refine loop_induction (P := fun _ s' => freeFrames s' = freeFrames s₁) rfl ?_
  intro i s' _ hs'
  rw [← hs']
  exact freeFrames_getPage _ _ _ _ _

/-- The folders taken are the tables of the directory. -/
theorem KernelMap.card_folders (h : KernelMap s₁ d b n s) :
    (freeFolders s).card + b = (freeFolders s₁).card := by
  have htables : ((Finset.range b).image fun j =>
      (s.mem.entry (pageStart d) j).frame.toNat).card = b := by
    rw [Finset.card_image_of_injOn, Finset.card_range]
    intro j hj j' hj' hsame
    by_contra hne
    exact h.distinct j (Finset.mem_range.mp hj) j' (Finset.mem_range.mp hj') hne hsame
  have hapart : Disjoint (freeFolders s) ((Finset.range b).image fun j =>
      (s.mem.entry (pageStart d) j).frame.toNat) := by
    rw [Finset.disjoint_right]
    intro t ht hmem
    rcases Finset.mem_image.mp ht with ⟨j, hj, rfl⟩
    exact h.taken j (Finset.mem_range.mp hj) (mem_free.mpr (Or.inl hmem))
  have hsub : freeFolders s ∪ ((Finset.range b).image fun j =>
      (s.mem.entry (pageStart d) j).frame.toNat) ⊆ freeFolders s₁ := by
    refine Finset.union_subset h.evolves.folders ?_
    intro t ht
    rcases Finset.mem_image.mp ht with ⟨j, hj, rfl⟩
    exact h.was_free j (Finset.mem_range.mp hj)
  have hcard := Finset.card_le_card hsub
  have hroom := h.room
  rw [Finset.card_union_of_disjoint hapart, htables] at hcard
  omega

/-- A directory of four tables at most. -/
def FourTables (m : Mem) (dir : UDword) : Prop :=
  ∀ i < 1024, 4 ≤ i → (m.entry dir i).present = false

/-- Writes outside the paging pool leave the directories alone. -/
theorem TaskSpace.entry_of_writes {S : Set UDword} {m' : Mem} {dir : UDword} {i : ℕ}
    (h : TaskSpace s dir) (hw : Writes S s.mem m')
    (hS : ∀ a ∈ S, pageOf a < 0x100 ∨ 0xf00 ≤ pageOf a) (hi : i < 1024) :
    m'.entry dir i = s.mem.entry dir i := by
  have hpage : SamePage s.mem (pageOf dir) m' (pageOf dir) := by
    intro o ho
    have hfolder := h.folder
    refine hw.frame _ fun hmem => ?_
    have hoff := hS _ hmem
    rw [pageOf_pageByte (pageOf_lt dir) ho] at hoff
    omega
  rw [h.inUse.held.src_eq]
  exact entry_samePage hpage (pageOf_lt dir) (pageOf_lt dir) hi

/-- What the pools hold, and what is mapped, before the first fork. -/
structure Fresh (k : Kernel) : Prop where
  folders : (freeFolders k.paging).card = 3579
  frames : (freeFrames k.paging).card = 61440
  tables : FourTables k.heap.mem k.currentDirectory
  mapped : ∀ v < 2 ^ 20, (k.translate k.currentTask v).map (fun p => (p.frame, p.user)) =
    if v < 0x1000 then some (v, isStackPage v) else none

theorem fresh_init (h : userSystem.Init k) : Fresh k := by
  rcases h with ⟨k₀, garbage, hbooted, heq⟩
  have hbooted₁ := hbooted.initialisePaging garbage
  rcases initialisePaging_spec garbage k₀.heap.mem with ⟨hspace, hevolves⟩
  rcases initialisePaging_map garbage k₀.heap.mem with ⟨d, s₁, htakes, hdir, hmap⟩
  have hframes := freeFrames_initialisePaging garbage k₀.heap.mem
  have hinit := k₀.initialisePaging_eq garbage
  generalize initialisePaging garbage k₀.heap.mem = result
    at hspace hevolves hdir hmap hframes hinit
  rcases result with ⟨dir, s⟩
  dsimp only at hdir hmap hframes hspace hevolves hinit
  rw [hinit] at heq hbooted₁
  rcases initialiseTasking_spec hbooted₁ heq with
    ⟨t, htasking, htask, hpagingPool, huserSpacePool, hcurrent, hw⟩
  -- tasking writes to the heap only, where there are no folders
  have hregion : ∀ a ∈ heapRegion, pageOf a < 0x100 ∨ 0xf00 ≤ pageOf a := by
    intro a ha
    rw [mem_heapRegion] at ha
    unfold pageOf
    omega
  have hw' : Writes heapRegion s.mem k.heap.mem := hw
  refine ⟨?_, ?_, ?_, ?_⟩
  · -- five slots are taken from a fresh pool, for the directory and four tables
    have hsame : freeFolders k.paging = freeFolders s := by
      unfold freeFolders Kernel.paging
      rw [hpagingPool]
      rfl
    have hcard := Finset.card_erase_add_one htakes.was_free
    have htables := hmap.card_folders
    rw [← htakes.folders, card_freeFolders_freshPools] at hcard
    rw [hsame]
    omega
  · have hsame : freeFrames k.paging = freeFrames s := by
      unfold freeFrames Kernel.paging
      rw [huserSpacePool]
      rfl
    rw [hsame, hframes]
    unfold freeFrames freshPools
    rw [Finset.card_map, Bitmap.free_zero, Finset.card_range]
    rfl
  · intro i hi hge
    rw [hcurrent]
    dsimp only
    rw [hspace.entry_of_writes hw' hregion hi, hdir, hmap.absent i hge hi]
    rfl
  · -- the first 4096 pages are mapped to themselves
    intro v hv
    have htranslate : k.translate k.currentTask v = translate s.mem (pageStart d) v := by
      unfold Kernel.translate
      rw [← htasking.directory, hcurrent]
      dsimp only
      rw [(hspace.of_writes hw' hregion).2 v hv, hdir]
    rcases hmap.translate hv with ⟨hlow, hhigh⟩
    rw [htranslate]
    by_cases hv' : v < 0x1000
    · rcases hlow hv' with ⟨p, hp, hu, hframe⟩
      rw [if_pos hv', hp, Option.map_some, hu, hframe]
    · rw [if_neg hv', hhigh hv', Option.map_none]

end Init

/-- The two initialisations return. -/
theorem initialiseKernel_compact {h : Heap} (hk : KernelHeap h [])
    (hheader : h.header = kernelHeapStart) (hend : h.heapEnd.toNat = 0xd0000)
    (garbage : ℕ → PagePointer) :
    ∃ mk, InMemory.initialiseKernel garbage h = .ok mk ∧ memorySystem.Init mk ∧
      mk.pools = ⟨0x50018, 0x501e4⟩ ∧ mk.currentTask = 0x51ff0 ∧ mk.readyQueue = 0x51ff0 ∧
      Compact mk.heap startBlocks 0x52008 := by
  have hc : Compact h [] 0x5000c := ⟨hk, hheader, hend, packed_nil _, gapStart_nil⟩
  rcases initialisePaging_compact hc garbage with ⟨g, h₁, hpaging, hc₁, hresident⟩
  obtain ⟨k₁, hk₁⟩ : ∃ k₁ : MemoryKernel,
      k₁ = ⟨h₁, ⟨0x50018, 0x501e4⟩, (initialisePaging garbage g.mem).1, 0, 0, 0⟩ := ⟨_, rfl⟩
  have hc₁' : Compact k₁.view.heap (startBlocks.take 2) 0x51fe4 := by
    rw [hk₁]
    exact hc₁
  -- the first task stands behind the two bitmaps
  rcases hc₁'.createTask (by omega) k₁.currentDirectory with ⟨t, k₂, hcreate, ht, hc₂⟩
  obtain rfl : t = 0x51ff0 := BitVec.eq_of_toNat_eq ht
  obtain ⟨mk, hmk⟩ : ∃ mk, mk =
      k₁.after { k₂ with currentTask := 0x51ff0, readyQueue := 0x51ff0 } := ⟨_, rfl⟩
  have hok : InMemory.initialiseKernel garbage h = .ok mk := by
    rw [hmk]
    unfold InMemory.initialiseKernel
    rw [hpaging, ok_bind]
    dsimp only
    rw [← hk₁]
    unfold initialiseTasking
    rw [show k₁.view.currentDirectory = k₁.currentDirectory from rfl, hcreate]
    rfl
  have hroom : h.heapStart.toNat + 12 + pagingPoolSize ≤ h.heapEnd.toNat := by
    rw [hc.heapStart, hend]
    decide
  refine ⟨mk, hok, ⟨h, [], garbage, hk, hroom, hok⟩, ?_, ?_, ?_, ?_⟩
  · rw [hmk, hk₁]
    rfl
  · rw [hmk]
    rfl
  · rw [hmk]
    rfl
  · rw [hmk]
    exact hc₂

/-- The heap of kernel.c, and its handler, over an empty memory. -/
def bootHeap : Heap :=
  handleExceptions allocationExceptionId .kernel (initializeHeap 0x50000 0x80000 noHeap)

/-- It is one the initialisations start from. -/
theorem kernelHeap_bootHeap : KernelHeap bootHeap [] := by
  rcases @initializeHeap_spec 0x50000 0x80000 (by decide)
    (by decide) noHeap with ⟨hw, hheader, hstart, hend, -⟩
  have hstart' : bootHeap.heapStart.toNat = 0x5000c := hstart
  have hend' : bootHeap.heapEnd.toNat = 0xd0000 := hend
  refine ⟨hw.congr_mem rfl rfl, rfl, by decide, ?_, ?_⟩
  · omega
  · omega

/-- **The kernel starts**, whatever else is in the memory: the two initialisations return,
with the bitmaps and the first task one after another at the start of the heap, and the
first task maps the first 4096 pages to themselves, those of the boot stack for the user. -/
theorem kernel_starts {h : Heap} (hk : KernelHeap h []) (hheader : h.header = kernelHeapStart)
    (hend : h.heapEnd.toNat = 0xd0000) (garbage : ℕ → PagePointer) :
    ∃ mk, InMemory.initialiseKernel garbage h = .ok mk ∧ mk.pools = ⟨0x50018, 0x501e4⟩ ∧
      mk.currentTask = 0x51ff0 ∧ mk.readyQueue = 0x51ff0 ∧ mk.nextPid = 1 ∧
      Compact mk.heap startBlocks 0x52008 ∧
      ∀ v < 2 ^ 20, (mk.view.translate mk.currentTask v).map (fun p => (p.frame, p.user)) =
        if v < 0x1000 then some (v, isStackPage v) else none := by
  rcases initialiseKernel_compact hk hheader hend garbage with
    ⟨mk, hok, hinit, hpools, htask, hqueue, hc⟩
  rcases embodies_init hinit with ⟨k, blocks, hinit', hr⟩
  rcases hosts_init hinit' with ⟨rota, s, hhosts, -, hsingle⟩
  have hcurrent : mk.currentTask = k.currentTask := hr.currentTask
  have hpid : mk.nextPid = k.nextPid := hr.nextPid
  refine ⟨mk, hok, hpools, htask, hqueue, ?_, hc, ?_⟩
  · rw [hpid, hhosts.tasking.nextPid, hsingle]
    rfl
  · intro v hv
    rw [hcurrent, (hr.spaces hhosts hhosts.tasking.current_mem).1 v hv]
    exact (fresh_init hinit').mapped v hv

theorem kernel_starts_boot : ∃ mk,
    InMemory.initialiseKernel (fun _ => PagePointer.absent) bootHeap = .ok mk ∧
      mk.currentTask = 0x51ff0 ∧ Compact mk.heap startBlocks 0x52008 := by
  have hend : bootHeap.heapEnd.toNat = 0xd0000 := by decide
  rcases kernel_starts kernelHeap_bootHeap rfl hend fun _ => PagePointer.absent with
    ⟨mk, hok, -, htask, -, -, hc, -⟩
  exact ⟨mk, hok, htask, hc⟩

end MushOS
