import MushOS.Theory.Agreement
import MushOS.Kernel.KernelSpace
import MushOS.Kernel.Pools
import MushOS.Kernel.TaskHeap

/-! # pages.c on the flat memory

The functions of `core/kernel/pages.c` as they run: both bitmaps are blocks of the
kernel heap, so that one memory holds the directories, the pages, the heap and the
bitmaps, and every allocation may fault on the way. `Kernel/Pages.lean` keeps the
bitmaps beside the memory instead; here each function is shown to run in lockstep
with the one there.

What makes the two agree is where things are. The heap, and the bitmaps with it, lies
between the boot stack and the paging pool (`OutsideHeap`), and no function of pages.c
reads or writes a page in there, as long as the source of a clone has no table and no
user frame in there.
-/

namespace MushOS

open ByteMemory Loop

/-! ## Model -/

/-- The globals `paging_pool` and `user_space_pool`. -/
structure PoolPointers where
  pagingPool : UDword
  userSpacePool : UDword
deriving DecidableEq, Repr

/-- The bytes of both bitmaps. -/
def PoolPointers.bitmaps (pools : PoolPointers) : Set UDword :=
  bitmapSpan pools.pagingPool pagingPoolSize ∪ bitmapSpan pools.userSpacePool userSpacePoolSize

namespace InMemory

/-- One iteration of `clone_table`. -/
def cloneTableEntry (pools : PoolPointers) (src : PagePointer) (table pages : UDword) (i : ℕ)
    (h : Heap) : Except Fault Heap :=
  if (h.mem.entry pages i).present = false then .ok h
  else if src.user || (h.mem.entry pages i).user then do
    let h := { h with mem := h.mem.setEntry table i (clonePagePointer (h.mem.entry pages i)) }
    let (frame, h) ← allocateFrame pools.userSpacePool h
    let h := { h with
      mem := h.mem.setEntry table i { h.mem.entry table i with frame := frameOf frame } }
    return { h with
      mem := copyPagePhysical (getContentsAsPage (h.mem.entry pages i))
        (getContentsAsPage (h.mem.entry table i)) h.mem }
  else .ok { h with mem := h.mem.setEntry table i (h.mem.entry pages i) }

def cloneTable (pools : PoolPointers) (src : PagePointer) (h : Heap) :
    Except Fault (PagePointer × Heap) := do
  let (table, h) ← allocatePageFolder pools.pagingPool h
  let pages := getContentsAsPage src
  let h ← loopM (cloneTableEntry pools src table pages) pagesInTable h
  return ({ clonePagePointer src with frame := frameOf table }, h)

/-- One iteration of `clone_directory`. -/
def cloneDirectoryEntry (pools : PoolPointers) (src dir : UDword) (i : ℕ) (h : Heap) :
    Except Fault Heap :=
  if (h.mem.entry src i).present = false then .ok h
  else if (h.mem.entry src i).user || containsUserPages (h.mem.entry src i) h.mem then do
    let (table, h) ← cloneTable pools (h.mem.entry src i) h
    return { h with mem := h.mem.setEntry dir i table }
  else .ok { h with mem := h.mem.setEntry dir i (h.mem.entry src i) }

def cloneDirectory (pools : PoolPointers) (src : UDword) (h : Heap) :
    Except Fault (UDword × Heap) := do
  let (dir, h) ← allocatePageFolder pools.pagingPool h
  let h ← loopM (cloneDirectoryEntry pools src dir) pagesInTable h
  return (dir, h)

def getPage (pools : PoolPointers) (garbage : PagePointer) (address : UDword) (make : Bool)
    (dir : UDword) (h : Heap) : Except Fault (UDword × Heap) :=
  if address > userSpaceEnd then .ok (0, h)
  else
    let page := address.toNat / pageSize
    let tableIdx := page / pagesInTable
    let found (h : Heap) : UDword × Heap :=
      (entryAddress (getContentsAsPage (h.mem.entry dir tableIdx)) (page % pagesInTable), h)
    if getContentsAsPage (h.mem.entry dir tableIdx) ≠ 0 then .ok (found h)
    else if make then do
      let (table, h) ← allocatePageFolder pools.pagingPool h
      return found { h with
        mem := h.mem.setEntry dir tableIdx (createPageEntry garbage table true true) }
    else .ok (0, h)

/-- Iteration `n` of the loop of `initialise_paging`. -/
def mapKernelPage (pools : PoolPointers) (garbage : ℕ → PagePointer) (dir : UDword) (n : ℕ)
    (h : Heap) : Except Fault Heap := do
  let i := BitVec.ofNat 32 (n * pageSize)
  let (page, h) ← getPage pools (garbage (2 * n)) i true dir h
  return { h with
    mem := h.mem.write32 page
      (createPageEntry (garbage (2 * n + 1)) i (!inStack i) (inStack i)).encode }

/-- `ralloc` of a bitmap of `size` bytes, and its `memory_clear`. -/
def allocatePool (size : ℕ) (h : Heap) : Except Fault (UDword × Heap) := do
  let (pool, h) ← ralloc (BitVec.ofNat 32 size) h
  return (pool, { h with mem := memoryClear pool (BitVec.ofNat 32 size) 0 h.mem })

/-- `initialise_paging` up to the interrupt handler and the registers; returns the two pools
and `kernel_directory`. -/
def initialisePaging (garbage : ℕ → PagePointer) (h : Heap) :
    Except Fault (PoolPointers × UDword × Heap) := do
  let (pagingPool, h) ← allocatePool pagingPoolSize h
  let (userSpacePool, h) ← allocatePool userSpacePoolSize h
  let pools : PoolPointers := ⟨pagingPool, userSpacePool⟩
  let (dir, h) ← allocatePageFolder pools.pagingPool h
  let h ← loopM (mapKernelPage pools garbage dir) (userSpaceStart.toNat / pageSize) h
  return (pools, dir, h)

end InMemory

/-- No byte of the page `n` is in the region of the kernel heap. -/
def OutsideHeap (n : ℕ) : Prop := n < 7 ∨ 0x100 ≤ n

/-- The heap `h` holds the state `s` of pages.c: the two bitmaps are blocks of `h`, and the
rest of the memory is that of `s`. Only the memory has changed since `g`. -/
structure Resident (pools : PoolPointers) (blocks : List Block) (g h : Heap) (s : Paging) :
    Prop where
  heap : KernelHeap h blocks
  pagingPool : ⟨pools.pagingPool, BitVec.ofNat 32 pagingPoolSize⟩ ∈ blocks
  userSpacePool : ⟨pools.userSpacePool, BitVec.ofNat 32 userSpacePoolSize⟩ ∈ blocks
  holds : Holds pools.pagingPool pools.userSpacePool h s
  others : h = { g with mem := h.mem }

/-- The tables and the user frames of a directory, and the directory, are outside the heap. -/
structure SpaceOutside (m : Mem) (src : UDword) : Prop where
  directory : OutsideHeap (pageOf src)
  tables : ∀ i < 1024, (m.entry src i).present = true → OutsideHeap (m.entry src i).frame.toNat
  frames : ∀ v < 2 ^ 20, ∀ p, translate m src v = some p → p.user = true → OutsideHeap p.frame

/-- The same of one table, which is in use. -/
structure TableOutside (s : Paging) (src : PagePointer) : Prop where
  nonzero : src.frame.toNat ≠ 0
  not_free : src.frame.toNat ∉ free s
  table : OutsideHeap src.frame.toNat
  frames : ∀ j < 1024, isUserPage src.user (s.mem.entry (pageStart src.frame.toNat) j) = true →
    OutsideHeap (s.mem.entry (pageStart src.frame.toNat) j).frame.toNat

/-! ## Outside the heap -/

section Outside
variable {pools : PoolPointers} {blocks : List Block} {g h : Heap} {s : Paging} {n i k t : ℕ}
  {K : Set ℕ} {m m' : Mem} {a v : UDword} {src dir : UDword}

theorem OutsideHeap.not_mem (hn : OutsideHeap n) (ha : pageOf a = n) : a ∉ heapRegion := by
  unfold OutsideHeap at hn
  unfold pageOf at ha
  rw [mem_heapRegion]
  omega

theorem outsideHeap_of_free (h : n ∈ free s) : OutsideHeap n :=
  Or.inr (free_range h).1

theorem FolderOrNull.outside {s' : Paging} (h : FolderOrNull s k s') : OutsideHeap k := by
  rcases h with ⟨-, rfl, -⟩ | htakes
  · exact Or.inl (by decide)
  · exact outsideHeap_of_free (mem_free.mpr (Or.inl htakes.was_free))

/-- A frame, or page 0, and no memory write. -/
theorem allocateFrame_outside (s : Paging) : ∃ n s', allocateFrame s = (pageStart n, s') ∧
    n < 2 ^ 20 ∧ OutsideHeap n ∧ s'.mem = s.mem := by
  rcases allocateFrame_spec s with ⟨-, heq⟩ | ⟨n, s', heq, htakes⟩
  · exact ⟨0, s, heq, by decide, Or.inl (by decide), rfl⟩
  · have hrange := freeFrames_range htakes.was_free
    refine ⟨n, s', heq, by omega, ?_, htakes.mem⟩
    exact outsideHeap_of_free (mem_free.mpr (Or.inr htakes.was_free))

/-- The bytes of a bitmap belong to its block. -/
theorem KernelHeap.bitmap_region (hk : KernelHeap h blocks) {pool : UDword} (hn : n < 2 ^ 20)
    (hb : ⟨pool, BitVec.ofNat 32 n⟩ ∈ blocks) (ha : a ∈ bitmapSpan pool n) :
    a ∈ heapRegion ∧ a ∈ Block.payload ⟨pool, BitVec.ofNat 32 n⟩ := by
  rcases ha with ⟨j, hj, rfl⟩
  have hin := hk.wellFormed.inside _ hb
  have hstart := hk.wellFormed.heapStart
  have hlow := hk.low
  have hhigh := hk.high
  have hsize : (BitVec.ofNat 32 n).toNat = n := toNat_ofNat_of_lt (by omega)
  unfold Block.stop at hin
  simp only [hsize] at hin
  have haddr : (pool + BitVec.ofNat 32 j).toNat = pool.toNat + j := toNat_add_ofNat (by omega)
  unfold Block.payload
  rw [mem_heapRegion, mem_span, haddr]
  simp only [hsize]
  exact ⟨⟨by omega, by omega⟩, by omega, by omega⟩

/-- A user frame, as the entry that names it. -/
theorem SpaceOutside.frame (h : SpaceOutside m src) (hi : i < 1024) (ht : t < 1024)
    (hc : isCloned m (m.entry src i) = true)
    (hu : isUserPage (m.entry src i).user
      (m.entry (pageStart (m.entry src i).frame.toNat) t) = true) :
    OutsideHeap (m.entry (pageStart (m.entry src i).frame.toNat) t).frame.toNat := by
  have hdiv : (i * 1024 + t) / 1024 = i := by omega
  have hmod : (i * 1024 + t) % 1024 = t := by omega
  unfold isCloned at hc
  unfold isUserPage at hu
  rw [Bool.and_eq_true] at hc hu
  refine h.frames (i * 1024 + t) (by omega) ⟨_, _⟩ (translate_eq_some.mpr ?_) hu.2
  rw [hdiv, hmod]
  exact ⟨rfl, rfl, hc.1, hu.1⟩

/-- A table of such a directory. -/
theorem SpaceOutside.cloned (h : SpaceOutside s.mem src) (hheld : Held s src) (hi : i < 1024)
    (hc : isCloned s.mem (s.mem.entry src i) = true) : TableOutside s (s.mem.entry src i) := by
  have hpresent : (s.mem.entry src i).present = true := by
    unfold isCloned at hc
    rw [Bool.and_eq_true] at hc
    exact hc.1
  refine ⟨hheld.table_nonzero i hi hpresent, hheld.table_not_free i hi hpresent,
    h.tables i hi hpresent, ?_⟩
  intro j hj hu
  exact h.frame hi hj hc hu

/-- It stays so while other pages are written. -/
theorem TableOutside.later {W : Set ℕ} {s' : Paging} {e : PagePointer} (h : TableOutside s e)
    (hevolves : Evolves W s s') (hW : e.frame.toNat ∉ W) : TableOutside s' e := by
  have hentry : ∀ j < 1024, s'.mem.entry (pageStart e.frame.toNat) j =
      s.mem.entry (pageStart e.frame.toNat) j :=
    fun j hj => hevolves.entry (frame_lt e) hW h.not_free hj
  refine ⟨h.nonzero, fun hmem => h.not_free (hevolves.free hmem), h.table, ?_⟩
  intro j hj
  rw [hentry j hj]
  exact h.frames j hj

/-- The address spaces that `initialise_paging` and `fork` make. -/
theorem TaskSpace.outside (h : TaskSpace s dir) : SpaceOutside s.mem dir := by
  refine ⟨?_, ?_, ?_⟩
  · exact Or.inr h.folder.1
  · intro i hi hpresent
    exact Or.inr (h.tables i hi hpresent).1
  · intro v hv p hp hu
    have hrange := h.user v hv p hp hu
    unfold OutsideHeap
    omega

end Outside

/-! ## Lockstep -/

namespace Resident
variable {pools : PoolPointers} {blocks : List Block} {g h : Heap} {s : Paging} {i k t : ℕ}
  {K : Set ℕ} {m m' : Mem} {a v : UDword}

theorem bitmaps_region (hr : Resident pools blocks g h s) (ha : a ∈ pools.bitmaps) :
    a ∈ heapRegion := by
  rcases ha with ha | ha
  · exact (hr.heap.bitmap_region (by decide) hr.pagingPool ha).1
  · exact (hr.heap.bitmap_region (by decide) hr.userSpacePool ha).1

theorem agree (hr : Resident pools blocks g h s) : AgreeOutside pools.bitmaps s.mem h.mem :=
  hr.holds.mem

theorem samePage (hr : Resident pools blocks g h s) (hk : k < 2 ^ 20) (hout : OutsideHeap k) :
    SamePage s.mem k h.mem k :=
  hr.agree.samePage hk fun _ hx hpage => hout.not_mem hpage (hr.bitmaps_region hx)

/-- An entry of a folder outside the heap. -/
theorem entry (hr : Resident pools blocks g h s) (hk : k < 2 ^ 20) (hout : OutsideHeap k)
    (hi : i < 1024) : h.mem.entry (pageStart k) i = s.mem.entry (pageStart k) i :=
  entry_samePage (hr.samePage hk hout) hk hk hi

/-- Writes outside the heap, made on both sides. -/
theorem update (hr : Resident pools blocks g h s) (hm : Writes (pages K) h.mem m)
    (hK : ∀ n ∈ K, OutsideHeap n) (hagree : AgreeOutside pools.bitmaps m' m) :
    Resident pools blocks g { h with mem := m } { s with mem := m' } := by
  have hregion : ∀ a ∈ heapRegion, m.bytes a = h.mem.bytes a := by
    intro a ha
    exact hm.frame a fun hmem => (hK _ hmem).not_mem rfl ha
  refine ⟨hr.heap.of_frame rfl rfl hregion, hr.pagingPool, hr.userSpacePool, ⟨?_, ?_, hagree,
    hr.holds.apart⟩, ?_⟩
  · intro i hi
    rw [← hr.holds.paging i hi]
    exact hregion _ (hr.bitmaps_region (Or.inl ⟨i, hi, rfl⟩))
  · intro i hi
    rw [← hr.holds.userSpace i hi]
    exact hregion _ (hr.bitmaps_region (Or.inr ⟨i, hi, rfl⟩))
  · rw [hr.others]

/-- `folder->contents[i] = p`, in a folder outside the heap. -/
theorem setEntry (hr : Resident pools blocks g h s) (hk : k < 2 ^ 20) (hout : OutsideHeap k)
    (hi : i < 1024) (p : PagePointer) :
    Resident pools blocks g { h with mem := h.mem.setEntry (pageStart k) i p }
      { s with mem := s.mem.setEntry (pageStart k) i p } := by
  refine hr.update (writes_setEntry h.mem hk hi) ?_ (hr.agree.write32 _ _)
  rintro n rfl
  exact hout

end Resident

/-- Copying a page that hides nothing. -/
theorem agreeOutside_copyPagePhysical {S : Set UDword} {m m' : Mem} {k : ℕ}
    (h : AgreeOutside S m m') (hk : k < 2 ^ 20) (hS : ∀ x ∈ S, pageOf x ≠ k)
    (destination : UDword) :
    AgreeOutside S (copyPagePhysical (pageStart k) destination m)
      (copyPagePhysical (pageStart k) destination m') := by
  unfold copyPagePhysical
  -- both loops read the same words, whatever the destination is
  have hloop : ∀ n ≤ 1024, AgreeOutside S
      (loop (fun i m => m.write32 (destination + BitVec.ofNat 32 (4 * i))
        (m.read32 (pageStart k + BitVec.ofNat 32 (4 * i)))) n m)
      (loop (fun i m => m.write32 (destination + BitVec.ofNat 32 (4 * i))
        (m.read32 (pageStart k + BitVec.ofNat 32 (4 * i)))) n m') := by
    intro n hn
    induction n with
    | zero => exact h
    | succ n ih =>
      have hprev := ih (by omega)
      have haddr := toNat_entryAddress (i := n) hk (by omega)
      rw [loop, loop, hprev.read32]
      · exact hprev.write32 _ _
      · show (entryAddress (pageStart k) n).toNat + 4 ≤ 2 ^ 32
        omega
      · intro x hx hmem
        exact hS x hmem (span_entry_subset hk (by omega) x hx)
  exact hloop 1024 (le_refl _)

namespace Resident
variable {pools : PoolPointers} {blocks : List Block} {g h : Heap} {s : Paging} {i k t : ℕ}

/-- A bitmap that is a block of the heap hosts its pool. -/
theorem hosts (hr : Resident pools blocks g h s) {pool : UDword} {n : ℕ} (kind : PagePool)
    (hn : n < 2 ^ 20) (hreach : kind.start.toNat + 4096 * (n * 8) < 2 ^ 32)
    (hb : ⟨pool, BitVec.ofNat 32 n⟩ ∈ blocks) : HostsPool kind pool n h := by
  have hsize : (BitVec.ofNat 32 n).toNat = n := toNat_ofNat_of_lt (by omega)
  have hin := hr.heap.wellFormed.inside _ hb
  have hhigh := hr.heap.high
  have hstart := PagePool.toNat_start kind
  unfold Block.stop at hin
  refine (hostsPool_of_block hr.heap.wellFormed hb hsize hreach ?_).1
  intro a ha hregion
  unfold PagePool.region at hregion
  rw [mem_span] at hregion
  rcases ha with hmeta | hpayload
  · have hlow := hr.heap.metadata_region hmeta
    rw [mem_heapRegion] at hlow
    omega
  · unfold Block.payload at hpayload
    rw [mem_span] at hpayload
    omega

/-- A slot that has been taken: the heap itself is as it was. -/
theorem takesSlot_heap (hr : Resident pools blocks g h s) {pool : UDword} {n b : ℕ}
    {kind : PagePool} {h' : Heap} (hn : n < 2 ^ 20) (hb : ⟨pool, BitVec.ofNat 32 n⟩ ∈ blocks)
    (hosts : HostsPool kind pool n h) (hlt : b < n * 8) (htakes : TakesSlot kind pool n b h h') :
    KernelHeap h' blocks ∧ h' = { g with mem := h'.mem } := by
  have hsub := PagePool.cleared_subset_region hosts hlt
  have hstart := PagePool.toNat_start kind
  constructor
  · rw [htakes.others]
    refine hr.heap.of_writes htakes.writes ?_
    intro a hmeta hmem
    rcases hmem with hbyte | hpage
    · refine hr.heap.wellFormed.payload_not_metadata hb ?_ hmeta
      exact (hr.heap.bitmap_region hn hb ⟨b / 8, by omega, hbyte⟩).2
    · have hlow := hr.heap.metadata_region hmeta
      have hregion := hsub hpage
      unfold PagePool.region at hregion
      rw [mem_span] at hregion
      rw [mem_heapRegion] at hlow
      omega
  · rw [htakes.others, hr.others]

/-- `allocate_frame`, on both sides. -/
theorem allocateFrame (hr : Resident pools blocks g h s) :
    ∃ h', InMemory.allocateFrame pools.userSpacePool h = .ok ((MushOS.allocateFrame s).1, h') ∧
      Resident pools blocks g h' (MushOS.allocateFrame s).2 := by
  have hosts : HostsPool .userSpace pools.userSpacePool userSpacePoolSize h :=
    hr.hosts .userSpace (by decide) (by decide) hr.userSpacePool
  rcases allocateFrame_holds hr.holds hosts with ⟨h', hok, hholds⟩
  refine ⟨h', hok, ?_⟩
  rcases allocate_spec hosts with ⟨b, h'', hlowest, hok', htakes⟩ | ⟨-, hok'⟩
  · rcases Prod.mk.inj (Except.ok.inj (hok.symm.trans hok')) with ⟨-, rfl⟩
    rcases hr.takesSlot_heap (by decide) hr.userSpacePool hosts hlowest.lt htakes with
      ⟨hheap, hothers⟩
    exact ⟨hheap, hr.pagingPool, hr.userSpacePool, hholds, hothers⟩
  · rcases Prod.mk.inj (Except.ok.inj (hok.symm.trans hok')) with ⟨-, rfl⟩
    exact ⟨hr.heap, hr.pagingPool, hr.userSpacePool, hholds, hr.others⟩

/-- `allocate_page_folder`, on both sides. -/
theorem allocatePageFolder (hr : Resident pools blocks g h s) :
    ∃ h', InMemory.allocatePageFolder pools.pagingPool h =
        .ok ((MushOS.allocatePageFolder s).1, h') ∧
      Resident pools blocks g h' (MushOS.allocatePageFolder s).2 := by
  have hosts : HostsPool .paging pools.pagingPool pagingPoolSize h :=
    hr.hosts .paging (by decide) (by decide) hr.pagingPool
  have houtside : ∀ a ∈ bitmapSpan pools.userSpacePool userSpacePoolSize,
      a ∉ PagePool.paging.region pagingPoolSize := by
    intro a ha hregion
    have hlow := hr.bitmaps_region (Or.inr ha)
    have hstart := PagePool.toNat_start .paging
    unfold PagePool.region at hregion
    rw [mem_span] at hregion
    rw [mem_heapRegion] at hlow
    omega
  rcases allocatePageFolder_holds hr.holds hosts houtside with ⟨h', hok, hholds⟩
  refine ⟨h', hok, ?_⟩
  rcases allocate_spec hosts with ⟨b, h'', hlowest, hok', htakes⟩ | ⟨-, hok'⟩
  · rcases Prod.mk.inj (Except.ok.inj (hok.symm.trans hok')) with ⟨-, rfl⟩
    rcases hr.takesSlot_heap (by decide) hr.pagingPool hosts hlowest.lt htakes with ⟨hheap, hothers⟩
    exact ⟨hheap, hr.pagingPool, hr.userSpacePool, hholds, hothers⟩
  · rcases Prod.mk.inj (Except.ok.inj (hok.symm.trans hok')) with ⟨-, rfl⟩
    exact ⟨hr.heap, hr.pagingPool, hr.userSpacePool, hholds, hr.others⟩

/-- One iteration of `clone_table`. -/
theorem cloneTableEntry (hr : Resident pools blocks g h s) (src : PagePointer) (hk : k < 2 ^ 20)
    (ht : t < 2 ^ 20) (hkt : k ≠ t) (hkout : OutsideHeap k) (htout : OutsideHeap t) (hi : i < 1024)
    (hframe : isUserPage src.user (s.mem.entry (pageStart t) i) = true →
      OutsideHeap (s.mem.entry (pageStart t) i).frame.toNat) :
    ∃ h', InMemory.cloneTableEntry pools src (pageStart k) (pageStart t) i h = .ok h' ∧
      Resident pools blocks g h'
        (MushOS.cloneTableEntry src (pageStart k) (pageStart t) i s) := by
  have hentry := hr.entry ht htout hi
  unfold InMemory.cloneTableEntry MushOS.cloneTableEntry
  rw [hentry]
  obtain ⟨e, he⟩ : ∃ e, s.mem.entry (pageStart t) i = e := ⟨_, rfl⟩
  rw [he] at hframe ⊢
  by_cases hpresent : e.present = false
  · rw [if_pos hpresent, if_pos hpresent]
    exact ⟨h, rfl, hr⟩
  rw [if_neg hpresent, if_neg hpresent]
  by_cases huser : (src.user || e.user) = true
  · have hout : OutsideHeap e.frame.toNat := by
      refine hframe ?_
      unfold isUserPage
      rw [Bool.not_eq_false] at hpresent
      rw [hpresent, huser, Bool.and_self]
    rw [if_pos huser, if_pos huser, clonePagePointer_eq]
    -- the first assignment and the allocation
    have hr₁ := hr.setEntry hk hkout hi e
    rcases hr₁.allocateFrame with ⟨h₂, hok, hr₂⟩
    rcases allocateFrame_outside
      { s with mem := s.mem.setEntry (pageStart k) i e } with ⟨n, s₂, hcall, hn, hnout, hmem₂⟩
    rw [hcall] at hok hr₂
    simp only [hcall, hok, ok_bind]
    -- the second assignment: both sides read the entry they have just written
    have hself : s₂.mem.entry (pageStart k) i = e := by
      rw [hmem₂, entry_setEntry_self]
    have hself' : h₂.mem.entry (pageStart k) i = e := (hr₂.entry hk hkout hi).trans hself
    have hr₃ := hr₂.setEntry hk hkout hi { e with frame := frameOf (pageStart n) }
    have hsource : (s₂.mem.setEntry (pageStart k) i { e with frame := frameOf (pageStart n) }).entry
        (pageStart t) i = e := by
      rw [entry_setEntry_other _ hk ht hi hi hkt, hmem₂, entry_setEntry_other _ hk ht hi hi hkt, he]
    have hsource' := (hr₃.entry ht htout hi).trans hsource
    dsimp only at hsource'
    simp only [hself, hself', hsource, hsource', entry_setEntry_self, getContentsAsPage_eq,
      toNat_frameOf_pageStart hn]
    -- the copy: from a frame outside the heap to another
    refine ⟨_, rfl, hr₃.update (writes_copyPagePhysical hn _ _) ?_ ?_⟩
    · rintro j rfl
      exact hnout
    · refine agreeOutside_copyPagePhysical hr₃.agree (frame_lt e) ?_ _
      intro x hx hpage
      exact hout.not_mem hpage (hr.bitmaps_region hx)
  · rw [if_neg huser, if_neg huser]
    exact ⟨_, rfl, hr.setEntry hk hkout hi e⟩

/-- **`clone_table`**, on both sides. -/
theorem cloneTable (hr : Resident pools blocks g h s) {src : PagePointer}
    (hsrc : TableOutside s src) :
    ∃ h', InMemory.cloneTable pools src h = .ok ((MushOS.cloneTable src s).1, h') ∧
      Resident pools blocks g h' (MushOS.cloneTable src s).2 := by
  rcases allocatePageFolder_cases s with ⟨k, s₁, hcall, hfolder⟩
  rcases hr.allocatePageFolder with ⟨h₁, hok, hr₁⟩
  rw [hcall] at hok hr₁
  have hk := hfolder.lt
  have hne : src.frame.toNat ≠ k := hfolder.ne hsrc.nonzero hsrc.not_free
  have hsrc₁ := hsrc.later hfolder.evolves (Set.notMem_empty _)
  -- the source table is not among the pages the loop writes
  have hkept : src.frame.toNat ∉ ({0, k} : Set ℕ) := by
    rintro (hzero | hnew)
    · exact hsrc.nonzero hzero
    · exact hne hnew
  rcases loopM_simulates
    (f := MushOS.cloneTableEntry src (pageStart k) (pageStart src.frame.toNat))
    (g := InMemory.cloneTableEntry pools src (pageStart k) (pageStart src.frame.toNat))
    (n := pagesInTable) (s := s₁) (t := h₁)
    (R := fun _ s' h' => Resident pools blocks g h' s' ∧ Evolves {0, k} s₁ s')
    ⟨hr₁, Evolves.refl _ s₁⟩ (by
      rintro i s' h' hi ⟨hr', hevolves⟩
      have hsrc' := hsrc₁.later hevolves hkept
      obtain ⟨h'', hstep, hr''⟩ := hr'.cloneTableEntry src hk (frame_lt src) (Ne.symm hne)
        hfolder.outside hsrc.table hi (hsrc'.frames i hi)
      exact ⟨h'', hstep, hr'', hevolves.trans
        (evolves_cloneTableEntry src _ hk (by simp) (fun _ => by simp) hi)⟩) with
    ⟨h', hloop, hr', -⟩
  have hclone : MushOS.cloneTable src s =
      ({ clonePagePointer src with frame := frameOf (pageStart k) },
        loop (MushOS.cloneTableEntry src (pageStart k) (pageStart src.frame.toNat)) pagesInTable
          s₁) := by
    unfold MushOS.cloneTable
    rw [hcall, getContentsAsPage_eq]
  refine ⟨h', ?_, ?_⟩
  · unfold InMemory.cloneTable
    rw [hok, ok_bind, hclone]
    simp only [getContentsAsPage_eq, hloop]
    rfl
  · rw [hclone]
    exact hr'

/-- One iteration of `clone_directory`. -/
theorem cloneDirectoryEntry (hr : Resident pools blocks g h s) (hk : k < 2 ^ 20) (ht : t < 2 ^ 20)
    (hkout : OutsideHeap k) (htout : OutsideHeap t) (hi : i < 1024)
    (htable : (s.mem.entry (pageStart t) i).present = true →
      OutsideHeap (s.mem.entry (pageStart t) i).frame.toNat)
    (hcloned : isCloned s.mem (s.mem.entry (pageStart t) i) = true →
      TableOutside s (s.mem.entry (pageStart t) i)) :
    ∃ h', InMemory.cloneDirectoryEntry pools (pageStart t) (pageStart k) i h = .ok h' ∧
      Resident pools blocks g h'
        (MushOS.cloneDirectoryEntry (pageStart t) (pageStart k) i s) := by
  have hentry := hr.entry ht htout hi
  obtain ⟨e, he⟩ : ∃ e, s.mem.entry (pageStart t) i = e := ⟨_, rfl⟩
  by_cases hpresent : e.present = false
  · unfold InMemory.cloneDirectoryEntry MushOS.cloneDirectoryEntry
    rw [hentry, he, if_pos hpresent, if_pos hpresent]
    exact ⟨h, rfl, hr⟩
  have habsent := hpresent
  rw [he] at htable hcloned
  rw [Bool.not_eq_false] at hpresent
  have hout := htable hpresent
  -- the table is outside of the heap, so both memories show the same user pages in it
  have hsame : isCloned h.mem e = isCloned s.mem e :=
    isCloned_congr fun j hj => hr.entry (frame_lt e) hout hj
  have hcontains : (e.user || containsUserPages e h.mem) =
      (e.user || containsUserPages e s.mem) := by
    unfold isCloned at hsame
    rwa [hpresent, Bool.true_and, Bool.true_and] at hsame
  unfold InMemory.cloneDirectoryEntry MushOS.cloneDirectoryEntry
  rw [hentry, he, if_neg habsent, if_neg habsent, hcontains]
  by_cases hc : (e.user || containsUserPages e s.mem) = true
  · rw [if_pos hc, if_pos hc]
    have hcl : isCloned s.mem e = true := by
      unfold isCloned
      rw [hpresent, hc, Bool.and_self]
    rcases hr.cloneTable (hcloned hcl) with ⟨h₁, hok, hr₁⟩
    rw [hok]
    exact ⟨_, rfl, hr₁.setEntry hk hkout hi _⟩
  · rw [if_neg hc, if_neg hc]
    exact ⟨_, rfl, hr.setEntry hk hkout hi e⟩

/-- **`clone_directory`**, on both sides, whatever the pools hold. -/
theorem cloneDirectory (hr : Resident pools blocks g h s) {src : UDword} (hheld : Held s src)
    (hsrc : SpaceOutside s.mem src) :
    ∃ h', InMemory.cloneDirectory pools src h = .ok ((MushOS.cloneDirectory src s).1, h') ∧
      Resident pools blocks g h' (MushOS.cloneDirectory src s).2 := by
  rcases allocatePageFolder_cases s with ⟨d, s₁, hcall, hfolder⟩
  rcases hr.allocatePageFolder with ⟨h₁, hok, hr₁⟩
  rw [hcall] at hok hr₁
  have hsrcne : pageOf src ≠ d := hfolder.ne hheld.nonzero hheld.not_free
  have hkept : pageOf src ∉ ({0, d} : Set ℕ) := by
    rintro (hzero | hnew)
    · exact hheld.nonzero hzero
    · exact hsrcne hnew
  obtain ⟨h', hloop, hr', -⟩ := loopM_simulates
    (f := MushOS.cloneDirectoryEntry src (pageStart d))
    (g := InMemory.cloneDirectoryEntry pools src (pageStart d))
    (n := pagesInTable) (s := s₁) (t := h₁)
    (R := fun _ s' h' => Resident pools blocks g h' s' ∧ Evolves {0, d} s₁ s')
    ⟨hr₁, Evolves.refl _ s₁⟩ (by
      rintro i s' h' hi ⟨hr', hevolves⟩
      have hall : Evolves {0, d} s s' :=
        (hfolder.evolves.mono (Set.empty_subset _)).trans hevolves
      -- the source reads as it did at the start, and so do its tables
      have hentry := hheld.entry hall hkept hi
      have htable : ∀ hpresent : (s.mem.entry src i).present = true,
          (s.mem.entry src i).frame.toNat ∉ ({0, d} : Set ℕ) := by
        intro hpresent
        have hnonzero := hheld.table_nonzero i hi hpresent
        rintro (hzero | hnew)
        · exact hnonzero hzero
        · exact hfolder.ne hnonzero (hheld.table_not_free i hi hpresent) hnew
      have hcl := (hheld.cloned hall hkept hi htable).1
      have hstep := hr'.cloneDirectoryEntry (k := d) (t := pageOf src) (i := i) hfolder.lt
        (pageOf_lt src) hfolder.outside hsrc.directory hi
      rw [← hheld.src_eq, hentry] at hstep
      rw [hentry] at hcl
      obtain ⟨h'', hok'', hr''⟩ := hstep (hsrc.tables i hi) (by
        intro hc
        rw [hcl] at hc
        have hpresent : (s.mem.entry src i).present = true := by
          unfold isCloned at hc
          rw [Bool.and_eq_true] at hc
          exact hc.1
        exact (hsrc.cloned hheld hi hc).later hall (htable hpresent))
      exact ⟨h'', hok'', hr'', hevolves.trans
        (evolves_cloneDirectoryEntry src s' hfolder.lt (by simp) (by simp) hi)⟩)
  have hclone : MushOS.cloneDirectory src s =
      (pageStart d, loop (MushOS.cloneDirectoryEntry src (pageStart d)) pagesInTable s₁) := by
    unfold MushOS.cloneDirectory
    rw [hcall]
  refine ⟨h', ?_, ?_⟩
  · unfold InMemory.cloneDirectory
    rw [hok, ok_bind, hclone]
    simp only [hloop]
    rfl
  · rw [hclone]
    exact hr'

/-- **`get_page`**, on both sides; the entry it finds is outside the heap. -/
theorem getPage (hr : Resident pools blocks g h s) (hk : k < 2 ^ 20) (hkout : OutsideHeap k)
    (garbage : PagePointer) (make : Bool) {a : UDword}
    (htable : OutsideHeap (s.mem.entry (pageStart k) (pageOf a / 1024)).frame.toNat) :
    ∃ h', InMemory.getPage pools garbage a make (pageStart k) h =
        .ok ((MushOS.getPage garbage a make (pageStart k) s).1, h') ∧
      Resident pools blocks g h' (MushOS.getPage garbage a make (pageStart k) s).2 ∧
      ∃ n < 2 ^ 20, OutsideHeap n ∧
        ((MushOS.getPage garbage a make (pageStart k) s).1 = 0 ∧ n = 0 ∨
          (MushOS.getPage garbage a make (pageStart k) s).1 =
            entryAddress (pageStart n) (pageOf a % 1024)) := by
  have hnull : ∃ n < 2 ^ 20, OutsideHeap n ∧ ((0 : UDword) = 0 ∧ n = 0 ∨
      (0 : UDword) = entryAddress (pageStart n) (pageOf a % 1024)) :=
    ⟨0, by decide, Or.inl (by decide), Or.inl ⟨rfl, rfl⟩⟩
  by_cases hrange : a > userSpaceEnd
  · unfold InMemory.getPage MushOS.getPage
    rw [if_pos hrange, if_pos hrange]
    exact ⟨h, rfl, hr, hnull⟩
  have hindex : pageOf a / 1024 < 1024 := by
    have hend : userSpaceEnd.toNat = 0x10000000 := by decide
    rw [gt_iff_lt, BitVec.lt_def, hend] at hrange
    unfold pageOf
    omega
  have hentry := hr.entry hk hkout hindex
  obtain ⟨e, he⟩ : ∃ e, s.mem.entry (pageStart k) (pageOf a / 1024) = e := ⟨_, rfl⟩
  rw [he] at htable
  have hpage : a.toNat / pageSize = pageOf a := rfl
  have hpages : pagesInTable = 1024 := rfl
  unfold InMemory.getPage MushOS.getPage
  rw [if_neg hrange, if_neg hrange]
  simp only [hpage, hpages, hentry, he]
  by_cases hfound : getContentsAsPage e ≠ 0
  · rw [if_pos hfound, if_pos hfound]
    refine ⟨h, rfl, hr, e.frame.toNat, frame_lt e, htable, Or.inr ?_⟩
    rw [getContentsAsPage_eq]
  rw [if_neg hfound, if_neg hfound]
  by_cases hmake : make = true
  · rw [if_pos hmake, if_pos hmake]
    -- a new table: the entry is the one just written
    rcases allocatePageFolder_cases s with ⟨t, s₁, hcall, hfolder⟩
    rcases hr.allocatePageFolder with ⟨h₁, hok, hr₁⟩
    rw [hcall] at hok hr₁
    have ht := hfolder.lt
    have hnew : (createPageEntry garbage (pageStart t) true true).frame.toNat = t := by
      show (frameOf (pageStart t)).toNat = t
      rw [toNat_frameOf, pageOf_pageStart ht]
    rw [hok, hcall]
    simp only [ok_bind, entry_setEntry_self, getContentsAsPage_eq, hnew]
    exact ⟨_, rfl, hr₁.setEntry hk hkout hindex _, t, ht, hfolder.outside, Or.inr rfl⟩
  · rw [if_neg hmake, if_neg hmake]
    exact ⟨h, rfl, hr, hnull⟩

/-- One iteration of the loop of `initialise_paging`. -/
theorem mapKernelPage (hr : Resident pools blocks g h s) (hk : k < 2 ^ 20) (hkout : OutsideHeap k)
    (garbage : ℕ → PagePointer) {n : ℕ} (hn : n < 0x1000)
    (htable : OutsideHeap (s.mem.entry (pageStart k) (n / 1024)).frame.toNat) :
    ∃ h', InMemory.mapKernelPage pools garbage (pageStart k) n h = .ok h' ∧
      Resident pools blocks g h' (MushOS.mapKernelPage garbage (pageStart k) n s) := by
  rcases user_pages_in_range hn with ⟨-, hpage⟩
  rw [← hpage] at htable
  rcases hr.getPage hk hkout (garbage (2 * n)) true htable with ⟨h₁, hok, hr₁, t, ht, htout, haddr⟩
  obtain ⟨a, s₁, hcall⟩ : ∃ a s₁, MushOS.getPage (garbage (2 * n)) (BitVec.ofNat 32 (n * pageSize))
      true (pageStart k) s = (a, s₁) := ⟨_, _, (Prod.eta _).symm⟩
  rw [hcall] at hok hr₁ haddr
  -- the entry is in page 0, or in the table
  obtain ⟨i, hi, rfl⟩ : ∃ i < 1024, a = entryAddress (pageStart t) i := by
    rcases haddr with ⟨rfl, rfl⟩ | rfl
    · exact ⟨0, by decide, rfl⟩
    · exact ⟨_, Nat.mod_lt _ (by decide), rfl⟩
  unfold InMemory.mapKernelPage MushOS.mapKernelPage
  simp only [hok, hcall, ok_bind]
  exact ⟨_, rfl, hr₁.setEntry ht htout hi _⟩

end Resident

/-! ## Setting up -/

section SettingUp
variable {blocks : List Block} {h h' : Heap} {n : ℕ} {p : UDword} {pools : PoolPointers}
  {dir : UDword}

/-- A new bitmap is empty, and the other blocks are as they were. -/
structure NewPool (blocks : List Block) (n : ℕ) (h : Heap) (p : UDword) (h' : Heap)
    (blocks' : List Block) : Prop where
  heap : KernelHeap h' blocks'
  mem_iff : ∀ b, b ∈ blocks' ↔ b = ⟨p, BitVec.ofNat 32 n⟩ ∨ b ∈ blocks
  fresh : p ∉ addrs blocks
  bounds : SameBounds h h'
  empty : ∀ i < n, bitmapOf p h'.mem i = 0
  kept : ∀ b ∈ blocks, ∀ a ∈ b.payload, h'.mem.bytes a = h.mem.bytes a

theorem allocatePool_spec (hk : KernelHeap h blocks) (hn : n < 2 ^ 20)
    (hfits : blocks = [] → h.heapStart.toNat + 12 + n ≤ h.heapEnd.toNat)
    (heq : InMemory.allocatePool n h = .ok (p, h')) :
    ∃ blocks', NewPool blocks n h p h' blocks' := by
  have hsize : (BitVec.ofNat 32 n).toNat = n := toNat_ofNat_of_lt (by omega)
  unfold InMemory.allocatePool at heq
  rcases ok_of_bind_ok heq with ⟨⟨q, h₁⟩, hralloc, heq⟩
  rcases Prod.mk.inj (Except.ok.inj heq) with ⟨rfl, rfl⟩
  rcases hk.allocate (by omega)
    (fun hnil => by rw [hsize]; exact hfits hnil) hralloc with
    ⟨blocks', hk', hiff, hnew, -, hbounds, hwrites⟩
  have hb : ⟨q, BitVec.ofNat 32 n⟩ ∈ blocks' := (hiff _).mpr (Or.inl rfl)
  have hfits' := hk'.wellFormed.payload_lt hb
  dsimp only at hfits'
  -- the loop over the new block writes its payload only
  have hclear := writes_memoryClear q (BitVec.ofNat 32 n) 0 (by omega) h₁.mem
  have hpayload := hk'.wellFormed.of_payload_writes hb hclear
  refine ⟨blocks', hk'.of_writes hclear ?_, hiff, hnew, hbounds.trans hpayload.2, ?_, ?_⟩
  · intro a hmeta hmem
    exact hk'.wellFormed.payload_not_metadata hb hmem hmeta
  · intro i hi
    refine memoryClear_bytes (by omega) _ ?_
    rw [mem_span, hsize, toNat_add_ofNat (by omega)]
    omega
  · intro b hold a ha
    have hold' : b ∈ blocks' := (hiff b).mpr (Or.inr hold)
    have hne : b ≠ ⟨q, BitVec.ofNat 32 n⟩ := by
      rintro rfl
      exact hnew (mem_addrs hold)
    rw [hclear.frame a (hk'.wellFormed.payload_disjoint hold' hb hne ha)]
    exact hwrites.frame a (hk'.wellFormed.payload_not_metadata hold' ha)

/-- Two new bitmaps are the pools of which nothing is taken. -/
theorem NewPool.resident {h₁ g : Heap} {q : UDword} {blocks₁ blocks₂ : List Block}
    (hpaging : NewPool blocks pagingPoolSize h p h₁ blocks₁)
    (huser : NewPool blocks₁ userSpacePoolSize h₁ q g blocks₂) :
    Resident ⟨p, q⟩ blocks₂ g g (freshPools g.mem) := by
  have hp : ⟨p, BitVec.ofNat 32 pagingPoolSize⟩ ∈ blocks₁ := (hpaging.mem_iff _).mpr (Or.inl rfl)
  have hp₂ : ⟨p, BitVec.ofNat 32 pagingPoolSize⟩ ∈ blocks₂ := (huser.mem_iff _).mpr (Or.inr hp)
  have hq₂ : ⟨q, BitVec.ofNat 32 userSpacePoolSize⟩ ∈ blocks₂ :=
    (huser.mem_iff _).mpr (Or.inl rfl)
  refine ⟨huser.heap, hp₂, hq₂, ⟨?_, huser.empty, fun _ _ => rfl, ?_⟩, rfl⟩
  · intro i hi
    have ha := (hpaging.heap.bitmap_region (by decide) hp ⟨i, hi, rfl⟩).2
    exact (huser.kept _ hp _ ha).trans (hpaging.empty i hi)
  · intro a ha ha'
    have hne : (⟨p, BitVec.ofNat 32 pagingPoolSize⟩ : Block) ≠
        ⟨q, BitVec.ofNat 32 userSpacePoolSize⟩ := by
      intro hsame
      rw [hsame] at hp
      exact huser.fresh (mem_addrs hp)
    exact huser.heap.wellFormed.payload_disjoint hp₂ hq₂ hne
      (huser.heap.bitmap_region (by decide) hp₂ ha).2
      (huser.heap.bitmap_region (by decide) hq₂ ha').2

/-- `initialise_paging` once the bitmaps are there: no step of it fails. -/
theorem initialisePaging_of_pools (garbage : ℕ → PagePointer) {g h₁ : Heap} {q : UDword}
    (hpaging : InMemory.allocatePool pagingPoolSize h = .ok (p, h₁))
    (huser : InMemory.allocatePool userSpacePoolSize h₁ = .ok (q, g))
    (hresident : Resident ⟨p, q⟩ blocks g g (freshPools g.mem)) :
    ∃ h', InMemory.initialisePaging garbage h =
        .ok (⟨p, q⟩, (initialisePaging garbage g.mem).1, h') ∧
      Resident ⟨p, q⟩ blocks g h' (initialisePaging garbage g.mem).2 := by
  rcases hresident.allocatePageFolder with ⟨h₃, hok, hresident₃⟩
  rcases allocatePageFolder_spec (freshPools g.mem) with ⟨hempty, -⟩ | ⟨d, s₁, halloc, htakes⟩
  · have hcard := card_freeFolders_freshPools g.mem
    rw [hempty] at hcard
    cases hcard
  rw [halloc] at hok hresident₃
  have hdrange := freeFolders_range htakes.was_free
  have hroom₁ : 4 ≤ (freeFolders s₁).card := by
    have hcard := Finset.card_erase_add_one htakes.was_free
    rw [← htakes.folders, card_freeFolders_freshPools] at hcard
    omega
  have hpages : userSpaceStart.toNat / pageSize = 0x1000 := by decide
  have hmodel : initialisePaging garbage g.mem =
      (pageStart d, loop (mapKernelPage garbage (pageStart d)) 0x1000 s₁) := by
    have halloc' : allocatePageFolder ⟨g.mem, ⟨fun _ => 0⟩, ⟨fun _ => 0⟩⟩ = (pageStart d, s₁) :=
      halloc
    unfold initialisePaging
    simp only [halloc', hpages]
  -- the loop: every table is in the paging pool, or not there yet
  rcases loopM_simulates
    (f := mapKernelPage garbage (pageStart d))
    (g := InMemory.mapKernelPage ⟨p, q⟩ garbage (pageStart d))
    (n := 0x1000) (s := s₁) (t := h₃)
    (R := fun n s' h' => Resident ⟨p, q⟩ blocks g h' s' ∧ KernelMap s₁ d ((n + 1023) / 1024) n s')
    ⟨hresident₃, kernelMap_zero htakes⟩ (by
      rintro i s' h' hi ⟨hr', hmap⟩
      have htable : OutsideHeap (s'.mem.entry (pageStart d) (i / 1024)).frame.toNat := by
        by_cases hthere : i / 1024 < (i + 1023) / 1024
        · exact Or.inr (freeFolders_range (hmap.was_free _ hthere)).1
        · rw [hmap.absent _ (by omega) (by omega)]
          exact Or.inl (by decide)
      obtain ⟨h'', hstep, hr''⟩ := hr'.mapKernelPage (by omega) (Or.inr hdrange.1) garbage hi htable
      exact ⟨h'', hstep, hr'', hmap.step htakes.not_free (by omega) hroom₁ hi garbage⟩) with
    ⟨h₄, hloop, hresident₄, -⟩
  refine ⟨h₄, ?_, ?_⟩
  · unfold InMemory.initialisePaging
    rw [hpaging, ok_bind]
    dsimp only
    rw [huser, ok_bind]
    dsimp only
    rw [hok, ok_bind, hpages, hmodel]
    simp only [hloop]
    rfl
  · rw [hmodel]
    exact hresident₄

/-- **`initialise_paging`**, from any heap of the kernel with room for the first bitmap: what
it leaves is what the model makes of the memory once the bitmaps are there. -/
theorem initialisePaging_resident {garbage : ℕ → PagePointer} (hk : KernelHeap h blocks)
    (hroom : h.heapStart.toNat + 12 + pagingPoolSize ≤ h.heapEnd.toNat)
    (heq : InMemory.initialisePaging garbage h = .ok (pools, dir, h')) :
    ∃ g blocks', KernelHeap g blocks' ∧ dir = (initialisePaging garbage g.mem).1 ∧
      Resident pools blocks' g h' (initialisePaging garbage g.mem).2 := by
  have hsteps := heq
  unfold InMemory.initialisePaging at hsteps
  rcases ok_of_bind_ok hsteps with ⟨⟨p, h₁⟩, hpaging, hsteps⟩
  rcases ok_of_bind_ok hsteps with ⟨⟨q, g⟩, huser, -⟩
  rcases allocatePool_spec hk (by decide) (fun _ => hroom) hpaging with ⟨blocks₁, hnew₁⟩
  have hp : ⟨p, BitVec.ofNat 32 pagingPoolSize⟩ ∈ blocks₁ := (hnew₁.mem_iff _).mpr (Or.inl rfl)
  rcases allocatePool_spec hnew₁.heap (by decide)
    (fun hnil => absurd hp (by simp [hnil])) huser with ⟨blocks₂, hnew₂⟩
  rcases initialisePaging_of_pools garbage hpaging huser (hnew₁.resident hnew₂) with
    ⟨h'', hok, hresident⟩
  rw [hok] at heq
  rcases Prod.mk.inj (Except.ok.inj heq) with ⟨rfl, hrest⟩
  rcases Prod.mk.inj hrest with ⟨rfl, rfl⟩
  exact ⟨g, blocks₂, hnew₂.heap, rfl, hresident⟩

end SettingUp

end MushOS
