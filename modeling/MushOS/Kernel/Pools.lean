import MushOS.Base.HeapRuns
import MushOS.Kernel.PageAlloc

/-! # pages.c: the two pools in memory

`allocate_frame` and `allocate_page_folder` as they run: the bitmap is a block of the
kernel heap, its bytes are bytes of the flat memory, and the bound of the loop is
what `size_of` reads from the header of the block, again before every iteration.

* A call takes the lowest slot that is free, sets its bit and clears its page, if it
  is a folder; it changes nothing else. When no slot is free it returns null.
* From an empty bitmap the calls return the slots of the pool one after another, each
  once, and null from then on, whatever other code does to the rest of the memory
  (`serving_run`).
-/

namespace MushOS

open ByteMemory Loop Transition

/-! ## Model -/

namespace InMemory

/-- The loop the two allocators share, from byte `i` on: the first byte with a free bit,
whose bit is set; the index of the slot. -/
def takeBit (pool i : UDword) (h : Heap) : Except Fault (Option UDword × Heap) :=
  match size h pool with
  | .error fault => .error fault
  | .ok sizeOf =>
    if _hi : i < sizeOf then
      let freeBit := getFreeBit (h.mem.read8 (pool + i))
      if freeBit ≠ fullByte then
        let byte := h.mem.read8 (pool + i) ||| (1#8 <<< freeBit)
        .ok (some (i * 8 + BitVec.ofNat 32 freeBit), { h with mem := h.mem.write8 (pool + i) byte })
      else takeBit pool (i + 1) h
    else .ok (none, h)
termination_by 2 ^ 32 - i.toNat
decreasing_by bv_omega

def allocateFrame (userSpacePool : UDword) (h : Heap) : Except Fault (UDword × Heap) := do
  let (slot, h) ← takeBit userSpacePool 0 h
  match slot with
  | some slot => return (userSpaceStart + slot * BitVec.ofNat 32 pageSize, h)
  | none => return (0, h)

def allocatePageFolder (pagingPool : UDword) (h : Heap) : Except Fault (UDword × Heap) := do
  let (slot, h) ← takeBit pagingPool 0 h
  match slot with
  | some slot =>
    let address := pagingPoolStart + slot * BitVec.ofNat 32 pageSize
    return (address, { h with mem := memoryClear address (BitVec.ofNat 32 pageSize) 0 h.mem })
  | none => return (0, h)

end InMemory

/-- The two pools. -/
inductive PagePool where
  | userSpace
  | paging
deriving DecidableEq, Repr

namespace PagePool

def start : PagePool → UDword
  | .userSpace => userSpaceStart
  | .paging => pagingPoolStart

/-- The allocator of a pool, given the address of its bitmap. -/
def allocate : PagePool → UDword → Heap → Except Fault (UDword × Heap)
  | .userSpace => InMemory.allocateFrame
  | .paging => InMemory.allocatePageFolder

/-- The address of slot `b`. -/
def slotAddress (k : PagePool) (b : ℕ) : UDword := k.start + BitVec.ofNat 32 (4096 * b)

/-- The pages of the `8 * n` slots. -/
def region (k : PagePool) (n : ℕ) : Set UDword := span k.start.toNat (4096 * (n * 8))

/-- The bytes the allocator clears when it takes slot `b`. -/
def cleared (k : PagePool) (b : ℕ) : Set UDword :=
  match k with
  | .userSpace => ∅
  | .paging => span (k.slotAddress b).toNat 4096

end PagePool

/-- The bitmap at `pool`. -/
def bitmapOf (pool : UDword) (m : Mem) : Bitmap.Bytes := fun i => m.read8 (pool + BitVec.ofNat 32 i)

/-- The addresses of a bitmap of `n` bytes. -/
def bitmapSpan (pool : UDword) (n : ℕ) : Set UDword := {a | ∃ i < n, a = pool + BitVec.ofNat 32 i}

/-- A bitmap of `n` bytes for a pool that ends below `2 ^ 32`, itself outside of the pool. -/
structure HostsPool (k : PagePool) (pool : UDword) (n : ℕ) (h : Heap) : Prop where
  size_of : size h pool = .ok (BitVec.ofNat 32 n)
  reach : k.start.toNat + 4096 * (n * 8) < 2 ^ 32
  outside : ∀ a ∈ bitmapSpan pool n, a ∉ k.region n

/-- The words `size_of(pool)` reads: the bounds of the heap, and the header of the block. -/
def sizeWords (pool : UDword) (h : Heap) : Set UDword :=
  {a | (∃ i < 8, a = h.header + 4 + BitVec.ofNat 32 i) ∨
    ∃ i < 4, a = pool - sizeofHeapBlockHeader + BitVec.ofNat 32 i}

/-- Slot `b`, which was free, is taken from `h` to `h'`. -/
structure TakesSlot (k : PagePool) (pool : UDword) (n b : ℕ) (h h' : Heap) : Prop where
  bits : ∀ c < n * 8, Bitmap.taken (bitmapOf pool h'.mem) c =
    (decide (c = b) || Bitmap.taken (bitmapOf pool h.mem) c)
  writes : Writes ({pool + BitVec.ofNat 32 (b / 8)} ∪ k.cleared b) h.mem h'.mem
  zeroed : ∀ a ∈ k.cleared b, h'.mem.bytes a = 0
  others : h' = { h with mem := h'.mem }

/-- What `size_of` reads is neither in the bitmap nor in a page that is cleared. -/
def SizeKept (k : PagePool) (pool : UDword) (n : ℕ) (h : Heap) : Prop :=
  ∀ a ∈ sizeWords pool h, a ∉ bitmapSpan pool n ∧ ∀ b < n * 8, a ∉ k.cleared b

/-- The runs of one allocator, from an empty bitmap: a call, labelled with the address it
returns, or a step of other code, which leaves the bitmap and its size alone. -/
def poolSystem (k : PagePool) (pool : UDword) (n : ℕ) : System Heap (Option UDword) where
  Init h := HostsPool k pool n h ∧ SizeKept k pool n h ∧
    ∀ b < n * 8, Bitmap.taken (bitmapOf pool h.mem) b = false
  Step h answer h' :=
    match answer with
    | some a => k.allocate pool h = .ok (a, h')
    | none => h'.header = h.header ∧
        ∀ a ∈ bitmapSpan pool n ∪ sizeWords pool h, h'.mem.bytes a = h.mem.bytes a

/-- The addresses the calls of a run returned, null or not. -/
def returned (answers : List (Option UDword)) : List UDword := answers.filterMap id

/-- The calls that succeeded. -/
def granted (answers : List (Option UDword)) : List UDword :=
  (returned answers).filter fun a => a ≠ 0


/-! ## What `size_of` reads -/

section SizeOf
variable {pool : UDword} {h h' : Heap}

/-- A word is its four bytes. -/
theorem read32_of_bytes {m m' : Mem} {a : UDword}
    (hbytes : ∀ r < 4, m'.bytes (a + BitVec.ofNat 32 r) = m.bytes (a + BitVec.ofNat 32 r)) :
    m'.read32 a = m.read32 a := by
  have h0 : m'.bytes a = m.bytes a := by simpa using hbytes 0 (by omega)
  have h1 : m'.bytes (a + 1) = m.bytes (a + 1) := hbytes 1 (by omega)
  have h2 : m'.bytes (a + 2) = m.bytes (a + 2) := hbytes 2 (by omega)
  have h3 : m'.bytes (a + 3) = m.bytes (a + 3) := hbytes 3 (by omega)
  simp only [Mem.read32, Mem.read8, h0, h1, h2, h3]

/-- While these words stay, so does the size of the bitmap. -/
theorem size_congr (hheader : h'.header = h.header)
    (hwords : ∀ a ∈ sizeWords pool h, h'.mem.bytes a = h.mem.bytes a) :
    size h' pool = size h pool := by
  have hstart : h'.heapStart = h.heapStart := by
    unfold Heap.heapStart
    rw [hheader]
    exact read32_of_bytes fun r hr => hwords _ (Or.inl ⟨r, by omega, rfl⟩)
  have hend : h'.heapEnd = h.heapEnd := by
    unfold Heap.heapEnd
    rw [hheader]
    refine read32_of_bytes fun r hr => hwords _ (Or.inl ⟨4 + r, by omega, ?_⟩)
    rw [BitVec.ofNat_add, ← BitVec.add_assoc, BitVec.add_assoc h.header 4]
    rfl
  have hsize : h'.member (pool - sizeofHeapBlockHeader) .size =
      h.member (pool - sizeofHeapBlockHeader) .size := by
    unfold Heap.member
    refine read32_of_bytes fun r hr => hwords _ (Or.inr ⟨r, hr, ?_⟩)
    rw [show BlockMember.size.offset = 0#32 from rfl, BitVec.add_zero]
  unfold size getHeader isInHeap
  rw [hstart, hend]
  by_cases hin : (pool > h.heapStart && pool < h.heapEnd) = true
  · rw [if_pos hin]
    simp only [ok_bind]
    rw [hsize]
  · rw [if_neg hin]
    rfl

theorem sizeWords_header (hheader : h'.header = h.header) :
    sizeWords pool h' = sizeWords pool h := by
  unfold sizeWords
  rw [hheader]

end SizeOf

/-! ## One call -/

section Call
variable {k : PagePool} {pool : UDword} {n i b : ℕ} {h h' : Heap}

theorem HostsPool.lt (hosts : HostsPool k pool n h) : 4096 * (n * 8) < 2 ^ 32 := by
  have := hosts.reach
  omega

/-- Two bytes of a bitmap have different addresses. -/
theorem bitmap_address_inj (hi : i < 2 ^ 32) (hn : n < 2 ^ 32)
    (heq : pool + BitVec.ofNat 32 i = pool + BitVec.ofNat 32 n) : i = n := by
  have hi' : (BitVec.ofNat 32 i).toNat = i := toNat_ofNat_of_lt hi
  have hn' : (BitVec.ofNat 32 n).toNat = n := toNat_ofNat_of_lt hn
  bv_omega

/-- **The loop of the two allocators**: the lowest free slot is taken, or there is none. -/
theorem takeBit_spec (hsize : size h pool = .ok (BitVec.ofNat 32 n)) (hn : n < 2 ^ 20) (hi : i ≤ n)
    (hfull : ∀ c < i * 8, Bitmap.taken (bitmapOf pool h.mem) c = true) :
    (∃ b, Bitmap.Lowest (bitmapOf pool h.mem) n b ∧
      InMemory.takeBit pool (BitVec.ofNat 32 i) h = .ok (some (BitVec.ofNat 32 b),
        { h with mem := h.mem.write8 (pool + BitVec.ofNat 32 (b / 8))
                          (bitmapOf pool h.mem (b / 8) ||| (1#8 <<< (b % 8))) })) ∨
      ((∀ c < n * 8, Bitmap.taken (bitmapOf pool h.mem) c = true) ∧
        InMemory.takeBit pool (BitVec.ofNat 32 i) h = .ok (none, h)) := by
  -- by induction on the number of bytes left
  obtain ⟨left, hleft⟩ : ∃ left, left = n - i := ⟨_, rfl⟩
  induction left generalizing i with
  | zero =>
    right
    have hin : i = n := by omega
    subst hin
    refine ⟨hfull, ?_⟩
    rw [InMemory.takeBit, hsize]
    simp
  | succ left ih =>
    have hlt : BitVec.ofNat 32 i < BitVec.ofNat 32 n := by
      rw [BitVec.lt_def, toNat_ofNat_of_lt (by omega), toNat_ofNat_of_lt (by omega)]
      omega
    rcases getFreeBit_spec (bitmapOf pool h.mem i) with ⟨hnone, hset⟩ | ⟨hbit, hclear⟩
    · -- a full byte: on to the next one
      have hstep : InMemory.takeBit pool (BitVec.ofNat 32 i) h =
          InMemory.takeBit pool (BitVec.ofNat 32 (i + 1)) h := by
        rw [InMemory.takeBit, hsize]
        simp only [hlt, dif_pos]
        rw [if_neg (show ¬ getFreeBit (h.mem.read8 (pool + BitVec.ofNat 32 i)) ≠ fullByte from
          not_not.mpr hnone), BitVec.ofNat_add]
        rfl
      rw [hstep]
      refine ih (by omega) ?_ (by omega)
      intro c hc
      by_cases hbyte : c < i * 8
      · exact hfull c hbyte
      · have hdiv : c / 8 = i := by omega
        unfold Bitmap.taken
        rw [hdiv]
        exact hset (c % 8) (by omega)
    · left
      have hlowest := Bitmap.lowest_of_scan (n := n) (by omega) hbit hfull hclear
        fun c hc => getFreeBit_below hbit hc
      refine ⟨_, hlowest, ?_⟩
      have hfree : getFreeBit (h.mem.read8 (pool + BitVec.ofNat 32 i)) ≠ fullByte := by
        intro heq
        rw [show h.mem.read8 (pool + BitVec.ofNat 32 i) = bitmapOf pool h.mem i from rfl] at heq
        rw [heq] at hbit
        exact absurd hbit (by decide)
      have hdiv : (i * 8 + getFreeBit (bitmapOf pool h.mem i)) / 8 = i := by omega
      have hmod : (i * 8 + getFreeBit (bitmapOf pool h.mem i)) % 8 =
          getFreeBit (bitmapOf pool h.mem i) := by omega
      rw [InMemory.takeBit, hsize]
      simp only [hlt, dif_pos]
      rw [if_pos hfree, hdiv, hmod, BitVec.ofNat_add, BitVec.ofNat_mul]
      rfl

theorem bitmapOf_write8 (m : Mem) (v : UByte) {j : ℕ} (hi : i < 2 ^ 32) (hj : j < 2 ^ 32) :
    bitmapOf pool (m.write8 (pool + BitVec.ofNat 32 i) v) j =
      if j = i then v else bitmapOf pool m j := by
  unfold bitmapOf Mem.read8
  by_cases hij : j = i
  · subst hij
    rw [if_pos rfl, Mem.write8_bytes_self]
  · rw [if_neg hij]
    exact Mem.write8_bytes_ne m v fun heq => hij (bitmap_address_inj hj hi heq)

/-- A slot is free or taken as its byte says. -/
theorem taken_of_byte {m m' : Bitmap.Bytes} {c : ℕ} (hbyte : m' (c / 8) = m (c / 8)) :
    Bitmap.taken m' c = Bitmap.taken m c := by
  unfold Bitmap.taken
  rw [hbyte]

/-- The bits after one of them has been set. -/
theorem taken_setBit_write8 (m : Mem) (hn : n < 2 ^ 20) (hb : b < n * 8) {c : ℕ} (hc : c < n * 8) :
    Bitmap.taken (bitmapOf pool (m.write8 (pool + BitVec.ofNat 32 (b / 8))
      (bitmapOf pool m (b / 8) ||| (1#8 <<< (b % 8))))) c =
      (decide (c = b) || Bitmap.taken (bitmapOf pool m) c) := by
  have hsplit : b = b / 8 * 8 + b % 8 := by omega
  have hset := Bitmap.taken_setBit (bitmapOf pool m) (i := b / 8) (b := b % 8) (by omega) c
  rw [← hsplit] at hset
  rw [← hset]
  apply taken_of_byte
  rw [bitmapOf_write8 _ _ (by omega) (by omega)]
  rfl

namespace PagePool

theorem toNat_start (k : PagePool) : k.start.toNat = 0x1000000 ∨ k.start.toNat = 0x100000 := by
  cases k with
  | userSpace => exact Or.inl rfl
  | paging => exact Or.inr rfl

theorem toNat_slotAddress (hosts : HostsPool k pool n h) (hb : b < n * 8) :
    (k.slotAddress b).toNat = k.start.toNat + 4096 * b := by
  have hreach := hosts.reach
  have hlt : k.start.toNat + 4096 * b < 2 ^ 32 := by
    omega
  exact toNat_add_ofNat hlt

theorem slotAddress_mem_region (hosts : HostsPool k pool n h) (hb : b < n * 8) :
    k.slotAddress b ∈ k.region n := by
  have haddr := toNat_slotAddress hosts hb
  unfold region
  rw [mem_span]
  omega

theorem slotAddress_ne_zero (hosts : HostsPool k pool n h) (hb : b < n * 8) :
    k.slotAddress b ≠ 0 := by
  have haddr := toNat_slotAddress hosts hb
  have hstart := toNat_start k
  intro hzero
  have hnull : (k.slotAddress b).toNat = 0 := by
    rw [hzero]
    rfl
  omega

theorem slotAddress_inj (hosts : HostsPool k pool n h) (hb : b < n * 8) (hi : i < n * 8)
    (heq : k.slotAddress b = k.slotAddress i) : b = i := by
  have hb' := toNat_slotAddress hosts hb
  have hi' := toNat_slotAddress hosts hi
  rw [heq] at hb'
  omega

theorem cleared_subset_region (hosts : HostsPool k pool n h) (hb : b < n * 8) :
    k.cleared b ⊆ k.region n := by
  intro a ha
  have haddr := toNat_slotAddress hosts hb
  cases k with
  | userSpace => exact absurd ha (Set.notMem_empty a)
  | paging =>
    simp only [cleared, mem_span] at ha
    unfold region
    rw [mem_span]
    omega

end PagePool

/-- The state after the bit of slot `b` has been set, and its page cleared. -/
theorem takesSlot (hosts : HostsPool k pool n h) (hb : b < n * 8) {m : Mem}
    (hwrites : Writes (k.cleared b) (h.mem.write8 (pool + BitVec.ofNat 32 (b / 8))
      (bitmapOf pool h.mem (b / 8) ||| (1#8 <<< (b % 8)))) m)
    (hzeroed : ∀ a ∈ k.cleared b, m.bytes a = 0) : TakesSlot k pool n b h { h with mem := m } := by
  have hlt := hosts.lt
  refine ⟨?_, ?_, hzeroed, rfl⟩
  · intro c hc
    rw [← taken_setBit_write8 h.mem (by omega) hb hc]
    apply taken_of_byte
    refine hwrites.frame _ fun hmem => ?_
    exact hosts.outside _ ⟨c / 8, by omega, rfl⟩
      (PagePool.cleared_subset_region hosts hb hmem)
  · refine (writes_write8 _ _ (Or.inl rfl)).trans (hwrites.mono ?_)
    exact fun a ha => Or.inr ha

/-- **One call of an allocator**: the lowest free slot is taken; when there is none, the
answer is null and the state the same. -/
theorem allocate_spec (hosts : HostsPool k pool n h) :
    (∃ b h', Bitmap.Lowest (bitmapOf pool h.mem) n b ∧
      k.allocate pool h = .ok (k.slotAddress b, h') ∧ TakesSlot k pool n b h h') ∨
      ((∀ c < n * 8, Bitmap.taken (bitmapOf pool h.mem) c = true) ∧
        k.allocate pool h = .ok (0, h)) := by
  have hlt := hosts.lt
  have haddr : ∀ b, k.start + BitVec.ofNat 32 b * BitVec.ofNat 32 pageSize = k.slotAddress b := by
    intro b
    unfold PagePool.slotAddress pageSize
    rw [Nat.mul_comm, BitVec.ofNat_mul]
  rcases takeBit_spec hosts.size_of (by omega) (Nat.zero_le n) (fun c hc => by omega) with
    ⟨b, hlowest, htake⟩ | ⟨hfull, htake⟩
  · left
    refine ⟨b, ?_⟩
    cases k with
    | userSpace =>
      refine ⟨_, hlowest, ?_, takesSlot hosts hlowest.lt (Writes.refl _ _) ?_⟩
      · rw [← haddr]
        show InMemory.allocateFrame pool h = _
        unfold InMemory.allocateFrame
        rw [show (0 : UDword) = BitVec.ofNat 32 0 from rfl, htake]
        rfl
      · exact fun a ha => absurd ha (Set.notMem_empty a)
    | paging =>
      -- a page folder is cleared after its bit is set
      have hpage := PagePool.toNat_slotAddress hosts hlowest.lt
      have hsize : (BitVec.ofNat 32 pageSize).toNat = 4096 := by decide
      have hfits : (PagePool.paging.slotAddress b).toNat + (BitVec.ofNat 32 pageSize).toNat ≤
          2 ^ 32 := by
        have := hosts.reach
        have := hlowest.lt
        omega
      refine ⟨_, hlowest, ?_, takesSlot hosts hlowest.lt
        (m := memoryClear (PagePool.paging.slotAddress b) (BitVec.ofNat 32 pageSize) 0
          (h.mem.write8 (pool + BitVec.ofNat 32 (b / 8))
            (bitmapOf pool h.mem (b / 8) ||| (1#8 <<< (b % 8))))) ?_ ?_⟩
      · rw [← haddr]
        show InMemory.allocatePageFolder pool h = _
        unfold InMemory.allocatePageFolder
        rw [show (0 : UDword) = BitVec.ofNat 32 0 from rfl, htake]
        rfl
      · have hwrites := writes_memoryClear (PagePool.paging.slotAddress b)
          (BitVec.ofNat 32 pageSize) 0 hfits (h.mem.write8 (pool + BitVec.ofNat 32 (b / 8))
            (bitmapOf pool h.mem (b / 8) ||| (1#8 <<< (b % 8))))
        rwa [hsize] at hwrites
      · intro a ha
        refine memoryClear_bytes hfits _ ?_
        rwa [hsize]
  · right
    refine ⟨hfull, ?_⟩
    cases k with
    | userSpace =>
      show InMemory.allocateFrame pool h = _
      unfold InMemory.allocateFrame
      rw [show (0 : UDword) = BitVec.ofNat 32 0 from rfl, htake]
      rfl
    | paging =>
      show InMemory.allocatePageFolder pool h = _
      unfold InMemory.allocatePageFolder
      rw [show (0 : UDword) = BitVec.ofNat 32 0 from rfl, htake]
      rfl

end Call

/-! ## A bitmap of a well-formed heap -/

section Block
variable {k : PagePool} {n : ℕ} {h : Heap} {blocks : List Block} {b : Block}

/-- The words `size_of` reads belong to the heap. -/
theorem sizeWords_subset_metadata (hw : WellFormed h blocks) (hb : b ∈ blocks) :
    sizeWords b.addr h ⊆ metadata h.header blocks := by
  have hge := hw.addr_ge hb
  have hheader := hw.header_lt
  have haddr := b.addr.isLt
  rintro a (⟨i, hi, rfl⟩ | ⟨i, hi, rfl⟩)
  · have hoffset : (BitVec.ofNat 32 i).toNat = i := toNat_ofNat_of_lt (by omega)
    refine Or.inl ?_
    rw [mem_span]
    bv_omega
  · have hoffset : (BitVec.ofNat 32 i).toNat = i := toNat_ofNat_of_lt (by omega)
    refine Or.inr ⟨b, hb, ?_⟩
    unfold Block.header sizeofHeapBlockHeader
    rw [mem_span]
    bv_omega

/-- A bitmap is hosted by any of its blocks, when the heap and the pool are apart. -/
theorem hostsPool_of_block (hw : WellFormed h blocks) (hb : b ∈ blocks) (hsize : b.size.toNat = n)
    (hreach : k.start.toNat + 4096 * (n * 8) < 2 ^ 32)
    (hapart : ∀ a ∈ metadata h.header blocks ∪ b.payload, a ∉ k.region n) :
    HostsPool k b.addr n h ∧ SizeKept k b.addr n h := by
  have hfits := hw.payload_lt hb
  have hpayload : ∀ a ∈ bitmapSpan b.addr n, a ∈ b.payload := by
    rintro a ⟨i, hi, rfl⟩
    unfold Block.payload
    rw [mem_span, toNat_add_ofNat (by omega)]
    omega
  have hosts : HostsPool k b.addr n h := by
    refine ⟨?_, hreach, fun a ha => hapart a (Or.inr (hpayload a ha))⟩
    rw [hw.size_eq hb, ← hsize, BitVec.ofNat_toNat, BitVec.setWidth_eq]
  refine ⟨hosts, ?_⟩
  intro a ha
  have hmeta := sizeWords_subset_metadata hw hb ha
  refine ⟨fun hmem => hw.payload_not_metadata hb (hpayload a hmem) hmeta, ?_⟩
  intro c hc hmem
  exact hapart a (Or.inl hmeta) (PagePool.cleared_subset_region hosts hc hmem)

end Block

/-! ## Any run of calls -/

section Runs
variable {k : PagePool} {pool a : UDword} {n served : ℕ} {h h' h₀ : Heap}
  {answers : List (Option UDword)}

/-- The state after `served` calls: as many of the lowest slots are taken. -/
structure Serving (k : PagePool) (pool : UDword) (n served : ℕ) (h : Heap) : Prop where
  hosts : HostsPool k pool n h
  kept : SizeKept k pool n h
  bits : ∀ b < n * 8, Bitmap.taken (bitmapOf pool h.mem) b = decide (b < served)

theorem HostsPool.congr (hosts : HostsPool k pool n h) (hheader : h'.header = h.header)
    (hwords : ∀ a ∈ sizeWords pool h, h'.mem.bytes a = h.mem.bytes a) : HostsPool k pool n h' := by
  refine ⟨?_, hosts.reach, hosts.outside⟩
  rw [size_congr hheader hwords]
  exact hosts.size_of

theorem SizeKept.congr (hkept : SizeKept k pool n h) (hheader : h'.header = h.header) :
    SizeKept k pool n h' := by
  unfold SizeKept
  rw [sizeWords_header hheader]
  exact hkept

/-- Other code keeps the bitmap. -/
theorem Serving.others (hserving : Serving k pool n served h) (hheader : h'.header = h.header)
    (hbytes : ∀ a ∈ bitmapSpan pool n ∪ sizeWords pool h, h'.mem.bytes a = h.mem.bytes a) :
    Serving k pool n served h' := by
  refine ⟨hserving.hosts.congr hheader fun a ha => hbytes a (Or.inr ha),
    hserving.kept.congr hheader, ?_⟩
  intro b hb
  rw [← hserving.bits b hb]
  exact taken_of_byte (hbytes _ (Or.inl ⟨b / 8, by omega, rfl⟩))

/-- Taking a slot leaves the words `size_of` reads. -/
theorem TakesSlot.size_kept {b : ℕ} (htakes : TakesSlot k pool n b h h')
    (hkept : SizeKept k pool n h) (hb : b < n * 8) :
    ∀ a ∈ sizeWords pool h, h'.mem.bytes a = h.mem.bytes a := by
  intro a ha
  rcases hkept a ha with ⟨hbitmap, hcleared⟩
  refine htakes.writes.frame a ?_
  rintro (hbyte | hpage)
  · exact hbitmap ⟨b / 8, by omega, hbyte⟩
  · exact hcleared b hb hpage

/-- **One call of a run**: the next slot, or null when all have been handed out. -/
theorem Serving.allocate (hserving : Serving k pool n served h)
    (hcall : k.allocate pool h = .ok (a, h')) :
    Serving k pool n (served + 1) h' ∧ a = if served < n * 8 then k.slotAddress served else 0 := by
  rcases allocate_spec hserving.hosts with ⟨b, h₁, hlowest, hok, htakes⟩ | ⟨hfull, hok⟩
  · -- the lowest free slot is the next one
    rcases Prod.mk.inj (Except.ok.inj (hok.symm.trans hcall)) with ⟨rfl, rfl⟩
    have hb := hlowest.lt
    have hclear := hlowest.clear
    rw [hserving.bits b hb, decide_eq_false_iff_not] at hclear
    have hserved : served < n * 8 := by omega
    have hbs : b = served :=
      hlowest.unique (Bitmap.lowest_of_prefix hserved hserving.bits)
    subst hbs
    refine ⟨⟨?_, ?_, ?_⟩, (if_pos hb).symm⟩
    · refine hserving.hosts.congr ?_ (htakes.size_kept hserving.kept hb)
      rw [htakes.others]
    · refine hserving.kept.congr ?_
      rw [htakes.others]
    · intro c hc
      rw [htakes.bits c hc, hserving.bits c hc, ← Bool.decide_or, decide_eq_decide]
      omega
  · rcases Prod.mk.inj (Except.ok.inj (hok.symm.trans hcall)) with ⟨rfl, rfl⟩
    have hserved : ¬ served < n * 8 := by
      intro hlt
      have hset := hfull served hlt
      rw [hserving.bits served hlt, decide_eq_true_eq] at hset
      exact Nat.lt_irrefl served hset
    refine ⟨⟨hserving.hosts, hserving.kept, ?_⟩, (if_neg hserved).symm⟩
    intro b hb
    rw [hserving.bits b hb, decide_eq_decide]
    omega

theorem returned_snoc (answers : List (Option UDword)) (answer : Option UDword) :
    returned (answers ++ [answer]) = returned answers ++ answer.toList := by
  unfold returned
  rw [List.filterMap_append]
  cases answer with
  | none => rfl
  | some a => rfl

/-- **Any run of calls**: the slots of the pool in order, each once. -/
theorem serving_run (hinit : (poolSystem k pool n).Init h₀)
    (hrun : (poolSystem k pool n).Run h₀ answers h) :
    Serving k pool n (returned answers).length h ∧
      granted answers = (List.range (min (returned answers).length (n * 8))).map k.slotAddress := by
  rcases hinit with ⟨hosts, hkept, hempty⟩
  induction hrun with
  | nil =>
    refine ⟨⟨hosts, hkept, ?_⟩, rfl⟩
    intro b hb
    rw [hempty b hb]
    exact (decide_eq_false (Nat.not_lt_zero b)).symm
  | @snoc h₁ h₂ answers answer _ hstep ih =>
    rcases ih with ⟨hserving, hgranted⟩
    cases answer with
    | none =>
      rcases hstep with ⟨hheader, hbytes⟩
      unfold granted at *
      rw [returned_snoc, Option.toList_none, List.append_nil]
      exact ⟨hserving.others hheader hbytes, hgranted⟩
    | some a =>
      rcases hserving.allocate hstep with ⟨hnext, ha⟩
      unfold granted at *
      rw [returned_snoc, Option.toList_some, List.length_append, List.length_singleton,
        List.filter_append, hgranted]
      refine ⟨hnext, ?_⟩
      by_cases hlt : (returned answers).length < n * 8
      · -- there is a slot left, and it is the next one
        rw [if_pos hlt] at ha
        have hne := PagePool.slotAddress_ne_zero hserving.hosts hlt
        rw [← ha] at hne
        have hkeep : [a].filter (fun a => a ≠ 0) = [a] := by
          rw [List.filter_eq_self]
          intro x hx
          rw [List.mem_singleton] at hx
          rw [hx]
          exact decide_eq_true hne
        rw [Nat.min_eq_left (by omega), Nat.min_eq_left (by omega), List.range_succ,
          List.map_append, List.map_singleton, ← ha, hkeep]
      · -- the pool is full, and the answer is null
        rw [if_neg hlt] at ha
        rw [Nat.min_eq_right (by omega), Nat.min_eq_right (by omega), ha]
        simp

/-- **`allocate_frame` and `allocate_page_folder` hand out no slot twice**: a call takes the
lowest free slot and changes nothing else, or there is none; a run from an empty bitmap hands
out every slot of the pool once. -/
theorem allocate_never_twice (hosts : HostsPool k pool n h) :
    ((∃ b < n * 8, Bitmap.taken (bitmapOf pool h.mem) b = false) →
      ∃ b h', Bitmap.Lowest (bitmapOf pool h.mem) n b ∧
        k.allocate pool h = .ok (k.slotAddress b, h') ∧ TakesSlot k pool n b h h') ∧
    ((∀ b < n * 8, Bitmap.taken (bitmapOf pool h.mem) b = true) →
      k.allocate pool h = .ok (0, h)) ∧
    ((poolSystem k pool n).Init h → ∀ answers h', (poolSystem k pool n).Run h answers h' →
      (granted answers).Nodup ∧
      (∀ a ∈ granted answers, a.toNat % 4096 = 0 ∧ a ∈ k.region n) ∧
      (granted answers).length = min (returned answers).length (n * 8) ∧
      ∃ a h'', k.allocate pool h' = .ok (a, h'')) := by
  refine ⟨?_, ?_, ?_⟩
  · rintro ⟨b, hb, hclear⟩
    rcases allocate_spec hosts with htakes | ⟨hfull, -⟩
    · exact htakes
    · rw [hfull b hb] at hclear
      cases hclear
  · intro hfull
    rcases allocate_spec hosts with ⟨b, -, hlowest, -⟩ | ⟨-, hok⟩
    · have hset := hfull b hlowest.lt
      rw [hlowest.clear] at hset
      cases hset
    · exact hok
  · intro hinit answers h' hrun
    rcases serving_run hinit hrun with ⟨hserving, hgranted⟩
    have hslot : ∀ b ∈ List.range (min (returned answers).length (n * 8)), b < n * 8 := by
      intro b hb
      rw [List.mem_range] at hb
      omega
    refine ⟨?_, ?_, ?_, ?_⟩
    · rw [hgranted]
      refine List.Nodup.map_on ?_ List.nodup_range
      -- the slots of the pool have different addresses
      intro b hb c hc heq
      exact PagePool.slotAddress_inj hosts (hslot b hb) (hslot c hc) heq
    · intro a ha
      rw [hgranted] at ha
      rcases List.mem_map.mp ha with ⟨b, hb, rfl⟩
      have haddr := PagePool.toNat_slotAddress hosts (hslot b hb)
      have hstart := PagePool.toNat_start k
      refine ⟨?_, PagePool.slotAddress_mem_region hosts (hslot b hb)⟩
      omega
    · rw [hgranted, List.length_map, List.length_range]
    · rcases allocate_spec hserving.hosts with ⟨b, h'', -, hok, -⟩ | ⟨-, hok⟩
      · exact ⟨_, _, hok⟩
      · exact ⟨_, _, hok⟩

end Runs

/-! ## The pools beside the memory -/

section Refinement
variable {k : PagePool} {pagingPool userSpacePool pool : UDword} {n : ℕ} {h : Heap} {s : Paging}

/-- `h` holds the pools and the memory of `s`: the bitmaps are two blocks of its memory, apart
from each other, and the rest is the memory of `s`. -/
structure Holds (pagingPool userSpacePool : UDword) (h : Heap) (s : Paging) : Prop where
  paging : ∀ i < pagingPoolSize, bitmapOf pagingPool h.mem i = s.pagingPool.bytes i
  userSpace : ∀ i < userSpacePoolSize, bitmapOf userSpacePool h.mem i = s.userSpacePool.bytes i
  mem : ∀ a ∉ bitmapSpan pagingPool pagingPoolSize ∪ bitmapSpan userSpacePool userSpacePoolSize,
    h.mem.bytes a = s.mem.bytes a
  apart : ∀ a ∈ bitmapSpan pagingPool pagingPoolSize,
    a ∉ bitmapSpan userSpacePool userSpacePoolSize

/-- The calls on two maps with the same bytes take the same slot. -/
theorem takeSlot_of_bitmap (pool : Pool n) {m : Bitmap.Bytes} (hm : ∀ i < n, m i = pool.bytes i) :
    (∀ b, Bitmap.Lowest m n b →
      takeSlot pool = some (b, ⟨Bitmap.setBit pool.bytes (b / 8) (b % 8)⟩)) ∧
    ((∀ c < n * 8, Bitmap.taken m c = true) → takeSlot pool = none) := by
  have htaken : ∀ c < n * 8, Bitmap.taken pool.bytes c = Bitmap.taken m c := fun c hc =>
    taken_of_byte (hm (c / 8) (by omega)).symm
  rcases takeSlot_lowest pool with ⟨b, hlowest, htake⟩ | ⟨hfull, hnone⟩
  · refine ⟨?_, ?_⟩
    · intro c hc
      have hlowest' : Bitmap.Lowest pool.bytes n c := by
        refine ⟨hc.lt, ?_, ?_⟩
        · rw [htaken c hc.lt, hc.clear]
        · intro d hd
          have := hc.lt
          rw [htaken d (by omega), hc.below d hd]
      rw [hlowest'.unique hlowest]
      exact htake
    · intro hfull
      have hset := hfull b hlowest.lt
      rw [← htaken b hlowest.lt, hlowest.clear] at hset
      cases hset
  · refine ⟨?_, fun _ => hnone⟩
    intro c hc
    have hset := hfull c hc.lt
    rw [htaken c hc.lt, hc.clear] at hset
    cases hset

/-- Two maps with the same bits have the same bytes. -/
theorem bytes_of_taken {m m' : Bitmap.Bytes}
    (htaken : ∀ c < n * 8, Bitmap.taken m' c = Bitmap.taken m c) : ∀ i < n, m' i = m i := by
  intro i hi
  apply BitVec.eq_of_getLsbD_eq
  intro b hb
  have hbit := htaken (i * 8 + b) (by omega)
  have hdiv : (i * 8 + b) / 8 = i := by omega
  have hmod : (i * 8 + b) % 8 = b := by omega
  unfold Bitmap.taken at hbit
  rwa [hdiv, hmod] at hbit

/-- The bitmap of a slot that has been taken. -/
theorem TakesSlot.bitmap {b : ℕ} {h' : Heap} {m : Bitmap.Bytes}
    (htakes : TakesSlot k pool n b h h') (hm : ∀ i < n, bitmapOf pool h.mem i = m i) :
    ∀ i < n, bitmapOf pool h'.mem i = Bitmap.setBit m (b / 8) (b % 8) i := by
  refine bytes_of_taken fun c hc => ?_
  have hsplit : b / 8 * 8 + b % 8 = b := by omega
  rw [htakes.bits c hc, Bitmap.taken_setBit m (by omega), hsplit,
    taken_of_byte (hm (c / 8) (by omega))]

theorem slotAddress_eq (k : PagePool) (b : ℕ) :
    k.slotAddress b = k.start + BitVec.ofNat 32 (b * pageSize) := by
  unfold PagePool.slotAddress pageSize
  rw [Nat.mul_comm]

/-- **`allocate_frame`** on the memory is `allocateFrame` on the pools. -/
theorem allocateFrame_holds (hholds : Holds pagingPool userSpacePool h s)
    (hosts : HostsPool .userSpace userSpacePool userSpacePoolSize h) :
    ∃ h', InMemory.allocateFrame userSpacePool h = .ok ((allocateFrame s).1, h') ∧
      Holds pagingPool userSpacePool h' (allocateFrame s).2 := by
  rcases takeSlot_of_bitmap s.userSpacePool hholds.userSpace with ⟨hsome, hnone⟩
  rcases allocate_spec hosts with ⟨b, h', hlowest, hok, htakes⟩ | ⟨hfull, hok⟩
  · have hb := hlowest.lt
    have hcall : allocateFrame s = (PagePool.userSpace.slotAddress b, { s with
        userSpacePool := ⟨Bitmap.setBit s.userSpacePool.bytes (b / 8) (b % 8)⟩ }) := by
      unfold allocateFrame
      rw [hsome b hlowest, slotAddress_eq]
      rfl
    -- one byte of one bitmap is written, and no page is cleared
    have hframe : ∀ a, a ≠ userSpacePool + BitVec.ofNat 32 (b / 8) →
        h'.mem.bytes a = h.mem.bytes a := by
      intro a ha
      refine htakes.writes.frame a ?_
      rintro (hbyte | hpage)
      · exact ha hbyte
      · exact hpage
    rw [hcall]
    refine ⟨h', hok, ?_, htakes.bitmap hholds.userSpace, ?_, hholds.apart⟩
    · intro i hi
      rw [← hholds.paging i hi]
      refine hframe _ fun heq => hholds.apart _ ⟨i, hi, rfl⟩ ⟨b / 8, ?_, heq⟩
      omega
    · intro a ha
      rw [← hholds.mem a ha]
      refine hframe a fun heq => ha (Or.inr ⟨b / 8, ?_, heq⟩)
      omega
  · have hcall : allocateFrame s = (0, s) := by
      unfold allocateFrame
      rw [hnone hfull]
    rw [hcall]
    exact ⟨h, hok, hholds⟩

/-- **`allocate_page_folder`** on the memory is `allocatePageFolder` on the pools. -/
theorem allocatePageFolder_holds (hholds : Holds pagingPool userSpacePool h s)
    (hosts : HostsPool .paging pagingPool pagingPoolSize h)
    (houtside : ∀ a ∈ bitmapSpan userSpacePool userSpacePoolSize,
      a ∉ PagePool.paging.region pagingPoolSize) :
    ∃ h', InMemory.allocatePageFolder pagingPool h = .ok ((allocatePageFolder s).1, h') ∧
      Holds pagingPool userSpacePool h' (allocatePageFolder s).2 := by
  rcases takeSlot_of_bitmap s.pagingPool hholds.paging with ⟨hsome, hnone⟩
  rcases allocate_spec hosts with ⟨b, h', hlowest, hok, htakes⟩ | ⟨hfull, hok⟩
  · have hb := hlowest.lt
    have hcall : allocatePageFolder s = (PagePool.paging.slotAddress b, { s with
        mem := memoryClear (PagePool.paging.slotAddress b) (BitVec.ofNat 32 pageSize) 0 s.mem
        pagingPool := ⟨Bitmap.setBit s.pagingPool.bytes (b / 8) (b % 8)⟩ }) := by
      unfold allocatePageFolder
      rw [hsome b hlowest, slotAddress_eq]
      rfl
    have hsub := PagePool.cleared_subset_region hosts hb
    rw [hcall]
    refine ⟨h', hok, htakes.bitmap hholds.paging, ?_, ?_, hholds.apart⟩
    · intro i hi
      rw [← hholds.userSpace i hi]
      refine htakes.writes.frame _ ?_
      -- the byte of a bit of the other pool is neither the one written nor cleared
      rintro (hbyte | hpage)
      · refine hholds.apart _ ⟨b / 8, ?_, hbyte⟩ ⟨i, hi, rfl⟩
        omega
      · exact houtside _ ⟨i, hi, rfl⟩ (hsub hpage)
    · intro a ha
      have hpage := PagePool.toNat_slotAddress hosts hb
      have hreach := hosts.reach
      have hsize : (BitVec.ofNat 32 pageSize).toNat = 4096 := by decide
      have hfits : (PagePool.paging.slotAddress b).toNat + (BitVec.ofNat 32 pageSize).toNat ≤
          2 ^ 32 := by
        omega
      by_cases hmem : a ∈ PagePool.paging.cleared b
      · have hspan : a ∈ span (PagePool.paging.slotAddress b).toNat
            (BitVec.ofNat 32 pageSize).toNat := by
          rw [hsize]
          exact hmem
        rw [htakes.zeroed a hmem, memoryClear_bytes hfits s.mem hspan]
      · have hclear := (writes_memoryClear (PagePool.paging.slotAddress b)
          (BitVec.ofNat 32 pageSize) 0 hfits s.mem).frame a (by rwa [hsize])
        rw [hclear, ← hholds.mem a ha]
        refine htakes.writes.frame a ?_
        rintro (hbyte | hpage)
        · refine ha (Or.inl ⟨b / 8, ?_, hbyte⟩)
          omega
        · exact hmem hpage
  · have hcall : allocatePageFolder s = (0, s) := by
      unfold allocatePageFolder
      rw [hnone hfull]
    rw [hcall]
    exact ⟨h, hok, hholds⟩

end Refinement

/-! ## The bitmaps of the kernel -/

section Kernel

/-- The blocks of the two bitmaps, in a heap at `0x50000`. -/
def poolBlocks : List Block := [⟨0x50018, 448⟩, ⟨0x501e4, 7680⟩]

/-- The words of that heap: its header, and the headers of the two blocks. -/
def poolWords : List (UDword × UDword) :=
  [(0x50000, 0x50018), (0x50004, 0x5000c), (0x50008, 0x60000),
    (0x5000c, 448), (0x50010, 0), (0x50014, 0x501e4),
    (0x501d8, 7680), (0x501dc, 0x50018), (0x501e0, 0)]

/-- That heap, with both bitmaps empty. -/
def poolHeap : Heap where
  mem := poolWords.foldl (fun m w => m.write32 w.1 w.2) ⟨fun _ => 0, []⟩
  header := 0x50000
  handlers := fun _ => none
  raised := []

theorem poolHeap_wellFormed : WellFormed poolHeap poolBlocks where
  heapStart := by decide +kernel
  heapEnd := by decide +kernel
  first := by decide +kernel
  size := by decide +kernel
  next := ⟨by decide +kernel, by decide +kernel, trivial⟩
  previous := ⟨by decide +kernel, by decide +kernel, trivial⟩
  sorted := by
    unfold Block.Before
    decide +kernel
  inside := by decide +kernel

/-- The heap lies below the pools. -/
theorem poolHeap_apart {k : PagePool} {n : ℕ} {b : Block} (hb : b ∈ poolBlocks) :
    ∀ a ∈ metadata poolHeap.header poolBlocks ∪ b.payload, a ∉ k.region n := by
  have hend : poolHeap.heapEnd.toNat = 0x60000 := by decide +kernel
  have hheader : poolHeap.header.toNat = 0x50000 := rfl
  have hblocks : ∀ c ∈ poolBlocks, c.addr.toNat + c.size.toNat ≤ 0x60000 := by decide +kernel
  have hstart := PagePool.toNat_start k
  intro a ha hregion
  unfold PagePool.region at hregion
  rw [mem_span] at hregion
  rcases ha with (hmeta | ⟨c, hc, hmeta⟩) | hpayload
  · rw [mem_span] at hmeta
    omega
  · have := hblocks c hc
    unfold Block.header at hmeta
    rw [mem_span] at hmeta
    omega
  · have := hblocks b hb
    unfold Block.payload at hpayload
    rw [mem_span] at hpayload
    omega

theorem hostsPool_poolHeap :
    HostsPool .paging 0x50018 448 poolHeap ∧ SizeKept .paging 0x50018 448 poolHeap :=
  hostsPool_of_block (b := ⟨0x50018, 448⟩) poolHeap_wellFormed (by decide) (by decide) (by decide)
    (poolHeap_apart (by decide))

/-- A byte that none of the words covers. -/
theorem bytes_of_words {a : UDword} (words : List (UDword × UDword)) (m : Mem)
    (hout : ∀ w ∈ words, w.1.toNat + 4 ≤ 2 ^ 32 ∧
      (w.1.toNat + 4 ≤ a.toNat ∨ a.toNat < w.1.toNat)) :
    (words.foldl (fun m w => m.write32 w.1 w.2) m).bytes a = m.bytes a := by
  induction words generalizing m with
  | nil => rfl
  | cons w words ih =>
    rcases hout w List.mem_cons_self with ⟨hfits, hapart⟩
    rw [List.foldl_cons, ih _ fun w' hw' => hout w' (List.mem_cons_of_mem w hw')]
    refine (writes_write32 (S := span w.1.toNat 4) m w.2 hfits fun _ h => h).frame a ?_
    rw [mem_span]
    omega

/-- Both bitmaps are empty. -/
theorem poolHeap_clear {b : Block} (hb : b ∈ poolBlocks) (s : ℕ) (hs : s < b.size.toNat * 8) :
    Bitmap.taken (bitmapOf b.addr poolHeap.mem) s = false := by
  have hblocks : ∀ c ∈ poolBlocks, c.addr.toNat + c.size.toNat ≤ 0x60000 ∧
      poolWords.all (fun w => w.1.toNat + 4 ≤ 0x60000 &&
        (w.1.toNat + 4 ≤ c.addr.toNat || c.addr.toNat + c.size.toNat ≤ w.1.toNat)) = true := by
    decide +kernel
  rcases hblocks b hb with ⟨hstop, hwords⟩
  have haddr : (b.addr + BitVec.ofNat 32 (s / 8)).toNat = b.addr.toNat + s / 8 :=
    toNat_add_ofNat (by omega)
  have hout : ∀ w ∈ poolWords, w.1.toNat + 4 ≤ 2 ^ 32 ∧
      (w.1.toNat + 4 ≤ (b.addr + BitVec.ofNat 32 (s / 8)).toNat ∨
        (b.addr + BitVec.ofNat 32 (s / 8)).toNat < w.1.toNat) := by
    intro w hw
    have hword := List.all_eq_true.mp hwords w hw
    simp only [Bool.and_eq_true, Bool.or_eq_true, decide_eq_true_eq] at hword
    omega
  have hbyte : bitmapOf b.addr poolHeap.mem (s / 8) = 0#8 :=
    bytes_of_words poolWords ⟨fun _ => 0, []⟩ hout
  unfold Bitmap.taken
  rw [hbyte, BitVec.getLsbD_zero]

/-- The first frame, and a run of calls that hands out all 3584 folders. -/
theorem allocate_never_twice_poolHeap :
    (∃ b h', Bitmap.Lowest (bitmapOf 0x50018 poolHeap.mem) 448 b ∧
      PagePool.paging.allocate 0x50018 poolHeap = .ok (PagePool.paging.slotAddress b, h') ∧
      TakesSlot .paging 0x50018 448 b poolHeap h') ∧
    ∀ answers h, (poolSystem .paging 0x50018 448).Run poolHeap answers h →
      (granted answers).Nodup ∧ (granted answers).length = min (returned answers).length 3584 := by
  have hempty : ∀ b < 448 * 8, Bitmap.taken (bitmapOf 0x50018 poolHeap.mem) b = false :=
    poolHeap_clear (b := ⟨0x50018, 448⟩) (by decide)
  rcases hostsPool_poolHeap with ⟨hosts, hkept⟩
  rcases allocate_never_twice hosts with ⟨hcall, -, hruns⟩
  refine ⟨hcall ⟨0, by decide, hempty 0 (by decide)⟩, ?_⟩
  intro answers h hrun
  rcases hruns ⟨hosts, hkept, hempty⟩ answers h hrun with ⟨hnodup, -, hlength, -⟩
  exact ⟨hnodup, hlength⟩

end Kernel

end MushOS
