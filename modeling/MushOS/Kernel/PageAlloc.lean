import MushOS.Kernel.Pages

/-! # Free slots, and what allocating one changes

The two pools as sets of free physical pages, by page number: `freeFolders` lies
in the paging pool, `freeFrames` in the user space. Each allocator either finds
its set empty, returns null and changes nothing, or takes one page out of it
(`allocateFrame_spec`, `allocatePageFolder_spec`).

`Evolves W s s'` is the frame rule of everything built on them: from `s` to `s'`
the free sets shrink, and only pages that were taken on the way, or are in `W`,
are written. A page that is taken later was free earlier, so two pages taken at
different times differ.
-/

namespace MushOS

open ByteMemory Loop

/-! ## Page numbers and entries -/

/-- The address page `n` starts at. -/
def pageStart (n : ℕ) : UDword := BitVec.ofNat 32 (n * 4096)

section Entries
variable {m m' : Mem} {k k' n i j : ℕ} {p : PagePointer}

theorem toNat_pageStart (hk : k < 2 ^ 20) : (pageStart k).toNat = k * 4096 := by
  unfold pageStart
  rw [BitVec.toNat_ofNat]
  exact Nat.mod_eq_of_lt (by omega)

theorem pageOf_pageStart (hk : k < 2 ^ 20) : pageOf (pageStart k) = k := by
  unfold pageOf
  rw [toNat_pageStart hk]
  omega

theorem pageStart_eq_zero (hk : k < 2 ^ 20) : pageStart k = 0 ↔ k = 0 := by
  constructor
  · intro h
    have := congrArg BitVec.toNat h
    rw [toNat_pageStart hk] at this
    simp at this
    exact this
  · intro h
    subst h
    rfl

/-- A page-aligned address is the start of its page. -/
theorem eq_pageStart {a : UDword} (ha : a.toNat % 4096 = 0) : a = pageStart (pageOf a) := by
  have hlt := a.isLt
  apply BitVec.eq_of_toNat_eq
  unfold pageOf
  rw [toNat_pageStart (by omega)]
  omega

theorem frame_lt (p : PagePointer) : p.frame.toNat < 2 ^ 20 := p.frame.isLt

theorem getContentsAsPage_eq (p : PagePointer) :
    getContentsAsPage p = pageStart p.frame.toNat := by
  have hlt := frame_lt p
  apply BitVec.eq_of_toNat_eq
  rw [toNat_pageStart hlt]
  unfold getContentsAsPage pageSize
  rw [BitVec.toNat_mul, BitVec.toNat_setWidth, BitVec.toNat_ofNat,
    Nat.mod_eq_of_lt (show p.frame.toNat < 2 ^ 32 by omega)]
  exact Nat.mod_eq_of_lt (by omega)

theorem toNat_frameOf (a : UDword) : (frameOf a).toNat = pageOf a := by
  have hlt := a.isLt
  unfold frameOf pageOf pageSize
  rw [BitVec.toNat_setWidth, BitVec.toNat_udiv, BitVec.toNat_ofNat,
    show 4096 % 2 ^ 32 = 4096 from rfl]
  exact Nat.mod_eq_of_lt (by omega)

@[simp] theorem toNat_frameOf_pageStart (hk : k < 2 ^ 20) :
    (frameOf (pageStart k)).toNat = k := by
  rw [toNat_frameOf, pageOf_pageStart hk]

@[simp] theorem clonePagePointer_eq (p : PagePointer) : clonePagePointer p = p := rfl

/-- Entry `i` of the folder in page `k`. -/
theorem toNat_entryAddress (hk : k < 2 ^ 20) (hi : i < 1024) :
    (entryAddress (pageStart k) i).toNat = k * 4096 + 4 * i := by
  unfold entryAddress
  rw [BitVec.toNat_add, toNat_pageStart hk, BitVec.toNat_ofNat]
  omega

theorem span_entry_subset (hk : k < 2 ^ 20) (hi : i < 1024) :
    ∀ a ∈ span (entryAddress (pageStart k) i).toNat 4, a ∈ pages {k} := by
  intro a ha
  rw [toNat_entryAddress hk hi, mem_span] at ha
  rw [mem_pages, Set.mem_singleton_iff]
  unfold pageOf
  omega

theorem writes_setEntry (m : Mem) (hk : k < 2 ^ 20) (hi : i < 1024) :
    Writes (pages {k}) m (m.setEntry (pageStart k) i p) := by
  refine writes_write32 _ _ ?_ (span_entry_subset hk hi)
  rw [toNat_entryAddress hk hi]
  omega

/-- The entry's own address is among the addresses written. -/
theorem entryAddress_mem_written (m : Mem) (folder : UDword) (i : ℕ) (p : PagePointer) :
    entryAddress folder i ∈ (m.setEntry folder i p).written := by
  unfold Mem.setEntry Mem.write32
  simp only [Mem.write8_written]
  simp

theorem written_setEntry {m : Mem} {a : UDword} (ha : a ∈ m.written) (folder : UDword) (i : ℕ)
    (p : PagePointer) : a ∈ (m.setEntry folder i p).written := by
  unfold Mem.setEntry Mem.write32
  simp only [Mem.write8_written]
  simp [ha]

@[simp] theorem entry_setEntry_self (m : Mem) (folder : UDword) (i : ℕ) (p : PagePointer) :
    (m.setEntry folder i p).entry folder i = p := by
  unfold Mem.entry Mem.setEntry
  rw [Mem.read32_write32_self, PagePointer.decode_encode]

theorem entry_setEntry_ne (m : Mem) (hk : k < 2 ^ 20) (hi : i < 1024) (hj : j < 1024)
    (hij : i ≠ j) : (m.setEntry (pageStart k) i p).entry (pageStart k) j =
      m.entry (pageStart k) j := by
  have hi' := toNat_entryAddress hk hi
  have hj' := toNat_entryAddress hk hj
  unfold Mem.entry Mem.setEntry
  rw [read32_write32_ne _ _ (by omega) (by omega) (by omega)]

/-- The entries of a folder move with its page. -/
theorem entry_samePage (h : SamePage m k m' k') (hk : k < 2 ^ 20) (hk' : k' < 2 ^ 20)
    (hi : i < 1024) : m'.entry (pageStart k') i = m.entry (pageStart k) i := by
  unfold Mem.entry
  rw [h.read32 hk hk' (o := 4 * i) (by omega) (toNat_entryAddress hk hi)
    (toNat_entryAddress hk' hi)]

/-- Writing an entry leaves the other folders alone. -/
theorem entry_setEntry_other (m : Mem) (hk : k < 2 ^ 20) (hk' : k' < 2 ^ 20) (hi : i < 1024)
    (hj : j < 1024) (hne : k ≠ k') : (m.setEntry (pageStart k) i p).entry (pageStart k') j =
      m.entry (pageStart k') j := by
  refine entry_samePage ((writes_setEntry m hk hi).samePage hk' ?_) hk' hk' hj
  rw [Set.mem_singleton_iff]
  exact Ne.symm hne

/-- The entry of a cleared folder: nothing is mapped. -/
def PagePointer.absent : PagePointer := PagePointer.decode 0

@[simp] theorem present_absent : PagePointer.absent.present = false := by decide

theorem entry_cleared (hk : k < 2 ^ 20) (hi : i < 1024)
    (hclear : ∀ o < 4096, m.bytes (pageByte k o) = 0) :
    m.entry (pageStart k) i = PagePointer.absent := by
  have hsame : SamePage ⟨fun _ => 0, []⟩ k m k := hclear
  rw [entry_samePage hsame hk hk hi]
  have hzero : (⟨fun _ => 0, []⟩ : Mem).read32 (entryAddress (pageStart k) i) = 0 := by
    show (0#8 ++ 0#8 ++ 0#8 ++ 0#8 : BitVec 32) = 0
    decide
  unfold Mem.entry PagePointer.absent
  rw [hzero]

end Entries

/-! ## Copying a page -/

/-- `copy_page_physical` writes its destination and nothing else. -/
theorem writes_copyPagePhysical {k : ℕ} (hk : k < 2 ^ 20) (source : UDword) (m : Mem) :
    Writes (pages {k}) m (copyPagePhysical source (pageStart k) m) := by
  unfold copyPagePhysical
  refine loop_induction (P := fun _ m' => Writes (pages {k}) m m') (Writes.refl _ m) ?_
  intro i m' hi hm'
  refine hm'.trans (writes_write32 _ _ ?_ (span_entry_subset hk hi))
  show (entryAddress (pageStart k) i).toNat + 4 ≤ 2 ^ 32
  rw [toNat_entryAddress hk hi]
  omega

/-- The first address of the destination is among the addresses written. -/
theorem destination_mem_written (source destination : UDword) (m : Mem) :
    destination ∈ (copyPagePhysical source destination m).written := by
  unfold copyPagePhysical
  have hlater : ∀ n, destination ∈ (loop (fun i m =>
      m.write32 (destination + BitVec.ofNat 32 (4 * i))
        (m.read32 (source + BitVec.ofNat 32 (4 * i)))) (n + 1) m).written := by
    intro n
    induction n with
    | zero =>
      unfold loop Mem.write32
      simp
    | succ n ih =>
      rw [loop]
      unfold Mem.write32
      simp only [Mem.write8_written, List.mem_cons]
      exact Or.inr (Or.inr (Or.inr (Or.inr ih)))
  exact hlater 1023

/-- Copying one page to another. -/
theorem samePage_copyPagePhysical {k k' : ℕ} (hk : k < 2 ^ 20) (hk' : k' < 2 ^ 20)
    (hne : k ≠ k') (m : Mem) :
    SamePage m k (copyPagePhysical (pageStart k) (pageStart k') m) k' := by
  have hloop : Writes (pages {k'}) m (copyPagePhysical (pageStart k) (pageStart k') m) ∧
      ∀ o < 4 * 1024, (copyPagePhysical (pageStart k) (pageStart k') m).bytes (pageByte k' o) =
        m.bytes (pageByte k o) := by
    unfold copyPagePhysical
    refine loop_induction (P := fun i m' => Writes (pages {k'}) m m' ∧
      ∀ o < 4 * i, m'.bytes (pageByte k' o) = m.bytes (pageByte k o)) ⟨Writes.refl _ m, ?_⟩ ?_
    · intro o ho
      omega
    · rintro i m' hi ⟨hw, hcopied⟩
      have haddr := toNat_entryAddress hk' hi
      have hwrite : Writes (pages {k'}) m' (m'.write32 (entryAddress (pageStart k') i)
          (m'.read32 (entryAddress (pageStart k) i))) :=
        writes_write32 _ _ (by omega) (span_entry_subset hk' hi)
      refine ⟨hw.trans hwrite, ?_⟩
      intro o ho
      have hsource : m'.read32 (entryAddress (pageStart k) i) =
          m.read32 (entryAddress (pageStart k) i) :=
        (hw.samePage hk (by simpa using hne)).read32 hk hk (by omega)
          (toNat_entryAddress hk hi) (toNat_entryAddress hk hi)
      by_cases hold : o < 4 * i
      · -- a byte copied before, in another word
        rw [← hcopied o hold]
        refine (writes_write32 (S := span (entryAddress (pageStart k') i).toNat 4) m' _
          (by omega) (fun _ h => h)).frame _ ?_
        rw [mem_span, toNat_pageByte hk' (by omega), haddr]
        omega
      · obtain ⟨r, hr, rfl⟩ : ∃ r < 4, o = 4 * i + r := ⟨o - 4 * i, by omega, by omega⟩
        have hdest : pageByte k' (4 * i + r) =
            entryAddress (pageStart k') i + BitVec.ofNat 32 r := by
          apply BitVec.eq_of_toNat_eq
          rw [toNat_pageByte hk' (by omega), BitVec.toNat_add, haddr, BitVec.toNat_ofNat]
          omega
        have hsrc : pageByte k (4 * i + r) =
            entryAddress (pageStart k) i + BitVec.ofNat 32 r := by
          apply BitVec.eq_of_toNat_eq
          rw [toNat_pageByte hk (by omega), BitVec.toNat_add, toNat_entryAddress hk hi,
            BitVec.toNat_ofNat]
          omega
        show (m'.write32 (entryAddress (pageStart k') i) _).bytes _ = _
        rw [hdest, Mem.write32_bytes _ _ _ hr, hsrc, ← Mem.read32_extract _ _ hr]
        exact congrArg _ hsource
  intro o ho
  exact hloop.2 o (by omega)

/-! ## The free pages -/

/-- The free pages of the paging pool. -/
def freeFolders (s : Paging) : Finset ℕ :=
  (Bitmap.free s.pagingPool.bytes pagingPoolSize).map (addRightEmbedding 0x100)

/-- The free pages of the user space. -/
def freeFrames (s : Paging) : Finset ℕ :=
  (Bitmap.free s.userSpacePool.bytes userSpacePoolSize).map (addRightEmbedding 0x1000)

/-- The free pages of both pools. -/
def free (s : Paging) : Finset ℕ := freeFolders s ∪ freeFrames s

section Free
variable {s s' : Paging} {n : ℕ}

/-- The free sets depend on the bitmaps only. -/
@[simp] theorem freeFolders_mem (s : Paging) (m : Mem) :
    freeFolders { s with mem := m } = freeFolders s := rfl

@[simp] theorem freeFrames_mem (s : Paging) (m : Mem) :
    freeFrames { s with mem := m } = freeFrames s := rfl

theorem mem_free : n ∈ free s ↔ n ∈ freeFolders s ∨ n ∈ freeFrames s := Finset.mem_union

theorem freeFolders_range (h : n ∈ freeFolders s) : 0x100 ≤ n ∧ n < 0xf00 := by
  rcases Finset.mem_map.mp h with ⟨slot, hslot, rfl⟩
  have hlt := (Bitmap.mem_free.mp hslot).1
  unfold pagingPoolSize at hlt
  simp only [addRightEmbedding_apply]
  omega

theorem freeFrames_range (h : n ∈ freeFrames s) : 0x1000 ≤ n ∧ n < 0x10000 := by
  rcases Finset.mem_map.mp h with ⟨slot, hslot, rfl⟩
  have hlt := (Bitmap.mem_free.mp hslot).1
  unfold userSpacePoolSize at hlt
  simp only [addRightEmbedding_apply]
  omega

theorem free_range (h : n ∈ free s) : 0x100 ≤ n ∧ n < 0x10000 := by
  rcases mem_free.mp h with h | h
  · have := freeFolders_range h
    omega
  · have := freeFrames_range h
    omega

theorem freeFolders_not_freeFrames (h : n ∈ freeFolders s) : n ∉ freeFrames s' := by
  intro h'
  have := freeFolders_range h
  have := freeFrames_range h'
  omega

end Free

/-! ## Allocating -/

theorem and_one_shiftLeft_eq_zero (x : UByte) {i : ℕ} (hi : i < 8) :
    x &&& (1#8 <<< i) = 0 ↔ x.getLsbD i = false := by
  have hbit : ∀ j < 8, (x &&& (1#8 <<< i)).getLsbD j = (decide (j = i) && x.getLsbD j) := by
    intro j hj
    have hor : (1#8 <<< i).getLsbD j = decide (j = i) := by
      have := Bitmap.getLsbD_or_one_shiftLeft 0#8 hi (c := j)
      rwa [BitVec.zero_or, BitVec.getLsbD_zero, Bool.or_false] at this
    rw [BitVec.getLsbD_and, hor, Bool.and_comm]
  constructor
  · intro h
    have := hbit i hi
    rw [h] at this
    simpa using this.symm
  · intro h
    apply BitVec.eq_of_getLsbD_eq
    intro j hj
    rw [hbit j hj]
    by_cases hji : j = i
    · subst hji
      simp [h]
    · simp [hji]

/-- `get_free_bit` finds a clear bit, unless all eight are set. -/
theorem getFreeBit_spec (x : UByte) :
    (getFreeBit x = fullByte ∧ ∀ b < 8, x.getLsbD b = true) ∨
      (getFreeBit x < 8 ∧ x.getLsbD (getFreeBit x) = false) := by
  unfold getFreeBit
  by_cases hfull : x = BitVec.ofNat 8 fullByte
  · left
    rw [if_pos hfull, hfull]
    refine ⟨rfl, ?_⟩
    decide
  · rw [if_neg hfull]
    cases hfind : firstTo (fun i => decide (x &&& (1#8 <<< i) = 0)) 8 with
    | some i =>
      right
      rcases firstTo_eq_some hfind with ⟨hi, hclear, -⟩
      exact ⟨hi, (and_one_shiftLeft_eq_zero x hi).mp (of_decide_eq_true hclear)⟩
    | none =>
      -- a byte without a clear bit is the full one
      exfalso
      apply hfull
      apply BitVec.eq_of_getLsbD_eq
      intro b hb
      have hset := firstTo_eq_none.mp hfind b hb
      have hx : x.getLsbD b = true := by
        by_contra hclear
        rw [Bool.not_eq_true] at hclear
        have := (and_one_shiftLeft_eq_zero x hb).mpr hclear
        simp [this] at hset
      rw [hx]
      have hall : ∀ b < 8, (BitVec.ofNat 8 fullByte).getLsbD b = true := by decide
      exact (hall b hb).symm

/-- The bits below the one `get_free_bit` returns are set. -/
theorem getFreeBit_below {x : UByte} (hlt : getFreeBit x < 8) {c : ℕ} (hc : c < getFreeBit x) :
    x.getLsbD c = true := by
  unfold getFreeBit at hlt hc
  by_cases hfull : x = BitVec.ofNat 8 fullByte
  · rw [if_pos hfull] at hlt
    exact absurd hlt (by decide)
  · rw [if_neg hfull] at hlt hc
    cases hfind : firstTo (fun i => decide (x &&& (1#8 <<< i) = 0)) 8 with
    | none =>
      rw [hfind] at hlt
      exact absurd hlt (by decide)
    | some i =>
      rw [hfind, Option.getD_some] at hlt hc
      have hset := (firstTo_eq_some hfind).2.2 c hc
      by_contra hclear
      rw [Bool.not_eq_true] at hclear
      rw [(and_one_shiftLeft_eq_zero x (by omega)).mpr hclear] at hset
      simp at hset

/-- The shared loop: the lowest free slot is taken, or no slot is free. -/
theorem takeSlot_lowest {size : ℕ} (pool : Pool size) :
    (∃ b, Bitmap.Lowest pool.bytes size b ∧
      takeSlot pool = some (b, ⟨Bitmap.setBit pool.bytes (b / 8) (b % 8)⟩)) ∨
      ((∀ c < size * 8, Bitmap.taken pool.bytes c = true) ∧ takeSlot pool = none) := by
  -- the scan passes over a byte only if all its bits are set
  have hbyte : ∀ j, decide (getFreeBit (pool.bytes j) ≠ fullByte) = false →
      ∀ b < 8, (pool.bytes j).getLsbD b = true := by
    intro j hfull
    rcases getFreeBit_spec (pool.bytes j) with ⟨-, hset⟩ | ⟨hlt, -⟩
    · exact hset
    · unfold fullByte at hfull
      simp at hfull
      omega
  unfold takeSlot
  cases hfind : firstTo (fun i => decide (getFreeBit (pool.bytes i) ≠ fullByte)) size with
  | none =>
    right
    refine ⟨?_, rfl⟩
    intro c hc
    exact hbyte (c / 8) (firstTo_eq_none.mp hfind (c / 8) (by omega)) (c % 8) (by omega)
  | some i =>
    left
    rcases firstTo_eq_some hfind with ⟨hi, hsome, hbefore⟩
    rcases getFreeBit_spec (pool.bytes i) with ⟨hnone, -⟩ | ⟨hlt, hclear⟩
    · exact absurd hnone (of_decide_eq_true hsome)
    · have hlowest := Bitmap.lowest_of_scan hi hlt
        (fun s hs => hbyte (s / 8) (hbefore (s / 8) (by omega)) (s % 8) (by omega)) hclear
        fun c hc => getFreeBit_below hlt hc
      have hdiv : (i * 8 + getFreeBit (pool.bytes i)) / 8 = i := by omega
      have hmod : (i * 8 + getFreeBit (pool.bytes i)) % 8 = getFreeBit (pool.bytes i) := by omega
      refine ⟨_, hlowest, ?_⟩
      rw [hdiv, hmod]
      rfl

/-- The shared loop: no slot is free, or a free one is taken. -/
theorem takeSlot_spec {size : ℕ} (pool : Pool size) :
    (takeSlot pool = none ∧ Bitmap.free pool.bytes size = ∅) ∨
      ∃ slot pool', takeSlot pool = some (slot, pool') ∧ slot ∈ Bitmap.free pool.bytes size ∧
        Bitmap.free pool'.bytes size = (Bitmap.free pool.bytes size).erase slot := by
  rcases takeSlot_lowest pool with ⟨b, hlowest, htake⟩ | ⟨hfull, hnone⟩
  · right
    have hsplit : b / 8 * 8 + b % 8 = b := by omega
    have hfree := Bitmap.free_setBit pool.bytes (i := b / 8) (b := b % 8) (n := size) (by omega)
    rw [hsplit] at hfree
    exact ⟨b, _, htake, Bitmap.mem_free.mpr ⟨hlowest.lt, hlowest.clear⟩, hfree⟩
  · left
    refine ⟨hnone, ?_⟩
    ext s
    rw [Bitmap.mem_free]
    refine iff_of_false ?_ (Finset.notMem_empty s)
    rintro ⟨hs, hclear⟩
    rw [hfull s hs] at hclear
    cases hclear

/-- `s'` is `s` with the frame `n` taken. -/
structure TakesFrame (s : Paging) (n : ℕ) (s' : Paging) : Prop where
  was_free : n ∈ freeFrames s
  frames : freeFrames s' = (freeFrames s).erase n
  folders : freeFolders s' = freeFolders s
  mem : s'.mem = s.mem

/-- `s'` is `s` with the folder `n` taken and cleared. -/
structure TakesFolder (s : Paging) (n : ℕ) (s' : Paging) : Prop where
  was_free : n ∈ freeFolders s
  folders : freeFolders s' = (freeFolders s).erase n
  frames : freeFrames s' = freeFrames s
  writes : Writes (pages {n}) s.mem s'.mem
  cleared : ∀ o < 4096, s'.mem.bytes (pageByte n o) = 0

theorem slot_address {a slot : ℕ} {base : UDword} (hbase : base = pageStart a) :
    base + BitVec.ofNat 32 (slot * pageSize) = pageStart (slot + a) := by
  rw [hbase]
  unfold pageStart pageSize
  rw [← BitVec.ofNat_add, ← Nat.add_mul, Nat.add_comm a slot]

/-- **allocate_frame** returns null when the user space is full. -/
theorem allocateFrame_spec (s : Paging) :
    (freeFrames s = ∅ ∧ allocateFrame s = (0, s)) ∨
      ∃ n s', allocateFrame s = (pageStart n, s') ∧ TakesFrame s n s' := by
  unfold allocateFrame
  rcases takeSlot_spec s.userSpacePool with ⟨hnone, hempty⟩ | ⟨slot, pool, hsome, hmem, herase⟩
  · left
    rw [hnone]
    unfold freeFrames
    rw [hempty]
    exact ⟨rfl, rfl⟩
  · right
    rw [hsome]
    refine ⟨slot + 0x1000, { s with userSpacePool := pool }, ?_, ?_, ?_, rfl, rfl⟩
    · have haddr : userSpaceStart + BitVec.ofNat 32 (slot * pageSize) = pageStart (slot + 0x1000) :=
        slot_address (by decide)
      simp only [haddr]
    · exact Finset.mem_map_of_mem (addRightEmbedding 0x1000) hmem
    · unfold freeFrames
      rw [herase, Finset.map_erase]
      rfl

/-- **allocate_page_folder** returns null when the paging pool is full; a folder it
returns is clear. -/
theorem allocatePageFolder_spec (s : Paging) :
    (freeFolders s = ∅ ∧ allocatePageFolder s = (0, s)) ∨
      ∃ n s', allocatePageFolder s = (pageStart n, s') ∧ TakesFolder s n s' := by
  unfold allocatePageFolder
  rcases takeSlot_spec s.pagingPool with ⟨hnone, hempty⟩ | ⟨slot, pool, hsome, hmem, herase⟩
  · left
    rw [hnone]
    unfold freeFolders
    rw [hempty]
    exact ⟨rfl, rfl⟩
  · right
    rw [hsome]
    have hfree : slot + 0x100 ∈ freeFolders s :=
      Finset.mem_map_of_mem (addRightEmbedding 0x100) hmem
    have hrange := freeFolders_range hfree
    have haddr : pagingPoolStart + BitVec.ofNat 32 (slot * pageSize) = pageStart (slot + 0x100) :=
      slot_address (by decide)
    have hstart := toNat_pageStart (k := slot + 0x100) (by omega)
    have hsize : (BitVec.ofNat 32 pageSize).toNat = 4096 := by decide
    -- the page of the slot is all zeros afterwards, so every entry of the folder is absent
    have hclear : ∀ {m : Mem} {a : UDword}, a ∈ pages {slot + 0x100} →
        (memoryClear (pageStart (slot + 0x100)) (BitVec.ofNat 32 pageSize) 0 m).bytes a = 0 := by
      intro m a ha
      refine memoryClear_bytes ?_ m ?_
      · rw [hstart, hsize]
        omega
      · rwa [hstart, hsize, ← pages_singleton]
    refine ⟨slot + 0x100, { s with
      mem := memoryClear (pageStart (slot + 0x100)) (BitVec.ofNat 32 pageSize) 0 s.mem
      pagingPool := pool }, ?_, hfree, ?_, rfl, ?_, ?_⟩
    · simp only [haddr]
    · unfold freeFolders
      rw [herase, Finset.map_erase]
      rfl
    · refine (writes_memoryClear _ _ 0 ?_ s.mem).mono ?_
      · rw [hstart, hsize]
        omega
      · rw [hstart, hsize, ← pages_singleton]
    · intro o ho
      apply hclear
      rw [mem_pages, pageOf_pageByte (by omega) ho]
      rfl

end MushOS
