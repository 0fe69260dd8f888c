import MushOS.Kernel.Pools

/-! # pages.c: giving a frame back

`free_frame` takes the offset of a frame in the user space, in bytes, for the number of
its bit: of frame `b` it clears bit `4096 * b` (`taken_freeFrame`). It gives back
the first frame and no other one. Another frame stays taken, and what is cleared is the
bit of a frame that may be in use, or a byte behind the bitmap; the next
`allocate_frame` then hands out a frame that is still in use (`reissues_frame`).
-/

namespace MushOS

open ByteMemory

/-! ## Model -/

def InMemory.freeFrame (userSpacePool address : UDword) (h : Heap) : Heap :=
  let index := address - userSpaceStart
  let a := userSpacePool + index / 8
  { h with mem := h.mem.write8 a (h.mem.read8 a &&& ~~~(1#8 <<< (index % 8).toNat)) }

/-- Frame `b`, and no other one, has been given back from `h` to `h'`: its bit is clear, only
bytes of the bitmap have been written, and the frame handed out next is not in use. -/
structure GivesBack (pool : UDword) (n b : ℕ) (h h' : Heap) : Prop where
  bits : ∀ c < n * 8, Bitmap.taken (bitmapOf pool h'.mem) c =
    (decide (c ≠ b) && Bitmap.taken (bitmapOf pool h.mem) c)
  writes : Writes (bitmapSpan pool n) h.mem h'.mem
  later : ∀ a h'', InMemory.allocateFrame pool h' = .ok (a, h'') → a ≠ 0 →
    ∃ c < n * 8, a = PagePool.userSpace.slotAddress c ∧
      (c = b ∨ Bitmap.taken (bitmapOf pool h.mem) c = false)

/-! ## The bit that is cleared -/

section FreeFrame
variable {pool : UDword} {n b : ℕ} {h h' : Heap}

/-- The byte `free_frame` writes for frame `b`. -/
theorem freeFrame_slot (pool : UDword) (h : Heap) (hb : 4096 * b < 2 ^ 32) :
    InMemory.freeFrame pool (PagePool.userSpace.slotAddress b) h = { h with
      mem := h.mem.write8 (pool + BitVec.ofNat 32 (512 * b))
        (bitmapOf pool h.mem (512 * b) &&& ~~~(1#8 <<< 0)) } := by
  have hindex : PagePool.userSpace.slotAddress b - userSpaceStart = BitVec.ofNat 32 (4096 * b) := by
    show userSpaceStart + BitVec.ofNat 32 (4096 * b) - userSpaceStart = _
    rw [BitVec.add_comm, BitVec.add_sub_cancel]
  have hbyte : BitVec.ofNat 32 (4096 * b) / 8 = BitVec.ofNat 32 (512 * b) := by
    apply BitVec.eq_of_toNat_eq
    rw [BitVec.toNat_udiv, toNat_ofNat_of_lt hb, toNat_ofNat_of_lt (by omega)]
    show 4096 * b / 8 = 512 * b
    omega
  have hbit : (BitVec.ofNat 32 (4096 * b) % 8).toNat = 0 := by
    rw [BitVec.toNat_umod, toNat_ofNat_of_lt hb]
    show 4096 * b % 8 = 0
    omega
  unfold InMemory.freeFrame
  simp only [hindex, hbyte, hbit]
  rfl

/-- Of the bitmap **`free_frame`** clears bit `4096 * b`, if there is one. -/
theorem taken_freeFrame (hosts : HostsPool .userSpace pool n h) (hb : b < n * 8) {c : ℕ}
    (hc : c < n * 8) (m : Mem) :
    Bitmap.taken (bitmapOf pool
      (InMemory.freeFrame pool (PagePool.userSpace.slotAddress b) { h with mem := m }).mem) c =
      (decide (c ≠ 4096 * b) && Bitmap.taken (bitmapOf pool m) c) := by
  have hlt := hosts.lt
  have hbit := Bitmap.taken_clearBit (bitmapOf pool m) (i := 512 * b) (b := 0) (by decide) c
  have hsplit : 512 * b * 8 + 0 = 4096 * b := by omega
  rw [hsplit] at hbit
  rw [freeFrame_slot pool _ (by omega), ← hbit]
  apply taken_of_byte
  show bitmapOf pool (m.write8 _ _) (c / 8) = _
  rw [bitmapOf_write8 _ _ (by omega) (by omega)]
  rfl

/-- For the first frame that is its own bit. -/
theorem givesBack_first (hosts : HostsPool .userSpace pool n h)
    (hkept : SizeKept .userSpace pool n h) (hn : 0 < n) :
    GivesBack pool n 0 h (InMemory.freeFrame pool (PagePool.userSpace.slotAddress 0) h) := by
  have hbits : ∀ c < n * 8, Bitmap.taken (bitmapOf pool
      (InMemory.freeFrame pool (PagePool.userSpace.slotAddress 0) h).mem) c =
      (decide (c ≠ 0) && Bitmap.taken (bitmapOf pool h.mem) c) := fun c hc =>
    taken_freeFrame hosts (b := 0) (by omega) hc h.mem
  have hslot := freeFrame_slot pool h (b := 0) (by decide)
  have hwrites : Writes (bitmapSpan pool n) h.mem
      (InMemory.freeFrame pool (PagePool.userSpace.slotAddress 0) h).mem := by
    rw [hslot]
    exact writes_write8 _ _ ⟨0, hn, rfl⟩
  refine ⟨hbits, hwrites, ?_⟩
  intro a h'' hcall hne
  -- the call still sees the bitmap with its size
  have hosts' : HostsPool .userSpace pool n
      (InMemory.freeFrame pool (PagePool.userSpace.slotAddress 0) h) := by
    refine hosts.congr ?_ fun x hx => hwrites.frame x (hkept x hx).1
    rw [hslot]
  rcases allocate_spec hosts' with ⟨c, h₁, hlowest, hok, -⟩ | ⟨-, hok⟩
  · rcases Prod.mk.inj (Except.ok.inj (hok.symm.trans hcall)) with ⟨rfl, -⟩
    have hclear := hlowest.clear
    rw [hbits c hlowest.lt, Bool.and_eq_false_iff, decide_eq_false_iff_not, not_not] at hclear
    exact ⟨c, hlowest.lt, rfl, hclear⟩
  · rcases Prod.mk.inj (Except.ok.inj (hok.symm.trans hcall)) with ⟨rfl, -⟩
    exact absurd rfl hne

/-- Any other frame stays taken. -/
theorem taken_freeFrame_self (hosts : HostsPool .userSpace pool n h) (hb : b < n * 8) (hb0 : b ≠ 0)
    (m : Mem) (htaken : Bitmap.taken (bitmapOf pool m) b = true) :
    Bitmap.taken (bitmapOf pool
      (InMemory.freeFrame pool (PagePool.userSpace.slotAddress b) { h with mem := m }).mem) b =
      true := by
  have hne : b ≠ 4096 * b := by omega
  rw [taken_freeFrame hosts hb hb m, htaken, decide_eq_true hne]
  rfl

/-- When frame `b` is given back to a full user space, the next frame handed out is frame
`4096 * b`, which is in use. -/
theorem reissues_frame (hosts : HostsPool .userSpace pool n h)
    (hkept : SizeKept .userSpace pool n h)
    (hb : 4096 * b < n * 8) (hfull : ∀ c < n * 8, Bitmap.taken (bitmapOf pool h.mem) c = true) :
    ∃ h', InMemory.allocateFrame pool
      (InMemory.freeFrame pool (PagePool.userSpace.slotAddress b) h) =
        .ok (PagePool.userSpace.slotAddress (4096 * b), h') := by
  have hlt := hosts.lt
  -- every frame was taken, so the bit that is cleared is the only one
  have hbits : ∀ c < n * 8, Bitmap.taken (bitmapOf pool
      (InMemory.freeFrame pool (PagePool.userSpace.slotAddress b) h).mem) c =
      decide (c ≠ 4096 * b) := by
    intro c hc
    have hbit := taken_freeFrame hosts (b := b) (by omega) hc h.mem
    rwa [hfull c hc, Bool.and_true] at hbit
  have hslot := freeFrame_slot pool h (b := b) (by omega)
  have hosts' : HostsPool .userSpace pool n
      (InMemory.freeFrame pool (PagePool.userSpace.slotAddress b) h) := by
    rw [hslot]
    refine hosts.congr rfl fun x hx => ?_
    refine Mem.write8_bytes_ne _ _ fun heq => (hkept x hx).1 ⟨512 * b, ?_, heq⟩
    omega
  have hlowest : Bitmap.Lowest (bitmapOf pool
      (InMemory.freeFrame pool (PagePool.userSpace.slotAddress b) h).mem) n (4096 * b) := by
    refine ⟨hb, ?_, ?_⟩
    · rw [hbits _ hb, decide_eq_false (not_not.mpr rfl)]
    · intro c hc
      rw [hbits c (by omega), decide_eq_true (by omega)]
  rcases allocate_spec hosts' with ⟨c, h', hlowest', hok, -⟩ | ⟨hall, -⟩
  · rw [hlowest'.unique hlowest] at hok
    exact ⟨h', hok⟩
  · have hset := hall _ hb
    rw [hlowest.clear] at hset
    cases hset

/-- **`free_frame` undoes `allocate_frame` for the first frame only.** -/
theorem freeFrame_undoes_iff (hosts : HostsPool .userSpace pool n h)
    (hkept : SizeKept .userSpace pool n h) :
    (∀ b < n * 8, Bitmap.taken (bitmapOf pool h.mem) b = true →
      (GivesBack pool n b h (InMemory.freeFrame pool (PagePool.userSpace.slotAddress b) h) ↔
        b = 0)) ∧
    ((∃ b < n * 8, Bitmap.taken (bitmapOf pool h.mem) b = false) →
      ∃ a h', InMemory.allocateFrame pool h = .ok (a, h') ∧
        ((∀ i < n, bitmapOf pool (InMemory.freeFrame pool a h').mem i = bitmapOf pool h.mem i) ↔
          Bitmap.taken (bitmapOf pool h.mem) 0 = false)) := by
  constructor
  · intro b hb htaken
    constructor
    · intro hback
      by_contra hb0
      have hbit := hback.bits b hb
      rw [taken_freeFrame_self hosts hb hb0 h.mem htaken] at hbit
      simp at hbit
    · rintro rfl
      exact givesBack_first hosts hkept (by omega)
  · rintro ⟨b₀, hb₀, hclear₀⟩
    rcases allocate_spec hosts with ⟨b, h', hlowest, hok, htakes⟩ | ⟨hfull, -⟩
    · have hb := hlowest.lt
      have htaken : Bitmap.taken (bitmapOf pool h'.mem) b = true := by
        rw [htakes.bits b hb, decide_eq_true rfl]
        rfl
      refine ⟨_, h', hok, ?_⟩
      rw [htakes.others]
      constructor
      · -- the bytes are the same, so bit `b` is clear again
        intro hrestored
        by_cases hb0 : b = 0
        · rw [← hb0]
          exact hlowest.clear
        · have hset := taken_freeFrame_self hosts hb hb0 h'.mem htaken
          rw [taken_of_byte (hrestored (b / 8) (by omega)), hlowest.clear] at hset
          cases hset
      · intro hclear
        have hb0 : b = 0 := by
          by_contra hne
          have hset := hlowest.below 0 (by omega)
          rw [hclear] at hset
          cases hset
        subst hb0
        refine bytes_of_taken fun c hc => ?_
        rw [taken_freeFrame hosts hb hc h'.mem, htakes.bits c hc]
        by_cases hc0 : c = 0
        · rw [hc0, hclear]
          rfl
        · simp [hc0]
    · rw [hfull b₀ hb₀] at hclear₀
      cases hclear₀

end FreeFrame

/-! ## Two frames in use -/

section TwoFrames

/-- The heap of the bitmaps, with the first two frames taken. -/
def frameHeap : Heap := { poolHeap with mem := poolHeap.mem.write8 0x501e4 3 }

theorem hostsPool_frameHeap :
    HostsPool .userSpace 0x501e4 7680 frameHeap ∧ SizeKept .userSpace 0x501e4 7680 frameHeap := by
  rcases hostsPool_of_block (k := .userSpace) (n := 7680) (b := ⟨0x501e4, 7680⟩)
    poolHeap_wellFormed (by decide) (by decide) (by decide) (poolHeap_apart (by decide)) with
    ⟨hosts, hkept⟩
  refine ⟨hosts.congr rfl fun a ha => ?_, hkept.congr rfl⟩
  refine Mem.write8_bytes_ne _ _ fun heq => (hkept a ha).1 ⟨0, by decide, ?_⟩
  rw [heq]
  rfl

theorem taken_frameHeap {b : ℕ} (hb : b < 8) :
    Bitmap.taken (bitmapOf 0x501e4 frameHeap.mem) b = (3#8).getLsbD b := by
  have hdiv : b / 8 = 0 := by omega
  have hmod : b % 8 = b := by omega
  have hbyte : bitmapOf 0x501e4 (poolHeap.mem.write8 (0x501e4 + BitVec.ofNat 32 0) 3) 0 = 3 := by
    rw [bitmapOf_write8 _ _ (by decide) (by decide), if_pos rfl]
  unfold Bitmap.taken
  rw [hdiv, hmod]
  exact congrArg (fun x : UByte => x.getLsbD b) hbyte

/-- The first of them is given back, and the third frame, when it has been taken, is not. -/
theorem freeFrame_undoes_iff_frameHeap :
    GivesBack 0x501e4 7680 0 frameHeap
      (InMemory.freeFrame 0x501e4 (PagePool.userSpace.slotAddress 0) frameHeap) ∧
    ∃ a h', InMemory.allocateFrame 0x501e4 frameHeap = .ok (a, h') ∧
      ((∀ i < 7680, bitmapOf 0x501e4 (InMemory.freeFrame 0x501e4 a h').mem i =
        bitmapOf 0x501e4 frameHeap.mem i) ↔
          Bitmap.taken (bitmapOf 0x501e4 frameHeap.mem) 0 = false) := by
  rcases hostsPool_frameHeap with ⟨hosts, hkept⟩
  rcases freeFrame_undoes_iff hosts hkept with ⟨hgives, hrestores⟩
  refine ⟨(hgives 0 (by decide) ?_).mpr rfl, hrestores ⟨2, by decide, ?_⟩⟩
  · rw [taken_frameHeap (by decide)]
    decide
  · rw [taken_frameHeap (by decide)]
    decide

/-- The second of them stays taken. -/
theorem freeFrame_keeps_second :
    HostsPool .userSpace 0x501e4 7680 frameHeap ∧
      Bitmap.taken (bitmapOf 0x501e4 frameHeap.mem) 1 = true ∧
      ¬ GivesBack 0x501e4 7680 1 frameHeap (InMemory.freeFrame 0x501e4 0x1001000 frameHeap) := by
  have htaken : Bitmap.taken (bitmapOf 0x501e4 frameHeap.mem) 1 = true := by
    rw [taken_frameHeap (by decide)]
    decide
  have hosts := hostsPool_frameHeap.1
  refine ⟨hosts, htaken, ?_⟩
  intro hback
  have hbit := hback.bits 1 (by decide)
  have hset : Bitmap.taken (bitmapOf 0x501e4
      (InMemory.freeFrame 0x501e4 0x1001000 frameHeap).mem) 1 = true :=
    taken_freeFrame_self (b := 1) hosts (by decide) (by decide) frameHeap.mem htaken
  rw [hset] at hbit
  simp at hbit

end TwoFrames

end MushOS
