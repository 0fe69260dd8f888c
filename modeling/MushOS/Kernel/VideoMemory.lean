import MushOS.Theory.Transition
import MushOS.Base.HeapCongr
import MushOS.Base.HeapRoom
import MushOS.Drivers.Printing

/-! # kernel.c: the kernel heap around the video memory

`_start` places the heap at `0x50000` with `0x80000` bytes, and `screen.c` writes at
`0xb8000`: the video memory lies inside the heap. A run of the kernel is taken one
step at a time, heap calls, writes to live blocks and printed characters in any
order. What decides is where the search of `ralloc` puts a block (`Spares`): as long
as every allocation goes before the video memory or after it, blocks and screen never
meet, and neither changes the other (`heap_spares_screen`).
-/

namespace MushOS

open ByteMemory WellFormed Transition

/-! ## Model -/

/-- The heap, whose memory the screen shares, the video controller, and the blocks that are
live. -/
structure Console where
  heap : Heap
  video : VideoController
  live : Finset Block

inductive KernelAction where
  | ralloc (size : UDword)
  | zalloc (size : UDword)
  | unalloc (b : Block)
  | write (b : Block) (i : ℕ) (v : UByte)
  | print (x : Styled)

namespace Console

def screen (s : Console) : Screen := ⟨s.heap.mem, s.video⟩

def withScreen (s : Console) (t : Screen) : Console :=
  { s with heap := { s.heap with mem := t.mem }, video := t.video }

@[simp] theorem screen_withScreen (s : Console) (t : Screen) : (s.withScreen t).screen = t := rfl

/-- `_start`, with a cleared screen: the handler it registers does not return. -/
def boot (h : Heap) (v : VideoController) : Console :=
  let h := kernelHeap h
  withScreen ⟨h, v, ∅⟩ (clearScreen ⟨h.mem, v⟩)

/-- Blocks are released and written while they are live; ordinary characters are printed. -/
def Enabled (s : Console) : KernelAction → Prop
  | .ralloc _ => True
  | .zalloc _ => True
  | .unalloc b => b ∈ s.live
  | .write b i _ => b ∈ s.live ∧ i < b.size.toNat
  | .print x => x.Ordinary

/-- One step. When an allocation fails the kernel stops, so a pointer that is returned is
a block. -/
def perform (s : Console) : KernelAction → Except Fault Console
  | .ralloc size => do
    let (p, h) ← MushOS.ralloc size s.heap
    return { s with heap := h, live := insert ⟨p, size⟩ s.live }
  | .zalloc size => do
    let (p, h) ← MushOS.zalloc size s.heap
    return { s with heap := h, live := insert ⟨p, size⟩ s.live }
  | .unalloc b => do
    let h ← MushOS.unalloc b.addr s.heap
    return { s with heap := h, live := s.live.erase b }
  | .write b i v =>
    let m := s.heap.mem.write8 (b.addr + BitVec.ofNat 32 i) v
    return { s with heap := { s.heap with mem := m } }
  | .print x =>
    return s.withScreen (printCharColor x.character x.textColor x.backColor s.screen)

end Console

/-- The kernel, from `_start` on. -/
def kernelSystem : System Console KernelAction where
  Init s := ∃ h v, s = Console.boot h v
  Step s a s' := s.Enabled a ∧ s.perform a = .ok s'

/-! ## Where blocks go -/

/-- A block of this size, with its header from `start` on, ends before the video memory, or
starts after it and ends in the heap. -/
def ClearOf (start size : ℕ) : Prop :=
  start + 12 + size ≤ 0xb8000 ∨ 0xb8fa0 ≤ start ∧ start + 12 + size ≤ 0xd0000

/-- An allocation goes before the video memory or after it: in an empty heap the block at
the start of the heap, otherwise the one in the gap the search ends with. -/
def Console.Spares (s : Console) : KernelAction → Prop
  | .ralloc size | .zalloc size => ∀ blocks, WellFormed s.heap blocks →
    (blocks = [] → ClearOf s.heap.heapStart.toNat size.toNat) ∧
    (blocks ≠ [] → ∀ g, Chosen s.heap blocks size g → ClearOf g.address.toNat size.toNat)
  | _ => True

/-- The runs in which every allocation spares the video memory. -/
def sparingSystem : System Console KernelAction where
  Init := kernelSystem.Init
  Step s a s' := kernelSystem.Step s a s' ∧ s.Spares a

/-- No byte of a live block, header or payload, is in the video memory. -/
def Console.Separate (s : Console) : Prop :=
  ∀ b ∈ s.live, ∀ a ∈ b.header ∪ b.payload, a ∉ videoRange

/-- Printing changes no block; everything else changes nothing that is displayed. -/
def Undisturbed (s : Console) (a : KernelAction) (s' : Console) : Prop :=
  match a with
  | .print _ => s'.live = s.live ∧
    ∀ b ∈ s.live, ∀ x ∈ b.header ∪ b.payload, s'.heap.mem.bytes x = s.heap.mem.bytes x
  | _ => s'.video = s.video ∧ ∀ x ∈ videoRange, s'.heap.mem.bytes x = s.heap.mem.bytes x

/-! ## The invariant -/

/-- The block ends before the video memory or, header included, starts after it. -/
def Block.Clear (b : Block) : Prop := b.stop ≤ 0xb8000 ∨ 0xb8fa0 + 12 ≤ b.addr.toNat

structure Console.Sound (s : Console) (blocks : List Block) : Prop where
  wellFormed : WellFormed s.heap blocks
  live : blocks.toFinset = s.live
  header : s.heap.header = kernelHeapStart
  heapEnd : s.heap.heapEnd.toNat = 0xd0000
  kernel : s.heap.handlers allocationExceptionId = some .kernel
  clear : ∀ b ∈ blocks, b.Clear
  cursor : s.screen.cursor < 2000

section Steps
variable {s s' : Console} {blocks xs ys : List Block} {b : Block} {p size : UDword} {h' : Heap}
  {a : UDword} {m : Mem}

theorem Block.Clear.not_mem (hclear : b.Clear) (hb : 12 ≤ b.addr.toNat)
    (ha : a ∈ b.header ∪ b.payload) : a ∉ videoRange := by
  intro hvideo
  rw [videoRange, mem_span] at hvideo
  unfold Block.Clear Block.stop at hclear
  rcases ha with hmem | hmem
  · rw [Block.header, mem_span] at hmem
    omega
  · rw [Block.payload, mem_span] at hmem
    omega

namespace Console.Sound

theorem heapStart (hs : s.Sound blocks) : s.heap.heapStart.toNat = 0x5000c := by
  rw [hs.wellFormed.heapStart, hs.header]
  rfl

theorem addr_ge (hs : s.Sound blocks) (hb : b ∈ blocks) : 12 ≤ b.addr.toNat := by
  have := (hs.wellFormed.inside b hb).1
  omega

theorem heapEnd_of_bounds (hs : s.Sound blocks) (hbounds : SameBounds s.heap h') :
    h'.heapEnd.toNat = 0xd0000 := by
  rw [hbounds.heapEnd, hs.heapEnd]

theorem separate (hs : s.Sound blocks) : s.Separate := by
  intro b hb a ha
  rw [← hs.live, List.mem_toFinset] at hb
  exact (hs.clear b hb).not_mem (hs.addr_ge hb) ha

/-- The metadata of a heap at `kernelHeapStart` with clear blocks. -/
theorem metadata_not_video (hclear : ∀ b ∈ blocks, b.Clear) (hge : ∀ b ∈ blocks, 12 ≤ b.addr.toNat)
    (ha : a ∈ metadata kernelHeapStart blocks) : a ∉ videoRange := by
  rcases ha with hheader | ⟨b, hb, hheader⟩
  · intro hvideo
    rw [videoRange, mem_span] at hvideo
    have hstart : kernelHeapStart.toNat = 0x50000 := rfl
    rw [mem_span, hstart] at hheader
    omega
  · exact (hclear b hb).not_mem (hge b hb) (Or.inl hheader)

/-- Writing in the video memory leaves a heap with clear blocks as it is. -/
theorem wellFormed_of_video_writes {h : Heap} (hw : WellFormed h blocks)
    (hheader : h.header = kernelHeapStart) (hclear : ∀ b ∈ blocks, b.Clear)
    (hm : Writes videoRange h.mem m) :
    WellFormed { h with mem := m } blocks ∧ SameBounds h { h with mem := m } := by
  refine hw.congr rfl ?_
  intro a ha
  rw [hheader] at ha
  refine hm.frame a (metadata_not_video hclear ?_ ha)
  intro b hb
  have := (hw.inside b hb).1
  omega

theorem of_video_writes (hs : s.Sound blocks) {t : Screen} (hm : Writes videoRange s.heap.mem t.mem)
    (hcursor : t.cursor < 2000) : (s.withScreen t).Sound blocks := by
  rcases wellFormed_of_video_writes hs.wellFormed hs.header hs.clear hm with ⟨hw, hbounds⟩
  exact ⟨hw, hs.live, hs.header, hs.heapEnd_of_bounds hbounds, hs.kernel, hs.clear, hcursor⟩

/-- Where the block goes that an allocation returns. -/
theorem ralloc_clear (hs : s.Sound blocks) (hspares : s.Spares (.ralloc size))
    (heq : ralloc size s.heap = .ok (p, h')) :
    ∃ start, ClearOf start size.toNat ∧ p.toNat = start + 12 := by
  have hstart := hs.heapStart
  rcases hspares blocks hs.wellFormed with ⟨hempty, hfull⟩
  by_cases hne : blocks = []
  · subst hne
    rw [ralloc_empty hs.wellFormed] at heq
    rcases Prod.mk.inj (Except.ok.inj heq) with ⟨rfl, -⟩
    refine ⟨_, hempty rfl, BitVec.toNat_add_of_lt ?_⟩
    show s.heap.heapStart.toNat + 12 < 2 ^ 32
    omega
  · rcases ralloc_chosen hs.wellFormed hne size with hfail | ⟨g, q, h₁, hchosen, hq, hralloc⟩
    · rw [hfail, rallocFailure, throwException,
        show s.heap.handlers allocationException.id = some .kernel from hs.kernel] at heq
      cases heq
    · rcases Prod.mk.inj (Except.ok.inj (hralloc.symm.trans heq)) with ⟨rfl, -⟩
      exact ⟨_, hfull hne g hchosen, hq⟩

/-- The rest of an allocation: the block is linked in, away from the screen. -/
theorem ralloc (hs : s.Sound blocks) (hspares : s.Spares (.ralloc size))
    (heq : MushOS.ralloc size s.heap = .ok (p, h')) :
    ∃ blocks', Sound { s with heap := h', live := insert ⟨p, size⟩ s.live } blocks' ∧
      ⟨p, size⟩ ∈ blocks' ∧ ∀ x ∈ videoRange, h'.mem.bytes x = s.heap.mem.bytes x := by
  rcases hs.ralloc_clear hspares heq with ⟨start, hclear, hp⟩
  have hstart := hs.heapStart
  have hend := hs.heapEnd
  have hnew : (Block.mk p size).Clear := by
    unfold Block.Clear Block.stop
    unfold ClearOf at hclear
    simp only
    omega
  have hge : 12 ≤ p.toNat := by omega
  unfold ClearOf at hclear
  -- on an empty heap, what the step spares is room for the block
  have hempty : blocks = [] → s.heap.heapStart.toNat + 12 + size.toNat ≤ s.heap.heapEnd.toNat ∧
      s.heap.heapStart.toNat + 12 < s.heap.heapEnd.toNat := by
    intro hnil
    have hroom := (hspares blocks hs.wellFormed).1 hnil
    unfold ClearOf at hroom
    omega
  rcases ralloc_spec hs.wellFormed size (by omega) hempty with
    hfail | ⟨xs, ys, q, rfl, hralloc, hw', hedits⟩
  · rw [hfail, rallocFailure, throwException,
      show s.heap.handlers allocationException.id = some .kernel from hs.kernel] at heq
    cases heq
  · rcases Prod.mk.inj (Except.ok.inj (hralloc.symm.trans heq)) with ⟨rfl, rfl⟩
    have hclear' : ∀ b ∈ xs ++ ⟨q, size⟩ :: ys, b.Clear := by
      intro b hb
      rcases List.mem_append.mp hb with hb | hb
      · exact hs.clear b (List.mem_append_left ys hb)
      · rcases List.mem_cons.mp hb with rfl | hb
        · exact hnew
        · exact hs.clear b (List.mem_append_right xs hb)
    have hge' : ∀ b ∈ xs ++ ⟨q, size⟩ :: ys, 12 ≤ b.addr.toNat := by
      intro b hb
      have := (hw'.inside b hb).1
      omega
    refine ⟨_, ⟨hw', ?_, hedits.bounds.header.trans hs.header, hs.heapEnd_of_bounds hedits.bounds,
      hedits.handlers ▸ hs.kernel, hclear', hs.cursor⟩, by simp, ?_⟩
    · rw [toFinset_insert, hs.live]
    · intro x hx
      refine hedits.writes.frame x ?_
      rw [hs.header]
      exact fun hmeta => metadata_not_video hclear' hge' hmeta hx

/-- Writing in the payload of a live block. -/
theorem of_payload_writes (hs : s.Sound blocks) (hb : b ∈ blocks)
    (hm : Writes b.payload s.heap.mem m) :
    Sound { s with heap := { s.heap with mem := m } } blocks ∧
      ∀ x ∈ videoRange, m.bytes x = s.heap.mem.bytes x := by
  rcases hs.wellFormed.of_payload_writes hb hm with ⟨hw, hbounds⟩
  refine ⟨⟨hw, hs.live, hs.header, hs.heapEnd_of_bounds hbounds, hs.kernel, hs.clear, hs.cursor⟩,
    ?_⟩
  intro x hx
  exact hm.frame x fun hmem => (hs.clear b hb).not_mem (hs.addr_ge hb) (Or.inr hmem) hx

/-- Releasing a live block. -/
theorem unalloc (hs : s.Sound blocks) (hb : b ∈ s.live)
    (heq : MushOS.unalloc b.addr s.heap = .ok h') :
    ∃ blocks', Sound { s with heap := h', live := s.live.erase b } blocks' ∧
      ∀ x ∈ videoRange, h'.mem.bytes x = s.heap.mem.bytes x := by
  rw [← hs.live, List.mem_toFinset] at hb
  rcases List.append_of_mem hb with ⟨xs, ys, rfl⟩
  rcases hs.wellFormed.unalloc with ⟨h₁, hunalloc, hw', hedits⟩
  rcases Except.ok.inj (hunalloc.symm.trans heq) with rfl
  have hclear' : ∀ c ∈ xs ++ ys, c.Clear := fun c hc => hs.clear c (mem_insert hc)
  refine ⟨xs ++ ys, ⟨hw', ?_, hedits.bounds.header.trans hs.header,
    hs.heapEnd_of_bounds hedits.bounds, hedits.handlers ▸ hs.kernel, hclear', hs.cursor⟩, ?_⟩
  · rw [toFinset_erase hs.wellFormed, hs.live]
  · intro x hx
    refine hedits.writes.frame x ?_
    rw [hs.header]
    exact fun hmeta => metadata_not_video hs.clear (fun c hc => hs.addr_ge hc) hmeta hx

/-- **One step** that spares the screen: the invariant holds again, and neither side has
disturbed the other. -/
theorem step (hs : s.Sound blocks) {act : KernelAction} (hspares : s.Spares act)
    (hstep : kernelSystem.Step s act s') :
    (∃ blocks', s'.Sound blocks') ∧ Undisturbed s act s' := by
  rcases hstep with ⟨henabled, hperform⟩
  cases act with
  | ralloc size =>
    rcases ok_of_bind_ok hperform with ⟨⟨p, h'⟩, heq, hret⟩
    rcases Except.ok.inj hret with rfl
    rcases hs.ralloc hspares heq with ⟨blocks', hs', -, hframe⟩
    exact ⟨⟨blocks', hs'⟩, rfl, hframe⟩
  | zalloc size =>
    rcases ok_of_bind_ok hperform with ⟨⟨p, h₂⟩, heq, hret⟩
    rcases Except.ok.inj hret with rfl
    rcases ok_of_bind_ok heq with ⟨⟨q, h₁⟩, hralloc, hclear⟩
    rcases Prod.mk.inj (Except.ok.inj hclear) with ⟨rfl, rfl⟩
    -- the new payload is cleared, and it is clear of the screen
    rcases hs.ralloc hspares hralloc with ⟨blocks', hs₁, hb, hframe₁⟩
    have hlt := hs₁.wellFormed.payload_lt hb
    rcases hs₁.of_payload_writes hb
      (writes_memoryClear q size 0 (by simp only at hlt; omega) h₁.mem) with ⟨hs₂, hframe₂⟩
    refine ⟨⟨blocks', hs₂⟩, rfl, ?_⟩
    intro x hx
    exact (hframe₂ x hx).trans (hframe₁ x hx)
  | unalloc b =>
    rcases ok_of_bind_ok hperform with ⟨h', heq, hret⟩
    rcases Except.ok.inj hret with rfl
    rcases hs.unalloc henabled heq with ⟨blocks', hs', hframe⟩
    exact ⟨⟨blocks', hs'⟩, rfl, hframe⟩
  | write b i v =>
    rcases henabled with ⟨hlive, hi⟩
    rcases Except.ok.inj hperform with rfl
    rw [← hs.live, List.mem_toFinset] at hlive
    have hlt := hs.wellFormed.payload_lt hlive
    have hmem : b.addr + BitVec.ofNat 32 i ∈ b.payload := by
      rw [Block.payload, mem_span, toNat_add_ofNat (by omega)]
      omega
    rcases hs.of_payload_writes hlive (writes_write8 s.heap.mem v hmem) with ⟨hs', hframe⟩
    exact ⟨⟨blocks, hs'⟩, rfl, hframe⟩
  | print x =>
    rcases Except.ok.inj hperform with rfl
    have hx : x.Ordinary := henabled
    rcases printCharColor_spec x.textColor
      x.backColor hs.cursor (hx.stays s.screen.cursor) with ⟨hm, hcursor, hlt, -⟩
    refine ⟨⟨blocks, hs.of_video_writes hm (hcursor ▸ hlt)⟩, rfl, ?_⟩
    intro b hb y hy
    exact hm.frame y (hs.separate b hb y hy)

end Console.Sound

end Steps

/-- The state `_start` leaves. -/
theorem sound_boot (h : Heap) (v : VideoController) : (Console.boot h v).Sound [] := by
  rcases kernelHeap_spec h with ⟨hw, hheader, -, hend, hkernel⟩
  rcases Console.Sound.wellFormed_of_video_writes hw hheader (by simp)
    (writes_clearScreen ⟨(kernelHeap h).mem, v⟩) with ⟨hw', hbounds⟩
  refine ⟨hw', rfl, hheader, (congrArg BitVec.toNat hbounds.heapEnd).trans hend, hkernel,
    by simp, ?_⟩
  rw [Console.boot, Console.screen_withScreen, cursor_clearScreen]
  decide

/-! ## Runs -/

theorem sound_of_reachable {s : Console} (hs : sparingSystem.Reachable s) :
    ∃ blocks, s.Sound blocks := by
  refine hs.invariant (I := fun s => ∃ blocks, s.Sound blocks) ?_ ?_
  · rintro s ⟨h, v, rfl⟩
    exact ⟨[], sound_boot h v⟩
  · rintro s act s' ⟨blocks, hs⟩ ⟨hstep, hspares⟩
    exact (hs.step hspares hstep).1

/-- **Heap and screen do not meet as long as every allocation spares the video memory**: no
byte of a live block is in it, and no step that spares it disturbs a block by printing, or
the screen by anything else. -/
theorem heap_spares_screen {s : Console} (hs : sparingSystem.Reachable s) :
    s.Separate ∧ ∀ act s', kernelSystem.Step s act s' → s.Spares act → Undisturbed s act s' := by
  rcases sound_of_reachable hs with ⟨blocks, hsound⟩
  refine ⟨hsound.separate, ?_⟩
  intro act s' hstep hspares
  exact (hsound.step hspares hstep).2

/-- The first allocation is served whatever its size. -/
theorem Console.Sound.first_ralloc {s : Console} (hs : s.Sound []) (size : UDword) :
    ∃ p s', kernelSystem.Step s (.ralloc size) s' ∧ p.toNat = 0x50018 ∧
      s'.live = insert ⟨p, size⟩ s.live := by
  have hstart := hs.heapStart
  have heq := ralloc_empty hs.wellFormed size
  have hstep : s.perform (.ralloc size) = .ok { s with
      heap := s.heap.place size [] [] (s.heap.heapStart + sizeofHeapBlockHeader),
      live := insert ⟨s.heap.heapStart + sizeofHeapBlockHeader, size⟩ s.live } := by
    show (MushOS.ralloc size s.heap >>= fun r => _) = _
    rw [heq]
    rfl
  refine ⟨s.heap.heapStart + sizeofHeapBlockHeader, _, ⟨trivial, hstep⟩, ?_, rfl⟩
  have hadd : (s.heap.heapStart + sizeofHeapBlockHeader).toNat = s.heap.heapStart.toNat + 12 :=
    BitVec.toNat_add_of_lt (by rw [hstart]; decide)
  rw [hadd, hstart]

/-- A block put behind the others, and before the video memory. -/
theorem Console.Sound.step_behind {s : Console} {blocks : List Block} (hs : s.Sound blocks)
    (hpacked : Packed 0x5000c blocks) {size : UDword}
    (hclear : gapStart 0x5000c blocks + 12 + size.toNat ≤ 0xb8000) :
    ∃ p s', sparingSystem.Step s (.ralloc size) s' ∧
      p.toNat = gapStart 0x5000c blocks + 12 ∧ s'.live = insert ⟨p, size⟩ s.live ∧
      s'.Sound (blocks ++ [⟨p, size⟩]) := by
  have hstart := hs.heapStart
  have hend := hs.heapEnd
  have hgrows := @MushOS.ralloc_packed s.heap blocks size hs.wellFormed
  rw [hstart, hend] at hgrows
  rcases hgrows hpacked (by omega) with ⟨p, h', hralloc, hp, hw⟩
  -- the gap is the one behind all blocks, and it ends below the screen
  have hspares : s.Spares (.ralloc size) := by
    intro blocks' hw'
    rcases hs.wellFormed.blocks_unique hw' with rfl
    refine ⟨?_, ?_⟩
    · rintro rfl
      rw [gapStart_nil] at hclear
      rw [hstart]
      exact Or.inl hclear
    · intro hne g hg
      rcases ralloc_chosen hw' hne size with hfail | ⟨g', q, h₁, hg', hq, hralloc'⟩
      · rw [hfail, rallocFailure, throwException,
          show s.heap.handlers allocationException.id = some .kernel from hs.kernel] at hralloc
        cases hralloc
      · rcases Prod.mk.inj (Except.ok.inj (hralloc.symm.trans hralloc')) with ⟨rfl, -⟩
        rw [hg.unique hg']
        exact Or.inl (by omega)
  have hstep : s.perform (.ralloc size) =
      .ok { s with heap := h', live := insert ⟨p, size⟩ s.live } := by
    show (MushOS.ralloc size s.heap >>= fun r => _) = _
    rw [hralloc]
    rfl
  rcases hs.ralloc hspares hralloc with ⟨blocks', hs', -, -⟩
  rcases hw.blocks_unique hs'.wellFormed with rfl
  exact ⟨p, _, ⟨⟨trivial, hstep⟩, hspares⟩, hp, rfl, hs'⟩

/-- A live block is given back. -/
theorem Console.Sound.exists_unalloc {s : Console} {blocks : List Block} {b : Block}
    (hs : s.Sound blocks) (hb : b ∈ s.live) :
    ∃ s', sparingSystem.Step s (.unalloc b) s' ∧ s'.live = s.live.erase b := by
  have hmem := hb
  rw [← hs.live, List.mem_toFinset] at hmem
  rcases List.append_of_mem hmem with ⟨xs, ys, rfl⟩
  rcases hs.wellFormed.unalloc with ⟨h', hunalloc, -, -⟩
  refine ⟨{ s with heap := h', live := s.live.erase b }, ⟨⟨hb, ?_⟩, trivial⟩, rfl⟩
  show (MushOS.unalloc b.addr s.heap >>= fun h => _) = _
  rw [hunalloc]
  rfl

/-- A kernel with two blocks, the second one up to the video memory, prints a letter, writes
the last byte of the second block and gives the first one back. -/
theorem heap_spares_screen_two : ∃ s : Console, sparingSystem.Reachable s ∧
    s.live = {⟨0x50034, 0x67fcc⟩} ∧ (⟨0x50034, 0x67fcc⟩ : Block).stop = 0xb8000 ∧ s.Separate ∧
    ∀ act s', kernelSystem.Step s act s' → s.Spares act → Undisturbed s act s' := by
  have hs₀ := sound_boot noHeap ⟨0, fun _ => 0⟩
  rcases hs₀.step_behind (packed_nil _) (by decide : gapStart 0x5000c [] + 12 + (16 : UDword).toNat
    ≤ 0xb8000) with ⟨p, s₁, hstep₁, hp, hlive₁, hs₁⟩
  obtain rfl : p = 0x50018 := BitVec.eq_of_toNat_eq hp
  have hpacked : Packed 0x5000c [⟨0x50018, 16⟩] := (packed_nil 0x5000c).snoc (by decide)
  rcases hs₁.step_behind hpacked (by decide : gapStart 0x5000c [⟨0x50018, 16⟩] + 12 +
    (0x67fcc : UDword).toNat ≤ 0xb8000) with ⟨q, s₂, hstep₂, hq, hlive₂, hs₂⟩
  obtain rfl : q = 0x50034 := BitVec.eq_of_toNat_eq hq
  have hlive₂ : s₂.live = {⟨0x50034, 0x67fcc⟩, ⟨0x50018, 16⟩} := by
    rw [hlive₂, hlive₁]
    rfl
  -- the letter, which leaves the blocks alone
  have hletter : Styled.Ordinary ⟨0x41, 7, 0⟩ := ⟨by decide, by decide⟩
  rcases (⟨_, ⟨hletter, rfl⟩, trivial⟩ : ∃ s₃, sparingSystem.Step s₂ (.print ⟨0x41, 7, 0⟩) s₃) with
    ⟨s₃, hstep₃⟩
  rcases hs₂.step hstep₃.2 hstep₃.1 with ⟨⟨blocks₃, hs₃⟩, hlive₃, -⟩
  rw [hlive₂] at hlive₃
  -- the byte, and so does it
  have hwrite : s₃.Enabled (.write ⟨0x50034, 0x67fcc⟩ 0x67fcb 1) := by
    refine ⟨?_, by decide⟩
    rw [hlive₃]
    exact Finset.mem_insert_self _ _
  rcases (⟨_, ⟨hwrite, rfl⟩, trivial⟩ : ∃ s₄, sparingSystem.Step s₃ _ s₄) with ⟨s₄, hstep₄⟩
  have hlive₄ : s₄.live = s₃.live := by
    rw [← Except.ok.inj hstep₄.1.2]
  rcases hs₃.step hstep₄.2 hstep₄.1 with ⟨⟨blocks₄, hs₄⟩, -⟩
  rw [hlive₃] at hlive₄
  -- the first block
  have hfirst : (⟨0x50018, 16⟩ : Block) ∈ s₄.live := by
    rw [hlive₄]
    exact Finset.mem_insert_of_mem (Finset.mem_singleton_self _)
  rcases hs₄.exists_unalloc hfirst with ⟨s₅, hstep₅, hlive₅⟩
  have hreach₂ : sparingSystem.Reachable s₂ :=
    (System.Reachable.init (T := sparingSystem) ⟨_, _, rfl⟩).step hstep₁ |>.step hstep₂
  have hreach := ((hreach₂.step hstep₃).step hstep₄).step hstep₅
  refine ⟨s₅, hreach, ?_, by decide, heap_spares_screen hreach⟩
  rw [hlive₅, hlive₄]
  decide

/-- The first allocation of the kernel, of `0x70000` bytes, covers the video memory. -/
theorem first_block_covers_screen :
    ¬ ∀ s : Console, kernelSystem.Reachable s → s.Separate := by
  intro hclaim
  have hs := sound_boot noHeap ⟨0, fun _ => 0⟩
  rcases hs.first_ralloc 0x70000 with ⟨p, s', hstep, hp, hlive⟩
  have hmem : (⟨p, 0x70000⟩ : Block) ∈ s'.live := by
    rw [hlive]
    exact Finset.mem_insert_self _ _
  have hsize : (0x70000 : UDword).toNat = 0x70000 := rfl
  have hcover : (0xb8000 : UDword) ∈ (Block.mk p 0x70000).payload := by
    rw [Block.payload, mem_span, hp, hsize]
    decide
  refine hclaim s' (System.Reachable.step (.init ⟨_, _, rfl⟩) hstep) _ hmem _ (Or.inr hcover) ?_
  rw [videoRange, mem_span]
  decide

end MushOS
