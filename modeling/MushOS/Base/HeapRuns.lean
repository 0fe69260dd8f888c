import MushOS.Theory.Allocator
import MushOS.Base.HeapBounds

/-! # Runs of the heap

A `Session` is the heap together with what its clients hold: for every live
pointer the size they asked for and the bytes they wrote. Clients call `ralloc`,
`zalloc` and `unalloc` and write inside their blocks, in any order, and know
nothing of the headers in between.

* `heap_chain_invariant`: after any such run the chain is exactly the live
  blocks, sorted, mirrored, disjoint and in bounds, and every further step
  returns;
* `heap_refines_allocator`: the bytes are those of the abstract allocator, and
  no step on one block shows in another.

Both rest on one invariant, `Represents`, and on one lemma for each operation.
-/

namespace MushOS

open ByteMemory Links WellFormed Allocator Transition

/-! ## Model -/

/-- The heap, and the buffers its clients hold. -/
structure Session where
  heap : Heap
  live : Store UDword UByte

/-- What a client may do next. -/
inductive Op where
  | ralloc (size : UDword)
  | zalloc (size : UDword)
  | unalloc (p : UDword)
  | write (p : UDword) (i : ℕ) (v : UByte)

/-- The operation is about the block `p` (which is already live). -/
def Op.On (p : UDword) : Op → Prop
  | .ralloc _ => False
  | .zalloc _ => False
  | .unalloc q => q = p
  | .write q _ _ => q = p

namespace Session

/-- A request that would fit in the heap if it were empty. -/
def Fits (s : Session) (size : UDword) : Prop :=
  size.toNat + 12 ≤ s.heap.heapEnd.toNat - s.heap.heapStart.toNat

/-- What clients keep to: requests that fit an empty heap, `zalloc` when it
obtains a block (it clears the bytes at the pointer whatever it is), live
pointers, writes inside them. -/
def Enabled (s : Session) : Op → Prop
  | .ralloc size => s.Fits size
  | .zalloc size => s.Fits size ∧ ∃ p h, p ≠ 0 ∧ MushOS.ralloc size s.heap = .ok (p, h)
  | .unalloc p => (s.live p).isSome
  | .write p i _ => ∃ b, s.live p = some b ∧ i < b.size

/-- What the clients have seen happen, when the allocation returned `p`. -/
def granted (p size : UDword) (fill : Option UByte) : Event UDword UByte :=
  if p = 0 then .refuse else .grant p size.toNat fill

/-- One operation, with the clients' record of it. -/
def perform (s : Session) : Op → Except Fault Session
  | .ralloc size => do
    let (p, h) ← MushOS.ralloc size s.heap
    return ⟨h, s.live.apply (granted p size none)⟩
  | .zalloc size => do
    let (p, h) ← MushOS.zalloc size s.heap
    return ⟨h, s.live.apply (granted p size (some 0))⟩
  | .unalloc p => do
    let h ← MushOS.unalloc p s.heap
    return ⟨h, s.live.apply (.release p)⟩
  | .write p i v =>
    return ⟨{ s.heap with mem := s.heap.mem.write8 (p + BitVec.ofNat 32 i) v },
      s.live.apply (.write p i v)⟩

theorem perform_ralloc {s : Session} {size p : UDword} {h : Heap}
    (heq : MushOS.ralloc size s.heap = .ok (p, h)) :
    s.perform (.ralloc size) = .ok ⟨h, s.live.apply (granted p size none)⟩ := by
  simp only [perform, heq]
  rfl

theorem perform_zalloc {s : Session} {size p : UDword} {h : Heap}
    (heq : MushOS.ralloc size s.heap = .ok (p, h)) :
    s.perform (.zalloc size) = .ok ⟨{ h with mem := memoryClear p size 0 h.mem },
      s.live.apply (granted p size (some 0))⟩ := by
  simp only [perform, MushOS.zalloc, heq]
  rfl

theorem perform_unalloc {s : Session} {p : UDword} {h : Heap}
    (heq : MushOS.unalloc p s.heap = .ok h) :
    s.perform (.unalloc p) = .ok ⟨h, s.live.apply (.release p)⟩ := by
  simp only [perform, heq]
  rfl

end Session

/-- The runs of a heap set up by `initialize_heap(start, n)`. -/
def heapSystem (start n : UDword) : System Session Op where
  Init s := ∃ h, s = ⟨initializeHeap start n h, Store.empty⟩
  Step s op s' := s.Enabled op ∧ s.perform op = .ok s'

/-! ## Payloads and metadata -/

namespace WellFormed
variable {h h' : Heap} {blocks : List Block} {b c : Block} {a : UDword}

/-- A payload overlaps no header. -/
theorem payload_not_metadata (hw : WellFormed h blocks) (hb : b ∈ blocks) (ha : a ∈ b.payload) :
    a ∉ metadata h.header blocks := by
  have hge := hw.addr_ge hb
  simp only [Block.payload, mem_span] at ha
  rintro (hmeta | ⟨c, hc, hmeta⟩)
  · simp only [mem_span] at hmeta
    omega
  · have hcge := hw.addr_ge hc
    simp only [Block.header, mem_span] at hmeta
    rcases before_cases hw.sorted hb hc with rfl | hlt | hlt
    · omega
    · unfold Block.Before Block.stop at hlt
      omega
    · have := addr_lt_of_before hlt
      omega

/-- Two payloads do not overlap. -/
theorem payload_disjoint (hw : WellFormed h blocks) (hb : b ∈ blocks) (hc : c ∈ blocks)
    (hne : b ≠ c) (ha : a ∈ b.payload) : a ∉ c.payload := by
  simp only [Block.payload, mem_span] at ha ⊢
  rcases before_cases hw.sorted hb hc with rfl | hlt | hlt
  · exact absurd rfl hne
  · unfold Block.Before Block.stop at hlt
    omega
  · unfold Block.Before Block.stop at hlt
    omega

/-- A payload does not run over the end of the address space. -/
theorem payload_lt (hw : WellFormed h blocks) (hb : b ∈ blocks) :
    b.addr.toNat + b.size.toNat < 2 ^ 32 := by
  have := (hw.inside b hb).2.1
  have := h.heapEnd.isLt
  unfold Block.stop at *
  omega

/-- The heap is what its metadata says. -/
theorem congr (hw : WellFormed h blocks) (hheader : h'.header = h.header)
    (hag : ∀ a ∈ metadata h.header blocks, h'.mem.bytes a = h.mem.bytes a) :
    WellFormed h' blocks ∧ SameBounds h h' := by
  have hlt := hw.header_lt
  -- the words of the two headers are all that the chain is read from
  have hhead : ∀ k : UDword, k.toNat ≤ 8 →
      h'.mem.read32 (h'.header + k) = h.mem.read32 (h.header + k) := by
    intro k hk
    have hk' : (h.header + k).toNat = h.header.toNat + k.toNat := by bv_omega
    rw [hheader]
    refine Mem.read32_congr (by omega) fun a ha => hag a (Or.inl ?_)
    simp only [mem_span] at ha ⊢
    omega
  have hfield : ∀ p ∈ addrs blocks, ∀ f, h'.field f p = h.field f p := by
    intro p hp f
    have hge := hw.ge_of_mem_addrs hp
    have haddr := toNat_memberAddress (p := p) (by omega) f
    have hoff := f.offset_le
    refine Mem.read32_congr (by omega) fun a ha => hag a ?_
    refine header_subset_metadata hp ?_
    simp only [mem_span] at ha ⊢
    omega
  have hfirst : h'.firstAddress = h.firstAddress := by
    have := hhead 0 (by decide)
    simpa [Heap.firstAddress] using this
  have hstart : h'.heapStart = h.heapStart := hhead 4 (by decide)
  have hend : h'.heapEnd = h.heapEnd := hhead 8 (by decide)
  refine ⟨?_, hheader, hstart, hend⟩
  exact {
    heapStart := by rw [hstart, hheader, hw.heapStart]
    heapEnd := by rw [hstart, hend]; exact hw.heapEnd
    first := hfirst.trans hw.first
    size := fun b hb => (hfield _ (mem_addrs hb) .size).trans (hw.size b hb)
    next := hw.next.congr fun p hp => hfield p hp .next
    previous := hw.previous.congr fun p hp => hfield p hp .previous
    sorted := hw.sorted
    inside := by rw [hstart, hend]; exact hw.inside }

/-- Handlers and exceptions are not part of it. -/
theorem congr_mem (hw : WellFormed h blocks) (hheader : h'.header = h.header)
    (hmem : h'.mem = h.mem) : WellFormed h' blocks :=
  (hw.congr hheader fun _ _ => by rw [hmem]).1

/-- Writing inside a payload leaves the heap well formed. -/
theorem of_payload_writes (hw : WellFormed h blocks) (hb : b ∈ blocks) {m' : Mem}
    (hm : Writes b.payload h.mem m') :
    WellFormed { h with mem := m' } blocks ∧ SameBounds h { h with mem := m' } :=
  hw.congr rfl fun a ha => hm.frame a fun hp => hw.payload_not_metadata hb hp ha

end WellFormed

/-! ## The invariant -/

/-- The block at `p` in the memory holds what its owner wrote. -/
def HoldsBytes (m : Mem) (p : UDword) (buf : Buffer UByte) : Prop :=
  ∀ i < buf.size, ∀ v, buf.bytes i = some v → m.bytes (p + BitVec.ofNat 32 i) = v

/-- The heap is well formed, its blocks are the live ones, and they hold what
their owners wrote. -/
structure Represents (start n : UDword) (h : Heap) (live : Store UDword UByte)
    (blocks : List Block) : Prop where
  wellFormed : WellFormed h blocks
  handler : h.handlers allocationExceptionId = some .library
  heapStart : h.heapStart.toNat = start.toNat + 12
  heapEnd : h.heapEnd.toNat = start.toNat + n.toNat
  held : ∀ b ∈ blocks, ∃ buf, live b.addr = some buf ∧ buf.size = b.size.toNat
  only : ∀ p, (live p).isSome → p ∈ addrs blocks
  bytes : ∀ p buf, live p = some buf → HoldsBytes h.mem p buf

/-- What a step leaves alone: the blocks it is not about, byte for byte. -/
def Keeps (op : Op) (s s' : Session) : Prop :=
  ∀ p buf, s.live p = some buf → ¬ op.On p → s'.live p = some buf ∧
    ∀ i < buf.size, s'.heap.mem.bytes (p + BitVec.ofNat 32 i) =
      s.heap.mem.bytes (p + BitVec.ofNat 32 i)

/-- What one operation does: it returns, the record of the clients takes a step of
the abstract allocator, the invariant holds again, and nothing else changed. -/
def Lands (start n : UDword) (op : Op) (s : Session) : Prop :=
  ∃ s' e blocks', s.perform op = .ok s' ∧ s.live.Permits e ∧ s'.live = s.live.apply e ∧
    Represents start n s'.heap s'.live blocks' ∧ Keeps op s s'

section Steps
variable {start n : UDword} {s : Session} {blocks : List Block} {p size : UDword}

namespace Represents

theorem block (hr : Represents start n s.heap s.live blocks) {buf : Buffer UByte}
    (hp : s.live p = some buf) : ∃ b ∈ blocks, b.addr = p ∧ b.size.toNat = buf.size := by
  rcases List.mem_map.mp (hr.only p (by simp [hp])) with ⟨b, hb, rfl⟩
  rcases hr.held b hb with ⟨buf', hlive, hsize⟩
  rw [hp, Option.some.injEq] at hlive
  exact ⟨b, hb, rfl, by rw [hlive, hsize]⟩

/-- The bytes of a live buffer are in the payload of its block. -/
theorem mem_payload (hr : Represents start n s.heap s.live blocks) {b : Block} (hb : b ∈ blocks)
    {i : ℕ} (hi : i < b.size.toNat) : b.addr + BitVec.ofNat 32 i ∈ b.payload := by
  have := hr.wellFormed.payload_lt hb
  rw [Block.payload, mem_span, toNat_add_ofNat (by omega)]
  omega

/-- An operation that writes outside the payload of a live buffer leaves its bytes. -/
theorem bytes_of_writes (hr : Represents start n s.heap s.live blocks) {S : Set UDword} {m' : Mem}
    (hm : Writes S s.heap.mem m') {buf : Buffer UByte} (hp : s.live p = some buf)
    (hS : ∀ b ∈ blocks, b.addr = p → ∀ a ∈ b.payload, a ∉ S) :
    ∀ i < buf.size, m'.bytes (p + BitVec.ofNat 32 i) =
      s.heap.mem.bytes (p + BitVec.ofNat 32 i) := by
  intro i hi
  rcases hr.block hp with ⟨b, hb, rfl, hsize⟩
  exact hm.frame _ (hS b hb rfl _ (hr.mem_payload hb (by omega)))

theorem holdsBytes_of_eq {m m' : Mem} {buf : Buffer UByte} (hold : HoldsBytes m p buf)
    (heq : ∀ i < buf.size, m'.bytes (p + BitVec.ofNat 32 i) =
      m.bytes (p + BitVec.ofNat 32 i)) : HoldsBytes m' p buf :=
  fun i hi v hv => (heq i hi).trans (hold i hi v hv)

end Represents

/-! ## One operation -/

theorem isSome_set {st : Store UDword UByte} {q : UDword} {b : Option (Buffer UByte)}
    (h : ((st.set p b) q).isSome) : q = p ∧ b.isSome ∨ q ≠ p ∧ (st q).isSome := by
  by_cases hqp : q = p
  · subst hqp
    rw [Store.set_self] at h
    exact Or.inl ⟨rfl, h⟩
  · rw [Store.set_ne _ _ hqp] at h
    exact Or.inr ⟨hqp, h⟩

theorem mem_insert {xs ys : List Block} {b c : Block} (hb : b ∈ xs ++ ys) :
    b ∈ xs ++ c :: ys := by
  rw [List.mem_append] at hb
  rw [List.mem_append, List.mem_cons]
  tauto

/-- A request that fits either raises an exception and returns null, or links a
block in, at an address no client holds. -/
theorem ralloc_cases (hr : Represents start n s.heap s.live blocks) (hn : 24 < n.toNat)
    (hfit : s.Fits size) :
    ralloc size s.heap =
        .ok (0, { s.heap with raised := allocationException :: s.heap.raised }) ∨
      ∃ xs ys p, blocks = xs ++ ys ∧ p ≠ 0 ∧ s.live p = none ∧
        ralloc size s.heap = .ok (p, s.heap.place size xs ys p) ∧
        WellFormed (s.heap.place size xs ys p) (xs ++ ⟨p, size⟩ :: ys) ∧
        Edits (metadata s.heap.header (xs ++ ⟨p, size⟩ :: ys)) s.heap
          (s.heap.place size xs ys p) := by
  have hstart := hr.heapStart
  have hend := hr.heapEnd
  have hlt := s.heap.heapEnd.isLt
  unfold Session.Fits at hfit
  rcases ralloc_spec hr.wellFormed size (by omega) (fun _ => ⟨by omega, by omega⟩) with
    heq | ⟨xs, ys, p, rfl, heq, hw', hedits⟩
  · left
    have hlib : throwException allocationException s.heap =
        .ok { s.heap with raised := allocationException :: s.heap.raised } := by
      have hid : s.heap.handlers allocationException.id = some .library := hr.handler
      simp only [throwException, hid]
    rw [heq, rallocFailure, hlib]
    rfl
  · right
    refine ⟨xs, ys, p, rfl, hw'.ne_zero (by simp), ?_, heq, hw', hedits⟩
    have hnd := nodup_addrs hw'.sorted
    rw [addrs_append, addrs_cons, List.nodup_middle, List.nodup_cons] at hnd
    -- the client has no buffer there, since its buffers are the blocks
    by_contra hp
    have hmem := hr.only p (Option.isSome_iff_ne_none.mpr hp)
    rw [addrs_append] at hmem
    exact hnd.1 hmem

/-- The invariant after a block has been linked in and its payload perhaps
filled: `m'` differs from the old memory in metadata and in that payload. -/
theorem Represents.grant {xs ys : List Block} {h' : Heap} {S : Set UDword}
    (hr : Represents start n s.heap s.live (xs ++ ys)) (fill : Option UByte) (hp : s.live p = none)
    (hw' : WellFormed h' (xs ++ ⟨p, size⟩ :: ys)) (hbounds : SameBounds s.heap h')
    (hhandlers : h'.handlers = s.heap.handlers) (hm : Writes S s.heap.mem h'.mem)
    (hS : ∀ b ∈ xs ++ ys, ∀ a ∈ b.payload, a ∉ S)
    (hfill : ∀ v, fill = some v → ∀ a ∈ (Block.mk p size).payload, h'.mem.bytes a = v) :
    Represents start n h' (s.live.apply (.grant p size.toNat fill)) (xs ++ ⟨p, size⟩ :: ys) ∧
      ∀ q buf, s.live q = some buf → s.live.apply (.grant p size.toNat fill) q = some buf ∧
        ∀ i < buf.size, h'.mem.bytes (q + BitVec.ofNat 32 i) =
          s.heap.mem.bytes (q + BitVec.ofNat 32 i) := by
  have hne : ∀ q buf, s.live q = some buf → q ≠ p := by
    rintro q buf hq rfl
    rw [hp] at hq
    cases hq
  have hbytes : ∀ q buf, s.live q = some buf → ∀ i < buf.size,
      h'.mem.bytes (q + BitVec.ofNat 32 i) = s.heap.mem.bytes (q + BitVec.ofNat 32 i) :=
    fun q buf hq => hr.bytes_of_writes hm hq fun b hb _ => hS b hb
  refine ⟨{
    wellFormed := hw'
    handler := by rw [hhandlers]; exact hr.handler
    heapStart := by rw [hbounds.heapStart]; exact hr.heapStart
    heapEnd := by rw [hbounds.heapEnd]; exact hr.heapEnd
    held := fun b hb => ?_
    only := fun q hq => ?_
    bytes := fun q buf hq => ?_ }, fun q buf hq => ⟨?_, hbytes q buf hq⟩⟩
  · have hb' : b = ⟨p, size⟩ ∨ b ∈ xs ++ ys := by
      simp only [List.mem_append, List.mem_cons] at hb ⊢
      tauto
    rcases hb' with rfl | hb'
    · exact ⟨_, Store.set_self _ _ _, rfl⟩
    · rcases hr.held b hb' with ⟨buf, hlive, hsize⟩
      exact ⟨buf, by rw [Store.apply, Store.set_ne _ _ (hne _ _ hlive), hlive], hsize⟩
  · rcases isSome_set hq with ⟨rfl, -⟩ | ⟨-, hq⟩
    · simp
    · have := hr.only q hq
      simp only [addrs_append, addrs_cons, List.mem_append, List.mem_cons] at this ⊢
      tauto
  · -- the new buffer has the bytes of its filling, the others keep theirs
    by_cases hqp : q = p
    · subst hqp
      rw [Store.apply, Store.set_self, Option.some.injEq] at hq
      subst hq
      intro i hi v hv
      have hlt := hw'.payload_lt (b := ⟨q, size⟩) (by simp)
      simp only at hlt hi
      refine hfill v hv _ ?_
      rw [Block.payload, mem_span, toNat_add_ofNat (by omega)]
      exact ⟨Nat.le_add_right _ _, Nat.add_lt_add_left hi _⟩
    · rw [Store.apply, Store.set_ne _ _ hqp] at hq
      exact Represents.holdsBytes_of_eq (hr.bytes q buf hq) (hbytes q buf hq)
  · rw [Store.apply, Store.set_ne _ _ (hne q buf hq), hq]

theorem lands_ralloc (hr : Represents start n s.heap s.live blocks) (hn : 24 < n.toNat)
    (hfit : s.Fits size) : Lands start n (.ralloc size) s := by
  rcases ralloc_cases hr hn hfit with heq | ⟨xs, ys, p, rfl, hp0, hp, heq, hw', hedits⟩
  · have hw := hr.wellFormed
    have hw' : WellFormed { s.heap with raised := allocationException :: s.heap.raised } blocks :=
      hw.congr_mem rfl rfl
    exact ⟨_, .refuse, blocks, Session.perform_ralloc heq, trivial, rfl,
      ⟨hw', hr.handler, hr.heapStart, hr.heapEnd, hr.held, hr.only, hr.bytes⟩,
      fun q buf hq _ => ⟨hq, fun _ _ => rfl⟩⟩
  · have hS : ∀ b ∈ xs ++ ys, ∀ a ∈ b.payload,
        a ∉ metadata s.heap.header (xs ++ ⟨p, size⟩ :: ys) := by
      intro b hb a ha
      rw [← hedits.bounds.header]
      exact hw'.payload_not_metadata (mem_insert hb) ha
    rcases hr.grant none hp hw' hedits.bounds hedits.handlers
      hedits.writes hS (fun _ h => by cases h) with ⟨hr', hkeep⟩
    refine ⟨⟨s.heap.place size xs ys p, s.live.apply (.grant p size.toNat none)⟩,
      .grant p size.toNat none, _, ?_, hp, rfl, hr', fun q buf hq _ => hkeep q buf hq⟩
    rw [Session.perform_ralloc heq, Session.granted, if_neg hp0]

theorem lands_zalloc (hr : Represents start n s.heap s.live blocks) (hn : 24 < n.toNat)
    (hfit : s.Fits size) (hgot : ∃ p h, p ≠ 0 ∧ ralloc size s.heap = .ok (p, h)) :
    Lands start n (.zalloc size) s := by
  rcases ralloc_cases hr hn hfit with heq | ⟨xs, ys, p, rfl, hp0, hp, heq, hw', hedits⟩
  · rcases hgot with ⟨p, h, hp0, hgot⟩
    rw [heq, Except.ok.injEq, Prod.mk.injEq] at hgot
    exact absurd hgot.1.symm hp0
  · have hmem : (⟨p, size⟩ : Block) ∈ xs ++ ⟨p, size⟩ :: ys := by simp
    have hlt := hw'.payload_lt hmem
    have hclear := writes_memoryClear p size 0 (by simp only at hlt; omega)
      (s.heap.place size xs ys p).mem
    rcases hw'.of_payload_writes hmem hclear with ⟨hw'', hbounds⟩
    -- the other blocks are apart from the new header and the new payload
    have hS : ∀ b ∈ xs ++ ys, ∀ a ∈ b.payload,
        a ∉ metadata s.heap.header (xs ++ ⟨p, size⟩ :: ys) ∪ (Block.mk p size).payload := by
      intro b hb a ha
      have hnd := nodup_addrs hw'.sorted
      rw [addrs_append, addrs_cons, List.nodup_middle, List.nodup_cons, ← addrs_append] at hnd
      have hne : b ≠ ⟨p, size⟩ := by
        rintro rfl
        exact hnd.1 (mem_addrs hb)
      rintro (hmeta | hpay)
      · rw [← hedits.bounds.header] at hmeta
        exact hw'.payload_not_metadata (mem_insert hb) ha hmeta
      · exact hw'.payload_disjoint (mem_insert hb) hmem hne ha hpay
    obtain ⟨hr', hkeep⟩ := hr.grant (some 0) hp hw'' (hedits.bounds.trans hbounds)
      hedits.handlers
      ((hedits.writes.mono Set.subset_union_left).trans (hclear.mono Set.subset_union_right)) hS
      fun v hv a ha => by
        rw [Option.some.injEq] at hv
        rw [← hv]
        exact memoryClear_bytes (by simp only at hlt; omega) _ ha
    refine ⟨⟨_, s.live.apply (.grant p size.toNat (some 0))⟩, .grant p size.toNat (some 0), _,
      ?_, hp, rfl, hr', fun q buf hq _ => hkeep q buf hq⟩
    rw [Session.perform_zalloc heq, Session.granted, if_neg hp0]

theorem lands_unalloc (hr : Represents start n s.heap s.live blocks) (hp : (s.live p).isSome) :
    Lands start n (.unalloc p) s := by
  rcases List.mem_map.mp (hr.only p hp) with ⟨b, hb, rfl⟩
  rcases List.append_of_mem hb with ⟨xs, ys, rfl⟩
  rcases hr.wellFormed.unalloc with ⟨h', heq, hw', hedits⟩
  have hnd := nodup_addrs hr.wellFormed.sorted
  rw [addrs_append, addrs_cons, List.nodup_middle, List.nodup_cons, ← addrs_append] at hnd
  -- releasing writes headers, and no payload
  have hbytes : ∀ q buf, s.live q = some buf → ∀ i < buf.size,
      h'.mem.bytes (q + BitVec.ofNat 32 i) = s.heap.mem.bytes (q + BitVec.ofNat 32 i) :=
    fun q buf hq => hr.bytes_of_writes hedits.writes hq fun c hc _ a ha =>
      hr.wellFormed.payload_not_metadata hc ha
  have hr' : Represents start n h' (s.live.apply (.release b.addr)) (xs ++ ys) := by
    refine ⟨hw', ?_, ?_, ?_, fun c hc => ?_, fun q hq => ?_, fun q buf hq => ?_⟩
    · rw [hedits.handlers]
      exact hr.handler
    · rw [hedits.bounds.heapStart]
      exact hr.heapStart
    · rw [hedits.bounds.heapEnd]
      exact hr.heapEnd
    · have hne : c.addr ≠ b.addr := fun e => hnd.1 (e ▸ mem_addrs hc)
      rw [Store.apply, Store.set_ne _ _ hne]
      exact hr.held c (mem_insert hc)
    · rcases isSome_set hq with ⟨-, hcon⟩ | ⟨hne, hq⟩
      · cases hcon
      · have := hr.only q hq
        simp only [addrs_append, addrs_cons, List.mem_append, List.mem_cons] at this ⊢
        tauto
    · by_cases hqb : q = b.addr
      · rw [hqb, Store.apply, Store.set_self] at hq
        cases hq
      · rw [Store.apply, Store.set_ne _ _ hqb] at hq
        exact Represents.holdsBytes_of_eq (hr.bytes q buf hq) (hbytes q buf hq)
  refine ⟨_, .release b.addr, xs ++ ys, Session.perform_unalloc heq, hp, rfl, hr',
    fun q buf hq hon => ⟨?_, hbytes q buf hq⟩⟩
  show s.live.apply (.release b.addr) q = some buf
  rw [Store.apply, Store.set_ne _ _ (fun e => hon e.symm), hq]

theorem lands_write {i : ℕ} {v : UByte} (hr : Represents start n s.heap s.live blocks)
    {buf : Buffer UByte} (hp : s.live p = some buf) (hi : i < buf.size) :
    Lands start n (.write p i v) s := by
  rcases hr.block hp with ⟨b, hb, rfl, hsize⟩
  have hin := hr.mem_payload hb (i := i) (by omega)
  have hm : Writes b.payload s.heap.mem (s.heap.mem.write8 (b.addr + BitVec.ofNat 32 i) v) :=
    writes_write8 _ _ hin
  rcases hr.wellFormed.of_payload_writes hb hm with ⟨hw', hbounds⟩
  have hbytes : ∀ q buf, s.live q = some buf → q ≠ b.addr → ∀ j < buf.size,
      (s.heap.mem.write8 (b.addr + BitVec.ofNat 32 i) v).bytes (q + BitVec.ofNat 32 j) =
        s.heap.mem.bytes (q + BitVec.ofNat 32 j) := by
    refine fun q buf hq hne => hr.bytes_of_writes hm hq fun c hc hcq a ha => ?_
    exact hr.wellFormed.payload_disjoint hc hb (fun e => hne (by rw [← hcq, e])) ha
  have hset : s.live.apply (.write b.addr i v) =
      s.live.set b.addr (some (buf.write i v)) := by
    rw [Store.apply, hp, Option.map_some]
  have hr' : Represents start n
      { s.heap with mem := s.heap.mem.write8 (b.addr + BitVec.ofNat 32 i) v }
      (s.live.set b.addr (some (buf.write i v))) blocks := by
    refine ⟨hw', hr.handler, ?_, ?_, fun c hc => ?_, fun q hq => ?_, fun q buf' hq => ?_⟩
    · rw [hbounds.heapStart]
      exact hr.heapStart
    · rw [hbounds.heapEnd]
      exact hr.heapEnd
    · rcases hr.held c hc with ⟨buf', hlive, hsize'⟩
      by_cases hcb : c.addr = b.addr
      · rw [hcb, hp, Option.some.injEq] at hlive
        refine ⟨buf.write i v, by rw [hcb, Store.set_self], ?_⟩
        rw [Buffer.write_size, hlive, hsize']
      · exact ⟨buf', by rw [Store.set_ne _ _ hcb, hlive], hsize'⟩
    · rcases isSome_set hq with ⟨rfl, -⟩ | ⟨-, hq⟩
      · exact mem_addrs hb
      · exact hr.only q hq
    · by_cases hqb : q = b.addr
      · subst hqb
        rw [Store.set_self, Option.some.injEq] at hq
        subst hq
        intro j hj w hw
        rw [Buffer.write_size] at hj
        by_cases hji : j = i
        · subst hji
          simp only [Buffer.write, if_true, Option.some.injEq] at hw
          rw [Mem.write8_bytes_self, hw]
        · simp only [Buffer.write, if_neg hji] at hw
          rw [Mem.write8_bytes_ne]
          · exact hr.bytes _ _ hp j hj w hw
          · -- distinct offsets below the end of the payload are distinct addresses
            intro e
            have hlt := hr.wellFormed.payload_lt hb
            have := congrArg BitVec.toNat e
            rw [toNat_add_ofNat (by omega), toNat_add_ofNat (by omega)] at this
            omega
      · rw [Store.set_ne _ _ hqb] at hq
        exact Represents.holdsBytes_of_eq (hr.bytes q buf' hq) (hbytes q buf' hq hqb)
  refine ⟨_, .write b.addr i v, blocks, rfl, ⟨buf, hp, hi⟩, rfl, hset ▸ hr',
    fun q buf' hq hon => ⟨?_, hbytes q buf' hq (Ne.symm hon)⟩⟩
  show s.live.apply (.write b.addr i v) q = some buf'
  rw [hset, Store.set_ne _ _ (Ne.symm hon), hq]

/-- **Every operation a client may do lands.** -/
theorem Represents.lands {op : Op} (hr : Represents start n s.heap s.live blocks)
    (hn : 24 < n.toNat)
    (hop : s.Enabled op) : Lands start n op s := by
  cases op with
  | ralloc size => exact lands_ralloc hr hn hop
  | zalloc size => exact lands_zalloc hr hn hop.1 hop.2
  | unalloc p => exact lands_unalloc hr hop
  | write p i v =>
    rcases hop with ⟨buf, hp, hi⟩
    exact lands_write hr hp hi

end Steps

/-! ## Every run -/

/-- The session stands for what its clients hold. -/
def StandsFor (start n : UDword) (s : Session) (live : Store UDword UByte) : Prop :=
  live = s.live ∧ ∃ blocks, Represents start n s.heap s.live blocks

section Runs
variable {start n : UDword} {s s' : Session} {op : Op}

theorem represents_init (hn : 24 < n.toNat) (hw : start.toNat + n.toNat < 2 ^ 32) (h : Heap) :
    Represents start n (initializeHeap start n h) Store.empty [] := by
  rcases initializeHeap_spec (by omega) hw h with ⟨hwf, -, hstart, hend, hhandler⟩
  exact ⟨hwf, hhandler, hstart, hend, by simp, by simp [Store.empty], by simp [Store.empty]⟩

/-- A step of the heap is a step of the allocator, and keeps the other blocks. -/
theorem Represents.step {blocks : List Block} (hr : Represents start n s.heap s.live blocks)
    (hn : 24 < n.toNat) (hstep : (heapSystem start n).Step s op s') :
    (∃ e, (Allocator.system UDword UByte).Step s.live e s'.live) ∧
      (∃ blocks', Represents start n s'.heap s'.live blocks') ∧ Keeps op s s' := by
  rcases hstep with ⟨hop, hperform⟩
  rcases hr.lands hn hop with ⟨t, e, blocks', ht, hpermits, happly, hr', hkeeps⟩
  rw [hperform, Except.ok.injEq] at ht
  subst ht
  exact ⟨⟨e, hpermits, happly⟩, ⟨blocks', hr'⟩, hkeeps⟩

/-- **The heap simulates the abstract allocator.** -/
theorem heap_simulation (hn : 24 < n.toNat) (hw : start.toNat + n.toNat < 2 ^ 32) :
    Simulation (heapSystem start n) (Allocator.system UDword UByte) (StandsFor start n) where
  init := by
    rintro s ⟨h, rfl⟩
    exact ⟨Store.empty, rfl, rfl, [], represents_init hn hw h⟩
  step := by
    rintro s op s' live hstep ⟨rfl, blocks, hr⟩
    rcases hr.step hn hstep with ⟨⟨e, hstep'⟩, hr', -⟩
    exact ⟨e, s'.live, hstep', rfl, hr'⟩

theorem represents_of_reachable (hn : 24 < n.toNat) (hw : start.toNat + n.toNat < 2 ^ 32)
    (hs : (heapSystem start n).Reachable s) :
    (Allocator.system UDword UByte).Reachable s.live ∧
      ∃ blocks, Represents start n s.heap s.live blocks := by
  rcases (heap_simulation hn hw).reachable hs with ⟨live, hreach, rfl, hr⟩
  exact ⟨hreach, hr⟩

/-- The chain of the heap, followed from `first_address` along `next`: it ends, it
is the live blocks in ascending order, `previous` mirrors it, and the blocks with
their headers are disjoint ranges of the heap. -/
structure ChainInvariant (start n : UDword) (s : Session) (blocks : List Block) : Prop where
  chain : walk (s.heap.field .next) 0 chainFuel s.heap.firstAddress = some (addrs blocks)
  live : ∀ p, p ∈ addrs blocks ↔ (s.live p).isSome
  sizes : ∀ b ∈ blocks, ∃ buf, s.live b.addr = some buf ∧ b.size.toNat = buf.size
  ascending : (addrs blocks).Pairwise fun p q => p.toNat < q.toNat
  mirrored : Backward (s.heap.field .previous) 0 (addrs blocks)
  disjoint : blocks.Pairwise fun b c => b.addr.toNat + b.size.toNat ≤ c.addr.toNat - 12
  bounds : s.heap.heapStart.toNat = start.toNat + 12 ∧
    s.heap.heapEnd.toNat = start.toNat + n.toNat
  inside : ∀ b ∈ blocks, s.heap.heapStart.toNat + 12 ≤ b.addr.toNat ∧
    b.addr.toNat + b.size.toNat ≤ s.heap.heapEnd.toNat

theorem Represents.chainInvariant {blocks : List Block}
    (hr : Represents start n s.heap s.live blocks) : ChainInvariant start n s blocks := by
  have hw := hr.wellFormed
  have hlen := hw.length_lt
  refine ⟨?_, fun p => ⟨fun hp => ?_, hr.only p⟩, fun b hb => ?_, ?_, hw.previous, ?_,
    ⟨hr.heapStart, hr.heapEnd⟩, fun b hb => ⟨(hw.inside b hb).1, (hw.inside b hb).2.1⟩⟩
  · rw [hw.first]
    refine hw.next.walk (fun h0 => hw.ne_zero h0 rfl) ?_
    rwa [addrs, List.length_map]
  · rcases List.mem_map.mp hp with ⟨b, hb, rfl⟩
    rcases hr.held b hb with ⟨buf, hlive, -⟩
    rw [hlive]
    rfl
  · rcases hr.held b hb with ⟨buf, hlive, hsize⟩
    exact ⟨buf, hlive, hsize.symm⟩
  · refine List.pairwise_map.mpr (hw.sorted.imp fun hbc => ?_)
    have := addr_lt_of_before hbc
    omega
  · refine hw.sorted.imp fun hbc => ?_
    unfold Block.Before Block.stop at hbc
    omega

/-- **The heap representation invariant over whole runs.** After every step of
every run the chain is the live blocks; and every operation a client may do
next returns. -/
theorem heap_chain_invariant (hn : 24 < n.toNat) (hw : start.toNat + n.toNat < 2 ^ 32)
    (hs : (heapSystem start n).Reachable s) :
    (∃ blocks, ChainInvariant start n s blocks) ∧
      ∀ op, s.Enabled op → ∃ s', s.perform op = .ok s' := by
  rcases represents_of_reachable hn hw hs with ⟨-, blocks, hr⟩
  refine ⟨⟨blocks, hr.chainInvariant⟩, fun op hop => ?_⟩
  rcases hr.lands hn hop with ⟨s', -, -, hs', -⟩
  exact ⟨s', hs'⟩

end Runs

/-! ### Runs that compute -/

namespace Session

/-- `Enabled`, as a test. -/
def allows (s : Session) : Op → Bool
  | .ralloc size => size.toNat + 12 ≤ s.heap.heapEnd.toNat - s.heap.heapStart.toNat
  | .zalloc size =>
    decide (size.toNat + 12 ≤ s.heap.heapEnd.toNat - s.heap.heapStart.toNat) &&
      match MushOS.ralloc size s.heap with
      | .ok (p, _) => p ≠ 0
      | .error _ => false
  | .unalloc p => (s.live p).isSome
  | .write p i _ => (s.live p).any fun b => i < b.size

theorem enabled_of_allows {s : Session} {op : Op} (hop : s.allows op = true) : s.Enabled op := by
  unfold allows at hop
  cases op with
  | ralloc size =>
    rw [decide_eq_true_eq] at hop
    exact hop
  | zalloc size =>
    rw [Bool.and_eq_true, decide_eq_true_eq] at hop
    refine ⟨hop.1, ?_⟩
    cases hralloc : MushOS.ralloc size s.heap with
    | error fault =>
      rw [hralloc] at hop
      cases hop.2
    | ok r =>
      rw [hralloc] at hop
      exact ⟨r.1, r.2, of_decide_eq_true hop.2, rfl⟩
  | unalloc p => exact hop
  | write p i v =>
    rw [Option.any_eq_true] at hop
    rcases hop with ⟨b, hb, hi⟩
    exact ⟨b, hb, of_decide_eq_true hi⟩

/-- The operations one after another, as long as each is enabled and returns. -/
def performAll (s : Session) : List Op → Option Session
  | [] => some s
  | op :: ops =>
    if s.allows op then
      match s.perform op with
      | .ok s => s.performAll ops
      | .error _ => none
    else none

/-- What operations reach that are all enabled is reachable. -/
theorem reachable_performAll {start n : UDword} {s s' : Session} {ops : List Op}
    (hs : (heapSystem start n).Reachable s) (hrun : s.performAll ops = some s') :
    (heapSystem start n).Reachable s' := by
  induction ops generalizing s with
  | nil =>
    cases hrun
    exact hs
  | cons op ops ih =>
    unfold performAll at hrun
    by_cases hop : s.allows op = true
    · rw [if_pos hop] at hrun
      cases hstep : s.perform op with
      | error fault =>
        rw [hstep] at hrun
        cases hrun
      | ok s₁ =>
        rw [hstep] at hrun
        exact ih (hs.step ⟨enabled_of_allows hop, hstep⟩) hrun
    · rw [if_neg hop] at hrun
      cases hrun

end Session

/-- In a heap of a hundred bytes: three blocks, a write into the second one, and the first
one is given back. -/
def smallRun : List Op :=
  [.ralloc 4, .ralloc 8, .zalloc 4, .write 0x1028 3 7, .unalloc 0x1018]

/-- The second and the third block are left. -/
theorem smallRun_reachable : ∃ s, (heapSystem 0x1000 100).Reachable s ∧ s.live 0x1018 = none ∧
    (s.live 0x1028).map (fun b => (b.size, b.bytes 3)) = some (8, some 7) ∧
    (s.live 0x103c).map (fun b => (b.size, b.bytes 0)) = some (4, some 0) := by
  have hinit : (heapSystem 0x1000 100).Init ⟨smallHeap, Store.empty⟩ := ⟨noHeap, rfl⟩
  have hlive : (Session.performAll ⟨smallHeap, Store.empty⟩ smallRun).map (fun s =>
      ((s.live 0x1018).isSome, (s.live 0x1028).map (fun b => (b.size, b.bytes 3)),
        (s.live 0x103c).map (fun b => (b.size, b.bytes 0)))) =
      some (false, some (8, some 7), some (4, some 0)) := by decide +kernel
  rcases Option.map_eq_some_iff.mp hlive with ⟨s, hrun, hfacts⟩
  rcases Prod.mk.inj hfacts with ⟨hfirst, hrest⟩
  rcases Prod.mk.inj hrest with ⟨hsecond, hthird⟩
  refine ⟨s, Session.reachable_performAll (System.Reachable.init hinit) hrun, ?_, hsecond, hthird⟩
  rwa [Option.isSome_eq_false_iff, Option.isNone_iff_eq_none] at hfirst

/-- The chain after that run is these two blocks. -/
theorem heap_chain_invariant_small : ∃ s blocks, (heapSystem 0x1000 100).Reachable s ∧
    ChainInvariant 0x1000 100 s blocks ∧ 0x1018 ∉ addrs blocks ∧ 0x1028 ∈ addrs blocks ∧
      0x103c ∈ addrs blocks := by
  rcases smallRun_reachable with ⟨s, hs, hfirst, hsecond, hthird⟩
  rcases heap_chain_invariant (by decide) (by decide) hs with ⟨⟨blocks, hchain⟩, -⟩
  refine ⟨s, blocks, hs, hchain, ?_, (hchain.live _).mpr ?_, (hchain.live _).mpr ?_⟩
  · intro hmem
    have hlive := (hchain.live _).mp hmem
    rw [hfirst] at hlive
    cases hlive
  · rcases Option.map_eq_some_iff.mp hsecond with ⟨b, hb, -⟩
    rw [hb]
    rfl
  · rcases Option.map_eq_some_iff.mp hthird with ⟨b, hb, -⟩
    rw [hb]
    rfl

/-! ## Refinement -/

/-- What the owner of `p` relies on. -/
structure Owned (h : Heap) (p : UDword) (buf : Buffer UByte) : Prop where
  inHeap : isInHeap h p = true
  size : ∃ k, MushOS.size h p = .ok k ∧ k.toNat = buf.size
  bytes : HoldsBytes h.mem p buf

/-- The block `p` of `s` is the same in `s'`: its size, and every byte of it, the
ones nobody has written included. -/
structure Untouched (p : UDword) (buf : Buffer UByte) (s s' : Session) : Prop where
  live : s'.live p = some buf
  inHeap : isInHeap s'.heap p = isInHeap s.heap p
  size : MushOS.size s'.heap p = MushOS.size s.heap p
  bytes : ∀ i < buf.size, s'.heap.mem.bytes (p + BitVec.ofNat 32 i) =
    s.heap.mem.bytes (p + BitVec.ofNat 32 i)

section Refinement
variable {start n : UDword} {s s' : Session} {op : Op} {p : UDword} {buf : Buffer UByte}

theorem Represents.owned {blocks : List Block} (hr : Represents start n s.heap s.live blocks)
    (hp : s.live p = some buf) : Owned s.heap p buf := by
  rcases hr.block hp with ⟨b, hb, rfl, hsize⟩
  exact ⟨hr.wellFormed.isInHeap (mem_addrs hb), ⟨b.size, hr.wellFormed.size_eq hb, hsize⟩,
    hr.bytes _ _ hp⟩

theorem Represents.untouched {blocks : List Block}
    (hr : Represents start n s.heap s.live blocks) (hn : 24 < n.toNat)
    (hstep : (heapSystem start n).Step s op s') (hp : s.live p = some buf)
    (hon : ¬ op.On p) : Untouched p buf s s' := by
  rcases hr.step hn hstep with ⟨-, ⟨blocks', hr'⟩, hkeeps⟩
  rcases hkeeps p buf hp hon with ⟨hp', hbytes⟩
  rcases hr.owned hp with ⟨hin, ⟨k, hk, hsize⟩, -⟩
  rcases hr'.owned hp' with ⟨hin', ⟨k', hk', hsize'⟩, -⟩
  refine ⟨hp', by rw [hin, hin'], ?_, hbytes⟩
  rw [hk, hk', BitVec.eq_of_toNat_eq (hsize'.trans hsize.symm)]

/-- **The heap refines the abstract allocator.** In every state of every run what
the clients hold is a state of the allocator, each live block is as its owner
left it, and a step about one block leaves every other one untouched. -/
theorem heap_refines_allocator (hn : 24 < n.toNat) (hw : start.toNat + n.toNat < 2 ^ 32)
    (hs : (heapSystem start n).Reachable s) :
    (Allocator.system UDword UByte).Reachable s.live ∧
      (∀ p buf, s.live p = some buf → Owned s.heap p buf) ∧
      ∀ op s', (heapSystem start n).Step s op s' →
        (∃ e, (Allocator.system UDword UByte).Step s.live e s'.live) ∧
          ∀ p buf, s.live p = some buf → ¬ op.On p → Untouched p buf s s' := by
  rcases represents_of_reachable hn hw hs with ⟨hreach, blocks, hr⟩
  refine ⟨hreach, fun p buf hp => hr.owned hp, fun op s' hstep => ?_⟩
  exact ⟨(hr.step hn hstep).1, fun p buf hp hon => hr.untouched hn hstep hp hon⟩

end Refinement

/-- After the run of `smallRun` the second block has its size and the byte its owner wrote,
and the third one is clear. -/
theorem heap_refines_allocator_small : ∃ s, (heapSystem 0x1000 100).Reachable s ∧
    (Allocator.system UDword UByte).Reachable s.live ∧ MushOS.size s.heap 0x1028 = .ok 8 ∧
      s.heap.mem.bytes 0x102b = 7 ∧ s.heap.mem.bytes 0x103c = 0 := by
  rcases smallRun_reachable with ⟨s, hs, -, hsecond, hthird⟩
  rcases heap_refines_allocator (by decide) (by decide) hs with ⟨hreach, howned, -⟩
  rcases Option.map_eq_some_iff.mp hsecond with ⟨b, hb, hbfacts⟩
  rcases Option.map_eq_some_iff.mp hthird with ⟨c, hc, hcfacts⟩
  rcases Prod.mk.inj hbfacts with ⟨hbsize, hbyte⟩
  rcases Prod.mk.inj hcfacts with ⟨hcsize, hcbyte⟩
  rcases (howned _ _ hb).size with ⟨k, hk, hkb⟩
  have hk8 : k = 8 := by
    apply BitVec.eq_of_toNat_eq
    rw [hkb, hbsize]
    rfl
  refine ⟨s, hs, hreach, by rw [hk, hk8], ?_, ?_⟩
  · exact (howned _ _ hb).bytes 3 (by rw [hbsize]; decide) 7 hbyte
  · exact (howned _ _ hc).bytes 0 (by rw [hcsize]; decide) 0 hcbyte

end MushOS
