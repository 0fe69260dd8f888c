import MushOS.Base.HeapContents

/-! # What a refused request leaves behind

The handler `initialize_heap` registers for allocation exceptions returns, so a
request that `ralloc` refuses goes on with a null pointer in whoever called it:

* `ralloc` itself returns null, and nothing has been written;
* `zalloc` clears the bytes from address 0 on;
* `challoc` copies the old block to address 0 and frees it.

`failure_intact_iff` says that the memory is left alone in the first case and, as
there is nothing to clear, by a `zalloc` of no bytes; and in no other.
-/

namespace MushOS

open ByteMemory Links WellFormed

/-! ## Requests -/

inductive Request where
  | ralloc (size : UDword)
  | zalloc (size : UDword)
  | challoc (p newSize : UDword)

namespace Request

def run (h : Heap) : Request → Except Fault (UDword × Heap)
  | .ralloc size => MushOS.ralloc size h
  | .zalloc size => MushOS.zalloc size h
  | .challoc p newSize => MushOS.challoc p newSize h

/-- `ralloc` cannot satisfy the request; `challoc` is called with a live block. -/
def Refused (h : Heap) (blocks : List Block) : Request → Prop
  | .ralloc size => FailsCleanly h size
  | .zalloc size => FailsCleanly h size
  | .challoc p newSize => p ∈ addrs blocks ∧ ChallocRaises h p newSize

/-- Nothing is done with the null pointer `ralloc` has returned. -/
def Harmless : Request → Prop
  | .ralloc _ => True
  | .zalloc size => size = 0
  | .challoc _ _ => False

end Request

/-- The request returns null and the memory is the one before it, the record of what
has been written included; all the blocks are live. -/
def LeavesIntact (h : Heap) (blocks : List Block) (r : Request) : Prop :=
  ∃ h', r.run h = .ok (0, h') ∧ h'.mem = h.mem ∧ WellFormed h' blocks

/-! ## Counting the writes -/

section Written
variable {h h' : Heap} {p v : UDword} {f : BlockMember}

theorem memoryClearLoop_length (start : UDword) (sample : UByte) (n : ℕ) (m : Mem) :
    (memoryClearLoop start sample n m).written.length = m.written.length + n := by
  induction n with
  | zero => rfl
  | succ n ih =>
    rw [memoryClearLoop, Mem.write8_written, List.length_cons, ih]
    rfl

theorem memoryCopyLoop_length (source dest : UDword) (n : ℕ) (m : Mem) :
    (memoryCopyLoop source dest n m).written.length = m.written.length + n := by
  induction n with
  | zero => rfl
  | succ n ih =>
    rw [memoryCopyLoop, Mem.write8_written, List.length_cons, ih]
    rfl

theorem setIfPresent_length (heq : setIfPresent p f v h = .ok h') :
    h.mem.written.length ≤ h'.mem.written.length := by
  unfold setIfPresent getHeader at heq
  split at heq
  · split at heq
    · rw [ok_bind] at heq
      cases heq
      exact Nat.le_add_right _ 4
    · cases heq
  · cases heq
    exact le_refl _

/-- `unalloc` takes no write back, whatever the heap looks like. -/
theorem unalloc_length (heq : unalloc p h = .ok h') :
    h.mem.written.length ≤ h'.mem.written.length := by
  unfold unalloc at heq
  cases hblock : getHeader h p with
  | error fault => rw [hblock] at heq; cases heq
  | ok block =>
    rw [hblock, ok_bind] at heq
    dsimp only at heq
    obtain ⟨h1, hh1⟩ : ∃ h1, h1 = if p = h.firstAddress then
        h.setFirstAddress (h.member block .next) else h := ⟨_, rfl⟩
    have hle1 : h.mem.written.length ≤ h1.mem.written.length := by
      rw [hh1]
      split
      · exact Nat.le_add_right _ 4
      · exact le_refl _
    rw [← hh1] at heq
    cases hnext : setIfPresent (h1.member block .next) .previous (h1.member block .previous) h1 with
    | error fault => rw [hnext] at heq; cases heq
    | ok h2 =>
      rw [hnext, ok_bind] at heq
      exact hle1.trans ((setIfPresent_length hnext).trans (setIfPresent_length heq))

end Written

/-! ## The three callers -/

section Callers
variable {h : Heap} {blocks : List Block} {size p newSize : UDword}

/-- The heap after the exception has been handled. -/
def Heap.afterRaise (h : Heap) : Heap := { h with raised := allocationException :: h.raised }

theorem afterRaise_wellFormed (hw : WellFormed h blocks) : WellFormed h.afterRaise blocks :=
  hw.congr_mem rfl rfl

theorem ralloc_of_refused (hhandler : h.handlers allocationExceptionId = some .library)
    (hfail : FailsCleanly h size) : ralloc size h = .ok (0, h.afterRaise) := by
  unfold FailsCleanly at hfail
  rw [hhandler] at hfail
  exact hfail

theorem ralloc_intact (hw : WellFormed h blocks)
    (hhandler : h.handlers allocationExceptionId = some .library) (hfail : FailsCleanly h size) :
    LeavesIntact h blocks (.ralloc size) :=
  ⟨_, ralloc_of_refused hhandler hfail, rfl, afterRaise_wellFormed hw⟩

/-- `zalloc` clears `size` bytes at null. -/
theorem zalloc_intact_iff (hw : WellFormed h blocks)
    (hhandler : h.handlers allocationExceptionId = some .library) (hfail : FailsCleanly h size) :
    LeavesIntact h blocks (.zalloc size) ↔ size = 0 := by
  have heq : zalloc size h =
      .ok (0, { h.afterRaise with mem := memoryClear 0 size 0 h.mem }) := by
    rw [zalloc, ralloc_of_refused hhandler hfail]
    rfl
  constructor
  · rintro ⟨h', hrun, hmem, -⟩
    have hrun : zalloc size h = .ok (0, h') := hrun
    rw [heq, Except.ok.injEq, Prod.mk.injEq] at hrun
    rw [← hrun.2] at hmem
    have hlen := congrArg (fun m => m.written.length) hmem
    simp only [memoryClear, memoryClearLoop_length] at hlen
    exact BitVec.eq_of_toNat_eq (by simpa using hlen)
  · rintro rfl
    exact ⟨_, heq, rfl, afterRaise_wellFormed hw⟩

/-- `challoc` copies the block to null and frees it: even when it has no bytes to
copy, it is not live any more. -/
theorem challoc_not_intact (hw : WellFormed h blocks)
    (hhandler : h.handlers allocationExceptionId = some .library) (hp : p ∈ addrs blocks)
    (hraises : ChallocRaises h p newSize) : ¬ LeavesIntact h blocks (.challoc p newSize) := by
  rcases List.mem_map.mp hp with ⟨b, hb, rfl⟩
  rcases List.append_of_mem hb with ⟨xs, ys, rfl⟩
  rcases hraises with ⟨hmoves, hfail⟩
  rw [moves_iff hw] at hmoves
  have hsize : h.afterRaise.member (b.addr - sizeofHeapBlockHeader) .size = b.size :=
    hw.size b hb
  rintro ⟨h', hrun, hmem, hw'⟩
  have hrun : challoc b.addr newSize h = .ok (0, h') := hrun
  rw [challoc_eq hw, if_neg (by omega), if_neg (by omega), challocMove,
    ralloc_of_refused hhandler hfail, ok_bind] at hrun
  simp only [hsize] at hrun
  rcases ok_of_bind_ok hrun with ⟨h1, hfree, hret⟩
  cases hret
  have hlen := unalloc_length hfree
  rw [hmem] at hlen
  simp only [memoryCopy, memoryCopyLoop_length] at hlen
  have hle : h.mem.written.length + b.size.toNat ≤ h.mem.written.length := hlen
  have hzero : b.size.toNat = 0 := by omega
  -- nothing was copied: the block is unlinked from the heap as it was
  simp only [memoryCopy, hzero, memoryCopyLoop] at hfree
  rcases (afterRaise_wellFormed hw).unalloc with ⟨h2, hfree', hw2, -⟩
  have hsame : h2 = h' := Except.ok.inj (hfree'.symm.trans hfree)
  rw [hsame] at hw2
  have hwalk := hw2.walk_eq.symm.trans hw'.walk_eq
  have hlist := congrArg List.length (Option.some.inj hwalk)
  simp [addrs] at hlist

end Callers

/-- **When a refused request leaves the state intact**, for every well-formed heap and
every request `ralloc` cannot satisfy, under a handler that returns. -/
theorem failure_intact_iff {h : Heap} {blocks : List Block} {r : Request}
    (hw : WellFormed h blocks) (hhandler : h.handlers allocationExceptionId = some .library)
    (hrefused : r.Refused h blocks) : LeavesIntact h blocks r ↔ r.Harmless := by
  cases r with
  | ralloc size => exact iff_of_true (ralloc_intact hw hhandler hrefused) trivial
  | zalloc size => exact zalloc_intact_iff hw hhandler hrefused
  | challoc p newSize =>
    exact iff_of_false (challoc_not_intact hw hhandler hrefused.1 hrefused.2) id

/-! ## A thousand bytes of a hundred -/

/-- A block that is not the first one is no larger than the heap. -/
theorem failsCleanly_of_large {h : Heap} {blocks : List Block} {size : UDword}
    (hw : WellFormed h blocks) (hne : blocks ≠ []) (hwrap : size.toNat + 12 < 2 ^ 32)
    (hlarge : h.heapEnd.toNat - h.heapStart.toNat < size.toNat) : FailsCleanly h size := by
  rcases ralloc_spec hw size hwrap (fun e => absurd e hne) with
    hfail | ⟨xs, ys, p, -, -, hw', hedits⟩
  · exact failsCleanly_of_eq hfail
  · rcases hw'.inside ⟨p, size⟩ (by simp) with ⟨hlo, hhi, -⟩
    rw [hedits.bounds.heapStart] at hlo
    rw [hedits.bounds.heapEnd] at hhi
    unfold Block.stop at hhi
    simp only at hlo hhi
    omega

theorem two_refuses : FailsCleanly twoBlocks 1000 :=
  failsCleanly_of_large twoBlocks_wellFormed (by simp) (by decide) (by decide +kernel)

theorem two_handler : twoBlocks.handlers allocationExceptionId = some .library := by
  decide +kernel

theorem ralloc_intact_two :
    LeavesIntact twoBlocks [⟨0x1018, 4⟩, ⟨0x1028, 4⟩] (.ralloc 1000) := by
  have hrefused : Request.Refused twoBlocks [⟨0x1018, 4⟩, ⟨0x1028, 4⟩] (.ralloc 1000) :=
    two_refuses
  exact (failure_intact_iff twoBlocks_wellFormed two_handler hrefused).mpr trivial

/-- Asking for a thousand bytes for the first of the two blocks frees it. -/
theorem challoc_failure_frees :
    Request.Refused twoBlocks [⟨0x1018, 4⟩, ⟨0x1028, 4⟩] (.challoc 0x1018 1000) ∧
      ¬ LeavesIntact twoBlocks [⟨0x1018, 4⟩, ⟨0x1028, 4⟩] (.challoc 0x1018 1000) := by
  have hmem : (0x1018 : UDword) ∈ addrs [⟨0x1018, 4⟩, ⟨0x1028, 4⟩] := by simp
  have hraises : ChallocRaises twoBlocks 0x1018 1000 :=
    ⟨(moves_iff twoBlocks_wellFormed 1000).mpr (by decide), two_refuses⟩
  exact ⟨⟨hmem, hraises⟩, challoc_not_intact twoBlocks_wellFormed two_handler hmem hraises⟩

end MushOS
