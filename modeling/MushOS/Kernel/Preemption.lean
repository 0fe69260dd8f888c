import Mathlib
import MushOS.Theory.Transition
import MushOS.Base.HeapCongr
import MushOS.Base.HeapRoom

/-! # timer.c, heap.c: two tasks in one heap

The timer may switch tasks at any instruction, and `ralloc` does not disable
interrupts: between the search that fixes a gap and the writes that link a block
into it another task may run. Here `ralloc` is taken in these two steps
(`ralloc_eq`), the tasks take turns in any order, and what decides is whether the
gap that was found is still a gap when the block is linked in (`Search.Current`).
If it always is, the list is the live blocks after every step of every run
(`preempted_heap_intact`).
-/

namespace MushOS

open ByteMemory Links WellFormed Transition

/-! ## Model -/

/-- What `ralloc` has fixed when its search is over. -/
inductive Search where
  | empty (size : UDword)
  | gap (size : UDword) (best : Best)

def Search.size : Search → UDword
  | .empty size => size
  | .gap size _ => size

/-- `ralloc` up to the end of the search. -/
def beginRalloc (size : UDword) (h : Heap) : Except Fault Search :=
  if h.firstAddress = 0 then return .empty size
  else do
    let best : Best := ⟨h.heapEnd - h.heapStart, 0, 0, 0⟩
    let best := best.consider size
      (h.firstAddress - h.heapStart - sizeofHeapBlockHeader) h.heapStart 0 h.firstAddress
    let best ← rallocSearch h size chainFuel h.firstAddress best
    return .gap size best

/-- `ralloc` from there on: `allocate_space`, and the update of `first_address`. -/
def finishRalloc (r : Search) (h : Heap) : Except Fault (UDword × Heap) :=
  match r with
  | .empty size => do
    let (p, h) ← allocateSpace h.heapStart size 0 0 h
    return (p, h.setFirstAddress p)
  | .gap size best => rallocCommit size best h

/-- Without a switch in between the two halves are `ralloc`. -/
theorem ralloc_eq (size : UDword) (h : Heap) :
    ralloc size h = beginRalloc size h >>= fun r => finishRalloc r h := by
  unfold ralloc beginRalloc
  by_cases h0 : h.firstAddress = 0
  · rw [if_pos h0, if_pos h0]
    rfl
  · rw [if_neg h0, if_neg h0]
    show (rallocSearch _ _ _ _ _ >>= fun best => _) =
      ((rallocSearch _ _ _ _ _ >>= fun best => _) >>= fun r => finishRalloc r h)
    rw [bind_assoc]
    rfl

variable {T : Type} [DecidableEq T]

/-- The heap the tasks share, the task that runs, the searches that are over and not yet
committed, and the live blocks, each with the task that has got it. -/
structure SharedHeap (T : Type) where
  heap : Heap
  current : T
  found : T → Option Search
  live : List (T × Block)

inductive SharedAction (T : Type) where
  | search (size : UDword)
  | commit
  | unalloc (b : Block)
  | switch (t : T)

/-- One step of the task that runs, or a switch by the timer. A commit that finds no gap
ends in the handler of the kernel: the task does not come back from it. -/
inductive SharedHeap.Step (s : SharedHeap T) : SharedAction T → SharedHeap T → Prop where
  | search {size : UDword} {r : Search} (hidle : s.found s.current = none)
      (heq : beginRalloc size s.heap = .ok r) :
      Step s (.search size) { s with found := Function.update s.found s.current (some r) }
  | commit {r : Search} {p : UDword} {h' : Heap} (hfound : s.found s.current = some r)
      (heq : finishRalloc r s.heap = .ok (p, h')) :
      Step s .commit { s with
        heap := h'
        found := Function.update s.found s.current none
        live := (s.current, ⟨p, r.size⟩) :: s.live }
  | unalloc {b : Block} {h' : Heap} (hidle : s.found s.current = none)
      (hlive : (s.current, b) ∈ s.live) (heq : MushOS.unalloc b.addr s.heap = .ok h') :
      Step s (.unalloc b) { s with heap := h', live := s.live.erase (s.current, b) }
  | switch (t : T) : Step s (.switch t) { s with current := t }

/-- Tasks of the kernel in its heap. -/
def sharedSystem (T : Type) [DecidableEq T] : System (SharedHeap T) (SharedAction T) where
  Init s := (∃ h, s.heap = kernelHeap h) ∧ (∀ t, s.found t = none) ∧ s.live = []
  Step := SharedHeap.Step

/-! ## Stale searches -/

/-- What the search has found is there when it is committed: an empty heap with room, or a
gap between the same two blocks, at the same place, large enough. -/
def Search.Current (r : Search) (h : Heap) (blocks : List Block) : Prop :=
  match r with
  | .empty size => blocks = [] ∧ h.heapStart.toNat + 12 + size.toNat ≤ h.heapEnd.toNat ∧
      h.heapStart.toNat + 12 < h.heapEnd.toNat
  | .gap size best => ∃ xs ys, blocks = xs ++ ys ∧
      best.bestPrevious = lastAddr xs ∧ best.bestNext = headAddr ys ∧
      best.bestAddress.toNat = gapStart h.heapStart.toNat xs ∧
      best.bestAddress.toNat + 12 + size.toNat ≤ gapStop h.heapEnd.toNat ys ∧
      best.bestAddress.toNat + 12 < h.heapEnd.toNat

/-- Every commit is one of a search that is still current. -/
def SharedHeap.InTime (s : SharedHeap T) : SharedAction T → Prop
  | .commit => ∀ r, s.found s.current = some r →
      ∀ blocks, WellFormed s.heap blocks → r.Current s.heap blocks
  | _ => True

/-- The runs in which no search is stale when it is committed. -/
def timelySystem (T : Type) [DecidableEq T] : System (SharedHeap T) (SharedAction T) where
  Init := (sharedSystem T).Init
  Step s a s' := s.Step a s' ∧ s.InTime a

section Commit
variable {h h' : Heap} {blocks : List Block} {r : Search} {p size : UDword}

/-- Committing a current search links the block in. -/
theorem finishRalloc_current (hw : WellFormed h blocks) (hcurrent : r.Current h blocks) :
    ∃ xs ys p, blocks = xs ++ ys ∧ finishRalloc r h = .ok (p, h.place r.size xs ys p) ∧
      WellFormed (h.place r.size xs ys p) (xs ++ ⟨p, r.size⟩ :: ys) ∧
      SameBounds h (h.place r.size xs ys p) := by
  have hlt := h.heapEnd.isLt
  cases r with
  | empty size =>
    rcases hcurrent with ⟨rfl, hfit, hroom⟩
    have hp : (h.heapStart + sizeofHeapBlockHeader).toNat = h.heapStart.toNat + 12 :=
      BitVec.toNat_add_of_lt (by show h.heapStart.toNat + 12 < 2 ^ 32; omega)
    have heq := ralloc_empty hw size
    rw [ralloc, if_pos hw.firstAddress_eq_zero] at heq
    have hlink := @WellFormed.linkIn h [] [] _ size hw (by rw [hp]; simp)
      (by rw [hp]; simpa using hfit) (by rw [hp]; exact hroom)
    exact ⟨[], [], _, rfl, heq, hlink.1, hlink.2.bounds⟩
  | gap size best =>
    rcases hcurrent with ⟨xs, ys, rfl, hprev, hnext, haddr, hfit, hroom⟩
    rcases rallocCommit_eq hw size haddr hprev hnext (by omega) with ⟨p, hp, heq⟩
    have hlink := @WellFormed.linkIn h xs ys p size hw (by omega) (by omega) (by omega)
    exact ⟨xs, ys, p, rfl, heq, hlink.1, hlink.2.bounds⟩

/-- A search looks at the list and at the bounds of the heap. -/
theorem Search.Current.congr (hcurrent : r.Current h blocks) (hbounds : SameBounds h h') :
    r.Current h' blocks := by
  cases r with
  | empty size =>
    unfold Search.Current at hcurrent ⊢
    rwa [hbounds.heapStart, hbounds.heapEnd]
  | gap size best =>
    unfold Search.Current at hcurrent ⊢
    rwa [hbounds.heapStart, hbounds.heapEnd]

/-- The search has found a place. -/
def Search.Found : Search → Prop
  | .empty _ => True
  | .gap _ best => best.bestAddress ≠ 0

/-- A search that is committed at once is current, for a request that does not wrap and, in
an empty heap, fits: what goes wrong below is the switch in between. -/
theorem beginRalloc_current (hw : WellFormed h blocks) (hwrap : size.toNat + 12 < 2 ^ 32)
    (hempty : blocks = [] → h.heapStart.toNat + 12 + size.toNat ≤ h.heapEnd.toNat ∧
      h.heapStart.toNat + 12 < h.heapEnd.toNat)
    (heq : beginRalloc size h = .ok r) (hfound : r.Found) : r.Current h blocks := by
  unfold beginRalloc at heq
  by_cases hne : blocks = []
  · subst hne
    rw [if_pos hw.firstAddress_eq_zero] at heq
    rcases Except.ok.inj heq with rfl
    exact ⟨rfl, hempty rfl⟩
  · have hfirst : h.firstAddress ≠ 0 := by
      rcases List.exists_cons_of_ne_nil hne with ⟨b, ys, rfl⟩
      exact hw.firstAddress_ne_zero
    rw [if_neg hfirst] at heq
    rcases ok_of_bind_ok heq with ⟨best, hbest, hret⟩
    rcases Except.ok.inj hret with rfl
    rcases Except.ok.inj ((rallocSearch_eq_fold hw hne size).symm.trans hbest) with rfl
    rcases foldl_take size (gaps h blocks) ⟨h.heapEnd - h.heapStart, 0, 0, 0⟩ with
      ⟨hnone, -⟩ | ⟨g, hg, htaken, hfit, hlt, -⟩
    · -- no gap has been found
      rw [hnone] at hfound
      exact absurd rfl hfound
    · rcases mem_gaps.mp hg with ⟨xs, ys, rfl, rfl⟩
      rcases hw.gapOf_links with ⟨haddr, hprev, hnext⟩
      have hsize := hw.gapOf_taken hne hlt
      have hneed : (size + sizeofHeapBlockHeader).toNat = size.toNat + 12 :=
        BitVec.toNat_add_of_lt hwrap
      rw [BitVec.le_def, hneed] at hfit
      rw [htaken]
      have hroom : gapStart h.heapStart.toNat xs + 12 + size.toNat ≤
          gapStop h.heapEnd.toNat ys := by omega
      have hend : gapStart h.heapStart.toNat xs + 12 < h.heapEnd.toNat := by
        cases ys with
        | nil =>
          rw [if_pos rfl, gapStop_nil] at hsize
          omega
        | cons c ys =>
          have := (hw.inside c (by simp)).2.2
          rw [gapStop_cons] at hroom
          omega
      refine ⟨xs, ys, rfl, hprev, hnext, haddr, ?_, ?_⟩
      · show (gapOf h xs ys).address.toNat + 12 + size.toNat ≤ _
        rw [haddr]
        exact hroom
      · show (gapOf h xs ys).address.toNat + 12 < _
        rw [haddr]
        exact hend

end Commit

/-! ## The list over whole runs -/

/-- The chain from `first_address` ends and is the live blocks, none missing and no other; it
ascends, `previous` mirrors it, and the blocks with their headers are disjoint. -/
structure Intact (s : SharedHeap T) (blocks : List Block) : Prop where
  chain : walk (s.heap.field .next) 0 chainFuel s.heap.firstAddress = some (addrs blocks)
  complete : (s.live.map Prod.snd).Perm blocks
  sizes : ∀ b ∈ blocks, s.heap.field .size b.addr = b.size
  ascending : (addrs blocks).Pairwise fun p q => p.toNat < q.toNat
  mirrored : Backward (s.heap.field .previous) 0 (addrs blocks)
  disjoint : s.live.Pairwise fun x y =>
    Disjoint (x.2.header ∪ x.2.payload) (y.2.header ∪ y.2.payload)

/-- What every step keeps. -/
structure SharedHeap.Sound (s : SharedHeap T) (blocks : List Block) : Prop where
  wellFormed : WellFormed s.heap blocks
  live : (s.live.map Prod.snd).Perm blocks

section Runs
variable {s s' : SharedHeap T} {blocks : List Block} {a : SharedAction T} {b c : Block}

theorem Block.Before.disjoint (hbc : b.Before c) (hb : 12 ≤ b.addr.toNat) :
    Disjoint (b.header ∪ b.payload) (c.header ∪ c.payload) := by
  unfold Block.Before Block.stop at hbc
  refine Set.disjoint_left.mpr ?_
  rintro x (hx | hx) (hy | hy) <;>
    simp only [Block.header, Block.payload, mem_span] at hx hy <;> omega

namespace SharedHeap.Sound

omit [DecidableEq T] in
theorem intact (hs : s.Sound blocks) : Intact s blocks := by
  have hw := hs.wellFormed
  have hlen := hw.length_lt
  refine ⟨?_, hs.live, hw.size, ?_, hw.previous, ?_⟩
  · rw [hw.first]
    refine hw.next.walk (fun h0 => hw.ne_zero h0 rfl) ?_
    rwa [addrs, List.length_map]
  · refine List.pairwise_map.mpr (hw.sorted.imp ?_)
    intro b c hbc
    have := addr_lt_of_before hbc
    omega
  · have hblocks : blocks.Pairwise fun b c =>
        Disjoint (b.header ∪ b.payload) (c.header ∪ c.payload) := by
      refine hw.sorted.imp_of_mem ?_
      intro b c hb hc hbc
      have := (hw.inside b hb).1
      exact hbc.disjoint (by omega)
    have hlive := (hs.live.pairwise_iff fun h => h.symm).mpr hblocks
    rw [List.pairwise_map] at hlive
    exact hlive

/-- **One step** with no stale commit keeps the list. -/
theorem step (hs : s.Sound blocks) (hstep : s.Step a s') (htime : s.InTime a) :
    ∃ blocks', s'.Sound blocks' := by
  cases hstep with
  | search hidle heq => exact ⟨blocks, hs.wellFormed, hs.live⟩
  | switch t => exact ⟨blocks, hs.wellFormed, hs.live⟩
  | @commit r p h' hfound heq =>
    rcases finishRalloc_current hs.wellFormed (htime r hfound blocks hs.wellFormed) with
      ⟨xs, ys, q, rfl, hfinish, hw', -⟩
    rcases Prod.mk.inj (Except.ok.inj (hfinish.symm.trans heq)) with ⟨rfl, rfl⟩
    refine ⟨xs ++ ⟨q, r.size⟩ :: ys, hw', ?_⟩
    exact (hs.live.cons _).trans List.perm_middle.symm
  | @unalloc b h' hidle hlive heq =>
    have hb : b ∈ blocks := hs.live.subset (List.mem_map_of_mem hlive)
    rcases List.append_of_mem hb with ⟨xs, ys, rfl⟩
    rcases hs.wellFormed.unalloc with ⟨h₁, hunalloc, hw', -⟩
    rcases Except.ok.inj (hunalloc.symm.trans heq) with rfl
    refine ⟨xs ++ ys, hw', ?_⟩
    have hperm := ((List.perm_cons_erase hlive).map Prod.snd).symm.trans hs.live
    exact (hperm.trans List.perm_middle).cons_inv

end SharedHeap.Sound

theorem sound_of_timely (hs : (timelySystem T).Reachable s) : ∃ blocks, s.Sound blocks := by
  refine hs.invariant (I := fun s => ∃ blocks, s.Sound blocks) ?_ ?_
  · rintro s ⟨⟨h, hheap⟩, -, hlive⟩
    refine ⟨[], ?_, ?_⟩
    · rw [hheap]
      exact (kernelHeap_spec h).1
    · rw [hlive]
      exact List.Perm.refl _
  · rintro s a s' ⟨blocks, hs⟩ ⟨hstep, htime⟩
    exact hs.step hstep htime

/-- **A preempted `ralloc` keeps the heap as long as no stale search is committed**: after
every step of every such run, whatever the schedule, the list is the live blocks. -/
theorem preempted_heap_intact (hs : (timelySystem T).Reachable s) : ∃ blocks, Intact s blocks := by
  rcases sound_of_timely hs with ⟨blocks, hsound⟩
  exact ⟨blocks, hsound.intact⟩

end Runs

/-! ## Where a search leads -/

/-- The pointer a task gets for its search, whatever has become of the list. -/
def Search.target (start : UDword) : Search → UDword
  | .empty _ => start + sizeofHeapBlockHeader
  | .gap _ best =>
    if best.bestAddress = 0 then 0 else best.bestAddress + sizeofHeapBlockHeader

section Target
variable {h h' : Heap} {blocks : List Block} {r : Search} {a p size previous next : UDword}

theorem allocateSpace_address (heq : allocateSpace a size previous next h = .ok (p, h')) :
    p = a + sizeofHeapBlockHeader := by
  unfold allocateSpace at heq
  rcases ok_of_bind_ok heq with ⟨h₁, -, heq⟩
  rcases ok_of_bind_ok heq with ⟨h₂, -, hret⟩
  exact (Prod.mk.inj (Except.ok.inj hret)).1.symm

theorem finishRalloc_target (heq : finishRalloc r h = .ok (p, h')) :
    p = r.target h.heapStart := by
  cases r with
  | empty size =>
    rcases ok_of_bind_ok heq with ⟨⟨q, h₁⟩, hspace, hret⟩
    rw [← (Prod.mk.inj (Except.ok.inj hret)).1]
    exact allocateSpace_address hspace
  | gap size best =>
    have heq : rallocCommit size best h = .ok (p, h') := heq
    show p = if best.bestAddress = 0 then 0 else best.bestAddress + sizeofHeapBlockHeader
    unfold rallocCommit at heq
    by_cases h0 : best.bestAddress = 0
    · -- null is returned, unless the handler keeps the task
      rw [if_pos h0]
      simp only [ne_eq, h0, not_true_eq_false, if_false, pure_bind, if_true] at heq
      rcases ok_of_bind_ok heq with ⟨h₁, -, hret⟩
      exact (Prod.mk.inj (Except.ok.inj hret)).1.symm
    · rw [if_neg h0]
      simp only [ne_eq, h0, not_false_eq_true, if_true] at heq
      rcases ok_of_bind_ok heq with ⟨⟨q, h₁⟩, hspace, heq⟩
      rw [← allocateSpace_address hspace]
      by_cases hq : q = 0
      · rw [if_pos hq] at heq
        rcases ok_of_bind_ok heq with ⟨h₂, -, hret⟩
        exact (Prod.mk.inj (Except.ok.inj hret)).1.symm
      · rw [if_neg hq, pure_bind] at heq
        exact (Prod.mk.inj (Except.ok.inj heq)).1.symm

theorem Search.Found.of_target (h0 : r.target a ≠ 0) : r.Found := by
  cases r with
  | empty size => trivial
  | gap size best =>
    intro hzero
    exact h0 (if_pos hzero)

/-- A commit does not look at the list: its neighbours need only be blocks still. -/
theorem rallocCommit_returns (hw : WellFormed h blocks) {best : Best} (size : UDword)
    (hlow : h.header.toNat + 12 ≤ best.bestAddress.toNat)
    (hhigh : best.bestAddress.toNat + 12 < 2 ^ 32)
    (hprev : best.bestPrevious = 0 ∨ best.bestPrevious ∈ addrs blocks)
    (hnext : best.bestNext = 0 ∨ best.bestNext ∈ addrs blocks) :
    ∃ h', rallocCommit size best h =
      .ok (best.bestAddress + sizeofHeapBlockHeader, h') := by
  obtain ⟨p, hpdef⟩ : ∃ p, p = best.bestAddress + sizeofHeapBlockHeader := ⟨_, rfl⟩
  have hp : p.toNat = best.bestAddress.toNat + 12 := by
    rw [hpdef]
    exact BitVec.toNat_add_of_lt hhigh
  have hsub : best.bestAddress = p - sizeofHeapBlockHeader := by
    rw [hpdef]
    exact (BitVec.add_sub_cancel _ _).symm
  have haddr0 : best.bestAddress ≠ 0 := by
    intro h0
    rw [h0] at hlow
    simp at hlow
  have hp0 : p ≠ 0 := by
    intro h0
    rw [h0] at hp
    simp at hp
  have hspace := allocateSpace_eq size (by omega : h.header.toNat + 24 ≤ p.toNat)
    (hw.nullOrIn hprev) (hw.nullOrAfter hprev) (hw.nullOrIn hnext)
  rw [← hsub] at hspace
  unfold rallocCommit
  rw [if_pos haddr0, hspace, ← hpdef]
  simp only [ok_bind, if_neg hp0]
  exact ⟨_, rfl⟩

/-- **A search that is committed twice gives one block to both**: the second commit returns
what the first one has returned. -/
theorem finishRalloc_twice (hw : WellFormed h blocks) (hcurrent : r.Current h blocks)
    (heq : finishRalloc r h = .ok (p, h')) :
    ∃ h'', finishRalloc r h' = .ok (p, h'') := by
  rcases finishRalloc_current hw hcurrent with ⟨xs, ys, q, rfl, hfinish, hw', hbounds⟩
  rcases Prod.mk.inj (Except.ok.inj (hfinish.symm.trans heq)) with ⟨rfl, rfl⟩
  have hreturns : ∃ q' h'', finishRalloc r (h.place r.size xs ys q) = .ok (q', h'') := by
    cases r with
    | empty size => exact ⟨_, _, rfl⟩
    | gap size best =>
      rcases hcurrent with ⟨xs', ys', hsplit, hprev, hnext, haddr, -, hroom⟩
      have hstart := hw.heapStart
      have hmem : ∀ b, b ∈ addrs (xs ++ ys) → b ∈ addrs (xs ++ ⟨q, size⟩ :: ys) := by
        intro b hb
        rw [addrs_append, List.mem_append] at hb
        rw [addrs_append, addrs_cons, List.mem_append, List.mem_cons]
        tauto
      -- the headers the search has found are still headers, with the new block among them
      have hlast := last_mem xs' ys'
      have hhead := head_mem xs' ys'
      rw [← hsplit, ← hprev] at hlast
      rw [← hsplit, ← hnext] at hhead
      have hlow : h.header.toNat + 12 ≤ best.bestAddress.toNat := by
        have hle := (hsplit ▸ hw : WellFormed h (xs' ++ ys')).gapStart_le.1
        omega
      have hlt := h.heapEnd.isLt
      rcases rallocCommit_returns hw' size (hbounds.header ▸ hlow) (by omega)
        (hlast.imp_right (hmem _)) (hhead.imp_right (hmem _)) with ⟨h'', hcommit⟩
      exact ⟨_, h'', hcommit⟩
  rcases hreturns with ⟨q', h'', hreturns⟩
  -- both return the address the search has chosen
  obtain rfl : q' = q := by
    rw [finishRalloc_target hreturns, hbounds.heapStart]
    exact (finishRalloc_target heq).symm
  exact ⟨h'', hreturns⟩

/-- In a heap without gaps the search finds the end. -/
theorem exists_search (hw : WellFormed h blocks) (hpacked : Packed h.heapStart.toNat blocks)
    (hroom : gapStart h.heapStart.toNat blocks + size.toNat + 24 ≤ h.heapEnd.toNat) :
    ∃ r p h', beginRalloc size h = .ok r ∧ r.size = size ∧ r.Current h blocks ∧
      finishRalloc r h = .ok (p, h') ∧ p.toNat = gapStart h.heapStart.toNat blocks + 12 ∧
      WellFormed h' (blocks ++ [⟨p, size⟩]) ∧ SameBounds h h' := by
  have hlt := h.heapEnd.isLt
  rcases ralloc_packed hw hpacked hroom with ⟨p, h', hralloc, hp, hw'⟩
  rw [ralloc_eq] at hralloc
  rcases ok_of_bind_ok hralloc with ⟨r, hbegin, hfinish⟩
  -- the call returns a block, so the search has found a gap
  have hfound : r.Found := by
    refine Search.Found.of_target (a := h.heapStart) ?_
    rw [← finishRalloc_target hfinish]
    rintro rfl
    simp at hp
  have hcurrent : r.Current h blocks := by
    refine beginRalloc_current hw (by omega) ?_ hbegin hfound
    rintro rfl
    rw [gapStart_nil] at hroom
    omega
  have hsize : r.size = size := by
    unfold beginRalloc at hbegin
    by_cases h0 : h.firstAddress = 0
    · rw [if_pos h0] at hbegin
      rw [← Except.ok.inj hbegin]
      rfl
    · rw [if_neg h0] at hbegin
      rcases ok_of_bind_ok hbegin with ⟨best, -, hret⟩
      rw [← Except.ok.inj hret]
      rfl
  rcases finishRalloc_current hw hcurrent with ⟨xs, ys, q, -, hplace, -, hbounds⟩
  rcases Prod.mk.inj (Except.ok.inj (hplace.symm.trans hfinish)) with ⟨-, rfl⟩
  exact ⟨r, p, _, hbegin, hsize, hcurrent, hfinish, hp, hw', hbounds⟩

end Target

/-! ## Two tasks -/

/-- A heap before its first allocation, with two tasks. -/
def twoTasks (h : Heap) : SharedHeap Bool := ⟨h, false, fun _ => none, []⟩

theorem twoTasks_init (h : Heap) : (sharedSystem Bool).Init (twoTasks (kernelHeap h)) :=
  ⟨⟨h, rfl⟩, fun _ => rfl, rfl⟩

/-- Neither task is in a call, the first one runs, and the blocks lie one after another. -/
structure SharedHeap.AtRest (s : SharedHeap Bool) (blocks : List Block) : Prop where
  reachable : (timelySystem Bool).Reachable s
  current : s.current = false
  idle : s.found = fun _ => none
  wellFormed : WellFormed s.heap blocks
  packed : Packed 0x5000c blocks
  heapStart : s.heap.heapStart.toNat = 0x5000c
  heapEnd : s.heap.heapEnd.toNat = 0xd0000

namespace SharedHeap.AtRest
variable {s : SharedHeap Bool} {blocks : List Block}

/-- A search by either task, with what a commit of it returns now. -/
theorem search (h : s.AtRest blocks) (size : UDword)
    (hroom : gapStart 0x5000c blocks + size.toNat + 24 ≤ 0xd0000) :
    ∃ r p h', beginRalloc size s.heap = .ok r ∧ r.size = size ∧ r.Current s.heap blocks ∧
      finishRalloc r s.heap = .ok (p, h') ∧ p.toNat = gapStart 0x5000c blocks + 12 ∧
      WellFormed h' (blocks ++ [⟨p, size⟩]) ∧ SameBounds s.heap h' := by
  have hsearch := @exists_search s.heap blocks size h.wellFormed
  rw [h.heapStart, h.heapEnd] at hsearch
  exact hsearch h.packed hroom

/-- The first task allocates behind the blocks there are. -/
theorem ralloc (h : s.AtRest blocks) (size : UDword)
    (hroom : gapStart 0x5000c blocks + size.toNat + 24 ≤ 0xd0000) :
    ∃ p s', AtRest s' (blocks ++ [⟨p, size⟩]) ∧ p.toNat = gapStart 0x5000c blocks + 12 ∧
      s'.live = (false, ⟨p, size⟩) :: s.live := by
  rcases h.search size hroom with ⟨r, p, h', hbegin, rfl, hcurrent, hfinish, hp, hw', hbounds⟩
  have hfound : s.found s.current = none := congrFun h.idle s.current
  have hself := Function.update_self s.current (some r) s.found
  have hsearched := h.reachable.step ⟨SharedHeap.Step.search hfound hbegin, trivial⟩
  have hcommitted := hsearched.step ⟨SharedHeap.Step.commit hself hfinish, by
    intro r' hr blocks' hblocks
    rcases Option.some.inj (hself.symm.trans hr) with rfl
    rwa [h.wellFormed.blocks_unique hblocks]⟩
  refine ⟨p, _, ⟨hcommitted, h.current, ?_, hw', h.packed.snoc hp, ?_, ?_⟩, hp, ?_⟩
  · show Function.update (Function.update s.found s.current (some r)) s.current none = _
    rw [Function.update_idem, h.idle, Function.update_eq_self]
  · rw [hbounds.heapStart]
    exact h.heapStart
  · rw [hbounds.heapEnd]
    exact h.heapEnd
  · show (s.current, _) :: s.live = _
    rw [h.current]

end SharedHeap.AtRest

theorem atRest_init (h : Heap) : (twoTasks (kernelHeap h)).AtRest [] := by
  rcases kernelHeap_spec h with ⟨hw, -, hstart, hend, -⟩
  exact ⟨.init (twoTasks_init h), rfl, rfl, hw, packed_nil _, hstart, hend⟩

/-- The two bitmaps and the records of the two tasks. -/
def kernelBlocks : List Block :=
  [⟨0x50018, 448⟩, ⟨0x501e4, 7680⟩, ⟨0x51ff0, 24⟩, ⟨0x52014, 24⟩]

/-- The kernel allocates them before the two tasks run. -/
theorem exists_atRest (h : Heap) : ∃ s : SharedHeap Bool, s.AtRest kernelBlocks ∧
    s.live = kernelBlocks.reverse.map (Prod.mk false) := by
  rcases (atRest_init h).ralloc 448 (by decide) with ⟨p₁, s₁, h₁, hp₁, hlive₁⟩
  obtain rfl : p₁ = 0x50018 := BitVec.eq_of_toNat_eq hp₁
  rcases h₁.ralloc 7680 (by decide) with ⟨p₂, s₂, h₂, hp₂, hlive₂⟩
  obtain rfl : p₂ = 0x501e4 := BitVec.eq_of_toNat_eq hp₂
  rcases h₂.ralloc 24 (by decide) with ⟨p₃, s₃, h₃, hp₃, hlive₃⟩
  obtain rfl : p₃ = 0x51ff0 := BitVec.eq_of_toNat_eq hp₃
  rcases h₃.ralloc 24 (by decide) with ⟨p₄, s₄, h₄, hp₄, hlive₄⟩
  obtain rfl : p₄ = 0x52014 := BitVec.eq_of_toNat_eq hp₄
  refine ⟨s₄, h₄, ?_⟩
  rw [hlive₄, hlive₃, hlive₂, hlive₁]
  rfl

/-- The first task is preempted between its search and its commit, and the second one
allocates and releases a block in the gap that was found. -/
theorem timely_two (h : Heap) : ∃ (s₀ s : SharedHeap Bool) (b c : Block),
    s₀.AtRest kernelBlocks ∧ (timelySystem Bool).Run s₀
      [.search 32, .switch true, .search 8, .commit, .unalloc c, .switch false, .commit] s ∧
    b.addr = c.addr ∧ s.live = (false, b) :: s₀.live := by
  rcases exists_atRest h with ⟨s₀, h₀, -⟩
  rcases h₀.search 32 (by decide) with
    ⟨r, p, _, hbegin, -, hcurrent, hnow, hp, -, -⟩
  rcases h₀.search 8 (by decide) with
    ⟨r', p', h', hbegin', hsize', hcurrent', hfinish', hp', hw', hbounds'⟩
  rw [← hsize'] at hw'
  rcases hw'.unalloc with ⟨h₁, hunalloc, hw₁, hedits⟩
  rw [List.append_nil] at hw₁
  -- the list is what it was, and the gap of the first task is there again
  have hagain : r.Current h₁ kernelBlocks := hcurrent.congr (hbounds'.trans hedits.bounds)
  rcases finishRalloc_current hw₁ hagain with ⟨xs, ys, q, -, hfinish, -, -⟩
  have hq : q = p' := by
    have hsame : q = p := by
      rw [finishRalloc_target hfinish, hedits.bounds.heapStart, hbounds'.heapStart]
      exact (finishRalloc_target hnow).symm
    rw [hsame]
    exact BitVec.eq_of_toNat_eq (hp.trans hp'.symm)
  rcases s₀ with ⟨heap, current, found, live⟩
  obtain rfl : current = false := h₀.current
  obtain rfl : found = fun _ => none := h₀.idle
  have hrun₂ := (System.Run.single (T := timelySystem Bool)
    ⟨SharedHeap.Step.search rfl hbegin, trivial⟩).snoc ⟨.switch true, trivial⟩
  have hrun₃ := hrun₂.snoc ⟨SharedHeap.Step.search rfl hbegin', trivial⟩
  have hrun₄ := hrun₃.snoc ⟨SharedHeap.Step.commit rfl hfinish', by
    intro r'' hr blocks hblocks
    rcases Option.some.inj hr with rfl
    rwa [h₀.wellFormed.blocks_unique hblocks]⟩
  have hrun₆ := (hrun₄.snoc ⟨SharedHeap.Step.unalloc rfl List.mem_cons_self hunalloc, trivial⟩).snoc
    ⟨.switch false, trivial⟩
  have hrun₇ := hrun₆.snoc ⟨SharedHeap.Step.commit rfl hfinish, by
    intro r'' hr blocks hblocks
    rcases Option.some.inj hr with rfl
    rwa [hw₁.blocks_unique hblocks]⟩
  refine ⟨_, _, ⟨q, r.size⟩, _, h₀, hrun₇, hq, ?_⟩
  simp

theorem preempted_heap_intact_two : ∃ (s₀ s : SharedHeap Bool) (b c : Block)
    (blocks : List Block), s₀.AtRest kernelBlocks ∧ (timelySystem Bool).Run s₀
      [.search 32, .switch true, .search 8, .commit, .unalloc c, .switch false, .commit] s ∧
    b.addr = c.addr ∧ s.live = (false, b) :: s₀.live ∧ Intact s blocks := by
  rcases timely_two noHeap with ⟨s₀, s, b, c, h₀, hrun, haddr, hlive⟩
  rcases h₀.reachable with ⟨s', as, hinit, hbefore⟩
  rcases preempted_heap_intact ⟨s', _, hinit, hbefore.append hrun⟩ with ⟨blocks, hintact⟩
  exact ⟨s₀, s, b, c, blocks, h₀, hrun, haddr, hlive, hintact⟩

/-- Both tasks find the end of the list before either links its block in: they get one
block. -/
theorem two_searches_one_block (h : Heap) : ∃ s : SharedHeap Bool,
    (sharedSystem Bool).Reachable s ∧ s.live = (false, ⟨0x52038, 16⟩) :: (true, ⟨0x52038, 16⟩) ::
      kernelBlocks.reverse.map (Prod.mk false) := by
  rcases exists_atRest h with ⟨s₀, h₀, hlive₀⟩
  rcases h₀.search 16 (by decide) with
    ⟨r, p, h', hbegin, hsize, hcurrent, hfinish, hp, -, -⟩
  obtain rfl : p = 0x52038 := BitVec.eq_of_toNat_eq hp
  rcases finishRalloc_twice h₀.wellFormed hcurrent hfinish with ⟨h'', hagain⟩
  have hreach : (sharedSystem Bool).Reachable s₀ := by
    refine System.Reachable.invariant (T := timelySystem Bool) ?_ ?_ h₀.reachable
    · intro s hinit
      exact System.Reachable.init (T := sharedSystem Bool) hinit
    · intro s a s' hs hstep
      exact System.Reachable.step hs hstep.1
  rcases s₀ with ⟨heap, current, found, live⟩
  obtain rfl : current = false := h₀.current
  obtain rfl : found = fun _ => none := h₀.idle
  have hreach₂ := (hreach.step (SharedHeap.Step.search rfl hbegin)).step
    (SharedHeap.Step.switch true)
  have hreach₄ := (hreach₂.step (SharedHeap.Step.search rfl hbegin)).step
    (SharedHeap.Step.commit rfl hfinish)
  -- the list has changed since the first task has searched it
  have hreach₆ := (hreach₄.step (SharedHeap.Step.switch false)).step
    (SharedHeap.Step.commit rfl hagain)
  refine ⟨_, hreach₆, ?_⟩
  rw [← hlive₀, ← hsize]

theorem stale_commit_shares_block : ¬ ∀ s : SharedHeap Bool, (sharedSystem Bool).Reachable s →
    ∃ blocks, Intact s blocks := by
  intro hclaim
  rcases two_searches_one_block noHeap with ⟨s, hs, hlive⟩
  rcases hclaim s hs with ⟨blocks, hintact⟩
  have hdisjoint := hintact.disjoint
  rw [hlive] at hdisjoint
  have hself := (List.pairwise_cons.mp hdisjoint).1 (true, ⟨0x52038, 16⟩) List.mem_cons_self
  have hmem : (0x52038 : UDword) ∈
      (⟨0x52038, 16⟩ : Block).header ∪ (⟨0x52038, 16⟩ : Block).payload :=
    Or.inr ⟨Nat.le_refl _, by decide⟩
  exact Set.disjoint_left.mp hself hmem hmem

end MushOS
