import MushOS.Base.HeapBestFit
import MushOS.Base.Live

/-! # Heaps with room

When the blocks of a heap end well before its own end, `ralloc` cannot fail: the block goes to
the end or into a gap before it, and its bytes are those that have been there. A gap in front
of the only block is taken first when it is shorter than what comes after that block. In a
heap without gaps blocks follow one another in the order they are allocated.
-/

namespace MushOS

open ByteMemory

section Room
variable {h h' : Heap} {S : Finset Block} {b : Block} {p size : UDword} {limit : ℕ}

/-- The bytes of the new block are left as they are found. -/
structure ObtainsAsIs (S : Finset Block) (h : Heap) (size p : UDword) (h' : Heap) : Prop
    extends Obtains S h size p h' where
  asIs : ∀ a ∈ (Block.mk p size).payload, h'.mem.bytes a = h.mem.bytes a

/-- The first block. -/
theorem Live.ralloc_first (hl : Live h ∅)
    (hroom : h.heapStart.toNat + 12 + size.toNat < h.heapEnd.toNat) :
    ∃ h', MushOS.ralloc size h = .ok (h.heapStart + 12, h') ∧
      ObtainsAsIs ∅ h size (h.heapStart + 12) h' := by
  rcases hl with ⟨blocks, hw, hblocks⟩
  have hnil : blocks = [] := List.toFinset_eq_empty_iff _ |>.mp hblocks
  subst hnil
  have hend := h.heapEnd.isLt
  have hp : (h.heapStart + 12).toNat = h.heapStart.toNat + 12 :=
    BitVec.toNat_add_of_lt (by simp; omega)
  have hlinked := @WellFormed.linkIn h [] [] (h.heapStart + 12) size hw (by rw [hp]; simp)
    (by rw [hp]; simp; omega) (by rw [hp]; omega)
  rcases obtains_place hlinked.1 hlinked.2 with ⟨hgot, hasIs⟩
  exact ⟨_, ralloc_empty hw size, hgot, hasIs⟩

/-- The gaps the search goes through, and the one the block is put into. -/
theorem ralloc_grants {blocks : List Block} (hw : WellFormed h blocks) (hne : blocks ≠ [])
    (hbelow : ∀ b ∈ blocks, b.stop ≤ limit) (hroom : limit + size.toNat + 24 ≤ h.heapEnd.toNat) :
    ∃ xs ys p h', blocks = xs ++ ys ∧ MushOS.ralloc size h = .ok (p, h') ∧
      ObtainsAsIs blocks.toFinset h size p h' ∧ p.toNat = gapStart h.heapStart.toNat xs + 12 ∧
      ∀ xs' ys', blocks = xs' ++ ys' → size.toNat + 12 + shortfall ys' ≤ gapLength h xs' ys' →
        Beats h xs ys xs' ys' := by
  have hend := h.heapEnd.isLt
  have hwrap : size.toNat + 12 < 2 ^ 32 := by omega
  rcases grants_cases hw hne hwrap with ⟨-, hshort⟩ | ⟨xs, ys, p, rfl, hgrants, hp, -, hbeats⟩
  · -- there is room after the last block
    have hlast := hshort blocks [] (List.append_nil blocks).symm
    have hstop : gapStart h.heapStart.toNat blocks ≤ limit := by
      rcases List.eq_nil_or_concat blocks with rfl | ⟨bs, b, rfl⟩
      · exact absurd rfl hne
      · rw [List.concat_eq_append, gapStart_concat]
        exact hbelow b (by simp)
    rw [shortfall, if_pos rfl] at hlast
    unfold gapLength at hlast
    rw [gapStop_nil] at hlast
    omega
  · rcases ralloc_spec hw size hwrap (fun hnil => absurd hnil hne) with
      hfail | ⟨us, vs, q, hsplit, heq, hw', hedits⟩
    · exact absurd hgrants (not_grants_of_failure hfail)
    · rcases obtains_place hw' hedits with ⟨hgot, hasIs⟩
      rw [← hsplit] at hgot
      have hq : q = p := by
        rcases hgrants with ⟨h', heq', -⟩
        rw [heq] at heq'
        exact (Prod.mk.inj (Except.ok.inj heq')).1
      rw [hq] at heq hgot hasIs
      exact ⟨xs, ys, p, _, rfl, heq, ⟨hgot, hasIs⟩, hp, hbeats⟩

/-- Another block, when the blocks end well before the heap does. -/
theorem Live.ralloc_roomy (hl : Live h S) (hne : S.Nonempty) (hstart : h.heapStart.toNat ≤ limit)
    (hbelow : ∀ b ∈ S, b.stop ≤ limit) (hroom : limit + size.toNat + 24 ≤ h.heapEnd.toNat) :
    ∃ p h', MushOS.ralloc size h = .ok (p, h') ∧ ObtainsAsIs S h size p h' ∧
      p.toNat ≤ limit + 12 := by
  rcases hl with ⟨blocks, hw, rfl⟩
  have hnil : blocks ≠ [] := by
    rintro rfl
    exact absurd hne (by simp)
  have hbelow' : ∀ b ∈ blocks, b.stop ≤ limit := fun b hb => hbelow b (List.mem_toFinset.mpr hb)
  rcases ralloc_grants hw hnil hbelow' hroom with ⟨xs, ys, p, h', rfl, heq, hgot, hp, -⟩
  refine ⟨p, h', heq, hgot, ?_⟩
  have hgap : gapStart h.heapStart.toNat xs ≤ limit := by
    rcases List.eq_nil_or_concat xs with rfl | ⟨bs, b, rfl⟩
    · exact hstart
    · rw [List.concat_eq_append, gapStart_concat]
      exact hbelow' b (by simp)
  omega

/-- The gap in front of the only block, if it has room and is not the longer one. -/
theorem Live.ralloc_front (hl : Live h {b}) (hroom : b.stop + size.toNat + 24 ≤ h.heapEnd.toNat)
    (hfits : h.heapStart.toNat + size.toNat + 24 ≤ b.addr.toNat)
    (hshorter : b.addr.toNat + b.stop < h.heapEnd.toNat + h.heapStart.toNat) :
    ∃ h', MushOS.ralloc size h = .ok (h.heapStart + 12, h') ∧
      ObtainsAsIs {b} h size (h.heapStart + 12) h' := by
  rcases hl with ⟨blocks, hw, hblocks⟩
  have hnd : blocks.Nodup := List.Nodup.of_map _ (nodup_addrs hw.sorted)
  have hlength : blocks.length = 1 := by
    rw [← List.toFinset_card_of_nodup hnd, hblocks, Finset.card_singleton]
  rcases List.length_eq_one_iff.mp hlength with ⟨c, rfl⟩
  have hc : c = b := by
    have hmem : c ∈ ({b} : Finset Block) := by
      rw [← hblocks]
      simp
    exact Finset.mem_singleton.mp hmem
  subst hc
  rcases ralloc_grants hw (List.cons_ne_nil _ _) (by simp) hroom with
    ⟨xs, ys, p, h', hsplit, heq, hgot, hp, hbeats⟩
  have hxs : xs = [] := by
    cases xs with
    | nil => rfl
    | cons d xs =>
      -- the gap after the block is the longer one
      rw [List.cons_append] at hsplit
      rcases List.cons_eq_cons.mp hsplit with ⟨rfl, hnil⟩
      rcases List.append_eq_nil_iff.mp hnil.symm with ⟨rfl, rfl⟩
      have hshort : gapLength h [] [c] = c.addr.toNat - 12 - h.heapStart.toNat := rfl
      have hlong : gapLength h [c] [] = h.heapEnd.toNat - c.stop := rfl
      have hless := (hbeats [] [c] rfl (by
        rw [shortfall, if_neg (List.cons_ne_nil _ _), hshort]
        omega)).1
      rw [shortfall, if_neg (List.cons_ne_nil _ _), shortfall, if_pos rfl, hshort, hlong] at hless
      omega
  subst hxs
  have hfirst : p = h.heapStart + 12 := by
    have hend := h.heapEnd.isLt
    apply BitVec.eq_of_toNat_eq
    rw [hp, gapStart_nil, BitVec.toNat_add_of_lt]
    · rfl
    · simp
      omega
  subst hfirst
  exact ⟨h', heq, hgot⟩

end Room

/-! ## Room below a limit -/

/-- Every block ends at least `n` bytes below the limit, and the heap does not end there. -/
structure Headroom (limit n : ℕ) (S : Finset Block) (h : Heap) : Prop where
  start : h.heapStart.toNat + n ≤ limit
  below : ∀ b ∈ S, b.stop + n ≤ limit
  inside : limit + 12 ≤ h.heapEnd.toNat

section Headroom
variable {h h' : Heap} {S S' : Finset Block} {b : Block} {size : UDword} {limit n m : ℕ}

theorem Headroom.mono (hr : Headroom limit n S h) (hle : m ≤ n) (hsub : S' ⊆ S)
    (hbounds : SameBounds h h') : Headroom limit m S' h' where
  start := by
    have hstart := hr.start
    rw [hbounds.heapStart]
    omega
  below := fun b hb => by
    have hstop := hr.below b (hsub hb)
    omega
  inside := by
    rw [hbounds.heapEnd]
    exact hr.inside

/-- One more block takes its share of the room. -/
theorem Headroom.insert (hr : Headroom limit n S h) (hb : b.stop + n ≤ limit) :
    Headroom limit n (insert b S) h where
  start := hr.start
  below := fun c hc => by
    rcases Finset.mem_insert.mp hc with rfl | hc
    · exact hb
    · exact hr.below c hc
  inside := hr.inside

/-- Wherever the search puts the block, it ends a header and its size higher at most. -/
theorem Headroom.ralloc (hr : Headroom limit (n + (size.toNat + 12)) S h) (hl : Live h S) :
    ∃ p h', MushOS.ralloc size h = .ok (p, h') ∧ Block.stop ⟨p, size⟩ + n ≤ limit := by
  have hstart := hr.start
  have hinside := hr.inside
  unfold Block.stop
  by_cases hS : S = ∅
  · subst hS
    rcases @Live.ralloc_first h size hl (by omega) with ⟨h', heq, -⟩
    have hp : (h.heapStart + 12).toNat = h.heapStart.toNat + 12 := by
      have hend := h.heapEnd.isLt
      exact BitVec.toNat_add_of_lt (by simp; omega)
    refine ⟨_, h', heq, ?_⟩
    dsimp only
    omega
  · rcases @Live.ralloc_roomy h S size (limit - (n + (size.toNat + 12))) hl
      (Finset.nonempty_iff_ne_empty.mpr hS) (by omega)
      (fun b hb => Nat.le_sub_of_add_le (hr.below b hb)) (by omega) with ⟨p, h', heq, -, hp⟩
    refine ⟨p, h', heq, ?_⟩
    dsimp only
    omega

/-- **With room no allocation fails**, and the block leaves the rest of it. -/
theorem Headroom.allocates (hr : Headroom limit (n + (m + 12)) S h) (hl : Live h S) :
    Allocates ∅ S h m fun b => b.stop + n ≤ limit := by
  rintro size rfl
  have hstart := hr.start
  have hinside := hr.inside
  have hend := h.heapEnd.isLt
  have hralloc : Succeeds (MushOS.ralloc size) h (Obtains S h size) :=
    hl.ralloc (by omega) fun _ => ⟨by omega, by omega⟩
  rcases hralloc with ⟨e, -, hstop⟩ | ⟨p, h', hrun, hstrict, hgot⟩
  · -- the handler makes no difference to the room there is
    have hr' : Headroom limit (n + (size.toNat + 12)) S (strict h) :=
      ⟨hr.start, hr.below, hr.inside⟩
    rcases hr'.ralloc (hl.congr_mem rfl rfl) with ⟨p, h', heq, -⟩
    have hboth := hstop.symm.trans heq
    cases hboth
  · rcases hr.ralloc hl with ⟨p', h'', heq, hbelow⟩
    have hsame := Prod.mk.inj (Except.ok.inj (hrun.symm.trans heq))
    rw [← hsame.1] at hbelow
    exact Or.inr ⟨p, h', hrun, hstrict, hbelow, hgot⟩

end Headroom

/-! ## Heaps without gaps -/

/-- Every block starts a header after the one before it, or after the start of the heap. -/
def Packed (lo : ℕ) (blocks : List Block) : Prop :=
  ∀ xs b ys, blocks = xs ++ b :: ys → b.addr.toNat = gapStart lo xs + 12

section Packed
variable {h h' : Heap} {blocks : List Block} {b : Block} {size : UDword} {lo : ℕ}

theorem packed_nil (lo : ℕ) : Packed lo [] := by
  intro xs b ys hsplit
  simp at hsplit

theorem Packed.snoc (hpacked : Packed lo blocks) (hb : b.addr.toNat = gapStart lo blocks + 12) :
    Packed lo (blocks ++ [b]) := by
  intro xs c ys hsplit
  rcases List.eq_nil_or_concat ys with rfl | ⟨ys', d, rfl⟩
  · rcases List.append_inj' hsplit rfl with ⟨rfl, hlast⟩
    rcases List.singleton_inj.mp hlast with rfl
    exact hb
  · rw [List.concat_eq_append, ← List.cons_append, ← List.append_assoc] at hsplit
    exact hpacked xs c ys' (List.append_inj' hsplit rfl).1

/-- **A heap without gaps grows at its end.** -/
theorem ralloc_packed (hw : WellFormed h blocks) (hpacked : Packed h.heapStart.toNat blocks)
    (hroom : gapStart h.heapStart.toNat blocks + size.toNat + 24 ≤ h.heapEnd.toNat) :
    ∃ p h', MushOS.ralloc size h = .ok (p, h') ∧
      p.toNat = gapStart h.heapStart.toNat blocks + 12 ∧
      WellFormed h' (blocks ++ [⟨p, size⟩]) := by
  have hend := h.heapEnd.isLt
  by_cases hne : blocks = []
  · subst hne
    rw [gapStart_nil] at hroom
    have hp : (h.heapStart + sizeofHeapBlockHeader).toNat = h.heapStart.toNat + 12 :=
      BitVec.toNat_add_of_lt (by unfold sizeofHeapBlockHeader; simp; omega)
    have hlinked := @WellFormed.linkIn h [] [] _ size hw (by rw [hp]; simp)
      (by rw [hp]; simp; omega) (by rw [hp]; omega)
    exact ⟨_, _, ralloc_empty hw size, hp, hlinked.1⟩
  have hbelow : ∀ b ∈ blocks, b.stop ≤ gapStart h.heapStart.toNat blocks :=
    fun b hb => stop_le_gapStart _ hw.sorted hb
  rcases ralloc_grants hw hne hbelow hroom with ⟨xs, ys, p, h', hsplit, heq, hgot, hp, -⟩
  -- a block after the gap would start where the new one does
  have hys : ys = [] := by
    cases ys with
    | nil => rfl
    | cons c ys =>
      refine absurd ?_ (hgot.fresh c (by rw [hsplit]; simp))
      exact BitVec.eq_of_toNat_eq ((hpacked xs c ys hsplit).trans hp.symm)
  rw [hys, List.append_nil] at hsplit
  subst hsplit
  rcases ralloc_spec hw size (by omega) (fun hnil => absurd hnil hne) with
    hfail | ⟨us, vs, q, hsplit, heq', hw', -⟩
  · exact absurd ⟨h', heq, hgot.preserves.raised⟩ (not_grants_of_failure hfail)
  · rcases Prod.mk.inj (Except.ok.inj (heq.symm.trans heq')) with ⟨rfl, rfl⟩
    refine ⟨p, _, heq, hp, ?_⟩
    cases vs with
    | nil =>
      rw [List.append_nil] at hsplit
      rwa [hsplit]
    | cons c vs =>
      -- the new block is past all the others
      have hc : c ∈ blocks := by
        rw [hsplit]
        simp
      have hbefore : Block.Before ⟨p, size⟩ c := by
        have hsorted := hw'.sorted
        rw [List.pairwise_append] at hsorted
        exact (List.pairwise_cons.mp hsorted.2.1).1 c (by simp)
      have hstop := hbelow c hc
      unfold Block.Before at hbefore
      unfold Block.stop at hbefore hstop
      simp only at hbefore
      omega

end Packed

end MushOS
