import MushOS.Base.HeapResize

/-! # ralloc as a best fit

A complete best fit serves a request when some gap has room for the block and its
header, and puts the block at the start of a smallest such gap. `ralloc` walks all
the gaps, but takes a header too much off the one after the last block: it sees
that gap twelve bytes shorter than it is (`passes_iff`). So it refuses a request
that only the last gap can serve when there are less than twelve bytes to spare,
and passes over or prefers the last gap where the lengths differ by less than
that. `ralloc_bestFit_iff` says exactly when this does not show.
-/

namespace MushOS

open ByteMemory Links WellFormed

/-! ## Best fit -/

/-- The gap between `xs` and `ys` has room for a block of `size` bytes and its header. -/
def HasRoom (h : Heap) (size : UDword) (xs ys : List Block) : Prop :=
  size.toNat + 12 ≤ gapLength h xs ys

/-- `ralloc` returns `p` and raises nothing. -/
def Grants (h : Heap) (size p : UDword) : Prop :=
  ∃ h', ralloc size h = .ok (p, h') ∧ h'.raised = h.raised

/-- The block at `p` is at the start of a smallest gap with room for it. -/
def AtBestGap (h : Heap) (blocks : List Block) (size p : UDword) : Prop :=
  ∃ xs ys, blocks = xs ++ ys ∧ HasRoom h size xs ys ∧
    p.toNat = gapStart h.heapStart.toNat xs + 12 ∧
    ∀ xs' ys', blocks = xs' ++ ys' → HasRoom h size xs' ys' →
      gapLength h xs ys ≤ gapLength h xs' ys'

/-- `ralloc` succeeds when some gap has room, and then takes a smallest one. -/
structure BestFit (h : Heap) (blocks : List Block) (size : UDword) : Prop where
  complete : (∃ p, Grants h size p) ↔ ∃ xs ys, blocks = xs ++ ys ∧ HasRoom h size xs ys
  best : ∀ p, Grants h size p → AtBestGap h blocks size p

/-- The gap before one of the blocks has room, and is `slack` bytes below `limit`. -/
def EarlierFits (h : Heap) (blocks : List Block) (size : UDword) (slack limit : ℕ) : Prop :=
  ∃ xs c ys, blocks = xs ++ c :: ys ∧ HasRoom h size xs (c :: ys) ∧
    gapLength h xs (c :: ys) + slack ≤ limit

/-- The header that is taken off the last gap does not show: the gap has no room
anyway, or an earlier one is no longer than what is left of it, or it has room all
the same and no earlier one is shorter. -/
def LastGapHarmless (h : Heap) (blocks : List Block) (size : UDword) : Prop :=
  gapLength h blocks [] < size.toNat + 12 ∨
    (gapLength h blocks [] < size.toNat + 24 ∧
      EarlierFits h blocks size 0 (gapLength h blocks [])) ∨
    (size.toNat + 24 ≤ gapLength h blocks [] ∧
      (EarlierFits h blocks size 12 (gapLength h blocks []) ∨
        ¬ EarlierFits h blocks size 1 (gapLength h blocks [])))

/-! ## What the search compares -/

section Search
variable {h : Heap} {blocks xs ys : List Block} {size p : UDword}

/-- What the search takes off the length of a gap. -/
def shortfall (ys : List Block) : ℕ := if ys = [] then 12 else 0

/-- The length of a gap is that of the bytes in it. -/
theorem gapLength_add (hw : WellFormed h (xs ++ ys)) :
    gapLength h xs ys + gapStart h.heapStart.toNat xs = gapStop h.heapEnd.toNat ys := by
  have hle := hw.gapStart_le.2
  unfold gapLength
  omega

/-- No gap of a heap with a block is as long as the heap. -/
theorem gapLength_lt (hw : WellFormed h (xs ++ ys)) (hne : xs ++ ys ≠ []) :
    gapLength h xs ys < h.heapEnd.toNat - h.heapStart.toNat := by
  have hlen := gapLength_add hw
  have hle := hw.gapStart_le
  cases ys with
  | cons c ys =>
    have hc := hw.inside c (by simp)
    rw [gapStop_cons] at hlen
    omega
  | nil =>
    obtain ⟨xs', b, rfl⟩ : ∃ xs' b, xs = xs' ++ [b] :=
      ⟨_, _, (List.dropLast_append_getLast (by simpa using hne)).symm⟩
    have hb := hw.inside b (by simp)
    rw [gapStop_nil, gapStart_concat, Block.stop] at hlen
    omega

/-- The search sees a gap before a block as it is, and the last one a header shorter. -/
theorem passes_iff (hw : WellFormed h (xs ++ ys)) (hne : xs ++ ys ≠ [])
    (hwrap : size.toNat + 12 < 2 ^ 32) :
    (gapOf h xs ys).Passes h size ↔ size.toNat + 12 + shortfall ys ≤ gapLength h xs ys := by
  have hneed : (size + sizeofHeapBlockHeader).toNat = size.toNat + 12 :=
    BitVec.toNat_add_of_lt hwrap
  have hspan : (h.heapEnd - h.heapStart).toNat = h.heapEnd.toNat - h.heapStart.toNat := by
    have hle := hw.heapEnd
    bv_omega
  have hlen := gapLength_add hw
  have hlt := gapLength_lt hw hne
  unfold Gap.Passes shortfall
  rw [BitVec.le_def, BitVec.lt_def, hneed, hspan]
  cases ys with
  | cons c ys =>
    have hfree := hw.gapOf_free
    rw [if_neg (by simp)]
    omega
  | nil =>
    have hlast := hw.gapOf_free_last (by simpa using hne)
    rw [gapStop_nil] at hlen
    rw [if_pos rfl]
    split at hlast
    · omega
    · -- the size has wrapped, and is not below that of the heap
      have hstart := hw.heapStart
      have hend := h.heapEnd.isLt
      omega

/-- What the search sees of a gap it may take. -/
theorem free_of_passes (hw : WellFormed h (xs ++ ys)) (hne : xs ++ ys ≠ [])
    (hpass : (gapOf h xs ys).Passes h size) :
    (gapOf h xs ys).free.toNat + shortfall ys = gapLength h xs ys := by
  have htaken := hw.gapOf_taken hne hpass.2
  have hlen := gapLength_add hw
  unfold shortfall
  omega

theorem not_grants_of_failure (hfail : ralloc size h = rallocFailure h) : ¬ Grants h size p := by
  rintro ⟨h', heq, hraised⟩
  exact not_failsCleanly heq hraised (failsCleanly_of_eq hfail)

theorem Grants.unique {q : UDword} (hp : Grants h size p) (hq : Grants h size q) : p = q := by
  rcases hp with ⟨h₁, hp, -⟩
  rcases hq with ⟨h₂, hq, -⟩
  rw [hp] at hq
  exact (Prod.mk.inj (Except.ok.inj hq)).1

/-- The last gap is the last one the search looks at, and the only one without a block
after it. -/
theorem gaps_concat (hw : WellFormed h blocks) (hne : blocks ≠ []) :
    ∃ init g, gaps h blocks = init ++ [g] ∧ ∀ g' ∈ init, g'.next ≠ 0 := by
  -- only the gap behind the last block has no block after it
  have hafter : ∀ bs : List Block, bs ≠ [] → (∀ b ∈ bs, b.addr ≠ 0) →
      ∃ init g, gapsAfter h bs = init ++ [g] ∧ ∀ g' ∈ init, g'.next ≠ 0 := by
    intro bs
    induction bs with
    | nil => exact fun hnil => absurd rfl hnil
    | cons b bs ih =>
      intro _ h0
      cases bs with
      | nil => exact ⟨[], gapAfter h b [], rfl, by simp⟩
      | cons c bs =>
        rcases ih (by simp) fun b hb => h0 b (by simp [hb]) with ⟨init, g, heq, hnext⟩
        refine ⟨gapAfter h b (c :: bs) :: init, g, by rw [gapsAfter, heq]; rfl, ?_⟩
        intro g' hg'
        rcases List.mem_cons.mp hg' with rfl | hg'
        · exact h0 c (by simp)
        · exact hnext g' hg'
  have h0 : ∀ b ∈ blocks, b.addr ≠ 0 := fun b hb => hw.ne_zero (mem_addrs hb)
  rcases hafter blocks hne h0 with ⟨init, g, heq, hnext⟩
  refine ⟨gapFirst h blocks :: init, g, by rw [gaps, heq]; rfl, ?_⟩
  intro g' hg'
  rcases List.mem_cons.mp hg' with rfl | hg'
  · rcases List.exists_cons_of_ne_nil hne with ⟨b, ys, rfl⟩
    exact h0 b (by simp)
  · exact hnext g' hg'

/-- What the search sees of the gap it ends with, against another one: no more, and less
when that one is looked at before it is the last one's turn. -/
def Beats (h : Heap) (xs ys xs' ys' : List Block) : Prop :=
  gapLength h xs ys + shortfall ys' ≤ gapLength h xs' ys' + shortfall ys ∧
    (ys = [] → ys' ≠ [] →
      gapLength h xs ys + shortfall ys' < gapLength h xs' ys' + shortfall ys)

/-- No gap passes and nothing is granted, or the block is granted in a gap that passes
and beats all the others that do. -/
theorem grants_cases (hw : WellFormed h blocks) (hne : blocks ≠ [])
    (hwrap : size.toNat + 12 < 2 ^ 32) :
    ((∀ p, ¬ Grants h size p) ∧ ∀ xs ys, blocks = xs ++ ys →
      gapLength h xs ys < size.toNat + 12 + shortfall ys) ∨
    ∃ xs ys p, blocks = xs ++ ys ∧ Grants h size p ∧
      p.toNat = gapStart h.heapStart.toNat xs + 12 ∧
      size.toNat + 12 + shortfall ys ≤ gapLength h xs ys ∧
      ∀ xs' ys', blocks = xs' ++ ys' → size.toNat + 12 + shortfall ys' ≤ gapLength h xs' ys' →
        Beats h xs ys xs' ys' := by
  rcases foldl_take_first size (gaps h blocks) ⟨h.heapEnd - h.heapStart, 0, 0, 0⟩ with
    ⟨-, hno⟩ | ⟨before, g, after, hgaps, heq, h1, h2, hbefore, hafter⟩
  · left
    refine ⟨fun p => not_grants_of_failure (ralloc_none hw hne hno), ?_⟩
    rintro xs ys rfl
    by_contra hfits
    exact hno _ (mem_gaps.mpr ⟨xs, ys, rfl, rfl⟩)
      ((passes_iff hw hne hwrap).mpr (Nat.le_of_not_lt hfits))
  · right
    rcases mem_gaps.mp (show g ∈ gaps h blocks by rw [hgaps]; simp) with ⟨xs, ys, rfl, rfl⟩
    rcases ralloc_takes hw hne h2 heq with ⟨p, hp, hralloc⟩
    have hraised : (h.place size xs ys p).raised = h.raised := by
      unfold Heap.place Heap.linkFirst Heap.linkIn Heap.patch
      split <;> split <;> split <;> rfl
    have hpass : (gapOf h xs ys).Passes h size := ⟨h1, h2⟩
    have hfree := free_of_passes hw hne hpass
    refine ⟨xs, ys, p, rfl, ⟨_, hralloc, hraised⟩, hp, (passes_iff hw hne hwrap).mp hpass, ?_⟩
    intro xs' ys' hsplit hfits
    have hw' := hw
    have hne' := hne
    rw [hsplit] at hw' hne'
    have hpass' := (passes_iff hw' hne' hwrap).mpr hfits
    have hfree' := free_of_passes hw' hne' hpass'
    have hmem' : gapOf h xs' ys' ∈ before ++ gapOf h xs ys :: after := by
      rw [← hgaps]
      exact mem_gaps.mpr ⟨xs', ys', hsplit, rfl⟩
    rcases List.mem_append.mp hmem' with hmem' | hmem'
    · have hlt := hbefore _ hmem' hpass'.1
      rw [BitVec.lt_def] at hlt
      exact ⟨by omega, fun _ _ => by omega⟩
    have hle : (gapOf h xs ys).free.toNat ≤ (gapOf h xs' ys').free.toNat := by
      rcases List.mem_cons.mp hmem' with hsame | hmem'
      · rw [hsame]
      · exact hafter _ hmem' hpass'.1
    refine ⟨by omega, fun hys hys' => ?_⟩
    -- nothing comes after the last gap
    rcases gaps_concat hw hne with ⟨init, glast, hinit, hnext⟩
    rw [hgaps] at hinit
    have hnext0 : (gapOf h xs ys).next = 0 := by
      rw [hw.gapOf_links.2.2, hys]
      rfl
    have hnext' : (gapOf h xs' ys').next ≠ 0 := by
      rcases List.exists_cons_of_ne_nil hys' with ⟨c, zs, rfl⟩
      rw [hw'.gapOf_links.2.2]
      exact hw'.ne_zero (by simp)
    rcases List.mem_cons.mp hmem' with hsame | hmem'
    · exact absurd (hsame ▸ hnext0) hnext'
    · obtain ⟨after', z, rfl⟩ : ∃ after' z, after = after' ++ [z] :=
        ⟨_, _, (List.dropLast_append_getLast (List.ne_nil_of_mem hmem')).symm⟩
      have hmem : gapOf h xs ys ∈ init := by
        have hcut : before ++ gapOf h xs ys :: after' = init := by
          rw [← List.cons_append, ← List.append_assoc] at hinit
          exact (List.append_inj' hinit rfl).1
        rw [← hcut]
        simp
      exact absurd hnext0 (hnext _ hmem)

/-! ## When the fit is the best -/

/-- Two gaps that start at the same byte are one. -/
theorem gapStart_inj {xs' ys' : List Block} (hw : WellFormed h (xs ++ ys))
    (hsplit : xs ++ ys = xs' ++ ys')
    (hstart : gapStart h.heapStart.toNat xs = gapStart h.heapStart.toNat xs') : xs = xs' := by
  -- a longer prefix has a block after the start of the shorter one
  have hlt : ∀ {us vs zs : List Block} {c : Block}, WellFormed h ((us ++ c :: vs) ++ zs) →
      gapStart h.heapStart.toNat us < gapStart h.heapStart.toNat (us ++ c :: vs) := by
    intro us vs zs c hw
    have hle := (show WellFormed h (us ++ c :: (vs ++ zs)) by simpa using hw).gapStart_le.2
    have hsorted := (List.pairwise_append.mp hw.sorted).1
    have hstop := stop_le_gapStart h.heapStart.toNat hsorted (show c ∈ us ++ c :: vs by simp)
    have hc := (hw.inside c (by simp)).1
    rw [gapStop_cons] at hle
    unfold Block.stop at hstop
    omega
  rcases List.append_eq_append_iff.mp hsplit with ⟨as, rfl, hys⟩ | ⟨as, rfl, hys⟩
  · cases as with
    | nil => simp
    | cons c as =>
      have := hlt (show WellFormed h ((xs ++ c :: as) ++ ys') by simpa [hys] using hw)
      omega
  · cases as with
    | nil => simp
    | cons c as =>
      have := hlt hw
      omega

/-- A block that is granted in a gap with room: the fit is the best when no gap with room
is shorter. -/
theorem bestFit_iff_of_grants (hw : WellFormed h (xs ++ ys)) (hgrants : Grants h size p)
    (hp : p.toNat = gapStart h.heapStart.toNat xs + 12) (hroom : HasRoom h size xs ys) :
    BestFit h (xs ++ ys) size ↔ ∀ xs' ys', xs ++ ys = xs' ++ ys' → HasRoom h size xs' ys' →
      gapLength h xs ys ≤ gapLength h xs' ys' := by
  constructor
  · intro hbest
    rcases hbest.best p hgrants with ⟨us, vs, hsplit, -, hp', hmin⟩
    rcases gapStart_inj hw hsplit (by omega) with rfl
    rcases List.append_cancel_left hsplit with rfl
    exact hmin
  · intro hmin
    refine ⟨iff_of_true ⟨p, hgrants⟩ ⟨xs, ys, rfl, hroom⟩, ?_⟩
    intro q hq
    rcases hgrants.unique hq with rfl
    exact ⟨xs, ys, rfl, hroom, hp, hmin⟩

/-- Nothing is granted: the fit is the best when the last gap has no room either. -/
theorem bestFit_iff_of_none (hnone : ∀ p, ¬ Grants h size p)
    (hshort : ∀ xs ys, blocks = xs ++ ys → gapLength h xs ys < size.toNat + 12 + shortfall ys) :
    BestFit h blocks size ↔ LastGapHarmless h blocks size := by
  -- every gap is too short, the last one by the twelve bytes it is taken short by
  have hlast := hshort blocks [] (List.append_nil blocks).symm
  rw [shortfall, if_pos rfl] at hlast
  have hearlier : ∀ slack limit, ¬ EarlierFits h blocks size slack limit := by
    rintro slack limit ⟨xs, c, ys, hsplit, hroom, -⟩
    have hlt := hshort xs (c :: ys) hsplit
    rw [shortfall, if_neg (List.cons_ne_nil c ys)] at hlt
    unfold HasRoom at hroom
    omega
  constructor
  · intro hbest
    left
    by_contra hroom
    rcases hbest.complete.mpr
      ⟨blocks, [], (List.append_nil blocks).symm, Nat.le_of_not_lt hroom⟩ with ⟨p, hp⟩
    exact hnone p hp
  · rintro (hroom | ⟨-, hfits⟩ | ⟨hlong, -⟩)
    · refine ⟨iff_of_false (fun ⟨p, hp⟩ => hnone p hp) ?_, fun p hp => absurd hp (hnone p)⟩
      rintro ⟨xs, ys, hsplit, hfits⟩
      unfold HasRoom at hfits
      cases ys with
      | nil =>
        rw [List.append_nil] at hsplit
        rw [← hsplit] at hfits
        omega
      | cons c ys => exact hearlier 0 _ ⟨xs, c, ys, hsplit, hfits, le_refl _⟩
    · exact absurd hfits (hearlier _ _)
    · omega

/-- Granted before the block `c`. -/
theorem bestFit_iff_of_earlier {c : Block} (hw : WellFormed h (xs ++ c :: ys))
    (hgrants : Grants h size p) (hp : p.toNat = gapStart h.heapStart.toNat xs + 12)
    (hroom : HasRoom h size xs (c :: ys))
    (hbeats : ∀ xs' ys', xs ++ c :: ys = xs' ++ ys' →
      size.toNat + 12 + shortfall ys' ≤ gapLength h xs' ys' → Beats h xs (c :: ys) xs' ys') :
    BestFit h (xs ++ c :: ys) size ↔ LastGapHarmless h (xs ++ c :: ys) size := by
  have hzero : ∀ (b : Block) (bs : List Block), shortfall (b :: bs) = 0 :=
    fun b bs => if_neg (List.cons_ne_nil b bs)
  have hmin : ∀ xs' c' ys', xs ++ c :: ys = xs' ++ c' :: ys' → HasRoom h size xs' (c' :: ys') →
      gapLength h xs (c :: ys) ≤ gapLength h xs' (c' :: ys') := by
    intro xs' c' ys' hsplit hfits
    have hle := (hbeats xs' (c' :: ys') hsplit (by rw [hzero]; exact hfits)).1
    rw [hzero, hzero] at hle
    exact hle
  have hlast : size.toNat + 24 ≤ gapLength h (xs ++ c :: ys) [] →
      gapLength h xs (c :: ys) + 12 ≤ gapLength h (xs ++ c :: ys) [] := by
    intro hlong
    have hle := (hbeats (xs ++ c :: ys) [] (List.append_nil _).symm
      (by rw [shortfall, if_pos rfl]; omega)).1
    rw [hzero, shortfall, if_pos rfl] at hle
    omega
  have hfits : ∀ slack limit, EarlierFits h (xs ++ c :: ys) size slack limit ↔
      gapLength h xs (c :: ys) + slack ≤ limit := by
    intro slack limit
    constructor
    · rintro ⟨xs', c', ys', hsplit, hroom', hle⟩
      have := hmin xs' c' ys' hsplit hroom'
      omega
    · intro hle
      exact ⟨xs, c, ys, rfl, hroom, hle⟩
  rw [bestFit_iff_of_grants hw hgrants hp hroom, LastGapHarmless, hfits, hfits, hfits]
  -- only the gap behind the last block can still be shorter
  have hiff : (∀ xs' ys', xs ++ c :: ys = xs' ++ ys' → HasRoom h size xs' ys' →
      gapLength h xs (c :: ys) ≤ gapLength h xs' ys') ↔
      (size.toNat + 12 ≤ gapLength h (xs ++ c :: ys) [] →
        gapLength h xs (c :: ys) ≤ gapLength h (xs ++ c :: ys) []) := by
    constructor
    · exact fun hall => hall (xs ++ c :: ys) [] (List.append_nil _).symm
    · intro hle xs' ys' hsplit hroom'
      cases ys' with
      | nil =>
        rw [List.append_nil] at hsplit
        subst hsplit
        exact hle hroom'
      | cons c' ys' => exact hmin xs' c' ys' hsplit hroom'
  rw [hiff]
  omega

/-- Granted in the last gap. -/
theorem bestFit_iff_of_last (hw : WellFormed h blocks) (hgrants : Grants h size p)
    (hp : p.toNat = gapStart h.heapStart.toNat blocks + 12)
    (hlong : size.toNat + 24 ≤ gapLength h blocks [])
    (hbeats : ∀ xs' ys', blocks = xs' ++ ys' →
      size.toNat + 12 + shortfall ys' ≤ gapLength h xs' ys' → Beats h blocks [] xs' ys') :
    BestFit h blocks size ↔ LastGapHarmless h blocks size := by
  -- an earlier gap with room is not twelve bytes shorter
  have hearlier : ¬ EarlierFits h blocks size 12 (gapLength h blocks []) := by
    rintro ⟨xs, c, ys, hsplit, hroom, hle⟩
    have hzero : shortfall (c :: ys) = 0 := if_neg (List.cons_ne_nil c ys)
    have hlt := (hbeats xs (c :: ys) hsplit (by rw [hzero]; exact hroom)).2 rfl
      (List.cons_ne_nil c ys)
    rw [hzero, shortfall, if_pos rfl] at hlt
    omega
  have hroom : HasRoom h size blocks [] := by
    unfold HasRoom
    omega
  have hsplit : blocks ++ [] = blocks := List.append_nil blocks
  have hiff := @bestFit_iff_of_grants h blocks [] size p (by rwa [hsplit]) hgrants hp hroom
  rw [hsplit] at hiff
  rw [hiff]
  constructor
  · intro hmin
    refine Or.inr (Or.inr ⟨hlong, Or.inr ?_⟩)
    rintro ⟨xs, c, ys, hsplit', hroom', hle⟩
    have := hmin xs (c :: ys) hsplit' hroom'
    omega
  · rintro (hshort | ⟨hshort, -⟩ | ⟨-, htwelve | hnone⟩)
    · omega
    · omega
    · exact absurd htwelve hearlier
    · intro xs ys hsplit' hroom'
      cases ys with
      | nil =>
        rw [List.append_nil] at hsplit'
        rw [hsplit']
      | cons c ys =>
        by_contra hlt
        exact hnone ⟨xs, c, ys, hsplit', hroom', by omega⟩

end Search

/-- **When `ralloc` is a complete best fit**, for every well-formed heap with a block and
every size whose sum with the header does not wrap. -/
theorem ralloc_bestFit_iff {h : Heap} {blocks : List Block} {size : UDword}
    (hw : WellFormed h blocks) (hne : blocks ≠ []) (hwrap : size.toNat + 12 < 2 ^ 32) :
    BestFit h blocks size ↔ LastGapHarmless h blocks size := by
  rcases grants_cases hw hne hwrap with
    ⟨hnone, hshort⟩ | ⟨xs, ys, p, rfl, hgrants, hp, hfits, hbeats⟩
  · exact bestFit_iff_of_none hnone hshort
  · cases ys with
    | nil =>
      rw [List.append_nil] at hw hbeats ⊢
      rw [shortfall, if_pos rfl] at hfits
      exact bestFit_iff_of_last hw hgrants hp (by omega) hbeats
    | cons c ys =>
      exact bestFit_iff_of_earlier hw hgrants hp (Nat.le_of_add_right_le hfits) hbeats

/-! ## The hundred-byte heap with two blocks -/

/-- Side by side from the start of a heap, two blocks leave no gap before them. -/
theorem noEarlierFits_two {h : Heap} (hstart : h.heapStart.toNat = 0x100c) (size : UDword)
    (slack limit : ℕ) :
    ¬ EarlierFits h [⟨0x1018, 4⟩, ⟨0x1028, 4⟩] size slack limit := by
  rintro ⟨xs, c, ys, hsplit, hroom, -⟩
  unfold HasRoom gapLength at hroom
  rw [hstart, gapStop_cons] at hroom
  rcases xs with _ | ⟨x, _ | ⟨y, xs⟩⟩
  · have hc : (⟨0x1018, 4⟩ : Block) = c := (List.cons.inj hsplit).1
    rw [gapStart_nil, ← hc] at hroom
    simp at hroom
  · rcases List.cons.inj hsplit with ⟨hx, hsplit⟩
    have hc : (⟨0x1028, 4⟩ : Block) = c := (List.cons.inj hsplit).1
    rw [← hx, ← hc] at hroom
    simp [gapStart, Block.stop] at hroom
  · exact absurd (congrArg List.length hsplit) (by simp)

theorem heapStart_two : twoBlocks.heapStart.toNat = 0x100c := by decide +kernel

theorem gapLength_two : gapLength twoBlocks [⟨0x1018, 4⟩, ⟨0x1028, 4⟩] [] = 56 := by
  unfold gapLength
  decide +kernel

/-- Four bytes fit well after the two blocks. -/
theorem ralloc_bestFit_two : BestFit twoBlocks [⟨0x1018, 4⟩, ⟨0x1028, 4⟩] 4 := by
  have hw : WellFormed twoBlocks [⟨0x1018, 4⟩, ⟨0x1028, 4⟩] := twoBlocks_wellFormed
  refine (ralloc_bestFit_iff hw (by simp) (by decide)).mpr (Or.inr (Or.inr ⟨?_, Or.inr ?_⟩))
  · rw [gapLength_two]
    decide
  · exact noEarlierFits_two heapStart_two 4 1 _

/-- There are 56 bytes after them, and a request for forty is refused. -/
theorem ralloc_refuses_forty : WellFormed twoBlocks [⟨0x1018, 4⟩, ⟨0x1028, 4⟩] ∧
    (40 : UDword).toNat + 12 < 2 ^ 32 ∧
    ¬ BestFit twoBlocks [⟨0x1018, 4⟩, ⟨0x1028, 4⟩] 40 := by
  have hw : WellFormed twoBlocks [⟨0x1018, 4⟩, ⟨0x1028, 4⟩] := twoBlocks_wellFormed
  have hsize : (40 : UDword).toNat + 12 < 2 ^ 32 := by decide
  refine ⟨hw, hsize, fun hbest => ?_⟩
  have hroom : HasRoom twoBlocks 40 [⟨0x1018, 4⟩, ⟨0x1028, 4⟩] [] := by
    rw [HasRoom, gapLength_two]
    decide
  rcases hbest.complete.mpr ⟨_, _, (List.append_nil _).symm, hroom⟩ with ⟨p, hp⟩
  rcases grants_cases hw (by simp) hsize with ⟨hnone, -⟩ | ⟨xs, ys, -, hsplit, -, -, hfits, -⟩
  · exact hnone p hp
  · cases ys with
    | nil =>
      rw [List.append_nil] at hsplit
      rw [← hsplit, gapLength_two] at hfits
      exact absurd hfits (by decide)
    | cons c ys =>
      have hroom' : HasRoom twoBlocks 40 xs (c :: ys) := Nat.le_of_add_right_le hfits
      exact noEarlierFits_two heapStart_two 40 0 _ ⟨xs, c, ys, hsplit, hroom', le_refl _⟩

end MushOS
