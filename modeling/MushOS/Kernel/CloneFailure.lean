import MushOS.Kernel.AddressSpace

/-! # clone_directory when memory runs out

Both allocators return null when their pool is exhausted, and `clone_table` and
`clone_directory` go on with the null. `cloneDirectory_clean_iff` says exactly when
that leaves no trace: when there is nothing to clone, or when the pools hold
enough. Otherwise the null shows up either as a write into physical page 0 or as a
present directory entry whose table is at address 0.
-/

namespace MushOS

open ByteMemory Loop

/-- The two ranges the pools hand out. -/
def InPools (a : UDword) : Prop :=
  pagingPoolStart ≤ a ∧ a < pagingPoolEnd ∨ userSpaceStart ≤ a ∧ a < userSpaceEnd

/-- The page `n` has been taken from its pool between `s` and `s'`. -/
def NewlyAllocated (s s' : Paging) (n : ℕ) : Prop := n ∈ free s ∧ n ∉ free s'

/-- The call that made `dir` from `src` wrote into the pools only, and every present
entry of the new directory and of its new tables has the frame of the source's
entry or a newly allocated one. -/
structure CleanClone (s : Paging) (src : UDword) (s' : Paging) (dir : UDword) : Prop where
  writes : ∀ a ∈ s'.mem.written, InPools a
  tables : dir ≠ 0 → ∀ i < 1024, (s'.mem.entry dir i).present = true →
    (s'.mem.entry dir i).frame = (s.mem.entry src i).frame ∨
      NewlyAllocated s s' (s'.mem.entry dir i).frame.toNat
  pages : dir ≠ 0 → ∀ i < 1024, (s'.mem.entry dir i).present = true →
    NewlyAllocated s s' (s'.mem.entry dir i).frame.toNat → ∀ j < 1024,
    (s'.mem.entry (pageStart (s'.mem.entry dir i).frame.toNat) j).present = true →
    (s'.mem.entry (pageStart (s'.mem.entry dir i).frame.toNat) j).frame =
        (s.mem.entry (pageStart (s.mem.entry src i).frame.toNat) j).frame ∨
      NewlyAllocated s s'
        (s'.mem.entry (pageStart (s'.mem.entry dir i).frame.toNat) j).frame.toNat

/-- The same state with an empty list of writes. -/
def Paging.watch (s : Paging) : Paging := { s with mem := s.mem.watch }

section
variable {s s' : Paging} {src dir a : UDword} {n i : ℕ}

theorem inPools_iff : InPools a ↔ 0x100000 ≤ a.toNat ∧ a.toNat < 0xf00000 ∨
    0x1000000 ≤ a.toNat ∧ a.toNat < 0x10000000 := Iff.rfl

/-- Page 0 is in neither pool. -/
theorem not_inPools_of_pageZero (h : pageOf a = 0) : ¬ InPools a := by
  unfold pageOf at h
  rw [inPools_iff]
  omega

theorem not_newlyAllocated_zero : ¬ NewlyAllocated s s' 0 := by
  rintro ⟨hfree, -⟩
  have := free_range hfree
  omega

/-- The free pages are in the pools. -/
theorem inPools_of_free (h : pageOf a ∈ free s) : InPools a := by
  rw [inPools_iff]
  rcases mem_free.mp h with h | h
  · have := freeFolders_range h
    unfold pageOf at this
    omega
  · have := freeFrames_range h
    unfold pageOf at this
    omega

/-- Steps that write nothing but pages they take stay in the pools. -/
theorem Evolves.inPools (h : Evolves ∅ s s') (hwatch : s.mem.written = []) :
    ∀ a ∈ s'.mem.written, InPools a := by
  intro a ha
  rcases h.writes.inside a ha with hbefore | htaken
  · rw [hwatch] at hbefore
    cases hbefore
  · rw [mem_pages] at htaken
    rcases htaken with hnone | ⟨hfree, -⟩
    · exact absurd hnone (Set.notMem_empty _)
    · exact inPools_of_free hfree

/-- A copied directory refers to the source's frames and to newly allocated ones. -/
theorem DirectoryCopy.clean (h : DirectoryCopy s src s' dir 1024) (hheld : Held s src)
    (hwrites : ∀ a ∈ s'.mem.written, InPools a) :
    CleanClone s src s' dir := by
  refine ⟨hwrites, ?_, ?_⟩
  · intro _ i hi hpresent'
    have hcopy := h.entries i hi
    by_cases hc : isCloned s.mem (s.mem.entry src i) = true
    · exact Or.inr ⟨mem_free.mpr (Or.inl (hcopy.was_free hc)), hcopy.taken hc⟩
    · rw [Bool.not_eq_true] at hc
      by_cases hpresent : (s.mem.entry src i).present = true
      · rw [hcopy.shared hpresent hc]
        exact Or.inl rfl
      · rw [Bool.not_eq_true] at hpresent
        rw [hcopy.absent hpresent] at hpresent'
        cases hpresent'
  · intro _ i hi hpresent' hnew j hj hpage'
    have hcopy := h.entries i hi
    by_cases hc : isCloned s.mem (s.mem.entry src i) = true
    · have hentry := (hcopy.table hc).entries j hj
      by_cases hu : isUserPage (s.mem.entry src i).user
          (s.mem.entry (pageStart (s.mem.entry src i).frame.toNat) j) = true
      · right
        refine ⟨mem_free.mpr (Or.inr (hentry.was_free hu)), ?_⟩
        intro hmem
        rcases mem_free.mp hmem with hmem | hmem
        · exact freeFolders_not_freeFrames hmem (hentry.was_free hu)
        · exact hentry.taken hu hmem
      · rw [Bool.not_eq_true] at hu
        by_cases hpage : (s.mem.entry (pageStart (s.mem.entry src i).frame.toNat) j).present = true
        · rw [hentry.kernel hpage hu]
          exact Or.inl rfl
        · rw [Bool.not_eq_true] at hpage
          rw [hentry.absent hpage] at hpage'
          cases hpage'
    · -- a shared table is not a new one
      rw [Bool.not_eq_true] at hc
      by_cases hpresent : (s.mem.entry src i).present = true
      · rw [hcopy.shared hpresent hc] at hnew
        exact absurd hnew.1 (hheld.table_not_free i hi hpresent)
      · rw [Bool.not_eq_true] at hpresent
        rw [hcopy.absent hpresent] at hpresent'
        cases hpresent'

/-- A source without present entries costs nothing beyond the directory. -/
theorem no_tables_of_absent (h : ∀ i < 1024, (s.mem.entry src i).present = false) :
    clonedTables s.mem src = 0 ∧ clonedPages s.mem src = 0 := by
  have hnot : ∀ i < 1024, isCloned s.mem (s.mem.entry src i) = false := by
    intro i hi
    unfold isCloned
    rw [h i hi, Bool.false_and]
  constructor
  · unfold clonedTables clonedTablesTo pagesInTable
    rw [Nat.count_eq_card_filter_range, Finset.card_eq_zero, Finset.filter_eq_empty_iff]
    intro i hi
    rw [hnot i (Finset.mem_range.mp hi)]
    exact Bool.false_ne_true
  · unfold clonedPages clonedPagesTo pagesInTable
    refine Finset.sum_eq_zero ?_
    intro i hi
    rw [hnot i (Finset.mem_range.mp hi), if_neg Bool.false_ne_true]

/-- Nor does the loop change anything. -/
theorem loop_cloneDirectoryEntry_absent (h : ∀ i < 1024, (s.mem.entry src i).present = false) :
    loop (cloneDirectoryEntry src dir) pagesInTable s = s := by
  refine loop_induction (P := fun _ s' => s' = s) rfl ?_
  rintro i s' hi rfl
  exact cloneDirectoryEntry_absent (h i hi)

/-- The hypotheses of the copy do not depend on what was written before. -/
theorem InUse.watch (h : InUse s src) : InUse s.watch src :=
  ⟨⟨h.held.aligned, h.held.nonzero, h.held.not_free, h.held.table_nonzero,
    h.held.table_not_free⟩, h.user⟩

end

/-- **`clone_directory` fails cleanly exactly when it does not fail**: when the source
has no entry at all, or when the pools hold a folder for the directory and for
every cloned table and a frame for every user page. -/
theorem cloneDirectory_clean_iff {s : Paging} {src : UDword} (h : InUse s src) :
    CleanClone s.watch src (cloneDirectory src s.watch).2 (cloneDirectory src s.watch).1 ↔
      (∀ i < 1024, (s.mem.entry src i).present = false) ∨
        1 + clonedTables s.mem src ≤ (freeFolders s).card ∧
          userPageCount s.mem src ≤ (freeFrames s).card := by
  have hwatch := h.watch
  rw [← clonedPages_eq]
  constructor
  · intro hclean
    by_cases hnone : ∀ i < 1024, (s.mem.entry src i).present = false
    · exact Or.inl hnone
    right
    push Not at hnone
    rcases hnone with ⟨i, hi, hpresent⟩
    rw [Bool.ne_false_iff] at hpresent
    rcases cloneDirectory_counts hwatch.held with ⟨-, -, hframes, hnull, hfolders⟩
    constructor
    · by_contra hshort
      by_cases hdir : (cloneDirectory src s.watch).1 = 0
      · -- the directory itself is at address 0
        rcases hnull hdir ⟨i, hi, hpresent⟩ with ⟨a, ha, hpage⟩
        exact not_inPools_of_pageZero hpage (hclean.writes a ha)
      · -- a table is at address 0
        rcases hfolders hdir (Nat.lt_of_not_le hshort) with ⟨j, hj, hc, hentry⟩
        unfold isCloned at hc
        rw [Bool.and_eq_true] at hc
        have hframe := hclean.tables hdir j hj (by rw [hentry]; exact hc.1)
        rw [hentry] at hframe
        rcases hframe with hsame | hnew
        · exact hwatch.held.table_nonzero j hj hc.1 (congrArg BitVec.toNat hsame.symm)
        · exact not_newlyAllocated_zero hnew
    · by_contra hshort
      exact not_inPools_of_pageZero (by decide)
        (hclean.writes 0 (hframes (Nat.lt_of_not_le hshort)))
  · intro hcond
    by_cases henough : 1 + clonedTables s.mem src ≤ (freeFolders s).card ∧
        clonedPages s.mem src ≤ (freeFrames s).card
    · rcases cloneDirectory_spec hwatch.held hwatch.userFrames henough.1 henough.2 with
        ⟨d, heq, -, -, hevolves, hcopy⟩
      rw [← heq] at hcopy
      exact hcopy.clean hwatch.held (hevolves.inPools rfl)
    · -- nothing to clone, and no folder for the directory
      have hnone := hcond.resolve_right henough
      rcases no_tables_of_absent hnone with ⟨hT, hF⟩
      rw [hT, hF] at henough
      have hempty : freeFolders s = ∅ := Finset.card_eq_zero.mp (by omega)
      have hclone : cloneDirectory src s.watch = (0, s.watch) := by
        rcases allocatePageFolder_spec s.watch with ⟨-, heq⟩ | ⟨d, s₁, -, htakes⟩
        · unfold cloneDirectory
          rw [heq]
          exact congrArg (Prod.mk 0) (loop_cloneDirectoryEntry_absent hnone)
        · exact absurd htakes.was_free (hempty ▸ Finset.notMem_empty d)
      rw [hclone]
      refine ⟨?_, fun hdir => absurd rfl hdir, fun hdir => absurd rfl hdir⟩
      intro a ha
      cases ha

theorem cloneDirectory_clean_onePage :
    CleanClone onePageState.watch (pageStart 0x100)
      (cloneDirectory (pageStart 0x100) onePageState.watch).2
      (cloneDirectory (pageStart 0x100) onePageState.watch).1 :=
  (cloneDirectory_clean_iff allocated_onePageState.inUse).mpr (Or.inr enough_onePageState)

/-- The same directory with both pools exhausted. -/
def exhausted : Paging where
  mem := onePage
  pagingPool := ⟨fun _ => 0xff⟩
  userSpacePool := ⟨fun _ => 0xff⟩

theorem free_exhausted : free exhausted = ∅ := by
  have hbits : ∀ b < 8, (0xff#8).getLsbD b = true := by decide
  have hfolders : Bitmap.free exhausted.pagingPool.bytes pagingPoolSize = ∅ :=
    Bitmap.free_eq_empty fun _ _ => hbits
  have hframes : Bitmap.free exhausted.userSpacePool.bytes userSpacePoolSize = ∅ :=
    Bitmap.free_eq_empty fun _ _ => hbits
  unfold free freeFolders freeFrames
  rw [hfolders, hframes]
  rfl

/-- With exhausted pools the new directory is written over page 0. -/
theorem cloneDirectory_writes_pageZero :
    ¬ CleanClone exhausted.watch (pageStart 0x100)
      (cloneDirectory (pageStart 0x100) exhausted.watch).2
      (cloneDirectory (pageStart 0x100) exhausted.watch).1 := by
  intro hclean
  have hnot : ∀ n, n ∉ free exhausted := by
    intro n
    rw [free_exhausted]
    exact Finset.notMem_empty n
  have hheld := (onePage_allocated rfl (hnot _) (hnot _) (hnot _)).inUse.watch.held
  have hempty : freeFolders exhausted.watch = ∅ :=
    Finset.subset_empty.mp fun n hn => absurd (mem_free.mpr (Or.inl hn)) (hnot n)
  have hdir : (cloneDirectory (pageStart 0x100) exhausted.watch).1 = 0 := by
    rcases allocatePageFolder_spec exhausted.watch with ⟨-, heq⟩ | ⟨d, s₁, -, htakes⟩
    · unfold cloneDirectory
      rw [heq]
    · exact absurd htakes.was_free (hempty ▸ Finset.notMem_empty d)
  have hentry : exhausted.watch.mem.entry (pageStart 0x100) 0 = onePageTable :=
    onePage_directory (by decide)
  rcases cloneDirectory_counts hheld with ⟨-, -, -, hnull, -⟩
  rcases hnull hdir ⟨0, by decide, by rw [hentry]; rfl⟩ with ⟨a, ha, hpage⟩
  exact not_inPools_of_pageZero hpage (hclean.writes a ha)

end MushOS
