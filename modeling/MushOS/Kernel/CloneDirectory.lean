import MushOS.Kernel.CloneTable

/-! # clone_directory, table by table

The same three results one level up:

* `evolves_cloneDirectory`: the footprint of any call, for any source;
* `cloneDirectory_counts`: what it takes from the pools, and the traces a shortage
  leaves;
* `cloneDirectory_spec`: with enough free slots the new directory is a copy, its
  user pages with a frame each.

The last two are about a source that is `Held`: its directory and its tables do
not lie in page 0 nor in free slots.
-/

namespace MushOS

open ByteMemory Loop

/-! ## One entry -/

/-- `contains_user_pages` looks at the user bits of all entries. -/
theorem containsUserPages_iff (folder : PagePointer) (m : Mem) :
    containsUserPages folder m = true ↔
      ∃ j < 1024, (m.entry (pageStart folder.frame.toNat) j).user = true := by
  have hloop : ∀ n, loop (fun i contains => contains ||
      (m.entry (getContentsAsPage folder) i).user) n false = true ↔
      ∃ j < n, (m.entry (pageStart folder.frame.toNat) j).user = true := by
    intro n
    induction n with
    | zero => simp [loop]
    | succ n ih =>
      rw [loop, Bool.or_eq_true, ih, getContentsAsPage_eq]
      constructor
      · rintro (⟨j, hj, hu⟩ | hu)
        · exact ⟨j, by omega, hu⟩
        · exact ⟨n, by omega, hu⟩
      · rintro ⟨j, hj, hu⟩
        by_cases hjn : j = n
        · subst hjn
          exact Or.inr hu
        · exact Or.inl ⟨j, by omega, hu⟩
  exact hloop pagesInTable

/-- The table behind the directory entry `e` is cloned, not shared. -/
def isCloned (m : Mem) (e : PagePointer) : Bool :=
  e.present && (e.user || containsUserPages e m)

/-- Whether a table is cloned depends on its page only. -/
theorem isCloned_congr {m m' : Mem} {e : PagePointer}
    (h : ∀ j < 1024, m'.entry (pageStart e.frame.toNat) j = m.entry (pageStart e.frame.toNat) j) :
    isCloned m' e = isCloned m e := by
  have hcontains : containsUserPages e m' = containsUserPages e m := by
    rw [Bool.eq_iff_iff, containsUserPages_iff, containsUserPages_iff]
    constructor
    · rintro ⟨j, hj, hu⟩
      rw [h j hj] at hu
      exact ⟨j, hj, hu⟩
    · rintro ⟨j, hj, hu⟩
      rw [← h j hj] at hu
      exact ⟨j, hj, hu⟩
  unfold isCloned
  rw [hcontains]

theorem userPages_congr {m m' : Mem} {e : PagePointer}
    (h : ∀ j < 1024, m'.entry (pageStart e.frame.toNat) j = m.entry (pageStart e.frame.toNat) j) :
    userPages m' e = userPages m e := by
  have hto : ∀ n ≤ 1024, userPagesTo m' e n = userPagesTo m e n := by
    intro n hn
    induction n with
    | zero => simp [userPagesTo]
    | succ n ih =>
      rw [userPagesTo_succ, userPagesTo_succ, ih (by omega), h n (by omega)]
  exact hto 1024 (le_refl _)

section Entry
variable {s : Paging} {src dir : UDword} {i d : ℕ} {W : Set ℕ}

theorem cloneDirectoryEntry_absent (h : (s.mem.entry src i).present = false) :
    cloneDirectoryEntry src dir i s = s := by
  unfold cloneDirectoryEntry
  rw [if_pos h]

theorem cloneDirectoryEntry_shared (h : (s.mem.entry src i).present = true)
    (hc : isCloned s.mem (s.mem.entry src i) = false) :
    cloneDirectoryEntry src dir i s =
      { s with mem := s.mem.setEntry dir i (s.mem.entry src i) } := by
  unfold isCloned at hc
  rw [h, Bool.true_and] at hc
  unfold cloneDirectoryEntry
  rw [if_neg (by simp [h]), if_neg (by simp [hc])]

theorem cloneDirectoryEntry_cloned (hc : isCloned s.mem (s.mem.entry src i) = true) :
    cloneDirectoryEntry src dir i s =
      { (cloneTable (s.mem.entry src i) s).2 with
        mem := (cloneTable (s.mem.entry src i) s).2.mem.setEntry dir i
          (cloneTable (s.mem.entry src i) s).1 } := by
  unfold isCloned at hc
  rw [Bool.and_eq_true] at hc
  unfold cloneDirectoryEntry
  rw [if_neg (by simp [hc.1]), if_pos hc.2]

/-- The footprint of one entry. -/
theorem evolves_cloneDirectoryEntry (src : UDword) (s : Paging) (hd : d < 2 ^ 20)
    (hdW : d ∈ W) (h0 : 0 ∈ W) (hi : i < 1024) :
    Evolves W s (cloneDirectoryEntry src (pageStart d) i s) := by
  have hset : ∀ (s : Paging) p, Evolves W s
      { s with mem := s.mem.setEntry (pageStart d) i p } := by
    intro s p
    refine (Evolves.of_writes (writes_setEntry s.mem hd hi)).mono ?_
    rintro n rfl
    exact hdW
  by_cases hpresent : (s.mem.entry src i).present = false
  · rw [cloneDirectoryEntry_absent hpresent]
    exact Evolves.refl W s
  rw [Bool.not_eq_false] at hpresent
  by_cases hc : isCloned s.mem (s.mem.entry src i) = true
  · rw [cloneDirectoryEntry_cloned hc]
    refine ((evolves_cloneTable (s.mem.entry src i) s).mono ?_).trans (hset _ _)
    rintro n rfl
    exact h0
  · rw [Bool.not_eq_true] at hc
    rw [cloneDirectoryEntry_shared hpresent hc]
    exact hset _ _

end Entry

/-- **The footprint of `clone_directory`**, whatever the source and the pools: pages
it has taken, and page 0. -/
theorem evolves_cloneDirectory (src : UDword) (s : Paging) :
    Evolves {0} s (cloneDirectory src s).2 := by
  rcases allocatePageFolder_cases s with ⟨d, s₁, heq, hfolder⟩
  unfold cloneDirectory
  rw [heq]
  show Evolves {0} s (loop (cloneDirectoryEntry src (pageStart d)) pagesInTable s₁)
  refine hfolder.absorb ?_
  refine loop_induction (P := fun _ s' => Evolves {0, d} s₁ s') (Evolves.refl _ s₁) ?_
  intro i s' hi hs'
  exact hs'.trans (evolves_cloneDirectoryEntry src s' hfolder.lt (by simp) (by simp) hi)

/-! ## Counting -/

/-- How many of the first `n` tables are cloned. -/
def clonedTablesTo (m : Mem) (src : UDword) (n : ℕ) : ℕ :=
  Nat.count (fun i => isCloned m (m.entry src i) = true) n

/-- The frames of the user pages of the first `n` tables. -/
def clonedPagesTo (m : Mem) (src : UDword) (n : ℕ) : ℕ :=
  ∑ i ∈ Finset.range n, if isCloned m (m.entry src i) then userPages m (m.entry src i) else 0

/-- The tables `clone_directory` clones. -/
def clonedTables (m : Mem) (src : UDword) : ℕ := clonedTablesTo m src pagesInTable

/-- The user pages `clone_directory` copies. -/
def clonedPages (m : Mem) (src : UDword) : ℕ := clonedPagesTo m src pagesInTable

theorem clonedTablesTo_succ (m : Mem) (src : UDword) (n : ℕ) :
    clonedTablesTo m src (n + 1) = clonedTablesTo m src n +
      if isCloned m (m.entry src n) then 1 else 0 := by
  unfold clonedTablesTo
  rw [Nat.count_succ]

theorem clonedPagesTo_succ (m : Mem) (src : UDword) (n : ℕ) :
    clonedPagesTo m src (n + 1) = clonedPagesTo m src n +
      if isCloned m (m.entry src n) then userPages m (m.entry src n) else 0 := by
  unfold clonedPagesTo
  rw [Finset.sum_range_succ]

theorem clonedTablesTo_le (m : Mem) (src : UDword) {n : ℕ} (hn : n ≤ 1024) :
    clonedTablesTo m src n ≤ clonedTables m src :=
  Nat.count_monotone _ hn

theorem clonedPagesTo_le (m : Mem) (src : UDword) {n : ℕ} (hn : n ≤ 1024) :
    clonedPagesTo m src n ≤ clonedPages m src := by
  unfold clonedPages pagesInTable clonedPagesTo
  apply Finset.sum_le_sum_of_subset
  exact Finset.range_mono hn

/-- The directory `src` and its tables lie neither in page 0 nor in a free slot. -/
structure Held (s : Paging) (src : UDword) : Prop where
  aligned : src.toNat % 4096 = 0
  nonzero : pageOf src ≠ 0
  not_free : pageOf src ∉ free s
  table_nonzero : ∀ i < 1024, (s.mem.entry src i).present = true →
    (s.mem.entry src i).frame.toNat ≠ 0
  table_not_free : ∀ i < 1024, (s.mem.entry src i).present = true →
    (s.mem.entry src i).frame.toNat ∉ free s

section Held
variable {W : Set ℕ} {s s' : Paging} {src : UDword} {i : ℕ}

theorem Held.src_eq (h : Held s src) : src = pageStart (pageOf src) := eq_pageStart h.aligned

/-- The entries of a held directory do not change on the way. -/
theorem Held.entry (h : Held s src) (hevolves : Evolves W s s') (hW : pageOf src ∉ W)
    (hi : i < 1024) : s'.mem.entry src i = s.mem.entry src i := by
  have hentry := hevolves.entry (pageOf_lt src) hW h.not_free hi
  rwa [← h.src_eq] at hentry

/-- Nor do the entries of its tables. -/
theorem Held.table_entry (h : Held s src) (hevolves : Evolves W s s') (hi : i < 1024)
    (hpresent : (s.mem.entry src i).present = true)
    (hW : (s.mem.entry src i).frame.toNat ∉ W) {j : ℕ} (hj : j < 1024) :
    s'.mem.entry (pageStart (s.mem.entry src i).frame.toNat) j =
      s.mem.entry (pageStart (s.mem.entry src i).frame.toNat) j :=
  hevolves.entry (frame_lt _) hW (h.table_not_free i hi hpresent) hj

/-- It stays held. -/
theorem Held.later (h : Held s src) (hevolves : Evolves W s s') (hW : pageOf src ∉ W) :
    Held s' src := by
  refine ⟨h.aligned, h.nonzero, fun hmem => h.not_free (hevolves.free hmem), ?_, ?_⟩
  · intro i hi hpresent
    rw [h.entry hevolves hW hi] at hpresent ⊢
    exact h.table_nonzero i hi hpresent
  · intro i hi hpresent hmem
    rw [h.entry hevolves hW hi] at hpresent hmem
    exact h.table_not_free i hi hpresent (hevolves.free hmem)

/-- Whether an entry is cloned, and for how many frames, does not change either. -/
theorem Held.cloned (h : Held s src) (hevolves : Evolves W s s') (hW : pageOf src ∉ W)
    (hi : i < 1024) (htW : (s.mem.entry src i).present = true →
      (s.mem.entry src i).frame.toNat ∉ W) :
    isCloned s'.mem (s'.mem.entry src i) = isCloned s.mem (s.mem.entry src i) ∧
      ((s.mem.entry src i).present = true →
        userPages s'.mem (s'.mem.entry src i) = userPages s.mem (s.mem.entry src i)) := by
  rw [h.entry hevolves hW hi]
  by_cases hpresent : (s.mem.entry src i).present = true
  · have htable := fun j hj => h.table_entry hevolves hi hpresent (htW hpresent) (j := j) hj
    exact ⟨isCloned_congr htable, fun _ => userPages_congr htable⟩
  · rw [Bool.not_eq_true] at hpresent
    refine ⟨?_, fun hp => absurd hp (by simp [hpresent])⟩
    unfold isCloned
    rw [hpresent, Bool.false_and, Bool.false_and]

/-- What cloning it takes does not change. -/
theorem Held.sums (h : Held s src) (hevolves : Evolves ∅ s s') {n : ℕ} (hn : n ≤ 1024) :
    clonedTablesTo s'.mem src n = clonedTablesTo s.mem src n ∧
      clonedPagesTo s'.mem src n = clonedPagesTo s.mem src n := by
  induction n with
  | zero => simp [clonedTablesTo, clonedPagesTo]
  | succ n ih =>
    rcases ih (by omega) with ⟨hT, hF⟩
    rcases h.cloned hevolves (Set.notMem_empty _) (i := n) (by omega)
      fun _ => Set.notMem_empty _ with ⟨hc, hu⟩
    rw [clonedTablesTo_succ, clonedTablesTo_succ, clonedPagesTo_succ, clonedPagesTo_succ, hT, hF,
      hc]
    refine ⟨rfl, ?_⟩
    by_cases hcl : isCloned s.mem (s.mem.entry src n) = true
    · have hpresent : (s.mem.entry src n).present = true := by
        unfold isCloned at hcl
        rw [Bool.and_eq_true] at hcl
        exact hcl.1
      rw [if_pos hcl, if_pos hcl, hu hpresent]
    · rw [if_neg hcl, if_neg hcl]

end Held

section Counts
variable {s : Paging} {src dir : UDword} {i : ℕ}

/-- What one entry takes, and what it leaves behind. -/
theorem cloneDirectoryEntry_counts (h : Held s src) (dir : UDword) (hi : i < 1024) :
    (freeFolders (cloneDirectoryEntry src dir i s)).card =
        (freeFolders s).card - (if isCloned s.mem (s.mem.entry src i) then 1 else 0) ∧
      (freeFrames (cloneDirectoryEntry src dir i s)).card = (freeFrames s).card -
        (if isCloned s.mem (s.mem.entry src i) then userPages s.mem (s.mem.entry src i) else 0) ∧
      (isCloned s.mem (s.mem.entry src i) = true →
        (freeFrames s).card < userPages s.mem (s.mem.entry src i) →
        0 ∈ (cloneDirectoryEntry src dir i s).mem.written) ∧
      ((s.mem.entry src i).present = true →
        entryAddress dir i ∈ (cloneDirectoryEntry src dir i s).mem.written) ∧
      (isCloned s.mem (s.mem.entry src i) = true → freeFolders s = ∅ →
        (cloneDirectoryEntry src dir i s).mem.entry dir i =
          { s.mem.entry src i with frame := 0 }) := by
  by_cases hpresent : (s.mem.entry src i).present = true
  · by_cases hc : isCloned s.mem (s.mem.entry src i) = true
    · -- a table with a user page is cloned
      rcases cloneTable_counts (h.table_nonzero i hi hpresent) (h.table_not_free i hi hpresent) with
        ⟨hfolders, hframes, hshort, hnull⟩
      rw [cloneDirectoryEntry_cloned hc, if_pos hc, if_pos hc, freeFolders_mem, freeFrames_mem]
      refine ⟨hfolders, hframes, ?_, ?_, ?_⟩
      · intro _ hlt
        exact written_setEntry (hshort hlt) _ _ _
      · intro _
        exact entryAddress_mem_written _ _ _ _
      · intro _ hempty
        rw [entry_setEntry_self]
        exact hnull hempty
    · -- a table of the kernel is shared
      rw [Bool.not_eq_true] at hc
      rw [cloneDirectoryEntry_shared hpresent hc, hc, if_neg (by decide), if_neg (by decide),
        freeFolders_mem, freeFrames_mem, Nat.sub_zero, Nat.sub_zero]
      refine ⟨rfl, rfl, ?_, ?_, ?_⟩
      · intro hcon
        cases hcon
      · intro _
        exact entryAddress_mem_written _ _ _ _
      · intro hcon
        cases hcon
  · -- an absent entry takes nothing
    rw [Bool.not_eq_true] at hpresent
    have hc : isCloned s.mem (s.mem.entry src i) = false := by
      unfold isCloned
      rw [hpresent, Bool.false_and]
    rw [cloneDirectoryEntry_absent hpresent, hc, if_neg (by decide), if_neg (by decide),
      Nat.sub_zero, Nat.sub_zero]
    refine ⟨rfl, rfl, ?_, ?_, ?_⟩
    · intro hcon
      cases hcon
    · intro hcon
      rw [hpresent] at hcon
      cases hcon
    · intro hcon
      cases hcon

/-- What has been taken after `n` iterations from the state `s₁`, and the traces of a
shortage. -/
structure DirectoryCounts (s₁ : Paging) (src : UDword) (d n : ℕ) (s : Paging) : Prop where
  evolves : Evolves {0, d} s₁ s
  folders : (freeFolders s).card = (freeFolders s₁).card - clonedTablesTo s₁.mem src n
  frames : (freeFrames s).card = (freeFrames s₁).card - clonedPagesTo s₁.mem src n
  short_frames : (freeFrames s₁).card < clonedPagesTo s₁.mem src n → 0 ∈ s.mem.written
  null_directory : d = 0 → (∃ i < n, (s₁.mem.entry src i).present = true) →
    ∃ a ∈ s.mem.written, pageOf a = 0
  short_folders : d ≠ 0 → (freeFolders s₁).card < clonedTablesTo s₁.mem src n →
    ∃ i < n, isCloned s₁.mem (s₁.mem.entry src i) = true ∧
      s.mem.entry (pageStart d) i = { s₁.mem.entry src i with frame := 0 }

theorem DirectoryCounts.zero (s₁ : Paging) (src : UDword) (d : ℕ) :
    DirectoryCounts s₁ src d 0 s₁ := by
  refine ⟨Evolves.refl _ _, ?_, ?_, ?_, ?_, ?_⟩
  · simp [clonedTablesTo]
  · simp [clonedPagesTo]
  · simp [clonedPagesTo]
  · rintro - ⟨i, hi, -⟩
    omega
  · simp [clonedTablesTo]

theorem DirectoryCounts.step {s₁ s' : Paging} {d : ℕ} (h : DirectoryCounts s₁ src d i s')
    (hheld : Held s₁ src) (hd : d < 2 ^ 20) (hdfree : d ≠ 0 → d ∉ free s₁)
    (hsrc : pageOf src ≠ d)
    (htables : ∀ j < 1024, (s₁.mem.entry src j).present = true →
      (s₁.mem.entry src j).frame.toNat ≠ d) (hi : i < 1024) :
    DirectoryCounts s₁ src d (i + 1) (cloneDirectoryEntry src (pageStart d) i s') := by
  have hW : pageOf src ∉ ({0, d} : Set ℕ) := by simp [hheld.nonzero, hsrc]
  have hentry := hheld.entry h.evolves hW hi
  rcases hheld.cloned h.evolves hW hi (by
    intro hpresent
    simp [hheld.table_nonzero i hi hpresent, htables i hi hpresent]) with ⟨hcloned, huser⟩
  have hstep := evolves_cloneDirectoryEntry (W := {0, d}) src s' hd (by simp) (by simp) hi
  rcases cloneDirectoryEntry_counts (hheld.later h.evolves hW) (pageStart d) hi with
    ⟨hfolders, hframes, hshort, hwritten, hnull⟩
  have hpages : (if isCloned s'.mem (s'.mem.entry src i) then
        userPages s'.mem (s'.mem.entry src i) else 0) =
      if isCloned s₁.mem (s₁.mem.entry src i) then
        userPages s₁.mem (s₁.mem.entry src i) else 0 := by
    rw [hcloned]
    split
    · rename_i hc
      unfold isCloned at hc
      rw [Bool.and_eq_true] at hc
      exact huser hc.1
    · rfl
  refine ⟨h.evolves.trans hstep, ?_, ?_, ?_, ?_, ?_⟩
  · rw [hfolders, h.folders, hcloned, clonedTablesTo_succ]
    omega
  · rw [hframes, h.frames, hpages, clonedPagesTo_succ]
    omega
  · intro hlt
    by_cases hbefore : (freeFrames s₁).card < clonedPagesTo s₁.mem src i
    · exact hstep.kept (h.short_frames hbefore)
    · -- the frames run out inside this table
      rw [clonedPagesTo_succ, ← hpages] at hlt
      have hframes' := h.frames
      by_cases hc : isCloned s'.mem (s'.mem.entry src i) = true
      · rw [if_pos hc] at hlt
        exact hshort hc (by omega)
      · rw [if_neg hc] at hlt
        omega
  · rintro rfl ⟨j, hj, hpresent⟩
    by_cases hji : j = i
    · subst hji
      rw [← hentry] at hpresent
      refine ⟨_, hwritten hpresent, ?_⟩
      unfold pageOf
      rw [toNat_entryAddress (by decide) hi]
      omega
    · rcases h.null_directory rfl ⟨j, by omega, hpresent⟩ with ⟨a, ha, hpage⟩
      exact ⟨a, hstep.kept ha, hpage⟩
  · intro hd0 hlt
    by_cases hbefore : (freeFolders s₁).card < clonedTablesTo s₁.mem src i
    · -- a null table of an earlier iteration stays where it is
      rcases h.short_folders hd0 hbefore with ⟨j, hj, hc, hnullj⟩
      refine ⟨j, by omega, hc, ?_⟩
      rw [← hnullj]
      have hother : ∀ s p, (Mem.setEntry s (pageStart d) i p).entry (pageStart d) j =
          s.entry (pageStart d) j := by
        intro s p
        exact entry_setEntry_ne s hd hi (by omega) (by omega)
      by_cases hpresent : (s'.mem.entry src i).present = false
      · rw [cloneDirectoryEntry_absent hpresent]
      rw [Bool.not_eq_false] at hpresent
      by_cases hc' : isCloned s'.mem (s'.mem.entry src i) = true
      · rw [cloneDirectoryEntry_cloned hc', hother]
        refine (evolves_cloneTable _ s').entry hd (by simpa using hd0) ?_ (by omega)
        intro hmem
        exact hdfree hd0 (h.evolves.free hmem)
      · rw [Bool.not_eq_true] at hc'
        rw [cloneDirectoryEntry_shared hpresent hc', hother]
    · rw [clonedTablesTo_succ, ← hcloned] at hlt
      have hfolders' := h.folders
      by_cases hc : isCloned s'.mem (s'.mem.entry src i) = true
      · rw [if_pos hc] at hlt
        refine ⟨i, by omega, hcloned ▸ hc, ?_⟩
        rw [hnull hc (Finset.card_eq_zero.mp (by omega)), hentry]
      · rw [if_neg hc] at hlt
        omega

/-- **What `clone_directory` takes**, for every held source and whatever the pools
hold, and what a shortage leaves behind: a write into page 0, or a present entry
of the new directory that points at it. -/
theorem cloneDirectory_counts (h : Held s src) :
    (freeFolders (cloneDirectory src s).2).card =
        (freeFolders s).card - (1 + clonedTables s.mem src) ∧
      (freeFrames (cloneDirectory src s).2).card =
        (freeFrames s).card - clonedPages s.mem src ∧
      ((freeFrames s).card < clonedPages s.mem src →
        0 ∈ (cloneDirectory src s).2.mem.written) ∧
      ((cloneDirectory src s).1 = 0 → (∃ i < 1024, (s.mem.entry src i).present = true) →
        ∃ a ∈ (cloneDirectory src s).2.mem.written, pageOf a = 0) ∧
      ((cloneDirectory src s).1 ≠ 0 → (freeFolders s).card < 1 + clonedTables s.mem src →
        ∃ i < 1024, isCloned s.mem (s.mem.entry src i) = true ∧
          (cloneDirectory src s).2.mem.entry (cloneDirectory src s).1 i =
            { s.mem.entry src i with frame := 0 }) := by
  -- folder 0 stands for the null address of a failed allocation
  rcases allocatePageFolder_cases s with ⟨d, s₁, heq, hfolder⟩
  have hclone : cloneDirectory src s =
      (pageStart d, loop (cloneDirectoryEntry src (pageStart d)) pagesInTable s₁) := by
    unfold cloneDirectory
    rw [heq]
  have hsrc := hfolder.ne h.nonzero h.not_free
  have hevolves := hfolder.evolves
  have hheld := h.later hevolves (Set.notMem_empty _)
  have hentry : ∀ i < 1024, s₁.mem.entry src i = s.mem.entry src i :=
    fun i hi => h.entry hevolves (Set.notMem_empty _) hi
  have hcloned : ∀ i < 1024, _ := fun i hi =>
    h.cloned hevolves (Set.notMem_empty _) hi fun _ => Set.notMem_empty _
  have htables : ∀ j < 1024, (s₁.mem.entry src j).present = true →
      (s₁.mem.entry src j).frame.toNat ≠ d := by
    intro j hj hpresent
    rw [hentry j hj] at hpresent ⊢
    exact hfolder.ne (h.table_nonzero j hj hpresent) (h.table_not_free j hj hpresent)
  have hdfree : d ≠ 0 → d ∉ free s₁ := by
    intro hd0
    rcases hfolder with ⟨-, hd, -⟩ | htakes
    · exact absurd hd hd0
    · exact htakes.not_free
  have hloop : ∀ n ≤ 1024, DirectoryCounts s₁ src d n
      (loop (cloneDirectoryEntry src (pageStart d)) n s₁) := by
    intro n hn
    refine loop_induction (P := fun i s' => DirectoryCounts s₁ src d i s') ?_ ?_
    · exact DirectoryCounts.zero s₁ src d
    · intro i s' hi hs'
      exact hs'.step hheld hfolder.lt hdfree hsrc htables (by omega)
  have hdone := hloop pagesInTable (le_refl _)
  rw [show loop (cloneDirectoryEntry src (pageStart d)) pagesInTable s₁ =
    (cloneDirectory src s).2 by rw [hclone]] at hdone
  rcases h.sums hevolves (le_refl pagesInTable) with ⟨hT', hF'⟩
  have hcardFolders := hfolder.card_folders
  have hcardFrames := congrArg Finset.card hfolder.frames
  have hdir : (cloneDirectory src s).1 = pageStart d := by rw [hclone]
  refine ⟨?_, ?_, ?_, ?_, ?_⟩
  · rw [hdone.folders, hT', hcardFolders]
    unfold clonedTables
    omega
  · rw [hdone.frames, hF', hcardFrames]
    rfl
  · intro hlt
    refine hdone.short_frames ?_
    rw [hF', hcardFrames]
    exact hlt
  · rintro hnull ⟨i, hi, hpresent⟩
    rw [hdir, pageStart_eq_zero hfolder.lt] at hnull
    refine hdone.null_directory hnull ⟨i, hi, ?_⟩
    rw [hentry i hi]
    exact hpresent
  · intro hnonnull hlt
    rw [hdir, Ne, pageStart_eq_zero hfolder.lt] at hnonnull
    have hne : (freeFolders s).card ≠ 0 := by
      rcases hfolder with ⟨-, hd, -⟩ | htakes
      · exact absurd hd hnonnull
      · exact Finset.card_ne_zero_of_mem htakes.was_free
    have hlt' : (freeFolders s₁).card < clonedTablesTo s₁.mem src pagesInTable := by
      rw [hT', hcardFolders]
      unfold clonedTables at hlt
      omega
    rcases hdone.short_folders hnonnull hlt' with ⟨i, hi, hc, hnulli⟩
    have hi' : i < 1024 := hi
    refine ⟨i, hi', ?_, ?_⟩
    · rw [← (hcloned i hi').1]
      exact hc
    · rw [hdir, hnulli, hentry i hi']

end Counts

/-! ## The copy -/

/-- The directory entry `e'` in `s` is a copy of the entry `e` in `s₀`. -/
structure TablePointerCopy (s₀ s : Paging) (e e' : PagePointer) : Prop where
  absent : e.present = false → e' = PagePointer.absent
  shared : e.present = true → isCloned s₀.mem e = false → e' = e
  flags : isCloned s₀.mem e = true → e'.flags = e.flags
  was_free : isCloned s₀.mem e = true → e'.frame.toNat ∈ freeFolders s₀
  taken : isCloned s₀.mem e = true → e'.frame.toNat ∉ free s
  table : isCloned s₀.mem e = true →
    TableCopy s₀ e.user s e.frame.toNat e'.frame.toNat

/-- Entry `a` of table `j` of the directory `src` is a user page (and its table is one
that is cloned). -/
def isUserAt (m : Mem) (src : UDword) (j a : ℕ) : Bool :=
  isCloned m (m.entry src j) && isUserPage (m.entry src j).user
    (m.entry (pageStart (m.entry src j).frame.toNat) a)

/-- The frame of entry `a` of table `j`. -/
def frameAt (m : Mem) (dir : UDword) (j a : ℕ) : ℕ :=
  (m.entry (pageStart (m.entry dir j).frame.toNat) a).frame.toNat

/-- The frames of the user pages of a source are not free. -/
def UserFramesHeld (s : Paging) (src : UDword) : Prop :=
  ∀ j < 1024, ∀ a < 1024, isUserAt s.mem src j a = true → frameAt s.mem src j a ∉ free s

/-- The first `n` entries of the directory `dir` in `s` are copies of those of `src`
in `s₀`, and their user pages have a frame each. -/
structure DirectoryCopy (s₀ : Paging) (src : UDword) (s : Paging) (dir : UDword) (n : ℕ) :
    Prop where
  entries : ∀ j < n, TablePointerCopy s₀ s (s₀.mem.entry src j) (s.mem.entry dir j)
  distinct : ∀ j < n, ∀ j' < n, ∀ a < 1024, ∀ a' < 1024, (j ≠ j' ∨ a ≠ a') →
    isUserAt s₀.mem src j a = true → isUserAt s₀.mem src j' a' = true →
    frameAt s.mem dir j a ≠ frameAt s.mem dir j' a'

section DirectoryCopy
variable {W : Set ℕ} {s₀ s₁ s s' : Paging} {src dir : UDword} {e e' : PagePointer} {d i n : ℕ}

/-- A copied entry stays a copy, as long as its table is left alone. -/
theorem TablePointerCopy.later (h : TablePointerCopy s₀ s e e') (hevolves : Evolves W s s')
    (hW : ∀ n ∈ free s₀, n ∉ W) : TablePointerCopy s₀ s' e e' := by
  refine ⟨h.absent, h.shared, h.flags, h.was_free, ?_, ?_⟩
  · intro hc hmem
    exact h.taken hc (hevolves.free hmem)
  · intro hc
    refine (h.table hc).later hevolves ?_ (frame_lt e') ?_ (h.taken hc)
    · intro n hn
      exact hW n (mem_free.mpr (Or.inr hn))
    · exact hW _ (mem_free.mpr (Or.inl (h.was_free hc)))

/-- The frames of a copied table are where they were. -/
theorem TablePointerCopy.frame_later (h : TablePointerCopy s₀ s e e')
    (hevolves : Evolves W s s') (hW : ∀ n ∈ free s₀, n ∉ W) (hc : isCloned s₀.mem e = true)
    {a : ℕ} (ha : a < 1024) : s'.mem.entry (pageStart e'.frame.toNat) a =
      s.mem.entry (pageStart e'.frame.toNat) a :=
  hevolves.entry (frame_lt e') (hW _ (mem_free.mpr (Or.inl (h.was_free hc)))) (h.taken hc) ha

/-- What has been copied after `n` iterations of the loop of `clone_directory`, from
the state `s₁` in which the new directory `d` is clear. -/
structure DirectoryLoop (s₁ : Paging) (src : UDword) (d n : ℕ) (s : Paging) : Prop where
  evolves : Evolves {d} s₁ s
  copy : DirectoryCopy s₁ src s (pageStart d) n
  rest : ∀ j, n ≤ j → j < 1024 → s.mem.entry (pageStart d) j = PagePointer.absent

/-- A step that writes entry `i` of the new directory only. -/
theorem DirectoryLoop.extend (h : DirectoryLoop s₁ src d i s) (hevolves : Evolves {d} s s')
    (hd : d ∉ free s₁)
    (hothers : ∀ j < 1024, j ≠ i → s'.mem.entry (pageStart d) j = s.mem.entry (pageStart d) j)
    (hnew : TablePointerCopy s₁ s' (s₁.mem.entry src i) (s'.mem.entry (pageStart d) i))
    (hfresh : ∀ a < 1024, isUserAt s₁.mem src i a = true →
      frameAt s'.mem (pageStart d) i a ∈ freeFrames s) (hi : i < 1024) :
    DirectoryLoop s₁ src d (i + 1) s' := by
  have hW : ∀ n ∈ free s₁, n ∉ ({d} : Set ℕ) := by
    rintro n hn rfl
    exact hd hn
  have hcloned : ∀ {j a}, isUserAt s₁.mem src j a = true →
      isCloned s₁.mem (s₁.mem.entry src j) = true ∧ isUserPage (s₁.mem.entry src j).user
        (s₁.mem.entry (pageStart (s₁.mem.entry src j).frame.toNat) a) = true := by
    intro j a hu
    unfold isUserAt at hu
    rwa [Bool.and_eq_true] at hu
  -- the frames of the tables before this one have not moved, and are not free
  have hold : ∀ j < i, ∀ a < 1024, isUserAt s₁.mem src j a = true →
      frameAt s'.mem (pageStart d) j a = frameAt s.mem (pageStart d) j a ∧
        frameAt s.mem (pageStart d) j a ∉ freeFrames s := by
    intro j hj a ha hu
    rcases hcloned hu with ⟨hc, hpage⟩
    have hcopy := h.copy.entries j hj
    unfold frameAt
    rw [hothers j (by omega) (by omega), hcopy.frame_later hevolves hW hc ha]
    exact ⟨rfl, ((hcopy.table hc).entries a ha).taken hpage⟩
  refine ⟨h.evolves.trans hevolves, ⟨?_, ?_⟩, ?_⟩
  · intro j hj
    by_cases hji : j = i
    · subst hji
      exact hnew
    · rw [hothers j (by omega) hji]
      exact (h.copy.entries j (by omega)).later hevolves hW
  · intro j hj j' hj' a ha a' ha' hne hu hu'
    by_cases hji : j = i
    · by_cases hji' : j' = i
      · -- two pages of the new table
        subst hji hji'
        rcases hcloned hu with ⟨hc, hpage⟩
        rcases hcloned hu' with ⟨-, hpage'⟩
        exact (hnew.table hc).distinct a ha a' ha' (by tauto) hpage hpage'
      · -- the frames of the new table were free when the older ones were not
        subst hji
        rcases hold j' (by omega) a' ha' hu' with ⟨hsame, hnot⟩
        rw [hsame]
        intro heq
        exact hnot (heq ▸ hfresh a ha hu)
    · rcases hold j (by omega) a ha hu with ⟨hsame, hnot⟩
      rw [hsame]
      by_cases hji' : j' = i
      · subst hji'
        intro heq
        exact hnot (heq ▸ hfresh a' ha' hu')
      · rw [(hold j' (by omega) a' ha' hu').1]
        exact h.copy.distinct j (by omega) j' (by omega) a ha a' ha' hne hu hu'
  · intro j hij hj
    rw [hothers j hj (by omega)]
    exact h.rest j (by omega) hj

/-- One iteration, with the folder and the frames it needs left. -/
theorem DirectoryLoop.step (h : DirectoryLoop s₁ src d i s) (hheld : Held s₁ src)
    (hd : d < 2 ^ 20) (hdfree : d ∉ free s₁) (hsrc : pageOf src ≠ d)
    (htables : ∀ j < 1024, (s₁.mem.entry src j).present = true →
      (s₁.mem.entry src j).frame.toNat ≠ d)
    (huser : UserFramesHeld s₁ src)
    (huserd : ∀ j < 1024, ∀ a < 1024, isUserAt s₁.mem src j a = true →
      frameAt s₁.mem src j a ≠ d)
    (hfolders : isCloned s₁.mem (s₁.mem.entry src i) = true → freeFolders s ≠ ∅)
    (hframes : isCloned s₁.mem (s₁.mem.entry src i) = true →
      userPages s₁.mem (s₁.mem.entry src i) ≤ (freeFrames s).card) (hi : i < 1024) :
    DirectoryLoop s₁ src d (i + 1) (cloneDirectoryEntry src (pageStart d) i s) := by
  have hW : pageOf src ∉ ({d} : Set ℕ) := by simpa using hsrc
  have hentry := hheld.entry h.evolves hW hi
  rcases hheld.cloned h.evolves hW hi (by
    intro hpresent
    simpa using htables i hi hpresent) with ⟨hcloned, hpages⟩
  by_cases hpresent : (s.mem.entry src i).present = false
  · -- nothing to do, the entry is clear already
    rw [cloneDirectoryEntry_absent hpresent]
    have hnot : isCloned s₁.mem (s₁.mem.entry src i) = false := by
      rw [← hentry]
      unfold isCloned
      rw [hpresent, Bool.false_and]
    refine h.extend (Evolves.refl _ s) hdfree (fun _ _ _ => rfl) ?_ ?_ hi
    · rw [h.rest i (le_refl i) hi]
      refine ⟨fun _ => rfl, ?_, ?_, ?_, ?_, ?_⟩
      · intro hp
        rw [← hentry, hpresent] at hp
        cases hp
      all_goals
        intro hc
        rw [hnot] at hc
        cases hc
    · intro a _ hu
      unfold isUserAt at hu
      rw [hnot, Bool.false_and] at hu
      cases hu
  rw [Bool.not_eq_false] at hpresent
  by_cases hc : isCloned s.mem (s.mem.entry src i) = true
  · -- the table is cloned into a new folder
    have hc₁ : isCloned s₁.mem (s₁.mem.entry src i) = true := hcloned ▸ hc
    have hpresent₁ : (s₁.mem.entry src i).present = true := hentry ▸ hpresent
    have htfree₁ := hheld.table_not_free i hi hpresent₁
    have htd := htables i hi hpresent₁
    have htentry : ∀ a < 1024, s.mem.entry (pageStart (s₁.mem.entry src i).frame.toNat) a =
        s₁.mem.entry (pageStart (s₁.mem.entry src i).frame.toNat) a :=
      fun a ha => hheld.table_entry h.evolves hi hpresent₁ (by simpa using htd) ha
    have huser₁ : ∀ a < 1024, isUserPage (s₁.mem.entry src i).user
        (s₁.mem.entry (pageStart (s₁.mem.entry src i).frame.toNat) a) = true →
        (s₁.mem.entry (pageStart (s₁.mem.entry src i).frame.toNat) a).frame.toNat ∉ free s₁ ∧
        (s₁.mem.entry (pageStart (s₁.mem.entry src i).frame.toNat) a).frame.toNat ≠ d := by
      intro a ha hu
      have hat : isUserAt s₁.mem src i a = true := by
        unfold isUserAt
        rw [hc₁, hu, Bool.and_self]
      exact ⟨huser i hi a ha hat, huserd i hi a ha hat⟩
    rcases @cloneTable_spec
      s (s.mem.entry src i) (hfolders hc₁)
      (by rw [hpages hpresent₁]; exact hframes hc₁)
      (by
        rw [hentry]
        intro hmem
        exact htfree₁ (h.evolves.free hmem))
      (by
        rw [hentry]
        intro a ha hu hmem
        rw [htentry a ha] at hu hmem
        exact (huser₁ a ha hu).1 (h.evolves.free hmem)) with
      ⟨k, hpointer, hkfree, hknot, hevolves, hcopy⟩
    rw [hentry] at hpointer hevolves hcopy hknot
    have hkrange := freeFolders_range hkfree
    have hkd : k ≠ d := by
      rintro rfl
      exact hdfree (mem_free.mpr (Or.inl (h.evolves.folders hkfree)))
    rw [cloneDirectoryEntry_cloned hc, hentry, hpointer]
    obtain ⟨s₂, hs₂⟩ : ∃ s₂, s₂ = (cloneTable (s₁.mem.entry src i) s).2 := ⟨_, rfl⟩
    rw [← hs₂] at hevolves hcopy hknot ⊢
    obtain ⟨p, hp⟩ : ∃ p : PagePointer,
      p = { s₁.mem.entry src i with frame := frameOf (pageStart k) } := ⟨_, rfl⟩
    have hframe : p.frame.toNat = k := by
      rw [hp]
      exact toNat_frameOf_pageStart (by omega)
    have hflags : p.flags = (s₁.mem.entry src i).flags := by
      rw [hp]
      rfl
    rw [← hp]
    have hset : Evolves {d} s₂ { s₂ with mem := s₂.mem.setEntry (pageStart d) i p } :=
      Evolves.of_writes (writes_setEntry s₂.mem hd hi)
    have hdnot : ∀ n ∈ freeFrames s, n ∉ ({d} : Set ℕ) := by
      rintro n hn rfl
      exact hdfree (mem_free.mpr (Or.inr (h.evolves.frames hn)))
    have hcopy' := hcopy.later hset hdnot (by omega) (by simpa using hkd) hknot
    refine h.extend ((hevolves.mono (Set.empty_subset _)).trans hset) hdfree ?_ ?_ ?_ hi
    · intro j hj hji
      show (s₂.mem.setEntry (pageStart d) i _).entry (pageStart d) j = _
      rw [entry_setEntry_ne s₂.mem hd hi hj (Ne.symm hji)]
      refine hevolves.entry hd (Set.notMem_empty _) ?_ hj
      intro hmem
      exact hdfree (h.evolves.free hmem)
    · show TablePointerCopy s₁ _ _ ((s₂.mem.setEntry (pageStart d) i _).entry (pageStart d) i)
      rw [entry_setEntry_self]
      refine ⟨?_, ?_, fun _ => hflags, ?_, ?_, ?_⟩
      · intro habsent
        rw [hpresent₁] at habsent
        cases habsent
      · intro _ hshared
        rw [hc₁] at hshared
        cases hshared
      · intro _
        rw [hframe]
        exact h.evolves.folders hkfree
      · intro _ hmem
        rw [hframe] at hmem
        exact hknot (hset.free hmem)
      · intro _
        rw [hframe]
        refine hcopy'.earlier h.evolves (frame_lt _) (by simpa using htd) htfree₁ ?_
        intro a ha hu
        rcases huser₁ a ha hu with ⟨hnot, hne⟩
        exact ⟨hnot, by simpa using hne⟩
    · intro a ha hu
      unfold isUserAt at hu
      rw [Bool.and_eq_true] at hu
      unfold frameAt
      show ((s₂.mem.setEntry (pageStart d) i _).entry (pageStart
        ((s₂.mem.setEntry (pageStart d) i _).entry (pageStart d) i).frame.toNat) a).frame.toNat ∈ _
      rw [entry_setEntry_self, hframe]
      have hfree := (hcopy'.entries a ha).was_free
      rw [htentry a ha] at hfree
      exact hfree hu.2
  · -- the table is shared
    rw [Bool.not_eq_true] at hc
    have hnot : isCloned s₁.mem (s₁.mem.entry src i) = false := hcloned ▸ hc
    rw [cloneDirectoryEntry_shared hpresent hc]
    refine h.extend ?_ hdfree ?_ ?_ ?_ hi
    · exact Evolves.of_writes (writes_setEntry s.mem hd hi)
    · intro j hj hji
      exact entry_setEntry_ne s.mem hd hi hj (Ne.symm hji)
    · rw [entry_setEntry_self, hentry]
      refine ⟨?_, fun _ _ => rfl, ?_, ?_, ?_, ?_⟩
      · intro habsent
        rw [← hentry, hpresent] at habsent
        cases habsent
      all_goals
        intro hc'
        exact absurd (hnot.symm.trans hc') (by decide)
    · intro a _ hu
      unfold isUserAt at hu
      rw [hnot, Bool.false_and] at hu
      cases hu

/-- Whether a page of a held source is a user page does not change on the way, nor
does its frame. -/
theorem Held.userAt (h : Held s src) (hevolves : Evolves ∅ s s') {j a : ℕ} (hj : j < 1024)
    (ha : a < 1024) : isUserAt s'.mem src j a = isUserAt s.mem src j a ∧
      (isUserAt s.mem src j a = true → frameAt s'.mem src j a = frameAt s.mem src j a) := by
  have hentry := h.entry hevolves (Set.notMem_empty _) hj
  rcases h.cloned hevolves (Set.notMem_empty _) hj fun _ => Set.notMem_empty _ with ⟨hcloned, -⟩
  unfold isUserAt frameAt
  rw [hcloned, hentry]
  by_cases hpresent : (s.mem.entry src j).present = true
  · rw [h.table_entry hevolves hj hpresent (Set.notMem_empty _) ha]
    exact ⟨rfl, fun _ => rfl⟩
  · rw [Bool.not_eq_true] at hpresent
    have hnot : isCloned s.mem (s.mem.entry src j) = false := by
      unfold isCloned
      rw [hpresent, Bool.false_and]
    rw [hnot, Bool.false_and, Bool.false_and]
    refine ⟨rfl, ?_⟩
    intro hcon
    cases hcon

/-- A copy of a held source after an allocation is a copy of it before. -/
theorem DirectoryCopy.earlier (h : DirectoryCopy s₁ src s dir n) (hevolves : Evolves ∅ s₀ s₁)
    (hheld : Held s₀ src) (huser : UserFramesHeld s₀ src) (hn : n ≤ 1024) :
    DirectoryCopy s₀ src s dir n := by
  constructor
  · intro j hj
    have hj' : j < 1024 := by omega
    have hcopy := h.entries j hj
    have hentry := hheld.entry hevolves (Set.notMem_empty _) hj'
    rcases hheld.cloned hevolves (Set.notMem_empty _) hj'
      fun _ => Set.notMem_empty _ with ⟨hcloned, -⟩
    rw [hentry] at hcopy hcloned
    refine ⟨hcopy.absent, ?_, ?_, ?_, ?_, ?_⟩
    · intro hpresent hc
      exact hcopy.shared hpresent (hcloned.trans hc)
    · intro hc
      exact hcopy.flags (hcloned.trans hc)
    · intro hc
      exact hevolves.folders (hcopy.was_free (hcloned.trans hc))
    · intro hc
      exact hcopy.taken (hcloned.trans hc)
    · intro hc
      have hpresent : (s₀.mem.entry src j).present = true := by
        unfold isCloned at hc
        rw [Bool.and_eq_true] at hc
        exact hc.1
      -- what was free when the copy began was free before
      refine (hcopy.table (hcloned.trans hc)).earlier hevolves (frame_lt _) (Set.notMem_empty _)
        (hheld.table_not_free j hj' hpresent) ?_
      intro a ha hu
      refine ⟨huser j hj' a ha ?_, Set.notMem_empty _⟩
      unfold isUserAt
      rw [hc, hu, Bool.and_self]
  · intro j hj j' hj' a ha a' ha' hne hu hu'
    have hj₁ : j < 1024 := by omega
    have hj₂ : j' < 1024 := by omega
    rw [← (hheld.userAt hevolves hj₁ ha).1] at hu
    rw [← (hheld.userAt hevolves hj₂ ha').1] at hu'
    exact h.distinct j hj j' hj' a ha a' ha' hne hu hu'

/-- **With enough free slots `clone_directory` makes a copy** in a new folder, and
writes nothing but the pages it has taken. -/
theorem cloneDirectory_spec (hheld : Held s src) (huser : UserFramesHeld s src)
    (hfolders : 1 + clonedTables s.mem src ≤ (freeFolders s).card)
    (hframes : clonedPages s.mem src ≤ (freeFrames s).card) :
    ∃ d, (cloneDirectory src s).1 = pageStart d ∧ d ∈ freeFolders s ∧
      d ∉ free (cloneDirectory src s).2 ∧ Evolves ∅ s (cloneDirectory src s).2 ∧
      DirectoryCopy s src (cloneDirectory src s).2 (pageStart d) 1024 := by
  rcases allocatePageFolder_spec s with ⟨hempty, -⟩ | ⟨d, s₁, heq, htakes⟩
  · rw [hempty, Finset.card_empty] at hfolders
    omega
  have hclone : cloneDirectory src s =
      (pageStart d, loop (cloneDirectoryEntry src (pageStart d)) pagesInTable s₁) := by
    unfold cloneDirectory
    rw [heq]
  have hevolves := htakes.evolves
  have hdrange := freeFolders_range htakes.was_free
  have hne : ∀ n, n ∉ free s → n ≠ d := by
    rintro n hn rfl
    exact hn (mem_free.mpr (Or.inl htakes.was_free))
  have hheld₁ := hheld.later hevolves (Set.notMem_empty _)
  have hentry : ∀ i < 1024, s₁.mem.entry src i = s.mem.entry src i :=
    fun i hi => hheld.entry hevolves (Set.notMem_empty _) hi
  have htables : ∀ j < 1024, (s₁.mem.entry src j).present = true →
      (s₁.mem.entry src j).frame.toNat ≠ d := by
    intro j hj hpresent
    rw [hentry j hj] at hpresent ⊢
    exact hne _ (hheld.table_not_free j hj hpresent)
  have huser₁ : ∀ j < 1024, ∀ a < 1024, isUserAt s₁.mem src j a = true →
      frameAt s₁.mem src j a ∉ free s := by
    intro j hj a ha hu
    rcases hheld.userAt hevolves hj ha with ⟨hiff, hsame⟩
    rw [hiff] at hu
    rw [hsame hu]
    exact huser j hj a ha hu
  have hT : (freeFolders s₁).card + 1 = (freeFolders s).card := by
    rw [htakes.folders]
    exact Finset.card_erase_add_one htakes.was_free
  have hsums : ∀ n ≤ 1024, clonedTablesTo s₁.mem src n = clonedTablesTo s.mem src n ∧
      clonedPagesTo s₁.mem src n = clonedPagesTo s.mem src n := fun n hn => hheld.sums hevolves hn
  have hloop : ∀ n ≤ 1024, DirectoryLoop s₁ src d n
      (loop (cloneDirectoryEntry src (pageStart d)) n s₁) ∧
      DirectoryCounts s₁ src d n (loop (cloneDirectoryEntry src (pageStart d)) n s₁) := by
    intro n hn
    refine loop_induction (P := fun i s' => DirectoryLoop s₁ src d i s' ∧
      DirectoryCounts s₁ src d i s') ?_ ?_
    · -- nothing is copied yet, and the new folder is cleared
      refine ⟨⟨Evolves.refl _ _, ⟨?_, ?_⟩, ?_⟩, DirectoryCounts.zero s₁ src d⟩
      · intro j hj
        omega
      · intro j hj
        omega
      · intro j _ hj
        exact entry_cleared (by omega) hj htakes.cleared
    · rintro i s' hi ⟨hdone, hcounts⟩
      have hi' : i < 1024 := by omega
      rcases hsums i (by omega) with ⟨hTi, hFi⟩
      rcases hsums (i + 1) (by omega) with ⟨hTi', hFi'⟩
      have hTle := clonedTablesTo_le s.mem src (n := i + 1) (by omega)
      have hFle := clonedPagesTo_le s.mem src (n := i + 1) (by omega)
      -- what is free now is what was free less what the entries before took
      have hTcard := hcounts.folders
      have hFcard := hcounts.frames
      rw [htakes.frames] at hFcard
      rw [← hTi', clonedTablesTo_succ] at hTle
      rw [← hFi', clonedPagesTo_succ] at hFle
      constructor
      · refine hdone.step hheld₁ (by omega) htakes.not_free (hne _ hheld.not_free) htables ?_ ?_
          ?_ ?_ hi'
        · intro j hj a ha hu hmem
          exact huser₁ j hj a ha hu (hevolves.free hmem)
        · intro j hj a ha hu
          exact hne _ (huser₁ j hj a ha hu)
        · intro hc hempty
          rw [if_pos hc] at hTle
          rw [hempty, Finset.card_empty] at hTcard
          omega
        · intro hc
          rw [if_pos hc] at hFle
          omega
      · exact hcounts.step hheld₁ (by omega) (fun _ => htakes.not_free) (hne _ hheld.not_free)
          htables hi'
  rcases hloop pagesInTable (le_refl _) with ⟨hdone, -⟩
  rw [show loop (cloneDirectoryEntry src (pageStart d)) pagesInTable s₁ =
    (cloneDirectory src s).2 by rw [hclone]] at hdone
  have hdnot : d ∉ free (cloneDirectory src s).2 :=
    fun hmem => htakes.not_free (hdone.evolves.free hmem)
  -- the new folder was free, so giving it away counts as evolving
  have hall : Evolves (insert d ∅) s (cloneDirectory src s).2 :=
    (hevolves.mono (Set.empty_subset _)).trans (hdone.evolves.mono (by simp))
  exact ⟨d, by rw [hclone], htakes.was_free, hdnot,
    hall.absorb (mem_free.mpr (Or.inl htakes.was_free)) hdnot,
    hdone.copy.earlier hevolves hheld huser (le_refl _)⟩

end DirectoryCopy

end MushOS
