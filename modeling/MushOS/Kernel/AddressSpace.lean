import MushOS.Kernel.CloneDirectory

/-! # Address spaces

What a directory says to the processor: `translate` walks the two levels for one
virtual page. A page is a *user page* when either of its two entries has the
user bit, and a *kernel page* otherwise.

`cloneDirectory_copies` is the contract of `clone_directory` in these words: with
enough free slots the new directory maps the same pages with the same flags, its
kernel pages are those of the source, and its user pages are copies in frames of
their own.
-/

namespace MushOS

open ByteMemory Loop

/-- The two entries a virtual page is mapped through. -/
structure Mapping where
  table : PagePointer
  page : PagePointer

namespace Mapping

/-- Either entry has the user bit, as `clone_table` tests it. -/
def user (p : Mapping) : Bool := p.table.user || p.page.user

/-- The flag bits of both entries. -/
def flags (p : Mapping) : PagePointer × PagePointer := (p.table.flags, p.page.flags)

def frame (p : Mapping) : ℕ := p.page.frame.toNat

theorem frame_lt (p : Mapping) : p.frame < 2 ^ 20 := p.page.frame.isLt

/-- The user bits are among the flag bits. -/
theorem user_of_flags {p q : Mapping} (h : q.flags = p.flags) : q.user = p.user := by
  have htable : q.table.user = p.table.user := congrArg (fun f => f.1.user) h
  have hpage : q.page.user = p.page.user := congrArg (fun f => f.2.user) h
  unfold user
  rw [htable, hpage]

end Mapping

/-- How the directory `dir` maps the virtual page `v`. -/
def translate (m : Mem) (dir : UDword) (v : ℕ) : Option Mapping :=
  let table := m.entry dir (v / pagesInTable)
  let page := m.entry (getContentsAsPage table) (v % pagesInTable)
  if table.present && page.present then some ⟨table, page⟩ else none

section Translate
variable {m : Mem} {dir : UDword} {v : ℕ} {p : Mapping}

theorem translate_eq_some : translate m dir v = some p ↔
    m.entry dir (v / 1024) = p.table ∧
      m.entry (pageStart p.table.frame.toNat) (v % 1024) = p.page ∧
      p.table.present = true ∧ p.page.present = true := by
  unfold translate pagesInTable
  simp only [getContentsAsPage_eq]
  constructor
  · intro h
    split at h
    · rename_i hpresent
      rw [Bool.and_eq_true] at hpresent
      cases h
      exact ⟨rfl, rfl, hpresent⟩
    · cases h
  · rintro ⟨htable, hpage, hpresent, hpresent'⟩
    rw [htable, hpage, if_pos (by rw [hpresent, hpresent', Bool.and_self])]

theorem translate_eq_none : translate m dir v = none ↔
    (m.entry dir (v / 1024)).present = false ∨
      (m.entry (pageStart (m.entry dir (v / 1024)).frame.toNat) (v % 1024)).present = false := by
  unfold translate pagesInTable
  simp only [getContentsAsPage_eq]
  rw [ite_eq_right_iff]
  simp only [reduceCtorEq, imp_false, Bool.not_eq_true, Bool.and_eq_false_iff]

/-- The user pages are those `clone_directory` copies. -/
theorem any_user (m : Mem) (dir : UDword) (v : ℕ) :
    (translate m dir v).any Mapping.user = isUserAt m dir (v / 1024) (v % 1024) := by
  have hmod : v % 1024 < 1024 := Nat.mod_lt v (by decide)
  rw [Bool.eq_iff_iff]
  unfold isUserAt isCloned isUserPage
  constructor
  · intro h
    rw [Option.any_eq_true] at h
    rcases h with ⟨p, hp, hu⟩
    rcases translate_eq_some.mp hp with ⟨htable, hpage, hpresent, hpresent'⟩
    rw [htable, hpage, hpresent, hpresent', Bool.true_and, Bool.true_and, Bool.and_eq_true]
    refine ⟨?_, hu⟩
    by_cases htu : p.table.user = true
    · rw [htu, Bool.true_or]
    · -- then the user bit is the one of the page, and `contains_user_pages` sees it
      unfold Mapping.user at hu
      rw [Bool.not_eq_true] at htu
      rw [htu, Bool.false_or] at hu
      rw [Bool.or_eq_true]
      exact Or.inr ((containsUserPages_iff _ _).mpr ⟨_, hmod, by rw [hpage, hu]⟩)
  · intro h
    simp only [Bool.and_eq_true] at h
    rcases h with ⟨⟨hpresent, -⟩, hpresent', hu⟩
    rw [Option.any_eq_true]
    exact ⟨⟨_, _⟩, translate_eq_some.mpr ⟨rfl, rfl, hpresent, hpresent'⟩, hu⟩

theorem user_eq (hp : translate m dir v = some p) :
    p.user = isUserAt m dir (v / 1024) (v % 1024) := by
  rw [← any_user, hp, Option.any_some]

theorem frame_eq (hp : translate m dir v = some p) :
    p.frame = frameAt m dir (v / 1024) (v % 1024) := by
  rcases translate_eq_some.mp hp with ⟨htable, hpage, -, -⟩
  unfold Mapping.frame frameAt
  rw [htable, hpage]

end Translate

/-- The number of user pages of a directory. -/
def userPageCount (m : Mem) (dir : UDword) : ℕ :=
  ((Finset.range (2 ^ 20)).filter fun v => (translate m dir v).any Mapping.user = true).card

/-- The user pages of table `j` are the pages `1024 * j + a` for its user entries `a`. -/
theorem card_userPages_table (m : Mem) (dir : UDword) {j : ℕ} (hj : j < 1024) :
    (((Finset.range (2 ^ 20)).filter fun v => (translate m dir v).any Mapping.user = true).filter
      fun v => v / 1024 = j).card =
      ((Finset.range 1024).filter fun a => isUserAt m dir j a = true).card := by
  refine Finset.card_nbij' (fun v => v % 1024) (fun a => j * 1024 + a) ?_ ?_ ?_ ?_
  · intro v hv
    simp only [Finset.mem_coe, Finset.mem_filter, Finset.mem_range, any_user] at hv ⊢
    rcases hv with ⟨⟨-, hu⟩, rfl⟩
    exact ⟨Nat.mod_lt v (by decide), hu⟩
  · intro a ha
    simp only [Finset.mem_coe, Finset.mem_filter, Finset.mem_range, any_user] at ha ⊢
    have hdiv : (j * 1024 + a) / 1024 = j := by omega
    have hmod : (j * 1024 + a) % 1024 = a := by omega
    rw [hdiv, hmod]
    exact ⟨⟨by omega, ha.2⟩, rfl⟩
  · intro v hv
    simp only [Finset.mem_coe, Finset.mem_filter, Finset.mem_range] at hv
    show j * 1024 + v % 1024 = v
    omega
  · intro a ha
    simp only [Finset.mem_coe, Finset.mem_filter, Finset.mem_range] at ha
    show (j * 1024 + a) % 1024 = a
    omega

/-- Counted table by table. -/
theorem clonedPages_eq (m : Mem) (dir : UDword) : clonedPages m dir = userPageCount m dir := by
  unfold userPageCount clonedPages clonedPagesTo pagesInTable
  rw [Finset.card_eq_sum_card_fiberwise (f := fun v => v / 1024) (t := Finset.range 1024)]
  · refine Finset.sum_congr rfl ?_
    intro j hj
    rw [card_userPages_table m dir (Finset.mem_range.mp hj)]
    by_cases hc : isCloned m (m.entry dir j) = true
    · rw [if_pos hc]
      unfold userPages userPagesTo isUserAt pagesInTable
      rw [Nat.count_eq_card_filter_range]
      simp only [hc, Bool.true_and, getContentsAsPage_eq]
    · rw [if_neg hc]
      unfold isUserAt
      rw [Bool.not_eq_true] at hc
      simp only [hc, Bool.false_and, Bool.false_eq_true, Finset.filter_false, Finset.card_empty]
  · intro v hv
    simp only [Finset.mem_coe, Finset.mem_filter, Finset.mem_range] at hv ⊢
    omega

/-! ## What cloning does to an address space -/

/-- The directory `src`, its tables and the frames of its user pages are in use: none of
them is a free slot, and the directory and its tables are not in page 0. -/
structure InUse (s : Paging) (src : UDword) : Prop where
  held : Held s src
  user : ∀ v < 2 ^ 20, ∀ p, translate s.mem src v = some p → p.user = true → p.frame ∉ free s

/-- The same with the frames of all its pages. -/
structure Allocated (s : Paging) (src : UDword) : Prop where
  held : Held s src
  frame_not_free : ∀ v < 2 ^ 20, ∀ p, translate s.mem src v = some p → p.frame ∉ free s

theorem Allocated.inUse {s : Paging} {src : UDword} (h : Allocated s src) : InUse s src :=
  ⟨h.held, fun v hv p hp _ => h.frame_not_free v hv p hp⟩

/-- The frames of the user pages, table by table. -/
theorem InUse.userFrames {s : Paging} {src : UDword} (h : InUse s src) :
    UserFramesHeld s src := by
  intro j hj a ha hu
  have hdiv : (j * 1024 + a) / 1024 = j := by omega
  have hmod : (j * 1024 + a) % 1024 = a := by omega
  have hany := any_user s.mem src (j * 1024 + a)
  rw [hdiv, hmod, hu, Option.any_eq_true] at hany
  rcases hany with ⟨p, hp, hpu⟩
  have hframe := frame_eq hp
  rw [hdiv, hmod] at hframe
  rw [← hframe]
  exact h.user _ (by omega) p hp hpu

section Copy
variable {s s' : Paging} {src dir : UDword} {v : ℕ}

/-- What is not mapped stays unmapped. -/
theorem DirectoryCopy.translate_none (h : DirectoryCopy s src s' dir 1024) (hheld : Held s src)
    (hevolves : Evolves ∅ s s') (hv : v < 2 ^ 20) (hnone : translate s.mem src v = none) :
    translate s'.mem dir v = none := by
  have hj : v / 1024 < 1024 := by omega
  have ha : v % 1024 < 1024 := by omega
  have hcopy := h.entries _ hj
  rw [translate_eq_none] at hnone ⊢
  by_cases hpresent : (s.mem.entry src (v / 1024)).present = true
  · have habsent := hnone.resolve_left (by simp [hpresent])
    right
    by_cases hc : isCloned s.mem (s.mem.entry src (v / 1024)) = true
    · rw [((hcopy.table hc).entries _ ha).absent habsent]
      exact present_absent
    · -- the table is shared
      rw [Bool.not_eq_true] at hc
      rw [hcopy.shared hpresent hc, hheld.table_entry hevolves hj hpresent (Set.notMem_empty _) ha]
      exact habsent
  · rw [Bool.not_eq_true] at hpresent
    left
    rw [hcopy.absent hpresent]
    exact present_absent

/-- What is mapped stays mapped with the same flags: a kernel page to the same frame,
a user page to a copy. -/
theorem DirectoryCopy.translate_some (h : DirectoryCopy s src s' dir 1024) (hheld : Held s src)
    (hevolves : Evolves ∅ s s') (hv : v < 2 ^ 20) {p : Mapping}
    (hp : translate s.mem src v = some p) :
    ∃ q, translate s'.mem dir v = some q ∧ q.flags = p.flags ∧
      (p.user = false → q.frame = p.frame) ∧
      (p.user = true → q.frame ∈ freeFrames s ∧ q.frame ∉ freeFrames s' ∧
        SamePage s.mem p.frame s'.mem q.frame) := by
  have hj : v / 1024 < 1024 := by omega
  have ha : v % 1024 < 1024 := by omega
  have hcopy := h.entries _ hj
  rcases translate_eq_some.mp hp with ⟨htable, hpage, hpresent, hpresent'⟩
  rw [htable] at hcopy
  by_cases hc : isCloned s.mem p.table = true
  · -- the table is cloned
    have hflags := hcopy.flags hc
    have hentry := (hcopy.table hc).entries _ ha
    rw [hpage] at hentry
    have htpresent : (s'.mem.entry dir (v / 1024)).present = true :=
      (congrArg PagePointer.present hflags).trans hpresent
    by_cases hu : p.user = true
    · have huser : isUserPage p.table.user p.page = true := by
        unfold isUserPage
        rw [hpresent', Bool.true_and]
        exact hu
      have hpflags := hentry.flags huser
      refine ⟨⟨s'.mem.entry dir (v / 1024), s'.mem.entry (pageStart
        (s'.mem.entry dir (v / 1024)).frame.toNat) (v % 1024)⟩,
        translate_eq_some.mpr ⟨rfl, rfl, htpresent, ?_⟩, ?_, ?_, ?_⟩
      · exact (congrArg PagePointer.present hpflags).trans hpresent'
      · unfold Mapping.flags
        rw [hflags, hpflags]
      · intro hkernel
        rw [hu] at hkernel
        cases hkernel
      · intro _
        exact ⟨hentry.was_free huser, hentry.taken huser, hentry.bytes huser⟩
    · rw [Bool.not_eq_true] at hu
      have hkernel : isUserPage p.table.user p.page = false := by
        unfold isUserPage
        rw [hpresent', Bool.true_and]
        exact hu
      have hsame := hentry.kernel hpresent' hkernel
      refine ⟨⟨s'.mem.entry dir (v / 1024), p.page⟩,
        translate_eq_some.mpr ⟨rfl, hsame, htpresent, hpresent'⟩, ?_, fun _ => rfl, ?_⟩
      · unfold Mapping.flags
        rw [hflags]
      · intro huser
        rw [hu] at huser
        cases huser
  · -- the table is shared, and none of its pages is a user page
    rw [Bool.not_eq_true] at hc
    have hsame := hcopy.shared hpresent hc
    have htentry := hheld.table_entry hevolves hj (htable ▸ hpresent) (Set.notMem_empty _) ha
    rw [htable, hpage] at htentry
    refine ⟨p, translate_eq_some.mpr ⟨hsame, htentry, hpresent, hpresent'⟩, rfl, fun _ => rfl, ?_⟩
    intro hu
    rw [user_eq hp] at hu
    unfold isUserAt at hu
    rw [htable, hc, Bool.false_and] at hu
    cases hu

/-- A held directory maps on the way what it mapped before. -/
theorem Held.translate (h : Held s src) (hevolves : Evolves ∅ s s') (hv : v < 2 ^ 20) :
    translate s'.mem src v = translate s.mem src v := by
  have hj : v / 1024 < 1024 := by omega
  have ha : v % 1024 < 1024 := by omega
  have hentry := h.entry hevolves (Set.notMem_empty _) hj
  unfold MushOS.translate pagesInTable
  simp only [getContentsAsPage_eq, hentry]
  by_cases hpresent : (s.mem.entry src (v / 1024)).present = true
  · rw [h.table_entry hevolves hj hpresent (Set.notMem_empty _) ha]
  · rw [Bool.not_eq_true] at hpresent
    rw [hpresent, Bool.false_and, Bool.false_and, if_neg Bool.false_ne_true,
      if_neg Bool.false_ne_true]

end Copy

/-- `dir` in `s'` is a copy of the address space `src` of `s`. -/
structure SpaceCopy (s : Paging) (src : UDword) (s' : Paging) (dir : UDword) : Prop where
  flags : ∀ v < 2 ^ 20, (translate s'.mem dir v).map Mapping.flags =
    (translate s.mem src v).map Mapping.flags
  kernel : ∀ v < 2 ^ 20, ∀ p q, translate s.mem src v = some p → translate s'.mem dir v = some q →
    p.user = false → q.frame = p.frame
  fresh : ∀ v < 2 ^ 20, ∀ q, translate s'.mem dir v = some q → q.user = true →
    q.frame ∈ freeFrames s ∧ q.frame ∉ freeFrames s'
  alone : ∀ v < 2 ^ 20, ∀ w < 2 ^ 20, ∀ q r, translate s'.mem dir v = some q →
    translate s'.mem dir w = some r → q.user = true → v ≠ w → r.frame ≠ q.frame
  apart : ∀ v < 2 ^ 20, ∀ w < 2 ^ 20, ∀ q p, translate s'.mem dir v = some q →
    translate s.mem src w = some p → q.user = true → p.frame ≠ q.frame
  bytes : ∀ v < 2 ^ 20, ∀ p q, translate s.mem src v = some p → translate s'.mem dir v = some q →
    p.user = true → SamePage s.mem p.frame s'.mem q.frame

/-- The pages of the address space `src` of `s` are as they were in `s'`: the
directory, its tables and its frames. -/
structure SpaceKept (s : Paging) (src : UDword) (s' : Paging) : Prop where
  directory : SamePage s.mem (pageOf src) s'.mem (pageOf src)
  tables : ∀ i < 1024, (s.mem.entry src i).present = true →
    SamePage s.mem (s.mem.entry src i).frame.toNat s'.mem (s.mem.entry src i).frame.toNat
  frames : ∀ v < 2 ^ 20, ∀ p, translate s.mem src v = some p →
    SamePage s.mem p.frame s'.mem p.frame

/-- Steps that write nothing but pages they take keep every allocated address space. -/
theorem Allocated.kept {s s' : Paging} {src : UDword} (h : Allocated s src)
    (hevolves : Evolves ∅ s s') : SpaceKept s src s' := by
  constructor
  · exact hevolves.samePage (pageOf_lt src) (Set.notMem_empty _) (absurd · h.held.not_free)
  · intro i hi hpresent
    exact hevolves.samePage (frame_lt _) (Set.notMem_empty _)
      (absurd · (h.held.table_not_free i hi hpresent))
  · intro v hv p hp
    exact hevolves.samePage (frame_lt _) (Set.notMem_empty _)
      (absurd · (h.frame_not_free v hv p hp))

/-- A copied directory is a copied address space, when the source refers to no free frame. -/
theorem DirectoryCopy.space {s s' : Paging} {src dir : UDword}
    (h : DirectoryCopy s src s' dir 1024) (hheld : Held s src)
    (hframes : ∀ v < 2 ^ 20, ∀ p, translate s.mem src v = some p → p.frame ∉ freeFrames s)
    (hevolves : Evolves ∅ s s') : SpaceCopy s src s' dir := by
  have hback : ∀ v < 2 ^ 20, ∀ q, translate s'.mem dir v = some q →
      ∃ p, translate s.mem src v = some p ∧ q.flags = p.flags ∧
        (p.user = false → q.frame = p.frame) ∧
        (p.user = true → q.frame ∈ freeFrames s ∧ q.frame ∉ freeFrames s' ∧
          SamePage s.mem p.frame s'.mem q.frame) := by
    intro v hv q hq
    cases hp : translate s.mem src v with
    | none =>
      rw [h.translate_none hheld hevolves hv hp] at hq
      cases hq
    | some p =>
      rcases h.translate_some hheld hevolves hv hp with ⟨q', hq', hrest⟩
      rw [hq] at hq'
      cases hq'
      exact ⟨p, rfl, hrest⟩
  have hfresh : ∀ v < 2 ^ 20, ∀ q, translate s'.mem dir v = some q → q.user = true →
      q.frame ∈ freeFrames s ∧ q.frame ∉ freeFrames s' := by
    intro v hv q hq hu
    rcases hback v hv q hq with ⟨p, -, hflags, -, huser⟩
    rcases huser (Mapping.user_of_flags hflags ▸ hu) with ⟨hfree, htaken, -⟩
    exact ⟨hfree, htaken⟩
  constructor
  · intro v hv
    cases hp : translate s.mem src v with
    | none => rw [h.translate_none hheld hevolves hv hp]
    | some p =>
      rcases h.translate_some hheld hevolves hv hp with ⟨q, hq, hflags, -⟩
      rw [hq, Option.map_some, Option.map_some, hflags]
  · intro v hv p q hp hq hkernel
    rcases hback v hv q hq with ⟨p', hp', -, hsame, -⟩
    rw [hp] at hp'
    cases hp'
    exact hsame hkernel
  · exact hfresh
  · intro v hv w hw q r hq hr hqu hne heq
    rcases hback v hv q hq with ⟨p, hp, hflags, -, -⟩
    rcases hback w hw r hr with ⟨p', hp', hflags', hkernel', -⟩
    by_cases hru : p'.user = true
    · -- two user pages of the copy
      have hpu : p.user = true := Mapping.user_of_flags hflags ▸ hqu
      rw [user_eq hp] at hpu
      rw [user_eq hp'] at hru
      rw [frame_eq hq, frame_eq hr] at heq
      refine h.distinct _ (by omega) _ (by omega) _ (by omega) _ (by omega) ?_ hru hpu heq
      omega
    · -- a kernel page keeps a frame that was not free
      rw [Bool.not_eq_true] at hru
      rw [hkernel' hru] at heq
      refine hframes w hw p' hp' ?_
      rw [heq]
      exact (hfresh v hv q hq hqu).1
  · intro v hv w hw q p hq hp hqu heq
    refine hframes w hw p hp ?_
    rw [heq]
    exact (hfresh v hv q hq hqu).1
  · intro v hv p q hp hq hu
    rcases hback v hv q hq with ⟨p', hp', -, -, huser⟩
    rw [hp] at hp'
    cases hp'
    exact (huser hu).2.2

/-- **`clone_directory` copies an address space.** With enough free slots, none of them
referenced by the source, it makes a copy in a new folder, leaves the pages of the
source alone, and takes one folder for the directory and for each cloned table and
one frame for each user page. -/
theorem cloneDirectory_copies {s : Paging} {src : UDword} (h : Allocated s src)
    (hfolders : 1 + clonedTables s.mem src ≤ (freeFolders s).card)
    (hframes : userPageCount s.mem src ≤ (freeFrames s).card) :
    SpaceCopy s src (cloneDirectory src s).2 (cloneDirectory src s).1 ∧
      SpaceKept s src (cloneDirectory src s).2 ∧
      (∃ d ∈ freeFolders s \ freeFolders (cloneDirectory src s).2,
        (cloneDirectory src s).1 = pageStart d) ∧
      freeFolders (cloneDirectory src s).2 ⊆ freeFolders s ∧
      (freeFolders s \ freeFolders (cloneDirectory src s).2).card = 1 + clonedTables s.mem src ∧
      freeFrames (cloneDirectory src s).2 ⊆ freeFrames s ∧
      (freeFrames s \ freeFrames (cloneDirectory src s).2).card = userPageCount s.mem src := by
  rw [← clonedPages_eq] at hframes ⊢
  rcases cloneDirectory_spec h.held h.inUse.userFrames hfolders hframes with
    ⟨d, heq, hd, hnot, hevolves, hcopy⟩
  rcases cloneDirectory_counts h.held with ⟨hT, hF, -⟩
  rw [← heq] at hcopy
  -- no frame of the source is free, so none is handed out for the copy
  have hfree : ∀ v < 2 ^ 20, ∀ p, translate s.mem src v = some p → p.frame ∉ freeFrames s :=
    fun v hv p hp hmem => h.frame_not_free v hv p hp (mem_free.mpr (Or.inr hmem))
  refine ⟨hcopy.space h.held hfree hevolves, h.kept hevolves, ⟨d, ?_, heq⟩, hevolves.folders, ?_,
    hevolves.frames, ?_⟩
  · rw [Finset.mem_sdiff]
    exact ⟨hd, fun hmem => hnot (mem_free.mpr (Or.inl hmem))⟩
  · rw [Finset.card_sdiff_of_subset hevolves.folders, hT]
    omega
  · rw [Finset.card_sdiff_of_subset hevolves.frames, hF]
    omega

/-! ### Directories written down -/

/-- The memory with the given entries, each under its folder and its index, and nothing else. -/
def spaceOf (entries : List ((ℕ × ℕ) × PagePointer)) : Mem :=
  entries.foldr (fun e m => m.setEntry (pageStart e.1.1) e.1.2 e.2) ⟨fun _ => 0, []⟩

section SpaceOf
variable {entries : List ((ℕ × ℕ) × PagePointer)} {n i v d : ℕ} {p : Mapping} {s : Paging}

/-- Every entry names a page and an index inside it. -/
def InBounds (entries : List ((ℕ × ℕ) × PagePointer)) : Prop :=
  ∀ e ∈ entries, e.1.1 < 2 ^ 20 ∧ e.1.2 < 1024

instance : Decidable (InBounds entries) :=
  inferInstanceAs (Decidable (∀ e ∈ entries, e.1.1 < 2 ^ 20 ∧ e.1.2 < 1024))

theorem entry_spaceOf (h : InBounds entries) (hn : n < 2 ^ 20) (hi : i < 1024) :
    (spaceOf entries).entry (pageStart n) i =
      (entries.lookup (n, i)).getD PagePointer.absent := by
  induction entries with
  | nil => exact entry_cleared hn hi fun _ _ => rfl
  | cons e entries ih =>
    rcases e with ⟨⟨n', i'⟩, p⟩
    rcases h _ List.mem_cons_self with ⟨hn', hi'⟩
    have ih := ih fun e he => h e (List.mem_cons_of_mem _ he)
    rw [List.lookup_cons]
    by_cases hkey : (n, i) = (n', i')
    · -- the entry set last
      rcases Prod.mk.inj hkey with ⟨rfl, rfl⟩
      rw [beq_self_eq_true]
      exact entry_setEntry_self _ _ _ _
    · -- one of another folder, or another one of this folder
      rw [beq_eq_false_iff_ne.mpr hkey, ← ih]
      by_cases hfolder : n' = n
      · subst hfolder
        exact entry_setEntry_ne _ hn hi' hi fun hsame => hkey (Prod.ext rfl hsame.symm)
      · exact entry_setEntry_other _ hn' hn hi' hi hfolder

theorem mem_of_entry_spaceOf (h : InBounds entries) (hn : n < 2 ^ 20) (hi : i < 1024)
    (hpresent : ((spaceOf entries).entry (pageStart n) i).present = true) :
    ((n, i), (spaceOf entries).entry (pageStart n) i) ∈ entries := by
  rw [entry_spaceOf h hn hi] at hpresent ⊢
  cases hlookup : entries.lookup (n, i) with
  | none =>
    rw [hlookup] at hpresent
    cases hpresent
  | some p =>
    rcases List.lookup_eq_some_iff.mp hlookup with ⟨before, after, heq, -⟩
    rw [heq]
    exact List.mem_append_right before List.mem_cons_self

/-- Both entries of a mapping are in the list. -/
theorem mem_of_translate_spaceOf (h : InBounds entries) (hd : d < 2 ^ 20) (hv : v < 2 ^ 20)
    (hp : translate (spaceOf entries) (pageStart d) v = some p) :
    ((d, v / 1024), p.table) ∈ entries ∧
      ((p.table.frame.toNat, v % 1024), p.page) ∈ entries := by
  rcases translate_eq_some.mp hp with ⟨htable, hpage, hpresent, hpresent'⟩
  constructor
  · have hmem := mem_of_entry_spaceOf (i := v / 1024) h hd (by omega) (htable ▸ hpresent)
    rwa [htable] at hmem
  · have hmem := mem_of_entry_spaceOf (i := v % 1024) h (frame_lt p.table) (by omega)
      (hpage ▸ hpresent')
    rwa [hpage] at hmem

/-- The directory is allocated if none of the pages the list names is free. -/
theorem allocated_spaceOf (h : InBounds entries) (hmem : s.mem = spaceOf entries)
    (hd : d < 2 ^ 20) (hd₀ : d ≠ 0) (hdir : d ∉ free s)
    (hframes : ∀ e ∈ entries, e.2.frame.toNat ≠ 0 ∧ e.2.frame.toNat ∉ free s) :
    Allocated s (pageStart d) := by
  have hpage : pageOf (pageStart d) = d := pageOf_pageStart hd
  have hentry : ∀ i < 1024, (s.mem.entry (pageStart d) i).present = true →
      (s.mem.entry (pageStart d) i).frame.toNat ≠ 0 ∧
        (s.mem.entry (pageStart d) i).frame.toNat ∉ free s := by
    intro i hi hpresent
    rw [hmem] at hpresent ⊢
    exact hframes _ (mem_of_entry_spaceOf h hd hi hpresent)
  refine ⟨⟨?_, ?_, ?_, ?_, ?_⟩, ?_⟩
  · rw [toNat_pageStart hd]
    omega
  · rwa [hpage]
  · rwa [hpage]
  · exact fun i hi hpresent => (hentry i hi hpresent).1
  · exact fun i hi hpresent => (hentry i hi hpresent).2
  · intro v hv p hp
    rw [hmem] at hp
    exact (hframes _ (mem_of_translate_spaceOf h hd hv hp).2).2

end SpaceOf

/-- A bitmap with nothing taken behind its first byte. -/
theorem taken_firstByte (x : BitVec 8) (slot : ℕ) :
    Bitmap.taken (fun i => if i = 0 then x else 0) slot =
      if slot < 8 then x.getLsbD slot else false := by
  unfold Bitmap.taken
  beta_reduce
  by_cases h : slot < 8
  · rw [if_pos h, if_pos (by omega), Nat.mod_eq_of_lt h]
  · rw [if_neg h, if_neg (by omega)]
    exact BitVec.getLsbD_zero

theorem mem_free_firstByte {x : BitVec 8} {k size slot : ℕ} (hk : k ≤ 8)
    (hx : ∀ slot < 8, x.getLsbD slot = false ↔ k ≤ slot) :
    slot ∈ Bitmap.free (fun i => if i = 0 then x else 0) size ↔ slot < size * 8 ∧ k ≤ slot := by
  rw [Bitmap.mem_free, taken_firstByte]
  by_cases h : slot < 8
  · rw [if_pos h, hx slot h]
  · rw [if_neg h]
    constructor
    · rintro ⟨hlt, -⟩
      exact ⟨hlt, by omega⟩
    · rintro ⟨hlt, -⟩
      exact ⟨hlt, rfl⟩

/-- The free pages when the first few are taken. -/
theorem freeFolders_firstByte {s : Paging} {x : BitVec 8} {k : ℕ}
    (hpool : s.pagingPool.bytes = fun i => if i = 0 then x else 0) (hk : k ≤ 8)
    (hx : ∀ slot < 8, x.getLsbD slot = false ↔ k ≤ slot) :
    freeFolders s = Finset.Ico (0x100 + k) 0xf00 := by
  ext n
  unfold freeFolders
  rw [hpool, Finset.mem_map, Finset.mem_Ico]
  simp only [mem_free_firstByte hk hx, addRightEmbedding_apply, pagingPoolSize]
  constructor
  · rintro ⟨slot, hslot, rfl⟩
    omega
  · intro hn
    exact ⟨n - 0x100, by omega, by omega⟩

theorem freeFrames_firstByte {s : Paging} {x : BitVec 8} {k : ℕ}
    (hpool : s.userSpacePool.bytes = fun i => if i = 0 then x else 0) (hk : k ≤ 8)
    (hx : ∀ slot < 8, x.getLsbD slot = false ↔ k ≤ slot) :
    freeFrames s = Finset.Ico (0x1000 + k) 0x10000 := by
  ext n
  unfold freeFrames
  rw [hpool, Finset.mem_map, Finset.mem_Ico]
  simp only [mem_free_firstByte hk hx, addRightEmbedding_apply, userSpacePoolSize]
  constructor
  · rintro ⟨slot, hslot, rfl⟩
    omega
  · intro hn
    exact ⟨n - 0x1000, by omega, by omega⟩

/-! ### A directory with one user page -/

def onePageTable : PagePointer := { PagePointer.absent with present := true, frame := 0x101 }
def onePageEntry : PagePointer :=
  { PagePointer.absent with present := true, user := true, frame := 0x1000 }

/-- The directory in page `0x100` with its only table in page `0x101`, which maps the
virtual page 0 to the frame `0x1000` for the user. -/
def onePage : Mem :=
  ((⟨fun _ => 0, []⟩ : Mem).setEntry (pageStart 0x100) 0 onePageTable).setEntry
    (pageStart 0x101) 0 onePageEntry

def onePageEntries : List ((ℕ × ℕ) × PagePointer) :=
  [((0x101, 0), onePageEntry), ((0x100, 0), onePageTable)]

theorem onePage_inBounds : InBounds onePageEntries := by decide

theorem onePage_directory {i : ℕ} (hi : i < 1024) : onePage.entry (pageStart 0x100) i =
    if i = 0 then onePageTable else PagePointer.absent := by
  refine (entry_spaceOf onePage_inBounds (by decide) hi).trans ?_
  by_cases h0 : i = 0
  · subst h0
    rfl
  · have hnone : onePageEntries.lookup (0x100, i) = none := by
      refine List.lookup_eq_none_iff.mpr ?_
      intro e he
      rcases List.mem_pair.mp he with rfl | rfl <;> simp [h0]
    rw [if_neg h0, hnone, Option.getD_none]

/-- Whatever the pools, as long as the three pages are not free. -/
theorem onePage_allocated {s : Paging} (hmem : s.mem = onePage) (hdir : 0x100 ∉ free s)
    (htable : 0x101 ∉ free s) (hframe : 0x1000 ∉ free s) : Allocated s (pageStart 0x100) := by
  refine allocated_spaceOf onePage_inBounds hmem (by decide) (by decide) hdir ?_
  intro e he
  rcases List.mem_pair.mp he with rfl | rfl
  · exact ⟨by decide, hframe⟩
  · exact ⟨by decide, htable⟩

/-- The pools with just these pages taken. -/
def onePageState : Paging where
  mem := onePage
  pagingPool := ⟨fun i => if i = 0 then 3 else 0⟩
  userSpacePool := ⟨fun i => if i = 0 then 1 else 0⟩

theorem freeFolders_onePageState : freeFolders onePageState = Finset.Ico 0x102 0xf00 :=
  freeFolders_firstByte rfl (by decide) (by decide : ∀ slot < 8, _ ↔ 2 ≤ slot)

theorem freeFrames_onePageState : freeFrames onePageState = Finset.Ico 0x1001 0x10000 :=
  freeFrames_firstByte rfl (by decide) (by decide : ∀ slot < 8, _ ↔ 1 ≤ slot)

theorem allocated_onePageState : Allocated onePageState (pageStart 0x100) := by
  have hfree : ∀ n ∈ free onePageState, 0x102 ≤ n ∧ n ≠ 0x1000 := by
    intro n hn
    rw [mem_free, freeFolders_onePageState, freeFrames_onePageState, Finset.mem_Ico,
      Finset.mem_Ico] at hn
    omega
  refine onePage_allocated rfl ?_ ?_ ?_
  · intro hmem
    exact absurd (hfree _ hmem).1 (by decide)
  · intro hmem
    exact absurd (hfree _ hmem).1 (by decide)
  · intro hmem
    exact (hfree _ hmem).2 rfl

/-- One user page among them. -/
theorem userPageCount_le_one {m : Mem} {dir : UDword} {w : ℕ}
    (h : ∀ v < 2 ^ 20, ∀ p, translate m dir v = some p → p.user = true → v = w) :
    userPageCount m dir ≤ 1 := by
  refine (Finset.card_le_card (t := {w}) ?_).trans (Finset.card_singleton w).le
  intro v hv
  rw [Finset.mem_filter, Finset.mem_range, Option.any_eq_true] at hv
  rcases hv with ⟨hlt, p, hp, hu⟩
  exact Finset.mem_singleton.mpr (h v hlt p hp hu)

theorem enough_onePageState :
    1 + clonedTables onePageState.mem (pageStart 0x100) ≤ (freeFolders onePageState).card ∧
      userPageCount onePageState.mem (pageStart 0x100) ≤ (freeFrames onePageState).card := by
  constructor
  · have hle : clonedTables onePageState.mem (pageStart 0x100) ≤ 1024 := Nat.count_le _
    rw [freeFolders_onePageState, Nat.card_Ico]
    omega
  · have hle : userPageCount onePageState.mem (pageStart 0x100) ≤ 1 := by
      refine userPageCount_le_one (w := 0) ?_
      intro v hv p hp _
      rcases mem_of_translate_spaceOf onePage_inBounds (by decide) hv hp with ⟨htable, hpage⟩
      simp [onePageEntries] at htable hpage
      omega
    rw [freeFrames_onePageState, Nat.card_Ico]
    omega

/-! ### A directory with a mixed table and a shared one -/

def mixedEntry (user : Bool) (frame : BitVec 20) : PagePointer :=
  { PagePointer.absent with present := true, rw := true, user := user, frame := frame }

/-- The first table maps a page of the kernel and, behind it, one of the user; the second
one a page of the kernel alone. -/
def mixedEntries : List ((ℕ × ℕ) × PagePointer) :=
  [((0x100, 0), mixedEntry false 0x101), ((0x100, 1), mixedEntry false 0x102),
    ((0x101, 0), mixedEntry false 0x8), ((0x101, 1), mixedEntry true 0x1000),
    ((0x102, 0), mixedEntry false 0x9)]

def mixedState : Paging where
  mem := spaceOf mixedEntries
  pagingPool := ⟨fun i => if i = 0 then 7 else 0⟩
  userSpacePool := ⟨fun i => if i = 0 then 1 else 0⟩

theorem freeFolders_mixedState : freeFolders mixedState = Finset.Ico 0x103 0xf00 :=
  freeFolders_firstByte rfl (by decide) (by decide : ∀ slot < 8, _ ↔ 3 ≤ slot)

theorem freeFrames_mixedState : freeFrames mixedState = Finset.Ico 0x1001 0x10000 :=
  freeFrames_firstByte rfl (by decide) (by decide : ∀ slot < 8, _ ↔ 1 ≤ slot)

theorem mixed_inBounds : InBounds mixedEntries := by decide

theorem allocated_mixedState : Allocated mixedState (pageStart 0x100) := by
  have hfree : ∀ n ∈ free mixedState, 0x103 ≤ n ∧ n ≠ 0x1000 := by
    intro n hn
    rw [mem_free, freeFolders_mixedState, freeFrames_mixedState, Finset.mem_Ico,
      Finset.mem_Ico] at hn
    omega
  refine allocated_spaceOf mixed_inBounds rfl (by decide) (by decide) ?_ ?_
  · intro hmem
    exact absurd (hfree _ hmem).1 (by decide)
  · have hframes : ∀ e ∈ mixedEntries, e.2.frame.toNat ≠ 0 ∧
        (e.2.frame.toNat < 0x103 ∨ e.2.frame.toNat = 0x1000) := by decide
    intro e he
    refine ⟨(hframes e he).1, ?_⟩
    intro hmem
    rcases (hframes e he).2 with hlt | heq
    · exact absurd (hfree _ hmem).1 (by omega)
    · exact (hfree _ hmem).2 heq

theorem enough_mixedState :
    1 + clonedTables mixedState.mem (pageStart 0x100) ≤ (freeFolders mixedState).card ∧
      userPageCount mixedState.mem (pageStart 0x100) ≤ (freeFrames mixedState).card := by
  constructor
  · have hle : clonedTables mixedState.mem (pageStart 0x100) ≤ 1024 := Nat.count_le _
    rw [freeFolders_mixedState, Nat.card_Ico]
    omega
  · have hle : userPageCount mixedState.mem (pageStart 0x100) ≤ 1 := by
      refine userPageCount_le_one (w := 1) ?_
      intro v hv p hp hu
      rcases mem_of_translate_spaceOf mixed_inBounds (by decide) hv hp with ⟨htable, hpage⟩
      simp only [mixedEntries, List.mem_cons, List.not_mem_nil, or_false, Prod.mk.injEq] at htable
      rcases p with ⟨table, page⟩
      rcases htable with ⟨⟨-, h⟩, rfl⟩ | ⟨⟨-, h⟩, rfl⟩ | ⟨⟨h, -⟩, -⟩ | ⟨⟨h, -⟩, -⟩ | ⟨⟨h, -⟩, -⟩
      · -- through the mixed table
        simp [mixedEntries, mixedEntry] at hpage
        rcases hpage with ⟨-, rfl⟩ | ⟨h', -⟩
        · cases hu
        · omega
      · -- through the shared one
        simp [mixedEntries, mixedEntry] at hpage
        rw [hpage.2] at hu
        cases hu
      all_goals cases h
    rw [freeFrames_mixedState, Nat.card_Ico]
    omega

theorem translate_mixed_kernel : translate mixedState.mem (pageStart 0x100) 0 =
    some ⟨mixedEntry false 0x101, mixedEntry false 0x8⟩ := by
  refine translate_eq_some.mpr ⟨?_, ?_, rfl, rfl⟩
  · exact entry_spaceOf mixed_inBounds (by decide) (by decide)
  · exact entry_spaceOf mixed_inBounds (by decide) (by decide)

theorem translate_mixed_user : translate mixedState.mem (pageStart 0x100) 1 =
    some ⟨mixedEntry false 0x101, mixedEntry true 0x1000⟩ := by
  refine translate_eq_some.mpr ⟨?_, ?_, rfl, rfl⟩
  · exact entry_spaceOf mixed_inBounds (by decide) (by decide)
  · exact entry_spaceOf mixed_inBounds (by decide) (by decide)

theorem translate_mixed_shared : translate mixedState.mem (pageStart 0x100) 1024 =
    some ⟨mixedEntry false 0x102, mixedEntry false 0x9⟩ := by
  refine translate_eq_some.mpr ⟨?_, ?_, rfl, rfl⟩
  · exact entry_spaceOf mixed_inBounds (by decide) (by decide)
  · exact entry_spaceOf mixed_inBounds (by decide) (by decide)

/-- What a copy says of a page of the source. -/
theorem SpaceCopy.exists_translate {s s' : Paging} {src dir : UDword} (h : SpaceCopy s src s' dir)
    {v : ℕ} (hv : v < 2 ^ 20) {p : Mapping} (hp : translate s.mem src v = some p) :
    ∃ q, translate s'.mem dir v = some q ∧ q.flags = p.flags ∧
      (p.user = false → q.frame = p.frame) ∧ (p.user = true → q.frame ≠ p.frame) := by
  have hflags := h.flags v hv
  rw [hp, Option.map_some, Option.map_eq_some_iff] at hflags
  rcases hflags with ⟨q, hq, hqp⟩
  refine ⟨q, hq, hqp, h.kernel v hv p q hp hq, ?_⟩
  intro hu
  exact (h.apart v hv v hv q p hq hp ((Mapping.user_of_flags hqp).trans hu)).symm

/-- The page of the kernel in the mixed table and the one in the shared table stay where
they are, and the page of the user does not. -/
theorem cloneDirectory_copies_mixed : ∃ dir s' p q r,
    cloneDirectory (pageStart 0x100) mixedState = (dir, s') ∧
      SpaceCopy mixedState (pageStart 0x100) s' dir ∧
      translate s'.mem dir 0 = some p ∧ p.frame = 0x8 ∧
      translate s'.mem dir 1 = some q ∧ q.frame ≠ 0x1000 ∧ q.user = true ∧
      translate s'.mem dir 1024 = some r ∧ r.frame = 0x9 := by
  have hcopy := (cloneDirectory_copies allocated_mixedState enough_mixedState.1
    enough_mixedState.2).1
  rcases hclone : cloneDirectory (pageStart 0x100) mixedState with ⟨dir, s'⟩
  rw [hclone] at hcopy
  rcases hcopy.exists_translate (by decide) translate_mixed_kernel with ⟨p, hp, -, hframe, -⟩
  rcases hcopy.exists_translate (by decide) translate_mixed_user with ⟨q, hq, hflags, -, hne⟩
  rcases hcopy.exists_translate (by decide) translate_mixed_shared with ⟨r, hr, -, hframe', -⟩
  exact ⟨dir, s', p, q, r, rfl, hcopy, hp, hframe rfl, hq, hne rfl, Mapping.user_of_flags hflags,
    hr, hframe' rfl⟩

end MushOS
