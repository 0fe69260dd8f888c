import MushOS.Kernel.AddressSpace

/-! # initialise_paging

The address space the kernel starts with. Its directory maps the first 4096 pages to
themselves: the pages of the boot stack for the user, all others for the kernel.

`TaskSpace s dir` is what this says that is still true of the directories cloned from
it, when user pages are in other frames: `initialisePaging_spec` establishes it, and
`TaskSpace.clone` carries it over to a clone.
-/

namespace MushOS

open ByteMemory Loop

/-- The pages of the boot stack. -/
def isStackPage (v : ℕ) : Bool := 2 ≤ v && v < 7

theorem isStackPage_iff {v : ℕ} : isStackPage v = true ↔ 2 ≤ v ∧ v < 7 := by
  unfold isStackPage
  rw [Bool.and_eq_true, decide_eq_true_iff, decide_eq_true_iff]

theorem inStack_eq {n : ℕ} (hn : n < 0x1000) :
    inStack (BitVec.ofNat 32 (n * pageSize)) = isStackPage n := by
  have htoNat : (BitVec.ofNat 32 (n * pageSize)).toNat = n * 4096 := by
    rw [BitVec.toNat_ofNat]
    unfold pageSize
    omega
  have hlow : (stackPointer - stackSize).toNat = 0x2000 := by decide
  have hhigh : stackPointer.toNat = 0x7000 := by decide
  rw [Bool.eq_iff_iff, isStackPage_iff]
  unfold inStack
  rw [Bool.and_eq_true, decide_eq_true_iff, decide_eq_true_iff, ge_iff_le, BitVec.le_def,
    BitVec.lt_def, htoNat, hlow, hhigh]
  omega

/-! ## get_page -/

section GetPage
variable {garbage : PagePointer} {s s₁ : Paging} {d t n : ℕ} {make : Bool}

theorem user_pages_in_range (hn : n < 0x1000) :
    ¬ BitVec.ofNat 32 (n * pageSize) > userSpaceEnd ∧
      pageOf (BitVec.ofNat 32 (n * pageSize)) = n := by
  have htoNat : (BitVec.ofNat 32 (n * pageSize)).toNat = n * 4096 := by
    rw [BitVec.toNat_ofNat]
    unfold pageSize
    omega
  have hend : userSpaceEnd.toNat = 0x10000000 := by decide
  unfold pageOf
  rw [gt_iff_lt, BitVec.lt_def, htoNat, hend]
  omega

/-- A table that is there. -/
theorem getPage_found {a dir : UDword} (hrange : ¬ a > userSpaceEnd) (hpage : pageOf a = n)
    (hframe : (s.mem.entry dir (n / 1024)).frame.toNat ≠ 0) :
    getPage garbage a make dir s =
      (entryAddress (pageStart (s.mem.entry dir (n / 1024)).frame.toNat) (n % 1024), s) := by
  have hindex : a.toNat / pageSize = n := hpage
  have hne : getContentsAsPage (s.mem.entry dir (n / 1024)) ≠ 0 := by
    rw [getContentsAsPage_eq]
    intro heq
    exact hframe ((pageStart_eq_zero (frame_lt _)).mp heq)
  unfold getPage
  rw [if_neg hrange]
  simp only [hindex]
  unfold pagesInTable
  rw [if_pos hne, getContentsAsPage_eq]

/-- A table that is not there, and is not asked for. -/
theorem getPage_missing {a dir : UDword} (hpage : pageOf a = n)
    (hframe : (s.mem.entry dir (n / 1024)).frame.toNat = 0) :
    getPage garbage a false dir s = (0, s) := by
  have hindex : a.toNat / pageSize = n := hpage
  have hzero : ¬ getContentsAsPage (s.mem.entry dir (n / 1024)) ≠ 0 := by
    rw [getContentsAsPage_eq, hframe]
    decide
  unfold getPage
  by_cases hrange : a > userSpaceEnd
  · rw [if_pos hrange]
  · rw [if_neg hrange]
    simp only [hindex]
    unfold pagesInTable
    rw [if_neg hzero]
    rfl

/-- A table that has to be made. -/
theorem getPage_make {a dir : UDword} (hrange : ¬ a > userSpaceEnd) (hpage : pageOf a = n)
    (hframe : (s.mem.entry dir (n / 1024)).frame.toNat = 0)
    (halloc : allocatePageFolder s = (pageStart t, s₁)) (ht : t < 2 ^ 20) :
    getPage garbage a true dir s =
      (entryAddress (pageStart t) (n % 1024),
        { s₁ with
          mem := s₁.mem.setEntry dir (n / 1024)
            (createPageEntry garbage (pageStart t) true true) }) := by
  have hindex : a.toNat / pageSize = n := hpage
  have hzero : ¬ getContentsAsPage (s.mem.entry dir (n / 1024)) ≠ 0 := by
    rw [getContentsAsPage_eq, hframe]
    decide
  have hnew : (createPageEntry garbage (pageStart t) true true).frame.toNat = t := by
    show (frameOf (pageStart t)).toNat = t
    rw [toNat_frameOf, pageOf_pageStart ht]
  unfold getPage
  rw [if_neg hrange]
  simp only [hindex]
  unfold pagesInTable
  rw [if_neg hzero]
  simp only [if_true, halloc, entry_setEntry_self, getContentsAsPage_eq, hnew]

end GetPage

/-! ## The loop -/

/-- The entry of page `v` in the kernel's tables. -/
structure KernelEntry (v : ℕ) (e : PagePointer) : Prop where
  present : e.present = true
  user : e.user = isStackPage v
  frame : e.frame.toNat = v

/-- The directory `d`, made from the state `s₁` in which it was clear, when the first `b`
of its tables are there and the first `n` pages are mapped. -/
structure KernelMap (s₁ : Paging) (d b n : ℕ) (s : Paging) : Prop where
  evolves : Evolves {d} s₁ s
  room : (freeFolders s₁).card ≤ (freeFolders s).card + b
  present : ∀ j < b, (s.mem.entry (pageStart d) j).present = true
  kernel : ∀ j < b, (s.mem.entry (pageStart d) j).user = false
  was_free : ∀ j < b, (s.mem.entry (pageStart d) j).frame.toNat ∈ freeFolders s₁
  taken : ∀ j < b, (s.mem.entry (pageStart d) j).frame.toNat ∉ free s
  distinct : ∀ j < b, ∀ j' < b, j ≠ j' → (s.mem.entry (pageStart d) j).frame.toNat ≠
    (s.mem.entry (pageStart d) j').frame.toNat
  absent : ∀ j, b ≤ j → j < 1024 → s.mem.entry (pageStart d) j = PagePointer.absent
  mapped : ∀ v < n, v / 1024 < b → KernelEntry v
    (s.mem.entry (pageStart (s.mem.entry (pageStart d) (v / 1024)).frame.toNat) (v % 1024))
  clear : ∀ v, n ≤ v → v / 1024 < b →
    s.mem.entry (pageStart (s.mem.entry (pageStart d) (v / 1024)).frame.toNat) (v % 1024) =
      PagePointer.absent

section Loop
variable {s₁ s s' : Paging} {d b n t : ℕ} {e : PagePointer}

/-- Mapping the next page. -/
theorem KernelMap.write (h : KernelMap s₁ d b n s) (hd : d ∉ free s₁) (hd' : d < 2 ^ 20)
    (hb : b ≤ 1024) (hn : n / 1024 < b)
    (ht : (s.mem.entry (pageStart d) (n / 1024)).frame.toNat = t) (he : KernelEntry n e) :
    KernelMap s₁ d b (n + 1) { s with mem := s.mem.setEntry (pageStart t) (n % 1024) e } := by
  have hwas := h.was_free _ hn
  have hnot := h.taken _ hn
  rw [ht] at hwas hnot
  have htlt : t < 2 ^ 20 := ht ▸ frame_lt _
  have hmod : ∀ v, v % 1024 < 1024 := fun v => Nat.mod_lt v (by decide)
  have htd : t ≠ d := by
    rintro rfl
    exact hd (mem_free.mpr (Or.inl hwas))
  -- the directory is another page
  have hdir : ∀ j < 1024, (s.mem.setEntry (pageStart t) (n % 1024) e).entry (pageStart d) j =
      s.mem.entry (pageStart d) j :=
    fun j hj => entry_setEntry_other _ htlt hd' (hmod n) hj htd
  -- so are the other tables, and the other entries stay
  have hother : ∀ v, v / 1024 < b → v ≠ n →
      (s.mem.setEntry (pageStart t) (n % 1024) e).entry
        (pageStart (s.mem.entry (pageStart d) (v / 1024)).frame.toNat) (v % 1024) =
      s.mem.entry (pageStart (s.mem.entry (pageStart d) (v / 1024)).frame.toNat) (v % 1024) := by
    intro v hv hne
    by_cases hdiv : v / 1024 = n / 1024
    · rw [hdiv, ht]
      exact entry_setEntry_ne _ htlt (hmod n) (hmod v) (by omega)
    · refine entry_setEntry_other _ htlt (frame_lt _) (hmod n) (hmod v) ?_
      rw [← ht]
      exact h.distinct _ hn _ hv (Ne.symm hdiv)
  have hevolves : Evolves {d} s₁ { s with mem := s.mem.setEntry (pageStart t) (n % 1024) e } := by
    have hstep : Evolves (insert t {d}) s
        { s with mem := s.mem.setEntry (pageStart t) (n % 1024) e } :=
      (Evolves.of_writes (writes_setEntry s.mem htlt (hmod n))).mono (by simp)
    exact ((h.evolves.mono (by simp)).trans hstep).absorb (mem_free.mpr (Or.inl hwas)) hnot
  refine ⟨hevolves, h.room, ?_, ?_, ?_, ?_, ?_, ?_, ?_, ?_⟩
  · intro j hj
    rw [hdir j (by omega)]
    exact h.present j hj
  · intro j hj
    rw [hdir j (by omega)]
    exact h.kernel j hj
  · intro j hj
    rw [hdir j (by omega)]
    exact h.was_free j hj
  · intro j hj
    rw [hdir j (by omega)]
    exact h.taken j hj
  · intro j hj j' hj' hne
    rw [hdir j (by omega), hdir j' (by omega)]
    exact h.distinct j hj j' hj' hne
  · intro j hj hj'
    rw [hdir j hj']
    exact h.absent j hj hj'
  · intro v hv hvb
    simp only [hdir (v / 1024) (by omega)]
    by_cases hvn : v = n
    · subst hvn
      rw [ht, entry_setEntry_self]
      exact he
    · rw [hother v hvb hvn]
      exact h.mapped v (by omega) hvb
  · intro v hv hvb
    simp only [hdir (v / 1024) (by omega)]
    rw [hother v hvb (by omega)]
    exact h.clear v (by omega) hvb

/-- Making the next table, when every page mapped so far is in the tables before. -/
theorem KernelMap.install {s₂ : Paging} (h : KernelMap s₁ d b n s) (hd : d ∉ free s₁)
    (hd' : d < 2 ^ 20) (hb : b < 1024) (hn : n ≤ b * 1024) (htakes : TakesFolder s t s₂)
    (hpresent : e.present = true) (huser : e.user = false) (hframe : e.frame.toNat = t) :
    KernelMap s₁ d (b + 1) n { s₂ with mem := s₂.mem.setEntry (pageStart d) b e } := by
  have hwas : t ∈ freeFolders s₁ := h.evolves.folders htakes.was_free
  have htlt : t < 2 ^ 20 := hframe ▸ frame_lt e
  have hmod : ∀ v, v % 1024 < 1024 := fun v => Nat.mod_lt v (by decide)
  have hne : ∀ k ∈ freeFolders s₁, d ≠ k := by
    rintro k hk rfl
    exact hd (mem_free.mpr (Or.inl hk))
  have hevolves₂ := htakes.evolves
  have hself : (s₂.mem.setEntry (pageStart d) b e).entry (pageStart d) b = e :=
    entry_setEntry_self _ _ _ _
  have hdir : ∀ j < 1024, j ≠ b → (s₂.mem.setEntry (pageStart d) b e).entry (pageStart d) j =
      s.mem.entry (pageStart d) j := by
    intro j hj hjb
    rw [entry_setEntry_ne _ hd' hb hj (Ne.symm hjb)]
    exact hevolves₂.entry hd' (Set.notMem_empty _) (fun hmem => hd (h.evolves.free hmem)) hj
  have htable : ∀ j < b, ∀ a < 1024,
      (s₂.mem.setEntry (pageStart d) b e).entry
        (pageStart (s.mem.entry (pageStart d) j).frame.toNat) a =
      s.mem.entry (pageStart (s.mem.entry (pageStart d) j).frame.toNat) a := by
    intro j hj a ha
    rw [entry_setEntry_other _ hd' (frame_lt _) hb ha (hne _ (h.was_free j hj))]
    exact hevolves₂.entry (frame_lt _) (Set.notMem_empty _) (h.taken j hj) ha
  have hnew : ∀ a < 1024, (s₂.mem.setEntry (pageStart d) b e).entry (pageStart t) a =
      PagePointer.absent := by
    intro a ha
    rw [entry_setEntry_other _ hd' htlt hb ha (hne t hwas)]
    exact entry_cleared htlt ha htakes.cleared
  have hevolves : Evolves {d} s₁ { s₂ with mem := s₂.mem.setEntry (pageStart d) b e } := by
    have hstep : Evolves {d} s₂ { s₂ with mem := s₂.mem.setEntry (pageStart d) b e } :=
      Evolves.of_writes (writes_setEntry s₂.mem hd' hb)
    exact (h.evolves.trans (hevolves₂.mono (Set.empty_subset _))).trans hstep
  refine ⟨hevolves, ?_, ?_, ?_, ?_, ?_, ?_, ?_, ?_, ?_⟩
  · have hcard := Finset.card_erase_add_one htakes.was_free
    have hroom := h.room
    rw [← htakes.folders] at hcard
    show (freeFolders s₁).card ≤ (freeFolders s₂).card + (b + 1)
    omega
  · intro j hj
    by_cases hjb : j = b
    · rw [hjb, hself]
      exact hpresent
    · rw [hdir j (by omega) hjb]
      exact h.present j (by omega)
  · intro j hj
    by_cases hjb : j = b
    · rw [hjb, hself]
      exact huser
    · rw [hdir j (by omega) hjb]
      exact h.kernel j (by omega)
  · intro j hj
    by_cases hjb : j = b
    · rw [hjb, hself, hframe]
      exact hwas
    · rw [hdir j (by omega) hjb]
      exact h.was_free j (by omega)
  · intro j hj
    by_cases hjb : j = b
    · rw [hjb, hself, hframe]
      exact htakes.not_free
    · rw [hdir j (by omega) hjb]
      exact fun hmem => h.taken j (by omega) (hevolves₂.free hmem)
  · -- the tables before were not free when this one was
    have hother : ∀ j < b, (s.mem.entry (pageStart d) j).frame.toNat ≠ t := by
      rintro j hj heq
      exact h.taken j hj (heq ▸ mem_free.mpr (Or.inl htakes.was_free))
    intro j hj j' hj' hjj'
    by_cases hjb : j = b
    · rw [hjb, hself, hframe, hdir j' (by omega) (by omega)]
      exact (hother j' (by omega)).symm
    · rw [hdir j (by omega) hjb]
      by_cases hjb' : j' = b
      · rw [hjb', hself, hframe]
        exact hother j (by omega)
      · rw [hdir j' (by omega) hjb']
        exact h.distinct j (by omega) j' (by omega) hjj'
  · intro j hj hj'
    rw [hdir j hj' (by omega)]
    exact h.absent j (by omega) hj'
  · intro v hv hvb
    simp only [hdir (v / 1024) (by omega) (by omega)]
    rw [htable _ (by omega) _ (hmod v)]
    exact h.mapped v hv (by omega)
  · intro v hv hvb
    by_cases hvnew : v / 1024 = b
    · simp only [hvnew, hself, hframe]
      exact hnew _ (hmod v)
    · simp only [hdir (v / 1024) (by omega) hvnew]
      rw [htable _ (by omega) _ (hmod v)]
      exact h.clear v hv (by omega)

theorem kernelEntry_create (garbage : PagePointer) (hn : n < 0x1000) :
    KernelEntry n (createPageEntry garbage (BitVec.ofNat 32 (n * pageSize))
      (!inStack (BitVec.ofNat 32 (n * pageSize))) (inStack (BitVec.ofNat 32 (n * pageSize)))) := by
  refine ⟨rfl, ?_, ?_⟩
  · show (if !inStack _ then false else true) = _
    rw [inStack_eq hn]
    cases isStackPage n <;> rfl
  · show (frameOf (pageStart n)).toNat = n
    rw [toNat_frameOf, pageOf_pageStart (by omega)]

/-- Before the first iteration the directory is clear. -/
theorem kernelMap_zero (htakes : TakesFolder s d s₁) : KernelMap s₁ d ((0 + 1023) / 1024) 0 s₁ := by
  have hdrange := freeFolders_range htakes.was_free
  refine ⟨Evolves.refl _ _, Nat.le_add_right _ _, ?_, ?_, ?_, ?_, ?_, ?_, ?_, ?_⟩
  case refine_6 =>
    intro j _ hj
    exact entry_cleared (by omega) hj htakes.cleared
  all_goals
    intro j
    omega

/-- One iteration. -/
theorem KernelMap.step (h : KernelMap s₁ d ((n + 1023) / 1024) n s) (hd : d ∉ free s₁)
    (hd' : d < 2 ^ 20) (hroom : 4 ≤ (freeFolders s₁).card) (hn : n < 0x1000)
    (garbage : ℕ → PagePointer) :
    KernelMap s₁ d ((n + 1 + 1023) / 1024) (n + 1) (mapKernelPage garbage (pageStart d) n s) := by
  have hentry := kernelEntry_create (garbage (2 * n + 1)) hn
  rcases user_pages_in_range hn with ⟨hrange, hpage⟩
  have hblocks : (n + 1 + 1023) / 1024 = n / 1024 + 1 := by omega
  rw [hblocks]
  by_cases hfirst : n % 1024 = 0
  · -- the first page of a table
    have hb : (n + 1023) / 1024 = n / 1024 := by omega
    rw [hb] at h
    have hframe : (s.mem.entry (pageStart d) (n / 1024)).frame.toNat = 0 := by
      rw [h.absent _ (le_refl _) (by omega)]
      decide
    rcases allocatePageFolder_spec s with ⟨hempty, -⟩ | ⟨t, s₂, halloc, htakes⟩
    · have hleft := h.room
      rw [hempty, Finset.card_empty] at hleft
      omega
    have htrange := freeFolders_range htakes.was_free
    have htframe : (createPageEntry (garbage (2 * n)) (pageStart t) true true).frame.toNat = t := by
      show (frameOf (pageStart t)).toNat = t
      rw [toNat_frameOf, pageOf_pageStart (by omega)]
    have hmade := h.install hd hd' (by omega) (by omega) htakes rfl rfl htframe
    have hwrite := hmade.write hd hd' (by omega) (by omega)
      (by rw [entry_setEntry_self, htframe]) hentry
    unfold mapKernelPage
    simp only [getPage_make hrange hpage hframe halloc (by omega)]
    exact hwrite
  · have hb : (n + 1023) / 1024 = n / 1024 + 1 := by omega
    rw [hb] at h
    have hframe : (s.mem.entry (pageStart d) (n / 1024)).frame.toNat ≠ 0 := by
      have := freeFolders_range (h.was_free (n / 1024) (by omega))
      omega
    have hwrite := h.write hd hd' (by omega) (by omega) rfl hentry
    unfold mapKernelPage
    simp only [getPage_found hrange hpage hframe]
    exact hwrite

end Loop

/-- Pools of which nothing is taken. -/
def freshPools (m : Mem) : Paging := ⟨m, ⟨fun _ => 0⟩, ⟨fun _ => 0⟩⟩

theorem card_freeFolders_freshPools (m : Mem) : (freeFolders (freshPools m)).card = 0xe00 := by
  unfold freeFolders freshPools
  rw [Finset.card_map, Bitmap.free_zero, Finset.card_range]
  rfl

/-- **`initialise_paging`** maps the first 4096 pages. -/
theorem initialisePaging_map (garbage : ℕ → PagePointer) (m : Mem) :
    ∃ d s₁, TakesFolder (freshPools m) d s₁ ∧ (initialisePaging garbage m).1 = pageStart d ∧
      KernelMap s₁ d 4 0x1000 (initialisePaging garbage m).2 := by
  rcases allocatePageFolder_spec (freshPools m) with ⟨hempty, -⟩ | ⟨d, s₁, halloc, htakes⟩
  · have hcard := card_freeFolders_freshPools m
    rw [hempty] at hcard
    cases hcard
  have hdrange := freeFolders_range htakes.was_free
  have hroom : 4 ≤ (freeFolders s₁).card := by
    have hcard := Finset.card_erase_add_one htakes.was_free
    rw [← htakes.folders, card_freeFolders_freshPools] at hcard
    omega
  have heq : initialisePaging garbage m =
      (pageStart d, loop (mapKernelPage garbage (pageStart d)) 0x1000 s₁) := by
    have halloc' : allocatePageFolder ⟨m, ⟨fun _ => 0⟩, ⟨fun _ => 0⟩⟩ = (pageStart d, s₁) := halloc
    have hpages : userSpaceStart.toNat / pageSize = 0x1000 := by decide
    unfold initialisePaging
    simp only [halloc', hpages]
  -- after `n` pages there are as many tables as `n` pages need
  have hloop : ∀ n ≤ 0x1000, KernelMap s₁ d ((n + 1023) / 1024) n
      (loop (mapKernelPage garbage (pageStart d)) n s₁) := by
    intro n hn
    refine loop_induction (P := fun n s => KernelMap s₁ d ((n + 1023) / 1024) n s) ?_ ?_
    · exact kernelMap_zero htakes
    · intro i s hi h
      exact h.step htakes.not_free (by omega) hroom (by omega) garbage
  have hmap := hloop 0x1000 (by omega)
  rw [show (0x1000 + 1023) / 1024 = 4 by norm_num] at hmap
  rw [heq]
  refine ⟨d, s₁, htakes, rfl, ?_⟩
  dsimp only
  exact hmap

/-! ## The address space of a task -/

/-- The address space of a task: the pages of the kernel are mapped to themselves, those of
the boot stack to frames of the task's own, and nothing else is mapped. -/
structure TaskSpace (s : Paging) (dir : UDword) : Prop where
  inUse : InUse s dir
  folder : 0x100 ≤ pageOf dir ∧ pageOf dir < 0xf00
  tables : ∀ i < 1024, (s.mem.entry dir i).present = true →
    0x100 ≤ (s.mem.entry dir i).frame.toNat ∧ (s.mem.entry dir i).frame.toNat < 0xf00
  mapped : ∀ v < 2 ^ 20, (translate s.mem dir v).map Mapping.user =
    if v < 0x1000 then some (isStackPage v) else none
  kernel : ∀ v < 2 ^ 20, ∀ p, translate s.mem dir v = some p → p.user = false → p.frame = v
  user : ∀ v < 2 ^ 20, ∀ p, translate s.mem dir v = some p → p.user = true →
    2 ≤ p.frame ∧ p.frame < 7 ∨ 0x1000 ≤ p.frame ∧ p.frame < 0x10000
  alone : ∀ v < 2 ^ 20, ∀ w < 2 ^ 20, ∀ p q, translate s.mem dir v = some p →
    translate s.mem dir w = some q → p.user = true → v ≠ w → q.frame ≠ p.frame

section TaskSpace
variable {s s' s₁ : Paging} {src dir : UDword} {d v : ℕ} {p : Mapping}

/-- What is mapped where. -/
theorem TaskSpace.page (h : TaskSpace s dir) (hv : v < 2 ^ 20)
    (hp : translate s.mem dir v = some p) : v < 0x1000 ∧ p.user = isStackPage v := by
  have hmapped := h.mapped v hv
  rw [hp, Option.map_some] at hmapped
  by_cases hlow : v < 0x1000
  · rw [if_pos hlow, Option.some.injEq] at hmapped
    exact ⟨hlow, hmapped⟩
  · rw [if_neg hlow] at hmapped
    cases hmapped

/-- No page has a free frame of the user space. -/
theorem TaskSpace.frame_not_free (h : TaskSpace s dir) (hv : v < 2 ^ 20)
    (hp : translate s.mem dir v = some p) : p.frame ∉ freeFrames s := by
  intro hmem
  by_cases hu : p.user = true
  · exact h.inUse.user v hv p hp hu (mem_free.mpr (Or.inr hmem))
  · rw [Bool.not_eq_true] at hu
    have hframe := h.kernel v hv p hp hu
    have hpage := h.page hv hp
    have := freeFrames_range hmem
    omega

/-- How the finished loop translates. -/
theorem KernelMap.translate (h : KernelMap s₁ d 4 0x1000 s) (hv : v < 2 ^ 20) :
    (v < 0x1000 → ∃ p, MushOS.translate s.mem (pageStart d) v = some p ∧
      p.user = isStackPage v ∧ p.frame = v) ∧
    (¬ v < 0x1000 → MushOS.translate s.mem (pageStart d) v = none) := by
  constructor
  · intro hlow
    have hentry := h.mapped v hlow (by omega)
    have htable : v / 1024 < 4 := by omega
    refine ⟨⟨s.mem.entry (pageStart d) (v / 1024), s.mem.entry (pageStart
      (s.mem.entry (pageStart d) (v / 1024)).frame.toNat) (v % 1024)⟩,
      translate_eq_some.mpr ⟨rfl, rfl, h.present _ htable, hentry.present⟩, ?_, hentry.frame⟩
    unfold Mapping.user
    rw [h.kernel _ htable, hentry.user, Bool.false_or]
  · intro hhigh
    rw [translate_eq_none, h.absent _ (by omega) (by omega)]
    exact Or.inl present_absent

/-- The kernel's address space: every page is mapped to itself. -/
theorem KernelMap.taskSpace (h : KernelMap s₁ d 4 0x1000 s) (hd : d ∉ free s₁)
    (hd' : 0x100 ≤ d ∧ d < 0xf00) : TaskSpace s (pageStart d) := by
  -- the kernel maps its pages to themselves, and only those of the stack are user pages
  have hpage : ∀ v < 2 ^ 20, ∀ p, MushOS.translate s.mem (pageStart d) v = some p →
      p.user = isStackPage v ∧ p.frame = v := by
    intro v hv p hp
    rcases h.translate hv with ⟨hlow, hhigh⟩
    by_cases hv' : v < 0x1000
    · rcases hlow hv' with ⟨q, hq, hrest⟩
      rw [hp] at hq
      cases hq
      exact hrest
    · rw [hhigh hv'] at hp
      cases hp
  have htable : ∀ i < 1024, (s.mem.entry (pageStart d) i).present = true → i < 4 := by
    intro i hi hpresent
    by_contra hge
    rw [h.absent i (by omega) hi] at hpresent
    cases hpresent
  have hdir : pageOf (pageStart d) = d := pageOf_pageStart (by omega)
  refine ⟨⟨⟨?_, ?_, ?_, ?_, ?_⟩, ?_⟩, ?_, ?_, ?_, ?_, ?_, ?_⟩
  · rw [toNat_pageStart (by omega)]
    omega
  · omega
  · rw [hdir]
    exact fun hmem => hd (h.evolves.free hmem)
  · intro i hi hpresent
    have := freeFolders_range (h.was_free i (htable i hi hpresent))
    omega
  · intro i hi hpresent
    exact h.taken i (htable i hi hpresent)
  · intro v hv p hp hu hmem
    rcases hpage v hv p hp with ⟨huser, hframe⟩
    rw [hu] at huser
    have hstack := isStackPage_iff.mp huser.symm
    have := free_range hmem
    omega
  · omega
  · intro i hi hpresent
    exact freeFolders_range (h.was_free i (htable i hi hpresent))
  · intro v hv
    rcases h.translate hv with ⟨hlow, hhigh⟩
    by_cases hv' : v < 0x1000
    · rcases hlow hv' with ⟨p, hp, hu, -⟩
      rw [if_pos hv', hp, Option.map_some, hu]
    · rw [if_neg hv', hhigh hv', Option.map_none]
  · intro v hv p hp _
    exact (hpage v hv p hp).2
  · intro v hv p hp hu
    rcases hpage v hv p hp with ⟨huser, hframe⟩
    rw [hu] at huser
    have hstack := isStackPage_iff.mp huser.symm
    omega
  · intro v hv w hw p q hp hq _ hne
    rw [(hpage v hv p hp).2, (hpage w hw q hq).2]
    exact Ne.symm hne

/-- **`initialise_paging`** makes the kernel's address space, and writes nothing but the
folders it takes. -/
theorem initialisePaging_spec (garbage : ℕ → PagePointer) (m : Mem) :
    TaskSpace (initialisePaging garbage m).2 (initialisePaging garbage m).1 ∧
      Evolves ∅ (freshPools m) (initialisePaging garbage m).2 := by
  rcases initialisePaging_map garbage m with ⟨d, s₁, htakes, heq, hmap⟩
  have hwas : d ∈ free (freshPools m) := mem_free.mpr (Or.inl htakes.was_free)
  have hall : Evolves (insert d ∅) (freshPools m) (initialisePaging garbage m).2 :=
    (htakes.evolves.mono (Set.empty_subset _)).trans (hmap.evolves.mono (by simp))
  rw [heq]
  exact ⟨hmap.taskSpace htakes.not_free (freeFolders_range htakes.was_free),
    hall.absorb hwas fun hmem => htakes.not_free (hmap.evolves.free hmem)⟩

end TaskSpace

end MushOS
