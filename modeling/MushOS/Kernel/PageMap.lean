import MushOS.Theory.Transition
import MushOS.Kernel.KernelSpace

/-! # get_page as a finite map

A directory is a map from page numbers to entries: `pageEntry s d v` is the entry of page
`v`, and the all-zero one where there is no table. `PageDirectory d s` is what keeps it
one: the tables of the directory `d` are pages of the paging pool that have been taken,
pairwise distinct, and none of them is the directory.

A write through `get_page` updates this map at one page (`writePage_spec`), also when it
makes the table first: the new table is clear, and was free, so it is none of the others.
Any sequence of writes is the same sequence of updates (`writePage_run`).
-/

namespace MushOS

open ByteMemory Transition

/-! ## Model -/

/-- `*get_page(address, true, dir) = e`. -/
def writePage (garbage : PagePointer) (address : UDword) (e : PagePointer) (dir : UDword)
    (s : Paging) : Paging :=
  let (page, s) := getPage garbage address true dir s
  { s with mem := s.mem.write32 page e.encode }

/-- The entry read through `get_page(address, false, dir)`; all-zero when that is null. -/
def readPage (garbage : PagePointer) (address : UDword) (dir : UDword) (s : Paging) : PagePointer :=
  let (page, s) := getPage garbage address false dir s
  if page = 0 then PagePointer.absent else PagePointer.decode (s.mem.read32 page)

/-- Page `t` is a page of the paging pool that has been taken. -/
structure Taken (t : ℕ) (s : Paging) : Prop where
  low : 0x100 ≤ t
  high : t < 0xf00
  not_free : t ∉ freeFolders s

/-- The non-zero entries of the directory in page `d` point to tables of their own. -/
structure PageDirectory (d : ℕ) (s : Paging) : Prop where
  directory : Taken d s
  tables : ∀ i < 1024, s.mem.entry (pageStart d) i ≠ PagePointer.absent →
    Taken (s.mem.entry (pageStart d) i).frame.toNat s ∧
      (s.mem.entry (pageStart d) i).frame.toNat ≠ d
  distinct : ∀ i < 1024, ∀ j < 1024, i ≠ j → s.mem.entry (pageStart d) i ≠ PagePointer.absent →
    s.mem.entry (pageStart d) j ≠ PagePointer.absent →
    (s.mem.entry (pageStart d) i).frame.toNat ≠ (s.mem.entry (pageStart d) j).frame.toNat

/-- The entry of page `v`. -/
def pageEntry (s : Paging) (d v : ℕ) : PagePointer :=
  if s.mem.entry (pageStart d) (v / 1024) = PagePointer.absent then PagePointer.absent
  else s.mem.entry (pageStart (s.mem.entry (pageStart d) (v / 1024)).frame.toNat) (v % 1024)

/-- The runs of writes through `get_page`, each made while a folder is free. -/
def pageSystem (d : ℕ) : System Paging (UDword × PagePointer) where
  Init := PageDirectory d
  Step s write s' := write.1 < userSpaceEnd ∧ (freeFolders s).Nonempty ∧
    ∃ garbage, s' = writePage garbage write.1 write.2 (pageStart d) s

/-! ## One write -/

section Write
variable {s s₁ : Paging} {d t v i : ℕ} {e : PagePointer} {a b : UDword}

theorem Taken.lt (h : Taken t s) : t < 2 ^ 20 := by
  have := h.high
  omega

theorem Taken.mono {s' : Paging} (h : Taken t s) (hsub : freeFolders s' ⊆ freeFolders s) :
    Taken t s' := ⟨h.low, h.high, fun hmem => h.not_free (hsub hmem)⟩

/-- An entry that points to it is not zero. -/
theorem Taken.ne_absent (h : Taken t s) (hframe : e.frame.toNat = t) : e ≠ PagePointer.absent := by
  rintro rfl
  have hlow := h.low
  rw [← hframe] at hlow
  exact absurd hlow (by decide)

/-- What is taken does not depend on the memory. -/
theorem Taken.memory (h : Taken t s) (m : Mem) : Taken t { s with mem := m } :=
  ⟨h.low, h.high, h.not_free⟩

/-- A folder that has just been taken. -/
theorem TakesFolder.taken (h : TakesFolder s t s₁) : Taken t s₁ := by
  rcases freeFolders_range h.was_free with ⟨hlow, hhigh⟩
  refine ⟨hlow, hhigh, ?_⟩
  rw [h.folders]
  exact Finset.notMem_erase t _

theorem entryAddress_ne_zero (ht : t < 2 ^ 20) (ht0 : t ≠ 0) (hi : i < 1024) :
    entryAddress (pageStart t) i ≠ 0 := by
  intro hzero
  have haddr := toNat_entryAddress ht hi
  rw [hzero] at haddr
  simp only [BitVec.ofNat_eq_ofNat, BitVec.toNat_ofNat, Nat.zero_mod] at haddr
  omega

/-- An entry that is not zero has a frame. -/
theorem PageDirectory.absent_iff (h : PageDirectory d s) (hi : i < 1024) :
    s.mem.entry (pageStart d) i = PagePointer.absent ↔
      (s.mem.entry (pageStart d) i).frame.toNat = 0 := by
  constructor
  · intro habsent
    rw [habsent]
    decide
  · intro hzero
    by_contra hne
    have := (h.tables i hi hne).1.low
    omega

/-- Making the table of entry `i` changes no entry of a page. -/
theorem PageDirectory.install (h : PageDirectory d s) (hi : i < 1024)
    (habsent : s.mem.entry (pageStart d) i = PagePointer.absent) (htakes : TakesFolder s t s₁)
    (hframe : e.frame.toNat = t) :
    PageDirectory d { s₁ with mem := s₁.mem.setEntry (pageStart d) i e } ∧
      ∀ v < 2 ^ 20, pageEntry { s₁ with mem := s₁.mem.setEntry (pageStart d) i e } d v =
        pageEntry s d v := by
  have hd := h.directory.lt
  have ht := htakes.taken
  have hsub : freeFolders s₁ ⊆ freeFolders s := by
    rw [htakes.folders]
    exact Finset.erase_subset t _
  -- the new table was free, the directory and its tables were not
  have hother : ∀ k, Taken k s → t ≠ k := by
    rintro k hk rfl
    exact hk.not_free htakes.was_free
  have hkept : ∀ k, Taken k s → ∀ j < 1024, s₁.mem.entry (pageStart k) j =
      s.mem.entry (pageStart k) j := by
    intro k hk j hj
    refine entry_samePage (htakes.writes.samePage hk.lt ?_) hk.lt hk.lt hj
    exact fun heq => hother k hk heq.symm
  have hself : (s₁.mem.setEntry (pageStart d) i e).entry (pageStart d) i = e :=
    entry_setEntry_self _ _ _ _
  have hdir : ∀ j < 1024, j ≠ i → (s₁.mem.setEntry (pageStart d) i e).entry (pageStart d) j =
      s.mem.entry (pageStart d) j := by
    intro j hj hji
    rw [entry_setEntry_ne _ hd hi hj (Ne.symm hji)]
    exact hkept d h.directory j hj
  have hpresent : e ≠ PagePointer.absent := ht.ne_absent hframe
  refine ⟨⟨h.directory.mono hsub, ?_, ?_⟩, ?_⟩
  · intro j hj hne
    by_cases hji : j = i
    · subst hji
      simp only [hself, hframe]
      exact ⟨ht.memory _, hother d h.directory⟩
    · simp only [hdir j hj hji] at hne ⊢
      rcases h.tables j hj hne with ⟨htaken, hned⟩
      exact ⟨htaken.mono hsub, hned⟩
  · intro j hj j' hj' hjj' hne hne'
    by_cases hji : j = i
    · subst hji
      simp only [hdir j' hj' (Ne.symm hjj')] at hne' ⊢
      simp only [hself, hframe]
      exact hother _ (h.tables j' hj' hne').1
    · simp only [hdir j hj hji] at hne ⊢
      by_cases hji' : j' = i
      · subst hji'
        simp only [hself, hframe]
        exact (hother _ (h.tables j hj hne).1).symm
      · simp only [hdir j' hj' hji'] at hne' ⊢
        exact h.distinct j hj j' hj' hjj' hne hne'
  · intro v hv
    have hblock : v / 1024 < 1024 := by omega
    have hindex : v % 1024 < 1024 := Nat.mod_lt v (by decide)
    unfold pageEntry
    by_cases hvi : v / 1024 = i
    · -- the new table is clear
      simp only [hvi, hself, hframe, habsent, if_neg hpresent, if_true]
      rw [entry_setEntry_other _ hd ht.lt hi hindex (hother d h.directory).symm]
      exact entry_cleared ht.lt hindex htakes.cleared
    · simp only [hdir _ hblock hvi]
      by_cases hzero : s.mem.entry (pageStart d) (v / 1024) = PagePointer.absent
      · rw [if_pos hzero, if_pos hzero]
      · rcases h.tables _ hblock hzero with ⟨htaken, hned⟩
        rw [if_neg hzero, if_neg hzero,
          entry_setEntry_other _ hd htaken.lt hi hindex (Ne.symm hned)]
        exact hkept _ htaken _ hindex

/-- Writing an entry of a table that is there updates one page. -/
theorem PageDirectory.write (h : PageDirectory d s) (hv : v < 2 ^ 20)
    (hpresent : s.mem.entry (pageStart d) (v / 1024) ≠ PagePointer.absent)
    (ht : (s.mem.entry (pageStart d) (v / 1024)).frame.toNat = t) :
    PageDirectory d { s with mem := s.mem.setEntry (pageStart t) (v % 1024) e } ∧
      (∀ j < 1024, (s.mem.setEntry (pageStart t) (v % 1024) e).entry (pageStart d) j =
        s.mem.entry (pageStart d) j) ∧
      ∀ v' < 2 ^ 20, pageEntry { s with mem := s.mem.setEntry (pageStart t) (v % 1024) e } d v' =
        if v' = v then e else pageEntry s d v' := by
  have hd := h.directory.lt
  have hblock : v / 1024 < 1024 := by omega
  have hindex : ∀ v, v % 1024 < 1024 := fun v => Nat.mod_lt v (by decide)
  rcases h.tables _ hblock hpresent with ⟨htaken, htd⟩
  rw [ht] at htaken htd
  have hdir : ∀ j < 1024, (s.mem.setEntry (pageStart t) (v % 1024) e).entry (pageStart d) j =
      s.mem.entry (pageStart d) j :=
    fun j hj => entry_setEntry_other _ htaken.lt hd (hindex v) hj htd
  refine ⟨⟨h.directory.memory _, ?_, ?_⟩, hdir, ?_⟩
  · intro j hj hne
    simp only [hdir j hj] at hne ⊢
    rcases h.tables j hj hne with ⟨htable, hned⟩
    exact ⟨htable.memory _, hned⟩
  · intro j hj j' hj' hjj' hne hne'
    simp only [hdir j hj, hdir j' hj'] at hne hne' ⊢
    exact h.distinct j hj j' hj' hjj' hne hne'
  · intro v' hv'
    have hblock' : v' / 1024 < 1024 := by omega
    unfold pageEntry
    simp only [hdir _ hblock']
    by_cases hzero : s.mem.entry (pageStart d) (v' / 1024) = PagePointer.absent
    · have hne : v' ≠ v := by
        rintro rfl
        exact hpresent hzero
      rw [if_pos hzero, if_pos hzero, if_neg hne]
    · rw [if_neg hzero, if_neg hzero]
      by_cases hvv : v' = v
      · rw [if_pos hvv, hvv, ht]
        exact entry_setEntry_self _ _ _ _
      · rw [if_neg hvv]
        by_cases hdiv : v' / 1024 = v / 1024
        · -- another entry of the same table
          rw [hdiv, ht]
          exact entry_setEntry_ne _ htaken.lt (hindex v) (hindex v') (by omega)
        · refine entry_setEntry_other _ htaken.lt (frame_lt _) (hindex v) (hindex v') ?_
          rw [← ht]
          exact h.distinct _ hblock _ hblock' (Ne.symm hdiv) hpresent hzero

/-- The entry read through `get_page`. -/
theorem PageDirectory.readPage (h : PageDirectory d s) (garbage : PagePointer)
    (hb : b < userSpaceEnd) : readPage garbage b (pageStart d) s = pageEntry s d (pageOf b) := by
  have hlt := pageOf_lt b
  have hblock : pageOf b / 1024 < 1024 := by omega
  unfold MushOS.readPage pageEntry
  by_cases hzero : s.mem.entry (pageStart d) (pageOf b / 1024) = PagePointer.absent
  · have hframe := (h.absent_iff hblock).mp hzero
    rw [getPage_missing rfl hframe, if_pos hzero]
    rfl
  · have hframe : (s.mem.entry (pageStart d) (pageOf b / 1024)).frame.toNat ≠ 0 :=
      fun heq => hzero ((h.absent_iff hblock).mpr heq)
    rw [getPage_found (BitVec.not_lt.mpr (BitVec.le_of_lt hb)) rfl hframe, if_neg hzero]
    have hne := entryAddress_ne_zero (frame_lt _) hframe (Nat.mod_lt (pageOf b) (by decide))
    simp only [if_neg hne]
    rfl

/-- **`get_page` with `make`**: the table of the page is there, and no entry has changed. -/
theorem getPage_makes (h : PageDirectory d s) (hfree : (freeFolders s).Nonempty)
    (ha : a < userSpaceEnd) (garbage : PagePointer) : ∃ s₁ t,
    getPage garbage a true (pageStart d) s =
      (entryAddress (pageStart t) (pageOf a % 1024), s₁) ∧
    PageDirectory d s₁ ∧ (∀ v < 2 ^ 20, pageEntry s₁ d v = pageEntry s d v) ∧
    s₁.mem.entry (pageStart d) (pageOf a / 1024) ≠ PagePointer.absent ∧
    (s₁.mem.entry (pageStart d) (pageOf a / 1024)).frame.toNat = t := by
  have hlt := pageOf_lt a
  have hblock : pageOf a / 1024 < 1024 := by omega
  have hrange : ¬ a > userSpaceEnd := BitVec.not_lt.mpr (BitVec.le_of_lt ha)
  by_cases hzero : s.mem.entry (pageStart d) (pageOf a / 1024) = PagePointer.absent
  · -- the table is made first
    rcases allocatePageFolder_spec s with ⟨hempty, -⟩ | ⟨t, s₁, halloc, htakes⟩
    · rw [hempty] at hfree
      exact absurd hfree Finset.not_nonempty_empty
    have ht := htakes.taken
    have hframe : (createPageEntry garbage (pageStart t) true true).frame.toNat = t :=
      toNat_frameOf_pageStart ht.lt
    rcases h.install hblock hzero htakes hframe with ⟨hmade, hsame⟩
    refine ⟨_, t, getPage_make hrange rfl ((h.absent_iff hblock).mp hzero) halloc ht.lt, hmade,
      hsame, ?_⟩
    show Mem.entry (Mem.setEntry _ _ _ _) _ _ ≠ _ ∧
      (Mem.entry (Mem.setEntry _ _ _ _) _ _).frame.toNat = _
    rw [entry_setEntry_self]
    exact ⟨ht.ne_absent hframe, hframe⟩
  · have hframe : (s.mem.entry (pageStart d) (pageOf a / 1024)).frame.toNat ≠ 0 :=
      fun heq => hzero ((h.absent_iff hblock).mpr heq)
    exact ⟨s, _, getPage_found hrange rfl hframe, h, fun _ _ => rfl, hzero, rfl⟩

/-- **One write through `get_page`** updates one page, whose table is there afterwards. -/
theorem writePage_spec (h : PageDirectory d s) (hfree : (freeFolders s).Nonempty)
    (ha : a < userSpaceEnd) (garbage e : PagePointer) :
    PageDirectory d (writePage garbage a e (pageStart d) s) ∧
      (writePage garbage a e (pageStart d) s).mem.entry (pageStart d) (pageOf a / 1024) ≠
        PagePointer.absent ∧
      ∀ v < 2 ^ 20, pageEntry (writePage garbage a e (pageStart d) s) d v =
        if v = pageOf a then e else pageEntry s d v := by
  rcases getPage_makes h hfree ha garbage with ⟨s₁, t, hpage, hdir, hsame, hpresent, ht⟩
  have hwrite : writePage garbage a e (pageStart d) s =
      { s₁ with mem := s₁.mem.setEntry (pageStart t) (pageOf a % 1024) e } := by
    unfold writePage
    rw [hpage]
    rfl
  have hlt := pageOf_lt a
  rcases hdir.write (e := e) hlt hpresent ht with ⟨hdir', hkept, hupdate⟩
  rw [hwrite]
  refine ⟨hdir', ?_, ?_⟩
  · show Mem.entry _ _ _ ≠ _
    rw [hkept _ (by omega)]
    exact hpresent
  intro v hv
  rw [hupdate v hv, hsame v hv]

end Write

/-! ## Any sequence of writes -/

section Runs
variable {s s' : Paging} {d : ℕ} {writes : List (UDword × PagePointer)}

/-- The map after a sequence of writes. -/
def updates (f : ℕ → PagePointer) (writes : List (UDword × PagePointer)) : ℕ → PagePointer :=
  writes.foldl (fun f write => Function.update f (pageOf write.1) write.2) f

/-- **Any sequence of writes** is the sequence of the updates. -/
theorem writePage_run (h : PageDirectory d s) (hrun : (pageSystem d).Run s writes s') :
    PageDirectory d s' ∧
      ∀ v < 2 ^ 20, pageEntry s' d v = updates (pageEntry s d) writes v := by
  induction hrun with
  | nil => exact ⟨h, fun _ _ => rfl⟩
  | @snoc s₁ s₂ writes write _ hstep ih =>
    rcases ih with ⟨hdir, hmap⟩
    rcases hstep with ⟨ha, hfree, garbage, rfl⟩
    rcases writePage_spec hdir hfree ha garbage write.2 with ⟨hdir', -, hupdate⟩
    refine ⟨hdir', ?_⟩
    intro v hv
    unfold updates at hmap ⊢
    rw [hupdate v hv, List.foldl_append, List.foldl_cons, List.foldl_nil, Function.update_apply,
      hmap v hv]

end Runs

/-! ## get_page as a finite map -/

section FiniteMap
variable {s : Paging} {d : ℕ} {a : UDword}

/-- **`get_page` is a finite map from pages to entries**: what has been written is read back,
the entries of the other pages stay, and the directory keeps tables of its own. -/
theorem getPage_finiteMap (garbage garbage' : PagePointer) (h : PageDirectory d s)
    (hfree : (freeFolders s).Nonempty) (ha : a < userSpaceEnd) (e : PagePointer) :
    (∃ page, getPage garbage' a false (pageStart d) (writePage garbage a e (pageStart d) s) =
        (page, writePage garbage a e (pageStart d) s) ∧ page ≠ 0 ∧
      PagePointer.decode ((writePage garbage a e (pageStart d) s).mem.read32 page) = e) ∧
    (∀ b < userSpaceEnd, pageOf b ≠ pageOf a →
      readPage garbage' b (pageStart d) (writePage garbage a e (pageStart d) s) =
        readPage garbage' b (pageStart d) s) ∧
    PageDirectory d (writePage garbage a e (pageStart d) s) := by
  rcases writePage_spec h hfree ha garbage e with ⟨hdir, hpresent, hupdate⟩
  have hlt := pageOf_lt a
  have hblock : pageOf a / 1024 < 1024 := by omega
  refine ⟨?_, ?_, hdir⟩
  · have hframe := fun heq => hpresent ((hdir.absent_iff hblock).mpr heq)
    have hfound : getPage garbage' a false (pageStart d)
        (writePage garbage a e (pageStart d) s) = _ :=
      getPage_found (BitVec.not_lt.mpr (BitVec.le_of_lt ha)) rfl hframe
    have hne := entryAddress_ne_zero (frame_lt _) hframe (Nat.mod_lt (pageOf a) (by decide))
    refine ⟨_, hfound, hne, ?_⟩
    have hread := hdir.readPage garbage' ha
    rw [hupdate _ hlt, if_pos rfl] at hread
    unfold readPage at hread
    rw [hfound] at hread
    simpa only [if_neg hne] using hread
  · intro b hb hne
    rw [hdir.readPage garbage' hb, h.readPage garbage' hb, hupdate _ (pageOf_lt b), if_neg hne]

/-- The directory `initialise_paging` makes is one of these maps. -/
theorem pageDirectory_initialisePaging (garbage : ℕ → PagePointer) (m : Mem) :
    ∃ d, (initialisePaging garbage m).1 = pageStart d ∧
      PageDirectory d (initialisePaging garbage m).2 := by
  rcases initialisePaging_map garbage m with ⟨d, s₁, htakes, heq, hmap⟩
  have hblock : ∀ i < 1024, (initialisePaging garbage m).2.mem.entry (pageStart d) i ≠
      PagePointer.absent → i < 4 := by
    intro i hi hne
    by_contra hge
    exact hne (hmap.absent i (by omega) hi)
  refine ⟨d, heq, htakes.taken.mono hmap.evolves.folders, ?_, ?_⟩
  · intro i hi hne
    have hwas := hmap.was_free i (hblock i hi hne)
    rcases freeFolders_range hwas with ⟨hlow, hhigh⟩
    refine ⟨⟨hlow, hhigh, ?_⟩, ?_⟩
    · exact fun hmem => hmap.taken i (hblock i hi hne) (mem_free.mpr (Or.inl hmem))
    · intro hd
      rw [hd] at hwas
      exact htakes.taken.not_free hwas
  · intro i hi j hj hij hne hne'
    exact hmap.distinct i (hblock i hi hne) j (hblock j hj hne') hij

/-- A directory with one table. -/
theorem pageDirectory_onePage : PageDirectory 0x100 onePageState := by
  have hfirst : ∀ i < 1024, onePageState.mem.entry (pageStart 0x100) i ≠ PagePointer.absent →
      i = 0 ∧ (onePageState.mem.entry (pageStart 0x100) i).frame.toNat = 0x101 := by
    intro i hi hne
    have hentry : onePageState.mem.entry (pageStart 0x100) i =
        if i = 0 then onePageTable else PagePointer.absent := onePage_directory hi
    rw [hentry] at hne ⊢
    by_cases h0 : i = 0
    · rw [if_pos h0]
      exact ⟨h0, rfl⟩
    · rw [if_neg h0] at hne
      exact absurd rfl hne
  refine ⟨⟨by decide, by decide, ?_⟩, ?_, ?_⟩
  · rw [freeFolders_onePageState, Finset.mem_Ico]
    decide
  · intro i hi hne
    rcases hfirst i hi hne with ⟨-, hframe⟩
    rw [hframe]
    refine ⟨⟨by decide, by decide, ?_⟩, by decide⟩
    rw [freeFolders_onePageState, Finset.mem_Ico]
    decide
  · intro i hi j hj hij hne hne'
    have hi0 := (hfirst i hi hne).1
    have hj0 := (hfirst j hj hne').1
    omega

/-- A write that makes the second table. -/
theorem getPage_finiteMap_onePage :
    (∃ page, getPage PagePointer.absent 0x400123 false (pageStart 0x100)
        (writePage PagePointer.absent 0x400123 onePageEntry (pageStart 0x100) onePageState) =
        (page, writePage PagePointer.absent 0x400123 onePageEntry (pageStart 0x100) onePageState) ∧
      page ≠ 0 ∧ PagePointer.decode ((writePage PagePointer.absent 0x400123 onePageEntry
        (pageStart 0x100) onePageState).mem.read32 page) = onePageEntry) ∧
    (∀ b < userSpaceEnd, pageOf b ≠ pageOf 0x400123 →
      readPage PagePointer.absent b (pageStart 0x100)
          (writePage PagePointer.absent 0x400123 onePageEntry (pageStart 0x100) onePageState) =
        readPage PagePointer.absent b (pageStart 0x100) onePageState) ∧
    PageDirectory 0x100
      (writePage PagePointer.absent 0x400123 onePageEntry (pageStart 0x100) onePageState) := by
  refine getPage_finiteMap PagePointer.absent PagePointer.absent pageDirectory_onePage ?_
    (by decide) onePageEntry
  rw [freeFolders_onePageState]
  exact ⟨0x102, by decide⟩

end FiniteMap

end MushOS
