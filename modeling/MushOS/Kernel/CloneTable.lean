import Mathlib.Data.Nat.Count
import MushOS.Kernel.PageAlloc

/-! # clone_table, entry by entry

What one call of `clone_table` does, whatever the pools hold:

* `evolves_cloneTable`: it writes the table and the frames it takes, and page 0
  if an allocator has returned null;
* `freeFrames_cloneTable`: it takes one frame for each user page, as long as there
  are any;
* `cloneTable_spec`: with enough free slots the new table is a copy of the old one.

The table and the frames of its user pages must not themselves be free slots, or
the allocators would hand them out.
-/

namespace MushOS

open ByteMemory Loop

/-! ## The frame rule -/

/-- The free sets shrink, and only pages in `W` and pages taken on the way are
written. -/
structure Evolves (W : Set ℕ) (s s' : Paging) : Prop where
  folders : freeFolders s' ⊆ freeFolders s
  frames : freeFrames s' ⊆ freeFrames s
  writes : Writes (pages {n | n ∈ W ∨ n ∈ free s ∧ n ∉ free s'}) s.mem s'.mem

section Evolves
variable {V W : Set ℕ} {s s₁ s₂ s' : Paging} {n : ℕ}

theorem Evolves.free (h : Evolves W s s') : free s' ⊆ free s :=
  Finset.union_subset_union h.folders h.frames

theorem Evolves.refl (W : Set ℕ) (s : Paging) : Evolves W s s :=
  ⟨Finset.Subset.refl _, Finset.Subset.refl _, Writes.refl _ _⟩

theorem Evolves.mono (h : Evolves V s s') (hVW : V ⊆ W) : Evolves W s s' := by
  refine ⟨h.folders, h.frames, h.writes.mono (pages_mono ?_)⟩
  rintro n (hn | hn)
  · exact Or.inl (hVW hn)
  · exact Or.inr hn

theorem Evolves.trans (h : Evolves W s s₁) (h' : Evolves W s₁ s₂) : Evolves W s s₂ := by
  refine ⟨h'.folders.trans h.folders, h'.frames.trans h.frames, ?_⟩
  have hfirst : Writes (pages {n | n ∈ W ∨ n ∈ MushOS.free s ∧ n ∉ MushOS.free s₂})
      s.mem s₁.mem := by
    refine h.writes.mono (pages_mono ?_)
    rintro n (hn | ⟨hn, hn'⟩)
    · exact Or.inl hn
    · exact Or.inr ⟨hn, fun hfree => hn' (h'.free hfree)⟩
  refine hfirst.trans (h'.writes.mono (pages_mono ?_))
  rintro n (hn | ⟨hn, hn'⟩)
  · exact Or.inl hn
  · exact Or.inr ⟨h.free hn, hn'⟩

/-- A page that was taken on the way need not be named. -/
theorem Evolves.absorb (h : Evolves (insert n W) s s') (hn : n ∈ MushOS.free s)
    (hn' : n ∉ MushOS.free s') : Evolves W s s' := by
  refine ⟨h.folders, h.frames, h.writes.mono (pages_mono ?_)⟩
  rintro k ((rfl | hk) | hk)
  · exact Or.inr ⟨hn, hn'⟩
  · exact Or.inl hk
  · exact Or.inr hk

/-- A page that was not taken on the way, and is not in `W`, stays as it is. -/
theorem Evolves.samePage (h : Evolves W s s') (hn : n < 2 ^ 20) (hW : n ∉ W)
    (hfree : n ∈ MushOS.free s → n ∈ MushOS.free s') : SamePage s.mem n s'.mem n := by
  apply h.writes.samePage hn
  rintro (hmem | ⟨hmem, hnot⟩)
  · exact hW hmem
  · exact hnot (hfree hmem)

/-- Memory writes alone. -/
theorem Evolves.of_writes {m : Mem} (h : Writes (pages W) s.mem m) :
    Evolves W s { s with mem := m } :=
  ⟨Finset.Subset.refl _, Finset.Subset.refl _, h.mono (pages_mono fun _ hn => Or.inl hn)⟩

theorem TakesFrame.evolves (h : TakesFrame s n s') : Evolves ∅ s s' := by
  refine ⟨?_, ?_, ?_⟩
  · rw [h.folders]
  · rw [h.frames]
    exact Finset.erase_subset _ _
  · rw [h.mem]
    exact Writes.refl _ _

theorem TakesFrame.not_free (h : TakesFrame s n s') : n ∉ MushOS.free s' := by
  have hrange := freeFrames_range h.was_free
  rw [MushOS.mem_free, not_or]
  constructor
  · intro hmem
    have := freeFolders_range hmem
    omega
  · rw [h.frames]
    exact Finset.notMem_erase _ _

theorem TakesFolder.not_free (h : TakesFolder s n s') : n ∉ MushOS.free s' := by
  have hrange := freeFolders_range h.was_free
  rw [MushOS.mem_free, not_or]
  constructor
  · rw [h.folders]
    exact Finset.notMem_erase _ _
  · intro hmem
    have := freeFrames_range hmem
    omega

theorem TakesFolder.evolves (h : TakesFolder s n s') : Evolves ∅ s s' := by
  refine ⟨?_, ?_, h.writes.mono (pages_mono ?_)⟩
  · rw [h.folders]
    exact Finset.erase_subset _ _
  · rw [h.frames]
  · rintro k rfl
    exact Or.inr ⟨MushOS.mem_free.mpr (Or.inl h.was_free), h.not_free⟩

end Evolves

/-! ## One entry -/

/-- The entry `e` of a table is a user page, for a table whose own user bit is
`user`. -/
def isUserPage (user : Bool) (e : PagePointer) : Bool := e.present && (user || e.user)

/-- The memory after entry `i` has been cloned into the frame `n`. -/
def cloneUserPage (table pages : UDword) (i n : ℕ) (m : Mem) : Mem :=
  let e := m.entry pages i
  let m := (m.setEntry table i e).setEntry table i { e with frame := frameOf (pageStart n) }
  copyPagePhysical (getContentsAsPage (m.entry pages i)) (pageStart n) m

/-- The frame an allocation returns: a free one, which is taken, or page 0. -/
def TakesOrNull (s : Paging) (n : ℕ) (s' : Paging) : Prop :=
  freeFrames s = ∅ ∧ n = 0 ∧ s' = s ∨ TakesFrame s n s'

section Entry
variable {s : Paging} {src : PagePointer} {table pages : UDword} {i k : ℕ}

theorem cloneTableEntry_absent (h : (s.mem.entry pages i).present = false) :
    cloneTableEntry src table pages i s = s := by
  unfold cloneTableEntry
  rw [if_pos h]

theorem cloneTableEntry_kernel (h : (s.mem.entry pages i).present = true)
    (hk : isUserPage src.user (s.mem.entry pages i) = false) :
    cloneTableEntry src table pages i s =
      { s with mem := s.mem.setEntry table i (s.mem.entry pages i) } := by
  unfold isUserPage at hk
  rw [h, Bool.true_and] at hk
  unfold cloneTableEntry
  rw [if_neg (by simp [h]), if_neg (by simp [hk])]

theorem cloneTableEntry_user (table : UDword)
    (hu : isUserPage src.user (s.mem.entry pages i) = true) :
    ∃ n s', TakesOrNull s n s' ∧ cloneTableEntry src table pages i s =
      { s' with mem := cloneUserPage table pages i n s.mem } := by
  unfold isUserPage at hu
  rw [Bool.and_eq_true] at hu
  rcases hu with ⟨hpresent, huser⟩
  unfold cloneTableEntry
  rw [if_neg (by simp [hpresent]), if_pos huser]
  obtain ⟨m₁, hm₁⟩ : ∃ m₁, m₁ = s.mem.setEntry table i (s.mem.entry pages i) := ⟨_, rfl⟩
  have hself : m₁.entry table i = s.mem.entry pages i := by
    rw [hm₁, entry_setEntry_self]
  rw [clonePagePointer_eq, ← hm₁]
  rcases allocateFrame_spec { s with mem := m₁ } with ⟨hempty, heq⟩ | ⟨n, s₂, heq, htakes⟩
  · refine ⟨0, s, Or.inl ⟨hempty, rfl, rfl⟩, ?_⟩
    simp only [heq, hself, entry_setEntry_self, cloneUserPage, ← hm₁, getContentsAsPage_eq]
    rfl
  · have hn := freeFrames_range htakes.was_free
    refine ⟨n, { s₂ with mem := s.mem }, Or.inr ⟨htakes.was_free, htakes.frames,
      htakes.folders, rfl⟩, ?_⟩
    have hmem : s₂.mem = m₁ := htakes.mem
    simp only [heq, hmem, hself, entry_setEntry_self, cloneUserPage, ← hm₁, getContentsAsPage_eq,
      toNat_frameOf_pageStart (show n < 2 ^ 20 by omega)]

end Entry

theorem TakesOrNull.frames {s s' : Paging} {n : ℕ} (h : TakesOrNull s n s') :
    freeFrames s' = (freeFrames s).erase n := by
  rcases h with ⟨hempty, -, rfl⟩ | h
  · rw [hempty]
    rfl
  · exact h.frames

theorem TakesOrNull.folders {s s' : Paging} {n : ℕ} (h : TakesOrNull s n s') :
    freeFolders s' = freeFolders s := by
  rcases h with ⟨-, -, rfl⟩ | h
  · rfl
  · exact h.folders

theorem TakesOrNull.lt {s s' : Paging} {n : ℕ} (h : TakesOrNull s n s') : n < 2 ^ 20 := by
  rcases h with ⟨-, rfl, -⟩ | h
  · decide
  · have := freeFrames_range h.was_free
    omega

/-- An allocation from a pool that is not exhausted takes a frame. -/
theorem TakesOrNull.takes {s s' : Paging} {n : ℕ} (h : TakesOrNull s n s')
    (hne : freeFrames s ≠ ∅) : TakesFrame s n s' := by
  rcases h with ⟨hempty, -⟩ | h
  · exact absurd hempty hne
  · exact h

section UserPage
variable {m : Mem} {i k n t : ℕ} {pages' : UDword}

theorem writes_cloneUserPage (m : Mem) (pages' : UDword) (hk : k < 2 ^ 20) (hn : n < 2 ^ 20)
    (hi : i < 1024) :
    Writes (pages {k, n}) m (cloneUserPage (pageStart k) pages' i n m) := by
  have hksub : pages {k} ⊆ pages {k, n} := pages_mono (by simp)
  have hnsub : pages {n} ⊆ pages {k, n} := pages_mono (by simp)
  unfold cloneUserPage
  exact (((writes_setEntry m hk hi).trans (writes_setEntry _ hk hi)).mono hksub).trans
    ((writes_copyPagePhysical hn _ _).mono hnsub)

theorem pageStart_mem_written (table : UDword) :
    pageStart n ∈ (cloneUserPage table pages' i n m).written :=
  destination_mem_written _ _ _

/-- The new entry: the flags of the old one, and the new frame. -/
theorem entry_cloneUserPage (m : Mem) (pages' : UDword) (hk : k < 2 ^ 20) (hn : n < 2 ^ 20)
    (hi : i < 1024) (hkn : k ≠ n) :
    (cloneUserPage (pageStart k) pages' i n m).entry (pageStart k) i =
      { m.entry pages' i with frame := frameOf (pageStart n) } := by
  unfold cloneUserPage
  have hcopy := (writes_copyPagePhysical hn (getContentsAsPage
    (((m.setEntry (pageStart k) i (m.entry pages' i)).setEntry (pageStart k) i
      { m.entry pages' i with frame := frameOf (pageStart n) }).entry pages' i))
    ((m.setEntry (pageStart k) i (m.entry pages' i)).setEntry (pageStart k) i
      { m.entry pages' i with frame := frameOf (pageStart n) })).samePage hk (by simpa using hkn)
  rw [entry_samePage hcopy hk hk hi, entry_setEntry_self]

theorem entry_cloneUserPage_ne {j : ℕ} (hk : k < 2 ^ 20) (hn : n < 2 ^ 20) (hi : i < 1024)
    (hkn : k ≠ n) (hj : j < 1024) (hij : i ≠ j) :
    (cloneUserPage (pageStart k) pages' i n m).entry (pageStart k) j =
      m.entry (pageStart k) j := by
  unfold cloneUserPage
  have hcopy := (writes_copyPagePhysical hn (getContentsAsPage
    (((m.setEntry (pageStart k) i (m.entry pages' i)).setEntry (pageStart k) i
      { m.entry pages' i with frame := frameOf (pageStart n) }).entry pages' i))
    ((m.setEntry (pageStart k) i (m.entry pages' i)).setEntry (pageStart k) i
      { m.entry pages' i with frame := frameOf (pageStart n) })).samePage hk (by simpa using hkn)
  rw [entry_samePage hcopy hk hk hj, entry_setEntry_ne _ hk hi hj hij,
    entry_setEntry_ne _ hk hi hj hij]

/-- The new frame holds what the old one held. -/
theorem samePage_cloneUserPage (hk : k < 2 ^ 20) (hn : n < 2 ^ 20) (ht : t < 2 ^ 20)
    (hi : i < 1024) (htk : t ≠ k) (hfk : (m.entry (pageStart t) i).frame.toNat ≠ k)
    (hfn : (m.entry (pageStart t) i).frame.toNat ≠ n) :
    SamePage m (m.entry (pageStart t) i).frame.toNat
      (cloneUserPage (pageStart k) (pageStart t) i n m) n := by
  have hf := frame_lt (m.entry (pageStart t) i)
  unfold cloneUserPage
  obtain ⟨m₁, hm₁⟩ : ∃ m₁, m₁ = (m.setEntry (pageStart k) i (m.entry (pageStart t) i)).setEntry
      (pageStart k) i { m.entry (pageStart t) i with frame := frameOf (pageStart n) } := ⟨_, rfl⟩
  have hwrites : Writes (pages {k}) m m₁ := by
    rw [hm₁]
    exact (writes_setEntry m hk hi).trans (writes_setEntry _ hk hi)
  have hentry : m₁.entry (pageStart t) i = m.entry (pageStart t) i :=
    entry_samePage (hwrites.samePage ht (by simpa using htk)) ht ht hi
  simp only [← hm₁, hentry, getContentsAsPage_eq]
  exact (hwrites.samePage hf (by simpa using hfk)).trans (samePage_copyPagePhysical hf hn hfn m₁)

end UserPage

/-! ## Whatever the pools hold -/

section Always
variable {W : Set ℕ} {s : Paging} {src : PagePointer} {pages' : UDword} {i k : ℕ}

/-- The footprint of one entry: the table, and a frame that is taken or null. -/
theorem evolves_cloneTableEntry (src : PagePointer) (pages' : UDword) (hk : k < 2 ^ 20)
    (hkW : k ∈ W)
    (hnull : freeFrames s = ∅ → 0 ∈ W) (hi : i < 1024) :
    Evolves W s (cloneTableEntry src (pageStart k) pages' i s) := by
  have hksub : ({k} : Set ℕ) ⊆ W := by
    intro n hn
    rw [Set.mem_singleton_iff.mp hn]
    exact hkW
  by_cases hpresent : (s.mem.entry pages' i).present = false
  · rw [cloneTableEntry_absent hpresent]
    exact Evolves.refl W s
  rw [Bool.not_eq_false] at hpresent
  by_cases huser : isUserPage src.user (s.mem.entry pages' i) = true
  · rcases cloneTableEntry_user (pageStart k) huser with ⟨n, s', htakes, heq⟩
    have hwrites := writes_cloneUserPage s.mem pages' hk htakes.lt hi
    rw [heq]
    rcases htakes with ⟨hempty, rfl, rfl⟩ | htakes
    · -- null: page 0 is written
      refine (Evolves.of_writes hwrites).mono ?_
      rintro n (rfl | rfl)
      · exact hkW
      · exact hnull hempty
    · have hlast : Evolves (insert n W) s' { s' with
          mem := cloneUserPage (pageStart k) pages' i n s.mem } := by
        rw [← htakes.mem] at hwrites ⊢
        refine (Evolves.of_writes hwrites).mono ?_
        rintro j (rfl | rfl)
        · exact Or.inr hkW
        · exact Or.inl rfl
      have hall := (htakes.evolves.mono (Set.empty_subset (insert n W))).trans hlast
      exact hall.absorb (mem_free.mpr (Or.inr htakes.was_free)) htakes.not_free
  · rw [Bool.not_eq_true] at huser
    rw [cloneTableEntry_kernel hpresent huser]
    exact (Evolves.of_writes (writes_setEntry s.mem hk hi)).mono hksub

/-- One entry takes one frame if it is a user page, and no folder. -/
theorem freeFrames_cloneTableEntry (src : PagePointer) (table pages' : UDword) (i : ℕ)
    (s : Paging) :
    (freeFrames (cloneTableEntry src table pages' i s)).card =
        (freeFrames s).card - (if isUserPage src.user (s.mem.entry pages' i) then 1 else 0) ∧
      freeFolders (cloneTableEntry src table pages' i s) = freeFolders s := by
  by_cases huser : isUserPage src.user (s.mem.entry pages' i) = true
  · rcases cloneTableEntry_user table huser with ⟨n, s', htakes, heq⟩
    rw [heq, if_pos huser]
    refine ⟨?_, htakes.folders⟩
    show (freeFrames s').card = _
    rw [htakes.frames]
    rcases htakes with ⟨hempty, -⟩ | htakes
    · rw [hempty]
      rfl
    · exact Finset.card_erase_of_mem htakes.was_free
  · rw [if_neg huser]
    by_cases hpresent : (s.mem.entry pages' i).present = false
    · rw [cloneTableEntry_absent hpresent]
      exact ⟨(Nat.sub_zero _).symm, rfl⟩
    · rw [cloneTableEntry_kernel (by simpa using hpresent) (by simpa using huser)]
      exact ⟨(Nat.sub_zero _).symm, rfl⟩

/-- Writes are never taken back. -/
theorem Evolves.kept {s' : Paging} (h : Evolves W s s') {a : UDword} (ha : a ∈ s.mem.written) :
    a ∈ s'.mem.written := h.writes.kept a ha

end Always

/-- The page an allocation of a folder returns, page 0 when it returns null. -/
def FolderOrNull (s : Paging) (k : ℕ) (s' : Paging) : Prop :=
  freeFolders s = ∅ ∧ k = 0 ∧ s' = s ∨ TakesFolder s k s'

theorem allocatePageFolder_cases (s : Paging) :
    ∃ k s', allocatePageFolder s = (pageStart k, s') ∧ FolderOrNull s k s' := by
  rcases allocatePageFolder_spec s with ⟨hempty, heq⟩ | ⟨k, s', heq, htakes⟩
  · exact ⟨0, s, heq, Or.inl ⟨hempty, rfl, rfl⟩⟩
  · exact ⟨k, s', heq, Or.inr htakes⟩

section FolderOrNull
variable {W : Set ℕ} {s s' s'' : Paging} {k n : ℕ}

theorem FolderOrNull.lt (h : FolderOrNull s k s') : k < 2 ^ 20 := by
  rcases h with ⟨-, rfl, -⟩ | h
  · decide
  · have := freeFolders_range h.was_free
    omega

theorem FolderOrNull.evolves (h : FolderOrNull s k s') : Evolves ∅ s s' := by
  rcases h with ⟨-, -, rfl⟩ | h
  · exact Evolves.refl ∅ s'
  · exact h.evolves

theorem FolderOrNull.frames (h : FolderOrNull s k s') : freeFrames s' = freeFrames s := by
  rcases h with ⟨-, -, rfl⟩ | h
  · rfl
  · exact h.frames

theorem FolderOrNull.card_folders (h : FolderOrNull s k s') :
    (freeFolders s').card = (freeFolders s).card - 1 := by
  rcases h with ⟨hempty, -, rfl⟩ | h
  · rw [hempty]
    rfl
  · rw [h.folders]
    exact Finset.card_erase_of_mem h.was_free

/-- What happens in a new folder afterwards needs not be named, if it is not null. -/
theorem FolderOrNull.absorb (h : FolderOrNull s k s') (hevolves : Evolves {0, k} s' s'') :
    Evolves {0} s s'' := by
  rcases h with ⟨-, rfl, rfl⟩ | h
  · refine hevolves.mono ?_
    rintro n (hn | hn) <;> exact hn
  · have hall : Evolves (insert k {0}) s s'' := by
      refine (h.evolves.mono (Set.empty_subset _)).trans (hevolves.mono ?_)
      rintro n (rfl | rfl)
      · exact Or.inr rfl
      · exact Or.inl rfl
    refine hall.absorb (mem_free.mpr (Or.inl h.was_free)) ?_
    intro hmem
    exact h.not_free (hevolves.free hmem)

/-- A page that is neither null nor free is not the new folder. -/
theorem FolderOrNull.ne (h : FolderOrNull s k s') (hn0 : n ≠ 0) (hn : n ∉ free s) : n ≠ k := by
  rcases h with ⟨-, rfl, -⟩ | h
  · exact hn0
  · rintro rfl
    exact hn (mem_free.mpr (Or.inl h.was_free))

end FolderOrNull

/-! ## The whole table -/

/-- How many of the first `n` entries of a table are user pages. -/
def userPagesTo (m : Mem) (src : PagePointer) (n : ℕ) : ℕ :=
  Nat.count (fun j => isUserPage src.user (m.entry (getContentsAsPage src) j) = true) n

/-- The frames `clone_table` asks for. -/
def userPages (m : Mem) (src : PagePointer) : ℕ := userPagesTo m src pagesInTable

theorem userPagesTo_succ (m : Mem) (src : PagePointer) (n : ℕ) :
    userPagesTo m src (n + 1) = userPagesTo m src n +
      if isUserPage src.user (m.entry (pageStart src.frame.toNat) n) = true then 1 else 0 := by
  unfold userPagesTo
  rw [Nat.count_succ, getContentsAsPage_eq]

theorem userPagesTo_le (m : Mem) (src : PagePointer) {n : ℕ} (hn : n ≤ 1024) :
    userPagesTo m src n ≤ userPages m src :=
  Nat.count_monotone _ hn

section Table
variable {s : Paging} {src : PagePointer}

theorem evolves_cloneTable (src : PagePointer) (s : Paging) :
    Evolves {0} s (cloneTable src s).2 := by
  rcases allocatePageFolder_cases s with ⟨k, s₁, heq, hfolder⟩
  unfold cloneTable
  rw [heq]
  show Evolves {0} s (loop (cloneTableEntry src (pageStart k) (getContentsAsPage src))
    pagesInTable s₁)
  refine hfolder.absorb ?_
  refine loop_induction (P := fun _ s' => Evolves {0, k} s₁ s') (Evolves.refl _ s₁) ?_
  intro i s' hi hs'
  refine hs'.trans (evolves_cloneTableEntry src _ hfolder.lt (by simp) ?_ hi)
  intro _
  simp

/-- The entries of a table that is not itself free do not change on the way. -/
theorem Evolves.entry {W : Set ℕ} {s s' : Paging} {t i : ℕ} (h : Evolves W s s')
    (ht : t < 2 ^ 20) (htW : t ∉ W) (htfree : t ∉ MushOS.free s) (hi : i < 1024) :
    s'.mem.entry (pageStart t) i = s.mem.entry (pageStart t) i := by
  refine entry_samePage (h.samePage ht htW ?_) ht ht hi
  intro hmem
  exact absurd hmem htfree

/-- **How much `clone_table` takes**, and what a shortage leaves behind: a null
table, or a write to address 0. -/
theorem cloneTable_counts (ht0 : src.frame.toNat ≠ 0) (htfree : src.frame.toNat ∉ free s) :
    (freeFolders (cloneTable src s).2).card = (freeFolders s).card - 1 ∧
      (freeFrames (cloneTable src s).2).card = (freeFrames s).card - userPages s.mem src ∧
      ((freeFrames s).card < userPages s.mem src → 0 ∈ (cloneTable src s).2.mem.written) ∧
      (freeFolders s = ∅ → (cloneTable src s).1 = { src with frame := 0 }) := by
  rcases allocatePageFolder_cases s with ⟨k, s₁, heq, hfolder⟩
  have ht := frame_lt src
  have htk := hfolder.ne ht0 htfree
  have htfree₁ : src.frame.toNat ∉ free s₁ := fun hmem => htfree (hfolder.evolves.free hmem)
  have hentry₁ : ∀ j < 1024, s₁.mem.entry (pageStart src.frame.toNat) j =
      s.mem.entry (pageStart src.frame.toNat) j := by
    intro j hj
    exact hfolder.evolves.entry ht (Set.notMem_empty _) htfree hj
  have hclone : cloneTable src s = ({ src with frame := frameOf (pageStart k) },
      loop (cloneTableEntry src (pageStart k) (getContentsAsPage src)) pagesInTable s₁) := by
    unfold cloneTable
    rw [heq]
    rfl
  have hloop : Evolves {0, k} s₁ (cloneTable src s).2 ∧
      freeFolders (cloneTable src s).2 = freeFolders s₁ ∧
      (freeFrames (cloneTable src s).2).card = (freeFrames s₁).card - userPages s.mem src ∧
      ((freeFrames s₁).card < userPages s.mem src → 0 ∈ (cloneTable src s).2.mem.written) := by
    rw [hclone, getContentsAsPage_eq]
    refine loop_induction (P := fun i s' => Evolves {0, k} s₁ s' ∧
      freeFolders s' = freeFolders s₁ ∧
      (freeFrames s').card = (freeFrames s₁).card - userPagesTo s.mem src i ∧
      ((freeFrames s₁).card < userPagesTo s.mem src i → 0 ∈ s'.mem.written))
      ⟨Evolves.refl _ _, rfl, by simp [userPagesTo], by simp [userPagesTo]⟩ ?_
    rintro i s' hi ⟨hevolves, hfolders, hframes, hshort⟩
    have hstep := evolves_cloneTableEntry (W := {0, k}) (s := s') src
      (pageStart src.frame.toNat) hfolder.lt (by simp) (by simp) hi
    rcases freeFrames_cloneTableEntry src (pageStart k)
      (pageStart src.frame.toNat) i s' with ⟨hcard, hfolders'⟩
    have hentry : s'.mem.entry (pageStart src.frame.toNat) i =
        s.mem.entry (pageStart src.frame.toNat) i := by
      rw [hevolves.entry ht (by simp [ht0, htk]) htfree₁ hi, hentry₁ i hi]
    refine ⟨hevolves.trans hstep, hfolders'.trans hfolders, ?_, ?_⟩
    · rw [hcard, hframes, hentry, userPagesTo_succ]
      omega
    · intro hlt
      by_cases hbefore : (freeFrames s₁).card < userPagesTo s.mem src i
      · exact hstep.kept (hshort hbefore)
      · -- the pool runs out at this very entry
        rw [userPagesTo_succ, ← hentry] at hlt
        have hu : isUserPage src.user
            (s'.mem.entry (pageStart src.frame.toNat) i) = true := by
          by_contra hu
          rw [if_neg hu] at hlt
          omega
        rw [if_pos hu] at hlt
        have hempty : freeFrames s' = ∅ := Finset.card_eq_zero.mp (by omega)
        rcases cloneTableEntry_user (pageStart k) hu with ⟨n, s'', htakes, hentryEq⟩
        rw [hentryEq]
        rcases htakes with ⟨-, rfl, -⟩ | htakes
        · exact pageStart_mem_written (n := 0) (pageStart k)
        · have hmem := htakes.was_free
          rw [hempty] at hmem
          exact absurd hmem (Finset.notMem_empty _)
  rcases hloop with ⟨-, hfolders, hframes, hshort⟩
  refine ⟨?_, ?_, ?_, ?_⟩
  · rw [hfolders]
    exact hfolder.card_folders
  · rw [hframes, hfolder.frames]
  · rw [← hfolder.frames]
    exact hshort
  · intro hempty
    rcases hfolder with ⟨-, rfl, -⟩ | htakes
    · rw [hclone]
      rfl
    · have hmem := htakes.was_free
      rw [hempty] at hmem
      exact absurd hmem (Finset.notMem_empty _)

end Table

/-! ## The copy -/

/-- The entry `e'` in `s` is a copy of the entry `e` in `s₀`: absent entries stay
absent, kernel pages are shared, user pages move to a frame taken in between
that holds the same bytes. -/
structure EntryCopy (s₀ : Paging) (user : Bool) (s : Paging) (e e' : PagePointer) : Prop where
  absent : e.present = false → e' = PagePointer.absent
  kernel : e.present = true → isUserPage user e = false → e' = e
  flags : isUserPage user e = true → e'.flags = e.flags
  was_free : isUserPage user e = true → e'.frame.toNat ∈ freeFrames s₀
  taken : isUserPage user e = true → e'.frame.toNat ∉ freeFrames s
  bytes : isUserPage user e = true → SamePage s₀.mem e.frame.toNat s.mem e'.frame.toNat

/-- The table in page `t'` of `s` is a copy of the table in page `t` of `s₀`, and its
user pages have a frame each. -/
structure TableCopy (s₀ : Paging) (user : Bool) (s : Paging) (t t' : ℕ) : Prop where
  entries : ∀ j < 1024, EntryCopy s₀ user s (s₀.mem.entry (pageStart t) j)
    (s.mem.entry (pageStart t') j)
  distinct : ∀ j < 1024, ∀ j' < 1024, j ≠ j' →
    isUserPage user (s₀.mem.entry (pageStart t) j) = true →
    isUserPage user (s₀.mem.entry (pageStart t) j') = true →
    (s.mem.entry (pageStart t') j).frame.toNat ≠ (s.mem.entry (pageStart t') j').frame.toNat

section Copy
variable {W : Set ℕ} {s₀ s₁ s s' : Paging} {user : Bool} {e e' : PagePointer} {t t' i k : ℕ}

/-- A copied entry stays a copy: its frame is not free any more. -/
theorem EntryCopy.later (h : EntryCopy s₀ user s e e') (hevolves : Evolves W s s')
    (hW : ∀ n ∈ freeFrames s₀, n ∉ W) : EntryCopy s₀ user s' e e' := by
  refine ⟨h.absent, h.kernel, h.flags, h.was_free, ?_, ?_⟩
  · intro hu hmem
    exact h.taken hu (hevolves.frames hmem)
  · intro hu
    have hfree := h.was_free hu
    have hrange := freeFrames_range hfree
    refine (h.bytes hu).trans (hevolves.samePage (by omega) (hW _ hfree) ?_)
    intro hmem
    rcases mem_free.mp hmem with hmem | hmem
    · exact absurd hfree (freeFolders_not_freeFrames hmem)
    · exact absurd hmem (h.taken hu)

/-- A copied table stays a copy, as long as its own page is left alone. -/
theorem TableCopy.later (h : TableCopy s₀ user s t t') (hevolves : Evolves W s s')
    (hW : ∀ n ∈ freeFrames s₀, n ∉ W) (ht' : t' < 2 ^ 20) (htW : t' ∉ W)
    (htfree : t' ∉ free s) : TableCopy s₀ user s' t t' := by
  have hentry : ∀ j < 1024, s'.mem.entry (pageStart t') j = s.mem.entry (pageStart t') j :=
    fun j hj => hevolves.entry ht' htW htfree hj
  constructor
  · intro j hj
    rw [hentry j hj]
    exact (h.entries j hj).later hevolves hW
  · intro j hj j' hj' hne hu hu'
    rw [hentry j hj, hentry j' hj']
    exact h.distinct j hj j' hj' hne hu hu'

/-- A copy of what a page held is a copy of what it held before other pages were
taken. -/
theorem EntryCopy.earlier (h : EntryCopy s₁ user s e e') (hevolves : Evolves W s₀ s₁)
    (hframe : isUserPage user e = true → e.frame.toNat ∉ free s₀ ∧ e.frame.toNat ∉ W) :
    EntryCopy s₀ user s e e' := by
  refine ⟨h.absent, h.kernel, h.flags, fun hu => hevolves.frames (h.was_free hu), h.taken, ?_⟩
  intro hu
  rcases hframe hu with ⟨hfree, hW⟩
  refine SamePage.trans (hevolves.samePage (frame_lt e) hW ?_) (h.bytes hu)
  intro hmem
  exact absurd hmem hfree

theorem TableCopy.earlier (h : TableCopy s₁ user s t t') (hevolves : Evolves W s₀ s₁)
    (ht : t < 2 ^ 20) (htW : t ∉ W) (htfree : t ∉ free s₀)
    (huser : ∀ j < 1024, isUserPage user (s₀.mem.entry (pageStart t) j) = true →
      (s₀.mem.entry (pageStart t) j).frame.toNat ∉ free s₀ ∧
        (s₀.mem.entry (pageStart t) j).frame.toNat ∉ W) : TableCopy s₀ user s t t' := by
  have hentry : ∀ j < 1024, s₁.mem.entry (pageStart t) j = s₀.mem.entry (pageStart t) j :=
    fun j hj => hevolves.entry ht htW htfree hj
  constructor
  · intro j hj
    have hcopy := h.entries j hj
    rw [hentry j hj] at hcopy
    exact hcopy.earlier hevolves (huser j hj)
  · intro j hj j' hj' hne hu hu'
    rw [← hentry j hj] at hu
    rw [← hentry j' hj'] at hu'
    exact h.distinct j hj j' hj' hne hu hu'

/-- What has been copied after `i` iterations of the loop of `clone_table`, from the
state `s₁` in which the new table `k` is clear. -/
structure TableLoop (s₁ : Paging) (user : Bool) (t k i : ℕ) (s : Paging) : Prop where
  evolves : Evolves {k} s₁ s
  done : ∀ j < i, EntryCopy s₁ user s (s₁.mem.entry (pageStart t) j) (s.mem.entry (pageStart k) j)
  rest : ∀ j, i ≤ j → j < 1024 → s.mem.entry (pageStart k) j = PagePointer.absent
  distinct : ∀ j < i, ∀ j' < i, j ≠ j' →
    isUserPage user (s₁.mem.entry (pageStart t) j) = true →
    isUserPage user (s₁.mem.entry (pageStart t) j') = true →
    (s.mem.entry (pageStart k) j).frame.toNat ≠ (s.mem.entry (pageStart k) j').frame.toNat

/-- A step that writes entry `i` of the new table only: the entries before it stay
copies, and entry `i` is a copy if it is one in the new state. -/
theorem TableLoop.extend (h : TableLoop s₁ user t k i s) (hevolves : Evolves {k} s s')
    (hk : k ∉ freeFrames s₁)
    (hothers : ∀ j < 1024, j ≠ i → s'.mem.entry (pageStart k) j = s.mem.entry (pageStart k) j)
    (hnew : EntryCopy s₁ user s' (s₁.mem.entry (pageStart t) i) (s'.mem.entry (pageStart k) i))
    (hfresh : isUserPage user (s₁.mem.entry (pageStart t) i) = true →
      (s'.mem.entry (pageStart k) i).frame.toNat ∈ freeFrames s) (hi : i < 1024) :
    TableLoop s₁ user t k (i + 1) s' := by
  have hW : ∀ n ∈ freeFrames s₁, n ∉ ({k} : Set ℕ) := by
    rintro n hn rfl
    exact hk hn
  refine ⟨h.evolves.trans hevolves, ?_, ?_, ?_⟩
  · intro j hj
    by_cases hji : j = i
    · subst hji
      exact hnew
    · rw [hothers j (by omega) hji]
      exact (h.done j (by omega)).later hevolves hW
  · intro j hij hj
    rw [hothers j hj (by omega)]
    exact h.rest j (by omega) hj
  · intro j hj j' hj' hne hu hu'
    by_cases hji : j = i
    · -- the new frame was free, the earlier one was not
      subst hji
      rw [hothers j' (by omega) (by omega)]
      intro heq
      exact (h.done j' (by omega)).taken hu' (heq ▸ hfresh hu)
    · rw [hothers j (by omega) hji]
      by_cases hji' : j' = i
      · subst hji'
        intro heq
        exact (h.done j (by omega)).taken hu (heq ▸ hfresh hu')
      · rw [hothers j' (by omega) hji']
        exact h.distinct j (by omega) j' (by omega) hne hu hu'

/-- One iteration, with a frame left if it needs one. -/
theorem TableLoop.step {src : PagePointer} (h : TableLoop s₁ src.user t k i s)
    (hk : k < 2 ^ 20) (ht : t < 2 ^ 20) (hkfree : k ∉ free s₁) (htk : t ≠ k)
    (htfree : t ∉ free s₁)
    (huser : ∀ j < 1024, isUserPage src.user (s₁.mem.entry (pageStart t) j) = true →
      (s₁.mem.entry (pageStart t) j).frame.toNat ∉ free s₁ ∧
        (s₁.mem.entry (pageStart t) j).frame.toNat ≠ k)
    (hroom : isUserPage src.user (s₁.mem.entry (pageStart t) i) = true → freeFrames s ≠ ∅)
    (hi : i < 1024) :
    TableLoop s₁ src.user t k (i + 1) (cloneTableEntry src (pageStart k) (pageStart t) i s) := by
  have hkframes : k ∉ freeFrames s₁ := fun hmem => hkfree (mem_free.mpr (Or.inr hmem))
  have hentry : s.mem.entry (pageStart t) i = s₁.mem.entry (pageStart t) i :=
    h.evolves.entry ht (by simpa using htk) htfree hi
  by_cases hpresent : (s.mem.entry (pageStart t) i).present = false
  · -- nothing to do, the entry is clear already
    rw [cloneTableEntry_absent hpresent]
    refine h.extend (Evolves.refl _ s) hkframes (fun _ _ _ => rfl) ?_ ?_ hi
    · rw [h.rest i (le_refl i) hi, ← hentry]
      refine ⟨fun _ => rfl, ?_, ?_, ?_, ?_, ?_⟩ <;> simp [isUserPage, hpresent]
    · rw [← hentry]
      simp [isUserPage, hpresent]
  rw [Bool.not_eq_false] at hpresent
  by_cases hu : isUserPage src.user (s.mem.entry (pageStart t) i) = true
  · -- a user page: a frame is taken and filled
    rcases cloneTableEntry_user (pageStart k) hu with ⟨n, s₂, htakes', heq⟩
    have htakes := htakes'.takes (hroom (hentry ▸ hu))
    have hnfree := h.evolves.frames htakes.was_free
    have hn := htakes'.lt
    have hkn : k ≠ n := by
      rintro rfl
      exact hkframes hnfree
    rcases huser i hi (hentry ▸ hu) with ⟨hffree, hfk⟩
    rw [← hentry] at hffree hfk
    have hfn : (s.mem.entry (pageStart t) i).frame.toNat ≠ n := by
      intro hfn
      rw [hfn] at hffree
      exact hffree (mem_free.mpr (Or.inr hnfree))
    have hnew := entry_cloneUserPage s.mem (pageStart t) hk hn hi hkn
    have hsame := samePage_cloneUserPage (m := s.mem) hk hn ht hi htk hfk hfn
    have hstep : Evolves {k} s (cloneTableEntry src (pageStart k) (pageStart t) i s) :=
      evolves_cloneTableEntry src _ hk rfl (fun he => absurd he (hroom (hentry ▸ hu))) hi
    have hframe : (frameOf (pageStart n)).toNat = n := toNat_frameOf_pageStart hn
    rw [heq] at hstep ⊢
    refine h.extend hstep hkframes ?_ ?_ ?_ hi
    · intro j hj hji
      exact entry_cloneUserPage_ne hk hn hi hkn hj (Ne.symm hji)
    · rw [hnew, ← hentry]
      refine ⟨?_, ?_, fun _ => rfl, ?_, ?_, ?_⟩
      · intro habsent
        rw [hpresent] at habsent
        cases habsent
      · intro _ hkernel
        rw [hu] at hkernel
        cases hkernel
      · intro _
        simp only [hframe]
        exact hnfree
      · intro _
        simp only [hframe]
        show n ∉ freeFrames s₂
        rw [htakes.frames]
        exact Finset.notMem_erase _ _
      · intro _
        simp only [hframe]
        refine SamePage.trans (h.evolves.samePage (frame_lt _) (by simpa using hfk) ?_) hsame
        intro hmem
        exact absurd hmem hffree
    · intro _
      rw [hnew]
      simp only [hframe]
      exact htakes.was_free
  · -- a kernel page: the entry is shared
    rw [Bool.not_eq_true] at hu
    rw [cloneTableEntry_kernel hpresent hu]
    refine h.extend ?_ hkframes ?_ ?_ ?_ hi
    · exact Evolves.of_writes (writes_setEntry s.mem hk hi)
    · intro j hj hji
      exact entry_setEntry_ne s.mem hk hi hj (Ne.symm hji)
    · rw [entry_setEntry_self, ← hentry]
      refine ⟨?_, fun _ _ => rfl, ?_, ?_, ?_, ?_⟩ <;> simp [hpresent, hu]
    · rw [← hentry]
      simp [hu]

end Copy

/-- **With enough free slots `clone_table` makes a copy** in a new folder. -/
theorem cloneTable_spec {s : Paging} {src : PagePointer} (hfolders : freeFolders s ≠ ∅)
    (hframes : userPages s.mem src ≤ (freeFrames s).card) (htfree : src.frame.toNat ∉ free s)
    (huser : ∀ j < 1024, isUserPage src.user (s.mem.entry (pageStart src.frame.toNat) j) = true →
      (s.mem.entry (pageStart src.frame.toNat) j).frame.toNat ∉ free s) :
    ∃ k, (cloneTable src s).1 = { src with frame := frameOf (pageStart k) } ∧
      k ∈ freeFolders s ∧ k ∉ free (cloneTable src s).2 ∧ Evolves ∅ s (cloneTable src s).2 ∧
      TableCopy s src.user (cloneTable src s).2 src.frame.toNat k := by
  rcases allocatePageFolder_spec s with ⟨hempty, -⟩ | ⟨k, s₁, heq, htakes⟩
  · exact absurd hempty hfolders
  have hclone : cloneTable src s = ({ src with frame := frameOf (pageStart k) },
      loop (cloneTableEntry src (pageStart k) (pageStart src.frame.toNat)) pagesInTable s₁) := by
    unfold cloneTable
    rw [heq, getContentsAsPage_eq]
    rfl
  have hevolves := htakes.evolves
  have hkrange := freeFolders_range htakes.was_free
  have ht := frame_lt src
  have hne : ∀ n, n ∉ free s → n ≠ k := by
    rintro n hn rfl
    exact hn (mem_free.mpr (Or.inl htakes.was_free))
  have hmono : ∀ n, n ∉ free s → n ∉ free s₁ := fun n hn hmem => hn (hevolves.free hmem)
  have hentry : ∀ j < 1024, s₁.mem.entry (pageStart src.frame.toNat) j =
      s.mem.entry (pageStart src.frame.toNat) j :=
    fun j hj => hevolves.entry ht (Set.notMem_empty _) htfree hj
  have huser₁ : ∀ j < 1024,
      isUserPage src.user (s₁.mem.entry (pageStart src.frame.toNat) j) = true →
      (s₁.mem.entry (pageStart src.frame.toNat) j).frame.toNat ∉ free s₁ ∧
        (s₁.mem.entry (pageStart src.frame.toNat) j).frame.toNat ≠ k := by
    intro j hj hu
    rw [hentry j hj] at hu ⊢
    exact ⟨hmono _ (huser j hj hu), hne _ (huser j hj hu)⟩
  have hloop : ∀ n ≤ 1024, TableLoop s₁ src.user src.frame.toNat k n
      (loop (cloneTableEntry src (pageStart k) (pageStart src.frame.toNat)) n s₁) ∧
      (freeFrames (loop (cloneTableEntry src (pageStart k) (pageStart src.frame.toNat)) n s₁)).card
        = (freeFrames s).card - userPagesTo s.mem src n := by
    intro n hn
    refine loop_induction (P := fun i s' => TableLoop s₁ src.user src.frame.toNat k i s' ∧
      (freeFrames s').card = (freeFrames s).card - userPagesTo s.mem src i) ?_ ?_
    · -- nothing is copied yet, and the new folder is cleared
      refine ⟨⟨Evolves.refl _ _, ?_, ?_, ?_⟩, ?_⟩
      · intro j hj
        omega
      · intro j _ hj
        exact entry_cleared (by omega) hj htakes.cleared
      · intro j hj
        omega
      · rw [htakes.frames]
        simp [userPagesTo]
    · rintro i s' hi ⟨hdone, hcard⟩
      have hi' : i < 1024 := by omega
      rcases freeFrames_cloneTableEntry src (pageStart k)
        (pageStart src.frame.toNat) i s' with ⟨hcard', -⟩
      have hentry' : s'.mem.entry (pageStart src.frame.toNat) i =
          s.mem.entry (pageStart src.frame.toNat) i := by
        rw [hdone.evolves.entry ht (by simpa using hne _ htfree) (hmono _ htfree) hi',
          hentry i hi']
      have hle := userPagesTo_le s.mem src (n := i + 1) (by omega)
      rw [userPagesTo_succ] at hle ⊢
      constructor
      · refine hdone.step (by omega) ht htakes.not_free (hne _ htfree) (hmono _ htfree)
          huser₁ ?_ hi'
        -- a user page at `i` has a frame left, since the count covers `i + 1` entries
        intro hu hempty
        rw [hentry i hi'] at hu
        rw [if_pos hu] at hle
        rw [hempty, Finset.card_empty] at hcard
        omega
      · rw [hcard', hcard, hentry']
        omega
  rcases hloop pagesInTable (le_refl _) with ⟨hdone, -⟩
  rw [show loop (cloneTableEntry src (pageStart k) (pageStart src.frame.toNat)) pagesInTable s₁ =
    (cloneTable src s).2 by rw [hclone]] at hdone
  have hcopy₁ : TableCopy s₁ src.user (cloneTable src s).2 src.frame.toNat k :=
    ⟨hdone.done, hdone.distinct⟩
  have hknot : k ∉ free (cloneTable src s).2 :=
    fun hmem => htakes.not_free (hdone.evolves.free hmem)
  have hall : Evolves (insert k ∅) s (cloneTable src s).2 :=
    (hevolves.mono (Set.empty_subset _)).trans
      (hdone.evolves.mono (by simp))
  refine ⟨k, by rw [hclone], htakes.was_free, hknot,
    hall.absorb (mem_free.mpr (Or.inl htakes.was_free)) hknot, ?_⟩
  refine hcopy₁.earlier hevolves ht (Set.notMem_empty _) htfree ?_
  intro j hj hu
  exact ⟨huser j hj hu, Set.notMem_empty _⟩

end MushOS
