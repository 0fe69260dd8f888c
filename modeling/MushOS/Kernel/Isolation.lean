import MushOS.Theory.Processes
import MushOS.Kernel.KernelSpace
import MushOS.Kernel.TaskRuns

/-! # Isolation of address spaces

Runs of `fork` and `switch_task` in which the running task also writes to its own user
pages, through its own directory. As long as the pools do not run out the tasks are
processes with private memories (`kernel_refines_processes`): a fork copies the user
memory of its caller, and a write is seen by the task that made it and by no other.

What carries this is `Isolated`: every task has an address space like the one
`initialise_paging` made, and no user frame of one task is mapped by another. The
frames of the first task are those of the boot stack, those of the others come from
the user space pool, and the heap lies between the two.
-/

namespace MushOS

open ByteMemory RoundRobin Transition Processes

/-! ## User memory -/

/-- The physical address behind the address `a`, when that lies in a user page. -/
def userAddress (m : Mem) (dir a : UDword) : Option UDword :=
  ((translate m dir (pageOf a)).filter Mapping.user).map fun p =>
    pageByte p.frame (a.toNat % 4096)

/-- The byte a task with this directory reads there. -/
def userByte (m : Mem) (dir a : UDword) : Option UByte := (userAddress m dir a).map m.read8

section UserMemory
variable {m m' : Mem} {s s' : Paging} {dir dir' a x : UDword} {S : Set UDword} {v : ℕ}
  {p : Mapping}

theorem userAddress_eq_some : userAddress m dir a = some x ↔
    ∃ p, translate m dir (pageOf a) = some p ∧ p.user = true ∧
      pageByte p.frame (a.toNat % 4096) = x := by
  unfold userAddress
  simp only [Option.map_eq_some_iff, Option.filter_eq_some_iff]
  tauto

/-- Writes outside the paging pool leave an address space as it is. -/
theorem TaskSpace.of_writes (h : TaskSpace s dir) (hw : Writes S s.mem m')
    (hS : ∀ a ∈ S, pageOf a < 0x100 ∨ 0xf00 ≤ pageOf a) :
    TaskSpace { s with mem := m' } dir ∧
      ∀ v < 2 ^ 20, translate m' dir v = translate s.mem dir v := by
  -- no folder of either pool is among the pages written
  have hpage : ∀ k, 0x100 ≤ k → k < 0xf00 → SamePage s.mem k m' k := by
    intro k hlo hhi o ho
    refine hw.frame _ fun hmem => ?_
    have := hS _ hmem
    rw [pageOf_pageByte (by omega) ho] at this
    omega
  have hentry : ∀ i < 1024, m'.entry dir i = s.mem.entry dir i := by
    intro i hi
    have hsame := entry_samePage (hpage _ h.folder.1 h.folder.2) (pageOf_lt dir) (pageOf_lt dir) hi
    rwa [← h.inUse.held.src_eq] at hsame
  have htranslate : ∀ v < 2 ^ 20, translate m' dir v = translate s.mem dir v := by
    intro v hv
    have hj : v / 1024 < 1024 := by omega
    have ha : v % 1024 < 1024 := Nat.mod_lt v (by decide)
    unfold translate pagesInTable
    simp only [getContentsAsPage_eq, hentry _ hj]
    by_cases hpresent : (s.mem.entry dir (v / 1024)).present = true
    · rcases h.tables _ hj hpresent with ⟨hlo, hhi⟩
      rw [entry_samePage (hpage _ hlo hhi) (frame_lt _) (frame_lt _) ha]
    · rw [Bool.not_eq_true] at hpresent
      rw [hpresent, Bool.false_and, Bool.false_and, if_neg Bool.false_ne_true,
        if_neg Bool.false_ne_true]
  have hheld := h.inUse.held
  refine ⟨⟨⟨⟨hheld.aligned, hheld.nonzero, hheld.not_free, ?_, ?_⟩, ?_⟩, h.folder, ?_, ?_, ?_, ?_,
    ?_⟩, htranslate⟩
  · intro i hi
    simp only [hentry i hi]
    exact hheld.table_nonzero i hi
  · intro i hi
    simp only [hentry i hi]
    exact hheld.table_not_free i hi
  · intro v hv
    simp only [htranslate v hv]
    exact h.inUse.user v hv
  · intro i hi
    simp only [hentry i hi]
    exact h.tables i hi
  · intro v hv
    simp only [htranslate v hv]
    exact h.mapped v hv
  · intro v hv
    simp only [htranslate v hv]
    exact h.kernel v hv
  · intro v hv
    simp only [htranslate v hv]
    exact h.user v hv
  · intro v hv w hw
    simp only [htranslate v hv, htranslate w hw]
    exact h.alone v hv w hw

/-- Steps that write nothing but pages they take leave it too. -/
theorem TaskSpace.later (h : TaskSpace s dir) (hevolves : Evolves ∅ s s') :
    TaskSpace s' dir ∧ ∀ v < 2 ^ 20, translate s'.mem dir v = translate s.mem dir v := by
  have htranslate : ∀ v < 2 ^ 20, translate s'.mem dir v = translate s.mem dir v :=
    fun v hv => h.inUse.held.translate hevolves hv
  have hentry : ∀ i < 1024, s'.mem.entry dir i = s.mem.entry dir i :=
    fun i hi => h.inUse.held.entry hevolves (Set.notMem_empty _) hi
  refine ⟨⟨⟨h.inUse.held.later hevolves (Set.notMem_empty _), ?_⟩, h.folder, ?_, ?_, ?_, ?_, ?_⟩,
    htranslate⟩
  · intro v hv p hp hu hmem
    rw [htranslate v hv] at hp
    exact h.inUse.user v hv p hp hu (hevolves.free hmem)
  · intro i hi
    rw [hentry i hi]
    exact h.tables i hi
  · intro v hv
    rw [htranslate v hv]
    exact h.mapped v hv
  · intro v hv
    rw [htranslate v hv]
    exact h.kernel v hv
  · intro v hv
    rw [htranslate v hv]
    exact h.user v hv
  · intro v hv w hw
    rw [htranslate v hv, htranslate w hw]
    exact h.alone v hv w hw

/-- The clone of an address space is one. -/
theorem TaskSpace.clone {d : ℕ} (h : TaskSpace s dir) (hevolves : Evolves ∅ s s')
    (hcopy : DirectoryCopy s dir s' (pageStart d) 1024) (hd : d ∈ freeFolders s)
    (hd' : d ∉ free s') :
    TaskSpace s' (pageStart d) ∧ SpaceCopy s dir s' (pageStart d) := by
  have hspace := hcopy.space h.inUse.held (fun v hv p hp => h.frame_not_free hv hp) hevolves
  have hdrange := freeFolders_range hd
  have hpage : pageOf (pageStart d) = d := pageOf_pageStart (by omega)
  -- a page of the clone is a page of the source
  have hback : ∀ v < 2 ^ 20, ∀ q, translate s'.mem (pageStart d) v = some q →
      ∃ p, translate s.mem dir v = some p ∧ q.user = p.user := by
    intro v hv q hq
    have hflags := hspace.flags v hv
    rw [hq, Option.map_some] at hflags
    rcases Option.map_eq_some_iff.mp hflags.symm with ⟨p, hp, hpq⟩
    exact ⟨p, hp, Mapping.user_of_flags hpq.symm⟩
  -- the tables are new ones, or those of the source
  have htables : ∀ i < 1024, (s'.mem.entry (pageStart d) i).present = true →
      0x100 ≤ (s'.mem.entry (pageStart d) i).frame.toNat ∧
        (s'.mem.entry (pageStart d) i).frame.toNat < 0xf00 ∧
        (s'.mem.entry (pageStart d) i).frame.toNat ∉ free s' := by
    intro i hi hpresent
    have hentry := hcopy.entries i hi
    by_cases hc : isCloned s.mem (s.mem.entry dir i) = true
    · have := freeFolders_range (hentry.was_free hc)
      exact ⟨this.1, this.2, hentry.taken hc⟩
    · rw [Bool.not_eq_true] at hc
      by_cases hp : (s.mem.entry dir i).present = true
      · rw [hentry.shared hp hc]
        have hrange := h.tables i hi hp
        exact ⟨hrange.1, hrange.2,
          fun hmem => h.inUse.held.table_not_free i hi hp (hevolves.free hmem)⟩
      · rw [Bool.not_eq_true] at hp
        rw [hentry.absent hp] at hpresent
        cases hpresent
  refine ⟨⟨⟨⟨?_, ?_, ?_, ?_, ?_⟩, ?_⟩, ?_, ?_, ?_, ?_, ?_, ?_⟩, hspace⟩
  · rw [toNat_pageStart (by omega)]
    omega
  · omega
  · rw [hpage]
    exact hd'
  · intro i hi hpresent
    have := htables i hi hpresent
    omega
  · intro i hi hpresent
    exact (htables i hi hpresent).2.2
  · intro v hv q hq hu hmem
    rcases hspace.fresh v hv q hq hu with ⟨hfree, htaken⟩
    rcases mem_free.mp hmem with hmem | hmem
    · exact freeFolders_not_freeFrames hmem hfree
    · exact htaken hmem
  · omega
  · intro i hi hpresent
    have := htables i hi hpresent
    omega
  · intro v hv
    rw [← h.mapped v hv]
    cases hq : translate s'.mem (pageStart d) v with
    | none =>
      have hflags := hspace.flags v hv
      rw [hq, Option.map_none] at hflags
      rw [Option.map_eq_none_iff.mp hflags.symm]
    | some q =>
      rcases hback v hv q hq with ⟨p, hp, hpq⟩
      rw [hp, Option.map_some, Option.map_some, hpq]
  · intro v hv q hq hkernel
    rcases hback v hv q hq with ⟨p, hp, hpq⟩
    rw [hpq] at hkernel
    rw [hspace.kernel v hv p q hp hq hkernel]
    exact h.kernel v hv p hp hkernel
  · intro v hv q hq hu
    have := freeFrames_range (hspace.fresh v hv q hq hu).1
    omega
  · intro v hv w hw q r hq hr hu hne
    exact hspace.alone v hv w hw q r hq hr hu hne

end UserMemory

/-! ## Isolated address spaces -/

/-- The address spaces of the tasks, given their directories: no user frame of one is
mapped by another. -/
structure Isolated (s : Paging) (dirs : UDword → UDword) (tasks : List UDword) : Prop where
  spaces : ∀ t ∈ tasks, TaskSpace s (dirs t)
  apart : ∀ t ∈ tasks, ∀ t' ∈ tasks, t ≠ t' → ∀ v < 2 ^ 20, ∀ w < 2 ^ 20, ∀ p q,
    translate s.mem (dirs t) v = some p → translate s.mem (dirs t') w = some q →
    p.user = true → q.frame ≠ p.frame

section Isolated
variable {s s' : Paging} {dirs dirs' : UDword → UDword} {tasks : List UDword} {m : Mem}
  {t t' a x : UDword} {b : UByte} {S : Set UDword}

/-- What keeps every translation keeps the spaces apart. -/
theorem Isolated.of_translate (h : Isolated s dirs tasks)
    (hspaces : ∀ t ∈ tasks, TaskSpace s' (dirs t))
    (htranslate : ∀ t ∈ tasks, ∀ v < 2 ^ 20,
      translate s'.mem (dirs t) v = translate s.mem (dirs t) v) : Isolated s' dirs tasks := by
  refine ⟨hspaces, ?_⟩
  intro t ht t' ht' hne v hv w hw
  rw [htranslate t ht v hv, htranslate t' ht' w hw]
  exact h.apart t ht t' ht' hne v hv w hw

theorem Isolated.congr (h : Isolated s dirs tasks) (hdirs : ∀ t ∈ tasks, dirs' t = dirs t) :
    Isolated s dirs' tasks := by
  refine ⟨?_, ?_⟩
  · intro t ht
    rw [hdirs t ht]
    exact h.spaces t ht
  · intro t ht t' ht'
    rw [hdirs t ht, hdirs t' ht']
    exact h.apart t ht t' ht'

/-- Where a user address may lead. -/
theorem Isolated.userAddress_page (h : Isolated s dirs tasks) (ht : t ∈ tasks)
    (hx : userAddress s.mem (dirs t) a = some x) :
    2 ≤ pageOf x ∧ pageOf x < 7 ∨ 0x1000 ≤ pageOf x ∧ pageOf x < 0x10000 := by
  rcases userAddress_eq_some.mp hx with ⟨p, hp, hu, rfl⟩
  rw [pageOf_pageByte p.frame_lt (Nat.mod_lt _ (by decide))]
  exact (h.spaces t ht).user _ (pageOf_lt a) p hp hu

/-- Writes of the heap are seen by nobody. -/
theorem Isolated.of_heap (h : Isolated s dirs tasks) (hw : Writes heapRegion s.mem m) :
    Isolated { s with mem := m } dirs tasks ∧
      ∀ t ∈ tasks, ∀ a, userByte m (dirs t) a = userByte s.mem (dirs t) a := by
  have hregion : ∀ a ∈ heapRegion, pageOf a < 0x100 ∨ 0xf00 ≤ pageOf a := by
    intro a ha
    rw [mem_heapRegion] at ha
    unfold pageOf
    omega
  have hspaces := fun t ht => (h.spaces t ht).of_writes hw hregion
  refine ⟨h.of_translate (fun t ht => (hspaces t ht).1) fun t ht => (hspaces t ht).2, ?_⟩
  intro t ht a
  have haddress : userAddress m (dirs t) a = userAddress s.mem (dirs t) a := by
    unfold userAddress
    rw [(hspaces t ht).2 _ (pageOf_lt a)]
  unfold userByte
  rw [haddress]
  cases hx : userAddress s.mem (dirs t) a with
  | none => rfl
  | some x =>
    have hpage := h.userAddress_page ht hx
    refine congrArg some (hw.frame x ?_)
    rw [mem_heapRegion]
    unfold pageOf at hpage
    omega

/-- Two user addresses that lead to one place are one address of one task. -/
theorem Isolated.userAddress_inj (h : Isolated s dirs tasks) (ht : t ∈ tasks) (ht' : t' ∈ tasks)
    {a' : UDword} (hx : userAddress s.mem (dirs t) a = some x)
    (hx' : userAddress s.mem (dirs t') a' = some x) : t' = t ∧ a' = a := by
  rcases userAddress_eq_some.mp hx with ⟨p, hp, hu, rfl⟩
  rcases userAddress_eq_some.mp hx' with ⟨q, hq, hu', heq⟩
  have hoff : ∀ b : UDword, b.toNat % 4096 < 4096 := fun b => Nat.mod_lt _ (by decide)
  have hnat := congrArg BitVec.toNat heq
  rw [toNat_pageByte q.frame_lt (hoff a'), toNat_pageByte p.frame_lt (hoff a)] at hnat
  have hframe : q.frame = p.frame := by
    have := hoff a
    have := hoff a'
    omega
  have htt : t' = t := by
    by_contra hne
    exact h.apart t ht t' ht' (Ne.symm hne) _ (pageOf_lt a) _ (pageOf_lt a') p q hp hq hu hframe
  refine ⟨htt, ?_⟩
  subst htt
  have hpage : pageOf a' = pageOf a := by
    by_contra hne
    exact (h.spaces t' ht').alone _ (pageOf_lt a) _ (pageOf_lt a') p q hp hq hu (Ne.symm hne) hframe
  unfold pageOf at hpage
  exact BitVec.eq_of_toNat_eq (by omega)

/-- A write of one task is seen by that task, at that address. -/
theorem Isolated.of_user (h : Isolated s dirs tasks) (ht : t ∈ tasks)
    (hx : userAddress s.mem (dirs t) a = some x) (b : UByte) :
    Isolated { s with mem := s.mem.write8 x b } dirs tasks ∧
      ∀ t' ∈ tasks, ∀ a', userByte (s.mem.write8 x b) (dirs t') a' =
        if t' = t ∧ a' = a then some b else userByte s.mem (dirs t') a' := by
  have hpage := h.userAddress_page ht hx
  have hw : Writes {x} s.mem (s.mem.write8 x b) := writes_write8 _ _ rfl
  have hregion : ∀ y ∈ ({x} : Set UDword), pageOf y < 0x100 ∨ 0xf00 ≤ pageOf y := by
    rintro y rfl
    omega
  have hspaces := fun t ht => (h.spaces t ht).of_writes hw hregion
  refine ⟨h.of_translate (fun t ht => (hspaces t ht).1) fun t ht => (hspaces t ht).2, ?_⟩
  intro t' ht' a'
  have haddress : userAddress (s.mem.write8 x b) (dirs t') a' =
      userAddress s.mem (dirs t') a' := by
    unfold userAddress
    rw [(hspaces t' ht').2 _ (pageOf_lt a')]
  unfold userByte
  rw [haddress]
  -- no other task, and no other address, has the byte written
  by_cases hsame : t' = t ∧ a' = a
  · rcases hsame with ⟨rfl, rfl⟩
    rw [if_pos ⟨rfl, rfl⟩, hx, Option.map_some]
    exact congrArg some (Mem.write8_bytes_self _ _ _)
  · rw [if_neg hsame]
    cases hx' : userAddress s.mem (dirs t') a' with
    | none => rfl
    | some y =>
      refine congrArg some (hw.frame y ?_)
      rintro rfl
      exact hsame (h.userAddress_inj ht ht' hx hx')

/-- A clone is one more isolated space, with the user memory of its source. -/
theorem Isolated.add (h : Isolated s dirs tasks) (ht : t ∈ tasks) {child : UDword}
    (hchild : child ∉ tasks) {d : ℕ} (hd : d ∈ freeFolders s) (hd' : d ∉ free s')
    (hevolves : Evolves ∅ s s') (hcopy : DirectoryCopy s (dirs t) s' (pageStart d) 1024) :
    Isolated s' (Function.update dirs child (pageStart d)) (tasks ++ [child]) ∧
      (∀ t' ∈ tasks, ∀ a, userByte s'.mem (dirs t') a = userByte s.mem (dirs t') a) ∧
      ∀ a, userByte s'.mem (pageStart d) a = userByte s.mem (dirs t) a := by
  rcases (h.spaces t ht).clone hevolves hcopy hd hd' with ⟨hspace, hspaceCopy⟩
  have hdirs : ∀ t' ∈ tasks, Function.update dirs child (pageStart d) t' = dirs t' := by
    rintro t' ht'
    refine Function.update_of_ne ?_ _ _
    rintro rfl
    exact hchild ht'
  have hlater := fun t' ht' => (h.spaces t' ht').later hevolves
  have hold := h.of_translate (fun t' ht' => (hlater t' ht').1) fun t' ht' => (hlater t' ht').2
  -- a user frame that is in use stays as it is
  have hkept : ∀ t' ∈ tasks, ∀ v < 2 ^ 20, ∀ p, translate s.mem (dirs t') v = some p →
      p.user = true → SamePage s.mem p.frame s'.mem p.frame := by
    intro t' ht' v hv p hp hu
    exact hevolves.samePage p.frame_lt (Set.notMem_empty _)
      (absurd · ((h.spaces t' ht').inUse.user v hv p hp hu))
  -- the child's user frames were free, the others' were not
  have hfresh : ∀ t' ∈ tasks, ∀ v < 2 ^ 20, ∀ w < 2 ^ 20, ∀ p q,
      translate s'.mem (pageStart d) v = some p → translate s'.mem (dirs t') w = some q →
      p.user = true → q.frame ≠ p.frame := by
    intro t' ht' v hv w hw p q hp hq hu heq
    rw [(hlater t' ht').2 w hw] at hq
    refine (h.spaces t' ht').frame_not_free hw hq ?_
    rw [heq]
    exact (hspaceCopy.fresh v hv p hp hu).1
  have hfresh' : ∀ t' ∈ tasks, ∀ v < 2 ^ 20, ∀ w < 2 ^ 20, ∀ p q,
      translate s'.mem (dirs t') v = some p → translate s'.mem (pageStart d) w = some q →
      p.user = true → q.frame ≠ p.frame := by
    intro t' ht' v hv w hw p q hp hq hu heq
    by_cases hqu : q.user = true
    · exact hfresh t' ht' w hw v hv q p hq hp hqu heq.symm
    · -- a kernel page of the child is one of the first pages, outside the stack
      rw [Bool.not_eq_true] at hqu
      have hframe := hspace.kernel w hw q hq hqu
      rcases hspace.page hw hq with ⟨hlow, hstack⟩
      have hrange := (hold.spaces t' ht').user v hv p hp hu
      have hnot : ¬ (2 ≤ w ∧ w < 7) := by
        rw [← isStackPage_iff, ← hstack, hqu]
        exact Bool.false_ne_true
      omega
  refine ⟨⟨?_, ?_⟩, ?_, ?_⟩
  · intro t' ht'
    rcases List.mem_append.mp ht' with ht' | ht'
    · rw [hdirs t' ht']
      exact hold.spaces t' ht'
    · rw [List.mem_singleton.mp ht', Function.update_self]
      exact hspace
  · intro t₁ ht₁ t₂ ht₂ hne
    rcases List.mem_append.mp ht₁ with ht₁ | ht₁
    · rw [hdirs t₁ ht₁]
      rcases List.mem_append.mp ht₂ with ht₂ | ht₂
      · rw [hdirs t₂ ht₂]
        exact hold.apart t₁ ht₁ t₂ ht₂ hne
      · rw [List.mem_singleton.mp ht₂, Function.update_self]
        exact hfresh' t₁ ht₁
    · rw [List.mem_singleton.mp ht₁, Function.update_self]
      rcases List.mem_append.mp ht₂ with ht₂ | ht₂
      · rw [hdirs t₂ ht₂]
        exact hfresh t₂ ht₂
      · rw [List.mem_singleton] at ht₁ ht₂
        exact absurd (ht₁.trans ht₂.symm) hne
  · intro t' ht' a
    have haddress : userAddress s'.mem (dirs t') a = userAddress s.mem (dirs t') a := by
      unfold userAddress
      rw [(hlater t' ht').2 _ (pageOf_lt a)]
    unfold userByte
    rw [haddress]
    cases hx : userAddress s.mem (dirs t') a with
    | none => rfl
    | some x =>
      rcases userAddress_eq_some.mp hx with ⟨p, hp, hu, rfl⟩
      exact congrArg some (hkept t' ht' _ (pageOf_lt a) p hp hu _ (Nat.mod_lt _ (by decide)))
  · intro a
    unfold userByte userAddress
    cases hp : translate s.mem (dirs t) (pageOf a) with
    | none =>
      have hflags := hspaceCopy.flags _ (pageOf_lt a)
      rw [hp, Option.map_none, Option.map_eq_none_iff] at hflags
      rw [hflags]
      rfl
    | some p =>
      have hflags := hspaceCopy.flags _ (pageOf_lt a)
      rw [hp, Option.map_some, Option.map_eq_some_iff] at hflags
      rcases hflags with ⟨q, hq, hpq⟩
      have huser := Mapping.user_of_flags hpq
      rw [hq]
      by_cases hu : p.user = true
      · rw [Option.filter_some_pos hu, Option.filter_some_pos (huser.trans hu)]
        exact congrArg some (hspaceCopy.bytes _ (pageOf_lt a) p q hp hq hu _
          (Nat.mod_lt _ (by decide)))
      · rw [Bool.not_eq_true] at hu
        rw [Option.filter_some_neg hu, Option.filter_some_neg (huser.trans hu)]
        rfl

/-- Enough free slots for cloning the directory: neither pool runs out. -/
def EnoughSlots (s : Paging) (dir : UDword) : Prop :=
  1 + clonedTables s.mem dir ≤ (freeFolders s).card ∧
    userPageCount s.mem dir ≤ (freeFrames s).card

/-- So does `clone_directory`, as long as the pools do not run out. -/
theorem Isolated.of_clone (h : Isolated s dirs tasks) (ht : t ∈ tasks)
    (henough : EnoughSlots s (dirs t)) {child dir : UDword} (hchild : child ∉ tasks)
    (hclone : cloneDirectory (dirs t) s = (dir, s')) :
    Isolated s' (Function.update dirs child dir) (tasks ++ [child]) ∧
      (∀ t' ∈ tasks, ∀ a, userByte s'.mem (dirs t') a = userByte s.mem (dirs t') a) ∧
      ∀ a, userByte s'.mem dir a = userByte s.mem (dirs t) a := by
  have hsource := (h.spaces t ht).inUse
  have henough' : clonedPages s.mem (dirs t) ≤ (freeFrames s).card := by
    rw [clonedPages_eq]
    exact henough.2
  rcases cloneDirectory_spec hsource.held hsource.userFrames henough.1 henough' with
    ⟨d, heq, hd, hd', hevolves, hcopy⟩
  rw [hclone] at heq hd' hevolves hcopy
  subst heq
  exact h.add ht hchild hd hd' hevolves hcopy

end Isolated

/-! ## The system -/

/-- `initialise_paging` on the memory of the kernel. -/
def Kernel.initialisePaging (garbage : ℕ → PagePointer) (k : Kernel) : Kernel :=
  let (dir, s) := MushOS.initialisePaging garbage k.heap.mem
  { k.setPaging s with currentDirectory := dir }

theorem Kernel.initialisePaging_eq (garbage : ℕ → PagePointer) (k : Kernel) :
    k.initialisePaging garbage =
      { k.setPaging (MushOS.initialisePaging garbage k.heap.mem).2 with
        currentDirectory := (MushOS.initialisePaging garbage k.heap.mem).1 } := rfl

/-- The address space of a task. -/
def Kernel.translate (k : Kernel) (task : UDword) (v : ℕ) : Option Mapping :=
  MushOS.translate k.heap.mem (k.task task).pageDirectory v

/-- What a task reads in its user pages. -/
def Kernel.userMemory (k : Kernel) (task a : UDword) : Option UByte :=
  userByte k.heap.mem (k.task task).pageDirectory a

/-- The running task makes a call, or writes a byte to one of its user pages. -/
inductive UserStep where
  | call (task : UDword) (call : Call)
  | write (task a : UDword) (b : UByte)

/-- What runs after `initialise_paging` and `initialise_tasking`. A call of `fork` finds
enough free slots; a write goes through the directory of the running task. -/
def userSystem : System Kernel UserStep where
  Init k := ∃ k₀ garbage, Booted k₀ ∧ initialiseTasking (k₀.initialisePaging garbage) = .ok k
  Step k step k' :=
    match step with
    | .call task call => task = k.currentTask ∧ taskSystem.Step k call k' ∧
        match call with
        | .fork .. => EnoughSlots k.paging k.currentDirectory
        | .switchTask .. => True
    | .write task a b => task = k.currentTask ∧ ∃ x,
        userAddress k.heap.mem k.currentDirectory a = some x ∧
          k' = { k with heap := { k.heap with mem := k.heap.mem.write8 x b } }

/-- A step as a step of processes. -/
def UserStep.act : UserStep → Processes.Act UDword UDword (Option UByte)
  | .call task (.fork _ _ _ _ child _) => .fork task child
  | .call _ (.switchTask _ _ _ _ _ next) => .switch next
  | .write task a b => .write task a (some b)

/-- The invariant: the tasks of the ready queue have isolated address spaces, and stand for
the processes of `s`. -/
structure Hosts (k : Kernel) (rota : Rota UDword)
    (s : Processes.State UDword UDword (Option UByte)) : Prop where
  tasking : Tasking k rota
  isolated : Isolated k.paging (fun t => (k.task t).pageDirectory) rota.queue
  current : s.current = k.currentTask
  known : s.known = rota.queue
  memory : ∀ t ∈ rota.queue, s.memory t = k.userMemory t

section Steps
variable {k k' k₀ : Kernel} {rota : Rota UDword} {s : Processes.State UDword UDword (Option UByte)}
  {dirs : UDword → UDword} {tasks : List UDword} {step : UserStep} {steps : List UserStep}

/-- Isolated spaces on which only the heap has been at work since. -/
theorem Isolated.kernel {paging : Paging} (h : Isolated paging dirs tasks)
    (hfolders : k.pagingPool = paging.pagingPool) (hframes : k.userSpacePool = paging.userSpacePool)
    (hw : Writes heapRegion paging.mem k.heap.mem)
    (hdirs : ∀ t ∈ tasks, (k.task t).pageDirectory = dirs t) :
    Isolated k.paging (fun t => (k.task t).pageDirectory) tasks ∧
      ∀ t ∈ tasks, k.userMemory t = userByte paging.mem (dirs t) := by
  have hpaging : k.paging = { paging with mem := k.heap.mem } := by
    unfold Kernel.paging
    rw [hfolders, hframes]
  rcases h.of_heap hw with ⟨hisolated, hbytes⟩
  rw [hpaging]
  refine ⟨hisolated.congr hdirs, ?_⟩
  intro t ht
  funext a
  unfold Kernel.userMemory
  rw [hdirs t ht]
  exact hbytes t ht a

/-- Pages outside of the heap are of no importance to it. -/
theorem Booted.setPaging {k₀ : Kernel} {paging : Paging} (h : Booted k₀)
    (hevolves : Evolves {0} (freshPools k₀.heap.mem) paging) (directory : UDword) :
    Booted { k₀.setPaging paging with currentDirectory := directory } := by
  rcases h.heap with ⟨blocks, hblocks⟩
  exact ⟨⟨blocks, hblocks.of_frame rfl rfl fun a ha => hevolves.not_heapRegion ha⟩, h.nextPid⟩

/-- `initialise_paging` leaves the heap for `initialise_tasking`. -/
theorem Booted.initialisePaging {k₀ : Kernel} (h : Booted k₀) (garbage : ℕ → PagePointer) :
    Booted (k₀.initialisePaging garbage) := by
  have hevolves := (initialisePaging_spec garbage k₀.heap.mem).2
  rw [k₀.initialisePaging_eq]
  generalize MushOS.initialisePaging garbage k₀.heap.mem = result at hevolves ⊢
  exact h.setPaging (hevolves.mono (Set.empty_subset _)) result.1

/-- The scheduler does not mind what the pools hold. -/
theorem taskSystem_init (h : userSystem.Init k) : taskSystem.Init k := by
  rcases h with ⟨k₀, garbage, hbooted, heq⟩
  exact ⟨_, hbooted.initialisePaging garbage, heq⟩

theorem hosts_init (h : userSystem.Init k) :
    ∃ rota s, Hosts k rota s ∧ Processes.system.Init s ∧ rota.queue = [k.currentTask] := by
  rcases h with ⟨k₀, garbage, hbooted, heq⟩
  have hspace := (initialisePaging_spec garbage k₀.heap.mem).1
  have hbooted₁ := hbooted.initialisePaging garbage
  have hinit := k₀.initialisePaging_eq garbage
  generalize initialisePaging garbage k₀.heap.mem = result at hspace hinit
  rcases result with ⟨dir, s₁⟩
  rw [hinit] at heq hbooted₁
  rcases initialiseTasking_spec hbooted₁ heq with ⟨t, htasking, htask, hfolders, hframes, -, hw⟩
  have halone : Isolated s₁ (fun _ => dir) [t] := by
    refine ⟨fun _ _ => hspace, ?_⟩
    intro t₁ ht₁ t₂ ht₂ hne
    rw [List.mem_singleton] at ht₁ ht₂
    exact absurd (ht₁.trans ht₂.symm) hne
  have hcurrent : k.currentTask = t := htasking.current
  obtain ⟨hisolated, -⟩ := halone.kernel hfolders hframes hw fun t' ht' => by
    rw [List.mem_singleton.mp ht', htask]
  refine ⟨⟨[], t, []⟩, ⟨t, [t], k.userMemory⟩, ⟨htasking, hisolated, hcurrent.symm, rfl, ?_⟩,
    rfl, ?_⟩
  · intro t' _
    rfl
  · rw [hcurrent]
    rfl

/-- A fork. -/
theorem Hosts.fork (h : Hosts k rota s) {esp ebp eip pid child : UDword}
    (heq : fork esp ebp eip k = .ok (pid, k')) (hchild : ∃ k₁, forkTask k = .ok (child, k₁))
    (henough : EnoughSlots k.paging k.currentDirectory) :
    ∃ s', Processes.Step s (.fork k.currentTask child) s' ∧ Hosts k' (rota.spawn child) s' := by
  rcases fork_spec h.tasking heq hchild with ⟨-, hforks⟩
  have hmem := h.tasking.current_mem
  have htask := hforks.child
  have honly := hforks.heapOnly
  rw [h.tasking.directory] at henough htask honly
  obtain ⟨dir, paging, hclone⟩ : ∃ dir paging,
    cloneDirectory (k.task k.currentTask).pageDirectory k.paging = (dir, paging) := ⟨_, _, rfl⟩
  rw [hclone] at htask honly
  -- the child starts with the memory of its parent, the others keep theirs
  rcases h.isolated.of_clone hmem henough hforks.fresh hclone with ⟨hisolated, hbytes, hcopied⟩
  have hne : ∀ t ∈ rota.queue, t ≠ child := by
    rintro t ht rfl
    exact hforks.fresh ht
  rcases hisolated.kernel (k := k') honly.pagingPool honly.userSpacePool
    honly.writes (by
      intro t ht
      rcases List.mem_append.mp ht with ht | ht
      · rw [Function.update_of_ne (hne t ht), hforks.others t ht]
      · rw [List.mem_singleton.mp ht, Function.update_self, htask]) with ⟨hisolated', hmemory⟩
  have hknown := h.known
  refine ⟨⟨s.current, s.known ++ [child], Function.update s.memory child (s.memory k.currentTask)⟩,
    ⟨h.current.symm, by rw [hknown]; exact hforks.fresh, rfl⟩, hforks.tasking, ?_, ?_, ?_, ?_⟩
  · rw [Rota.queue_spawn]
    exact hisolated'
  · rw [hforks.tasking.current, Rota.current_spawn, ← h.tasking.current]
    exact h.current
  · rw [Rota.queue_spawn, ← hknown]
  · intro t ht
    rw [Rota.queue_spawn] at ht
    rw [hmemory t ht]
    rcases List.mem_append.mp ht with ht | ht
    · simp only [Function.update_of_ne (hne t ht)]
      rw [h.memory t ht]
      funext a
      exact (hbytes t ht a).symm
    · rw [List.mem_singleton.mp ht]
      simp only [Function.update_self]
      rw [h.memory _ hmem]
      funext a
      exact (hcopied a).symm

/-- A switch. -/
theorem Hosts.switch (h : Hosts k rota s) {esp ebp eip : UDword} {loaded : Registers}
    (heq : switchTask esp ebp eip k = (some loaded, k')) :
    ∃ s', Processes.Step s (.switch k'.currentTask) s' ∧ Hosts k' rota.turn s' := by
  have hswitches := switches_of_eq h.tasking heq
  rcases h.isolated.kernel (k := k') hswitches.pagingPool
    hswitches.userSpacePool hswitches.writes (by
      intro t ht
      by_cases htc : t = rota.current
      · rw [htc, hswitches.saved]
      · rw [hswitches.others t ht htc]) with ⟨hisolated, hmemory⟩
  refine ⟨{ s with current := k'.currentTask }, rfl, hswitches.tasking, ?_, rfl, ?_, ?_⟩
  · rw [Rota.queue_turn]
    exact hisolated
  · rw [Rota.queue_turn]
    exact h.known
  · intro t ht
    rw [Rota.queue_turn] at ht
    rw [hmemory t ht]
    exact h.memory t ht

/-- A write. -/
theorem Hosts.write (h : Hosts k rota s) {a x : UDword} (b : UByte)
    (hx : userAddress k.heap.mem k.currentDirectory a = some x) :
    ∃ s', Processes.Step s (.write k.currentTask a (some b)) s' ∧
      Hosts { k with heap := { k.heap with mem := k.heap.mem.write8 x b } } rota s' := by
  have hmem := h.tasking.current_mem
  rw [h.tasking.directory] at hx
  have hpage := h.isolated.userAddress_page hmem hx
  have hw : Writes {x} k.heap.mem (k.heap.mem.write8 x b) := writes_write8 _ _ rfl
  rcases h.tasking.of_writes hw (by
    rintro y rfl hregion
    rw [mem_heapRegion] at hregion
    unfold pageOf at hpage
    omega) with ⟨htasking, hsame⟩
  rcases h.isolated.of_user hmem hx b with ⟨hisolated, hbytes⟩
  refine ⟨{ s with
    memory := Function.update s.memory k.currentTask
      (Function.update (s.memory k.currentTask) a (some b)) }, ⟨h.current.symm, rfl⟩, htasking,
    hisolated.congr fun t ht => congrArg Task.pageDirectory (hsame t ht), h.current, h.known, ?_⟩
  intro t ht
  funext a'
  unfold Kernel.userMemory
  rw [hsame t ht]
  refine Eq.trans ?_ (hbytes t ht a').symm
  by_cases htc : t = k.currentTask
  · -- the task that writes sees the new byte, and at no other address
    subst htc
    simp only [Function.update_self, true_and]
    by_cases ha : a' = a
    · rw [ha, Function.update_self, if_pos rfl]
    · rw [Function.update_of_ne ha, if_neg ha, h.memory _ ht]
      rfl
  · simp only [Function.update_of_ne htc, htc, false_and, if_false]
    rw [h.memory t ht]
    rfl

/-- **The tasks are processes** with private memories. -/
theorem kernel_refines_processes (h : Hosts k rota s) (hrun : userSystem.Run k steps k') :
    ∃ rota' s', Processes.system.Run s (steps.map UserStep.act) s' ∧ Hosts k' rota' s' := by
  have hsim : ∀ k step k' s, userSystem.Step k step k' → (∃ rota, Hosts k rota s) →
      ∃ s', Processes.Step s step.act s' ∧ ∃ rota', Hosts k' rota' s' := by
    intro k step k' s hstep ⟨rota, h⟩
    cases step with
    | call task call =>
      rcases hstep with ⟨rfl, hcall, hslots⟩
      cases call with
      | fork esp ebp eip pid child directory =>
        rcases hcall with ⟨heq, hchild, -⟩
        rcases h.fork heq hchild hslots with ⟨s', hstep', h'⟩
        exact ⟨s', hstep', _, h'⟩
      | switchTask task esp ebp eip loaded next =>
        rcases hcall with ⟨heq, -, rfl⟩
        rcases h.switch heq with ⟨s', hstep', h'⟩
        exact ⟨s', hstep', _, h'⟩
    | write task a b =>
      rcases hstep with ⟨rfl, x, hx, rfl⟩
      rcases h.write b hx with ⟨s', hstep', h'⟩
      exact ⟨s', hstep', _, h'⟩
  obtain ⟨s', hrun', rota', h'⟩ :=
    @System.Run.simulate _ _ _ _ _ Processes.system _ UserStep.act hsim _ _ _ s hrun ⟨rota, h⟩
  exact ⟨rota', s', hrun', h'⟩

end Steps

/-- Between any two of the tasks: no user frame of one is mapped by the other, as a user
page or as a kernel page, and their kernel pages are the same. -/
structure SeparateSpaces (k : Kernel) (tasks : List UDword) : Prop where
  user : ∀ t ∈ tasks, ∀ t' ∈ tasks, t ≠ t' → ∀ v < 2 ^ 20, ∀ w < 2 ^ 20, ∀ p q,
    k.translate t v = some p → k.translate t' w = some q → p.user = true → q.frame ≠ p.frame
  kernel : ∀ t ∈ tasks, ∀ t' ∈ tasks, ∀ v < 2 ^ 20, ∀ p, k.translate t v = some p →
    p.user = false → ∃ q, k.translate t' v = some q ∧ q.user = false ∧ q.frame = p.frame

/-- The kernel pages of every task are mapped to themselves. -/
theorem Isolated.separateSpaces {k : Kernel} {tasks : List UDword}
    (h : Isolated k.paging (fun t => (k.task t).pageDirectory) tasks) : SeparateSpaces k tasks := by
  refine ⟨h.apart, ?_⟩
  intro t ht t' ht' v hv p hp hu
  rcases (h.spaces t ht).page hv hp with ⟨hlow, hstack⟩
  have hmapped := (h.spaces t' ht').mapped v hv
  rw [if_pos hlow, ← hstack, hu, Option.map_eq_some_iff] at hmapped
  rcases hmapped with ⟨q, hq, hqu⟩
  refine ⟨q, hq, hqu, ?_⟩
  rw [(h.spaces t' ht').kernel v hv q hq hqu, (h.spaces t ht).kernel v hv p hp hu]

/-- **Address spaces are isolated.** In every run of forks, switches and user writes in
which the pools do not run out, the spaces of the tasks are separate; the user memory of
a task changes by its own writes only, and that of a new task is, later on, what its
parent had when it was forked and its own writes since. -/
theorem address_spaces_isolated {k₀ k : Kernel} {steps : List UserStep}
    (hinit : userSystem.Init k₀) (hrun : userSystem.Run k₀ steps k) :
    SeparateSpaces k (k₀.currentTask :: forked (steps.map UserStep.act)) ∧
      (∀ t ∈ k₀.currentTask :: forked (steps.map UserStep.act), ∀ later k',
        userSystem.Run k later k' →
        k'.userMemory t = written (k.userMemory t) (ownWrites t (later.map UserStep.act))) ∧
      ∀ task esp ebp eip pid child directory k₁,
        userSystem.Step k (.call task (.fork esp ebp eip pid child directory)) k₁ →
        ∀ later k', userSystem.Run k₁ later k' →
        k'.userMemory child =
          written (k.userMemory k.currentTask) (ownWrites child (later.map UserStep.act)) := by
  rcases hosts_init hinit with ⟨rota₀, s₀, h₀, hinit₀, hqueue⟩
  -- the run is one of processes with a memory of their own each
  rcases kernel_refines_processes h₀ hrun with ⟨rota, s, hrun', h⟩
  have hknown : rota.queue = k₀.currentTask :: forked (steps.map UserStep.act) := by
    rw [← h.known, known_of_run hrun', h₀.known, hqueue, List.singleton_append]
  rw [← hknown]
  refine ⟨h.isolated.separateSpaces, ?_, ?_⟩
  · intro t ht later k' hlater
    rcases kernel_refines_processes h hlater with ⟨rota', s', hlater', h'⟩
    rcases memory_of_run (h.known ▸ ht) hlater' with ⟨hmem, hmemory⟩
    rw [h'.memory t (h'.known ▸ hmem), h.memory t ht] at hmemory
    exact hmemory
  · intro task esp ebp eip pid child directory k₁ hstep later k' hlater
    rcases hstep with ⟨rfl, ⟨heq, hchild, -⟩, hslots⟩
    rcases h.fork heq hchild hslots with ⟨s₁, hstep', h₁⟩
    rcases kernel_refines_processes h₁ hlater with ⟨rota', s', hlater', h'⟩
    have hmem₁ : child ∈ s₁.known := by
      rw [h₁.known, Rota.queue_spawn]
      exact List.mem_append_right _ (List.mem_singleton.mpr rfl)
    have hmem := (memory_of_run hmem₁ hlater').1
    have hmemory := memory_of_fork hstep' hlater'
    rw [h'.memory child (h'.known ▸ hmem), h.memory _ h.tasking.current_mem] at hmemory
    exact hmemory

/-- The current task can write to the pages of its stack. -/
theorem Hosts.exists_write {k : Kernel} {rota : Rota UDword}
    {s : Processes.State UDword UDword (Option UByte)} (h : Hosts k rota s) (b : UByte) :
    ∃ k', userSystem.Step k (.write k.currentTask 0x2000 b) k' := by
  have hmapped := (h.isolated.spaces _ h.tasking.current_mem).mapped 2 (by decide)
  rw [if_pos (by decide), Option.map_eq_some_iff] at hmapped
  rcases hmapped with ⟨p, hp, hu⟩
  refine ⟨_, rfl, pageByte p.frame 0, ?_, rfl⟩
  rw [h.tasking.directory]
  exact userAddress_eq_some.mpr ⟨p, hp, hu, rfl⟩

end MushOS
