import MushOS.Kernel.ControlFlow
import MushOS.Kernel.Start

/-! # Runs of the kernel on one memory

* `memory_kernel_isolated`: the tasks are processes with private memories;
* `fork_limit`: which forks go well.

Every fork takes two slots of the paging pool, for the directory and for the one table
with user pages, and five of the user space, for the pages of the stack. Nothing gives
any of them back, and no other step takes one, so that the number of tasks says what is
left (`Stocked`). The heap grows by one task per fork (`Compact`).
-/

namespace MushOS

open ByteMemory Links RoundRobin Transition Processes

/-! ## What a clone takes -/

section Clone
variable {s : Paging} {dir : UDword} {i v : ℕ}

theorem card_stackPages : ((Finset.range (2 ^ 20)).filter fun v =>
    (if v < 0x1000 then isStackPage v else false) = true).card = 5 := by
  have hfilter : (Finset.range (2 ^ 20)).filter (fun v =>
      (if v < 0x1000 then isStackPage v else false) = true) = Finset.Ico 2 7 := by
    ext v
    rw [Finset.mem_filter, Finset.mem_range, Finset.mem_Ico]
    by_cases hv : v < 0x1000
    · rw [if_pos hv, isStackPage_iff]
      omega
    · rw [if_neg hv]
      constructor
      · rintro ⟨-, hfalse⟩
        cases hfalse
      · omega
  rw [hfilter, Nat.card_Ico]

/-- A task has the five pages of the stack. -/
theorem TaskSpace.userPageCount (h : TaskSpace s dir) : userPageCount s.mem dir = 5 := by
  rw [← card_stackPages]
  unfold MushOS.userPageCount
  refine congrArg Finset.card (Finset.filter_congr ?_)
  intro v hv
  have hmapped := h.mapped v (Finset.mem_range.mp hv)
  by_cases hlow : v < 0x1000
  · rw [if_pos hlow, Option.map_eq_some_iff] at hmapped
    rcases hmapped with ⟨p, hp, hu⟩
    rw [hp, if_pos hlow, ← hu]
    rfl
  · rw [if_neg hlow, Option.map_eq_none_iff] at hmapped
    rw [hmapped, if_neg hlow]
    rfl

/-- Only the first of its tables has user pages. -/
theorem TaskSpace.isCloned_iff (h : TaskSpace s dir) (hfour : FourTables s.mem dir)
    (hi : i < 1024) :
    isCloned s.mem (s.mem.entry dir i) = true ↔ i = 0 := by
  by_cases hi4 : 4 ≤ i
  · -- no table there
    have habsent := hfour i hi hi4
    unfold isCloned
    rw [habsent, Bool.false_and]
    constructor
    · intro hfalse
      cases hfalse
    · omega
  have hentry : ∀ j < 1024, ∃ p : Mapping, p.user = isStackPage (i * 1024 + j) ∧
      p.table = s.mem.entry dir i ∧
      p.page = s.mem.entry (pageStart (s.mem.entry dir i).frame.toNat) j ∧
      (s.mem.entry dir i).present = true := by
    intro j hj
    have hdiv : (i * 1024 + j) / 1024 = i := by omega
    have hmod : (i * 1024 + j) % 1024 = j := by omega
    have hmapped := h.mapped (i * 1024 + j) (by omega)
    rw [if_pos (by omega), Option.map_eq_some_iff] at hmapped
    rcases hmapped with ⟨p, hp, hu⟩
    rcases translate_eq_some.mp hp with ⟨htable, hpage, hpresent, -⟩
    rw [hdiv] at htable
    rw [← htable] at hpage hpresent
    rw [hmod] at hpage
    exact ⟨p, hu, htable.symm, hpage.symm, hpresent⟩
  unfold isCloned
  rw [Bool.and_eq_true, Bool.or_eq_true, containsUserPages_iff]
  constructor
  · rintro ⟨-, huser⟩
    -- a user bit makes a user page, which is one of the stack
    obtain ⟨j, hj, hstack⟩ : ∃ j < 1024, isStackPage (i * 1024 + j) = true := by
      rcases huser with htable | ⟨j, hj, hpage⟩
      · obtain ⟨p, hu, hpt, -, -⟩ := hentry 0 (by decide)
        refine ⟨0, by decide, ?_⟩
        rw [← hu]
        unfold Mapping.user
        rw [hpt, htable, Bool.true_or]
      · obtain ⟨p, hu, -, hpp, -⟩ := hentry j hj
        refine ⟨j, hj, ?_⟩
        rw [← hu]
        unfold Mapping.user
        rw [hpp, hpage, Bool.or_true]
    have hrange := isStackPage_iff.mp hstack
    omega
  · rintro rfl
    rcases hentry 2 (by decide) with ⟨p, hu, hpt, hpp, hpresent⟩
    refine ⟨hpresent, ?_⟩
    have huser : p.user = true := by
      rw [hu]
      decide
    unfold Mapping.user at huser
    rw [Bool.or_eq_true, hpt, hpp] at huser
    rcases huser with htable | hpage
    · exact Or.inl htable
    · exact Or.inr ⟨2, by decide, hpage⟩

theorem TaskSpace.clonedTables (h : TaskSpace s dir) (hfour : FourTables s.mem dir) :
    clonedTables s.mem dir = 1 := by
  unfold MushOS.clonedTables clonedTablesTo
  rw [Nat.count_eq_card_filter_range]
  have hfilter : (Finset.range pagesInTable).filter (fun j =>
      isCloned s.mem (s.mem.entry dir j) = true) = {0} := by
    ext j
    rw [Finset.mem_filter, Finset.mem_range, Finset.mem_singleton]
    constructor
    · rintro ⟨hj, hc⟩
      exact (h.isCloned_iff hfour hj).mp hc
    · rintro rfl
      exact ⟨by decide, (h.isCloned_iff hfour (by decide)).mpr rfl⟩
  rw [hfilter, Finset.card_singleton]

end Clone

/-! ## What is left of the pools -/

/-- What the tasks have left of the pools: two folders and five frames each. -/
structure Stocked (k : Kernel) (tasks : List UDword) : Prop where
  folders : (freeFolders k.paging).card + 2 * tasks.length = 3581
  frames : (freeFrames k.paging).card + 5 * tasks.length = 61445
  tables : ∀ t ∈ tasks, FourTables k.heap.mem (k.task t).pageDirectory

section Stock
variable {k k' : Kernel} {rota : Rota UDword} {tasks : List UDword}
  {s : Processes.State UDword UDword (Option UByte)} {S : Set UDword} {steps : List UserStep}

/-- Whether a fork finds enough slots depends on the number of tasks only. -/
theorem Stocked.enoughSlots_iff (hst : Stocked k rota.queue) (h : Hosts k rota s) :
    EnoughSlots k.paging k.currentDirectory ↔ rota.queue.length ≤ 1789 := by
  have hspace := h.space
  have hfour := hst.tables _ h.tasking.current_mem
  rw [← h.tasking.directory] at hfour
  have hfolders := hst.folders
  have hframes := hst.frames
  have htables := hspace.clonedTables hfour
  have hpages := hspace.userPageCount
  unfold EnoughSlots
  omega

/-- Writes outside the pools take nothing. -/
theorem Stocked.of_writes (hst : Stocked k tasks)
    (hspaces : ∀ t ∈ tasks, TaskSpace k.paging (k.task t).pageDirectory)
    (hw : Writes S k.heap.mem k'.heap.mem) (hS : ∀ a ∈ S, pageOf a < 0x100 ∨ 0xf00 ≤ pageOf a)
    (hfolders : k'.pagingPool = k.pagingPool) (hframes : k'.userSpacePool = k.userSpacePool)
    (hdirs : ∀ t ∈ tasks, (k'.task t).pageDirectory = (k.task t).pageDirectory) :
    Stocked k' tasks := by
  refine ⟨?_, ?_, ?_⟩
  · rw [← hst.folders]
    unfold freeFolders Kernel.paging
    rw [hfolders]
  · rw [← hst.frames]
    unfold freeFrames Kernel.paging
    rw [hframes]
  · intro t ht i hi hge
    rw [hdirs t ht, (hspaces t ht).entry_of_writes hw hS hi]
    exact hst.tables t ht i hi hge

theorem heapRegion_pages {a : UDword} (ha : a ∈ heapRegion) :
    pageOf a < 0x100 ∨ 0xf00 ≤ pageOf a := by
  rw [mem_heapRegion] at ha
  unfold pageOf
  omega

/-- A switch. -/
theorem Stocked.switch (hst : Stocked k rota.queue) (h : Hosts k rota s) {esp ebp eip : UDword}
    {loaded : Registers} (heq : switchTask esp ebp eip k = (some loaded, k')) :
    Stocked k' rota.turn.queue := by
  have hswitches := switches_of_eq h.tasking heq
  rw [Rota.queue_turn]
  refine hst.of_writes h.isolated.spaces hswitches.writes (fun a ha => heapRegion_pages ha)
    hswitches.pagingPool hswitches.userSpacePool ?_
  intro t ht
  by_cases htc : t = rota.current
  · rw [htc, hswitches.saved]
  · rw [hswitches.others t ht htc]

/-- A write. -/
theorem Stocked.write (hst : Stocked k rota.queue) (h : Hosts k rota s) {a x : UDword} (b : UByte)
    (hx : userAddress k.heap.mem k.currentDirectory a = some x) :
    Stocked { k with heap := { k.heap with mem := k.heap.mem.write8 x b } } rota.queue := by
  rw [h.tasking.directory] at hx
  have hpage := h.isolated.userAddress_page h.tasking.current_mem hx
  have hw : Writes {x} k.heap.mem (k.heap.mem.write8 x b) := writes_write8 _ _ rfl
  rcases h.tasking.of_writes hw (by
    rintro y rfl hregion
    rw [mem_heapRegion] at hregion
    unfold pageOf at hpage
    omega) with ⟨-, hsame⟩
  refine hst.of_writes h.isolated.spaces hw ?_ rfl rfl fun t ht =>
    congrArg Task.pageDirectory (hsame t ht)
  rintro y rfl
  omega

/-- A fork. -/
theorem Stocked.fork (hst : Stocked k rota.queue) (h : Hosts k rota s)
    {esp ebp eip pid child : UDword} (heq : fork esp ebp eip k = .ok (pid, k'))
    (hchild : ∃ k₁, forkTask k = .ok (child, k₁))
    (henough : EnoughSlots k.paging k.currentDirectory) : Stocked k' (rota.spawn child).queue := by
  rcases fork_spec h.tasking heq hchild with ⟨-, hforks⟩
  have hspace := h.space
  have hinUse := hspace.inUse
  have hfour := hst.tables _ h.tasking.current_mem
  rw [← h.tasking.directory] at hfour
  have htables := hspace.clonedTables hfour
  have hpages := hspace.userPageCount
  rcases cloneDirectory_counts hinUse.held with ⟨hfolders, hframes, -⟩
  have henough' : clonedPages k.paging.mem k.currentDirectory ≤ (freeFrames k.paging).card := by
    rw [clonedPages_eq]
    exact henough.2
  rcases cloneDirectory_spec hinUse.held hinUse.userFrames henough.1 henough' with
    ⟨d, hdir, hd, hd', hevolves, hcopy⟩
  have htask := hforks.child
  have honly := hforks.heapOnly
  obtain ⟨dir, s', hclone⟩ : ∃ dir s', cloneDirectory k.currentDirectory k.paging = (dir, s') :=
    ⟨_, _, (Prod.eta _).symm⟩
  rw [hclone] at hfolders hframes hdir hd' hevolves hcopy htask honly
  dsimp only at hfolders hframes hdir hd' hevolves hcopy htask honly
  have hw : Writes heapRegion s'.mem k'.heap.mem := honly.writes
  have hlength : (rota.spawn child).queue.length = rota.queue.length + 1 := by
    rw [Rota.queue_spawn, List.length_append]
    rfl
  rw [clonedPages_eq] at hframes
  have hbefore := hst.folders
  have hbefore' := hst.frames
  have hleft := henough.1
  have hleft' := henough.2
  refine ⟨?_, ?_, ?_⟩
  · have hsame : freeFolders k'.paging = freeFolders s' := by
      unfold freeFolders Kernel.paging
      rw [honly.pagingPool]
      rfl
    rw [hsame]
    omega
  · have hsame : freeFrames k'.paging = freeFrames s' := by
      unfold freeFrames Kernel.paging
      rw [honly.userSpacePool]
      rfl
    rw [hsame]
    omega
  · -- the directories there were are as before the clone, and that of the child is a copy
    intro t ht i hi hge
    rw [Rota.queue_spawn] at ht
    rcases List.mem_append.mp ht with ht | ht
    · have hspace' := h.isolated.spaces t ht
      have hkept := (hspace'.later hevolves).1
      rw [hforks.others t ht, hkept.entry_of_writes hw (fun a ha => heapRegion_pages ha) hi,
        hspace'.inUse.held.entry hevolves (Set.notMem_empty _) hi]
      exact hst.tables t ht i hi hge
    · rcases hspace.clone hevolves hcopy hd hd' with ⟨hcloned, -⟩
      rw [List.mem_singleton.mp ht, htask, hdir,
        hcloned.entry_of_writes hw (fun a ha => heapRegion_pages ha) hi]
      rw [(hcopy.entries i hi).absent (hfour i hi hge)]
      rfl

end Stock

/-! ## The heap -/

section Heap
variable {k : Kernel} {blocks : List Block} {stop : ℕ} {t : UDword}

/-- The second half of `fork` fills in a task. -/
theorem Compact.forkReturn (hc : Compact k.heap blocks stop) (ht : ⟨t, sizeofTask⟩ ∈ blocks)
    (parent esp ebp eip : UDword) :
    Compact (MushOS.forkReturn parent t esp ebp eip k).2.heap blocks stop := by
  unfold MushOS.forkReturn
  by_cases hparent : k.currentTask = parent
  · rw [if_pos hparent]
    exact ((hc.setMember ht .esp esp).setMember ht .ebp ebp).setMember ht .eip eip
  · rw [if_neg hparent]
    exact hc

/-- A switch writes to the task that leaves. -/
theorem Compact.switchTask (hc : Compact k.heap blocks stop)
    (ht : ⟨k.currentTask, sizeofTask⟩ ∈ blocks) (esp ebp eip : UDword) :
    Compact (MushOS.switchTask esp ebp eip k).2.heap blocks stop := by
  by_cases hnone : k.currentTask = 0
  · unfold MushOS.switchTask
    rw [if_pos hnone]
    exact hc
  by_cases hsentinel : eip = switchSentinel
  · unfold MushOS.switchTask
    rw [if_neg hnone, if_pos hsentinel]
    exact hc
  have hsaved := ((hc.setMember ht .eip eip).setMember ht .esp esp).setMember ht .ebp ebp
  rw [switchTask_eq hnone hsentinel]
  -- loading the next task does not write
  rw [loadNext_eq rfl]
  exact hsaved

end Heap

/-! ## One step -/

/-- The invariant of a run: what the kernel stands for, what the pools hold, and how much of
the heap is in use. -/
structure ForkLedger (mk : MemoryKernel) (blocks : List Block) (k : Kernel) (rota : Rota UDword)
    (s : Processes.State UDword UDword (Option UByte)) : Prop where
  embodies : Embodies mk.pools blocks mk.view k
  hosts : Hosts k rota s
  stocked : Stocked k rota.queue
  compact : Compact mk.heap blocks (0x51fe4 + 36 * rota.queue.length)

section Step
variable {mk mk' : MemoryKernel} {blocks : List Block} {k : Kernel} {rota : Rota UDword}
  {s : Processes.State UDword UDword (Option UByte)} {steps : List UserStep}

/-- The paging pool runs out first. -/
theorem ForkLedger.length_le (ha : ForkLedger mk blocks k rota s) : rota.queue.length ≤ 1790 := by
  have hfolders := ha.stocked.folders
  omega

/-- `fork` up to `get_instruction_pointer` returns. -/
theorem ForkLedger.forkTask (ha : ForkLedger mk blocks k rota s) :
    ∃ t mk₁, InMemory.forkTask mk = .ok (t, mk₁) ∧
      t.toNat = 0x51ff0 + 36 * rota.queue.length ∧
      Compact mk₁.heap (blocks ++ [⟨t, sizeofTask⟩]) (0x52008 + 36 * rota.queue.length) := by
  have hlength := ha.length_le
  rcases ha with ⟨hr, h, -, hc⟩
  have hspace := h.space
  rcases hr.resident.cloneDirectory hspace.inUse.held hspace.outside with ⟨h₁, hclone, hr₁⟩
  have hevolves := evolves_cloneDirectory k.currentDirectory k.paging
  obtain ⟨directory, s₁, hmodel⟩ : ∃ directory s₁, cloneDirectory k.currentDirectory k.paging =
      (directory, s₁) := ⟨_, _, (Prod.eta _).symm⟩
  have hdir : mk.currentDirectory = k.currentDirectory := hr.currentDirectory
  rw [hmodel] at hclone hr₁ hevolves
  dsimp only at hclone hr₁ hevolves
  -- the clone leaves the heap alone
  have hbounds := hr.resident.bounds fun _ _ => rfl
  have hbounds₁ := hr₁.bounds fun a ha => hevolves.not_heapRegion ha
  have hc₁ : Compact h₁ blocks (0x51fe4 + 36 * rota.queue.length) := by
    refine hc.congr hr₁.heap ⟨?_, ?_, ?_⟩
    · exact hbounds₁.header.symm.trans hbounds.header
    · exact hbounds₁.heapStart.symm.trans hbounds.heapStart
    · exact hbounds₁.heapEnd.symm.trans hbounds.heapEnd
  have hr₂ : Embodies mk.pools blocks { mk with heap := h₁ }.view (k.setPaging s₁) :=
    ⟨⟨hr₁.heap, hr₁.pagingPool, hr₁.userSpacePool, hr₁.holds, hr₁.others⟩, hr.currentDirectory,
      hr.currentTask, hr.readyQueue, hr.nextPid⟩
  rcases Compact.createTask (k := { mk with heap := h₁ }.view) hc₁ (by omega) directory with
    ⟨t, v₃, hcreate, ht, hc₃⟩
  rcases hr₂.createTask hcreate with ⟨k₃, blocks', hcreate', hr₃, -, hsub⟩
  -- the queue is as it was, and ends
  rcases h.tasking.holds.setPaging hevolves with ⟨hholds₁, hsame₁⟩
  rcases createTask_spec hholds₁ hcreate' with ⟨-, -, honly, -, -, hsame₃⟩
  have hlinks : Forward (fun t => (k₃.task t).next) rota.queue 0 :=
    h.tasking.links.congr fun t' ht' => by rw [hsame₃ t' ht', hsame₁ t' ht']
  have hne : rota.queue ≠ [] := List.ne_nil_of_mem h.tasking.current_mem
  have hfuel := (h.tasking.holds.length_lt h.tasking.nodup).le
  have hready : k₃.readyQueue = rota.queue.headD 0 := by
    rw [honly.readyQueue]
    exact h.tasking.first
  have hready_mem : k₃.readyQueue ∈ rota.queue := by
    rw [honly.readyQueue]
    exact h.tasking.ready_mem
  have hend := queueEnd_eq hne hlinks h.tasking.null_not_mem hfuel
  have hend' : queueEnd v₃ chainFuel v₃.readyQueue = .ok (rota.queue.getLast hne) := by
    rw [← hend, ← hready, hr₃.readyQueue]
    refine hr₃.queueEnd (fun t ht => hsub _ (hr.tasks h.tasking t ht)) ?_ chainFuel hready_mem
    intro t ht
    exact hlinks.closed ht
  have hlast := hr.tasks h.tasking _ (List.getLast_mem hne)
  have hstop : 0x51fe4 + 36 * rota.queue.length + 36 = 0x52008 + 36 * rota.queue.length := by
    omega
  have hc₄ := hc₃.setMember (List.mem_append_left _ hlast) .next t
  rw [hstop] at hc₄
  refine ⟨t, { mk with heap := h₁ }.after (v₃.setMember (rota.queue.getLast hne) .next t), ?_, ?_,
    hc₄⟩
  · have hclone' : InMemory.cloneDirectory mk.pools mk.currentDirectory mk.heap =
        .ok (directory, h₁) := by
      rw [hdir]
      exact hclone
    unfold InMemory.forkTask
    rw [hclone', ok_bind]
    dsimp only
    rw [hcreate, ok_bind]
    dsimp only
    rw [hend', ok_bind]
    rfl
  · rw [ht]
    omega

/-- **`fork` returns** the next pid, whether or not the pools have enough slots. -/
theorem ForkLedger.fork (ha : ForkLedger mk blocks k rota s) (esp ebp eip : UDword) :
    ∃ child directory mk', child.toNat = 0x51ff0 + 36 * rota.queue.length ∧
      InMemory.fork esp ebp eip mk = .ok (BitVec.ofNat 32 rota.queue.length, mk') ∧
      (∃ mk₁, InMemory.forkTask mk = .ok (child, mk₁)) ∧
      (∃ h, InMemory.cloneDirectory mk.pools mk.currentDirectory mk.heap = .ok (directory, h)) ∧
      Compact mk'.heap (blocks ++ [⟨child, sizeofTask⟩]) (0x52008 + 36 * rota.queue.length) := by
  rcases ha.forkTask with ⟨child, mk₁, hfork, hchild, hc⟩
  rcases ha with ⟨hr, h, -, -⟩
  have hspace := h.space
  rcases hr.resident.cloneDirectory hspace.inUse.held hspace.outside with ⟨h₁, hclone, -⟩
  have hdir : mk.currentDirectory = k.currentDirectory := hr.currentDirectory
  obtain ⟨pid, k', hreturn⟩ : ∃ pid k',
      MushOS.forkReturn mk.currentTask child esp ebp eip mk₁.view =
      (pid, k') := ⟨_, _, (Prod.eta _).symm⟩
  have hok : InMemory.fork esp ebp eip mk = .ok (pid, mk₁.after k') := by
    unfold InMemory.fork
    rw [hfork, ok_bind]
    dsimp only
    rw [hreturn]
    rfl
  have hc' := Compact.forkReturn (k := mk₁.view) hc (t := child) (by simp)
      mk.currentTask esp ebp eip
  rw [hreturn] at hc'
  rcases hr.fork h hok with ⟨k₂, -, hmodel, -⟩
  rcases hr.forkTask h hfork with ⟨k₃, -, hmodelTask, -⟩
  rcases fork_spec h.tasking hmodel ⟨k₃, hmodelTask⟩ with ⟨rfl, -⟩
  rw [h.tasking.nextPid] at hok
  rw [← hdir] at hclone
  exact ⟨child, _, mk₁.after k', hchild, hok, ⟨mk₁, hfork⟩, ⟨h₁, hclone⟩, hc'⟩

/-- Every step keeps the invariant, and is one of processes. -/
theorem ForkLedger.step {step : UserStep} (ha : ForkLedger mk blocks k rota s)
    (hstep : memorySystem.Step mk step mk') :
    ∃ blocks' k' rota' s', ForkLedger mk' blocks' k' rota' s' ∧ Processes.Step s step.act s' := by
  rcases ha with ⟨hr, h, hst, hc⟩
  rcases hr.step h hstep with ⟨k', blocks', hstep', hr'⟩
  cases step with
  | call task call =>
    rcases hstep' with ⟨rfl, hcall, hslots⟩
    cases call with
    | fork esp ebp eip pid child directory =>
      rcases hcall with ⟨heq, hchild, -⟩
      rcases h.fork heq hchild hslots with ⟨s', hact, h'⟩
      refine ⟨blocks', k', _, s', ⟨hr', h', hst.fork h heq hchild hslots, ?_⟩, hact⟩
      -- the new task is the block that was to come next
      rcases hstep with ⟨-, hok, -⟩
      rcases ForkLedger.fork ⟨hr, h, hst, hc⟩ esp ebp eip with ⟨child', -, mk₁, -, hok', -, -, hc'⟩
      rcases Prod.mk.inj (Except.ok.inj (hok.symm.trans hok')) with ⟨-, rfl⟩
      rcases hr'.resident.heap.wellFormed.blocks_unique hc'.heap.wellFormed with rfl
      have hstop : 0x51fe4 + 36 * (rota.spawn child).queue.length =
          0x52008 + 36 * rota.queue.length := by
        rw [Rota.queue_spawn, List.length_append, List.length_singleton]
        omega
      rw [hstop]
      exact hc'
    | switchTask task esp ebp eip loaded next =>
      rcases hcall with ⟨heq, -, rfl⟩
      rcases h.switch heq with ⟨s', hact, h'⟩
      refine ⟨blocks', k', _, s', ⟨hr', h', hst.switch h heq, ?_⟩, hact⟩
      rcases hstep with ⟨-, hswitch, -⟩
      have hcurrent : mk.currentTask = k.currentTask := hr.currentTask
      have hmem := hr.tasks h.tasking _ h.tasking.current_mem
      rw [← hcurrent] at hmem
      have hc' := Compact.switchTask (k := mk.view) hc hmem esp ebp eip
      obtain ⟨answer, v, heq'⟩ : ∃ answer v, MushOS.switchTask esp ebp eip mk.view = (answer, v) :=
        ⟨_, _, (Prod.eta _).symm⟩
      unfold InMemory.switchTask at hswitch
      rw [heq'] at hswitch hc'
      rcases Prod.mk.inj hswitch with ⟨-, rfl⟩
      rcases hr'.resident.heap.wellFormed.blocks_unique hc'.heap.wellFormed with rfl
      rw [Rota.queue_turn]
      exact hc'
  | write task a b =>
    rcases hstep' with ⟨rfl, x, hx, rfl⟩
    rcases h.write b hx with ⟨s', hact, h'⟩
    refine ⟨blocks', _, _, s', ⟨hr', h', hst.write h b hx, ?_⟩, hact⟩
    rcases hstep with ⟨-, y, hy, rfl⟩
    -- a user page is not in the heap
    have hout : OutsideHeap (pageOf y) := by
      have hdir : mk.currentDirectory = k.currentDirectory := hr.currentDirectory
      have hsame := hr.resident.userAddress h.space.inUse.held h.space.outside a
      rw [← hdir] at hsame
      exact h.space.outside.userAddress (hdir ▸ (hsame.symm.trans hy))
    have hc' : Compact { mk.heap with mem := mk.heap.mem.write8 y b } blocks
        (0x51fe4 + 36 * rota.queue.length) := by
      refine hc.of_writes (writes_write8 (S := {y}) _ _ rfl) ?_
      rintro x' hmeta rfl
      exact hout.not_mem rfl (hc.heap.metadata_region hmeta)
    rcases hr'.resident.heap.wellFormed.blocks_unique hc'.heap.wellFormed with rfl
    exact hc'

/-- So does every run. -/
theorem ForkLedger.run (ha : ForkLedger mk blocks k rota s) (hrun : memorySystem.Run mk steps mk') :
    ∃ blocks' k' rota' s', ForkLedger mk' blocks' k' rota' s' ∧
      Processes.system.Run s (steps.map UserStep.act) s' := by
  have hsim : ∀ mk step mk' s, memorySystem.Step mk step mk' →
      (∃ blocks k rota, ForkLedger mk blocks k rota s) →
      ∃ s', Processes.Step s step.act s' ∧ ∃ blocks k rota, ForkLedger mk' blocks k rota s' := by
    rintro mk step mk' s hstep ⟨blocks, k, rota, ha⟩
    rcases ha.step hstep with ⟨blocks', k', rota', s', ha', hact⟩
    exact ⟨s', hact, blocks', k', rota', ha'⟩
  rcases @System.Run.simulate _ _ _ _ _ Processes.system _ UserStep.act hsim _ _ _ s hrun
      ⟨blocks, k, rota, ha⟩ with ⟨s', hrun', blocks', k', rota', ha'⟩
  exact ⟨blocks', k', rota', s', ha', hrun'⟩

end Step

/-! ## Runs from the start -/

/-- The forks of a run. -/
def forks (steps : List UserStep) : ℕ := (forked (steps.map UserStep.act)).length

section Start
variable {h : Heap} {garbage : ℕ → PagePointer} {mk₀ mk : MemoryKernel} {steps : List UserStep}

theorem forkLedger_init (hk : KernelHeap h []) (hheader : h.header = kernelHeapStart)
    (hend : h.heapEnd.toNat = 0xd0000) (hinit : InMemory.initialiseKernel garbage h = .ok mk₀) :
    ∃ blocks k rota s, ForkLedger mk₀ blocks k rota s ∧ rota.queue = [k.currentTask] := by
  rcases initialiseKernel_compact hk hheader hend garbage with ⟨mk₁, hok, hstart, -, -, -, hc⟩
  rcases Except.ok.inj (hok.symm.trans hinit) with rfl
  rcases embodies_init hstart with ⟨k, blocks, hinit', hr⟩
  rcases hosts_init hinit' with ⟨rota, s, hhosts, -, hqueue⟩
  have hfresh := fresh_init hinit'
  have hblocks := hr.resident.heap.wellFormed.blocks_unique hc.heap.wellFormed
  rw [hblocks] at hc
  refine ⟨blocks, k, rota, s, ⟨hr, hhosts, ⟨?_, ?_, ?_⟩, ?_⟩, hqueue⟩
  · rw [hqueue, hfresh.folders]
    rfl
  · rw [hqueue, hfresh.frames]
    rfl
  · intro t ht
    rw [hqueue, List.mem_singleton] at ht
    rw [ht, ← hhosts.tasking.directory]
    exact hfresh.tables
  · rw [hqueue]
    exact hc

/-- What a run from there leaves. -/
theorem forkLedger_run (hk : KernelHeap h []) (hheader : h.header = kernelHeapStart)
    (hend : h.heapEnd.toNat = 0xd0000) (hinit : InMemory.initialiseKernel garbage h = .ok mk₀)
    (hrun : memorySystem.Run mk₀ steps mk) :
    ∃ blocks k rota s, ForkLedger mk blocks k rota s ∧ rota.queue.length = forks steps + 1 := by
  rcases forkLedger_init hk hheader hend hinit with ⟨blocks₀, k₀, rota₀, s₀, ha₀, hqueue₀⟩
  rcases ha₀.run hrun with ⟨blocks, k, rota, s, ha, hprocesses⟩
  refine ⟨blocks, k, rota, s, ha, ?_⟩
  rw [← ha.hosts.known, known_of_run hprocesses, ha₀.hosts.known, hqueue₀, List.length_append,
    Nat.add_comm]
  rfl

/-- The first fork. -/
theorem exists_memorySystem_fork : ∃ mk₀ child directory mk, memorySystem.Init mk₀ ∧
    memorySystem.Step mk₀ (.call mk₀.currentTask (.fork 0x6f00 0x6f20 0x8123 1 child directory))
      mk := by
  have hend : bootHeap.heapEnd.toNat = 0xd0000 := by decide
  rcases initialiseKernel_compact kernelHeap_bootHeap rfl hend fun _ => PagePointer.absent with
    ⟨mk₀, hok, hinit, -⟩
  rcases forkLedger_init kernelHeap_bootHeap rfl hend hok with ⟨blocks, k, rota, s, ha, hqueue⟩
  rcases ha.fork 0x6f00 0x6f20 0x8123 with ⟨child, directory, mk, -, hfork, htask, hclone, -⟩
  have hspace := ha.hosts.space
  have hsame := ha.embodies.resident.enoughSlots hspace.inUse.held hspace.outside
  have henough := hsame.mpr ((ha.stocked.enoughSlots_iff ha.hosts).mpr (by rw [hqueue]; simp))
  have hdir : mk₀.currentDirectory = k.currentDirectory := ha.embodies.currentDirectory
  rw [hqueue] at hfork
  rw [← hdir] at henough
  exact ⟨mk₀, child, directory, mk, hinit, rfl, hfork, htask, hclone, henough⟩

end Start

/-! ## A fork, a switch and a switch back -/

/-- The first fork. -/
def forkCall (child directory : UDword) : Call := .fork 0x6f00 0x6f20 0x8123 1 child directory

/-- The parent leaves the processor to the child. -/
def leaveCall (parent child : UDword) (loaded : Registers) : Call :=
  .switchTask parent 0x6e00 0x6e20 0x8200 loaded child

/-- And the child leaves it to the parent. -/
def backCall (parent child : UDword) (loaded : Registers) : Call :=
  .switchTask child 0x6d00 0x6d20 0x8200 loaded parent

/-- `userSystem` gets as far as the first fork. -/
theorem exists_userSystem_fork : ∃ k₀ child directory k₁, userSystem.Init k₀ ∧
    userSystem.Step k₀ (.call k₀.currentTask (forkCall child directory)) k₁ := by
  rcases exists_memorySystem_fork with ⟨mk₀, child, directory, mk, hinit, hstep⟩
  rcases embodies_init hinit with ⟨k₀, blocks, hinit₀, hr⟩
  rcases hosts_init hinit₀ with ⟨rota, s, h, -⟩
  rcases hr.step h hstep with ⟨k₁, blocks', hstep₁, -⟩
  have hcurrent : mk₀.currentTask = k₀.currentTask := hr.currentTask
  rw [hcurrent] at hstep₁
  exact ⟨k₀, child, directory, k₁, hinit₀, hstep₁⟩

section Forked
variable {k₀ k₁ k₂ : Kernel} {child directory : UDword} {loaded : Registers}

/-- After the fork there are two tasks, and the parent is current. -/
theorem tasking_fork (hinit : taskSystem.Init k₀)
    (hfork : taskSystem.Step k₀ (forkCall child directory) k₁) :
    child ≠ k₀.currentTask ∧ Tasking k₁ ⟨[], k₀.currentTask, [child]⟩ := by
  rcases hfork with ⟨heq, hchild, -⟩
  rcases fork_spec (tasking_init hinit).1 heq hchild with ⟨-, hforks⟩
  exact ⟨fun hsame => hforks.fresh (hsame ▸ List.mem_cons_self), hforks.tasking⟩

/-- The parent leaves, and the child leaves after it. -/
theorem exists_leave_back (h : Tasking k₁ ⟨[], k₀.currentTask, [child]⟩) :
    ∃ loaded k₂ loaded' k₃, taskSystem.Step k₁ (leaveCall k₀.currentTask child loaded) k₂ ∧
      taskSystem.Step k₂ (backCall k₀.currentTask child loaded') k₃ := by
  rcases exists_switchTask h (by decide : (0x8200 : UDword) ≠ switchSentinel) 0x6e00 0x6e20 with
    ⟨loaded, k₂, hleave, h₂⟩
  rcases exists_switchTask h₂ (by decide : (0x8200 : UDword) ≠ switchSentinel) 0x6d00 0x6d20 with
    ⟨loaded', k₃, hback, -⟩
  exact ⟨loaded, k₂, loaded', k₃, hleave, hback⟩

end Forked

/-- The three calls, as a run of `taskSystem`. -/
theorem exists_taskSystem_back : ∃ k₀ child directory k₁ loaded k₂ loaded' k₃,
    taskSystem.Init k₀ ∧ child ≠ k₀.currentTask ∧
      taskSystem.Step k₀ (forkCall child directory) k₁ ∧ k₁.currentTask = k₀.currentTask ∧
      taskSystem.Step k₁ (leaveCall k₀.currentTask child loaded) k₂ ∧
      taskSystem.Step k₂ (backCall k₀.currentTask child loaded') k₃ := by
  rcases exists_userSystem_fork with ⟨k₀, child, directory, k₁, hinit, hstep⟩
  have hfork := hstep.2.1
  rcases tasking_fork (taskSystem_init hinit) hfork with ⟨hne, h₁⟩
  rcases exists_leave_back h₁ with ⟨loaded, k₂, loaded', k₃, hleave, hback⟩
  exact ⟨k₀, child, directory, k₁, loaded, k₂, loaded', k₃, taskSystem_init hinit, hne, hfork,
    h₁.current, hleave, hback⟩

/-- The child has its turn between two turns of the parent. -/
theorem round_robin_fork : ∃ k₀ child directory loaded loaded' k₃, taskSystem.Run k₀
      [forkCall child directory, leaveCall k₀.currentTask child loaded,
        backCall k₀.currentTask child loaded'] k₃ ∧
    QueueInvariant k₃ [k₀.currentTask, child] ∧
    (scheduled [leaveCall k₀.currentTask child loaded]).count child = 1 := by
  rcases exists_taskSystem_back with
    ⟨k₀, child, directory, k₁, loaded, k₂, loaded', k₃, hinit, hne, hfork, hcurrent, hleave, hback⟩
  have hrun := ((System.Run.single hfork).snoc hleave).snoc hback
  refine ⟨k₀, child, directory, loaded, loaded', k₃, hrun, (round_robin hinit hrun).1, ?_⟩
  have hturns := (round_robin hinit (.single hfork)).2 _ k₂ (.single hleave)
  rw [hcurrent] at hturns
  have hno : k₀.currentTask ∉ scheduled [leaveCall k₀.currentTask child loaded] := by
    intro hmem
    exact hne (List.mem_singleton.mp hmem).symm
  refine (hturns hno ⟨_, _, _, _, _, _, hback⟩).1 child ?_ hne
  simp [children, spawned, forkCall, Call.act]

/-- The fork has returned 1, and so does `getpid` in the child, but not in the parent. -/
theorem getpid_after_fork_child : ∃ k₀ child directory k₁ loaded k₂ loaded' k₃,
    taskSystem.Step k₀ (forkCall child directory) k₁ ∧
      taskSystem.Step k₁ (leaveCall k₀.currentTask child loaded) k₂ ∧ getpid k₂ = 1 ∧
      taskSystem.Step k₂ (backCall k₀.currentTask child loaded') k₃ ∧ getpid k₃ ≠ 1 := by
  rcases exists_taskSystem_back with
    ⟨k₀, child, directory, k₁, loaded, k₂, loaded', k₃, hinit, hne, hfork, hcurrent, hleave, hback⟩
  have hlater := System.Run.single hleave
  have hchild : k₂.currentTask = child := hleave.2.2.symm
  have hparent : k₃.currentTask = k₀.currentTask := hback.2.2.symm
  refine ⟨k₀, child, directory, k₁, loaded, k₂, loaded', k₃, hfork, hleave, ?_, hback, ?_⟩
  · exact (getpid_after_fork hinit .nil hfork hlater).mpr hchild
  · intro hpid
    exact hne (((getpid_after_fork hinit .nil hfork (hlater.snoc hback)).mp hpid).symm.trans
        hparent)

/-- The child starts with the context recorded by the fork, and the parent goes on with the
one it has left. -/
theorem context_preserved_fork : ∃ k₀ child directory loaded k₂ loaded' k₃, taskSystem.Run k₀
      [forkCall child directory, leaveCall k₀.currentTask child loaded,
        backCall k₀.currentTask child loaded'] k₃ ∧
    Restores k₀ [forkCall child directory, leaveCall k₀.currentTask child loaded] k₂
      (backCall k₀.currentTask child loaded') loaded' child k₀.currentTask k₃ ∧
    loaded.context = ⟨0x6f00, 0x6f20, 0x8123⟩ ∧ loaded'.context = ⟨0x6e00, 0x6e20, 0x8200⟩ := by
  rcases exists_taskSystem_back with
    ⟨k₀, child, directory, k₁, loaded, k₂, loaded', k₃, hinit, hne, hfork, hcurrent, hleave, hback⟩
  have hrun := (System.Run.single hfork).snoc hleave
  have hfirst := (context_preserved hinit (.single hfork)).2 _ _ _ _ _ _ _ hleave
  have hsecond := (context_preserved hinit hrun).2 _ _ _ _ _ _ _ hback
  refine ⟨k₀, child, directory, loaded, k₂, loaded', k₃, hrun.snoc hback, hsecond, ?_, ?_⟩
  · rw [hfirst.context]
    simp [lastSaved, forkCall, Ne.symm hne]
  · rw [hsecond.context]
    simp [lastSaved, forkCall, leaveCall, hne]

/-- The three calls on the machine, before anything is known of what the switches return. -/
theorem exists_machine_back : ∃ (m₀ m₁ m₂ m₃ : Machine) (parent child : UDword) (k : Kernel)
    (c₂ c₃ : ℕ) (v₂ v₃ : Option UDword), (machineSystem bootSites).Init m₀ ∧ child ≠ parent ∧
    (m₀.calls = 0 ∧ m₀.kernel.currentTask = parent ∧ forkTask m₀.kernel = .ok (child, k)) ∧
    (m₁.calls = 1 ∧ m₁.kernel.currentTask = parent) ∧
    m₀.callFork bootSites 1 0x6f00 0x6f20 0 = some ([.called 0 parent .spawn, .created 0 child,
      .returned 0 parent (some m₀.kernel.nextPid)], m₁) ∧
    m₁.callSwitchTask bootSites 2 0x6e00 0x6e20 =
      some ([.called 1 parent .yield, .resumed child, .returned c₂ child v₂], m₂) ∧
    m₂.callSwitchTask bootSites 2 0x6d00 0x6d20 =
      some ([.called 2 child .yield, .resumed parent, .returned c₃ parent v₃], m₃) := by
  rcases exists_userSystem_fork with ⟨k₀, child, directory, k₁, hinit, hfork⟩
  have hne := (tasking_fork (taskSystem_init hinit) hfork.2.1).1
  rcases hfork.2.1.2.1 with ⟨k, htask⟩
  have hstart : (machineSystem bootSites).Init ⟨k₀, fun _ _ => none, 0⟩ :=
    ⟨taskSystem_init hinit, rfl⟩
  rcases exists_stands hstart with ⟨s₀, -, h₀⟩
  -- the fork, the way to the child, and the way back
  rcases h₀.callFork htask 0x6f00 0x6f20 0 with ⟨m₁, s₁, hcall₁, hstep₁, h₁⟩
  rcases h₁.callSwitchTask 0x6e00 0x6e20 with ⟨c₂, v₂, m₂, s₂, hcall₂, hstep₂, h₂⟩
  rcases h₂.callSwitchTask 0x6d00 0x6d20 with ⟨c₃, v₃, m₃, s₃, hcall₃, -, -⟩
  have hcurrent₁ : m₁.kernel.currentTask = k₀.currentTask := h₁.tasking.current
  have hcurrent₂ : m₂.kernel.currentTask = child := h₂.tasking.current
  have hcalls₁ : m₁.calls = 1 := by
    rw [← h₁.calls, hstep₁.calls, h₀.calls]
  have hcalls₂ : m₂.calls = 2 := by
    rw [← h₂.calls, hstep₂.calls, h₁.calls, hcalls₁]
  have hleft := hcall₂ 0
  have hback := hcall₃ 0
  rw [hcalls₁, hcurrent₁] at hleft
  rw [hcalls₂, hcurrent₂] at hback
  exact ⟨_, m₁, m₂, m₃, k₀.currentTask, child, k, c₂, c₃, v₂, v₃, hstart, hne, ⟨rfl, rfl, htask⟩,
    ⟨hcalls₁, hcurrent₁⟩, hcall₁ 0, hleft, hback⟩

/-- The fork returns in the child when the parent has made a switch, and that switch returns
when the child has made another one. -/
theorem returns_once_and_twice_fork : ∃ (m₀ m₃ : Machine) (parent child pid : UDword),
    (machineSystem bootSites).Run m₀
      [[.called 0 parent .spawn, .created 0 child, .returned 0 parent (some pid)],
        [.called 1 parent .yield, .resumed child, .returned 0 child (some 0)],
        [.called 2 child .yield, .resumed parent, .returned 1 parent none]] m₃ ∧
    parent ≠ child ∧ OwnPid m₃.kernel child pid := by
  rcases exists_machine_back with ⟨m₀, m₁, m₂, m₃, parent, child, k, c₂, c₃, v₂, v₃, hstart, hne,
    ⟨hcalls₀, hcurrent₀, htask⟩, ⟨hcalls₁, hcurrent₁⟩, hforked, hleft, hback⟩
  have hrun₁ := System.Run.single (T := machineSystem bootSites) (Or.inr ⟨_, _, _, _, hforked⟩)
  have hrun₂ := System.Run.single (T := machineSystem bootSites) (Or.inl ⟨_, _, _, hleft⟩)
  have hrun₃ := System.Run.single (T := machineSystem bootSites) (Or.inl ⟨_, _, _, hback⟩)
  -- what the fork returns in the child
  rcases (returns_once_and_twice bootSites hstart .nil).2.2 child k 0x6f00 0x6f20 0 htask with
    ⟨m₁', hcall₁, hafter₁⟩
  have hsame₁ := Prod.mk.inj (Option.some.inj (hforked.symm.trans (hcall₁ 0)))
  rw [← hsame₁.2, hcalls₀] at hafter₁
  rcases hafter₁ _ m₃ (hrun₂.append hrun₃) with ⟨honce₁, hown⟩
  have hreturned₁ : Coroutines.Event.returned c₂ child v₂ = .returned 0 child (some 0) := by
    refine honce₁.eq_returned [.called 1 parent .yield] ?_
    simp
  -- what the first switch returns in the parent
  rcases (returns_once_and_twice bootSites hstart hrun₁).2.1 0x6e00 0x6e20 with
    ⟨next, c, v, m₂', hcall₂, hafter₂⟩
  have hsame₂ := Prod.mk.inj (Option.some.inj (hleft.symm.trans (hcall₂ 0)))
  rw [← hsame₂.2, hcalls₁, hcurrent₁] at hafter₂
  have htail := List.cons.inj (List.cons.inj hsame₂.1).2
  have honce₂ := hafter₂ _ m₃ hrun₃
  rw [← htail.1, ← (List.cons.inj htail.2).1] at honce₂
  have hreturned₂ : Coroutines.Event.returned c₃ parent v₃ = .returned 1 parent none := by
    refine honce₂.eq_returned
      [.resumed child, .returned c₂ child v₂, .called 2 child .yield] ?_
    simp [hne.symm]
  rw [hreturned₁] at hrun₂
  rw [hreturned₂] at hrun₃
  exact ⟨m₀, m₃, parent, child, _, (hrun₁.append hrun₂).append hrun₃, hne.symm, hown⟩

/-- The child writes to its stack, and the parent, when it is back, does not notice. -/
theorem address_spaces_isolated_fork : ∃ k₀ child steps k, userSystem.Run k₀ steps k ∧
    k.currentTask = k₀.currentTask ∧ SeparateSpaces k [k₀.currentTask, child] ∧
    k.userMemory k₀.currentTask = k₀.userMemory k₀.currentTask ∧
    k.userMemory child =
      Function.update (k₀.userMemory k₀.currentTask) 0x2000 (some 7) := by
  rcases exists_userSystem_fork with ⟨k₀, child, directory, k₁, hinit, hfork⟩
  rcases tasking_fork (taskSystem_init hinit) hfork.2.1 with ⟨hne, -⟩
  rcases hosts_init hinit with ⟨rota, s, h₀, -, hqueue⟩
  obtain rfl : rota = ⟨[], k₀.currentTask, []⟩ := Rota.eq_of_queue hqueue
  rcases h₀.fork hfork.2.1.1 hfork.2.1.2.1 hfork.2.2 with ⟨s₁, -, h₁⟩
  rcases exists_switchTask h₁.tasking (by decide : (0x8200 : UDword) ≠ switchSentinel) 0x6e00
    0x6e20 with ⟨loaded, k₂, hleave, -⟩
  rcases h₁.switch hleave.1 with ⟨s₂, -, h₂⟩
  have hcurrent₂ : k₂.currentTask = child := h₂.tasking.current
  -- the child writes to its memory, and goes on
  rcases h₂.exists_write 7 with ⟨k₃, hstep₃⟩
  have h₃ : ∃ s₃, Hosts k₃ ⟨[k₀.currentTask], child, []⟩ s₃ := by
    rcases hstep₃ with ⟨-, x, hx, rfl⟩
    rcases h₂.write 7 hx with ⟨s₃, -, h₃⟩
    exact ⟨s₃, h₃⟩
  rcases h₃ with ⟨s₃, h₃⟩
  rcases exists_switchTask h₃.tasking (by decide : (0x8200 : UDword) ≠ switchSentinel) 0x6d00
    0x6d20 with ⟨loaded', k₄, hback, htasking₄⟩
  have hstep₂ : userSystem.Step k₁
      (.call k₁.currentTask (leaveCall k₀.currentTask child loaded)) k₂ := ⟨rfl, hleave, trivial⟩
  have hstep₄ : userSystem.Step k₃
      (.call k₃.currentTask (backCall k₀.currentTask child loaded')) k₄ := ⟨rfl, hback, trivial⟩
  have hlater := ((System.Run.single hstep₂).snoc hstep₃).snoc hstep₄
  have hrun := (((System.Run.single hfork).snoc hstep₂).snoc hstep₃).snoc hstep₄
  refine ⟨k₀, child, _, k₄, hrun, htasking₄.current, (address_spaces_isolated hinit hrun).1, ?_, ?_⟩
  · have hmemory := (address_spaces_isolated hinit .nil).2.1 _ List.mem_cons_self _ k₄ hrun
    rw [hmemory, hcurrent₂]
    simp [UserStep.act, forkCall, leaveCall, backCall, ownWrites, written, hne]
  · have hmemory := (address_spaces_isolated hinit .nil).2.2 _ _ _ _ _ _ _ _ hfork _ k₄ hlater
    rw [hmemory, hcurrent₂]
    simp [UserStep.act, leaveCall, backCall, ownWrites, written]

/-! ## Isolation -/

/-- **The kernel on one memory is the model, and isolates its tasks.** Whatever the forks,
switches and user writes, as long as the pools do not run out: the same calls with the same
answers are a run of the model; no task maps a user frame of another; the user memory of a
task changes by its own writes only; and a new task starts with the memory of its parent. -/
theorem memory_kernel_isolated {mk₀ mk : MemoryKernel} {steps : List UserStep}
    (hinit : memorySystem.Init mk₀) (hrun : memorySystem.Run mk₀ steps mk) :
    (∃ k₀ k blocks, userSystem.Init k₀ ∧ userSystem.Run k₀ steps k ∧
        Embodies mk.pools blocks mk.view k) ∧
      SeparateSpaces mk.view (mk₀.currentTask :: forked (steps.map UserStep.act)) ∧
      (∀ t ∈ mk₀.currentTask :: forked (steps.map UserStep.act), ∀ later mk',
        memorySystem.Run mk later mk' → mk'.view.userMemory t =
          written (mk.view.userMemory t) (ownWrites t (later.map UserStep.act))) ∧
      ∀ task esp ebp eip pid child directory mk₁,
        memorySystem.Step mk (.call task (.fork esp ebp eip pid child directory)) mk₁ →
        ∀ later mk', memorySystem.Run mk₁ later mk' → mk'.view.userMemory child =
          written (mk.view.userMemory mk.currentTask)
            (ownWrites child (later.map UserStep.act)) := by
  rcases embodies_init hinit with ⟨k₀, blocks₀, hinit₀, hr₀⟩
  rcases hosts_init hinit₀ with ⟨rota₀, s₀, h₀, -, hqueue⟩
  rcases hr₀.run h₀ hrun with ⟨k, blocks, rota, s, hrun', hr, h, hprocesses⟩
  have hcurrent₀ : mk₀.currentTask = k₀.currentTask := hr₀.currentTask
  have hknown : rota.queue = mk₀.currentTask :: forked (steps.map UserStep.act) := by
    rw [← h.known, known_of_run hprocesses, h₀.known, hqueue, List.singleton_append, hcurrent₀]
  rw [← hknown]
  -- each part is that of the model, carried over by what the two spaces map
  refine ⟨⟨k₀, k, blocks, hinit₀, hrun', hr⟩, ?_, ?_, ?_⟩
  · have hseparate := h.isolated.separateSpaces
    refine ⟨?_, ?_⟩
    · intro t ht t' ht' hne v hv w hw
      rw [(hr.spaces h ht).1 v hv, (hr.spaces h ht').1 w hw]
      exact hseparate.user t ht t' ht' hne v hv w hw
    · intro t ht t' ht' v hv
      rw [(hr.spaces h ht).1 v hv, (hr.spaces h ht').1 v hv]
      exact hseparate.kernel t ht t' ht' v hv
  · intro t ht later mk' hlater
    rcases hr.run h hlater with ⟨k', blocks', rota', s', -, hr', h', hlater'⟩
    rcases memory_of_run (h.known ▸ ht) hlater' with ⟨hmem, hmemory⟩
    rw [(hr'.spaces h' (h'.known ▸ hmem)).2, (hr.spaces h ht).2]
    exact hmemory
  · intro task esp ebp eip pid child directory mk₁ hstep later mk' hlater
    rcases hr.step h hstep with ⟨k₁, blocks₁, hstep', hr₁⟩
    rcases hstep' with ⟨rfl, ⟨heq, hchild, -⟩, hslots⟩
    rcases h.fork heq hchild hslots with ⟨s₁, hact, h₁⟩
    rcases hr₁.run h₁ hlater with ⟨k', blocks', rota', s', -, hr', h', hlater'⟩
    have hmem₁ : child ∈ s₁.known := by
      rw [h₁.known, Rota.queue_spawn]
      exact List.mem_append_right _ (List.mem_singleton.mpr rfl)
    have hmem := (memory_of_run hmem₁ hlater').1
    have hcurrent : mk.currentTask = k.currentTask := hr.currentTask
    rw [(hr'.spaces h' (h'.known ▸ hmem)).2, hcurrent, (hr.spaces h h.tasking.current_mem).2]
    exact memory_of_fork hact hlater'

/-- The first fork. -/
theorem memory_kernel_isolated_fork : ∃ mk₀ step mk, memorySystem.Run mk₀ [step] mk ∧
    SeparateSpaces mk.view (mk₀.currentTask :: forked [step.act]) := by
  rcases exists_memorySystem_fork with ⟨mk₀, child, directory, mk, hinit, hstep⟩
  exact ⟨mk₀, _, mk, .single hstep, (memory_kernel_isolated hinit (.single hstep)).2.1⟩

/-! ## The limit -/

/-- **The kernel forks 1789 times, and does not notice when it no longer can.** In every run,
whatever the switches and user writes between the forks: a fork returns the next pid, and
puts its task behind those there are; it finds enough slots if and only if it is one of the
first 1789, and the next one returns a pid all the same. -/
theorem fork_limit {h : Heap} {garbage : ℕ → PagePointer} {mk₀ mk : MemoryKernel}
    {steps : List UserStep} (hk : KernelHeap h []) (hheader : h.header = kernelHeapStart)
    (hend : h.heapEnd.toNat = 0xd0000) (hinit : InMemory.initialiseKernel garbage h = .ok mk₀)
    (hrun : memorySystem.Run mk₀ steps mk) :
    forks steps ≤ 1789 ∧
      (EnoughSlots mk.view.paging mk.currentDirectory ↔ forks steps < 1789) ∧
      ∀ esp ebp eip, ∃ child directory mk', child.toNat = 0x52014 + 36 * forks steps ∧
        InMemory.fork esp ebp eip mk = .ok (BitVec.ofNat 32 (forks steps + 1), mk') ∧
        (forks steps < 1789 → memorySystem.Step mk (.call mk.currentTask
          (.fork esp ebp eip (BitVec.ofNat 32 (forks steps + 1)) child directory)) mk') := by
  rcases forkLedger_run hk hheader hend hinit hrun with ⟨blocks, k, rota, s, ha, hlength⟩
  have hle := ha.length_le
  have hdir : mk.currentDirectory = k.currentDirectory := ha.embodies.currentDirectory
  have henough : EnoughSlots mk.view.paging mk.currentDirectory ↔ forks steps < 1789 := by
    have hspace := ha.hosts.space
    have hsame := ha.embodies.resident.enoughSlots hspace.inUse.held hspace.outside
    have hmodel := ha.stocked.enoughSlots_iff ha.hosts
    rw [hdir]
    refine hsame.trans (hmodel.trans ?_)
    omega
  refine ⟨by omega, henough, ?_⟩
  intro esp ebp eip
  rcases ha.fork esp ebp eip with ⟨child, directory, mk', hchild, hok, hfork, hclone, -⟩
  rw [hlength] at hok
  refine ⟨child, directory, mk', by omega, hok, ?_⟩
  intro hlt
  exact ⟨rfl, hok, hfork, hclone, henough.mpr hlt⟩

/-- The fork of `_start`, and the one after it. -/
theorem fork_limit_boot : ∃ mk₀ child directory mk, memorySystem.Init mk₀ ∧
    memorySystem.Run mk₀ [.call mk₀.currentTask (.fork 0x6f00 0x6f20 0x8123 1 child directory)] mk ∧
    ∃ mk', InMemory.fork 0x6f00 0x6f20 0x8123 mk = .ok (2, mk') := by
  have hend : bootHeap.heapEnd.toNat = 0xd0000 := by decide
  rcases initialiseKernel_compact kernelHeap_bootHeap rfl hend fun _ => PagePointer.absent with
    ⟨mk₀, hok, hinit, -⟩
  rcases fork_limit kernelHeap_bootHeap rfl hend hok .nil with ⟨-, -, hfork⟩
  rcases hfork 0x6f00 0x6f20 0x8123 with ⟨child, directory, mk, -, -, hstep⟩
  have hrun := System.Run.single (hstep (by decide))
  rcases fork_limit kernelHeap_bootHeap rfl hend hok hrun with ⟨-, -, hfork'⟩
  rcases hfork' 0x6f00 0x6f20 0x8123 with ⟨-, -, mk', -, hok', -⟩
  exact ⟨mk₀, child, directory, mk, hinit, hrun, mk', hok'⟩

end MushOS
