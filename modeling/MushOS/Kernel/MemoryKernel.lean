import MushOS.Base.HeapCongr
import MushOS.Kernel.Isolation
import MushOS.Kernel.PagingInMemory

/-! # The kernel on one memory

The kernel of `Kernel/Task.lean` keeps the two bitmaps of pages.c beside the memory.
Here is the kernel as it runs: the bitmaps are blocks of the heap from which the tasks
are allocated too, and the globals hold their addresses. Every run of this kernel is,
call by call and with the same answers, a run of that one (`Embodies`), so that what
was proved there holds of the one memory: the tasks are processes with private
memories, though the heap, the bitmaps, the directories and the pages all lie side by
side in it.
-/

namespace MushOS

open ByteMemory Links RoundRobin Transition Processes

/-! ## Model -/

/-- The memory with the globals of heap.c, pages.c and task.c. -/
structure MemoryKernel where
  heap : Heap
  pools : PoolPointers
  currentDirectory : UDword
  currentTask : UDword
  readyQueue : UDword
  nextPid : UDword

namespace MemoryKernel

/-- The kernel with its bitmaps read out of the memory. -/
def view (k : MemoryKernel) : Kernel where
  heap := k.heap
  pagingPool := ⟨bitmapOf k.pools.pagingPool k.heap.mem⟩
  userSpacePool := ⟨bitmapOf k.pools.userSpacePool k.heap.mem⟩
  currentDirectory := k.currentDirectory
  currentTask := k.currentTask
  readyQueue := k.readyQueue
  nextPid := k.nextPid

/-- The state after a function of task.c, which knows nothing of the bitmaps: they are what
the memory says. -/
def after (k : MemoryKernel) (k' : Kernel) : MemoryKernel where
  heap := k'.heap
  pools := k.pools
  currentDirectory := k'.currentDirectory
  currentTask := k'.currentTask
  readyQueue := k'.readyQueue
  nextPid := k'.nextPid

end MemoryKernel

namespace InMemory

/-- `initialise_paging` and `initialise_tasking`, on a heap that is set up. -/
def initialiseKernel (garbage : ℕ → PagePointer) (h : Heap) : Except Fault MemoryKernel := do
  let (pools, dir, h) ← initialisePaging garbage h
  let k : MemoryKernel := ⟨h, pools, dir, 0, 0, 0⟩
  let k' ← MushOS.initialiseTasking k.view
  return k.after k'

/-- `fork` up to the call of `get_instruction_pointer`; returns `new_task`. -/
def forkTask (k : MemoryKernel) : Except Fault (UDword × MemoryKernel) := do
  let (directory, h) ← cloneDirectory k.pools k.currentDirectory k.heap
  let k := { k with heap := h }
  let (newTask, k') ← createTask directory k.view
  let tmpTask ← queueEnd k' chainFuel k'.readyQueue
  return (newTask, k.after (k'.setMember tmpTask .next newTask))

/-- `fork` in its caller. -/
def fork (esp ebp eip : UDword) (k : MemoryKernel) : Except Fault (UDword × MemoryKernel) := do
  let parentTask := k.currentTask
  let (newTask, k) ← forkTask k
  let (pid, k') := forkReturn parentTask newTask esp ebp eip k.view
  return (pid, k.after k')

def switchTask (esp ebp eip : UDword) (k : MemoryKernel) : Option Registers × MemoryKernel :=
  let (loaded, k') := MushOS.switchTask esp ebp eip k.view
  (loaded, k.after k')

end InMemory

/-- What runs on a heap of the kernel that has room for the first bitmap: the two
initialisations, then calls and user writes as in `userSystem`. -/
def memorySystem : System MemoryKernel UserStep where
  Init k := ∃ h blocks garbage, KernelHeap h blocks ∧
    h.heapStart.toNat + 12 + pagingPoolSize ≤ h.heapEnd.toNat ∧
    InMemory.initialiseKernel garbage h = .ok k
  Step k step k' :=
    match step with
    | .call task (.fork esp ebp eip pid child directory) => task = k.currentTask ∧
        InMemory.fork esp ebp eip k = .ok (pid, k') ∧
        (∃ k₁, InMemory.forkTask k = .ok (child, k₁)) ∧
        (∃ h, InMemory.cloneDirectory k.pools k.currentDirectory k.heap = .ok (directory, h)) ∧
        EnoughSlots k.view.paging k.currentDirectory
    | .call task (.switchTask from' esp ebp eip loaded next) => task = k.currentTask ∧
        InMemory.switchTask esp ebp eip k = (some loaded, k') ∧ from' = k.currentTask ∧
        next = k'.currentTask
    | .write task a b => task = k.currentTask ∧ ∃ x,
        userAddress k.heap.mem k.currentDirectory a = some x ∧
          k' = { k with heap := { k.heap with mem := k.heap.mem.write8 x b } }

/-- `v`, the kernel of the one memory, stands for `k`: the memory of `v` holds the bitmaps of
`k` and, outside of them, the memory of `k`. -/
structure Embodies (pools : PoolPointers) (blocks : List Block) (v k : Kernel) : Prop where
  resident : Resident pools blocks k.heap v.heap k.paging
  currentDirectory : v.currentDirectory = k.currentDirectory
  currentTask : v.currentTask = k.currentTask
  readyQueue : v.readyQueue = k.readyQueue
  nextPid : v.nextPid = k.nextPid

/-! ## The functions of task.c, on both sides -/

section Task
variable {pools : PoolPointers} {blocks : List Block} {v v' k k' : Kernel} {t x : UDword}
  {f : TaskMember} {tasks : List UDword}

/-- The bytes of the bitmaps are neither those of the heap nor those of a task. -/
theorem Resident.bitmaps_apart {g h : Heap} {s : Paging} (hr : Resident pools blocks g h s)
    {a : UDword} (ha : a ∈ pools.bitmaps) : a ∉ metadata h.header blocks ∧
      ∀ t, ⟨t, sizeofTask⟩ ∈ blocks → a ∉ span t.toNat 24 := by
  obtain ⟨b, hb, hsize, hpayload⟩ : ∃ b ∈ blocks, b.size ≠ sizeofTask ∧ a ∈ b.payload := by
    rcases ha with ha | ha
    · exact ⟨_, hr.pagingPool, by show BitVec.ofNat 32 pagingPoolSize ≠ sizeofTask; decide,
        (hr.heap.bitmap_region (by decide) hr.pagingPool ha).2⟩
    · exact ⟨_, hr.userSpacePool, by show BitVec.ofNat 32 userSpacePoolSize ≠ sizeofTask; decide,
        (hr.heap.bitmap_region (by decide) hr.userSpacePool ha).2⟩
  refine ⟨hr.heap.wellFormed.payload_not_metadata hb hpayload, ?_⟩
  intro t ht hmem
  refine hr.heap.wellFormed.payload_disjoint ht hb ?_ hmem hpayload
  rintro rfl
  exact hsize rfl

/-- The heap of the model has the same blocks. -/
theorem Resident.kernelHeap {g h : Heap} {s : Paging} (hr : Resident pools blocks g h s)
    (hmem : g.mem = s.mem) : KernelHeap g blocks := by
  have hothers := hr.others
  have hbytes : ∀ a ∈ metadata h.header blocks, g.mem.bytes a = h.mem.bytes a := by
    intro a ha
    rw [hmem]
    refine (hr.agree a fun hbitmap => ?_).symm
    exact (hr.bitmaps_apart hbitmap).1 ha
  have hheader : g.header = h.header := by rw [hothers]
  have hhandlers : g.handlers = h.handlers := by rw [hothers]
  rcases hr.heap.wellFormed.congr hheader hbytes with ⟨hw, hbounds⟩
  refine ⟨hw, ?_, ?_, ?_, ?_⟩
  · rw [hhandlers]
    exact hr.heap.handler
  · rw [hheader]
    exact hr.heap.low
  · rw [hbounds.heapStart, hbounds.heapEnd]
    exact hr.heap.room
  · rw [hbounds.heapEnd]
    exact hr.heap.high

/-- `switch_task`, when it saves the registers and goes on to the next task. -/
theorem switchTask_eq {esp ebp eip : UDword} (hnone : k.currentTask ≠ 0)
    (hsentinel : eip ≠ switchSentinel) :
    switchTask esp ebp eip k =
      (some (loadNext (((k.setMember k.currentTask .eip eip).setMember k.currentTask .esp
        esp).setMember k.currentTask .ebp ebp)).1,
      (loadNext (((k.setMember k.currentTask .eip eip).setMember k.currentTask .esp
        esp).setMember k.currentTask .ebp ebp)).2) := by
  unfold switchTask
  rw [if_neg hnone, if_neg hsentinel]
  rfl

/-- The walk along the queue does not leave it. -/
theorem queueEnd_mem (hclosed : ∀ t ∈ tasks, k.member t .next = 0 ∨ k.member t .next ∈ tasks)
    (fuel : ℕ) (ht : t ∈ tasks) (heq : queueEnd k fuel t = .ok x) : x ∈ tasks := by
  induction fuel generalizing t with
  | zero => cases heq
  | succ fuel ih =>
    unfold queueEnd at heq
    by_cases hnull : k.member t .next = 0
    · rw [if_pos hnull] at heq
      rw [← Except.ok.inj heq]
      exact ht
    · rw [if_neg hnull] at heq
      exact ih ((hclosed t ht).resolve_left hnull) heq

namespace Embodies

theorem kernelHeap (hr : Embodies pools blocks v k) : KernelHeap k.heap blocks :=
  hr.resident.kernelHeap rfl

/-- Both sides read the same members of a task. -/
theorem member (hr : Embodies pools blocks v k) (ht : ⟨t, sizeofTask⟩ ∈ blocks) (f : TaskMember) :
    v.member t f = k.member t f := by
  have hbounds := hr.resident.heap.task_bounds ht
  have haddr := toNat_taskMember (t := t) (by omega) f
  have hoff := f.offset_le
  refine hr.resident.agree.read32 (by omega) ?_
  intro a ha hbitmap
  refine (hr.resident.bitmaps_apart hbitmap).2 t ht ?_
  simp only [mem_span] at ha ⊢
  omega

theorem task (hr : Embodies pools blocks v k) (ht : ⟨t, sizeofTask⟩ ∈ blocks) :
    v.task t = k.task t := by
  unfold Kernel.task
  simp only [hr.member ht]

/-- Writes into the heap or into tasks, made on both sides. -/
theorem heapWrites (hr : Embodies pools blocks v k) {blocks' : List Block} {hv hk : Heap}
    {S : Set UDword} (hheap : KernelHeap hv blocks') (hsub : ∀ b ∈ blocks, b ∈ blocks')
    (hagree : AgreeOutside pools.bitmaps hk.mem hv.mem) (hw : Writes S v.heap.mem hv.mem)
    (hS : ∀ a ∈ S, a ∉ pools.bitmaps) (hothers : hv = { hk with mem := hv.mem }) :
    Embodies pools blocks' { v with heap := hv } { k with heap := hk } := by
  have hbitmap : ∀ a ∈ pools.bitmaps, hv.mem.bytes a = v.heap.mem.bytes a :=
    fun a ha => hw.frame a fun hmem => hS a hmem ha
  have hholds := hr.resident.holds
  refine ⟨⟨hheap, hsub _ hr.resident.pagingPool, hsub _ hr.resident.userSpacePool,
    ⟨?_, ?_, hagree, hholds.apart⟩, hothers⟩, hr.currentDirectory, hr.currentTask, hr.readyQueue,
    hr.nextPid⟩
  · intro i hi
    exact (hbitmap _ (Or.inl ⟨i, hi, rfl⟩)).trans (hholds.paging i hi)
  · intro i hi
    exact (hbitmap _ (Or.inr ⟨i, hi, rfl⟩)).trans (hholds.userSpace i hi)

/-- `task->f = x`. -/
theorem setMember (hr : Embodies pools blocks v k) (ht : ⟨t, sizeofTask⟩ ∈ blocks)
    (f : TaskMember) (x : UDword) :
    Embodies pools blocks (v.setMember t f x) (k.setMember t f x) := by
  have hbounds := hr.resident.heap.task_bounds ht
  have hwrites := writes_setMember (k := v) (t := t) (f := f) (v := x) (by omega)
  refine hr.heapWrites (hr.resident.heap.of_writes hwrites ?_) (fun b hb => hb)
    (hr.resident.agree.write32 _ _) hwrites ?_ ?_
  · intro a ha hmem
    exact hr.resident.heap.task_not_metadata ht hmem ha
  · intro a ha hbitmap
    exact (hr.resident.bitmaps_apart hbitmap).2 t ht ha
  · rw [hr.resident.others]

/-- `ralloc(sizeof(task))`: both sides find the same place. -/
theorem ralloc (hr : Embodies pools blocks v k) {hv : Heap}
    (heq : MushOS.ralloc sizeofTask v.heap = .ok (t, hv)) :
    ∃ hk blocks', MushOS.ralloc sizeofTask k.heap = .ok (t, hk) ∧
      Embodies pools blocks' { v with heap := hv } { k with heap := hk } ∧
      ⟨t, sizeofTask⟩ ∈ blocks' ∧ ∀ b ∈ blocks, b ∈ blocks' := by
  have hheap := hr.resident.heap
  have hothers := hr.resident.others
  have hroom := hheap.room
  have hsize : sizeofTask.toNat = 24 := rfl
  rcases hheap.allocate (by omega) (fun _ => by omega) heq with
    ⟨blocks', hheap', hiff, -, hothers', -, hwrites⟩
  have hmodel := hr.kernelHeap
  have hsame : SameBounds v.heap k.heap := by
    refine (hheap.wellFormed.congr (by rw [hothers]) ?_).2
    intro a ha
    refine (hr.resident.agree a fun hbitmap => ?_).symm
    exact (hr.resident.bitmaps_apart hbitmap).1 ha
  rcases ralloc_congr hheap.wellFormed hmodel.wellFormed hsame hheap.handler heq with
    ⟨xs, ys, rfl, rfl, hok⟩
  have hsub : ∀ b ∈ xs ++ ys, b ∈ blocks' := fun b hb => (hiff b).mpr (Or.inr hb)
  have htmem : ⟨t, sizeofTask⟩ ∈ blocks' := (hiff _).mpr (Or.inl rfl)
  have hroomk := hmodel.room
  rcases hmodel.allocate (by omega) (fun _ => by omega) hok with ⟨-, -, -, -, hothersk, -, -⟩
  refine ⟨_, blocks', hok, ?_, htmem, hsub⟩
  refine hr.heapWrites hheap' hsub ?_ hwrites ?_ ?_
  · exact AgreeOutside.place hr.resident.agree (by rw [hothers]) sizeofTask xs ys t
  · -- the bitmaps are blocks of the new heap as well
    intro a hmeta hbitmap
    obtain ⟨b, hb, hpayload⟩ : ∃ b ∈ xs ++ ys, a ∈ b.payload := by
      rcases hbitmap with ha | ha
      · exact ⟨_, hr.resident.pagingPool,
          (hheap.bitmap_region (by decide) hr.resident.pagingPool ha).2⟩
      · exact ⟨_, hr.resident.userSpacePool,
          (hheap.bitmap_region (by decide) hr.resident.userSpacePool ha).2⟩
    exact hheap'.wellFormed.payload_not_metadata (hsub b hb) hpayload hmeta
  · rw [hothers', hothersk, hothers]

/-- Creating a task. -/
theorem createTask (hr : Embodies pools blocks v k) {directory : UDword}
    (heq : MushOS.createTask directory v = .ok (t, v')) :
    ∃ k' blocks', MushOS.createTask directory k = .ok (t, k') ∧ Embodies pools blocks' v' k' ∧
      ⟨t, sizeofTask⟩ ∈ blocks' ∧ ∀ b ∈ blocks, b ∈ blocks' := by
  unfold MushOS.createTask at heq
  rcases ok_of_bind_ok heq with ⟨⟨p, hv⟩, hralloc, heq⟩
  rcases Prod.mk.inj (Except.ok.inj heq) with ⟨rfl, rfl⟩
  rcases hr.ralloc hralloc with ⟨hk, blocks', hok, hr₁, hp, hsub⟩
  have hr₂ := hr₁.setMember hp .id v.nextPid
  have hr₃ : Embodies pools blocks'
      { Kernel.setMember { v with heap := hv } p .id v.nextPid with nextPid := v.nextPid + 1 }
      { Kernel.setMember { k with heap := hk } p .id v.nextPid with nextPid := v.nextPid + 1 } :=
    ⟨hr₂.resident, hr₂.currentDirectory, hr₂.currentTask, hr₂.readyQueue, rfl⟩
  have hall := ((((hr₃.setMember hp .ebp 0).setMember hp .esp 0).setMember hp .eip 0).setMember hp
    .pageDirectory directory).setMember hp .next 0
  refine ⟨_, blocks', ?_, hall, hp, hsub⟩
  unfold MushOS.createTask
  rw [hok, ok_bind, hr.nextPid]
  rfl

/-- The loop over the ready queue. -/
theorem queueEnd (hr : Embodies pools blocks v k) (htasks : ∀ t ∈ tasks, ⟨t, sizeofTask⟩ ∈ blocks)
    (hclosed : ∀ t ∈ tasks, k.member t .next = 0 ∨ k.member t .next ∈ tasks) (fuel : ℕ)
    (ht : t ∈ tasks) : MushOS.queueEnd v fuel t = MushOS.queueEnd k fuel t := by
  induction fuel generalizing t with
  | zero => rfl
  | succ fuel ih =>
    have hnext := hr.member (htasks t ht) .next
    unfold MushOS.queueEnd
    rw [hnext]
    rcases hclosed t ht with hnull | hmem
    · rw [if_pos hnull, if_pos hnull]
    · rw [ih hmem]

/-- `fork` after `get_instruction_pointer`. -/
theorem forkReturn (hr : Embodies pools blocks v k) (ht : ⟨t, sizeofTask⟩ ∈ blocks)
    (parent esp ebp eip : UDword) :
    (MushOS.forkReturn parent t esp ebp eip v).1 = (MushOS.forkReturn parent t esp ebp eip k).1 ∧
      Embodies pools blocks (MushOS.forkReturn parent t esp ebp eip v).2
        (MushOS.forkReturn parent t esp ebp eip k).2 := by
  unfold MushOS.forkReturn
  rw [hr.currentTask]
  by_cases hparent : k.currentTask = parent
  · rw [if_pos hparent, if_pos hparent]
    have hall := ((hr.setMember ht .esp esp).setMember ht .ebp ebp).setMember ht .eip eip
    exact ⟨hall.member ht .id, hall⟩
  · rw [if_neg hparent, if_neg hparent]
    exact ⟨rfl, hr⟩

/-- The end of `switch_task`: the next task is one of the queue, on both sides. -/
theorem loadNext (hr : Embodies pools blocks v k) (htasks : ∀ t ∈ tasks, ⟨t, sizeofTask⟩ ∈ blocks)
    (hclosed : ∀ t ∈ tasks, k.member t .next = 0 ∨ k.member t .next ∈ tasks)
    (hcurrent : k.currentTask ∈ tasks) (hready : k.readyQueue ∈ tasks) :
    (MushOS.loadNext v).1 = (MushOS.loadNext k).1 ∧
      Embodies pools blocks (MushOS.loadNext v).2 (MushOS.loadNext k).2 := by
  obtain ⟨next, hmem, hnext⟩ : ∃ next ∈ tasks, (if (k.task k.currentTask).next = 0 then k.readyQueue
      else (k.task k.currentTask).next) = next := by
    by_cases hnull : (k.task k.currentTask).next = 0
    · exact ⟨_, hready, if_pos hnull⟩
    · exact ⟨_, (hclosed _ hcurrent).resolve_left hnull, if_neg hnull⟩
  have hsame := hr.task (htasks next hmem)
  have hnext' : (if (v.task v.currentTask).next = 0 then v.readyQueue
      else (v.task v.currentTask).next) = next := by
    rw [hr.currentTask, hr.readyQueue, hr.task (htasks _ hcurrent)]
    exact hnext
  rw [loadNext_eq hnext, loadNext_eq hnext', hsame]
  exact ⟨rfl, hr.resident, rfl, rfl, hr.readyQueue, hr.nextPid⟩

/-- `switch_task`. -/
theorem switchTask (hr : Embodies pools blocks v k)
    (htasks : ∀ t ∈ tasks, ⟨t, sizeofTask⟩ ∈ blocks)
    (hclosed : ∀ t ∈ tasks, k.member t .next = 0 ∨ k.member t .next ∈ tasks)
    (hcurrent : k.currentTask ∈ tasks) (hready : k.readyQueue ∈ tasks) (esp ebp eip : UDword) :
    (MushOS.switchTask esp ebp eip v).1 = (MushOS.switchTask esp ebp eip k).1 ∧
      Embodies pools blocks (MushOS.switchTask esp ebp eip v).2
        (MushOS.switchTask esp ebp eip k).2 := by
  by_cases hnone : k.currentTask = 0
  · unfold MushOS.switchTask
    rw [hr.currentTask, if_pos hnone, if_pos hnone]
    exact ⟨rfl, hr⟩
  by_cases hsentinel : eip = switchSentinel
  · unfold MushOS.switchTask
    rw [hr.currentTask, if_neg hnone, if_neg hnone, if_pos hsentinel, if_pos hsentinel]
    exact ⟨rfl, hr⟩
  have ht := htasks _ hcurrent
  have hsaved := ((hr.setMember ht .eip eip).setMember ht .esp esp).setMember ht .ebp ebp
  have hholds : HoldsTasks k.heap tasks := ⟨blocks, hr.kernelHeap, htasks⟩
  have hassigned := (((Assigned.refl hholds k.currentTask).set hcurrent .eip eip).set hcurrent
    .esp esp).set hcurrent .ebp ebp
  rw [switchTask_eq hnone hsentinel, switchTask_eq (by rwa [hr.currentTask]) hsentinel,
    hr.currentTask]
  -- saving the registers does not touch the list
  have hload := hsaved.loadNext htasks (by
    intro t' ht'
    have hnext : (((k.setMember k.currentTask .eip eip).setMember k.currentTask .esp
        esp).setMember k.currentTask .ebp ebp).member t' .next = k.member t' .next := by
      by_cases hsame : t' = k.currentTask
      · rw [hsame]
        exact congrArg Task.next hassigned.task
      · exact congrArg Task.next (hassigned.others t' ht' hsame)
    rw [hnext]
    exact hclosed t' ht') hcurrent hready
  exact ⟨congrArg some hload.1, hload.2⟩

end Embodies

end Task

/-! ## Address spaces, on both sides -/

section Spaces
variable {pools : PoolPointers} {blocks : List Block} {g h : Heap} {s : Paging} {src a x : UDword}
  {i w : ℕ}

/-- The entries of a directory, and of its tables. -/
theorem Resident.entries (hr : Resident pools blocks g h s) (hheld : Held s src)
    (hsrc : SpaceOutside s.mem src) (hi : i < 1024) :
    h.mem.entry src i = s.mem.entry src i ∧
      ((s.mem.entry src i).present = true → ∀ j < 1024,
        h.mem.entry (pageStart (s.mem.entry src i).frame.toNat) j =
          s.mem.entry (pageStart (s.mem.entry src i).frame.toNat) j) := by
  constructor
  · have hentry := hr.entry (pageOf_lt src) hsrc.directory hi
    rwa [← hheld.src_eq] at hentry
  · intro hpresent j hj
    exact hr.entry (frame_lt _) (hsrc.tables i hi hpresent) hj

/-- What a directory maps. -/
theorem Resident.translate (hr : Resident pools blocks g h s) (hheld : Held s src)
    (hsrc : SpaceOutside s.mem src) (hw : w < 2 ^ 20) :
    MushOS.translate h.mem src w = MushOS.translate s.mem src w := by
  have hj : w / 1024 < 1024 := by omega
  have ha : w % 1024 < 1024 := Nat.mod_lt w (by decide)
  rcases hr.entries hheld hsrc hj with ⟨hentry, htable⟩
  unfold MushOS.translate pagesInTable
  simp only [getContentsAsPage_eq, hentry]
  by_cases hpresent : (s.mem.entry src (w / 1024)).present = true
  · rw [htable hpresent _ ha]
  · rw [Bool.not_eq_true] at hpresent
    rw [hpresent, Bool.false_and, Bool.false_and, if_neg Bool.false_ne_true,
      if_neg Bool.false_ne_true]

theorem Resident.userAddress (hr : Resident pools blocks g h s) (hheld : Held s src)
    (hsrc : SpaceOutside s.mem src) (a : UDword) :
    MushOS.userAddress h.mem src a = MushOS.userAddress s.mem src a := by
  unfold MushOS.userAddress
  rw [hr.translate hheld hsrc (pageOf_lt a)]

/-- A user address leads outside the heap. -/
theorem SpaceOutside.userAddress (hsrc : SpaceOutside s.mem src)
    (hx : MushOS.userAddress s.mem src a = some x) : OutsideHeap (pageOf x) := by
  rcases userAddress_eq_some.mp hx with ⟨p, hp, hu, rfl⟩
  rw [pageOf_pageByte p.frame_lt (Nat.mod_lt _ (by decide))]
  exact hsrc.frames _ (pageOf_lt a) p hp hu

/-- What a task reads in its user pages. -/
theorem Resident.userByte (hr : Resident pools blocks g h s) (hheld : Held s src)
    (hsrc : SpaceOutside s.mem src) (a : UDword) :
    MushOS.userByte h.mem src a = MushOS.userByte s.mem src a := by
  unfold MushOS.userByte
  rw [hr.userAddress hheld hsrc]
  cases hx : MushOS.userAddress s.mem src a with
  | none => rfl
  | some x =>
    have hout := hsrc.userAddress hx
    refine congrArg some (hr.agree x fun hbitmap => ?_)
    exact hout.not_mem rfl (hr.bitmaps_region hbitmap)

/-- The free slots, and what a clone takes of them. -/
theorem Resident.enoughSlots (hr : Resident pools blocks g h s) (hheld : Held s src)
    (hsrc : SpaceOutside s.mem src) :
    EnoughSlots ⟨h.mem, ⟨bitmapOf pools.pagingPool h.mem⟩, ⟨bitmapOf pools.userSpacePool h.mem⟩⟩
      src ↔ EnoughSlots s src := by
  -- the bitmaps agree on their bytes, hence on what is free
  have hfree : ∀ (n : ℕ) (m m' : Bitmap.Bytes), (∀ i < n, m i = m' i) →
      Bitmap.free m n = Bitmap.free m' n := by
    intro n m m' hsame
    ext b
    rw [Bitmap.mem_free, Bitmap.mem_free]
    refine and_congr_right fun hb => ?_
    rw [taken_of_byte (hsame (b / 8) (by omega))]
  have hfolders : freeFolders ⟨h.mem, ⟨bitmapOf pools.pagingPool h.mem⟩,
      ⟨bitmapOf pools.userSpacePool h.mem⟩⟩ = freeFolders s := by
    unfold freeFolders
    rw [hfree _ _ _ hr.holds.paging]
  have hframes : freeFrames ⟨h.mem, ⟨bitmapOf pools.pagingPool h.mem⟩,
      ⟨bitmapOf pools.userSpacePool h.mem⟩⟩ = freeFrames s := by
    unfold freeFrames
    rw [hfree _ _ _ hr.holds.userSpace]
  -- the source has the same tables in both, so as many of them are copied
  have htables : clonedTables h.mem src = clonedTables s.mem src := by
    unfold clonedTables clonedTablesTo
    rw [Nat.count_eq_card_filter_range, Nat.count_eq_card_filter_range]
    refine congrArg Finset.card (Finset.filter_congr ?_)
    intro i hi
    rcases hr.entries hheld hsrc (Finset.mem_range.mp hi) with ⟨hentry, htable⟩
    rw [hentry]
    by_cases hpresent : (s.mem.entry src i).present = true
    · rw [isCloned_congr (htable hpresent)]
    · unfold isCloned
      rw [Bool.not_eq_true] at hpresent
      rw [hpresent, Bool.false_and, Bool.false_and]
  have hpages : userPageCount h.mem src = userPageCount s.mem src := by
    unfold userPageCount
    refine congrArg Finset.card (Finset.filter_congr ?_)
    intro w hw
    rw [hr.translate hheld hsrc (Finset.mem_range.mp hw)]
  unfold EnoughSlots
  rw [hfolders, hframes]
  simp only [htables, hpages]

end Spaces

/-! ## One step -/

section Steps
variable {mk mk' : MemoryKernel} {blocks : List Block} {k : Kernel} {rota : Rota UDword}
  {s : Processes.State UDword UDword (Option UByte)} {t directory pid esp ebp eip : UDword}

/-- The tasks of the queue are blocks of the one heap. -/
theorem Embodies.tasks (hr : Embodies mk.pools blocks mk.view k) (h : Tasking k rota) :
    ∀ t ∈ rota.queue, ⟨t, sizeofTask⟩ ∈ blocks := by
  rcases h.holds with ⟨blocks', hheap, hmem⟩
  rcases hr.kernelHeap.wellFormed.blocks_unique hheap.wellFormed with rfl
  exact hmem

/-- The queue ends, or goes on in the queue. -/
theorem Tasking.closed (h : Tasking k rota) :
    ∀ t ∈ rota.queue, k.member t .next = 0 ∨ k.member t .next ∈ rota.queue :=
  fun _ ht => h.links.closed ht

theorem Tasking.ready_mem (h : Tasking k rota) : k.readyQueue ∈ rota.queue := by
  have hne : rota.queue ≠ [] := List.ne_nil_of_mem h.current_mem
  rw [h.first, List.headD_eq_head?_getD, List.head?_eq_some_head hne]
  exact List.head_mem hne

/-- The address space of the running task, outside the heap. -/
theorem Hosts.space (h : Hosts k rota s) : TaskSpace k.paging k.currentDirectory := by
  rw [h.tasking.directory]
  exact h.isolated.spaces _ h.tasking.current_mem

/-- `fork` up to `get_instruction_pointer`. -/
theorem Embodies.forkTask (hr : Embodies mk.pools blocks mk.view k) (h : Hosts k rota s)
    (heq : InMemory.forkTask mk = .ok (t, mk')) :
    ∃ k' blocks', MushOS.forkTask k = .ok (t, k') ∧ Embodies mk.pools blocks' mk'.view k' ∧
      ⟨t, sizeofTask⟩ ∈ blocks' ∧ mk'.pools = mk.pools := by
  have hspace := h.space
  rcases hr.resident.cloneDirectory hspace.inUse.held hspace.outside with ⟨h₁, hclone, hr₁⟩
  have hdir : mk.currentDirectory = k.currentDirectory := hr.currentDirectory
  have hevolves := evolves_cloneDirectory k.currentDirectory k.paging
  obtain ⟨directory, s₁, hmodel⟩ : ∃ directory s₁, cloneDirectory k.currentDirectory k.paging =
      (directory, s₁) := ⟨_, _, (Prod.eta _).symm⟩
  have hclone' : InMemory.cloneDirectory mk.pools mk.currentDirectory mk.heap =
      .ok (directory, h₁) := by
    rw [hdir]
    rw [hmodel] at hclone
    exact hclone
  rw [hmodel] at hr₁ hevolves
  unfold InMemory.forkTask at heq
  rw [hclone', ok_bind] at heq
  -- the clone, then the new task, then the link behind the last one
  have hr₂ : Embodies mk.pools blocks { mk with heap := h₁ }.view (k.setPaging s₁) :=
    ⟨⟨hr₁.heap, hr₁.pagingPool, hr₁.userSpacePool, hr₁.holds, hr₁.others⟩, hr.currentDirectory,
      hr.currentTask, hr.readyQueue, hr.nextPid⟩
  rcases ok_of_bind_ok heq with ⟨⟨p, v₃⟩, hcreate, heq⟩
  rcases ok_of_bind_ok heq with ⟨last, hend, heq⟩
  rcases Prod.mk.inj (Except.ok.inj heq) with ⟨rfl, rfl⟩
  rcases hr₂.createTask hcreate with ⟨k₃, blocks', hcreate', hr₃, hp, hsub⟩
  rcases h.tasking.holds.setPaging hevolves with ⟨hholds₁, hsame₁⟩
  rcases createTask_spec hholds₁ hcreate' with ⟨-, -, honly, -, -, hsame₃⟩
  have htasks : ∀ t ∈ rota.queue, ⟨t, sizeofTask⟩ ∈ blocks' :=
    fun t ht => hsub _ (hr.tasks h.tasking t ht)
  have hclosed : ∀ t ∈ rota.queue, k₃.member t .next = 0 ∨ k₃.member t .next ∈ rota.queue := by
    intro t ht
    have hnext : k₃.member t .next = k.member t .next :=
      congrArg Task.next ((hsame₃ t ht).trans (hsame₁ t ht))
    rw [hnext]
    exact h.tasking.closed t ht
  have hready : k₃.readyQueue ∈ rota.queue := by
    rw [honly.readyQueue]
    exact h.tasking.ready_mem
  have hend' : MushOS.queueEnd k₃ chainFuel k₃.readyQueue = .ok last := by
    rw [← hr₃.queueEnd htasks hclosed chainFuel hready, ← hr₃.readyQueue]
    exact hend
  have hlast : last ∈ rota.queue := queueEnd_mem hclosed chainFuel hready hend'
  have hr₄ := hr₃.setMember (htasks _ hlast) .next p
  refine ⟨_, blocks', ?_, ⟨hr₄.resident, hr₄.currentDirectory, hr₄.currentTask, hr₄.readyQueue,
    hr₄.nextPid⟩, hp, rfl⟩
  unfold MushOS.forkTask
  rw [hmodel]
  dsimp only
  rw [hcreate', ok_bind]
  dsimp only
  rw [hend', ok_bind]
  rfl

/-- `fork`. -/
theorem Embodies.fork (hr : Embodies mk.pools blocks mk.view k) (h : Hosts k rota s)
    (heq : InMemory.fork esp ebp eip mk = .ok (pid, mk')) :
    ∃ k' blocks', MushOS.fork esp ebp eip k = .ok (pid, k') ∧
      Embodies mk'.pools blocks' mk'.view k' := by
  unfold InMemory.fork at heq
  rcases ok_of_bind_ok heq with ⟨⟨t, mk₁⟩, hfork, heq⟩
  rcases hr.forkTask h hfork with ⟨k₁, blocks₁, hfork', hr₁, ht, hpools⟩
  rcases hr₁.forkReturn ht mk.currentTask esp ebp eip with ⟨hpid, hr₂⟩
  obtain ⟨pid', v, hreturn⟩ : ∃ pid' v, MushOS.forkReturn mk.currentTask t esp ebp eip mk₁.view =
      (pid', v) := ⟨_, _, (Prod.eta _).symm⟩
  dsimp only at heq
  rw [hreturn] at heq hpid hr₂
  rcases Prod.mk.inj (Except.ok.inj heq) with ⟨rfl, rfl⟩
  rw [← hpools] at hr₂
  refine ⟨_, blocks₁, ?_, ⟨hr₂.resident, hr₂.currentDirectory, hr₂.currentTask, hr₂.readyQueue,
    hr₂.nextPid⟩⟩
  have hparent : mk.currentTask = k.currentTask := hr.currentTask
  rw [hparent] at hpid ⊢
  unfold MushOS.fork
  rw [hfork', ok_bind]
  dsimp only at hpid
  rw [hpid]
  rfl

/-- Every step of the one memory is a step of the kernel it stands for. -/
theorem Embodies.step {step : UserStep} (hr : Embodies mk.pools blocks mk.view k)
    (h : Hosts k rota s) (hstep : memorySystem.Step mk step mk') :
    ∃ k' blocks', userSystem.Step k step k' ∧ Embodies mk'.pools blocks' mk'.view k' := by
  have hcurrent : mk.currentTask = k.currentTask := hr.currentTask
  have hdir : mk.currentDirectory = k.currentDirectory := hr.currentDirectory
  have hspace := h.space
  cases step with
  | call task call =>
    cases call with
    -- the answer is the same, and so is the count of free slots that the step asks for
    | fork esp ebp eip pid child directory =>
      rcases hstep with ⟨rfl, heq, ⟨mk₁, hchild⟩, ⟨h₁, hdirectory⟩, hslots⟩
      rcases hr.fork h heq with ⟨k', blocks', heq', hr'⟩
      rcases hr.forkTask h hchild with ⟨k₁, -, hchild', -⟩
      refine ⟨k', blocks', ⟨hcurrent, ⟨heq', ⟨k₁, hchild'⟩, ?_⟩, ?_⟩, hr'⟩
      · rcases hr.resident.cloneDirectory hspace.inUse.held hspace.outside with ⟨h₂, hclone, -⟩
        rw [hdir] at hdirectory
        exact (Prod.mk.inj (Except.ok.inj (hdirectory.symm.trans hclone))).1
      · rw [hdir] at hslots
        exact (hr.resident.enoughSlots hspace.inUse.held hspace.outside).mp hslots
    | switchTask from' esp ebp eip loaded next =>
      rcases hstep with ⟨rfl, heq, rfl, rfl⟩
      rcases hr.switchTask (hr.tasks h.tasking) h.tasking.closed
        h.tasking.current_mem h.tasking.ready_mem esp ebp eip with ⟨hloaded, hr'⟩
      obtain ⟨answer, v, hswitch⟩ : ∃ answer v, MushOS.switchTask esp ebp eip mk.view =
          (answer, v) := ⟨_, _, (Prod.eta _).symm⟩
      obtain ⟨answer', k', hswitch'⟩ : ∃ answer' k', MushOS.switchTask esp ebp eip k =
          (answer', k') := ⟨_, _, (Prod.eta _).symm⟩
      unfold InMemory.switchTask at heq
      rw [hswitch] at heq hloaded hr'
      rw [hswitch'] at hloaded hr'
      rcases Prod.mk.inj heq with ⟨rfl, rfl⟩
      obtain rfl : some loaded = answer' := hloaded
      exact ⟨k', blocks, ⟨hcurrent, ⟨hswitch', hcurrent, hr'.currentTask⟩, trivial⟩,
        hr'.resident, hr'.currentDirectory, hr'.currentTask, hr'.readyQueue, hr'.nextPid⟩
  -- the page written to is outside of the heap, and both memories map it
  | write task a b =>
    rcases hstep with ⟨rfl, x, hx, rfl⟩
    have hsame := hr.resident.userAddress hspace.inUse.held hspace.outside a
    have hx' : userAddress k.heap.mem k.currentDirectory a = some x := by
      rw [hdir] at hx
      exact hsame.symm.trans hx
    have hw : Writes (pages {pageOf x}) mk.heap.mem (mk.heap.mem.write8 x b) :=
      writes_write8 _ _ (by rw [mem_pages]; rfl)
    have hr' := hr.resident.update hw (by
      rintro n rfl
      exact hspace.outside.userAddress hx') (hr.resident.agree.write8 x b)
    refine ⟨_, blocks, ⟨hcurrent, x, hx', rfl⟩, ⟨hr'.heap, hr'.pagingPool, hr'.userSpacePool,
      hr'.holds, ?_⟩, hr.currentDirectory, hr.currentTask, hr.readyQueue, hr.nextPid⟩
    exact hr'.others

end Steps

/-! ## Runs -/

section Runs
variable {mk mk' mk₀ : MemoryKernel} {blocks : List Block} {k : Kernel} {rota : Rota UDword}
  {s : Processes.State UDword UDword (Option UByte)} {steps : List UserStep} {t : UDword}

/-- The two initialisations end where those of the model do. -/
theorem embodies_init (h : memorySystem.Init mk) :
    ∃ k blocks, userSystem.Init k ∧ Embodies mk.pools blocks mk.view k := by
  rcases h with ⟨heap, blocks₀, garbage, hheap, hroom, heq⟩
  unfold InMemory.initialiseKernel at heq
  rcases ok_of_bind_ok heq with ⟨⟨pools, dir, h₁⟩, hpaging, heq⟩
  rcases initialisePaging_resident hheap hroom hpaging with ⟨g, blocks, hg, rfl, hresident⟩
  rcases ok_of_bind_ok heq with ⟨v, htasking, heq⟩
  rcases Except.ok.inj heq with rfl
  obtain ⟨k₀, hk₀⟩ : ∃ k₀ : Kernel, k₀ = ⟨g, ⟨fun _ => 0⟩, ⟨fun _ => 0⟩, 0, 0, 0, 0⟩ := ⟨_, rfl⟩
  have hbooted : Booted k₀ := by
    rw [hk₀]
    exact ⟨⟨blocks, hg⟩, rfl⟩
  have hmodel : k₀.initialisePaging garbage =
      { k₀.setPaging (initialisePaging garbage g.mem).2 with
        currentDirectory := (initialisePaging garbage g.mem).1 } := by
    rw [hk₀]
    rfl
  generalize initialisePaging garbage g.mem = result at hresident hmodel htasking
  rcases result with ⟨dir, s⟩
  have hr : Embodies pools blocks (⟨h₁, pools, dir, 0, 0, 0⟩ : MemoryKernel).view
      (k₀.initialisePaging garbage) := by
    rw [hmodel, hk₀]
    exact ⟨⟨hresident.heap, hresident.pagingPool, hresident.userSpacePool, hresident.holds,
      hresident.others⟩, rfl, rfl, rfl, rfl⟩
  -- then the first task, at the same place on both sides
  unfold initialiseTasking at htasking
  rcases ok_of_bind_ok htasking with ⟨⟨task, v₁⟩, hcreate, htasking⟩
  rcases Except.ok.inj htasking with rfl
  rw [hr.currentDirectory] at hcreate
  rcases hr.createTask hcreate with ⟨k₁, blocks', hcreate', hr₁, -, -⟩
  refine ⟨{ k₁ with currentTask := task, readyQueue := task }, blocks', ⟨k₀, garbage, hbooted, ?_⟩,
    hr₁.resident, hr₁.currentDirectory, rfl, rfl, hr₁.nextPid⟩
  unfold initialiseTasking
  rw [hcreate']
  rfl

/-- **Every run on the one memory is a run of the model**, and one of processes. -/
theorem Embodies.run (hr : Embodies mk.pools blocks mk.view k) (h : Hosts k rota s)
    (hrun : memorySystem.Run mk steps mk') :
    ∃ k' blocks' rota' s', userSystem.Run k steps k' ∧ Embodies mk'.pools blocks' mk'.view k' ∧
      Hosts k' rota' s' ∧ Processes.system.Run s (steps.map UserStep.act) s' := by
  have hsim : ∀ mk step mk' k, memorySystem.Step mk step mk' →
      ((∃ blocks, Embodies mk.pools blocks mk.view k) ∧ ∃ rota s, Hosts k rota s) →
      ∃ k', userSystem.Step k (id step) k' ∧
        ((∃ blocks, Embodies mk'.pools blocks mk'.view k') ∧ ∃ rota s, Hosts k' rota s) := by
    rintro mk step mk' k hstep ⟨⟨blocks, hr⟩, rota, s, h⟩
    rcases hr.step h hstep with ⟨k', blocks', hstep', hr'⟩
    rcases kernel_refines_processes h (.single hstep') with ⟨rota', s', -, h'⟩
    exact ⟨k', hstep', ⟨blocks', hr'⟩, rota', s', h'⟩
  rcases hrun.simulate hsim ⟨⟨blocks, hr⟩, rota, s, h⟩ with ⟨k', hrun', ⟨blocks', hr'⟩, -⟩
  rw [List.map_id] at hrun'
  rcases kernel_refines_processes h hrun' with ⟨rota', s', hprocesses, h'⟩
  exact ⟨k', blocks', rota', s', hrun', hr', h', hprocesses⟩

/-- The one memory maps for a task, and holds for it, what the model does. -/
theorem Embodies.spaces (hr : Embodies mk.pools blocks mk.view k) (h : Hosts k rota s)
    (ht : t ∈ rota.queue) : (∀ v < 2 ^ 20, mk.view.translate t v = k.translate t v) ∧
      mk.view.userMemory t = s.memory t := by
  have hspace := h.isolated.spaces t ht
  have htask := hr.task (hr.tasks h.tasking t ht)
  constructor
  · intro v hv
    unfold Kernel.translate
    rw [htask]
    exact hr.resident.translate hspace.inUse.held hspace.outside hv
  · rw [h.memory t ht]
    funext a
    unfold Kernel.userMemory
    rw [htask]
    exact hr.resident.userByte hspace.inUse.held hspace.outside a

end Runs

end MushOS
