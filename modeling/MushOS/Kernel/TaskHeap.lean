import MushOS.Base.HeapRuns
import MushOS.Kernel.CloneDirectory
import MushOS.Kernel.Task

/-! # Tasks as blocks of the kernel heap

What task.c relies on when it writes through a `task *`: the kernel heap is well
formed and lies below the paging pool, so that cloning a directory does not touch
it, and tasks are distinct blocks of 24 bytes, so that a write to one member
shows in no other task and not in the heap either.

Four operations touch this memory, and each has its lemma: a member is assigned,
a directory is cloned, a block is allocated, a task is created.
-/

namespace MushOS

open ByteMemory WellFormed

/-! ## The task as a record -/

structure Task where
  id : UDword
  esp : UDword
  ebp : UDword
  eip : UDword
  pageDirectory : UDword
  next : UDword
deriving DecidableEq, Repr

/-- The record with one member assigned. -/
def Task.set (a : Task) (f : TaskMember) (v : UDword) : Task :=
  match f with
  | .id => { a with id := v }
  | .esp => { a with esp := v }
  | .ebp => { a with ebp := v }
  | .eip => { a with eip := v }
  | .pageDirectory => { a with pageDirectory := v }
  | .next => { a with next := v }

/-- The task at an address. -/
def Kernel.task (k : Kernel) (t : UDword) : Task where
  id := k.member t .id
  esp := k.member t .esp
  ebp := k.member t .ebp
  eip := k.member t .eip
  pageDirectory := k.member t .pageDirectory
  next := k.member t .next

theorem TaskMember.offset_le (f : TaskMember) : f.offset.toNat ≤ 20 := by
  cases f <;> decide

theorem TaskMember.offset_apart {f g : TaskMember} (h : f ≠ g) :
    f.offset.toNat + 4 ≤ g.offset.toNat ∨ g.offset.toNat + 4 ≤ f.offset.toNat := by
  cases f <;> cases g <;> first | exact absurd rfl h | decide

section Members
variable {k k' : Kernel} {t t' : UDword} {f g : TaskMember} {v : UDword}

theorem toNat_taskMember (ht : t.toNat + 24 ≤ 2 ^ 32) (f : TaskMember) :
    (t + f.offset).toNat = t.toNat + f.offset.toNat := by
  have := f.offset_le
  exact BitVec.toNat_add_of_lt (by omega)

theorem member_setMember (ht : t.toNat + 24 ≤ 2 ^ 32) :
    (k.setMember t f v).member t g = if g = f then v else k.member t g := by
  by_cases hgf : g = f
  · subst hgf
    rw [if_pos rfl]
    exact Mem.read32_write32_self _ _ _
  · have hapart := TaskMember.offset_apart hgf
    have hf := toNat_taskMember ht f
    have hg := toNat_taskMember ht g
    have := f.offset_le
    have := g.offset_le
    rw [if_neg hgf]
    exact read32_write32_ne _ _ (by omega) (by omega) (by omega)

/-- Assigning a member is assigning it in the record. -/
theorem task_setMember (ht : t.toNat + 24 ≤ 2 ^ 32) :
    (k.setMember t f v).task t = (k.task t).set f v := by
  unfold Kernel.task
  simp only [member_setMember ht]
  cases f <;> rfl

/-- A task is what its 24 bytes say. -/
theorem task_congr (ht : t.toNat + 24 ≤ 2 ^ 32)
    (hag : ∀ a ∈ span t.toNat 24, k'.heap.mem.bytes a = k.heap.mem.bytes a) :
    k'.task t = k.task t := by
  have hmember : ∀ f, k'.member t f = k.member t f := by
    intro f
    have hf := toNat_taskMember ht f
    have := f.offset_le
    refine Mem.read32_congr (by omega) ?_
    intro a ha
    refine hag a ?_
    simp only [mem_span] at ha ⊢
    omega
  unfold Kernel.task
  simp only [hmember]

/-- Assigning a member writes into the task. -/
theorem writes_setMember (ht : t.toNat + 24 ≤ 2 ^ 32) :
    Writes (span t.toNat 24) k.heap.mem (k.setMember t f v).heap.mem := by
  have hf := toNat_taskMember ht f
  have := f.offset_le
  refine writes_write32 _ _ (by omega) ?_
  intro a ha
  simp only [mem_span] at ha ⊢
  omega

end Members

/-! ## The kernel heap -/

/-- Where the kernel heap lies: above the boot stack, below the paging pool. -/
def heapRegion : Set UDword := {a | 0x7000 ≤ a.toNat ∧ a.toNat < 0x100000}

@[simp] theorem mem_heapRegion {a : UDword} :
    a ∈ heapRegion ↔ 0x7000 ≤ a.toNat ∧ a.toNat < 0x100000 := Iff.rfl

/-- The heap of the kernel, once its exception handler is installed: a request that
cannot be met does not return. -/
structure KernelHeap (h : Heap) (blocks : List Block) : Prop where
  wellFormed : WellFormed h blocks
  handler : h.handlers allocationExceptionId = some .kernel
  low : 0x7000 ≤ h.header.toNat
  room : h.heapStart.toNat + 36 ≤ h.heapEnd.toNat
  high : h.heapEnd.toNat ≤ 0x100000

namespace KernelHeap
variable {h h' : Heap} {blocks : List Block} {t t' p a : UDword}

theorem metadata_region (hk : KernelHeap h blocks) (ha : a ∈ metadata h.header blocks) :
    a ∈ heapRegion := by
  have hstart := hk.wellFormed.heapStart
  have hlow := hk.low
  have hroom := hk.room
  have hhigh := hk.high
  rcases ha with ha | ⟨b, hb, ha⟩
  · simp only [mem_span] at ha
    rw [mem_heapRegion]
    omega
  · have hin := hk.wellFormed.inside b hb
    simp only [Block.header, mem_span] at ha
    rw [mem_heapRegion]
    omega

/-- The heap does not notice writes outside its metadata. -/
theorem of_writes (hk : KernelHeap h blocks) {S : Set UDword} {m : Mem}
    (hm : Writes S h.mem m) (hS : ∀ a ∈ metadata h.header blocks, a ∉ S) :
    KernelHeap { h with mem := m } blocks := by
  obtain ⟨hw, hbounds⟩ :
      WellFormed { h with mem := m } blocks ∧ SameBounds h { h with mem := m } :=
    hk.wellFormed.congr rfl fun a ha => hm.frame a (hS a ha)
  refine ⟨hw, hk.handler, hk.low, ?_, ?_⟩
  · rw [hbounds.heapStart, hbounds.heapEnd]
    exact hk.room
  · rw [hbounds.heapEnd]
    exact hk.high

/-- Nor writes outside its region. -/
theorem of_frame (hk : KernelHeap h blocks) (hheader : h'.header = h.header)
    (hhandlers : h'.handlers = h.handlers)
    (hframe : ∀ a ∈ heapRegion, h'.mem.bytes a = h.mem.bytes a) : KernelHeap h' blocks := by
  rcases hk.wellFormed.congr hheader
    fun a ha => hframe a (hk.metadata_region ha) with ⟨hw, hsame⟩
  refine ⟨hw, ?_, ?_, ?_, ?_⟩
  · rw [hhandlers]
    exact hk.handler
  · rw [hheader]
    exact hk.low
  · rw [hsame.heapStart, hsame.heapEnd]
    exact hk.room
  · rw [hsame.heapEnd]
    exact hk.high

/-- The block of a task. -/
theorem task_bounds (hk : KernelHeap h blocks) (ht : ⟨t, sizeofTask⟩ ∈ blocks) :
    0x7000 ≤ t.toNat ∧ t.toNat + 24 ≤ 0x100000 := by
  have hin := hk.wellFormed.inside _ ht
  have hstart := hk.wellFormed.heapStart
  have hlow := hk.low
  have hhigh := hk.high
  unfold Block.stop sizeofTask at hin
  simp at hin
  omega

theorem task_region (hk : KernelHeap h blocks) (ht : ⟨t, sizeofTask⟩ ∈ blocks)
    (ha : a ∈ span t.toNat 24) : a ∈ heapRegion := by
  have hbounds := hk.task_bounds ht
  simp only [mem_span] at ha
  rw [mem_heapRegion]
  omega

/-- Its bytes are not the heap's. -/
theorem task_not_metadata (hk : KernelHeap h blocks) (ht : ⟨t, sizeofTask⟩ ∈ blocks)
    (ha : a ∈ span t.toNat 24) : a ∉ metadata h.header blocks :=
  hk.wellFormed.payload_not_metadata ht ha

/-- Nor those of another task. -/
theorem task_disjoint (hk : KernelHeap h blocks) (ht : ⟨t, sizeofTask⟩ ∈ blocks)
    (ht' : ⟨t', sizeofTask⟩ ∈ blocks) (hne : t ≠ t') (ha : a ∈ span t.toNat 24) :
    a ∉ span t'.toNat 24 := by
  refine hk.wellFormed.payload_disjoint ht ht' ?_ ha
  intro heq
  exact hne (congrArg Block.addr heq)

/-- An allocation that returns has linked a new block in. -/
theorem allocate (hk : KernelHeap h blocks) {size : UDword} (hwrap : size.toNat + 12 < 2 ^ 32)
    (hfits : blocks = [] → h.heapStart.toNat + 12 + size.toNat ≤ h.heapEnd.toNat)
    (heq : MushOS.ralloc size h = .ok (p, h')) :
    ∃ blocks', KernelHeap h' blocks' ∧ (∀ b, b ∈ blocks' ↔ b = ⟨p, size⟩ ∨ b ∈ blocks) ∧
      p ∉ addrs blocks ∧ h' = { h with mem := h'.mem } ∧ SameBounds h h' ∧
      Writes (metadata h'.header blocks') h.mem h'.mem := by
  have hroom := hk.room
  rcases ralloc_spec hk.wellFormed size hwrap (fun hnil => ⟨hfits hnil, by omega⟩) with
    hfail | ⟨xs, ys, q, rfl, hok, hw', hedits⟩
  · -- the handler of the kernel does not return
    have hid : h.handlers allocationException.id = some .kernel := hk.handler
    have hhung : throwException allocationException h = .error (.hung allocationException) := by
      simp only [throwException, hid]
    rw [hfail, rallocFailure, hhung] at heq
    cases heq
  · rw [hok, Except.ok.injEq, Prod.mk.injEq] at heq
    rcases heq with ⟨rfl, rfl⟩
    have hbounds := hedits.bounds
    have hnd := nodup_addrs hw'.sorted
    rw [addrs_append, addrs_cons, List.nodup_middle, List.nodup_cons, ← addrs_append] at hnd
    refine ⟨xs ++ ⟨q, size⟩ :: ys, ⟨hw', ?_, ?_, ?_, ?_⟩, ?_, hnd.1, ?_, hbounds, ?_⟩
    · rw [hedits.handlers]
      exact hk.handler
    · rw [hbounds.header]
      exact hk.low
    · rw [hbounds.heapStart, hbounds.heapEnd]
      exact hroom
    · rw [hbounds.heapEnd]
      exact hk.high
    · intro b
      simp only [List.mem_append, List.mem_cons]
      tauto
    · have hheader := hbounds.header
      have hhandlers := hedits.handlers
      have hraised := hedits.raised
      generalize h.place size xs ys q = h'' at hheader hhandlers hraised
      cases h''
      dsimp only at hheader hhandlers hraised
      rw [hheader, hhandlers, hraised]
    · rw [hbounds.header]
      exact hedits.writes

/-- A task that has been allocated. -/
theorem ralloc (hk : KernelHeap h blocks) (heq : MushOS.ralloc sizeofTask h = .ok (p, h')) :
    ∃ blocks', KernelHeap h' blocks' ∧ (∀ b, b ∈ blocks' ↔ b = ⟨p, sizeofTask⟩ ∨ b ∈ blocks) ∧
      p ∉ addrs blocks ∧ h'.header = h.header ∧
      Writes (metadata h'.header blocks') h.mem h'.mem := by
  have hroom := hk.room
  have hsize : sizeofTask.toNat = 24 := rfl
  rcases hk.allocate (by omega) (fun _ => by omega) heq with
    ⟨blocks', hk', hiff, hnew, hothers, -, hwrites⟩
  exact ⟨blocks', hk', hiff, hnew, by rw [hothers], hwrites⟩

end KernelHeap

/-! ## Tasks in the heap -/

/-- The tasks are blocks of the kernel heap. -/
def HoldsTasks (h : Heap) (tasks : List UDword) : Prop :=
  ∃ blocks, KernelHeap h blocks ∧ ∀ t ∈ tasks, ⟨t, sizeofTask⟩ ∈ blocks

/-- Nothing but `next_pid` and memory of the heap region may differ. -/
structure HeapOnly (k k' : Kernel) : Prop where
  pagingPool : k'.pagingPool = k.pagingPool
  userSpacePool : k'.userSpacePool = k.userSpacePool
  currentDirectory : k'.currentDirectory = k.currentDirectory
  currentTask : k'.currentTask = k.currentTask
  readyQueue : k'.readyQueue = k.readyQueue
  writes : Writes heapRegion k.heap.mem k'.heap.mem

theorem HeapOnly.trans {k k₁ k' : Kernel} (h : HeapOnly k k₁) (h' : HeapOnly k₁ k') :
    HeapOnly k k' :=
  ⟨h'.pagingPool.trans h.pagingPool, h'.userSpacePool.trans h.userSpacePool,
    h'.currentDirectory.trans h.currentDirectory, h'.currentTask.trans h.currentTask,
    h'.readyQueue.trans h.readyQueue, h.writes.trans h'.writes⟩

/-- Pages taken from the pools, and page 0, are outside the heap. -/
theorem Evolves.not_heapRegion {s s' : Paging} (h : Evolves {0} s s') {a : UDword}
    (ha : a ∈ heapRegion) : s'.mem.bytes a = s.mem.bytes a := by
  refine h.writes.frame a ?_
  rw [mem_pages]
  rw [mem_heapRegion] at ha
  rintro (hzero | ⟨hfree, -⟩)
  · rw [Set.mem_singleton_iff] at hzero
    unfold pageOf at hzero
    omega
  · have hrange := free_range hfree
    unfold pageOf at hrange
    omega

namespace HoldsTasks
variable {k k' : Kernel} {tasks : List UDword} {t t' : UDword}

theorem mono (h : HoldsTasks k.heap tasks) {tasks' : List UDword} (hsub : tasks' ⊆ tasks) :
    HoldsTasks k.heap tasks' := by
  rcases h with ⟨blocks, hk, hmem⟩
  exact ⟨blocks, hk, fun t ht => hmem t (hsub ht)⟩

theorem bounds (h : HoldsTasks k.heap tasks) (ht : t ∈ tasks) :
    0x7000 ≤ t.toNat ∧ t.toNat + 24 ≤ 0x100000 := by
  rcases h with ⟨blocks, hk, hmem⟩
  exact hk.task_bounds (hmem t ht)

theorem lt (h : HoldsTasks k.heap tasks) (ht : t ∈ tasks) : t.toNat + 24 ≤ 2 ^ 32 := by
  have := h.bounds ht
  omega

theorem ne_zero (h : HoldsTasks k.heap tasks) (ht : t ∈ tasks) : t ≠ 0 := by
  rintro rfl
  have hbounds := h.bounds ht
  simp at hbounds

/-- There are fewer tasks than addresses. -/
theorem length_lt (h : HoldsTasks k.heap tasks) (hnodup : tasks.Nodup) :
    tasks.length < chainFuel := by
  rcases h with ⟨blocks, hk, hmem⟩
  have hsub : tasks ⊆ addrs blocks := fun t ht => mem_addrs (hmem t ht)
  have hle := (hnodup.subperm hsub).length_le
  have hlt := hk.wellFormed.length_lt
  unfold addrs at hle
  rw [List.length_map] at hle
  omega

/-- Writes outside the heap region. -/
theorem of_frame (h : HoldsTasks k.heap tasks) (hheader : k'.heap.header = k.heap.header)
    (hhandlers : k'.heap.handlers = k.heap.handlers)
    (hframe : ∀ a ∈ heapRegion, k'.heap.mem.bytes a = k.heap.mem.bytes a) :
    HoldsTasks k'.heap tasks ∧ ∀ t ∈ tasks, k'.task t = k.task t := by
  have hbounds : ∀ t ∈ tasks, t.toNat + 24 ≤ 2 ^ 32 := fun t => h.lt
  rcases h with ⟨blocks, hk, hmem⟩
  refine ⟨⟨blocks, hk.of_frame hheader hhandlers hframe, hmem⟩, ?_⟩
  intro t ht
  refine task_congr (hbounds t ht) ?_
  intro a ha
  exact hframe a (hk.task_region (hmem t ht) ha)

/-- Cloning a directory. -/
theorem setPaging (h : HoldsTasks k.heap tasks) {s : Paging} (hevolves : Evolves {0} k.paging s) :
    HoldsTasks (k.setPaging s).heap tasks ∧ ∀ t ∈ tasks, (k.setPaging s).task t = k.task t :=
  h.of_frame rfl rfl fun _ ha => hevolves.not_heapRegion ha

/-- Allocating a task. -/
theorem ralloc (h : HoldsTasks k.heap tasks) {heap : Heap}
    (heq : MushOS.ralloc sizeofTask k.heap = .ok (t, heap)) :
    t ∉ tasks ∧ HoldsTasks heap (t :: tasks) ∧ HeapOnly k { k with heap := heap } ∧
      ∀ t' ∈ tasks, { k with heap := heap }.task t' = k.task t' := by
  have hbounds : ∀ t ∈ tasks, t.toNat + 24 ≤ 2 ^ 32 := fun t => h.lt
  rcases h with ⟨blocks, hk, hmem⟩
  rcases hk.ralloc heq with ⟨blocks', hk', hiff, hnew, hheader, hwrites⟩
  have hmem' : ∀ t' ∈ t :: tasks, ⟨t', sizeofTask⟩ ∈ blocks' := by
    intro t' ht'
    rw [hiff]
    rcases List.mem_cons.mp ht' with rfl | ht'
    · exact Or.inl rfl
    · exact Or.inr (hmem t' ht')
  refine ⟨?_, ⟨blocks', hk', hmem'⟩, ⟨rfl, rfl, rfl, rfl, rfl, ?_⟩, ?_⟩
  · intro ht
    exact hnew (mem_addrs (hmem t ht))
  · exact hwrites.mono fun a ha => hk'.metadata_region ha
  · intro t' ht'
    refine task_congr (hbounds t' ht') ?_
    intro a ha
    exact hwrites.frame a (hk'.task_not_metadata (hmem' t' (List.mem_cons_of_mem _ ht')) ha)

end HoldsTasks

/-- The task `t` has the members of `a`, and nothing else has changed. -/
structure Assigned (tasks : List UDword) (t : UDword) (k k' : Kernel) (a : Task) : Prop where
  holds : HoldsTasks k'.heap tasks
  heapOnly : HeapOnly k k'
  task : k'.task t = a
  others : ∀ t' ∈ tasks, t' ≠ t → k'.task t' = k.task t'

theorem Assigned.refl {k : Kernel} {tasks : List UDword} (h : HoldsTasks k.heap tasks)
    (t : UDword) : Assigned tasks t k k (k.task t) :=
  ⟨h, ⟨rfl, rfl, rfl, rfl, rfl, Writes.refl _ _⟩, rfl, fun _ _ _ => rfl⟩

/-- One more member. -/
theorem Assigned.set {k k' : Kernel} {tasks : List UDword} {t : UDword} {a : Task}
    (h : Assigned tasks t k k' a) (ht : t ∈ tasks) (f : TaskMember) (v : UDword) :
    Assigned tasks t k (k'.setMember t f v) (a.set f v) := by
  have hlt := h.holds.lt ht
  have hwrites := writes_setMember (k := k') (f := f) (v := v) hlt
  have hbounds : ∀ t' ∈ tasks, t'.toNat + 24 ≤ 2 ^ 32 := fun t' => h.holds.lt
  rcases h.holds with ⟨blocks, hk, hmem⟩
  refine ⟨⟨blocks, ?_, hmem⟩, h.heapOnly.trans ⟨rfl, rfl, rfl, rfl, rfl, ?_⟩, ?_, ?_⟩
  · refine hk.of_writes hwrites ?_
    intro a ha hspan
    exact hk.task_not_metadata (hmem t ht) hspan ha
  · exact hwrites.mono fun a ha => hk.task_region (hmem t ht) ha
  · rw [task_setMember hlt, h.task]
  · intro t' ht' hne
    rw [← h.others t' ht' hne]
    refine task_congr (hbounds t' ht') ?_
    intro a ha
    exact hwrites.frame a (hk.task_disjoint (hmem t' ht') (hmem t ht) hne ha)

/-- `next_pid` is not part of the heap. -/
theorem Assigned.setNextPid {k k' : Kernel} {tasks : List UDword} {t : UDword} {a : Task}
    (h : Assigned tasks t k k' a) (pid : UDword) :
    Assigned tasks t k { k' with nextPid := pid } a :=
  ⟨h.holds, h.heapOnly.trans ⟨rfl, rfl, rfl, rfl, rfl, Writes.refl _ _⟩, h.task, h.others⟩

/-! ## Creating a task -/

/-- A created task is a new block with a zero context, and nothing else has changed. -/
theorem createTask_spec {k k' : Kernel} {tasks : List UDword} {t directory : UDword}
    (h : HoldsTasks k.heap tasks) (heq : createTask directory k = .ok (t, k')) :
    t ∉ tasks ∧ HoldsTasks k'.heap (t :: tasks) ∧ HeapOnly k k' ∧
      k'.nextPid = k.nextPid + 1 ∧ k'.task t = ⟨k.nextPid, 0, 0, 0, directory, 0⟩ ∧
      ∀ t' ∈ tasks, k'.task t' = k.task t' := by
  unfold createTask at heq
  rcases ok_of_bind_ok heq with ⟨⟨p, heap⟩, hralloc, heq⟩
  rcases Prod.mk.inj (Except.ok.inj heq) with ⟨rfl, rfl⟩
  rcases h.ralloc hralloc with ⟨hnew, hholds, honly, hsame⟩
  have ht : p ∈ p :: tasks := List.mem_cons_self
  have hall := (((((((Assigned.refl hholds p).set (k := { k with heap := heap }) ht .id
    k.nextPid).setNextPid (k.nextPid + 1)).set ht .ebp 0).set ht .esp 0).set ht .eip 0).set ht
    .pageDirectory directory).set ht .next 0
  refine ⟨hnew, hall.holds, honly.trans hall.heapOnly, rfl, hall.task, ?_⟩
  intro t' ht'
  have hne : t' ≠ p := by
    rintro rfl
    exact hnew ht'
  exact (hall.others t' (List.mem_cons_of_mem _ ht') hne).trans (hsame t' ht')

end MushOS
