import MushOS.Theory.RoundRobin
import MushOS.Kernel.TaskHeap

/-! # The ready queue

`Tasking k rota` is the invariant of task.c: the list at `ready_queue` is the queue
of the rota, its tasks carry the pids `0, 1, 2, …` in order, `current_task` is the
rota's current client and `current_directory` its directory.

Each function of task.c is one step of the rota:

* `initialiseTasking_spec` starts a rota with one client;
* `forkTask_spec` and `fork_spec` spawn one at the end;
* `switchTask_spec` is a turn.
-/

namespace MushOS

open ByteMemory Links RoundRobin

/-- The kernel before `initialise_tasking`. -/
structure Booted (k : Kernel) : Prop where
  heap : ∃ blocks, KernelHeap k.heap blocks
  nextPid : k.nextPid = 0

/-- The invariant of the task list. -/
structure Tasking (k : Kernel) (rota : Rota UDword) : Prop where
  holds : HoldsTasks k.heap rota.queue
  nodup : rota.queue.Nodup
  first : k.readyQueue = rota.queue.headD 0
  links : Forward (fun t => (k.task t).next) rota.queue 0
  ids : rota.queue.map (fun t => (k.task t).id) =
    (List.range rota.queue.length).map (BitVec.ofNat 32)
  nextPid : k.nextPid = BitVec.ofNat 32 rota.queue.length
  current : k.currentTask = rota.current
  directory : k.currentDirectory = (k.task k.currentTask).pageDirectory

section
variable {k k' : Kernel} {rota : Rota UDword} {t : UDword}

namespace Tasking

theorem current_mem (h : Tasking k rota) : k.currentTask ∈ rota.queue := by
  rw [h.current]
  exact rota.current_mem

theorem null_not_mem (h : Tasking k rota) : (0 : UDword) ∉ rota.queue :=
  fun hmem => h.holds.ne_zero hmem rfl

/-- Assignments to the context of a task do not concern the list. -/
theorem assign (h : Tasking k rota) (ht : t ∈ rota.queue) {a : Task}
    (ha : Assigned rota.queue t k k' a) (hid : a.id = (k.task t).id)
    (hnext : a.next = (k.task t).next) (hdir : a.pageDirectory = (k.task t).pageDirectory)
    (hpid : k'.nextPid = k.nextPid) : Tasking k' rota := by
  have hsame : ∀ t' ∈ rota.queue, (k'.task t').id = (k.task t').id ∧
      (k'.task t').next = (k.task t').next ∧
      (k'.task t').pageDirectory = (k.task t').pageDirectory := by
    intro t' ht'
    by_cases hne : t' = t
    · subst hne
      rw [ha.task]
      exact ⟨hid, hnext, hdir⟩
    · rw [ha.others t' ht' hne]
      exact ⟨rfl, rfl, rfl⟩
  refine ⟨ha.holds, h.nodup, ?_, ?_, ?_, ?_, ?_, ?_⟩
  · rw [ha.heapOnly.readyQueue]
    exact h.first
  · exact h.links.congr fun t' ht' => (hsame t' ht').2.1
  · rw [← h.ids]
    exact List.map_congr_left fun t' ht' => (hsame t' ht').1
  · rw [hpid]
    exact h.nextPid
  · rw [ha.heapOnly.currentTask]
    exact h.current
  · rw [ha.heapOnly.currentDirectory, ha.heapOnly.currentTask, h.directory]
    exact (hsame _ h.current_mem).2.2.symm

/-- Nor do writes outside the heap. -/
theorem of_writes (h : Tasking k rota) {S : Set UDword} {m : Mem} (hw : Writes S k.heap.mem m)
    (hS : ∀ a ∈ S, a ∉ heapRegion) :
    Tasking { k with heap := { k.heap with mem := m } } rota ∧
      ∀ t ∈ rota.queue, { k with heap := { k.heap with mem := m } }.task t = k.task t := by
  rcases @HoldsTasks.of_frame k { k with heap := { k.heap with mem := m } } _
    h.holds rfl rfl fun a ha => hw.frame a fun hmem => hS a hmem ha with ⟨hholds, hsame⟩
  refine ⟨⟨hholds, h.nodup, h.first, ?_, ?_, h.nextPid, h.current, ?_⟩, hsame⟩
  · exact h.links.congr fun t ht => congrArg Task.next (hsame t ht)
  · rw [← h.ids]
    exact List.map_congr_left fun t ht => congrArg Task.id (hsame t ht)
  · rw [hsame _ h.current_mem]
    exact h.directory

end Tasking

/-! ## initialise_tasking -/

/-- The kernel task: pid 0, a zero context, the kernel's directory. -/
theorem initialiseTasking_spec (h : Booted k) (heq : initialiseTasking k = .ok k') :
    ∃ t, Tasking k' ⟨[], t, []⟩ ∧ k'.task t = ⟨0, 0, 0, 0, k.currentDirectory, 0⟩ ∧
      k'.pagingPool = k.pagingPool ∧ k'.userSpacePool = k.userSpacePool ∧
      k'.currentDirectory = k.currentDirectory ∧
      Writes heapRegion k.heap.mem k'.heap.mem := by
  unfold initialiseTasking at heq
  rcases ok_of_bind_ok heq with ⟨⟨t, k₁⟩, hcreate, heq⟩
  rcases Except.ok.inj heq with rfl
  rcases h.heap with ⟨blocks, hblocks⟩
  have hnone : HoldsTasks k.heap [] := ⟨blocks, hblocks, by simp⟩
  rcases createTask_spec hnone hcreate with ⟨-, hholds, honly, hpid, htask, -⟩
  rw [h.nextPid] at htask
  have hnext : (k₁.task t).next = 0 := by rw [htask]
  refine ⟨t, ?_, htask, honly.pagingPool, honly.userSpacePool, honly.currentDirectory,
    honly.writes⟩
  -- a ring of one task
  exact {
    holds := hholds
    nodup := List.nodup_singleton t
    first := rfl
    links := ⟨hnext, trivial⟩
    ids := by
      show [(k₁.task t).id] = _
      rw [htask]
      rfl
    nextPid := by
      show k₁.nextPid = _
      rw [hpid, h.nextPid]
      rfl
    current := rfl
    directory := by
      show k₁.currentDirectory = (k₁.task t).pageDirectory
      rw [htask]
      exact honly.currentDirectory }

/-! ## fork -/

/-- The loop of `fork` finds the end of the queue. -/
theorem queueEnd_eq {ts : List UDword} (hne : ts ≠ [])
    (hlinks : Forward (fun t => (k.task t).next) ts 0) (hnull : (0 : UDword) ∉ ts) {fuel : ℕ}
    (hfuel : ts.length ≤ fuel) : queueEnd k fuel (ts.headD 0) = .ok (ts.getLast hne) := by
  induction ts generalizing fuel with
  | nil => exact absurd rfl hne
  | cons a as ih =>
    cases fuel with
    | zero => simp at hfuel
    | succ fuel =>
      rw [List.mem_cons, not_or] at hnull
      have hnext : k.member a .next = as.headD 0 := hlinks.1
      show (if k.member a .next = 0 then Except.ok a else queueEnd k fuel (k.member a .next)) = _
      rw [hnext]
      cases as with
      | nil => rfl
      | cons b bs =>
        have hb : b ≠ 0 := fun hb => hnull.2 (by simp [hb])
        have hlast := ih (List.cons_ne_nil b bs) hlinks.2 hnull.2 (Nat.le_of_succ_le_succ hfuel)
        rw [List.headD_cons, if_neg hb]
        rw [List.headD_cons] at hlast
        rw [hlast]
        rfl

/-- Cloning does not touch the globals of task.c. -/
@[simp] theorem setPaging_currentTask (k : Kernel) (s : Paging) :
    (k.setPaging s).currentTask = k.currentTask := rfl

/-- **`fork` up to `get_instruction_pointer`** puts a task with a zero context and a
cloned directory at the end of the queue. -/
theorem forkTask_spec (h : Tasking k rota) (heq : forkTask k = .ok (t, k')) :
    t ∉ rota.queue ∧ Tasking k' (rota.spawn t) ∧
      k'.task t = ⟨k.nextPid, 0, 0, 0, (cloneDirectory k.currentDirectory k.paging).1, 0⟩ ∧
      (∀ t' ∈ rota.queue, k'.task t' = { k.task t' with next := (k'.task t').next }) ∧
      HeapOnly (k.setPaging (cloneDirectory k.currentDirectory k.paging).2) k' := by
  unfold forkTask at heq
  obtain ⟨directory, s, hclone⟩ : ∃ directory s,
      cloneDirectory k.currentDirectory k.paging = (directory, s) := ⟨_, _, rfl⟩
  have hevolves := evolves_cloneDirectory k.currentDirectory k.paging
  rw [hclone] at heq hevolves ⊢
  simp only at heq hevolves ⊢
  rcases ok_of_bind_ok heq with ⟨⟨p, k₁⟩, hcreate, heq⟩
  rcases ok_of_bind_ok heq with ⟨last, hend, heq⟩
  rcases Prod.mk.inj (Except.ok.inj heq) with ⟨rfl, rfl⟩
  rcases h.holds.setPaging hevolves with ⟨hholds₀, hsame₀⟩
  rcases createTask_spec hholds₀ hcreate with ⟨hnew, hholds₁, honly₁, hpid₁, htask₁, hsame₁⟩
  have hsame : ∀ t' ∈ rota.queue, k₁.task t' = k.task t' :=
    fun t' ht' => (hsame₁ t' ht').trans (hsame₀ t' ht')
  have hlinks₁ : Forward (fun t => (k₁.task t).next) rota.queue 0 :=
    h.links.congr fun t' ht' => by rw [hsame t' ht']
  have hne : rota.queue ≠ [] := by simp [Rota.queue]
  have hready : k₁.readyQueue = rota.queue.headD 0 := by
    rw [honly₁.readyQueue]
    exact h.first
  -- the loop over `next` stops at the task queued last
  have hlast : last = rota.queue.getLast hne := by
    have hend' := queueEnd_eq hne hlinks₁ h.null_not_mem (h.holds.length_lt h.nodup).le
    rw [hready, hend'] at hend
    exact (Except.ok.inj hend).symm
  have hlastmem : last ∈ rota.queue := hlast ▸ List.getLast_mem hne
  have hsub : rota.queue ++ [p] ⊆ p :: rota.queue := by
    intro t' ht'
    simp only [List.mem_append, List.mem_cons] at ht' ⊢
    tauto
  -- the only write to an old task links the new one behind the last
  have hassigned := (Assigned.refl (hholds₁.mono hsub) last).set
    (List.mem_append_left _ hlastmem) .next p
  have hpne : p ≠ last := by
    rintro rfl
    exact hnew hlastmem
  have htask : (k₁.setMember last .next p).task p = ⟨k.nextPid, 0, 0, 0, directory, 0⟩ := by
    rw [hassigned.others p (by simp) hpne, htask₁]
    rfl
  have hold : ∀ t' ∈ rota.queue, (k₁.setMember last .next p).task t' =
      { k.task t' with next := ((k₁.setMember last .next p).task t').next } := by
    intro t' ht'
    by_cases htl : t' = last
    · subst htl
      rw [hassigned.task, hsame t' ht']
      rfl
    · rw [hassigned.others t' (List.mem_append_left _ ht') htl, hsame t' ht']
  have hone : ∀ t' ∈ rota.queue, ((k₁.setMember last .next p).task t').id = (k.task t').id := by
    intro t' ht'
    rw [hold t' ht']
  refine ⟨hnew, ?_, htask, hold, honly₁.trans hassigned.heapOnly⟩
  exact {
    holds := by
      rw [Rota.queue_spawn]
      exact hassigned.holds
    nodup := Rota.nodup_spawn h.nodup hnew
    first := by
      rw [Rota.queue_spawn, hassigned.heapOnly.readyQueue, hready]
      cases hq : rota.queue with
      | nil => exact absurd hq hne
      | cons a as => rfl
    links := by
      rw [Rota.queue_spawn]
      have hend : Forward (fun t => (k₁.task t).next) (rota.queue ++ []) 0 := by
        rwa [List.append_nil]
      refine hend.insert ?_ ?_ ?_ (by simp)
      · intro a ha
        have hne' : a ≠ last := by
          have hnodup := h.nodup
          rw [← List.dropLast_append_getLast hne, ← hlast, List.nodup_append] at hnodup
          exact hnodup.2.2 a ha last (List.mem_singleton.mpr rfl)
        have hmem := List.mem_append_left [p] (List.mem_of_mem_dropLast ha)
        exact congrArg Task.next (hassigned.others a hmem hne')
      · intro a ha
        rw [List.getLast?_eq_getLast_of_ne_nil hne, Option.mem_some_iff, ← hlast] at ha
        subst ha
        exact congrArg Task.next hassigned.task
      · exact congrArg Task.next htask
    ids := by
      rw [Rota.queue_spawn, List.map_append, List.length_append, List.length_singleton,
        List.range_succ, List.map_append, ← h.ids, List.map_congr_left hone]
      refine congrArg _ ?_
      show [((k₁.setMember last .next p).task p).id] = [BitVec.ofNat 32 rota.queue.length]
      rw [htask, h.nextPid]
    nextPid := by
      rw [Rota.queue_spawn, List.length_append, List.length_singleton]
      show k₁.nextPid = _
      rw [hpid₁]
      show k.nextPid + 1 = _
      rw [h.nextPid, BitVec.ofNat_add]
      rfl
    current := by
      rw [hassigned.heapOnly.currentTask, honly₁.currentTask]
      exact h.current
    directory := by
      rw [hassigned.heapOnly.currentDirectory, hassigned.heapOnly.currentTask,
        honly₁.currentDirectory, honly₁.currentTask]
      show k.currentDirectory = ((k₁.setMember last .next p).task k.currentTask).pageDirectory
      rw [hold _ h.current_mem]
      exact h.directory }

theorem forkTask_currentTask (h : Tasking k rota) (heq : forkTask k = .ok (t, k')) :
    k'.currentTask = k.currentTask := by
  rcases forkTask_spec h heq with ⟨-, htasking, -⟩
  rw [htasking.current, h.current, Rota.current_spawn]

/-- In the parent, the second half of `fork` fills in the context of the child and
returns its pid. -/
theorem forkReturn_parent (h : Tasking k rota) (ht : t ∈ rota.queue) (esp ebp eip : UDword) :
    ∃ k', forkReturn k.currentTask t esp ebp eip k = ((k.task t).id, k') ∧ Tasking k' rota ∧
      Assigned rota.queue t k k' { k.task t with esp := esp, ebp := ebp, eip := eip } ∧
      k'.nextPid = k.nextPid := by
  have hall := (((Assigned.refl h.holds t).set ht .esp esp).set ht .ebp ebp).set ht .eip eip
  refine ⟨_, ?_, h.assign ht hall rfl rfl rfl rfl, hall, rfl⟩
  unfold forkReturn
  rw [if_pos rfl]
  exact congrArg (fun a : Task => (a.id, _)) hall.task

/-- In any other task it returns 0 and changes nothing. -/
theorem forkReturn_child {parentTask : UDword} (hne : k.currentTask ≠ parentTask)
    (newTask esp ebp eip : UDword) : forkReturn parentTask newTask esp ebp eip k = (0, k) := by
  unfold forkReturn
  rw [if_neg hne]

/-- What `fork` leaves behind, when the new task is `t`. -/
structure Forks (k : Kernel) (rota : Rota UDword) (esp ebp eip t : UDword) (k' : Kernel) :
    Prop where
  fresh : t ∉ rota.queue
  tasking : Tasking k' (rota.spawn t)
  child : k'.task t =
    ⟨k.nextPid, esp, ebp, eip, (cloneDirectory k.currentDirectory k.paging).1, 0⟩
  others : ∀ t' ∈ rota.queue, k'.task t' = { k.task t' with next := (k'.task t').next }
  heapOnly : HeapOnly (k.setPaging (cloneDirectory k.currentDirectory k.paging).2) k'

theorem fork_eq (htask : forkTask k = .ok (t, k')) (esp ebp eip : UDword) :
    fork esp ebp eip k = .ok (forkReturn k.currentTask t esp ebp eip k') := by
  unfold fork
  rw [htask]
  rfl

/-- **`fork` in its caller** returns the pid of the new task at the end of the queue,
whose context is the one recorded here. -/
theorem fork_spec (h : Tasking k rota) {esp ebp eip pid : UDword}
    (heq : fork esp ebp eip k = .ok (pid, k')) (ht : ∃ k₁, forkTask k = .ok (t, k₁)) :
    pid = k.nextPid ∧ Forks k rota esp ebp eip t k' := by
  rcases ht with ⟨k₁, htask⟩
  rcases forkTask_spec h htask with ⟨hnew, htasking, hchild, hothers, honly⟩
  have hcurrent := honly.currentTask
  rw [setPaging_currentTask] at hcurrent
  have hmem : t ∈ (rota.spawn t).queue := by
    rw [Rota.queue_spawn]
    exact List.mem_append_right _ (List.mem_singleton.mpr rfl)
  rcases forkReturn_parent htasking hmem esp ebp eip with ⟨k₂, hret, htasking₂, hassigned, -⟩
  rw [hcurrent] at hret
  rw [fork_eq htask, hret] at heq
  rcases Prod.mk.inj (Except.ok.inj heq) with ⟨rfl, rfl⟩
  rw [hchild] at hassigned ⊢
  refine ⟨rfl, hnew, htasking₂, hassigned.task, ?_, honly.trans hassigned.heapOnly⟩
  intro t' ht'
  have hne : t' ≠ t := by
    rintro rfl
    exact hnew ht'
  have hmem' : t' ∈ (rota.spawn t).queue := by
    rw [Rota.queue_spawn]
    exact List.mem_append_left _ ht'
  rw [hassigned.others t' hmem' hne]
  exact hothers t' ht'

/-! ## switch_task -/

/-- What a switch away from the current task leaves behind. -/
structure Switches (k : Kernel) (rota : Rota UDword) (esp ebp eip : UDword) (loaded : Registers)
    (k' : Kernel) : Prop where
  tasking : Tasking k' rota.turn
  saved : k'.task rota.current = { k.task rota.current with esp := esp, ebp := ebp, eip := eip }
  others : ∀ t ∈ rota.queue, t ≠ rota.current → k'.task t = k.task t
  loaded : loaded = ⟨(k'.task k'.currentTask).esp, (k'.task k'.currentTask).ebp,
    (k'.task k'.currentTask).eip, (k'.task k'.currentTask).pageDirectory⟩
  pagingPool : k'.pagingPool = k.pagingPool
  userSpacePool : k'.userSpacePool = k.userSpacePool
  writes : Writes heapRegion k.heap.mem k'.heap.mem

/-- The current task's successor, or the first one, is the next client. -/
theorem next_eq_turn (h : Tasking k rota) :
    (if (k.task rota.current).next = 0 then k.readyQueue else (k.task rota.current).next) =
      rota.turn.current := by
  have hlinks := h.links
  have hnull := h.null_not_mem
  have hfirst := h.first
  rcases rota with ⟨before, current, after⟩
  unfold Rota.queue at hlinks hnull hfirst
  simp only at hlinks hnull hfirst ⊢
  rw [forward_append] at hlinks
  have hnext : (k.task current).next = after.headD 0 := hlinks.2.1
  rw [hnext]
  cases after with
  | cons a as =>
    have ha : a ≠ 0 := by
      rintro rfl
      exact hnull (by simp)
    rw [List.headD_cons, if_neg ha]
    rfl
  | nil =>
    rw [List.headD_nil, if_pos rfl, hfirst]
    cases before with
    | nil => rfl
    | cons b bs => rfl

/-- The second half of `switch_task`, when `next` follows the current task. -/
theorem loadNext_eq {next : UDword} (hnext :
    (if (k.task k.currentTask).next = 0 then k.readyQueue else (k.task k.currentTask).next) =
      next) :
    loadNext k = (⟨(k.task next).esp, (k.task next).ebp, (k.task next).eip,
      (k.task next).pageDirectory⟩,
      { k with currentTask := next, currentDirectory := (k.task next).pageDirectory }) := by
  unfold loadNext
  by_cases hnull : (k.task k.currentTask).next = 0
  · rw [if_pos hnull] at hnext
    have hmember : k.member k.currentTask .next = 0 := hnull
    simp only [hmember, hnext, if_true]
    rfl
  · rw [if_neg hnull] at hnext
    have hmember : k.member k.currentTask .next = next := hnext
    have hne : next ≠ 0 := hnext ▸ hnull
    simp only [hmember, if_neg hne]
    rfl

/-- **`switch_task` is a turn**: it saves the registers in the task that leaves and
loads those of the next one. -/
theorem switchTask_spec (h : Tasking k rota) {esp ebp eip : UDword} (heip : eip ≠ switchSentinel) :
    ∃ loaded k', switchTask esp ebp eip k = (some loaded, k') ∧
      Switches k rota esp ebp eip loaded k' := by
  have hmem := h.current_mem
  have hall := (((Assigned.refl h.holds k.currentTask).set hmem .eip eip).set hmem .esp esp).set
    hmem .ebp ebp
  obtain ⟨k₁, hk₁⟩ : ∃ k₁, k₁ = ((k.setMember k.currentTask .eip eip).setMember k.currentTask .esp
    esp).setMember k.currentTask .ebp ebp := ⟨_, rfl⟩
  rw [← hk₁] at hall
  have htasking : Tasking k₁ rota := h.assign hmem hall rfl rfl rfl (by rw [hk₁]; rfl)
  -- the three registers are recorded first, then those of the next task are read
  have hload := loadNext_eq (htasking.current ▸ next_eq_turn htasking)
  have hswitch : switchTask esp ebp eip k = (some (loadNext k₁).1, (loadNext k₁).2) := by
    unfold switchTask
    rw [if_neg (h.holds.ne_zero hmem), if_neg heip, hk₁]
    rfl
  rw [hload] at hswitch
  have honly := hall.heapOnly
  have hcurrent := h.current
  rw [hcurrent] at hall
  refine ⟨_, _, hswitch, ?_, hall.task, hall.others, rfl, honly.pagingPool, honly.userSpacePool,
    honly.writes⟩
  -- turning the queue does not reorder it
  exact {
    holds := by
      rw [Rota.queue_turn]
      exact htasking.holds
    nodup := by
      rw [Rota.queue_turn]
      exact h.nodup
    first := by
      rw [Rota.queue_turn]
      exact htasking.first
    links := by
      rw [Rota.queue_turn]
      exact htasking.links
    ids := by
      rw [Rota.queue_turn]
      exact htasking.ids
    nextPid := by
      rw [Rota.queue_turn]
      exact htasking.nextPid
    current := rfl
    directory := rfl }

end

end MushOS
