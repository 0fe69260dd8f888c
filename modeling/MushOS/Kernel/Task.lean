import MushOS.Base.Heap
import MushOS.Kernel.Pages

/-! # task.c: tasks, fork and the scheduler

The task list of `core/kernel/task.c`, function by function. Every `task` is a
block of 24 bytes of the kernel heap, and `ready_queue` and the `next` members
are the addresses of such blocks; all of it lies in the one physical memory that
the heap, the directories and the pages share.

A function that calls `get_instruction_pointer` is cut in two there, because the
second half may run twice:

* `forkTask` and `forkReturn`, and `fork` for a call as its caller sees it;
* `switch_task` has nothing to do before the call but to read registers, so
  `switchTask` is its second half, with the value the call returned.

The stack and base pointers a function reads are arguments.
-/

namespace MushOS

open ByteMemory

/-- `sizeof(task)`. -/
def sizeofTask : UDword := 24

/-- The members of `task`. -/
inductive TaskMember where
  | id
  | esp
  | ebp
  | eip
  | pageDirectory
  | next
deriving DecidableEq, Repr

def TaskMember.offset : TaskMember → UDword
  | .id => 0
  | .esp => 4
  | .ebp => 8
  | .eip => 12
  | .pageDirectory => 16
  | .next => 20

/-- The memory with the globals of heap.c, pages.c and task.c. -/
structure Kernel where
  heap : Heap
  pagingPool : Pool pagingPoolSize
  userSpacePool : Pool userSpacePoolSize
  currentDirectory : UDword
  currentTask : UDword
  readyQueue : UDword
  nextPid : UDword

namespace Kernel

/-- `task->f`. -/
def member (k : Kernel) (task : UDword) (f : TaskMember) : UDword :=
  k.heap.mem.read32 (task + f.offset)

/-- `task->f = v`. -/
def setMember (k : Kernel) (task : UDword) (f : TaskMember) (v : UDword) : Kernel :=
  { k with heap := { k.heap with mem := k.heap.mem.write32 (task + f.offset) v } }

/-- The part pages.c works on. -/
def paging (k : Kernel) : Paging := ⟨k.heap.mem, k.pagingPool, k.userSpacePool⟩

def setPaging (k : Kernel) (s : Paging) : Kernel :=
  { k with
    heap := { k.heap with mem := s.mem }
    pagingPool := s.pagingPool
    userSpacePool := s.userSpacePool }

end Kernel

/-- The assignments `initialise_tasking` and `fork` share: a new task with a zero
context. -/
def createTask (directory : UDword) (k : Kernel) : Except Fault (UDword × Kernel) := do
  let (task, heap) ← ralloc sizeofTask k.heap
  let k := { k with heap := heap }
  let k := k.setMember task .id k.nextPid
  let k := { k with nextPid := k.nextPid + 1 }
  let k := k.setMember task .ebp 0
  let k := k.setMember task .esp 0
  let k := k.setMember task .eip 0
  let k := k.setMember task .pageDirectory directory
  return (task, k.setMember task .next 0)

def initialiseTasking (k : Kernel) : Except Fault Kernel := do
  let (task, k) ← createTask k.currentDirectory k
  return { k with currentTask := task, readyQueue := task }

/-- `while (tmp_task->next) tmp_task = tmp_task->next;` -/
def queueEnd (k : Kernel) : ℕ → UDword → Except Fault UDword
  | 0, _ => .error .endless
  | fuel + 1, tmpTask =>
    if k.member tmpTask .next = 0 then .ok tmpTask
    else queueEnd k fuel (k.member tmpTask .next)

/-- `fork` up to the call of `get_instruction_pointer`; returns `new_task`. -/
def forkTask (k : Kernel) : Except Fault (UDword × Kernel) := do
  let (directory, s) := cloneDirectory k.currentDirectory k.paging
  let (newTask, k) ← createTask directory (k.setPaging s)
  let tmpTask ← queueEnd k chainFuel k.readyQueue
  return (newTask, k.setMember tmpTask .next newTask)

/-- `fork` after `get_instruction_pointer` has returned `eip`. -/
def forkReturn (parentTask newTask esp ebp eip : UDword) (k : Kernel) : UDword × Kernel :=
  if k.currentTask = parentTask then
    let k := k.setMember newTask .esp esp
    let k := k.setMember newTask .ebp ebp
    let k := k.setMember newTask .eip eip
    (k.member newTask .id, k)
  else (0, k)

/-- `fork` in its caller. -/
def fork (esp ebp eip : UDword) (k : Kernel) : Except Fault (UDword × Kernel) := do
  let parentTask := k.currentTask
  let (newTask, k) ← forkTask k
  return forkReturn parentTask newTask esp ebp eip k

/-- The dummy value a switch leaves in EAX. -/
def switchSentinel : UDword := 0xDEADBABA

/-- The registers a switch loads. -/
structure Registers where
  esp : UDword
  ebp : UDword
  eip : UDword
  cr3 : UDword
deriving DecidableEq, Repr

/-- The rest of `switch_task` once the registers are saved: the next task is made the
current one, and its registers are loaded. -/
def loadNext (k : Kernel) : Registers × Kernel :=
  let k := { k with currentTask := k.member k.currentTask .next }
  -- past the end of the list, start again at the beginning
  let k := if k.currentTask = 0 then { k with currentTask := k.readyQueue } else k
  let k := { k with currentDirectory := k.member k.currentTask .pageDirectory }
  (⟨k.member k.currentTask .esp, k.member k.currentTask .ebp, k.member k.currentTask .eip,
    k.currentDirectory⟩, k)

/-- `switch_task`, when `get_instruction_pointer` has returned `eip`: either it returns,
or it jumps with the registers it has loaded. -/
def switchTask (esp ebp eip : UDword) (k : Kernel) : Option Registers × Kernel :=
  if k.currentTask = 0 then (none, k)
  else if eip = switchSentinel then (none, k)
  else
    let k := k.setMember k.currentTask .eip eip
    let k := k.setMember k.currentTask .esp esp
    let k := k.setMember k.currentTask .ebp ebp
    let (loaded, k) := loadNext k
    (some loaded, k)

def getpid (k : Kernel) : UDword := k.member k.currentTask .id

end MushOS
