import MushOS.Base.Memory

/-! # heap.c: the MushLib heap

The singleton heap of `lib/base/heap.c`, function by function. The heap lives in
the flat memory: a 12-byte `heap_header` at the address held by the global
`header`, then blocks, each a 12-byte `heap_block_header` followed by its
payload. A block is known by the address of its payload. All arithmetic is the
code's own, on 32-bit words.

What a C function does when it does not return a value is a `Fault`:

* `getHeader` outside of the heap throws a heap exception and then falls off the
  end of a non-void function;
* a loop along a chain of blocks that closes on itself never ends (a chain of
  more than `2 ^ 32` steps repeats an address);
* an exception handler may never return, as the kernel's does not.
-/

namespace MushOS

open ByteMemory

/-! ## Exceptions (exceptions.c) -/

structure Exception where
  id : UByte
  type : String
  message : String
  file : String
  line : UDword
deriving DecidableEq, Repr

/-- The handlers the repository registers for allocation exceptions:
`handle_allocation_exception` of `lib/base/heap.c`, which terminates (and
`terminate` returns), and that of `core/kernel/heap.c`, which prints and then
jumps to itself. -/
inductive ExceptionHandler where
  | library
  | kernel
deriving DecidableEq, Repr

inductive Fault where
  | outsideHeap
  | endless
  | unhandled (exc : Exception)
  | hung (exc : Exception)
deriving DecidableEq, Repr

@[simp] theorem ok_bind {α β : Type} (a : α) (f : α → Except Fault β) :
    (Except.ok a >>= f) = f a := rfl

/-- `x >>= f` returns when `x` returns a value for which `f` does. -/
theorem ok_of_bind_ok {α β : Type} {x : Except Fault α} {f : α → Except Fault β} {b : β}
    (h : (x >>= f) = .ok b) : ∃ a, x = .ok a ∧ f a = .ok b := by
  cases x with
  | error e => cases h
  | ok a => exact ⟨a, rfl, h⟩

def allocationExceptionId : UByte := 0x1
def allocationExceptionType : String := "Allocation Exception"

/-- The memory and the globals of the heap; `raised` lists the exceptions thrown
so far, newest first. -/
structure Heap where
  mem : Mem
  header : UDword
  handlers : UByte → Option ExceptionHandler
  raised : List Exception

def handleExceptions (id : UByte) (handler : ExceptionHandler) (h : Heap) : Heap :=
  { h with handlers := fun i => if i = id then some handler else h.handlers i }

/-- `throw_exception`: hand the exception to its handler. Without one the
exception is printed through `format`, which itself needs the heap; that path
is not followed. -/
def throwException (exc : Exception) (h : Heap) : Except Fault Heap :=
  match h.handlers exc.id with
  | none => .error (.unhandled exc)
  | some .library => .ok { h with raised := exc :: h.raised }
  | some .kernel => .error (.hung exc)

/-! ## The two headers -/

/-- `sizeof(heap_header)` and `sizeof(heap_block_header)`. -/
def sizeofHeapHeader : UDword := 12
def sizeofHeapBlockHeader : UDword := 12

/-- The members of `heap_block_header`. -/
inductive BlockMember where
  | size
  | previous
  | next
deriving DecidableEq, Repr

def BlockMember.offset : BlockMember → UDword
  | .size => 0
  | .previous => 4
  | .next => 8

namespace Heap

def firstAddress (h : Heap) : UDword := h.mem.read32 h.header
def heapStart (h : Heap) : UDword := h.mem.read32 (h.header + 4)
def heapEnd (h : Heap) : UDword := h.mem.read32 (h.header + 8)

def setFirstAddress (h : Heap) (a : UDword) : Heap :=
  { h with mem := h.mem.write32 h.header a }

/-- `block->f` of the block header at address `block`. -/
def member (h : Heap) (block : UDword) (f : BlockMember) : UDword :=
  h.mem.read32 (block + f.offset)

/-- `block->f = v`. -/
def setMember (h : Heap) (block : UDword) (f : BlockMember) (v : UDword) : Heap :=
  { h with mem := h.mem.write32 (block + f.offset) v }

end Heap

def isInHeap (h : Heap) (structure' : UDword) : Bool :=
  structure' > h.heapStart && structure' < h.heapEnd

def getHeader (h : Heap) (structure' : UDword) : Except Fault UDword :=
  if isInHeap h structure' then .ok (structure' - sizeofHeapBlockHeader)
  else .error .outsideHeap

def size (h : Heap) (structure' : UDword) : Except Fault UDword := do
  let block ← getHeader h structure'
  return h.member block .size

/-! ## Allocation -/

/-- `if (block) get_header(block)->f = v;` -/
def setIfPresent (block : UDword) (f : BlockMember) (v : UDword) (h : Heap) :
    Except Fault Heap :=
  if block ≠ 0 then do
    let header ← getHeader h block
    return h.setMember header f v
  else return h

def allocateSpace (freePointer size previous next : UDword) (h : Heap) :
    Except Fault (UDword × Heap) := do
  let h := h.setMember freePointer .size size
  let h := h.setMember freePointer .previous previous
  let h := h.setMember freePointer .next next
  let memoryAddress := freePointer + sizeofHeapBlockHeader
  let h ← setIfPresent previous .next memoryAddress h
  let h ← setIfPresent next .previous memoryAddress h
  return (memoryAddress, h)

def initializeHeap (startAddress initialSize : UDword) (h : Heap) : Heap :=
  let h := { h with header := startAddress }
  let h := { h with mem := memoryClear startAddress sizeofHeapHeader 0 h.mem }
  let h := { h with mem := h.mem.write32 (h.header + 4) (startAddress + sizeofHeapHeader) }
  let h := { h with mem := h.mem.write32 (h.header + 8) (startAddress + initialSize) }
  let h := h.setFirstAddress 0
  handleExceptions allocationExceptionId .library h

/-- The locals `best_size`, `best_address`, `best_previous`, `best_next`. -/
structure Best where
  bestSize : UDword
  bestAddress : UDword
  bestPrevious : UDword
  bestNext : UDword
deriving DecidableEq, Repr

/-- The test every gap goes through: large enough, and smaller than the best so
far. (After the last block the code leaves `best_size` as it was, and never
reads it again.) -/
def Best.consider (best : Best) (size freeSpaceSize address previous next : UDword) : Best :=
  if freeSpaceSize ≥ size + sizeofHeapBlockHeader ∧ freeSpaceSize < best.bestSize then
    ⟨freeSpaceSize, address, previous, next⟩
  else best

/-- Steps after which a walk along a chain has repeated an address. -/
def chainFuel : ℕ := 2 ^ 32

/-- The `while` loop of `ralloc` from the block `current`, and the gap after the
last block. -/
def rallocSearch (h : Heap) (size : UDword) : ℕ → UDword → Best → Except Fault Best
  | 0, _, _ => .error .endless
  | fuel + 1, current, best => do
    let currentBlock ← getHeader h current
    let currentSize := h.member currentBlock .size
    let next := h.member currentBlock .next
    if next = 0 then
      return best.consider size (h.heapEnd - current - currentSize - sizeofHeapBlockHeader)
        (current + currentSize) current 0
    else
      rallocSearch h size fuel next
        (best.consider size (next - current - currentSize - sizeofHeapBlockHeader)
          (current + currentSize) current next)

/-- The exception `ralloc` throws. -/
def allocationException : Exception where
  id := allocationExceptionId
  type := allocationExceptionType
  message := "No space left in heap available for allocation!"
  file := "./lib/base/heap.c"
  line := 167

def ralloc (size : UDword) (h : Heap) : Except Fault (UDword × Heap) :=
  if h.firstAddress = 0 then do
    let (p, h) ← allocateSpace h.heapStart size 0 0 h
    return (p, h.setFirstAddress p)
  else do
    let best : Best := ⟨h.heapEnd - h.heapStart, 0, 0, 0⟩
    let best := best.consider size
      (h.firstAddress - h.heapStart - sizeofHeapBlockHeader) h.heapStart 0 h.firstAddress
    let best ← rallocSearch h size chainFuel h.firstAddress best
    let (finalAddress, h) ← if best.bestAddress ≠ 0 then
        allocateSpace best.bestAddress size best.bestPrevious best.bestNext h
      else pure (0, h)
    let h := if best.bestAddress = h.heapStart then h.setFirstAddress finalAddress else h
    let h ← if finalAddress = 0 then throwException allocationException h else pure h
    return (finalAddress, h)

def zalloc (size : UDword) (h : Heap) : Except Fault (UDword × Heap) := do
  let (result, h) ← ralloc size h
  return (result, { h with mem := memoryClear result size 0 h.mem })

def unalloc (structure' : UDword) (h : Heap) : Except Fault Heap := do
  let block ← getHeader h structure'
  let h := if structure' = h.firstAddress then h.setFirstAddress (h.member block .next) else h
  let h ← setIfPresent (h.member block .next) .previous (h.member block .previous) h
  setIfPresent (h.member block .previous) .next (h.member block .next) h

def challoc (structure' newSize : UDword) (h : Heap) : Except Fault (UDword × Heap) := do
  let block ← getHeader h structure'
  if newSize < h.member block .size then
    return (structure', h.setMember block .size newSize)
  else if newSize > h.member block .size then
    -- a pointer difference, compared as unsigned
    if newSize < h.member block .next - structure' then
      return (structure', h.setMember block .size newSize)
    else do
      let (newStructure, h) ← ralloc newSize h
      let h := { h with mem := memoryCopy structure' newStructure (h.member block .size) h.mem }
      let h ← unalloc structure' h
      return (newStructure, h)
  else return (structure', h)

end MushOS
