import MushOS.Theory.Loop
import MushOS.Theory.Bitmap
import MushOS.Theory.Pages
import MushOS.Base.Memory

/-! # pages.c: page directories and the two pools

The allocators, the cloning functions and the set-up of `core/kernel/pages.c`,
function by function. Directories and tables are words of the flat physical
memory: a `page_folder` is 1024 packed `page_pointer`s, read and written through
`Mem.entry` and `Mem.setEntry`. Every iteration reads its entries from the memory
as it is by then.

The two bitmaps are objects of the kernel heap that no other code points at; they
are kept beside the memory, as typed `Pool`s of the length `size_of` returns.

* Allocators signal exhaustion by a null pointer, and the callers go on with it.
* `create_page_entry` leaves members of a local uninitialised; what the local held
  is an argument here.
-/

namespace MushOS

open ByteMemory Loop

def pageSize : ℕ := 0x1000
def pagesInTable : ℕ := 1024
def fullByte : ℕ := 0xff

def pagingPoolStart : UDword := 0x100000
def pagingPoolEnd : UDword := 0xf00000
def userSpaceStart : UDword := 0x1000000
def userSpaceEnd : UDword := 0x10000000

/-! ## Page pointers -/

/-- The bit-field `page_pointer`, lowest bit first. -/
structure PagePointer where
  present : Bool
  rw : Bool
  user : Bool
  write : Bool
  cache : Bool
  accessed : Bool
  dirty : Bool
  zero : Bool
  global : Bool
  unused : BitVec 3
  frame : BitVec 20
deriving DecidableEq, Repr

namespace PagePointer

/-- The word a page pointer is stored as. -/
def encode (p : PagePointer) : UDword :=
  p.frame ++ p.unused ++ BitVec.ofBool p.global ++ BitVec.ofBool p.zero ++
    BitVec.ofBool p.dirty ++ BitVec.ofBool p.accessed ++ BitVec.ofBool p.cache ++
    BitVec.ofBool p.write ++ BitVec.ofBool p.user ++ BitVec.ofBool p.rw ++
    BitVec.ofBool p.present

/-- The page pointer a word stands for. -/
def decode (w : UDword) : PagePointer where
  present := w.getLsbD 0
  rw := w.getLsbD 1
  user := w.getLsbD 2
  write := w.getLsbD 3
  cache := w.getLsbD 4
  accessed := w.getLsbD 5
  dirty := w.getLsbD 6
  zero := w.getLsbD 7
  global := w.getLsbD 8
  unused := w.extractLsb' 9 3
  frame := w.extractLsb' 12 20

@[simp] theorem decode_encode (p : PagePointer) : decode p.encode = p := by
  have hunused : p.encode.extractLsb' 9 3 = p.unused := by
    ext i hi
    simp only [encode, BitVec.getElem_extractLsb', BitVec.getLsbD_append]
    simp
    grind
  have hframe : p.encode.extractLsb' 12 20 = p.frame := by
    ext i hi
    simp only [encode, BitVec.getElem_extractLsb', BitVec.getLsbD_append]
    simp
    grind
  unfold decode
  rw [hunused, hframe]
  simp only [encode, BitVec.getLsbD_append]
  simp

/-- The flag bits alone. -/
def flags (p : PagePointer) : PagePointer := { p with frame := 0 }

end PagePointer

/-- The address of entry `i` of a folder. -/
def entryAddress (folder : UDword) (i : ℕ) : UDword := folder + BitVec.ofNat 32 (4 * i)

end MushOS

namespace ByteMemory

open MushOS

/-- `folder->contents[i]`. -/
def Mem.entry (m : Mem) (folder : UDword) (i : ℕ) : PagePointer :=
  PagePointer.decode (m.read32 (entryAddress folder i))

/-- `folder->contents[i] = p`. -/
def Mem.setEntry (m : Mem) (folder : UDword) (i : ℕ) (p : PagePointer) : Mem :=
  m.write32 (entryAddress folder i) p.encode

end ByteMemory

namespace MushOS

open ByteMemory Loop

/-- `get_contents_as_page` and `get_contents_as_table`: `page.frame * page_size`. -/
def getContentsAsPage (page : PagePointer) : UDword :=
  page.frame.setWidth 32 * BitVec.ofNat 32 pageSize

/-- `(u_dword) address / page_size`, stored into the 20 bits of a frame. -/
def frameOf (address : UDword) : BitVec 20 :=
  (address / BitVec.ofNat 32 pageSize).setWidth 20

/-! ## The two pools -/

/-- A bitmap of `size` bytes. -/
structure Pool (size : ℕ) where
  bytes : Bitmap.Bytes

def pagingPoolSize : ℕ := (0xf00000 - 0x100000) / 0x1000 / 8
def userSpacePoolSize : ℕ := (0x10000000 - 0x1000000) / 0x1000 / 8

/-- The physical memory and the bitmaps. -/
structure Paging where
  mem : Mem
  pagingPool : Pool pagingPoolSize
  userSpacePool : Pool userSpacePoolSize

/-- The lowest clear bit of a byte; `full_byte` when there is none. -/
def getFreeBit (search : UByte) : ℕ :=
  if search = BitVec.ofNat 8 fullByte then fullByte
  else (firstTo (fun i => search &&& (1#8 <<< i) = 0) 8).getD fullByte

/-- The loop the two allocators share: the first byte with a free bit, whose bit is
set; the index of the slot. -/
def takeSlot {size : ℕ} (pool : Pool size) : Option (ℕ × Pool size) :=
  (firstTo (fun i => getFreeBit (pool.bytes i) ≠ fullByte) size).map fun i =>
    let freeBit := getFreeBit (pool.bytes i)
    (i * 8 + freeBit, ⟨Bitmap.setBit pool.bytes i freeBit⟩)

def allocateFrame (s : Paging) : UDword × Paging :=
  match takeSlot s.userSpacePool with
  | some (slot, pool) =>
    (userSpaceStart + BitVec.ofNat 32 (slot * pageSize), { s with userSpacePool := pool })
  | none => (0, s)

def allocatePageFolder (s : Paging) : UDword × Paging :=
  match takeSlot s.pagingPool with
  | some (slot, pool) =>
    let address := pagingPoolStart + BitVec.ofNat 32 (slot * pageSize)
    (address, { s with
      mem := memoryClear address (BitVec.ofNat 32 pageSize) 0 s.mem
      pagingPool := pool })
  | none => (0, s)

/-! ## Cloning -/

def clonePagePointer (page : PagePointer) : PagePointer where
  present := page.present
  rw := page.rw
  user := page.user
  write := page.write
  cache := page.cache
  accessed := page.accessed
  dirty := page.dirty
  zero := page.zero
  global := page.global
  unused := page.unused
  frame := page.frame

/-- `copy_page_physical` of utils.asm: 1024 words, lowest first. -/
def copyPagePhysical (source destination : UDword) (m : Mem) : Mem :=
  loop (fun i m => m.write32 (destination + BitVec.ofNat 32 (4 * i))
    (m.read32 (source + BitVec.ofNat 32 (4 * i)))) 1024 m

/-- Every entry counts, present or not. -/
def containsUserPages (folder : PagePointer) (m : Mem) : Bool :=
  loop (fun i contains => contains || (m.entry (getContentsAsPage folder) i).user)
    pagesInTable false

/-- One iteration of `clone_table`. -/
def cloneTableEntry (src : PagePointer) (table pages : UDword) (i : ℕ) (s : Paging) : Paging :=
  if (s.mem.entry pages i).present = false then s
  else if src.user || (s.mem.entry pages i).user then
    let s := { s with mem := s.mem.setEntry table i (clonePagePointer (s.mem.entry pages i)) }
    let (frame, s) := allocateFrame s
    let s := { s with
      mem := s.mem.setEntry table i { s.mem.entry table i with frame := frameOf frame } }
    { s with
      mem := copyPagePhysical (getContentsAsPage (s.mem.entry pages i))
        (getContentsAsPage (s.mem.entry table i)) s.mem }
  else { s with mem := s.mem.setEntry table i (s.mem.entry pages i) }

def cloneTable (src : PagePointer) (s : Paging) : PagePointer × Paging :=
  let (table, s) := allocatePageFolder s
  let pages := getContentsAsPage src
  let s := loop (cloneTableEntry src table pages) pagesInTable s
  ({ clonePagePointer src with frame := frameOf table }, s)

/-- One iteration of `clone_directory`. -/
def cloneDirectoryEntry (src dir : UDword) (i : ℕ) (s : Paging) : Paging :=
  if (s.mem.entry src i).present = false then s
  else if (s.mem.entry src i).user || containsUserPages (s.mem.entry src i) s.mem then
    let (table, s) := cloneTable (s.mem.entry src i) s
    { s with mem := s.mem.setEntry dir i table }
  else { s with mem := s.mem.setEntry dir i (s.mem.entry src i) }

def cloneDirectory (src : UDword) (s : Paging) : UDword × Paging :=
  let (dir, s) := allocatePageFolder s
  (dir, loop (cloneDirectoryEntry src dir) pagesInTable s)

/-! ## Setting up -/

/-- `create_page_entry`; `garbage` is what the uninitialised local holds. -/
def createPageEntry (garbage : PagePointer) (address : UDword) (isKernel isWriteable : Bool) :
    PagePointer :=
  { garbage with
    frame := frameOf address
    user := if isKernel then false else true
    rw := if isWriteable then true else false
    present := true }

/-- `get_page`: the address of the entry of a page, making its table if asked to;
null beyond the user space, or when the table is not there. -/
def getPage (garbage : PagePointer) (address : UDword) (make : Bool) (dir : UDword)
    (s : Paging) : UDword × Paging :=
  if address > userSpaceEnd then (0, s)
  else
    let page := address.toNat / pageSize
    let tableIdx := page / pagesInTable
    let found (s : Paging) : UDword × Paging :=
      (entryAddress (getContentsAsPage (s.mem.entry dir tableIdx)) (page % pagesInTable), s)
    if getContentsAsPage (s.mem.entry dir tableIdx) ≠ 0 then found s
    else if make then
      let (table, s) := allocatePageFolder s
      found { s with mem := s.mem.setEntry dir tableIdx (createPageEntry garbage table true true) }
    else (0, s)

/-- `stack_pointer` and `stack_size` of kernel.c. -/
def stackPointer : UDword := 0x7000
def stackSize : UDword := 0x5000

def inStack (i : UDword) : Bool := i ≥ stackPointer - stackSize && i < stackPointer

/-- Iteration `n` of the loop of `initialise_paging`, on the page at `n * page_size`;
`garbage k` is what the local of the `k`-th call of `create_page_entry` holds. -/
def mapKernelPage (garbage : ℕ → PagePointer) (dir : UDword) (n : ℕ) (s : Paging) : Paging :=
  let i := BitVec.ofNat 32 (n * pageSize)
  let (page, s) := getPage (garbage (2 * n)) i true dir s
  { s with
    mem := s.mem.write32 page
      (createPageEntry (garbage (2 * n + 1)) i (!inStack i) (inStack i)).encode }

/-- `initialise_paging` up to the interrupt handler and the registers; returns
`kernel_directory`, which becomes `current_directory`. -/
def initialisePaging (garbage : ℕ → PagePointer) (m : Mem) : UDword × Paging :=
  let s : Paging := ⟨m, ⟨fun _ => 0⟩, ⟨fun _ => 0⟩⟩
  let (dir, s) := allocatePageFolder s
  (dir, loop (mapKernelPage garbage dir) (userSpaceStart.toNat / pageSize) s)

end MushOS
