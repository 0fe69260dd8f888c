import MushOS.Kernel.Processor

/-! # disk.asm: reading a disk by polling

`read_disk`, block by block. The drive is an oracle: it shows a value of the status
register at every read of it, and has a stream of words on its data port that depends on
what has been written to its other ports. The stack of the caller is a list of words, so a
buffer in the memory never is a part of it.

Two slips decide what the function does. The number of bytes is shifted left where it
should be divided by the size of a sector, so that the low byte, which is all the drive gets,
is zero, and nothing remains to be drained (`sectors_eq`). And the result is stored 14 bytes
above the stack pointer, which is where a `pusha` of 16-bit registers would have put `ax`: here
that is in the saved stack pointer, which `popa` skips (`leave_spec`).
-/

namespace MushOS

open ByteMemory WordStack

/-! ## Model: the drive -/

/-- What is on the other side of the ports. -/
structure Drive where
  /-- The values of the status register, read after read. -/
  status : ℕ → UByte
  /-- The word on the error port. -/
  error : UWord
  /-- The words on the data port, for what was last written to the other ports. -/
  stream : (UWord → UByte) → ℕ → UWord

structure DiskMachine where
  processor : Processor
  mem : Mem
  ports : UWord → UByte
  statusReads : ℕ
  dataReads : ℕ

namespace DiskMachine

def general (m : DiskMachine) : GeneralRegisters := m.processor.general

def setGeneral (m : DiskMachine) (r : GeneralRegisters) : DiskMachine :=
  { m with processor := { m.processor with general := r } }

def setEax (m : DiskMachine) (w : UDword) : DiskMachine := m.setGeneral { m.general with eax := w }
def setEbx (m : DiskMachine) (w : UDword) : DiskMachine := m.setGeneral { m.general with ebx := w }
def setEcx (m : DiskMachine) (w : UDword) : DiskMachine := m.setGeneral { m.general with ecx := w }
def setEdx (m : DiskMachine) (w : UDword) : DiskMachine := m.setGeneral { m.general with edx := w }
def setEdi (m : DiskMachine) (w : UDword) : DiskMachine := m.setGeneral { m.general with edi := w }

def al (m : DiskMachine) : UByte := m.general.eax.setWidth 8
def ax (m : DiskMachine) : UWord := m.general.eax.setWidth 16
def dx (m : DiskMachine) : UWord := m.general.edx.setWidth 16

def setAl (m : DiskMachine) (b : UByte) : DiskMachine :=
  m.setEax (m.general.eax.extractLsb' 8 24 ++ b)

def setAx (m : DiskMachine) (w : UWord) : DiskMachine :=
  { m with processor := m.processor.setAx w }

def setDx (m : DiskMachine) (w : UWord) : DiskMachine :=
  m.setEdx (m.general.edx.extractLsb' 16 16 ++ w)

/-- `[ebp + i]`. -/
def arg (m : DiskMachine) (i : UDword) : UDword := m.processor.stack.load (m.general.ebp + i)

/-- `out dx, al`. -/
def outAl (m : DiskMachine) : DiskMachine := { m with ports := Function.update m.ports m.dx m.al }

/-- `in al, dx`; the only byte that is read is the status. -/
def inAl (drive : Drive) (m : DiskMachine) : DiskMachine :=
  if m.dx = 0x1f7 then
    { m.setAl (drive.status m.statusReads) with statusReads := m.statusReads + 1 }
  else m.setAl 0xff

/-- The word on the port in `dx`. -/
def inWord (drive : Drive) (m : DiskMachine) : UWord × DiskMachine :=
  if m.dx = 0x1f0 then
    (drive.stream m.ports m.dataReads, { m with dataReads := m.dataReads + 1 })
  else if m.dx = 0x1f1 then (drive.error, m)
  else (0xffff, m)

/-- `in ax, dx`. -/
def inAx (drive : Drive) (m : DiskMachine) : DiskMachine :=
  let (w, m) := m.inWord drive
  m.setAx w

/-! ## Registers -/

section Registers
variable (m : DiskMachine) (w : UDword) (b : UByte)

/-- Writing `eax` leaves the other registers. -/
@[simp] theorem eax_setEax : (m.setEax w).general.eax = w := rfl
@[simp] theorem ebx_setEax : (m.setEax w).general.ebx = m.general.ebx := rfl
@[simp] theorem edx_setEax : (m.setEax w).general.edx = m.general.edx := rfl

/-- The last value written to `ebx` counts. -/
@[simp] theorem setEbx_setEbx (v : UDword) : (m.setEbx v).setEbx w = m.setEbx w := rfl
@[simp] theorem ebx_setEbx : (m.setEbx w).general.ebx = w := rfl

/-- The last value written to `ecx` counts. -/
@[simp] theorem setEcx_setEcx (v : UDword) : (m.setEcx v).setEcx w = m.setEcx w := rfl
@[simp] theorem ecx_setEcx : (m.setEcx w).general.ecx = w := rfl

/-- Writing `ecx` leaves the other registers. -/
@[simp] theorem ebx_setEcx : (m.setEcx w).general.ebx = m.general.ebx := rfl
@[simp] theorem edx_setEcx : (m.setEcx w).general.edx = m.general.edx := rfl
@[simp] theorem edi_setEcx : (m.setEcx w).general.edi = m.general.edi := rfl

/-- Writing `edx` leaves `ebx`. -/
@[simp] theorem ebx_setEdx : (m.setEdx w).general.ebx = m.general.ebx := rfl
@[simp] theorem edx_setEdx : (m.setEdx w).general.edx = w := rfl

/-- Writing `edi` leaves the other registers. -/
@[simp] theorem ebx_setEdi : (m.setEdi w).general.ebx = m.general.ebx := rfl
@[simp] theorem ecx_setEdi : (m.setEdi w).general.ecx = m.general.ecx := rfl
@[simp] theorem edx_setEdi : (m.setEdi w).general.edx = m.general.edx := rfl
@[simp] theorem edi_setEdi : (m.setEdi w).general.edi = w := rfl

/-- Writing `al` leaves the registers other than `eax`. -/
@[simp] theorem ebx_setAl : (m.setAl b).general.ebx = m.general.ebx := rfl
@[simp] theorem edx_setAl : (m.setAl b).general.edx = m.general.edx := rfl

/-- `al` is the low byte of `eax`. -/
theorem al_setEax : (m.setEax w).al = w.setWidth 8 := rfl

/-- `dx` is the low half of `edx`. -/
theorem dx_setEdx : (m.setEdx w).dx = w.setWidth 16 := rfl

/-- Writing another register leaves `dx`. -/
theorem dx_setEcx : (m.setEcx w).dx = m.dx := rfl
theorem dx_setEdi : (m.setEdi w).dx = m.dx := rfl
theorem dx_setEax : (m.setEax w).dx = m.dx := rfl
theorem dx_setAl : (m.setAl b).dx = m.dx := rfl

/-- Writing `dx` leaves `ebx`. -/
theorem ebx_setDx (w : UWord) : (m.setDx w).general.ebx = m.general.ebx := rfl

/-- `dx` reads as it was written. -/
theorem dx_setDx (w : UWord) : (m.setDx w).dx = w := by
  show (m.general.edx.extractLsb' 16 16 ++ w).setWidth 16 = w
  ext i hi
  rw [BitVec.getElem_setWidth, BitVec.getLsbD_append, if_pos hi]
  rfl

/-- `al` reads as it was written. -/
theorem al_setAl : (m.setAl b).al = b := by
  show (m.general.eax.extractLsb' 8 24 ++ b).setWidth 8 = b
  ext i hi
  rw [BitVec.getElem_setWidth, BitVec.getLsbD_append, if_pos hi]
  rfl

end Registers

/-! ## Model: the blocks of `read_disk` -/

/-- From `mov ebx, [ebp+16]` on. -/
def sectors (m : DiskMachine) : DiskMachine :=
  let m := m.setEbx (m.arg 16)
  let m := m.setEbx (m.general.ebx + m.arg 20)
  let m := m.setEbx (m.general.ebx <<< 9)
  if m.general.ebx &&& 0x1ff = 0 then m else m.setEbx (m.general.ebx + 1)

/-- Bits 24 to 27 of the address, and the drive. -/
def sendDrive (m : DiskMachine) : DiskMachine :=
  let m := m.setEdx 0x1f6
  let m := m.setEax (m.arg 8)
  let m := m.setEax (m.general.eax >>> 24)
  (m.setAl (m.al ||| 0xe0)).outAl

def sendCount (m : DiskMachine) : DiskMachine :=
  let m := m.setEdx 0x1f2
  (m.setAl (m.general.ebx.setWidth 8)).outAl

/-- Eight bits of the address; for the first ones there is no `shr`. -/
def sendLba (port : UDword) (shift : ℕ) (m : DiskMachine) : DiskMachine :=
  let m := m.setEdx port
  let m := m.setEax (m.arg 8)
  (m.setEax (m.general.eax >>> shift)).outAl

def sendCommand (m : DiskMachine) : DiskMachine :=
  let m := m.setEdx 0x1f7
  (m.setAl 0x20).outAl

def setupReading (m : DiskMachine) : DiskMachine :=
  let m := m.sendDrive.sendCount
  let m := ((m.sendLba 0x1f3 0).sendLba 0x1f4 8).sendLba 0x1f5 16
  m.sendCommand

/-- The labels `.busy` jumps to. -/
inductive BusyExit where
  | ready
  | generalError
  | driveFaultError
deriving DecidableEq, Repr

def busy (drive : Drive) : ℕ → DiskMachine → Option (BusyExit × DiskMachine)
  | 0, _ => none
  | fuel + 1, m =>
    let m := m.inAl drive
    if m.al &&& 0x80 = 0 then some (.ready, m)
    else if m.al &&& 0x1 ≠ 0 then some (.generalError, m)
    else if m.al &&& 0x20 ≠ 0 then some (.driveFaultError, m)
    else busy drive fuel m

def generalError (drive : Drive) (m : DiskMachine) : DiskMachine := (m.setDx 0x1f1).inAx drive

def driveFaultError (m : DiskMachine) : DiskMachine := m.setAx 0x10

/-- The loop of `.ready`. -/
def ready (drive : Drive) : ℕ → DiskMachine → Option DiskMachine
  | 0, _ => none
  | fuel + 1, m =>
    let m := m.inAl drive
    if m.al &&& 0x8 = 0 then ready drive fuel m else some m

/-- `n` iterations of `in ax, dx` and `loop`. -/
def dumpLoop (drive : Drive) : ℕ → DiskMachine → DiskMachine
  | 0, m => m
  | n + 1, m =>
    let m := m.inAx drive
    dumpLoop drive n (m.setEcx (m.general.ecx - 1))

/-- `insw`, forward. -/
def insw (drive : Drive) (m : DiskMachine) : DiskMachine :=
  let (w, m) := m.inWord drive
  let edi := m.general.edi
  let m := { m with
    mem := (m.mem.write8 edi (w.extractLsb' 0 8)).write8 (edi + 1) (w.extractLsb' 8 8) }
  m.setEdi (edi + 2)

/-- `n` iterations of `rep insw`. -/
def repInsw (drive : Drive) : ℕ → DiskMachine → DiskMachine
  | 0, m => m
  | n + 1, m =>
    let m := m.insw drive
    repInsw drive n (m.setEcx (m.general.ecx - 1))

/-- `.dump_offset` and what leads to it. -/
def dumpOffset (drive : Drive) (m : DiskMachine) : DiskMachine :=
  let m := m.setDx 0x1f0
  let m := m.setEcx (m.arg 20)
  let m := m.setEcx (m.general.ecx >>> 1)
  if m.general.ecx = 0 then m else dumpLoop drive m.general.ecx.toNat m

/-- `.write_data`, up to the `rep`. -/
def writeData (drive : Drive) (m : DiskMachine) : DiskMachine :=
  let m := m.setEcx (m.arg 16)
  let m := m.setEcx (m.general.ecx >>> 1)
  let m := m.setEdi (m.arg 24)
  repInsw drive m.general.ecx.toNat m

/-- `.dump_remains` and what leads to it. -/
def dumpRemains (drive : Drive) (m : DiskMachine) : DiskMachine :=
  let m := m.setEcx m.general.ebx
  let m := m.setEcx (m.general.ecx >>> 9)
  let m := m.setEcx (m.general.ecx - m.arg 16)
  let m := m.setEcx (m.general.ecx - m.arg 20)
  let m := m.setEcx (m.general.ecx >>> 1)
  if m.general.ecx = 0 then m else (dumpLoop drive m.general.ecx.toNat m).setAx 0

/-- `mov [esp+14], ax`: the upper half of the word at `esp + 12`. -/
def storeAx (m : DiskMachine) : DiskMachine :=
  let s := m.processor.stack
  let a := s.top + 12
  { m with processor := { m.processor with stack := s.store a (m.ax ++ (s.load a).setWidth 16) } }

/-- `.return`. -/
def leave (m : DiskMachine) : DiskMachine :=
  let p := m.storeAx.processor.popa
  { m with processor := (p.setEsp p.general.ebp).popEbp.ret }

/-- `push ebp`, `mov ebp, esp` and `pusha`. -/
def enter (m : DiskMachine) : DiskMachine :=
  let p := m.processor.push m.general.ebp
  let p := { p with general := { p.general with ebp := p.stack.top } }
  { m with processor := p.pusha }

end DiskMachine

open DiskMachine

/-- `read_disk`, from its first instruction to its `ret`; the loops that poll may not end. -/
def readDisk (drive : Drive) (fuel : ℕ) (m : DiskMachine) : Option DiskMachine := do
  let (label, m) ← busy drive fuel m.enter.sectors.setupReading
  match label with
  | .ready =>
    let m ← ready drive fuel m
    return (dumpRemains drive (writeData drive (dumpOffset drive m))).leave
  | .generalError => return (generalError drive m).leave
  | .driveFaultError => return (driveFaultError m).leave

/-! ## The call -/

/-- What the caller has pushed. -/
structure DiskCall where
  ret : UDword
  address : UDword
  slaveDrive : UDword
  length : UDword
  offset : UDword
  buffer : UDword

def DiskCall.arguments (c : DiskCall) : List UDword :=
  [c.address, c.slaveDrive, c.length, c.offset, c.buffer]

/-- `read_disk` has five arguments. -/
theorem DiskCall.length_arguments (c : DiskCall) : c.arguments.length = 5 := rfl

/-- The processor at the first instruction of `read_disk`. -/
def DiskCall.entry (c : DiskCall) (p : Processor) : Processor :=
  p.pushAll (c.ret :: c.arguments)

/-- The processor after `ret`, with the registers as before. -/
def DiskCall.exit (c : DiskCall) (p : Processor) : Processor :=
  { p.pushAll c.arguments with eip := c.ret }

namespace DiskMachine

/-- Of the processor, only registers other than `ebp` and `esp` have changed. -/
structure Keeps (m m' : DiskMachine) : Prop where
  processor : m'.processor = { m.processor with general := m'.general }
  ebp : m'.general.ebp = m.general.ebp

/-- Nothing but such registers has changed. -/
structure Computes (m m' : DiskMachine) : Prop extends Keeps m m' where
  mem : m'.mem = m.mem
  ports : m'.ports = m.ports
  statusReads : m'.statusReads = m.statusReads
  dataReads : m'.dataReads = m.dataReads

section Frame
variable {m m' m'' : DiskMachine} {c : DiskCall} {p : Processor} {drive : Drive} {n fuel : ℕ}

/-- Two steps that keep `ebp` and the stack. -/
theorem Keeps.trans (h : Keeps m m') (h' : Keeps m' m'') : Keeps m m'' := by
  refine ⟨?_, h'.ebp.trans h.ebp⟩
  rw [h'.processor, h.processor]

/-- The arguments are where they were. -/
theorem Keeps.arg (h : Keeps m m') (i : UDword) : m'.arg i = m.arg i := by
  unfold DiskMachine.arg
  rw [h.ebp, h.processor]

/-- Two steps that compute in registers. -/
theorem Computes.trans (h : Computes m m') (h' : Computes m' m'') : Computes m m'' :=
  ⟨h.toKeeps.trans h'.toKeeps, h'.mem.trans h.mem, h'.ports.trans h.ports,
    h'.statusReads.trans h.statusReads, h'.dataReads.trans h.dataReads⟩

/-- A write to any registers but `ebp`. -/
theorem computes_setGeneral {r : GeneralRegisters} (hebp : r.ebp = m.general.ebp) :
    Computes m (m.setGeneral r) := ⟨⟨rfl, hebp⟩, rfl, rfl, rfl, rfl⟩

section Computes
variable (m : DiskMachine) (w : UDword) (b : UByte)

/-- A register that is not `ebp` is written. -/
theorem computes_setEax : Computes m (m.setEax w) := computes_setGeneral rfl
theorem computes_setEbx : Computes m (m.setEbx w) := computes_setGeneral rfl
theorem computes_setEcx : Computes m (m.setEcx w) := computes_setGeneral rfl
theorem computes_setEdx : Computes m (m.setEdx w) := computes_setGeneral rfl
theorem computes_setEdi : Computes m (m.setEdi w) := computes_setGeneral rfl

/-- The same of a part of one. -/
theorem computes_setAl : Computes m (m.setAl b) := computes_setEax m _
theorem computes_setAx (w : UWord) : Computes m (m.setAx w) := computes_setEax m _
theorem computes_setDx (w : UWord) : Computes m (m.setDx w) := computes_setEdx m _

/-- The arguments after a write to `ecx`. -/
theorem arg_setEcx (i : UDword) : (m.setEcx w).arg i = m.arg i := (computes_setEcx m w).arg i

end Computes

/-- The words `pusha` has pushed. -/
def savedRegisters (c : DiskCall) (p : Processor) : List UDword :=
  let r := p.general
  let top := (p.stack.pushAll (r.ebp :: c.ret :: c.arguments)).top
  [r.edi, r.esi, top, top, r.ebx, r.edx, r.ecx, r.eax]

/-- The processor after the first instructions: `ebp` points at the frame, and all registers are
pushed. -/
theorem enter_processor (hp : m.processor = c.entry p) : m.enter.processor =
    { p with
      stack :=
          (p.stack.pushAll (p.general.ebp :: c.ret :: c.arguments)).pushAll (savedRegisters c p)
      general := { p.general with
        ebp := (p.stack.pushAll (p.general.ebp :: c.ret :: c.arguments)).top } } := by
  unfold DiskMachine.enter DiskMachine.general
  rw [hp]
  rfl

/-- Argument `i` of the call. -/
theorem arg_enter (hp : m.processor = c.entry p) {i : ℕ} (hi : i < c.arguments.length) :
    m.enter.arg (BitVec.ofNat 32 (4 * (i + 2))) = c.arguments[i] := by
  have hlength := c.length_arguments
  unfold DiskMachine.arg DiskMachine.general
  rw [enter_processor hp]
  show Stack.load _ (Stack.slot _ 0 + BitVec.ofNat 32 (4 * (i + 2))) = _
  rw [Stack.slot_add, Stack.load_append]
  · simp [Stack.pushAll, hi]
  · simp [Stack.pushAll]
    omega
  · unfold savedRegisters
    simp
    omega

/-- A store among the words that were pushed last. -/
theorem store_slot_pushAll {s : Stack} {ws : List UDword} {i : ℕ} (hi : i < ws.length)
    (hlt : i < 2 ^ 30) (w : UDword) :
    (s.pushAll ws).store ((s.pushAll ws).slot i) w = s.pushAll (ws.set i w) := by
  have hi' : i < (s.pushAll ws).words.length := by
    unfold Stack.pushAll
    rw [List.length_append]
    omega
  rw [Stack.store_slot hi' hlt]
  unfold Stack.pushAll
  rw [List.set_append_left _ _ hi]

/-- **`.return`**: wherever the registers have been, they are back, `eax` with them. -/
theorem leave_spec (hp : m.processor = c.entry p) (hkeeps : Keeps m.enter m') :
    m'.leave = { m' with processor := c.exit p } := by
  have hprocessor := hkeeps.processor
  rw [enter_processor hp] at hprocessor
  have hslot : m'.processor.stack.top + 12 = m'.processor.stack.slot 3 :=
    Stack.slot_add m'.processor.stack 0 3
  -- the word that is changed is the saved stack pointer
  have hstored : ∃ w, m'.storeAx.processor = { m'.processor with
      stack := (p.stack.pushAll (p.general.ebp :: c.ret :: c.arguments)).pushAll
        ((savedRegisters c p).set 3 w) } := by
    unfold DiskMachine.storeAx
    simp only [hslot]
    rw [hprocessor]
    have hlength : 3 < (savedRegisters c p).length := by simp [savedRegisters]
    simp only [store_slot_pushAll hlength (by decide)]
    exact ⟨_, rfl⟩
  rcases hstored with ⟨w, hstored⟩
  have hwords : (savedRegisters c p).set 3 w = [p.general.edi, p.general.esi,
      (p.stack.pushAll (p.general.ebp :: c.ret :: c.arguments)).top, w, p.general.ebx,
      p.general.edx, p.general.ecx, p.general.eax] := rfl
  rw [hwords] at hstored
  -- `popa`, `mov esp, ebp`, `pop ebp` and `ret`
  let p₁ : Processor := { m'.storeAx.processor with
    general := { p.general with
      ebp := (p.stack.pushAll (p.general.ebp :: c.ret :: c.arguments)).top }
    stack := p.stack.pushAll (p.general.ebp :: c.ret :: c.arguments) }
  have hpopa : m'.storeAx.processor.popa = p₁ :=
    Processor.popa_of_stack (congrArg Processor.stack hstored)
  have hesp : p₁.setEsp p₁.general.ebp = p₁ := Processor.setEsp_of_top rfl
  have hebp : p₁.popEbp = { p₁ with
      general := p.general, stack := p.stack.pushAll (c.ret :: c.arguments) } :=
    Processor.popEbp_of_stack rfl
  have hret : p₁.popEbp.ret = { p₁ with
      general := p.general, eip := c.ret, stack := p.stack.pushAll c.arguments } := by
    rw [hebp]
    exact Processor.ret_of_stack rfl
  have hexit : p₁.popEbp.ret = c.exit p := by
    rw [hret]
    show ({ m'.storeAx.processor with
      general := p.general, eip := c.ret, stack := p.stack.pushAll c.arguments } : Processor) = _
    rw [hstored, hprocessor]
    rfl
  unfold leave
  simp only [hpopa, hesp, hexit]

end Frame

end DiskMachine

end MushOS
