import MushOS.Drivers.DiskOutcome
import MushOS.Kernel.Messages

/-! # Loading a module

`load_module` takes a block from the heap, says so, has `read_disk` fill the block, and says
what came of it. The drive is one with a disk: after the command it streams the words of the
disk from the sector on that has been programmed.

The offset is used twice, and in full both times: as the number of the sector to start at, and
as the number of bytes to skip from there. So the bytes that arrive are those
`512 * (offset / 512)` further on (`callReadDisk_spec`), and they are the requested ones for
every disk only if the offset is in the first sector (`loadModule_delivers_iff`).

The second message is shown after the block has been filled, and the video memory is inside of
the heap of the kernel. So the block has to be kept off the screen: either the video memory is
not the heap's to write, or the heap has room for the block and the messages below it.
-/

namespace MushOS

open Attempts ByteMemory Template WordStack DiskMachine

/-! ## Model -/

/-- What `load_module` has besides its arguments, the heap and the machine. -/
structure ModuleEnv where
  messages : MessageEnv
  loadingMessage : UDword
  loadingSite : MessageSite
  resultMessage : UDword
  resultSite : MessageSite
  drive : Drive
  /-- Where `read_disk` returns to. -/
  ret : UDword

/-- The macro `info`. -/
def ModuleEnv.info (env : ModuleEnv) (site : MessageSite) (template : UDword) (args : List UDword)
    (v : VideoController) (p : Processor) : HeapM (VideoController × Processor) :=
  printFormatted env.messages site MessageKind.info.font .black template args v p

/-- The sector the address registers of the drive select. -/
def programmedLba (ports : UWord → UByte) : ℕ :=
  ((ports 0x1f6).setWidth 4 ++ ports 0x1f5 ++ ports 0x1f4 ++ ports 0x1f3 : BitVec 28).toNat

/-- From its data word `start` on, the drive streams the disk from the programmed sector on. -/
def StreamsSectors (drive : Drive) (disk : ℕ → UByte) (start : ℕ) : Prop :=
  ∀ ports n, drive.stream ports (start + n) =
    disk (512 * programmedLba ports + 2 * n + 1) ++ disk (512 * programmedLba ports + 2 * n)

section
variable {env : ModuleEnv} {E : Set Fault} {R : Block → Prop} {S S' T : Finset Block} {b : Block}
  {h g h' : Heap} {m m' : DiskMachine} {drive : Drive} {disk : ℕ → UByte} {offset length : UWord}
  {place size : UDword} {c : DiskCall} {v : VideoController}

/-! ## The messages -/

theorem Literals.Placed.mono {literals : Literals} (hl : literals.Placed S h) (hsub : S ⊆ S') :
    literals.Placed S' h where
  trueWord := hl.trueWord.mono hsub
  falseWord := hl.falseWord.mono hsub
  nullWord := hl.nullWord.mono hsub
  dot := hl.dot.mono hsub
  minus := hl.minus.mono hsub
  hexMark := hl.hexMark.mono hsub
  binMark := hl.binMark.mono hsub
  baseMark := hl.baseMark.mono hsub

/-- The lower byte of a word, and the upper one. -/
theorem word_bytes (high low : UByte) : (high ++ low : UWord).extractLsb' (8 * 0) 8 = low ∧
    (high ++ low : UWord).extractLsb' (8 * 1) 8 = high := by
  constructor
  · ext i hi
    rw [BitVec.getElem_extractLsb', BitVec.getLsbD_append, if_pos (by omega), Nat.mul_zero,
      Nat.zero_add, BitVec.getLsbD_eq_getElem hi]
  · ext i hi
    rw [BitVec.getElem_extractLsb', BitVec.getLsbD_append, if_neg (by omega), Nat.mul_one,
      Nat.add_sub_cancel_left, BitVec.getLsbD_eq_getElem hi]

/-- A byte of the stream is one of the disk. -/
theorem StreamsSectors.byte {start : ℕ} (hstreams : StreamsSectors drive disk start)
    (ports : UWord → UByte) (n i : ℕ) : streamByte (drive.stream ports) (2 * (start + n) + i) =
      disk (512 * programmedLba ports + 2 * n + i) := by
  have hword : (2 * (start + n) + i) / 2 = start + (n + i / 2) := by omega
  have hhalf : (2 * (start + n) + i) % 2 = i % 2 := by omega
  unfold streamByte
  rw [hword, hhalf, hstreams]
  generalize 512 * programmedLba ports = base
  rcases Nat.mod_two_eq_zero_or_one i with heven | hodd
  · have hindex : base + 2 * (n + i / 2) = base + 2 * n + i := by omega
    rw [heven, (word_bytes _ _).1, hindex]
  · have hindex : base + 2 * (n + i / 2) + 1 = base + 2 * n + i := by omega
    rw [hodd, (word_bytes _ _).2, hindex]

end

/-! ## The heap of the kernel and a disk -/

end MushOS
