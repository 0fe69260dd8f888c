import MushOS.Base.Live

/-! # The kernel image: what the build accepts and what the boot loader loads

Three files have to agree on where the kernel is:

* `core/CMakeLists.txt` gives each section a start address and a size limit, as
  hexadecimal digits;
* `scripts/check_kernel_sectors.py` reads them and fails the build of a kernel whose
  sections are elsewhere or too large;
* `core/boot/loader.asm` reads 80 sectors to `0x8000`.

The limits keep the sections apart and away from the heap, but that of `.text` goes up
to `0x30000` while the loader stops at `0x12000`. `accepted_loaded_iff` says which of
the kernels that pass the checks are loaded as a whole.
-/

namespace MushOS

/-! ## Sections one after another -/

/-- A section as `lief` reports it. -/
structure Section where
  name : String
  virtualAddress : ℕ
  size : ℕ
deriving DecidableEq, Repr

/-- Where a section should start, and what its size should stay below. -/
structure Slot where
  name : String
  start : ℕ
  limit : ℕ
deriving DecidableEq, Repr

namespace Section

/-- The first address after the section. -/
def stop (s : Section) : ℕ := s.virtualAddress + s.size

def Disjoint (s t : Section) : Prop := s.stop ≤ t.virtualAddress ∨ t.stop ≤ s.virtualAddress

/-- The section starts where its slot does, and does not fill it. -/
def In (s : Section) (slot : Slot) : Prop :=
  s.virtualAddress = slot.start ∧ s.size < slot.limit

theorem In.stop_lt {s : Section} {slot : Slot} (h : s.In slot) :
    s.stop < slot.start + slot.limit := by
  rcases h with ⟨hstart, hsize⟩
  unfold stop
  omega

end Section

/-- Slots that do not overlap keep their sections apart, whatever the sizes. -/
theorem pairwise_disjoint_of_slots {sections : List Section} {slots : List Slot}
    (hin : List.Forall₂ Section.In sections slots)
    (hslots : slots.Pairwise fun a b => a.start + a.limit ≤ b.start) :
    sections.Pairwise Section.Disjoint := by
  induction hin with
  | nil => exact List.Pairwise.nil
  | @cons s slot sections slots hs hrest ih =>
    rw [List.pairwise_cons] at hslots
    refine List.pairwise_cons.mpr ⟨fun t ht => ?_, ih hslots.2⟩
    obtain ⟨slot', hslot', htin⟩ : ∃ slot' ∈ slots, t.In slot' := by
      obtain ⟨i, hi, rfl⟩ := List.getElem_of_mem ht
      have hlen := hrest.length_eq
      exact ⟨slots[i], List.getElem_mem _, hrest.get hi (by omega)⟩
    have hlt := hs.stop_lt
    have hle := hslots.1 slot' hslot'
    left
    rw [htin.1]
    omega

/-! ## check_kernel_sectors.py -/

/-- An executable as `lief` parses it: `get_section(name)`, or `none` when `has_section(name)`
is false. -/
structure Binary where
  getSection : String → Option Section

def hexDigit (c : Char) : Option ℕ :=
  if '0' ≤ c ∧ c ≤ '9' then some (c.toNat - '0'.toNat)
  else if 'a' ≤ c ∧ c ≤ 'f' then some (c.toNat - 'a'.toNat + 10)
  else if 'A' ≤ c ∧ c ≤ 'F' then some (c.toNat - 'A'.toNat + 10)
  else none

/-- Digits after those of `value`, with single underscores between them. -/
def digitsBase16 (value : ℕ) : List Char → Option ℕ
  | [] => none
  | [c] => (hexDigit c).map (16 * value + ·)
  | c :: '_' :: cs => (hexDigit c).bind fun d => digitsBase16 (16 * value + d) cs
  | c :: cs => (hexDigit c).bind fun d => digitsBase16 (16 * value + d) cs

/-- The blanks `int` strips from both ends. -/
def isBlank (c : Char) : Bool :=
  c = ' ' || 9 ≤ c.toNat && c.toNat ≤ 13 || 28 ≤ c.toNat && c.toNat ≤ 31

/-- The digits after `0x` or `0X`, which an underscore may follow. -/
def dropMark : List Char → List Char
  | '0' :: x :: cs =>
    if x = 'x' ∨ x = 'X' then
      match cs with
      | '_' :: cs => cs
      | cs => cs
    else '0' :: x :: cs
  | cs => cs

/-- `int(text, base=16)` of an ASCII string; `none` is a `ValueError`. -/
def intBase16 (text : String) : Option ℤ :=
  let cs := ((text.toList.dropWhile isBlank).reverse.dropWhile isBlank).reverse
  match cs with
  | '-' :: cs => (digitsBase16 0 (dropMark cs)).map fun n => -(n : ℤ)
  | '+' :: cs => (digitsBase16 0 (dropMark cs)).map fun n => (n : ℤ)
  | cs => (digitsBase16 0 (dropMark cs)).map fun n => (n : ℤ)

/-- The arguments `int` accepts and those it does not. -/
example : ["B00", " 0xB_00", "-1f", "0x", "1__0"].map intBase16 =
    [some 0xb00, some 0xb00, some (-0x1f), none, none] := by decide

/-- `hex(value)`. -/
def hex (value : ℕ) : String := "0x" ++ String.ofList (Nat.toDigits 16 value)

/-- `exit` with the message in red. -/
def error (message : String) : Except String Unit :=
  .error ("\x1b[1;31m" ++ message ++ "\x1b[0m")

def valueError : Except String ℤ := .error "ValueError"

/-- `int(argument, base=16)`. -/
def hexArgument (argument : String) : Except String ℤ :=
  match intBase16 argument with
  | some value => .ok value
  | none => valueError

/-- The script, for the files that can be opened. -/
def checkKernelSectors (files : String → Option Binary) (name address size file : String) :
    Except String Unit :=
  match files file with
  | none => error ("File `" ++ file ++ "` can not be opened")
  | some binary =>
    match binary.getSection name with
    | none => error ("Section `" ++ name ++ "` is not present")
    | some s => do
      let address ← hexArgument address
      if (s.virtualAddress : ℤ) ≠ address then
        error ("Section `" ++ name ++ "` has unexpected address: 0x" ++ hex s.virtualAddress)
      let limit ← hexArgument size
      if (s.size : ℤ) ≥ limit then
        error ("Section `" ++ name ++ "` size too big: " ++ hex s.size ++ " >= 0x" ++ size)

/-! ## CMakeLists.txt -/

def kernelMaxGotPlt : String := "100"
def kernelMaxData : String := "400"
def kernelMaxBss : String := "1000"
def kernelMaxRodata : String := "B00"
def kernelMaxText : String := "26000"

def kernelStartGotPlt : String := "8000"
def kernelStartData : String := "8100"
def kernelStartBss : String := "8500"
def kernelStartRodata : String := "9500"
def kernelStartText : String := "A000"

/-- The five commands after the build of the kernel: the first that fails fails it. -/
def checkKernel (files : String → Option Binary) (file : String) : Except String Unit := do
  checkKernelSectors files ".got.plt" kernelStartGotPlt kernelMaxGotPlt file
  checkKernelSectors files ".data" kernelStartData kernelMaxData file
  checkKernelSectors files ".bss" kernelStartBss kernelMaxBss file
  checkKernelSectors files ".rodata" kernelStartRodata kernelMaxRodata file
  checkKernelSectors files ".text" kernelStartText kernelMaxText file

/-- The numbers the script makes of the digits. -/
def kernelSlots : List Slot :=
  [⟨".got.plt", 0x8000, 0x100⟩, ⟨".data", 0x8100, 0x400⟩, ⟨".bss", 0x8500, 0x1000⟩,
    ⟨".rodata", 0x9500, 0xb00⟩, ⟨".text", 0xa000, 0x26000⟩]

def Binary.kernelSections (binary : Binary) : List Section :=
  kernelSlots.filterMap fun slot => binary.getSection slot.name

/-! ## loader.asm -/

/-- `KERNEL_OFFSET`, and what is in `dh` when `read_disk` is called. -/
def kernelOffset : ℕ := 0x8000
def kernelSectors : ℕ := 80

def sectorSize : ℕ := 512

/-- The addresses the loader fills from the disk. -/
def loaded : Set ℕ :=
  {a | kernelOffset ≤ a ∧ a < kernelOffset + kernelSectors * sectorSize}

/-- The addresses of the bytes of the flat image: it starts at `KERNEL_OFFSET`, and goes
up to the end of the last section that is not empty, gaps included. -/
def Binary.flatImage (binary : Binary) : Set ℕ :=
  {a | kernelOffset ≤ a ∧ ∃ s ∈ binary.kernelSections, 0 < s.size ∧ a < s.stop}

/-- The sections are disjoint and below the kernel heap, and all of them is loaded. -/
structure Binary.FullyLoaded (binary : Binary) : Prop where
  disjoint : binary.kernelSections.Pairwise Section.Disjoint
  belowHeap : ∀ s ∈ binary.kernelSections, s.stop ≤ kernelHeapStart.toNat
  loaded : binary.flatImage ⊆ loaded

/-! ## What the checks say -/

section Checks
variable {files : String → Option Binary} {file name address size : String} {binary : Binary}

theorem checkKernelSectors_ok {start limit : ℕ} (hfile : files file = some binary)
    (hstart : intBase16 address = some (start : ℤ)) (hlimit : intBase16 size = some (limit : ℤ))
    (hok : checkKernelSectors files name address size file = .ok ()) :
    ∃ s, binary.getSection name = some s ∧ s.In ⟨name, start, limit⟩ := by
  unfold checkKernelSectors at hok
  cases hsection : binary.getSection name with
  | none => simp [hfile, hsection, error] at hok
  | some s =>
    simp only [hfile, hsection, hexArgument, hstart, hlimit] at hok
    by_cases hat : s.virtualAddress = start
    · by_cases hsize : s.size < limit
      · exact ⟨s, rfl, hat, hsize⟩
      · have hlarge : limit ≤ s.size := by omega
        simp [hat, hlarge, error, bind, Except.bind] at hok
    · simp [hat, error, bind, Except.bind] at hok

/-- The five scripts on the numbers of the CMake file: each section is in its slot. -/
theorem checkKernel_ok (hfile : files file = some binary)
    (hok : checkKernel files file = .ok ()) :
    ∀ slot ∈ kernelSlots, ∃ s, binary.getSection slot.name = some s ∧ s.In slot := by
  -- the build goes on only after a check that has succeeded
  have hthen : ∀ {x y : Except String Unit}, (x >>= fun _ => y) = .ok () →
      x = .ok () ∧ y = .ok () := by
    intro x y h
    cases x with
    | error message => cases h
    | ok u => exact ⟨rfl, h⟩
  unfold checkKernel at hok
  rcases hthen hok with ⟨hok₁, hok⟩
  rcases hthen hok with ⟨hok₂, hok⟩
  rcases hthen hok with ⟨hok₃, hok⟩
  rcases hthen hok with ⟨hok₄, hok₅⟩
  have hgotPlt : intBase16 kernelStartGotPlt = some 0x8000 ∧
      intBase16 kernelMaxGotPlt = some 0x100 := by decide
  have hdata : intBase16 kernelStartData = some 0x8100 ∧
      intBase16 kernelMaxData = some 0x400 := by decide
  have hbss : intBase16 kernelStartBss = some 0x8500 ∧
      intBase16 kernelMaxBss = some 0x1000 := by decide
  have hrodata : intBase16 kernelStartRodata = some 0x9500 ∧
      intBase16 kernelMaxRodata = some 0xb00 := by decide
  have htext : intBase16 kernelStartText = some 0xa000 ∧
      intBase16 kernelMaxText = some 0x26000 := by decide
  intro slot hslot
  unfold kernelSlots at hslot
  simp only [List.mem_cons, List.not_mem_nil, or_false] at hslot
  rcases hslot with rfl | rfl | rfl | rfl | rfl
  · exact checkKernelSectors_ok hfile hgotPlt.1 hgotPlt.2 hok₁
  · exact checkKernelSectors_ok hfile hdata.1 hdata.2 hok₂
  · exact checkKernelSectors_ok hfile hbss.1 hbss.2 hok₃
  · exact checkKernelSectors_ok hfile hrodata.1 hrodata.2 hok₄
  · exact checkKernelSectors_ok hfile htext.1 htext.2 hok₅

theorem mem_kernelSections {s : Section} :
    s ∈ binary.kernelSections ↔ ∃ slot ∈ kernelSlots, binary.getSection slot.name = some s :=
  List.mem_filterMap

theorem forall₂_filterMap {slots : List Slot}
    (hin : ∀ slot ∈ slots, ∃ s, binary.getSection slot.name = some s ∧ s.In slot) :
    List.Forall₂ Section.In (slots.filterMap fun slot => binary.getSection slot.name) slots := by
  induction slots with
  | nil => exact .nil
  | cons slot slots ih =>
    rw [List.forall_mem_cons] at hin
    rcases hin with ⟨⟨s, hget, hs⟩, hrest⟩
    have hcons : (slot :: slots).filterMap (fun slot => binary.getSection slot.name) =
        s :: slots.filterMap fun slot => binary.getSection slot.name :=
      List.filterMap_cons_some hget
    rw [hcons]
    exact .cons hs (ih hrest)

end Checks

/-! ## What is loaded -/

/-- The bytes of the slot of `.text` that the loader reads. -/
def loadedText : ℕ := 0x8000

/-- The sections of an accepted kernel are disjoint and below the heap, whatever their
sizes. -/
theorem accepted_apart {files : String → Option Binary} {file : String} {binary : Binary}
    (hfile : files file = some binary) (hok : checkKernel files file = .ok ()) :
    binary.kernelSections.Pairwise Section.Disjoint ∧
      ∀ s ∈ binary.kernelSections, s.stop ≤ kernelHeapStart.toNat := by
  have hin := checkKernel_ok hfile hok
  have hslots : kernelSlots.Pairwise fun a b => a.start + a.limit ≤ b.start := by decide
  have hheap : ∀ slot ∈ kernelSlots, slot.start + slot.limit ≤ kernelHeapStart.toNat := by decide
  refine ⟨pairwise_disjoint_of_slots (forall₂_filterMap hin) hslots, fun s hs => ?_⟩
  rcases mem_kernelSections.mp hs with ⟨slot, hslot, hget⟩
  rcases hin slot hslot with ⟨s', hget', hs'⟩
  rcases Option.some.inj (hget'.symm.trans hget) with rfl
  have hlt := hs'.stop_lt
  have hle := hheap slot hslot
  omega

/-- **Which of the kernels the build accepts are loaded**: those whose `.text` is no
longer than what the loader reads of its slot. -/
theorem accepted_loaded_iff {files : String → Option Binary} {file : String} {binary : Binary}
    (hfile : files file = some binary) (hok : checkKernel files file = .ok ()) :
    binary.FullyLoaded ↔ ∀ s, binary.getSection ".text" = some s → s.size ≤ loadedText := by
  have hin := checkKernel_ok hfile hok
  have htext : (⟨".text", 0xa000, 0x26000⟩ : Slot) ∈ kernelSlots := by decide
  constructor
  · intro hfull s hget
    rcases hin _ htext with ⟨s', hget', hstart, -⟩
    rcases Option.some.inj (hget'.symm.trans hget) with rfl
    have hstart : s'.virtualAddress = 0xa000 := hstart
    by_contra hlong
    -- the byte at 0x12000 is in the image, and beyond the last sector
    have hmem : 0x12000 ∈ binary.flatImage := by
      refine ⟨by decide, s', mem_kernelSections.mpr ⟨_, htext, hget'⟩, by omega, ?_⟩
      unfold Section.stop
      unfold loadedText at hlong
      omega
    exact absurd (hfull.loaded hmem).2 (by decide)
  · intro hshort
    rcases accepted_apart hfile hok with ⟨hdisjoint, hbelow⟩
    refine ⟨hdisjoint, hbelow, ?_⟩
    rintro a ⟨hlo, s, hs, -, hlt⟩
    refine ⟨hlo, lt_of_lt_of_le hlt ?_⟩
    rcases mem_kernelSections.mp hs with ⟨slot, hslot, hget⟩
    rcases hin slot hslot with ⟨s', hget', hs'⟩
    rcases Option.some.inj (hget'.symm.trans hget) with rfl
    have hothers : ∀ slot ∈ kernelSlots, slot.name = ".text" ∧ slot.start = 0xa000 ∨
        slot.start + slot.limit ≤ kernelOffset + kernelSectors * sectorSize := by decide
    rcases hothers slot hslot with ⟨hname, hstart⟩ | hle
    · rw [hname] at hget
      have hsize := hshort s' hget
      rw [Section.stop, hs'.1, hstart]
      unfold loadedText at hsize
      unfold kernelOffset kernelSectors sectorSize
      omega
    · exact hs'.stop_lt.le.trans hle

/-! ## A kernel of 160 kilobytes -/

/-- A kernel with `text` bytes of code, and sixteen bytes in every other section. -/
def sampleKernel (text : ℕ) : Binary where
  getSection name := [⟨".got.plt", 0x8000, 16⟩, ⟨".data", 0x8100, 16⟩, ⟨".bss", 0x8500, 16⟩,
    ⟨".rodata", 0x9500, 16⟩, ⟨".text", 0xa000, text⟩].find? fun s : Section => s.name = name

def sampleFiles (text : ℕ) : String → Option Binary := fun _ => some (sampleKernel text)

theorem sample_loaded : (sampleKernel 0x8000).FullyLoaded := by
  have hok : checkKernel (sampleFiles 0x8000) "MushCore_kernel.elf" = .ok () := by decide
  have hfile : sampleFiles 0x8000 "MushCore_kernel.elf" = some (sampleKernel 0x8000) := rfl
  refine (accepted_loaded_iff hfile hok).mpr ?_
  intro s hs
  have htext : (sampleKernel 0x8000).getSection ".text" = some ⟨".text", 0xa000, 0x8000⟩ := by
    decide
  rcases Option.some.inj (hs.symm.trans htext) with rfl
  decide

/-- With 0x20000 bytes of code all checks pass, and the code from 0x12000 on is not there. -/
theorem accepted_not_loaded :
    checkKernel (sampleFiles 0x20000) "MushCore_kernel.elf" = .ok () ∧
      ¬ (sampleKernel 0x20000).FullyLoaded := by
  have hok : checkKernel (sampleFiles 0x20000) "MushCore_kernel.elf" = .ok () := by decide
  refine ⟨hok, fun hfull => ?_⟩
  have hmem : 0x12000 ∈ (sampleKernel 0x20000).flatImage := by
    refine ⟨by decide, ⟨".text", 0xa000, 0x20000⟩, ?_, by decide, by decide⟩
    exact mem_kernelSections.mpr ⟨⟨".text", 0xa000, 0x26000⟩, by decide, by decide⟩
  exact absurd (hfull.loaded hmem).2 (by decide)

end MushOS
