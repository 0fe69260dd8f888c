import Mathlib.Logic.Relation
import MushOS.Theory.Agreement
import MushOS.Theory.Transition

/-! # Procedures in assembly

A machine with eight registers, flags, a control register whose highest bit turns paging on,
and a byte-addressed physical memory. A procedure is a list of instructions; jumps go to
positions of that list, and a return leaves it. An access to an address that is not mapped
stops the machine.

The stack of the machine is part of that memory, and so are the tables the addresses go
through. `Area` is what makes it usable: so many words, mapped to bytes of which none belongs to
a table. On an area the machine has the stack one expects (`Stacked`): words pushed are popped
in reverse, and nothing but the bytes of the area changes.

`Steps` is a run of the machine.
-/

namespace Assembly

open ByteMemory Transition

/-! ## Instructions -/

inductive Register where
  | eax | ecx | edx | ebx | esp | ebp | esi | edi
deriving DecidableEq, Repr

structure Registers where
  eax : Word
  ecx : Word
  edx : Word
  ebx : Word
  esp : Word
  ebp : Word
  esi : Word
  edi : Word
deriving DecidableEq, Repr

namespace Registers

def get (r : Registers) : Register → Word
  | .eax => r.eax
  | .ecx => r.ecx
  | .edx => r.edx
  | .ebx => r.ebx
  | .esp => r.esp
  | .ebp => r.ebp
  | .esi => r.esi
  | .edi => r.edi

def set (r : Registers) (w : Word) : Register → Registers
  | .eax => { r with eax := w }
  | .ecx => { r with ecx := w }
  | .edx => { r with edx := w }
  | .ebx => { r with ebx := w }
  | .esp => { r with esp := w }
  | .ebp => { r with ebp := w }
  | .esi => { r with esi := w }
  | .edi => { r with edi := w }

end Registers

inductive Width where
  | byte
  | half
deriving DecidableEq, Repr

/-- The low bits of a word. -/
def Width.low (width : Width) (w : Word) : Word :=
  match width with
  | .byte => (w.setWidth 8).setWidth 32
  | .half => (w.setWidth 16).setWidth 32

/-- A word with its low bits replaced. -/
def Width.replace (width : Width) (w v : Word) : Word :=
  match width with
  | .byte => w.extractLsb' 8 24 ++ v.setWidth 8
  | .half => w.extractLsb' 16 16 ++ v.setWidth 16

inductive Instruction where
  | push (r : Register)
  | pop (r : Register)
  | pusha
  | popa
  | pushf
  | popf
  | cli
  | mov (dst src : Register)
  | set (dst : Register) (w : Word)
  /-- `mov dst, [base + offset]`. -/
  | load (dst base : Register) (offset : Word)
  /-- The same, for a part of the register. -/
  | loadPart (width : Width) (dst base : Register) (offset : Word)
  /-- `mov [base], src`. -/
  | store (base src : Register)
  | fromCr0 (dst : Register)
  | toCr0 (src : Register)
  | and (dst : Register) (w : Word)
  | or (dst : Register) (w : Word)
  | add (dst : Register) (w : Word)
  | dec (dst : Register)
  | jnz (target : ℕ)
  /-- `in`, from the port in `dx`. -/
  | input (width : Width)
  /-- `out`, to the port in `dx`. -/
  | output (width : Width)
  | jmp (r : Register)
  | ret
deriving Repr

/-! ## The machine -/

/-- In the procedure, or out of it. -/
inductive Place where
  | at (i : ℕ)
  | outside (a : Word)
deriving DecidableEq, Repr

structure Machine (δ : Type) where
  registers : Registers
  eflags : Word
  cr0 : Word
  memory : Mem
  devices : δ
  place : Place

/-- What is not in the processor: the translation of addresses, and the devices. -/
structure Platform (δ : Type) where
  walk : Mem → Word → Option Word
  input : Width → BitVec 16 → δ → Word × δ
  output : Width → BitVec 16 → Word → δ → δ

def zeroFlag : ℕ := 6
def interruptFlag : ℕ := 9
def pagingBit : ℕ := 31

variable {δ : Type}

/-- The physical address of an address. -/
def Platform.addressing (P : Platform δ) (cr0 : Word) : Mem → Word → Option Word :=
  if cr0.getLsbD pagingBit then P.walk else fun _ a => some a

namespace Machine

/-- The physical addresses of the bytes of a word. -/
def translate (P : Platform δ) (s : Machine δ) (a : Word) : Option (Word × Word × Word × Word) := do
  let p₀ ← P.addressing s.cr0 s.memory a
  let p₁ ← P.addressing s.cr0 s.memory (a + 1)
  let p₂ ← P.addressing s.cr0 s.memory (a + 2)
  let p₃ ← P.addressing s.cr0 s.memory (a + 3)
  return (p₀, p₁, p₂, p₃)

def loadWord (P : Platform δ) (s : Machine δ) (a : Word) : Option Word := do
  let (p₀, p₁, p₂, p₃) ← s.translate P a
  return s.memory.read8 p₃ ++ s.memory.read8 p₂ ++ s.memory.read8 p₁ ++ s.memory.read8 p₀

def storeWord (P : Platform δ) (s : Machine δ) (a w : Word) : Option (Machine δ) := do
  let (p₀, p₁, p₂, p₃) ← s.translate P a
  return { s with
    memory := (((s.memory.write8 p₀ (w.extractLsb' 0 8)).write8 p₁ (w.extractLsb' 8 8)).write8
      p₂ (w.extractLsb' 16 8)).write8 p₃ (w.extractLsb' 24 8) }

/-- The part of a word in memory. -/
def loadPart (P : Platform δ) (s : Machine δ) (width : Width) (a : Word) : Option Word := do
  let p₀ ← P.addressing s.cr0 s.memory a
  match width with
  | .byte => return (s.memory.read8 p₀).setWidth 32
  | .half =>
    let p₁ ← P.addressing s.cr0 s.memory (a + 1)
    return (s.memory.read8 p₁ ++ s.memory.read8 p₀).setWidth 32

section
variable {P : Platform δ} {s : Machine δ}

end

def setRegister (s : Machine δ) (dst : Register) (w : Word) : Machine δ :=
  { s with registers := s.registers.set w dst }

/-- A result of arithmetic. Of the flags it sets, only the one for zero is modelled. -/
def setResult (s : Machine δ) (dst : Register) (w : Word) : Machine δ :=
  { s.setRegister dst w with
    eflags := if w = 0 then s.eflags ||| BitVec.twoPow 32 zeroFlag
      else s.eflags &&& ~~~BitVec.twoPow 32 zeroFlag }

def push (P : Platform δ) (w : Word) (s : Machine δ) : Option (Machine δ) :=
  let s := s.setRegister .esp (s.registers.esp - 4)
  s.storeWord P s.registers.esp w

def pop (P : Platform δ) (s : Machine δ) : Option (Word × Machine δ) := do
  let w ← s.loadWord P s.registers.esp
  return (w, s.setRegister .esp (s.registers.esp + 4))

/-- Push words one after the other, the first one first. -/
def pushes (P : Platform δ) : List Word → Machine δ → Option (Machine δ)
  | [], s => some s
  | w :: ws, s => (s.push P w).bind (pushes P ws)

/-- Pop `n` words, the first one first. -/
def pops (P : Platform δ) : ℕ → Machine δ → Option (List Word × Machine δ)
  | 0, s => some ([], s)
  | n + 1, s => do
    let (w, s) ← s.pop P
    let (ws, s) ← pops P n s
    return (w :: ws, s)

/-- On to the next instruction. -/
def advance (i : ℕ) (s : Machine δ) : Machine δ := { s with place := .at (i + 1) }

/-- One instruction, which is at `i`. -/
def exec (P : Platform δ) (i : ℕ) (s : Machine δ) : Instruction → Option (Machine δ)
  | .push r => (s.push P (s.registers.get r)).map (advance i)
  | .pop r => (s.pop P).map fun (w, s) => (s.setRegister r w).advance i
  | .pusha =>
    let r := s.registers
    (s.pushes P [r.eax, r.ecx, r.edx, r.ebx, r.esp, r.ebp, r.esi, r.edi]).map (advance i)
  | .popa =>
    -- the stack pointer that was pushed is not taken back
    (s.pops P 8).bind fun (ws, s) =>
      match ws with
      | [edi, esi, ebp, _, ebx, edx, ecx, eax] =>
        some { s with
          registers := ⟨eax, ecx, edx, ebx, s.registers.esp, ebp, esi, edi⟩
          place := .at (i + 1) }
      | _ => none
  | .pushf => (s.push P s.eflags).map (advance i)
  | .popf => (s.pop P).map fun (w, s) => { s with eflags := w, place := .at (i + 1) }
  | .cli =>
    some { s with
      eflags := s.eflags &&& ~~~BitVec.twoPow 32 interruptFlag
      place := .at (i + 1) }
  | .mov dst src => some ((s.setRegister dst (s.registers.get src)).advance i)
  | .set dst w => some ((s.setRegister dst w).advance i)
  | .load dst base offset =>
    (s.loadWord P (s.registers.get base + offset)).map fun w => (s.setRegister dst w).advance i
  | .loadPart width dst base offset =>
    (s.loadPart P width (s.registers.get base + offset)).map fun w =>
      (s.setRegister dst (width.replace (s.registers.get dst) w)).advance i
  | .store base src =>
    (s.storeWord P (s.registers.get base) (s.registers.get src)).map (advance i)
  | .fromCr0 dst => some ((s.setRegister dst s.cr0).advance i)
  | .toCr0 src => some { s with cr0 := s.registers.get src, place := .at (i + 1) }
  | .and dst w => some ((s.setResult dst (s.registers.get dst &&& w)).advance i)
  | .or dst w => some ((s.setResult dst (s.registers.get dst ||| w)).advance i)
  | .add dst w => some ((s.setResult dst (s.registers.get dst + w)).advance i)
  | .dec dst => some ((s.setResult dst (s.registers.get dst - 1)).advance i)
  | .jnz target => some { s with
      place := .at (if s.eflags.getLsbD zeroFlag then i + 1 else target) }
  | .input width =>
    let (w, devices) := P.input width (s.registers.edx.setWidth 16) s.devices
    some (({ s with devices := devices }.setRegister .eax
      (width.replace s.registers.eax w)).advance i)
  | .output width =>
    some ({ s with
      devices := P.output width (s.registers.edx.setWidth 16) (width.low s.registers.eax)
        s.devices }.advance i)
  | .jmp r => some { s with place := .outside (s.registers.get r) }
  | .ret => (s.pop P).map fun (w, s) => { s with place := .outside w }

def step (P : Platform δ) (code : List Instruction) (s : Machine δ) : Option (Machine δ) :=
  match s.place with
  | .outside _ => none
  | .at i => code[i]?.bind (s.exec P i)

end Machine

/-! ## Runs -/

/-- One instruction after the other. -/
def Steps (P : Platform δ) (code : List Instruction) : Machine δ → Machine δ → Prop :=
  Relation.ReflTransGen fun s s' => s.step P code = some s'

/-- The machine from the first instruction of a procedure on. -/
def system (P : Platform δ) (code : List Instruction) (start : Machine δ → Prop) :
    System (Machine δ) Unit where
  Init s := s.place = .at 0 ∧ start s
  Step s _ s' := s.step P code = some s'

section
variable {P : Platform δ} {code : List Instruction} {s s' s'' : Machine δ} {i n : ℕ}
  {instruction : Instruction}

theorem step_eq (hplace : s.place = .at i) (hcode : code[i]? = some instruction) :
    s.step P code = s.exec P i instruction := by
  unfold Machine.step
  rw [hplace]
  show code[i]?.bind (s.exec P i) = _
  rw [hcode]
  rfl

/-- Where a step starts. -/
theorem exists_of_step (hstep : s.step P code = some s') :
    ∃ i instruction, s.place = .at i ∧ code[i]? = some instruction ∧
      s.exec P i instruction = some s' := by
  unfold Machine.step at hstep
  cases hplace : s.place with
  | outside a => simp [hplace] at hstep
  | «at» i =>
    simp only [hplace] at hstep
    rcases Option.bind_eq_some_iff.mp hstep with ⟨instruction, hcode, hexec⟩
    exact ⟨i, instruction, rfl, hcode, hexec⟩

/-! ## What an instruction leaves alone -/

theorem push_keeps {w : Word} (hpush : s.push P w = some s') :
    s'.cr0 = s.cr0 ∧ s'.eflags = s.eflags := by
  unfold Machine.push Machine.storeWord at hpush
  rcases Option.bind_eq_some_iff.mp hpush with ⟨spots, -, heq⟩
  cases heq
  exact ⟨rfl, rfl⟩

theorem pop_keeps {w : Word} (hpop : s.pop P = some (w, s')) :
    s'.cr0 = s.cr0 ∧ s'.eflags = s.eflags := by
  unfold Machine.pop at hpop
  rcases Option.bind_eq_some_iff.mp hpop with ⟨w', -, heq⟩
  cases heq
  exact ⟨rfl, rfl⟩

theorem pushes_keeps {ws : List Word} (hpushes : s.pushes P ws = some s') :
    s'.cr0 = s.cr0 ∧ s'.eflags = s.eflags := by
  induction ws generalizing s with
  | nil =>
    cases hpushes
    exact ⟨rfl, rfl⟩
  | cons w ws ih =>
    rcases Option.bind_eq_some_iff.mp hpushes with ⟨s₁, hpush, hrest⟩
    have hkeeps := push_keeps hpush
    have hkeeps' := ih hrest
    exact ⟨hkeeps'.1.trans hkeeps.1, hkeeps'.2.trans hkeeps.2⟩

theorem pops_keeps {ws : List Word} (hpops : s.pops P n = some (ws, s')) :
    s'.cr0 = s.cr0 ∧ s'.eflags = s.eflags := by
  induction n generalizing s ws with
  | zero =>
    cases hpops
    exact ⟨rfl, rfl⟩
  | succ n ih =>
    rcases Option.bind_eq_some_iff.mp hpops with ⟨⟨w, s₁⟩, hpop, hrest⟩
    rcases Option.bind_eq_some_iff.mp hrest with ⟨⟨ws', s₂⟩, hpops', heq⟩
    cases heq
    have hkeeps := pop_keeps hpop
    have hkeeps' := ih hpops'
    exact ⟨hkeeps'.1.trans hkeeps.1, hkeeps'.2.trans hkeeps.2⟩

/-- What holds of an instruction that does not turn paging on or off. -/
theorem exec_cr0 (hexec : s.exec P i instruction = some s') (hne : ∀ r, instruction ≠ .toCr0 r) :
    s'.cr0 = s.cr0 := by
  -- only a move to cr0 writes it
  cases instruction with
  | push r =>
    rcases Option.map_eq_some_iff.mp hexec with ⟨s₁, hpush, rfl⟩
    exact (push_keeps hpush).1
  | pop r =>
    rcases Option.map_eq_some_iff.mp hexec with ⟨⟨w, s₁⟩, hpop, rfl⟩
    exact (pop_keeps hpop).1
  | pusha =>
    rcases Option.map_eq_some_iff.mp hexec with ⟨s₁, hpushes, rfl⟩
    exact (pushes_keeps hpushes).1
  | popa =>
    rcases Option.bind_eq_some_iff.mp hexec with ⟨⟨ws, s₁⟩, hpops, heq⟩
    simp only at heq
    split at heq
    · cases heq
      exact (pops_keeps hpops).1
    · cases heq
  | pushf =>
    rcases Option.map_eq_some_iff.mp hexec with ⟨s₁, hpush, rfl⟩
    exact (push_keeps hpush).1
  | popf =>
    rcases Option.map_eq_some_iff.mp hexec with ⟨⟨w, s₁⟩, hpop, rfl⟩
    exact (pop_keeps hpop).1
  | load dst base offset =>
    rcases Option.map_eq_some_iff.mp hexec with ⟨w, -, rfl⟩
    rfl
  | loadPart width dst base offset =>
    rcases Option.map_eq_some_iff.mp hexec with ⟨w, -, rfl⟩
    rfl
  | store base src =>
    rcases Option.map_eq_some_iff.mp hexec with ⟨s₁, hstore, rfl⟩
    rcases Option.bind_eq_some_iff.mp hstore with ⟨spots, -, heq⟩
    cases heq
    rfl
  | toCr0 src => exact absurd rfl (hne src)
  | ret =>
    rcases Option.map_eq_some_iff.mp hexec with ⟨⟨w, s₁⟩, hpop, rfl⟩
    exact (pop_keeps hpop).1
  | cli | mov | set | fromCr0 | and | or | add | dec | jnz | input | output | jmp =>
    cases hexec
    rfl

/-- The interrupt flag stays clear when the flags are not popped. -/
theorem exec_interrupts (hexec : s.exec P i instruction = some s') (hne : instruction ≠ .popf)
    (hclear : s.eflags.getLsbD interruptFlag = false) :
    s'.eflags.getLsbD interruptFlag = false := by
  -- what the arithmetic instructions make of the flags: the zero flag is another bit
  have hresult : ∀ w : Word, (if w = 0 then s.eflags ||| BitVec.twoPow 32 zeroFlag
      else s.eflags &&& ~~~BitVec.twoPow 32 zeroFlag).getLsbD interruptFlag = false := by
    intro w
    by_cases hw : w = 0
    · rw [if_pos hw, BitVec.getLsbD_or, hclear]
      rfl
    · rw [if_neg hw, BitVec.getLsbD_and, hclear, Bool.false_and]
  have hsame : ∀ {f : Word}, f = s.eflags → f.getLsbD interruptFlag = false := by
    rintro f rfl
    exact hclear
  -- one case for each instruction; popf alone can set the flag
  cases instruction with
  | push r =>
    rcases Option.map_eq_some_iff.mp hexec with ⟨s₁, hpush, rfl⟩
    exact hsame (push_keeps hpush).2
  | pop r =>
    rcases Option.map_eq_some_iff.mp hexec with ⟨⟨w, s₁⟩, hpop, rfl⟩
    exact hsame (pop_keeps hpop).2
  | pusha =>
    rcases Option.map_eq_some_iff.mp hexec with ⟨s₁, hpushes, rfl⟩
    exact hsame (pushes_keeps hpushes).2
  | popa =>
    rcases Option.bind_eq_some_iff.mp hexec with ⟨⟨ws, s₁⟩, hpops, heq⟩
    simp only at heq
    split at heq
    · cases heq
      exact hsame (pops_keeps hpops).2
    · cases heq
  | pushf =>
    rcases Option.map_eq_some_iff.mp hexec with ⟨s₁, hpush, rfl⟩
    exact hsame (push_keeps hpush).2
  | popf => exact absurd rfl hne
  | load dst base offset =>
    rcases Option.map_eq_some_iff.mp hexec with ⟨w, -, rfl⟩
    exact hclear
  | loadPart width dst base offset =>
    rcases Option.map_eq_some_iff.mp hexec with ⟨w, -, rfl⟩
    exact hclear
  | store base src =>
    rcases Option.map_eq_some_iff.mp hexec with ⟨s₁, hstore, rfl⟩
    rcases Option.bind_eq_some_iff.mp hstore with ⟨spots, -, heq⟩
    cases heq
    exact hclear
  | cli =>
    cases hexec
    show (s.eflags &&& _).getLsbD interruptFlag = false
    rw [BitVec.getLsbD_and, hclear, Bool.false_and]
  | ret =>
    rcases Option.map_eq_some_iff.mp hexec with ⟨⟨w, s₁⟩, hpop, rfl⟩
    exact hsame (pop_keeps hpop).2
  | and | or | add | dec =>
    cases hexec
    exact hresult _
  | mov | set | fromCr0 | toCr0 | jnz | input | output | jmp =>
    cases hexec
    exact hclear

/-- Where an instruction that does not jump leads. -/
theorem exec_place (hexec : s.exec P i instruction = some s') (hjnz : ∀ t, instruction ≠ .jnz t)
    (hjmp : ∀ r, instruction ≠ .jmp r) (hret : instruction ≠ .ret) : s'.place = .at (i + 1) := by
  cases instruction with
  | jnz t => exact absurd rfl (hjnz t)
  | jmp r => exact absurd rfl (hjmp r)
  | ret => exact absurd rfl hret
  | popa =>
    rcases Option.bind_eq_some_iff.mp hexec with ⟨⟨ws, s₁⟩, hpops, heq⟩
    simp only at heq
    split at heq
    · cases heq
      rfl
    · cases heq
  | push | pop | pusha | pushf | popf | load | loadPart | store =>
    rcases Option.map_eq_some_iff.mp hexec with ⟨r, -, rfl⟩
    rfl
  | cli | mov | set | fromCr0 | toCr0 | and | or | add | dec | input | output =>
    cases hexec
    rfl

namespace Steps

theorem refl (s : Machine δ) : Steps P code s s := Relation.ReflTransGen.refl

theorem head (hstep : s.step P code = some s') (hrest : Steps P code s' s'') :
    Steps P code s s'' := Relation.ReflTransGen.head hstep hrest

theorem trans (h : Steps P code s s') (h' : Steps P code s' s'') : Steps P code s s'' :=
  Relation.ReflTransGen.trans h h'

theorem reachable {start : Machine δ → Prop} (h : Steps P code s s') (hplace : s.place = .at 0)
    (hstart : start s) : (system P code start).Reachable s' := by
  induction h with
  | refl => exact System.Reachable.init ⟨hplace, hstart⟩
  | tail _ hstep ih => exact ih.step (a := ()) hstep

end Steps

end

/-! ## The stack in memory -/

/-- The memory a stack may use: the `size` words below `bottom`. Byte `a` of them is at
`spot a`, and the translation goes through the bytes of `tables`. -/
structure Area where
  bottom : Word
  size : ℕ
  tables : Set Word
  spot : Word → Word

namespace Area

def addresses (A : Area) : Set Word := {a | (A.bottom - 1 - a).toNat < 4 * A.size}

/-- Where the bytes are. -/
def physical (A : Area) : Set Word := A.spot '' A.addresses

/-- The address of word `k`, from the bottom on. -/
def slot (A : Area) (k : ℕ) : Word := A.bottom - BitVec.ofNat 32 (4 * (k + 1))

/-- The words are there, the last one pushed first. -/
def Holds (A : Area) (m : Mem) : List Word → Prop
  | [] => True
  | w :: ws =>
    (∀ r < 4, m.bytes (A.spot (A.slot ws.length + BitVec.ofNat 32 r)) = w.extractLsb' (8 * r) 8) ∧
      A.Holds m ws

/-- The area is mapped, byte by byte, and no byte of it belongs to the tables. -/
structure Mapped (A : Area) (walk : Mem → Word → Option Word) (m : Mem) : Prop where
  size_lt : 4 * A.size < 2 ^ 32
  walks : ∀ m' : Mem, (∀ x ∈ A.tables, m'.bytes x = m.bytes x) →
    ∀ a ∈ A.addresses, walk m' a = some (A.spot a)
  inj : Set.InjOn A.spot A.addresses
  apart : ∀ a ∈ A.addresses, A.spot a ∉ A.tables

/-- The words of the stack are `ws`, and outside of the area the memory is `m`. -/
structure Stacked (A : Area) (P : Platform δ) (m : Mem) (ws : List Word) (s : Machine δ) :
    Prop where
  mapped : A.Mapped (P.addressing s.cr0) m
  agree : AgreeOutside A.physical m s.memory
  esp : s.registers.esp = A.bottom - BitVec.ofNat 32 (4 * ws.length)
  fits : ws.length ≤ A.size
  holds : A.Holds s.memory ws

section
variable {A : Area} {P : Platform δ} {walk : Mem → Word → Option Word} {m m' : Mem}
  {ws vs : List Word} {w : Word} {s s' : Machine δ} {i k k' r r' : ℕ}

theorem slot_mem (hsize : 4 * A.size < 2 ^ 32) (hk : k < A.size) (hr : r < 4) :
    A.slot k + BitVec.ofNat 32 r ∈ A.addresses := by
  have hsub : A.bottom - 1 - (A.slot k + BitVec.ofNat 32 r) = BitVec.ofNat 32 (4 * k + 3 - r) := by
    have hone : (1 : Word).toNat = 1 := rfl
    unfold slot
    apply BitVec.eq_of_toNat_eq
    simp only [BitVec.toNat_sub, BitVec.toNat_add, BitVec.toNat_ofNat, hone]
    omega
  show (A.bottom - 1 - (A.slot k + BitVec.ofNat 32 r)).toNat < 4 * A.size
  rw [hsub, BitVec.toNat_ofNat, Nat.mod_eq_of_lt (by omega)]
  omega

/-- Bytes of the area with the same address are the same byte. -/
theorem slot_inj (hsize : 4 * A.size < 2 ^ 32) (hk : k < A.size) (hk' : k' < A.size) (hr : r < 4)
    (hr' : r' < 4) (heq : A.slot k + BitVec.ofNat 32 r = A.slot k' + BitVec.ofNat 32 r') :
    k = k' ∧ r = r' := by
  unfold slot at heq
  have hnat := congrArg BitVec.toNat heq
  simp only [BitVec.toNat_sub, BitVec.toNat_add, BitVec.toNat_ofNat] at hnat
  omega

theorem Mapped.congr (h : A.Mapped walk m) (hsame : ∀ x ∈ A.tables, m'.bytes x = m.bytes x) :
    A.Mapped walk m' :=
  ⟨h.size_lt, fun m'' hm'' => h.walks m'' fun x hx => (hm'' x hx).trans (hsame x hx),
      h.inj, h.apart⟩

/-- A change of the stack is none of the tables. -/
theorem Mapped.tables_same (h : A.Mapped walk m) (hagree : AgreeOutside A.physical m m') :
    ∀ x ∈ A.tables, m'.bytes x = m.bytes x := by
  intro x hx
  refine hagree x ?_
  rintro ⟨a, ha, rfl⟩
  exact h.apart a ha hx

theorem Mapped.spot_ne (h : A.Mapped walk m) (hk : k < A.size) (hk' : k' < A.size) (hr : r < 4)
    (hr' : r' < 4) (hne : k ≠ k' ∨ r ≠ r') :
    A.spot (A.slot k + BitVec.ofNat 32 r) ≠ A.spot (A.slot k' + BitVec.ofNat 32 r') := by
  intro heq
  have haddr := h.inj (slot_mem h.size_lt hk hr) (slot_mem h.size_lt hk' hr') heq
  rcases slot_inj h.size_lt hk hk' hr hr' haddr with ⟨hkk, hrr⟩
  exact hne.elim (fun hne => hne hkk) fun hne => hne hrr

/-- The memory after a store to word `k`. -/
def stored (A : Area) (m : Mem) (k : ℕ) (w : Word) : Mem :=
  (((m.write8 (A.spot (A.slot k)) (w.extractLsb' 0 8)).write8
    (A.spot (A.slot k + 1)) (w.extractLsb' 8 8)).write8
    (A.spot (A.slot k + 2)) (w.extractLsb' 16 8)).write8
    (A.spot (A.slot k + 3)) (w.extractLsb' 24 8)

/-- The bytes of the word itself. -/
theorem Mapped.stored_self (h : A.Mapped walk m) (hk : k < A.size) (hr : r < 4) :
    (A.stored m' k w).bytes (A.spot (A.slot k + BitVec.ofNat 32 r)) = w.extractLsb' (8 * r) 8 := by
  -- the four bytes of a word are at four places, whatever the page tables map
  have hne : ∀ i j : ℕ, i < 4 → j < 4 → i ≠ j →
      A.spot (A.slot k + BitVec.ofNat 32 i) ≠ A.spot (A.slot k + BitVec.ofNat 32 j) :=
    fun i j hi hj hij => h.spot_ne hk hk hi hj (Or.inr hij)
  have hzero : A.slot k + BitVec.ofNat 32 0 = A.slot k := by simp
  have hne₀ : ∀ j : ℕ, j < 4 → 0 ≠ j →
      A.spot (A.slot k) ≠ A.spot (A.slot k + BitVec.ofNat 32 j) := by
    intro j hj h0
    have h := hne 0 j (by omega) hj h0
    rwa [hzero] at h
  have h01 : A.spot (A.slot k) ≠ A.spot (A.slot k + 1) := hne₀ 1 (by omega) (by omega)
  have h02 : A.spot (A.slot k) ≠ A.spot (A.slot k + 2) := hne₀ 2 (by omega) (by omega)
  have h03 : A.spot (A.slot k) ≠ A.spot (A.slot k + 3) := hne₀ 3 (by omega) (by omega)
  have h12 : A.spot (A.slot k + 1) ≠ A.spot (A.slot k + 2) :=
    hne 1 2 (by omega) (by omega) (by omega)
  have h13 : A.spot (A.slot k + 1) ≠ A.spot (A.slot k + 3) :=
    hne 1 3 (by omega) (by omega) (by omega)
  have h23 : A.spot (A.slot k + 2) ≠ A.spot (A.slot k + 3) :=
    hne 2 3 (by omega) (by omega) (by omega)
  have hcases : r = 0 ∨ r = 1 ∨ r = 2 ∨ r = 3 := by omega
  unfold stored
  rcases hcases with rfl | rfl | rfl | rfl
  · rw [hzero, Mem.write8_bytes_ne _ _ h03, Mem.write8_bytes_ne _ _ h02,
      Mem.write8_bytes_ne _ _ h01, Mem.write8_bytes_self]
  · rw [show BitVec.ofNat 32 1 = (1 : Word) from rfl, Mem.write8_bytes_ne _ _ h13,
      Mem.write8_bytes_ne _ _ h12]
    exact Mem.write8_bytes_self _ _ _
  · rw [show BitVec.ofNat 32 2 = (2 : Word) from rfl, Mem.write8_bytes_ne _ _ h23]
    exact Mem.write8_bytes_self _ _ _
  · exact Mem.write8_bytes_self _ _ _

/-- Every other byte. -/
theorem stored_ne {x : Word} (hne : ∀ r < 4, x ≠ A.spot (A.slot k + BitVec.ofNat 32 r)) :
    (A.stored m k w).bytes x = m.bytes x := by
  have h0 : x ≠ A.spot (A.slot k) := by
    have h := hne 0 (by omega)
    rwa [show A.slot k + BitVec.ofNat 32 0 = A.slot k by simp] at h
  have h1 : x ≠ A.spot (A.slot k + 1) := hne 1 (by omega)
  have h2 : x ≠ A.spot (A.slot k + 2) := hne 2 (by omega)
  have h3 : x ≠ A.spot (A.slot k + 3) := hne 3 (by omega)
  unfold stored
  rw [Mem.write8_bytes_ne _ _ h3, Mem.write8_bytes_ne _ _ h2, Mem.write8_bytes_ne _ _ h1,
    Mem.write8_bytes_ne _ _ h0]

/-- A store above the words that are held. -/
theorem Mapped.holds_stored (h : A.Mapped walk m) (hk : k < A.size) (hws : ws.length ≤ k)
    (hholds : A.Holds m' ws) : A.Holds (A.stored m' k w) ws := by
  induction ws with
  | nil => trivial
  | cons v ws ih =>
    rw [List.length_cons] at hws
    refine ⟨?_, ih (by omega) hholds.2⟩
    intro r hr
    rw [stored_ne, hholds.1 r hr]
    intro r' hr'
    exact h.spot_ne (by omega) hk hr hr' (Or.inl (by omega))

theorem Holds.congr (hholds : A.Holds m ws) (hsize : 4 * A.size < 2 ^ 32)
    (hfits : ws.length ≤ A.size)
    (hsame : ∀ x ∈ A.physical, m'.bytes x = m.bytes x) : A.Holds m' ws := by
  induction ws with
  | nil => trivial
  | cons v ws ih =>
    rw [List.length_cons] at hfits
    refine ⟨?_, ih hholds.2 (by omega)⟩
    intro r hr
    rw [hsame _ ⟨_, slot_mem hsize (by omega) hr, rfl⟩]
    exact hholds.1 r hr

/-- The bytes of the word `i` words below the top. -/
theorem Holds.getElem (hholds : A.Holds m ws) (hi : i < ws.length) (hr : r < 4) :
    m.bytes (A.spot (A.slot (ws.length - 1 - i) + BitVec.ofNat 32 r)) =
      ws[i].extractLsb' (8 * r) 8 := by
  induction ws generalizing i with
  | nil => exact absurd hi (Nat.not_lt_zero _)
  | cons v ws ih =>
    cases i with
    | zero => exact hholds.1 r hr
    | succ i =>
      rw [List.length_cons] at hi
      have hlen : (v :: ws).length - 1 - (i + 1) = ws.length - 1 - i := by
        rw [List.length_cons]
        omega
      rw [hlen, List.getElem_cons_succ]
      exact ih hholds.2 (by omega)

/-- The words are there when each byte is. -/
theorem holds_of_bytes
    (hbytes : ∀ i (hi : i < ws.length), ∀ r < 4,
      m.bytes (A.spot (A.slot (ws.length - 1 - i) + BitVec.ofNat 32 r)) =
        ws[i].extractLsb' (8 * r) 8) : A.Holds m ws := by
  induction ws with
  | nil => trivial
  | cons v ws ih =>
    refine ⟨fun r hr => hbytes 0 (Nat.succ_pos _) r hr, ih ?_⟩
    intro i hi r hr
    have h := hbytes (i + 1) (Nat.succ_lt_succ hi) r hr
    have hlen : (v :: ws).length - 1 - (i + 1) = ws.length - 1 - i := by
      rw [List.length_cons]
      omega
    rwa [hlen, List.getElem_cons_succ] at h

namespace Stacked

/-- The address of the word `i` words below the top. -/
theorem slot_eq (h : A.Stacked P m ws s) (hi : i < ws.length) :
    s.registers.esp + BitVec.ofNat 32 (4 * i) = A.slot (ws.length - 1 - i) := by
  rw [h.esp]
  unfold slot
  have hfits := h.fits
  have hsize := h.mapped.size_lt
  apply BitVec.eq_of_toNat_eq
  simp only [BitVec.toNat_sub, BitVec.toNat_add, BitVec.toNat_ofNat]
  omega

/-- The address of the next word. -/
theorem slot_next (h : A.Stacked P m ws s) : s.registers.esp - 4 = A.slot ws.length := by
  have hfour : (4 : Word).toNat = 4 := rfl
  rw [h.esp]
  unfold slot
  apply BitVec.eq_of_toNat_eq
  simp only [BitVec.toNat_sub, BitVec.toNat_ofNat, hfour]
  omega

/-- Every byte of the area is mapped. -/
theorem addressing (h : A.Stacked P m ws s) (hk : k < A.size) (hr : r < 4) :
    P.addressing s.cr0 s.memory (A.slot k + BitVec.ofNat 32 r) =
      some (A.spot (A.slot k + BitVec.ofNat 32 r)) :=
  h.mapped.walks _ (h.mapped.tables_same h.agree) _ (slot_mem h.mapped.size_lt hk hr)

theorem translate (h : A.Stacked P m ws s) (hk : k < A.size) :
    s.translate P (A.slot k) = some (A.spot (A.slot k), A.spot (A.slot k + 1),
      A.spot (A.slot k + 2), A.spot (A.slot k + 3)) := by
  have h0 := h.addressing hk (r := 0) (by omega)
  have h1 := h.addressing hk (r := 1) (by omega)
  have h2 := h.addressing hk (r := 2) (by omega)
  have h3 := h.addressing hk (r := 3) (by omega)
  rw [show A.slot k + BitVec.ofNat 32 0 = A.slot k by simp] at h0
  unfold Machine.translate
  rw [h0]
  show (P.addressing s.cr0 s.memory (A.slot k + BitVec.ofNat 32 1)).bind _ = _
  rw [h1]
  show (P.addressing s.cr0 s.memory (A.slot k + BitVec.ofNat 32 2)).bind _ = _
  rw [h2]
  show (P.addressing s.cr0 s.memory (A.slot k + BitVec.ofNat 32 3)).bind _ = _
  rw [h3]
  rfl

/-- A stack is what the loads find. -/
theorem of_loads (hmapped : A.Mapped (P.addressing s.cr0) s.memory) (hfits : ws.length ≤ A.size)
    (hesp : s.registers.esp = A.bottom - BitVec.ofNat 32 (4 * ws.length))
    (hloads : ∀ i (hi : i < ws.length),
      s.loadWord P (s.registers.esp + BitVec.ofNat 32 (4 * i)) = some ws[i]) :
    A.Stacked P s.memory ws s := by
  have haddress : ∀ i < ws.length, s.registers.esp + BitVec.ofNat 32 (4 * i) =
      A.slot (ws.length - 1 - i) := by
    intro i hi
    have hsize := hmapped.size_lt
    rw [hesp]
    unfold slot
    apply BitVec.eq_of_toNat_eq
    simp only [BitVec.toNat_sub, BitVec.toNat_add, BitVec.toNat_ofNat]
    omega
  refine ⟨hmapped, AgreeOutside.refl _ _, hesp, hfits, holds_of_bytes ?_⟩
  intro i hi r hr
  have hnone : A.Stacked P s.memory [] { s with
      registers := { s.registers with esp := A.bottom } } :=
    ⟨hmapped, AgreeOutside.refl _ _, (BitVec.sub_zero _).symm, Nat.zero_le _, trivial⟩
  have hk : ws.length - 1 - i < A.size := by omega
  have htranslate : s.translate P (A.slot (ws.length - 1 - i)) = _ := hnone.translate hk
  have hload := hloads i hi
  unfold Machine.loadWord at hload
  rw [haddress i hi, htranslate] at hload
  have hword := Option.some.inj hload
  rw [← hword]
  -- the bytes of the area, at their own addresses
  exact (Mem.read32_extract ⟨fun x => s.memory.bytes (A.spot x), []⟩ _ hr).symm

/-- The stack sees neither the other registers nor the flags, the devices and the place. -/
theorem congr (h : A.Stacked P m ws s) (hmemory : s'.memory = s.memory)
    (hesp : s'.registers.esp = s.registers.esp) (hcr0 : s'.cr0 = s.cr0) : A.Stacked P m ws s' := by
  refine ⟨?_, ?_, ?_, h.fits, ?_⟩
  · rw [hcr0]
    exact h.mapped
  · rw [hmemory]
    exact h.agree
  · rw [hesp]
    exact h.esp
  · rw [hmemory]
    exact h.holds

/-- **Push**: the word is on the stack. -/
theorem push (h : A.Stacked P m ws s) (hlt : ws.length < A.size) (w : Word) :
    ∃ m', s.push P w = some { s with
        registers := { s.registers with esp := s.registers.esp - 4 }
        memory := m' } ∧
      ∀ t : Machine δ, t.memory = m' → t.registers.esp = s.registers.esp - 4 → t.cr0 = s.cr0 →
        A.Stacked P m (w :: ws) t := by
  refine ⟨A.stored s.memory ws.length w, ?_, ?_⟩
  · unfold Machine.push Machine.storeWord
    have htranslate : (s.setRegister .esp (s.registers.esp - 4)).translate P
        (s.registers.esp - 4) = s.translate P (s.registers.esp - 4) := rfl
    show ((s.setRegister .esp (s.registers.esp - 4)).translate P (s.registers.esp - 4)).bind _ = _
    rw [htranslate, h.slot_next, h.translate hlt]
    rfl
  · intro t hmemory hesp hcr0
    refine ⟨?_, ?_, ?_, hlt, ?_⟩
    · rw [hcr0]
      exact h.mapped
    · intro x hx
      rw [hmemory, stored_ne, h.agree x hx]
      rintro r hr rfl
      exact hx ⟨_, slot_mem h.mapped.size_lt hlt hr, rfl⟩
    · rw [hesp, h.slot_next]
      rfl
    · rw [hmemory]
      exact ⟨fun r hr => h.mapped.stored_self hlt hr, h.mapped.holds_stored hlt (le_refl _) h.holds⟩

/-- A word of the stack is loaded. -/
theorem loadWord (h : A.Stacked P m ws s) (hi : i < ws.length) :
    s.loadWord P (s.registers.esp + BitVec.ofNat 32 (4 * i)) = some ws[i] := by
  have hfits := h.fits
  have hk : ws.length - 1 - i < A.size := by omega
  have h0 := h.holds.getElem hi (r := 0) (by omega)
  have h1 := h.holds.getElem hi (r := 1) (by omega)
  have h2 := h.holds.getElem hi (r := 2) (by omega)
  have h3 := h.holds.getElem hi (r := 3) (by omega)
  rw [show A.slot (ws.length - 1 - i) + BitVec.ofNat 32 0 = A.slot (ws.length - 1 - i) by simp]
      at h0
  unfold Machine.loadWord
  rw [h.slot_eq hi, h.translate hk]
  show some (s.memory.bytes (A.spot (A.slot (ws.length - 1 - i) + BitVec.ofNat 32 3)) ++
    s.memory.bytes (A.spot (A.slot (ws.length - 1 - i) + BitVec.ofNat 32 2)) ++
    s.memory.bytes (A.spot (A.slot (ws.length - 1 - i) + BitVec.ofNat 32 1)) ++
    s.memory.bytes (A.spot (A.slot (ws.length - 1 - i)))) = _
  rw [h0, h1, h2, h3]
  exact congrArg some (Mem.append_bytes _)

/-- And so is a part of it. -/
theorem loadPart (h : A.Stacked P m ws s) (hi : i < ws.length) (width : Width) :
    s.loadPart P width (s.registers.esp + BitVec.ofNat 32 (4 * i)) = some (width.low ws[i]) := by
  have hfits := h.fits
  have hk : ws.length - 1 - i < A.size := by omega
  have h0 := h.holds.getElem hi (r := 0) (by omega)
  have h1 := h.holds.getElem hi (r := 1) (by omega)
  have ha0 := h.addressing hk (r := 0) (by omega)
  have ha1 := h.addressing hk (r := 1) (by omega)
  rw [show A.slot (ws.length - 1 - i) + BitVec.ofNat 32 0 = A.slot (ws.length - 1 - i) by simp]
    at h0 ha0
  unfold Machine.loadPart
  rw [h.slot_eq hi, ha0]
  cases width with
  | byte =>
    show some ((s.memory.bytes (A.spot (A.slot (ws.length - 1 - i)))).setWidth 32) = _
    have hpart : ∀ v : Word, v.extractLsb' 0 8 = v.setWidth 8 := by
      intro v
      ext j hj
      simp
    rw [h0]
    exact congrArg some (congrArg (BitVec.setWidth 32) (hpart _))
  -- the byte behind is read through the page tables a second time
  | half =>
    show (P.addressing s.cr0 s.memory (A.slot (ws.length - 1 - i) + BitVec.ofNat 32 1)).bind _ = _
    rw [ha1]
    show some ((s.memory.bytes (A.spot (A.slot (ws.length - 1 - i) + BitVec.ofNat 32 1)) ++
      s.memory.bytes (A.spot (A.slot (ws.length - 1 - i)))).setWidth 32) = _
    rw [h0, h1]
    have hpart : ∀ v : Word,
        (v.extractLsb' 8 8 ++ v.extractLsb' 0 8 : BitVec 16) = v.setWidth 16 := by
      intro v
      ext j hj
      simp
      grind
    exact congrArg some (congrArg (BitVec.setWidth 32) (hpart _))

/-- **Pop**: the word on the top of the stack. -/
theorem pop (h : A.Stacked P m (w :: ws) s) :
    s.pop P = some (w, s.setRegister .esp (s.registers.esp + 4)) ∧
      ∀ t : Machine δ, t.memory = s.memory → t.registers.esp = s.registers.esp + 4 →
        t.cr0 = s.cr0 → A.Stacked P m ws t := by
  constructor
  · have hload := h.loadWord (i := 0) (Nat.succ_pos _)
    rw [show s.registers.esp + BitVec.ofNat 32 (4 * 0) = s.registers.esp by simp] at hload
    unfold Machine.pop
    rw [hload]
    rfl
  · intro t hmemory hesp hcr0
    have hfits := h.fits
    rw [List.length_cons] at hfits
    refine ⟨?_, ?_, ?_, by omega, ?_⟩
    · rw [hcr0]
      exact h.mapped
    · rw [hmemory]
      exact h.agree
    · have hfour : (4 : Word).toNat = 4 := rfl
      rw [hesp, h.esp, List.length_cons]
      apply BitVec.eq_of_toNat_eq
      simp only [BitVec.toNat_sub, BitVec.toNat_add, BitVec.toNat_ofNat, hfour]
      omega
    · rw [hmemory]
      exact h.holds.2

/-- Several words, the last one pushed on the top. -/
theorem pushes (h : A.Stacked P m ws s) (vs : List Word) (hlt : ws.length + vs.length ≤ A.size) :
    ∃ m', s.pushes P vs = some { s with
        registers := { s.registers with
          esp := s.registers.esp - BitVec.ofNat 32 (4 * vs.length) }
        memory := m' } ∧
      ∀ t : Machine δ, t.memory = m' →
        t.registers.esp = s.registers.esp - BitVec.ofNat 32 (4 * vs.length) → t.cr0 = s.cr0 →
        A.Stacked P m (vs.reverse ++ ws) t := by
  -- the words are pushed one by one, so the last of them ends up on top
  induction vs generalizing s ws with
  | nil =>
    refine ⟨s.memory, ?_, ?_⟩
    · show some s = some { s with registers := { s.registers with esp := s.registers.esp - 0#32 } }
      rw [BitVec.sub_zero]
    · intro t hmemory hesp hcr0
      exact h.congr hmemory (hesp.trans (BitVec.sub_zero _)) hcr0
  | cons v vs ih =>
    rw [List.length_cons] at hlt
    rcases h.push (by omega) v with ⟨m₁, hpush, hstacked⟩
    have hstacked₁ := hstacked { s with
      registers := { s.registers with esp := s.registers.esp - 4 }
      memory := m₁ } rfl rfl rfl
    rcases ih hstacked₁ (by rw [List.length_cons]; omega) with ⟨m₂, hpushes, hstacked₂⟩
    have hesp : s.registers.esp - 4 - BitVec.ofNat 32 (4 * vs.length) =
        s.registers.esp - BitVec.ofNat 32 (4 * (v :: vs).length) := by
      have hfour : (4 : Word).toNat = 4 := rfl
      rw [List.length_cons]
      apply BitVec.eq_of_toNat_eq
      simp only [BitVec.toNat_sub, BitVec.toNat_ofNat, hfour]
      omega
    simp only [hesp] at hpushes hstacked₂
    refine ⟨m₂, ?_, ?_⟩
    · unfold Machine.pushes
      rw [hpush]
      exact hpushes
    · intro t hmemory hesp' hcr0
      rw [List.reverse_cons, List.append_assoc]
      exact hstacked₂ t hmemory hesp' hcr0

theorem pops (h : A.Stacked P m (vs ++ ws) s) :
    s.pops P vs.length = some (vs, s.setRegister .esp
        (s.registers.esp + BitVec.ofNat 32 (4 * vs.length))) ∧
      ∀ t : Machine δ, t.memory = s.memory →
        t.registers.esp = s.registers.esp + BitVec.ofNat 32 (4 * vs.length) → t.cr0 = s.cr0 →
        A.Stacked P m ws t := by
  -- the words come off in the order they stand in
  induction vs generalizing s with
  | nil =>
    constructor
    · show some ([], s) = some ([], s.setRegister .esp (s.registers.esp + 0#32))
      rw [BitVec.add_zero]
      rfl
    · intro t hmemory hesp hcr0
      exact h.congr hmemory (hesp.trans (BitVec.add_zero _)) hcr0
  | cons v vs ih =>
    rcases h.pop with ⟨hpop, hstacked⟩
    rcases ih (hstacked (s.setRegister .esp (s.registers.esp + 4)) rfl rfl rfl) with
      ⟨hpops, hstacked'⟩
    have hesp : s.registers.esp + 4 + BitVec.ofNat 32 (4 * vs.length) =
        s.registers.esp + BitVec.ofNat 32 (4 * (v :: vs).length) := by
      have hfour : (4 : Word).toNat = 4 := rfl
      rw [List.length_cons]
      apply BitVec.eq_of_toNat_eq
      simp only [BitVec.toNat_add, BitVec.toNat_ofNat, hfour]
      omega
    constructor
    · show (s.pop P).bind _ = _
      rw [hpop]
      show ((s.setRegister .esp (s.registers.esp + 4)).pops P vs.length).bind _ = _
      rw [hpops, ← hesp]
      rfl
    · intro t hmemory hesp' hcr0
      exact hstacked' t hmemory (hesp'.trans hesp.symm) hcr0

/-! ## Instructions on the stack -/

section
variable {code : List Instruction} {reg : Register}

theorem step_push (h : A.Stacked P m ws s) (hplace : s.place = .at i)
    (hcode : code[i]? = some (.push reg)) (hlt : ws.length < A.size) :
    ∃ m', let s' : Machine δ := { s with
        registers := { s.registers with esp := s.registers.esp - 4 }
        memory := m'
        place := .at (i + 1) }
      s.step P code = some s' ∧ A.Stacked P m (s.registers.get reg :: ws) s' := by
  rcases h.push hlt (s.registers.get reg) with ⟨m', hpush, hstacked⟩
  refine ⟨m', ?_, hstacked _ rfl rfl rfl⟩
  rw [step_eq hplace hcode]
  show (s.push P _).map _ = _
  rw [hpush]
  rfl

theorem step_pop (h : A.Stacked P m (w :: ws) s) (hplace : s.place = .at i)
    (hcode : code[i]? = some (.pop reg)) (hreg : reg ≠ .esp) :
    let s' : Machine δ := { s with
      registers := ({ s.registers with esp := s.registers.esp + 4 }).set w reg
      place := .at (i + 1) }
    s.step P code = some s' ∧ A.Stacked P m ws s' := by
  refine ⟨?_, h.pop.2 _ rfl ?_ rfl⟩
  · rw [step_eq hplace hcode]
    show (s.pop P).map _ = _
    rw [h.pop.1]
    rfl
  · cases reg <;> first | rfl | contradiction

theorem step_ret (h : A.Stacked P m (w :: ws) s) (hplace : s.place = .at i)
    (hcode : code[i]? = some .ret) :
    s.step P code = some { s with
      registers := { s.registers with esp := s.registers.esp + 4 }
      place := .outside w } := by
  rw [step_eq hplace hcode]
  show (s.pop P).map _ = _
  rw [h.pop.1]
  rfl

theorem step_loadPart {width : Width} {base : Register} {offset : Word} (h : A.Stacked P m ws s)
    (hplace : s.place = .at i) (hcode : code[i]? = some (.loadPart width reg base offset))
    (hk : k < ws.length)
    (haddress : s.registers.get base + offset = s.registers.esp + BitVec.ofNat 32 (4 * k)) :
    s.step P code = some ((s.setRegister reg (width.replace (s.registers.get reg)
      (width.low ws[k]))).advance i) := by
  rw [step_eq hplace hcode]
  show (s.loadPart P width _).map _ = _
  rw [haddress, h.loadPart hk]
  rfl

end

end Stacked

end

end Area

end Assembly
