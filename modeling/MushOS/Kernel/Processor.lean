import MushOS.Base.Memory
import MushOS.Theory.WordStack

/-! # The processor, as assembly code sees it

The registers and the stack, with the instructions that move words between them. The
stack is a list of words, apart from the memory. The flags an instruction sets are left
out: a comparison and the jump after it are one step.
-/

namespace MushOS

open WordStack

/-- The registers `pusha` saves, the stack pointer apart. -/
structure GeneralRegisters where
  eax : UDword
  ecx : UDword
  edx : UDword
  ebx : UDword
  ebp : UDword
  esi : UDword
  edi : UDword
deriving DecidableEq, Repr

structure Processor where
  general : GeneralRegisters
  ds : UWord
  es : UWord
  fs : UWord
  gs : UWord
  eip : UDword
  cs : UWord
  eflags : UDword
  stack : Stack

namespace Processor

def push (p : Processor) (w : UDword) : Processor := { p with stack := p.stack.push w }

/-- The last word pushed is the head of the list. -/
def pushAll (p : Processor) (ws : List UDword) : Processor :=
  { p with stack := p.stack.pushAll ws }

def drop (p : Processor) (n : ℕ) : Processor := { p with stack := p.stack.drop n }

/-- The word `i` words below the top. -/
def peek (p : Processor) (i : ℕ) : UDword := p.stack.load (p.stack.slot i)

def pusha (p : Processor) : Processor :=
  let r := p.general
  p.pushAll [r.edi, r.esi, r.ebp, p.stack.top, r.ebx, r.edx, r.ecx, r.eax]

/-- The saved stack pointer is skipped. -/
def popa (p : Processor) : Processor :=
  { p with general :=
      ⟨p.peek 7, p.peek 6, p.peek 5, p.peek 4, p.peek 2, p.peek 1, p.peek 0⟩ }.drop 8

/-- `int n`, from an instruction before `p.eip`. -/
def int (p : Processor) : Processor := p.pushAll [p.eip, p.cs.setWidth 32, p.eflags]

def iret (p : Processor) : Processor :=
  { p with eip := p.peek 0, cs := (p.peek 1).setWidth 16, eflags := p.peek 2 }.drop 3

def setSegments (p : Processor) (w : UWord) : Processor :=
  { p with ds := w, es := w, fs := w, gs := w }

/-- `mov ax, w`. -/
def setAx (p : Processor) (w : UWord) : Processor :=
  { p with general := { p.general with eax := p.general.eax.extractLsb' 16 16 ++ w } }

/-- `mov a, %esp`, for an address up the stack. -/
def setEsp (p : Processor) (a : UDword) : Processor := p.drop (p.stack.depth a)

/-- `pop ebp`. -/
def popEbp (p : Processor) : Processor :=
  { p with general := { p.general with ebp := p.peek 0 } }.drop 1

def ret (p : Processor) : Processor := { p with eip := p.peek 0 }.drop 1

section Words
variable {p : Processor} {s : Stack} {w eax ecx edx ebx ebp esp esi edi : UDword}
  {ws : List UDword}

theorem peek_of_stack (hstack : p.stack = s.pushAll (w :: ws)) : p.peek 0 = w := by
  unfold peek
  rw [hstack]
  exact Stack.load_slot_pushAll (Nat.succ_pos _) (by decide)

theorem stack_drop_one (hstack : p.stack = s.pushAll (w :: ws)) :
    p.stack.drop 1 = s.pushAll ws := by
  rw [hstack]
  exact Stack.drop_pushAll_of_le (Nat.succ_le_succ (Nat.zero_le _))

theorem popEbp_of_stack (hstack : p.stack = s.pushAll (w :: ws)) :
    p.popEbp = { p with general := { p.general with ebp := w }, stack := s.pushAll ws } := by
  unfold popEbp drop
  rw [peek_of_stack hstack, stack_drop_one hstack]

theorem ret_of_stack (hstack : p.stack = s.pushAll (w :: ws)) :
    p.ret = { p with eip := w, stack := s.pushAll ws } := by
  unfold ret drop
  rw [peek_of_stack hstack, stack_drop_one hstack]

/-- The words of a `pusha`, wherever they come from. -/
theorem popa_of_stack (hstack : p.stack = s.pushAll [edi, esi, ebp, esp, ebx, edx, ecx, eax]) :
    p.popa = { p with general := ⟨eax, ecx, edx, ebx, ebp, esi, edi⟩, stack := s } := by
  have hpeek : ∀ i (hi : i < 8), p.peek i = [edi, esi, ebp, esp, ebx, edx, ecx, eax][i] := by
    intro i hi
    unfold peek
    rw [hstack]
    exact Stack.load_slot_pushAll hi (by omega)
  have hdrop : p.stack.drop 8 = s := by
    rw [hstack]
    exact Stack.drop_pushAll s [edi, esi, ebp, esp, ebx, edx, ecx, eax]
  unfold popa drop
  rw [hpeek 7 (by decide), hpeek 6 (by decide), hpeek 5 (by decide), hpeek 4 (by decide),
    hpeek 2 (by decide), hpeek 1 (by decide), hpeek 0 (by decide), hdrop]
  rfl

/-- The top of the stack itself. -/
theorem setEsp_of_top {a : UDword} (ha : a = p.stack.top) : p.setEsp a = p := by
  subst ha
  have hdepth : p.stack.depth p.stack.top = 0 := by
    unfold Stack.depth
    rw [BitVec.sub_self]
    rfl
  unfold setEsp drop
  rw [hdepth]
  rfl

end Words

end Processor

end MushOS
