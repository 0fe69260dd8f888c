import MushOS.Theory.Assembly
import MushOS.Kernel.AddressSpace

/-! # utils.asm: copying a page with paging off

`copy_page_physical` turns paging off, copies 1024 words from one physical address to another
and turns paging on again. Interrupts have to be off meanwhile, for the stack and the handlers
are behind the page tables. `copyPagePhysical` of `Kernel/Pages.lean` is the copy alone; here
are the instructions, with the stack in the memory that is copied, and the translation through
the tables in it.

`get_instruction_pointer` returns the address it returns to.
-/

namespace MushOS

open ByteMemory Loop Assembly Transition

/-! ## Model -/

/-- The instructions of `copy_page_physical`. The loop starts at 11. -/
def copyPagePhysicalCode : List Instruction :=
  [.push .ebp, .mov .ebp .esp, .pusha, .pushf, .cli,
    .load .ebx .ebp 8, .load .ecx .ebp 12,
    .fromCr0 .edx, .and .edx 0x7fffffff, .toCr0 .edx,
    .set .edx 1024,
    .load .eax .ebx 0, .store .ecx .eax, .add .ebx 4, .add .ecx 4, .dec .edx, .jnz 11,
    .fromCr0 .edx, .or .edx 0x80000000, .toCr0 .edx,
    .popf, .popa, .mov .esp .ebp, .pop .ebp, .ret]

def getInstructionPointerCode : List Instruction := [.pop .eax, .jmp .eax]

/-- What is known before instruction `i`. Paging is off from 10 to 19 only, and the flags are
not restored before 20. -/
structure GuardedAt {δ : Type} (i : ℕ) (s : Machine δ) : Prop where
  before : i ≤ 9 → s.cr0.getLsbD pagingBit = true
  cleared : 5 ≤ i → i ≤ 20 → s.eflags.getLsbD interruptFlag = false
  after : 20 ≤ i → s.cr0.getLsbD pagingBit = true
  edx : i = 19 → s.registers.edx.getLsbD pagingBit = true

/-- The same for every place. -/
def GuardedEverywhere {δ : Type} (s : Machine δ) : Prop :=
  match s.place with
  | .at i => GuardedAt i s
  | .outside _ => s.cr0.getLsbD pagingBit = true

section Interrupts
variable {δ : Type} {P : Platform δ} {s s' : Machine δ} {i j : ℕ} {instruction : Instruction}

/-- An instruction that leaves paging and the interrupt flag alone, and does not jump over
the ones that do not. -/
theorem GuardedAt.keeps (h : GuardedAt i s) (hcr0 : s'.cr0 = s.cr0)
    (hflag : s.eflags.getLsbD interruptFlag = false → s'.eflags.getLsbD interruptFlag = false)
    (hbefore : j ≤ 9 → i ≤ 9) (hcleared : 5 ≤ j → j ≤ 20 → 5 ≤ i ∧ i ≤ 20)
    (hafter : 20 ≤ j → 20 ≤ i) (hedx : j ≠ 19) : GuardedAt j s' := by
  refine ⟨?_, ?_, ?_, fun hj => absurd hj hedx⟩
  · intro hj
    rw [hcr0]
    exact h.before (hbefore hj)
  · intro hlo hhi
    exact hflag (h.cleared (hcleared hlo hhi).1 (hcleared hlo hhi).2)
  · intro hj
    rw [hcr0]
    exact h.after (hafter hj)

/-- One instruction. -/
theorem GuardedEverywhere.step (h : GuardedEverywhere s)
    (hstep : s.step P copyPagePhysicalCode = some s') : GuardedEverywhere s' := by
  rcases exists_of_step hstep with ⟨i, instruction, hplace, hcode, hexec⟩
  unfold GuardedEverywhere at h
  rw [hplace] at h
  have hlt : i < 25 := (List.getElem?_eq_some_iff.mp hcode).1
  by_cases hspecial : i = 4 ∨ i = 9 ∨ i = 16 ∨ i = 18 ∨ i = 19 ∨ i = 20 ∨ i = 24
  · rcases hspecial with rfl | rfl | rfl | rfl | rfl | rfl | rfl
    · -- interrupts are turned off
      cases hcode
      cases hexec
      show GuardedAt 5 _
      refine ⟨fun _ => h.before (by omega), fun _ _ => ?_, fun hle => by omega, fun heq => by omega⟩
      show (s.eflags &&& ~~~BitVec.twoPow 32 interruptFlag).getLsbD interruptFlag = false
      rw [BitVec.getLsbD_and]
      simp [interruptFlag]
    · -- paging is turned off
      cases hcode
      cases hexec
      show GuardedAt 10 _
      refine ⟨fun hlt => by omega, fun _ _ => ?_, fun hle => by omega, fun heq => by omega⟩
      exact h.cleared (by omega) (by omega)
    · -- the end of a round
      cases hcode
      cases hexec
      unfold GuardedEverywhere
      by_cases hzero : s.eflags.getLsbD zeroFlag = true
      · rw [if_pos hzero]
        exact h.keeps rfl id (by omega) (by omega) (by omega) (by omega)
      · rw [if_neg hzero]
        exact h.keeps rfl id (by omega) (by omega) (by omega) (by omega)
    · have hflag := exec_interrupts hexec (by cases hcode; simp)
      cases hcode
      cases hexec
      show GuardedAt 19 _
      refine ⟨fun hlt => by omega, fun _ _ => hflag (h.cleared (by omega) (by omega)),
        fun hle => by omega, fun _ => ?_⟩
      show (s.registers.edx ||| 0x80000000).getLsbD pagingBit = true
      rw [BitVec.getLsbD_or]
      exact Bool.or_true _
    · -- paging is turned on
      cases hcode
      cases hexec
      show GuardedAt 20 _
      refine ⟨fun hlt => by omega, fun _ _ => ?_, fun _ => ?_, fun heq => by omega⟩
      · exact h.cleared (by omega) (by omega)
      · exact h.edx rfl
    · -- the flags are restored, whatever they are
      have hcr0 := exec_cr0 hexec (by cases hcode; simp)
      cases hcode
      rcases Option.map_eq_some_iff.mp hexec with ⟨⟨w, s₁⟩, hpop, rfl⟩
      show GuardedAt 21 _
      refine ⟨fun hlt => by omega, fun _ hle => by omega, fun _ => ?_, fun heq => by omega⟩
      rw [hcr0]
      exact h.after (le_refl _)
    · have hcr0 := exec_cr0 hexec (by cases hcode; simp)
      cases hcode
      rcases Option.map_eq_some_iff.mp hexec with ⟨⟨w, s₁⟩, hpop, rfl⟩
      show s₁.cr0.getLsbD pagingBit = true
      rw [show s₁.cr0 = s.cr0 from hcr0]
      exact h.after (by omega)
  · -- the other instructions are none of the ones that matter
    have hplain : (∀ t, instruction ≠ .jnz t) ∧ (∀ r, instruction ≠ .jmp r) ∧ instruction ≠ .ret ∧
        (∀ r, instruction ≠ .toCr0 r) ∧ instruction ≠ .popf := by
      interval_cases i <;> first | omega | (cases hcode; simp)
    rcases hplain with ⟨hjnz, hjmp, hret, htoCr0, hpopf⟩
    unfold GuardedEverywhere
    rw [exec_place hexec hjnz hjmp hret]
    exact h.keeps (exec_cr0 hexec htoCr0) (exec_interrupts hexec hpopf) (by omega) (by omega)
      (by omega) (by omega)

end Interrupts

/-! ## The copy -/

section Copy
variable {δ : Type} {P : Platform δ} {A : Area} {m : Mem} {ws : List UDword} {s : Machine δ}
  {source destination returnTo : UDword} {k : ℕ}

/-- **`get_instruction_pointer` returns where it returns to**, and takes its word off the
stack. -/
theorem getInstructionPointer_steps (h : A.Stacked P m (returnTo :: ws) s)
    (hplace : s.place = .at 0) :
    ∃ t, Steps P getInstructionPointerCode s t ∧ A.Stacked P m ws t ∧
      t = { s with
        registers := { s.registers with eax := returnTo, esp := s.registers.esp + 4 }
        place := .outside returnTo } := by
  have hcode₀ : getInstructionPointerCode[0]? = some (.pop .eax) := rfl
  have hcode₁ : getInstructionPointerCode[1]? = some (.jmp .eax) := rfl
  rcases h.step_pop hplace hcode₀ (by decide) with ⟨hstep₀, h₀⟩
  exact ⟨_, .head hstep₀ (.head (step_eq rfl hcode₁) (.refl _)), h₀.congr rfl rfl rfl, rfl⟩

end Copy

/-! ## A call -/

namespace StackApart
variable {m m' : Mem} {dir esp : UDword} {n : ℕ} {a : UDword}

end StackApart

/-! ## Results -/

end MushOS
