import Mathlib.Tactic
import MushOS.Theory.ByteMemory

/-! # Arguments on the stack

The arguments of a call lie one after another, the first one lowest, each in as many whole
words of four bytes as it needs. So an argument is at the sum of the rounded sizes of those
before it (`offset`), and memory that holds the arguments has the bytes of each of them from
there on (`HoldsArgs`).
-/

namespace CallFrame

open ByteMemory

/-- The bytes an argument of `size` bytes takes. -/
def slotSize (size : ℕ) : ℕ := (size + 3) / 4 * 4

/-- Where argument `k` is, counted from the first one. -/
def offset (sizes : List ℕ) (k : ℕ) : ℕ := ((sizes.take k).map slotSize).sum

/-- The arguments are in the memory from `base` on. -/
def HoldsArgs (m : Mem) (base : Word) (args : List (List Byte)) : Prop :=
  ∀ k (hk : k < args.length) i (hi : i < args[k].length),
    m.bytes (base + BitVec.ofNat 32 (offset (args.map List.length) k + i)) = args[k][i]

@[simp] theorem offset_zero (sizes : List ℕ) : offset sizes 0 = 0 := rfl

@[simp] theorem offset_cons (size : ℕ) (sizes : List ℕ) (k : ℕ) :
    offset (size :: sizes) (k + 1) = slotSize size + offset sizes k := by
  unfold offset
  rw [List.take_succ_cons, List.map_cons, List.sum_cons]

end CallFrame
