import MushOS.Theory.Transition

/-! # An abstract allocator

What a memory allocator is for, with no memory in it: its clients hold buffers,
each under a name of its own. A buffer has the length that was asked for and
remembers, byte by byte, what its owner last wrote; a byte nobody has written
yet has no value. Granting a buffer takes a name nobody holds, and an event about one
buffer leaves the others (`Store.set_ne`).
-/

namespace Allocator

open Transition

variable {A V : Type*}

/-- A buffer in use: its length, and the last value written to each byte. -/
structure Buffer (V : Type*) where
  size : ℕ
  bytes : ℕ → Option V

/-- The buffers in use, by name. -/
abbrev Store (A V : Type*) := A → Option (Buffer V)

def Store.empty : Store A V := fun _ => none

/-- What can happen to a store. A granted buffer is filled with `fill`, or left as
it is found. -/
inductive Event (A V : Type*) where
  | grant (name : A) (size : ℕ) (fill : Option V)
  | refuse
  | release (name : A)
  | write (name : A) (i : ℕ) (v : V)

/-- A fresh name is granted; a buffer in use is released, or written inside. -/
def Store.Permits (s : Store A V) : Event A V → Prop
  | .grant name _ _ => s name = none
  | .refuse => True
  | .release name => (s name).isSome
  | .write name i _ => ∃ b, s name = some b ∧ i < b.size

/-- A buffer after byte `i` of it has been written. -/
def Buffer.write (b : Buffer V) (i : ℕ) (v : V) : Buffer V :=
  { b with bytes := fun j => if j = i then some v else b.bytes j }

@[simp] theorem Buffer.write_size (b : Buffer V) (i : ℕ) (v : V) :
    (b.write i v).size = b.size := rfl

section
variable [DecidableEq A]

def Store.set (s : Store A V) (name : A) (b : Option (Buffer V)) : Store A V :=
  fun n => if n = name then b else s n

@[simp] theorem Store.set_self (s : Store A V) (name : A) (b : Option (Buffer V)) :
    s.set name b name = b := by
  simp [Store.set]

@[simp] theorem Store.set_ne (s : Store A V) {name n : A} (b : Option (Buffer V))
    (h : n ≠ name) : s.set name b n = s n := by
  simp [Store.set, h]

def Store.apply (s : Store A V) : Event A V → Store A V
  | .grant name size fill => s.set name (some ⟨size, fun _ => fill⟩)
  | .refuse => s
  | .release name => s.set name none
  | .write name i v => s.set name ((s name).map fun b => b.write i v)

/-- The allocator: it starts with nothing in use, and what is permitted happens. -/
def system (A V : Type*) [DecidableEq A] : System (Store A V) (Event A V) where
  Init s := s = Store.empty
  Step s e s' := s.Permits e ∧ s' = s.apply e

end

end Allocator
