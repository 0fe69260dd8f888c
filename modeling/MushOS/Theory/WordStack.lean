import Mathlib.Data.List.Basic
import Mathlib.Tactic

/-! # Stacks of words

A stack of 32-bit words that grows down from a fixed bottom, in an address space
it shares with everything else. The words are a list, the last one pushed first;
slot `i` is the address of the `i`-th word from the top. A load or a store is by
address: on a slot it is about a word of the list, elsewhere about the memory
beyond. What is pushed moves no word: `slot_append`.
-/

namespace WordStack

structure Stack where
  bottom : BitVec 32
  words : List (BitVec 32)
  beyond : BitVec 32 → BitVec 32

namespace Stack
variable {s : Stack} {w : BitVec 32} {ws : List (BitVec 32)} {i k : ℕ}

/-- The address of the word `i` words below the top. -/
def slot (s : Stack) (i : ℕ) : BitVec 32 :=
  s.bottom - BitVec.ofNat 32 (4 * s.words.length) + BitVec.ofNat 32 (4 * i)

/-- The stack pointer. -/
def top (s : Stack) : BitVec 32 := s.slot 0

/-- How far below the top an address is. -/
def depth (s : Stack) (a : BitVec 32) : ℕ := (a - s.top).toNat / 4

/-- The address is that of a word on the stack. -/
def Holds (s : Stack) (a : BitVec 32) : Prop :=
  (a - s.top).toNat % 4 = 0 ∧ s.depth a < s.words.length

instance (s : Stack) (a : BitVec 32) : Decidable (s.Holds a) :=
  inferInstanceAs (Decidable (_ ∧ _))

def load (s : Stack) (a : BitVec 32) : BitVec 32 :=
  if s.Holds a then s.words.getD (s.depth a) 0 else s.beyond a

def store (s : Stack) (a w : BitVec 32) : Stack :=
  if s.Holds a then { s with words := s.words.set (s.depth a) w }
  else { s with beyond := Function.update s.beyond a w }

def push (s : Stack) (w : BitVec 32) : Stack := { s with words := w :: s.words }

/-- Push the words of a list, the last one first. -/
def pushAll (s : Stack) (ws : List (BitVec 32)) : Stack := { s with words := ws ++ s.words }

/-- Release the `n` words at the top. -/
def drop (s : Stack) (n : ℕ) : Stack := { s with words := s.words.drop n }

/-! ## Slots -/

theorem slot_add (s : Stack) (i k : ℕ) : s.slot i + BitVec.ofNat 32 (4 * k) = s.slot (i + k) := by
  unfold slot
  rw [Nat.mul_add, BitVec.ofNat_add, BitVec.add_assoc]

theorem slot_append (s : Stack) (ws : List (BitVec 32)) (i : ℕ) :
    (s.pushAll ws).slot (ws.length + i) = s.slot i := by
  unfold slot pushAll
  rw [List.length_append, Nat.mul_add, Nat.mul_add, BitVec.ofNat_add, BitVec.ofNat_add]
  bv_omega

theorem slot_of_length {s' : Stack} (hbottom : s'.bottom = s.bottom)
    (hlength : s'.words.length = s.words.length) (i : ℕ) : s'.slot i = s.slot i := by
  unfold slot
  rw [hbottom, hlength]

theorem depth_slot (hi : i < 2 ^ 30) : (s.slot i - s.top).toNat = 4 * i := by
  have hsub : s.slot i - s.top = BitVec.ofNat 32 (4 * i) := by
    unfold top slot
    bv_omega
  rw [hsub, BitVec.toNat_ofNat, Nat.mod_eq_of_lt (by omega)]

theorem holds_slot (hi : i < s.words.length) (hlt : i < 2 ^ 30) : s.Holds (s.slot i) := by
  unfold Holds depth
  rw [depth_slot hlt]
  omega

/-- What is loaded from a slot. -/
theorem load_slot (hi : i < s.words.length) (hlt : i < 2 ^ 30) :
    s.load (s.slot i) = s.words[i] := by
  unfold load
  rw [if_pos (holds_slot hi hlt)]
  unfold depth
  rw [depth_slot hlt, Nat.mul_div_cancel_left i (by decide)]
  simp [hi]

/-- What a store to a slot leaves. -/
theorem store_slot (hi : i < s.words.length) (hlt : i < 2 ^ 30) :
    s.store (s.slot i) w = { s with words := s.words.set i w } := by
  unfold store
  rw [if_pos (holds_slot hi hlt)]
  unfold depth
  rw [depth_slot hlt, Nat.mul_div_cancel_left i (by decide)]

/-- The word below what was pushed. -/
theorem load_append (hi : i < s.words.length) (hlt : ws.length + i < 2 ^ 30) :
    (s.pushAll ws).load (s.slot i) = s.words[i] := by
  rw [← slot_append s ws i, load_slot (by unfold pushAll; simp [hi]) hlt]
  unfold pushAll
  simp

/-- A store below what was pushed. -/
theorem store_append (hi : i < s.words.length) (hlt : ws.length + i < 2 ^ 30) :
    (s.pushAll ws).store (s.slot i) w = { s with words := s.words.set i w }.pushAll ws := by
  rw [← slot_append s ws i, store_slot (by unfold pushAll; simp [hi]) hlt]
  unfold pushAll
  simp

/-! ## Pushing and releasing -/

@[simp] theorem pushAll_nil (s : Stack) : s.pushAll [] = s := rfl

@[simp] theorem push_eq (s : Stack) (w : BitVec 32) : s.push w = s.pushAll [w] := rfl

@[simp] theorem pushAll_pushAll (s : Stack) (ws ws' : List (BitVec 32)) :
    (s.pushAll ws).pushAll ws' = s.pushAll (ws' ++ ws) := by
  unfold pushAll
  simp

@[simp] theorem drop_pushAll (s : Stack) (ws : List (BitVec 32)) :
    (s.pushAll ws).drop ws.length = s := by
  unfold drop pushAll
  simp

/-- The word `i` words below the top, among those pushed. -/
theorem load_slot_pushAll (hi : i < ws.length) (hlt : i < 2 ^ 30) :
    (s.pushAll ws).load ((s.pushAll ws).slot i) = ws[i] := by
  rw [load_slot (by unfold pushAll; simp; omega) hlt]
  unfold pushAll
  simp [hi]

theorem drop_pushAll_of_le (hk : k ≤ ws.length) :
    (s.pushAll ws).drop k = s.pushAll (ws.drop k) := by
  unfold drop pushAll
  simp [List.drop_append_of_le_length hk]

end Stack

end WordStack
