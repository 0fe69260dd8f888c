import MushOS.Base.Strings
import MushOS.Theory.Occurrence

/-! # string.c: searching a string, and moving it

`first_pos` is a search from the front. `last_pos` is one from the back that stops before
it has looked at the first character (`lastPosLoop_spec`), so it misses a character that is
at index 0 only: `positions_agree_iff`.

`move_string_by` copies a string down within its own buffer, the terminator with it, and
then stores one terminator more, behind the one it has copied. That is inside of the buffer
unless the string has not moved at all: `moveStringBy_inside_iff`.
-/

namespace MushOS

open ByteMemory Attempts Occurrence

/-! ## Model -/

/-- The loop of `first_pos`, from the character `i` on. -/
def firstPosLoop (str : UDword) (ch : UByte) (m : Mem) : ℕ → ℕ → Option ℤ
  | 0, _ => none
  | fuel + 1, i =>
    if m.read8 (str + BitVec.ofNat 32 i) ≠ 0 then
      if m.read8 (str + BitVec.ofNat 32 i) = ch then some i
      else firstPosLoop str ch m fuel (i + 1)
    else some (-1)

def firstPos (str : UDword) (ch : UByte) : HeapM ℤ := do
  ended (← reads fun m => firstPosLoop str ch m intRange 0)

/-- The loop of `last_pos`, with `i` in `string_iterator`. -/
def lastPosLoop (str : UDword) (ch : UByte) (m : Mem) : ℕ → ℤ
  | 0 => -1
  | i + 1 =>
    if m.read8 (str + BitVec.ofNat 32 (i + 1)) = ch then (i + 1 : ℕ)
    else lastPosLoop str ch m i

def lastPos (str : UDword) (ch : UByte) : HeapM ℤ := do
  let stringIterator ← len str
  reads fun m => lastPosLoop str ch m stringIterator

/-- A memory that also carries the list of the addresses read so far. -/
structure Watched where
  mem : Mem
  reads : List UDword

def Watched.read8 (w : Watched) (a : UDword) : UByte × Watched :=
  (w.mem.read8 a, { w with reads := a :: w.reads })

def Watched.write8 (w : Watched) (a : UDword) (c : UByte) : Watched :=
  { w with mem := w.mem.write8 a c }

/-- The loop of `move_string_by`: the last value of `i`, and the memory. -/
def moveLoop (str step : UDword) : ℕ → UDword → Watched → Option (UDword × Watched)
  | 0, _, _ => none
  | fuel + 1, i, w =>
    let i := i + 1
    let (c, w) := w.read8 (str + i)
    let w := w.write8 (str + (i - step)) c
    let (c, w) := w.read8 (str + i)
    if c ≠ 0 then moveLoop str step fuel i w else some (i, w)

def moveStringBy (str step : UDword) (w : Watched) : Option Watched := do
  let (i, w) ← moveLoop str step intRange (step - 1) w
  return w.write8 (str + (i - step + 1)) 0

/-! ## The searches -/

section Search
variable {m : Mem} {p : UDword} {text : List UByte} {c : UByte} {fuel i n : ℕ}

/-- The loops compare a character with `c` where `c` is in the string. -/
theorem Chars.read8_eq_iff (hc : Chars m p text) (hi : i ≤ text.length) (hne : c ≠ 0) :
    m.read8 (p + BitVec.ofNat 32 i) = c ↔ i ∈ occurrences text c := by
  have hbyte : m.read8 (p + BitVec.ofNat 32 i) = text.getD i 0 := hc.bytes i hi
  rw [hbyte, mem_occurrences, List.getD_eq_getElem?_getD]
  by_cases hlt : i < text.length
  · rw [List.getElem?_eq_getElem hlt]
    exact ⟨fun h => congrArg some h, fun h => Option.some.inj h⟩
  · rw [List.getElem?_eq_none (by omega)]
    exact ⟨fun h => absurd h.symm hne, fun h => by cases h⟩

theorem Chars.read8_eq_zero_iff (hc : Chars m p text) (hi : i ≤ text.length) :
    m.read8 (p + BitVec.ofNat 32 i) = 0 ↔ i = text.length := by
  have hbyte : m.read8 (p + BitVec.ofNat 32 i) = text.getD i 0 := hc.bytes i hi
  rw [hbyte]
  constructor
  · intro hnull
    by_contra hne
    have hlt : i < text.length := by omega
    rw [List.getD_eq_getElem _ _ hlt] at hnull
    exact hc.nonzero _ (List.getElem_mem hlt) hnull
  · rintro rfl
    simp

/-- With no occurrence before `i`, the loop finds the first one. -/
theorem firstPosLoop_spec (hc : Chars m p text) (hne : c ≠ 0) (hi : i ≤ text.length)
    (hfuel : text.length - i < fuel) (hbefore : ∀ j ∈ occurrences text c, i ≤ j) :
    ∃ first, firstPosLoop p c m fuel i = some first ∧ IsFirst text c first := by
  induction fuel generalizing i with
  | zero => omega
  | succ fuel ih =>
    unfold firstPosLoop
    by_cases hlast : i = text.length
    · rw [if_neg (not_not.mpr ((hc.read8_eq_zero_iff hi).mpr hlast))]
      refine ⟨-1, rfl, Or.inl ⟨rfl, ?_⟩⟩
      intro hmem
      rcases occurrences_nonempty.mpr hmem with ⟨j, hj⟩
      have hlt := lt_of_mem_occurrences hj
      have hle := hbefore j hj
      omega
    · rw [if_pos (fun hnull => hlast ((hc.read8_eq_zero_iff hi).mp hnull))]
      by_cases hhere : i ∈ occurrences text c
      · rw [if_pos ((hc.read8_eq_iff hi hne).mpr hhere)]
        exact ⟨i, rfl, Or.inr ⟨i, rfl, hhere, hbefore⟩⟩
      · rw [if_neg (fun heq => hhere ((hc.read8_eq_iff hi hne).mp heq))]
        refine ih (by omega) (by omega) ?_
        intro j hj
        have hle := hbefore j hj
        have hji : j ≠ i := by
          rintro rfl
          exact hhere hj
        omega

/-- The loop finds the last of the occurrences `1 .. n`. -/
theorem lastPosLoop_spec (hc : Chars m p text) (hne : c ≠ 0) (hn : n ≤ text.length) :
    (lastPosLoop p c m n = -1 ∧ ∀ j ∈ occurrences text c, j ≤ n → j = 0) ∨
      ∃ i : ℕ, lastPosLoop p c m n = i ∧ 1 ≤ i ∧ i ∈ occurrences text c ∧
        ∀ j ∈ occurrences text c, j ≤ n → j ≤ i := by
  induction n with
  | zero =>
    left
    exact ⟨rfl, fun j _ hj => by omega⟩
  | succ n ih =>
    unfold lastPosLoop
    by_cases hhere : n + 1 ∈ occurrences text c
    · rw [if_pos ((hc.read8_eq_iff hn hne).mpr hhere)]
      exact Or.inr ⟨n + 1, rfl, by omega, hhere, fun j _ hj => hj⟩
    · rw [if_neg (fun heq => hhere ((hc.read8_eq_iff hn hne).mp heq))]
      have hprev : ∀ j ∈ occurrences text c, j ≤ n + 1 → j ≤ n := by
        intro j hj hle
        have hji : j ≠ n + 1 := by
          rintro rfl
          exact hhere hj
        omega
      rcases ih (by omega) with ⟨hnone, hzero⟩ | ⟨i, hfound, hpos, hmem, hmost⟩
      · exact Or.inl ⟨hnone, fun j hj hle => hzero j hj (hprev j hj hle)⟩
      · exact Or.inr ⟨i, hfound, hpos, hmem, fun j hj hle => hmost j hj (hprev j hj hle)⟩

end Search

section Positions
variable {h : Heap} {p : UDword} {text : List UByte} {c : UByte}

theorem firstPos_spec (hc : Chars h.mem p text) (hlt : text.length < intRange) (hne : c ≠ 0) :
    ∃ first, firstPos p c h = .ok (first, h) ∧ IsFirst text c first := by
  rcases firstPosLoop_spec hc hne (Nat.zero_le _) (by omega) (fun j _ => Nat.zero_le j) with
    ⟨first, hrun, hfirst⟩
  refine ⟨first, ?_, hfirst⟩
  show (ended (firstPosLoop p c h.mem intRange 0)) h = _
  rw [hrun]
  rfl

/-- `last_pos` is the loop, from the terminator on. -/
theorem lastPos_run (hc : Chars h.mem p text) (hlt : text.length < intRange) :
    lastPos p c h = .ok (lastPosLoop p c h.mem text.length, h) := by
  have hlen : len p h = .ok (text.length, h) := by
    show (ended (lenLoop p h.mem intRange 0)) h = _
    rw [lenLoop_eq hc (Nat.zero_le _) (by omega)]
    rfl
  show (len p h >>= fun x => _) = _
  rw [hlen]
  rfl

/-- It is the last position unless the first character is the only one. -/
theorem isLast_lastPosLoop_iff (hc : Chars h.mem p text) (hne : c ≠ 0) :
    IsLast text c (lastPosLoop p c h.mem text.length) ↔ (c ∈ text → c ∈ text.tail) := by
  have hall : ∀ j ∈ occurrences text c, j ≤ text.length := by
    intro j hj
    exact Nat.le_of_lt (lt_of_mem_occurrences hj)
  rw [mem_tail_iff]
  rcases lastPosLoop_spec hc hne le_rfl with ⟨hnone, hzero⟩ | ⟨i, hfound, hpos, hmem, hmost⟩
  · rw [hnone]
    constructor
    · rintro (⟨-, hnot⟩ | ⟨i, hi, -⟩) hin
      · exact absurd hin hnot
      · omega
    · intro hcond
      refine Or.inl ⟨rfl, fun hin => ?_⟩
      rcases hcond hin with ⟨j, hj, hpos⟩
      have hj0 := hzero j hj (hall j hj)
      omega
  · refine iff_of_true (Or.inr ⟨i, hfound, hmem, fun j hj => hmost j hj (hall j hj)⟩) ?_
    intro _
    exact ⟨i, hmem, hpos⟩

end Positions

/-- What a search for `c` from both ends has to return. -/
structure Searched (text : List UByte) (c : UByte) (first last : ℤ) : Prop where
  least : c ∈ text → ∃ i : ℕ, first = i ∧ IsLeast (occurrences text c) i
  greatest : c ∈ text → ∃ i : ℕ, last = i ∧ IsGreatest (occurrences text c) i
  first_absent : first = -1 ↔ c ∉ text
  last_absent : last = -1 ↔ c ∉ text
  ordered : first ≤ last
  same : first = last ↔ text.count c ≤ 1

theorem searched_iff {text : List UByte} {c : UByte} {first last : ℤ}
    (hfirst : IsFirst text c first) : Searched text c first last ↔ IsLast text c last := by
  constructor
  · intro hs
    by_cases hin : c ∈ text
    · exact Or.inr (hs.greatest hin)
    · exact Or.inl ⟨hs.last_absent.mpr hin, hin⟩
  · intro hlast
    rcases hfirst.meets hlast with ⟨hle, hsame⟩
    refine ⟨fun hin => ?_, fun hin => ?_, hfirst.eq_neg_one_iff, hlast.eq_neg_one_iff, hle, hsame⟩
    · exact hfirst.resolve_left fun hnone => hnone.2 hin
    · exact hlast.resolve_left fun hnone => hnone.2 hin

/-- **The two searches**: they return the least and the greatest index of `c` if and only if
`c`, where it occurs at all, does not only occur at index 0. -/
theorem positions_agree_iff (h : Heap) (p : UDword) (text : List UByte) (c : UByte)
    (hc : Chars h.mem p text) (hlt : text.length < intRange) (hne : c ≠ 0) :
    (∃ first last, firstPos p c h = .ok (first, h) ∧ lastPos p c h = .ok (last, h) ∧
      Searched text c first last) ↔ (c ∈ text → c ∈ text.tail) := by
  rcases firstPos_spec hc hlt hne with ⟨first, hfirst, hleast⟩
  rw [← isLast_lastPosLoop_iff hc hne]
  constructor
  · rintro ⟨first', last, hrun, hrun', hs⟩
    rw [hfirst] at hrun
    rw [lastPos_run hc hlt] at hrun'
    cases hrun
    cases hrun'
    exact (searched_iff hleast).mp hs
  · intro hlast
    exact ⟨first, _, hfirst, lastPos_run hc hlt, (searched_iff hleast).mpr hlast⟩

/-- `"ab"`, at `0x1000`. -/
def abHeap : Heap where
  mem := ⟨fun a => if a = 0x1000 then 0x61 else if a = 0x1001 then 0x62 else 0, []⟩
  header := 0x4000
  handlers := fun _ => none
  raised := []

theorem chars_ab : Chars abHeap.mem 0x1000 [0x61, 0x62] := by
  refine ⟨?_, by decide⟩
  intro i hi
  have hcases : i = 0 ∨ i = 1 ∨ i = 2 := by
    have hlength : [(0x61 : UByte), 0x62].length = 2 := rfl
    omega
  rcases hcases with rfl | rfl | rfl <;> rfl

/-- `last_pos("ab", 'b')`. -/
theorem positions_agree_b : ∃ first last, firstPos 0x1000 0x62 abHeap = .ok (first, abHeap) ∧
    lastPos 0x1000 0x62 abHeap = .ok (last, abHeap) ∧ Searched [0x61, 0x62] 0x62 first last :=
  (positions_agree_iff abHeap 0x1000 [0x61, 0x62] 0x62 chars_ab (by decide) (by decide)).mpr
    (by decide)

/-- `last_pos("ab", 'a')` returns -1. -/
theorem lastPos_missesFirst : Chars abHeap.mem 0x1000 [0x61, 0x62] ∧
    ¬ ∃ first last, firstPos 0x1000 0x61 abHeap = .ok (first, abHeap) ∧
      lastPos 0x1000 0x61 abHeap = .ok (last, abHeap) ∧ Searched [0x61, 0x62] 0x61 first last := by
  refine ⟨chars_ab, ?_⟩
  rintro ⟨first, last, -, hlast, hs⟩
  rw [lastPos_run chars_ab (by decide)] at hlast
  have hnone : lastPosLoop 0x1000 0x61 abHeap.mem 2 = -1 := by decide
  have heq : lastPosLoop 0x1000 0x61 abHeap.mem 2 = last := congrArg Prod.fst (Except.ok.inj hlast)
  exact hs.last_absent.mp (heq.symm.trans hnone) (by decide)

/-! ## Moving a string -/

/-- The `n` bytes from `p` on. -/
def buffer (p : UDword) (n : ℕ) : Set UDword := {a | ∃ i < n, a = p + BitVec.ofNat 32 i}

/-- The addresses of a string are different ones. -/
theorem add_ofNat_inj {p : UDword} {i j : ℕ} (hi : i < 2 ^ 32) (hj : j < 2 ^ 32) :
    p + BitVec.ofNat 32 i = p + BitVec.ofNat 32 j ↔ i = j := by
  refine ⟨fun heq => ?_, fun heq => by rw [heq]⟩
  have hnat := congrArg BitVec.toNat (BitVec.add_right_inj _ |>.mp heq)
  rw [toNat_ofNat_of_lt hi, toNat_ofNat_of_lt hj] at hnat
  exact hnat

/-- The characters `step .. k - 1` have been moved; all that was touched is in the buffer. -/
structure PartlyMoved (m : Mem) (p : UDword) (text : List UByte) (step k : ℕ) (w : Watched) :
    Prop where
  bytes : ∀ j ≤ text.length, w.mem.bytes (p + BitVec.ofNat 32 j) =
    text.getD (if j + step < k then j + step else j) 0
  writes : Writes (buffer p (text.length + 1)) m w.mem
  reads : ∀ a ∈ w.reads, a ∈ buffer p (text.length + 1)

section Move
variable {m : Mem} {p : UDword} {text : List UByte} {step k fuel : ℕ} {w : Watched}

/-- One iteration. -/
theorem PartlyMoved.next (hm : PartlyMoved m p text step k w) (hlt : text.length < intRange)
    (hle : step ≤ k) (hk : k ≤ text.length) :
    PartlyMoved m p text step (k + 1)
      ⟨w.mem.write8 (p + BitVec.ofNat 32 (k - step)) (w.mem.read8 (p + BitVec.ofNat 32 k)),
        (p + BitVec.ofNat 32 k) :: (p + BitVec.ofNat 32 k) :: w.reads⟩ := by
  unfold intRange at hlt
  have hin : p + BitVec.ofNat 32 k ∈ buffer p (text.length + 1) := ⟨k, by omega, rfl⟩
  refine ⟨?_, hm.writes.trans (writes_write8 _ _ ⟨k - step, by omega, rfl⟩), ?_⟩
  · intro j hj
    dsimp only
    by_cases hjk : j = k - step
    · -- the character that is moved; it is still where it was
      have hchar : w.mem.read8 (p + BitVec.ofNat 32 k) = text.getD k 0 := by
        have hbyte := hm.bytes k hk
        rw [if_neg (by omega)] at hbyte
        exact hbyte
      rw [hjk, Mem.write8_bytes_self, hchar, if_pos (by omega), Nat.sub_add_cancel hle]
    · have hne : p + BitVec.ofNat 32 j ≠ p + BitVec.ofNat 32 (k - step) := by
        intro heq
        exact hjk ((add_ofNat_inj (by omega) (by omega)).mp heq)
      rw [Mem.write8_bytes_ne _ _ hne, hm.bytes j hj]
      by_cases hbefore : j + step < k
      · rw [if_pos hbefore, if_pos (by omega)]
      · rw [if_neg hbefore, if_neg (by omega)]
  · intro a ha
    rcases List.mem_cons.mp ha with rfl | ha
    · exact hin
    · rcases List.mem_cons.mp ha with rfl | ha
      · exact hin
      · exact hm.reads a ha

/-- The loop ends behind the terminator that it has moved. -/
theorem moveLoop_spec (hc : Chars m p text) (hlt : text.length < intRange)
    (hm : PartlyMoved m p text step k w) (hle : step ≤ k) (hk : k ≤ text.length)
    (hfuel : text.length - k < fuel) :
    ∃ w', moveLoop p (BitVec.ofNat 32 step) fuel (BitVec.ofNat 32 k - 1) w =
        some (BitVec.ofNat 32 text.length, w') ∧
      PartlyMoved m p text step (text.length + 1) w' := by
  induction fuel generalizing k w with
  | zero => omega
  | succ fuel ih =>
    have hnext := hm.next hlt hle hk
    have hlt' := hlt
    unfold intRange at hlt'
    have hi : BitVec.ofNat 32 k - 1 + 1 = BitVec.ofNat 32 k := by bv_omega
    have hdiff : BitVec.ofNat 32 k - BitVec.ofNat 32 step = BitVec.ofNat 32 (k - step) := by
      bv_omega
    -- with `step = 0` the character is moved onto itself
    have hread : (w.mem.write8 (p + BitVec.ofNat 32 (k - step))
        (w.mem.read8 (p + BitVec.ofNat 32 k))).read8 (p + BitVec.ofNat 32 k) = text.getD k 0 := by
      have hbyte := hnext.bytes k hk
      by_cases hstay : k + step < k + 1
      · rw [if_pos hstay, show k + step = k by omega] at hbyte
        exact hbyte
      · rw [if_neg hstay] at hbyte
        exact hbyte
    unfold moveLoop
    simp only [hi, Watched.read8, Watched.write8, hdiff, hread]
    by_cases hlast : k = text.length
    · -- the null character has been moved too
      have hnull : text.getD k 0 = 0 := by
        rw [hlast]
        simp
      rw [if_neg (not_not.mpr hnull), hlast]
      rw [hlast] at hnext
      exact ⟨_, rfl, hnext⟩
    · have hchar : text.getD k 0 ≠ 0 := by
        rw [List.getD_eq_getElem _ _ (by omega)]
        exact hc.nonzero _ (List.getElem_mem _)
      rw [if_pos hchar]
      have hsucc : BitVec.ofNat 32 (k + 1) - 1 = BitVec.ofNat 32 k := by bv_omega
      have hrest := ih hnext (by omega) (by omega) (by omega)
      rw [hsucc] at hrest
      exact hrest

/-- What is left once the terminator has been moved. -/
theorem PartlyMoved.chars (hc : Chars m p text) (hle : step ≤ text.length)
    (hm : PartlyMoved m p text step (text.length + 1) w) : Chars w.mem p (text.drop step) := by
  refine ⟨?_, fun c hmem => hc.nonzero c (List.mem_of_mem_drop hmem)⟩
  intro j hj
  rw [List.length_drop] at hj
  rw [hm.bytes j (by omega), if_pos (by omega), List.getD_eq_getElem?_getD,
    List.getD_eq_getElem?_getD, List.getElem?_drop, Nat.add_comm]

end Move

/-- What moving a string in its own buffer has to do. -/
structure MovesInside (m : Mem) (p : UDword) (text : List UByte) (step : UDword) (w : Watched) :
    Prop where
  writes : Writes (buffer p (text.length + 1)) m.watch w.mem
  reads : ∀ a ∈ w.reads, a ∈ buffer p (text.length + 1)
  chars : Chars w.mem p (text.drop step.toNat)

section Move
variable {m : Mem} {p step : UDword} {text : List UByte}

/-- The whole run: the loop, and the terminator that is stored after it. -/
theorem moveStringBy_run (hc : Chars m p text) (hlt : text.length < intRange)
    (hle : step.toNat ≤ text.length) :
    ∃ w, moveStringBy p step ⟨m.watch, []⟩ =
        some (w.write8 (p + BitVec.ofNat 32 (text.length - step.toNat + 1)) 0) ∧
      PartlyMoved m.watch p text step.toNat (text.length + 1) w := by
  have hstart : PartlyMoved m.watch p text step.toNat step.toNat ⟨m.watch, []⟩ := by
    refine ⟨?_, Writes.refl _ _, fun a ha => by cases ha⟩
    intro j hj
    rw [if_neg (by omega)]
    exact hc.bytes j hj
  have hwatch : Chars m.watch p text := hc.congr fun _ _ => rfl
  have hfuel : text.length - step.toNat < intRange := by omega
  rcases moveLoop_spec hwatch hlt hstart le_rfl hle hfuel with ⟨w, hrun, hmoved⟩
  have hstep : BitVec.ofNat 32 step.toNat = step := by rw [BitVec.ofNat_toNat, BitVec.setWidth_eq]
  have hlast : BitVec.ofNat 32 text.length - step + 1 =
      BitVec.ofNat 32 (text.length - step.toNat + 1) := by
    unfold intRange at hlt
    bv_omega
  rw [hstep] at hrun
  refine ⟨w, ?_, hmoved⟩
  unfold moveStringBy
  rw [hrun, ← hlast]
  rfl

/-- **`move_string_by`** stays inside of the buffer and leaves the rest of the string if and
only if it moves it at all. -/
theorem moveStringBy_inside_iff (m : Mem) (p step : UDword) (text : List UByte)
    (hc : Chars m p text) (hlt : text.length < intRange) (hle : step.toNat ≤ text.length) :
    (∃ w, moveStringBy p step ⟨m.watch, []⟩ = some w ∧ MovesInside m p text step w) ↔
      1 ≤ step.toNat := by
  rcases moveStringBy_run hc hlt hle with ⟨w, hrun, hmoved⟩
  have hlt' := hlt
  unfold intRange at hlt'
  rw [hrun]
  constructor
  · rintro ⟨w', heq, hinside⟩
    rw [← Option.some.inj heq] at hinside
    -- where the second terminator goes
    have hmem : p + BitVec.ofNat 32 (text.length - step.toNat + 1) ∈
        (w.write8 (p + BitVec.ofNat 32 (text.length - step.toNat + 1)) 0).mem.written :=
      List.mem_cons_self
    rcases hinside.writes.inside _ hmem with hnone | ⟨i, hi, haddr⟩
    · cases hnone
    · have hsame := (add_ofNat_inj (by omega) (by omega)).mp haddr
      omega
  · intro hpos
    have hin : p + BitVec.ofNat 32 (text.length - step.toNat + 1) ∈ buffer p (text.length + 1) :=
      ⟨_, by omega, rfl⟩
    have hwatch : Chars m.watch p text := hc.congr fun _ _ => rfl
    have hchars := hmoved.chars hwatch hle
    refine ⟨_, rfl, hmoved.writes.trans (writes_write8 _ _ hin), hmoved.reads, ?_⟩
    refine hchars.congr fun i hi => Mem.write8_bytes_ne _ _ ?_
    intro heq
    rw [List.length_drop] at hi
    have hsame := (add_ofNat_inj (by omega) (by omega)).mp heq
    omega

end Move

/-- `move_string_by("ab", 1)`. -/
theorem moveStringBy_one : ∃ w, moveStringBy 0x1000 1 ⟨abHeap.mem.watch, []⟩ = some w ∧
    MovesInside abHeap.mem 0x1000 [0x61, 0x62] 1 w :=
  (moveStringBy_inside_iff abHeap.mem 0x1000 1 [0x61, 0x62] chars_ab (by decide)
    (by decide)).mpr (by decide)

theorem moveStringBy_run_zero : ∃ w, moveStringBy 0x1000 0 ⟨abHeap.mem.watch, []⟩ =
    some (w.write8 (0x1000 + BitVec.ofNat 32 3) 0) ∧
      PartlyMoved abHeap.mem.watch 0x1000 [0x61, 0x62] 0 3 w :=
  moveStringBy_run chars_ab (by decide) (by decide)

/-- `move_string_by("ab", 0)` stores behind the three bytes of the string. -/
theorem moveStringBy_zeroOutside : Chars abHeap.mem 0x1000 [0x61, 0x62] ∧
    ¬ ∃ w, moveStringBy 0x1000 0 ⟨abHeap.mem.watch, []⟩ = some w ∧
      MovesInside abHeap.mem 0x1000 [0x61, 0x62] 0 w := by
  refine ⟨chars_ab, ?_⟩
  rintro ⟨w, hrun, hinside⟩
  rcases moveStringBy_run_zero with ⟨w₀, hrun₀, -⟩
  rw [hrun₀] at hrun
  rw [← Option.some.inj hrun] at hinside
  rcases hinside.writes.inside 0x1003 List.mem_cons_self with hnone | ⟨i, hi, haddr⟩
  · cases hnone
  · have hlength : [(0x61 : UByte), 0x62].length = 2 := rfl
    have haddr' : (0x1000 : UDword) + BitVec.ofNat 32 3 = 0x1000 + BitVec.ofNat 32 i := haddr
    have hsame := (add_ofNat_inj (by omega) (by omega)).mp haddr'
    omega

end MushOS
