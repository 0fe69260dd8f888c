import MushOS.Theory.CallFrame
import MushOS.Theory.WordStack
import MushOS.Base.Live

/-! # vararg.h, vararg.c: reading the arguments of a variadic function

`get_arg` adds the offset of an argument to the frame pointer, past the saved
frame pointer and the return address. `extract_dword_args` copies the arguments
of its caller to an array on the heap: the array holds them in order
(`extractDwordArgs_spec`).

`get_vararg` goes from one argument to the next by the size of the type, or by 4 if that is
more. A size like 6 is not rounded up, as `init_vararg` does with the first parameter: the
arguments after it are read too low (`followsCdecl_iff`).
-/

namespace MushOS

open ByteMemory WordStack Attempts CallFrame

/-! ## Model -/

/-- The address `get_arg(skip, type)` reads at. -/
def argAddress (ebp skip : UDword) : UDword := ebp + (8 + skip)

/-- `get_arg(skip, u_dword)`. -/
def getArg (ebp skip : UDword) (s : Stack) : UDword := s.load (argAddress ebp skip)

/-- `max` of `math.c`. -/
def maxDword (first second : UDword) : UDword := if first > second then first else second

/-- `init_vararg(skip)`: the offset of the first argument. -/
def initVararg (skip : UDword) : UDword :=
  let offset := skip &&& 0xfffffffc
  if skip % 4 ≠ 0 then offset + 4 else offset

/-- What `get_vararg(offset, type)` turns the offset into, for a type of `sizeof` bytes. -/
def nextVararg (offset sizeof : UDword) : UDword := offset + maxDword sizeof 4

/-- `get_arg(skip, type)` for a type of `sizeof` bytes. -/
def getArgBytes (m : Mem) (ebp skip sizeof : UDword) : List UByte :=
  (List.range sizeof.toNat).map fun i => m.read8 (argAddress ebp skip + BitVec.ofNat 32 i)

/-- `get_vararg(offset, type)`: what it reads, and the offset after it. -/
def getVararg (m : Mem) (ebp offset sizeof : UDword) : List UByte × UDword :=
  (getArgBytes m ebp offset sizeof, nextVararg offset sizeof)

/-- `get_vararg` for one type after another: where it reads, and what. -/
def varargWalk (m : Mem) (ebp : UDword) : UDword → List UDword → List (UDword × List UByte)
  | _, [] => []
  | offset, sizeof :: types =>
    let (result, next) := getVararg m ebp offset sizeof
    (argAddress ebp offset, result) :: varargWalk m ebp next types

/-- `get_arg(skip, type)` for a type of one byte. -/
def getByteArg (ebp skip : UDword) (s : Stack) : UByte := (getArg ebp skip s).setWidth 8

/-- `get_arg(skip, type)` for a type of eight bytes. -/
def getQwordArg (ebp skip : UDword) (s : Stack) : BitVec 64 :=
  getArg ebp (skip + 4) s ++ getArg ebp skip s

/-- Iterations `0 .. n - 1` of the loop of `extract_dword_args`. -/
def extractLoop (s : Stack) (ebp args : UDword) : ℕ → Mem → Mem
  | 0, m => m
  | n + 1, m => (extractLoop s ebp args n m).write32 (args + BitVec.ofNat 32 (4 * n))
      (getArg ebp (4 * BitVec.ofNat 32 (n + 1)) s)

/-- `extract_dword_args(args_num, ...)`, with the stack and the frame pointer it has. -/
def extractDwordArgs (argsNum ebp : UDword) (s : Stack) : HeapM UDword := do
  let args ← ralloc (argsNum * 4)
  writes (extractLoop s ebp args argsNum.toNat)
  return args

/-! ## The array -/

section
variable {h : Heap} {S : Finset Block} {s : Stack} {args : List UDword} {p ebp : UDword} {n k : ℕ}
  {m : Mem}

theorem toNat_arrayAddress (hfit : p.toNat + 4 * n ≤ 2 ^ 32) (hk : k < n) :
    (p + BitVec.ofNat 32 (4 * k)).toNat = p.toNat + 4 * k := toNat_add_ofNat (by omega)

theorem writes_extractLoop (hfit : p.toNat + 4 * n ≤ 2 ^ 32) :
    Writes (span p.toNat (4 * n)) m (extractLoop s ebp p n m) := by
  induction n with
  | zero => exact Writes.refl _ m
  | succ n ih =>
    have haddr := toNat_arrayAddress (k := n) hfit (by omega)
    refine ((ih (by omega)).mono ?_).trans (writes_write32 _ _ (by omega) ?_)
    · intro a ha
      simp only [mem_span] at ha ⊢
      omega
    · intro a ha
      simp only [mem_span] at ha ⊢
      omega

theorem read32_extractLoop (hfit : p.toNat + 4 * n ≤ 2 ^ 32) (hk : k < n) :
    (extractLoop s ebp p n m).read32 (p + BitVec.ofNat 32 (4 * k)) =
      getArg ebp (4 * BitVec.ofNat 32 (k + 1)) s := by
  induction n with
  | zero => omega
  | succ n ih =>
    rw [extractLoop]
    by_cases hkn : k = n
    · rw [hkn, Mem.read32_write32_self]
    · have haddr := toNat_arrayAddress (k := n) hfit (by omega)
      have haddr' := toNat_arrayAddress (k := k) hfit (by omega)
      rw [read32_write32_ne _ _ (by omega) (by omega) (by omega), ih (by omega) (by omega)]

/-- Argument `k` in the frame of the callee: below the saved frame pointer, the return
address and the first argument, which has a name. -/
theorem getArg_frame {saved ret num : UDword} (hk : k < args.length) (hlt : k + 3 < 2 ^ 30) :
    getArg (s.pushAll (saved :: ret :: num :: args)).top (4 * BitVec.ofNat 32 (k + 1))
      (s.pushAll (saved :: ret :: num :: args)) = args[k] := by
  have hslot : argAddress (s.pushAll (saved :: ret :: num :: args)).top
      (4 * BitVec.ofNat 32 (k + 1)) =
          (s.pushAll (saved :: ret :: num :: args)).slot (0 + (k + 3)) := by
    unfold argAddress Stack.top
    rw [← Stack.slot_add]
    congr 1
    bv_omega
  unfold getArg
  rw [hslot, Stack.load_slot (by simp [Stack.pushAll]; omega) (by omega)]
  simp [Stack.pushAll, hk]

/-- What `extract_dword_args` does with a block for the array. -/
theorem extractDwordArgs_of_allocates {E : Set Fault} {R : Block → Prop} {saved ret : UDword}
    (hlt : args.length < 2 ^ 29) (ha : Allocates E S h (4 * args.length) R) :
    Yields strict E (extractDwordArgs (BitVec.ofNat 32 args.length)
        (s.pushAll (saved :: ret :: BitVec.ofNat 32 args.length :: args)).top
        (s.pushAll (saved :: ret :: BitVec.ofNat 32 args.length :: args))) h fun p h' =>
      Obtains S h (BitVec.ofNat 32 args.length * 4) p h' ∧
        ∀ k (hk : k < args.length), h'.mem.read32 (p + BitVec.ofNat 32 (4 * k)) = args[k] := by
  have hnum : (BitVec.ofNat 32 args.length).toNat = args.length := by
    rw [BitVec.toNat_ofNat, Nat.mod_eq_of_lt (by omega)]
  have hsize : (BitVec.ofNat 32 args.length * 4).toNat = 4 * args.length := by
    rw [BitVec.toNat_mul, hnum]
    show args.length * 4 % 2 ^ 32 = _
    omega
  refine (ha _ hsize).bind ?_
  rintro p h₁ ⟨-, hgot⟩
  have hmem := Finset.mem_insert_self (⟨p, BitVec.ofNat 32 args.length * 4⟩ : Block) S
  have hbound := hgot.live.payload_lt hmem
  simp only [hsize] at hbound
  have hw := @writes_extractLoop
    (s.pushAll (saved :: ret :: BitVec.ofNat 32 args.length :: args)) p
    (s.pushAll (saved :: ret :: BitVec.ofNat 32 args.length :: args)).top
      args.length h₁.mem (by omega)
  refine (succeeds_writes _ h₁).bind fun _ h₂ hh₂ => Yields.pure ?_
  subst hh₂
  rw [hnum]
  refine ⟨hgot.write (by unfold Block.payload; rw [hsize]; exact hw), ?_⟩
  intro k hk
  rw [read32_extractLoop (by omega) hk, getArg_frame hk (by omega)]

/-- **`extract_dword_args`** returns a new array of the arguments, unless the allocation
fails. -/
theorem extractDwordArgs_spec {saved ret : UDword} (hl : Live h S) (hlt : args.length < 2 ^ 29)
    (hempty : S = ∅ → h.heapStart.toNat + 12 + 4 * args.length ≤ h.heapEnd.toNat ∧
      h.heapStart.toNat + 12 < h.heapEnd.toNat) :
    Succeeds (extractDwordArgs (BitVec.ofNat 32 args.length)
        (s.pushAll (saved :: ret :: BitVec.ofNat 32 args.length :: args)).top
        (s.pushAll (saved :: ret :: BitVec.ofNat 32 args.length :: args))) h fun p h' =>
      Obtains S h (BitVec.ofNat 32 args.length * 4) p h' ∧
        ∀ k (hk : k < args.length), h'.mem.read32 (p + BitVec.ofNat 32 (4 * k)) = args[k] :=
  extractDwordArgs_of_allocates hlt (hl.allocates (by omega) hempty)

end

/-! ## From one argument to the next -/

/-- What is read is where the arguments are, after a first parameter of `skip` bytes. -/
def FollowsCdecl (m : Mem) (ebp skip : UDword) (types : List UDword) : Prop :=
  ∀ k < types.length, ((varargWalk m ebp (initVararg skip) types)[k]?).map Prod.fst =
    some (ebp + 8 + BitVec.ofNat 32 (offset ((skip :: types).map BitVec.toNat) (k + 1)))

section Walk
variable {ebp skip size o : UDword} {types : List UDword} {k n : ℕ} {m : Mem}

theorem umod_four_iff (w : UDword) : w % 4 = 0 ↔ w.toNat % 4 = 0 := by
  rw [← BitVec.toNat_inj, BitVec.toNat_umod]
  rfl

/-- The mask of `init_vararg` rounds down. -/
theorem toNat_mask (skip : UDword) :
    (skip &&& (0xfffffffc : UDword)).toNat = skip.toNat / 4 * 4 := by
  have hbits : ∀ i < 32, (0xfffffffc : UDword).getLsbD i = decide (2 ≤ i) := by decide
  have hmask : skip &&& (0xfffffffc : UDword) = (skip >>> 2) <<< 2 := by
    apply BitVec.eq_of_getLsbD_eq
    intro i hi
    rw [BitVec.getLsbD_and, BitVec.getLsbD_shiftLeft, BitVec.getLsbD_ushiftRight, hbits i hi]
    by_cases hlow : i < 2
    · simp [hlow]
    · have hback : 2 + (i - 2) = i := by omega
      have hge : 2 ≤ i := by omega
      simp [hlow, hi, hback, hge]
  have hlt := skip.isLt
  rw [hmask, BitVec.toNat_shiftLeft, BitVec.toNat_ushiftRight, Nat.shiftLeft_eq,
    Nat.shiftRight_eq_div_pow]
  omega

/-- The first parameter is rounded up. -/
theorem initVararg_eq (skip : UDword) :
    initVararg skip = BitVec.ofNat 32 (slotSize skip.toNat) := by
  have hmask := toNat_mask skip
  have hfour : (4 : UDword).toNat = 4 := rfl
  have hlt := skip.isLt
  unfold initVararg slotSize
  dsimp only
  rw [← BitVec.toNat_inj, BitVec.toNat_ofNat]
  by_cases h4 : skip % 4 = 0
  · have hmod := (umod_four_iff skip).mp h4
    rw [if_neg (not_not.mpr h4), hmask]
    omega
  · have hmod := mt (umod_four_iff skip).mpr h4
    rw [if_pos h4, BitVec.toNat_add, hmask, hfour]
    omega

/-- The sizes that `get_vararg` rounds up as it should. -/
theorem maxDword_eq_iff (hpos : 0 < size) :
    maxDword size 4 = BitVec.ofNat 32 (slotSize size.toNat) ↔ size ≤ 4 ∨ size % 4 = 0 := by
  have hpos' : 0 < size.toNat := hpos
  have hfour : (4 : UDword).toNat = 4 := rfl
  have hle : size ≤ 4 ↔ size.toNat ≤ 4 := BitVec.le_def
  have hgt : size > 4 ↔ 4 < size.toNat := BitVec.lt_def
  have hlt := size.isLt
  unfold maxDword slotSize
  rw [umod_four_iff, hle, ← BitVec.toNat_inj, BitVec.toNat_ofNat]
  by_cases h : size > 4
  · have hbig := hgt.mp h
    rw [if_pos h]
    omega
  · have hsmall := mt hgt.mpr h
    rw [if_neg h, hfour]
    omega

/-- The first address. -/
theorem argAddress_ofNat (ebp : UDword) (n : ℕ) :
    argAddress ebp (BitVec.ofNat 32 n) = ebp + 8 + BitVec.ofNat 32 n := by
  unfold argAddress
  rw [BitVec.add_assoc]

/-- The walk, from an argument that is where it should be. -/
theorem varargWalk_iff (hpos : ∀ size ∈ types, 0 < size) :
    (∀ k < types.length, ((varargWalk m ebp (BitVec.ofNat 32 n) types)[k]?).map Prod.fst =
        some (ebp + 8 + BitVec.ofNat 32 (n + offset (types.map BitVec.toNat) k))) ↔
      ∀ size ∈ types.dropLast, size ≤ 4 ∨ size % 4 = 0 := by
  induction types generalizing n with
  | nil => simp
  | cons size types ih =>
    have hsize := hpos size List.mem_cons_self
    have hrest : ∀ size ∈ types, 0 < size := fun size h => hpos size (List.mem_cons_of_mem _ h)
    have hwalk : ∀ k, (varargWalk m ebp (BitVec.ofNat 32 n) (size :: types))[k + 1]? =
        (varargWalk m ebp (BitVec.ofNat 32 n + maxDword size 4) types)[k]? := fun k => rfl
    cases types with
    | nil =>
      -- nothing is read after the last argument
      refine ⟨fun _ _ h => absurd h List.not_mem_nil, fun _ k hk => ?_⟩
      have hk0 : k = 0 := by simpa using hk
      subst hk0
      exact congrArg some (argAddress_ofNat ebp n)
    | cons next types =>
      rw [List.dropLast_cons_cons, List.forall_mem_cons, ← maxDword_eq_iff hsize]
      by_cases hadvance : maxDword size 4 = BitVec.ofNat 32 (slotSize size.toNat)
      · -- the next one is where it should be as well
        have hnext := ih (n := n + slotSize size.toNat) hrest
        rw [BitVec.ofNat_add, ← hadvance] at hnext
        rw [and_iff_right hadvance, ← hnext, List.length_cons, Nat.forall_lt_succ_left]
        constructor
        · rintro ⟨-, h⟩ k hk
          have hk' := h k hk
          rw [hwalk, List.map_cons, offset_cons, ← Nat.add_assoc] at hk'
          exact hk'
        · intro h
          refine ⟨congrArg some (argAddress_ofNat ebp n), fun k hk => ?_⟩
          rw [hwalk, List.map_cons, offset_cons, ← Nat.add_assoc]
          exact h k hk
      · refine ⟨fun h => ?_, fun h => absurd h.1 hadvance⟩
        have hsecond := Option.some.inj (h 1 (by simp))
        rw [List.map_cons, offset_cons, offset_zero, Nat.add_zero, BitVec.ofNat_add] at hsecond
        have hoffset : argAddress ebp (BitVec.ofNat 32 n + maxDword size 4) =
            ebp + 8 + (BitVec.ofNat 32 n + BitVec.ofNat 32 (slotSize size.toNat)) := hsecond
        unfold argAddress at hoffset
        exact absurd (by bv_omega) hadvance

/-- **The walk follows cdecl** if and only if no size but the last is more than a word and not
whole words. -/
theorem followsCdecl_iff (m : Mem) (ebp skip : UDword) (hpos : ∀ size ∈ types, 0 < size) :
    FollowsCdecl m ebp skip types ↔ ∀ size ∈ types.dropLast, size ≤ 4 ∨ size % 4 = 0 := by
  unfold FollowsCdecl
  rw [← @varargWalk_iff ebp types (slotSize skip.toNat) m hpos, initVararg_eq]
  simp only [List.map_cons, offset_cons]

/-- Arguments of two, four and eight bytes. -/
theorem followsCdecl_longs : FollowsCdecl noHeap.mem 0x8ff0 4 [2, 4, 8] :=
  (followsCdecl_iff noHeap.mem 0x8ff0 4 (by simp)).mpr (by simp)

/-- An argument of six bytes takes eight, and the one after it is read two bytes too low. -/
theorem not_followsCdecl_six : ¬ FollowsCdecl noHeap.mem 0x8ff0 4 [6, 4] := by
  intro hfollows
  have hsecond := hfollows 1 (by decide)
  exact absurd hsecond (by decide)

/-- What the walk reads is what is where it reads. -/
theorem varargWalk_snd {o a : UDword} {value : List UByte} (hk : k < types.length)
    (hread : (varargWalk m ebp o types)[k]? = some (a, value)) :
    value = (List.range types[k].toNat).map fun i => m.read8 (a + BitVec.ofNat 32 i) := by
  induction types generalizing o k with
  | nil => exact absurd hk (Nat.not_lt_zero k)
  | cons size types ih =>
    cases k with
    | zero =>
      rcases Prod.mk.inj (Option.some.inj hread) with ⟨rfl, rfl⟩
      rfl
    | succ k => exact ih (Nat.lt_of_succ_lt_succ hk) hread

/-- A walk that follows cdecl returns the arguments. -/
theorem FollowsCdecl.reads {first : List UByte} {args : List (List UByte)} {a : UDword}
    {value : List UByte} (hfollows : FollowsCdecl m ebp skip types)
    (hholds : HoldsArgs m (ebp + 8) (first :: args)) (hskip : skip.toNat = first.length)
    (htypes : types.map BitVec.toNat = args.map List.length) (hk : k < args.length)
    (hread : (varargWalk m ebp (initVararg skip) types)[k]? = some (a, value)) :
    value = args[k] := by
  have hlength : types.length = args.length := by
    simpa using congrArg List.length htypes
  have hsize : types[k].toNat = args[k].length := by
    have hget := congrArg (·[k]?) htypes
    simpa [hk, hlength] using hget
  have hplace := hfollows k (by omega)
  rw [hread, List.map_cons, htypes, hskip] at hplace
  have ha : a = ebp + 8 + BitVec.ofNat 32 (offset ((first :: args).map List.length) (k + 1)) :=
    Option.some.inj hplace
  rw [varargWalk_snd (by omega) hread]
  refine List.ext_getElem (by simp [hsize]) fun i hi hi' => ?_
  have hbyte : m.bytes (ebp + 8 + BitVec.ofNat 32
      (offset ((first :: args).map List.length) (k + 1) + i)) = args[k][i] :=
    hholds (k + 1) (Nat.succ_lt_succ hk) i hi'
  rw [List.getElem_map, List.getElem_range, ← hbyte, ha, BitVec.ofNat_add, BitVec.add_assoc]
  rfl

end Walk

end MushOS
