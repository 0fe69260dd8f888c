import MushOS.Base.Memory

/-! # interruption_tables.c, interruptions.asm: from a vector to its handler

A vector passes three tables: the processor takes the entry of the interrupt
descriptor table, the entry leads to an assembly stub, the stub pushes a number,
and the C dispatcher takes the handler at this number. Every vector up to 52 has
a stub of its own, which pushes the vector itself. The vectors from 53 on share
`isr32`, which pushes 32: the number of the timer (`dispatch_honours_iff`).

Where the linker puts the stubs is a parameter. What a handler does is left out
here, and so is what the messages go through on their way to the screen.
-/

namespace MushOS

/-! ## Model: the stubs -/

/-- The labels of interruptions.asm, `isr0` to `isr52` and `irq0` to `irq15`. -/
inductive Stub where
  | isr (n : UByte)
  | irq (n : UByte)
deriving DecidableEq, Repr

/-- What the stub pushes as `int_no`. -/
def Stub.number : Stub → UDword
  | .isr n => n.setWidth 32
  | .irq n => n.setWidth 32 + 32

/-- Where things are in the kernel image: what lies at the address of a stub is the
stub, and a function is not at address 0. -/
structure Placement where
  address : Stub → UDword
  code : UDword → Option Stub
  silentInterruptHandler : UDword
  code_address : ∀ stub, code (address stub) = some stub
  silent_ne : silentInterruptHandler ≠ 0

/-! ## Model: the descriptor table -/

structure IDTEntry where
  baseLow : UWord
  selector : UWord
  always0 : UByte
  flags : UByte
  baseHigh : UWord
deriving DecidableEq, Repr

/-- `sizeof(IDT_entry)`. -/
def sizeofIDTEntry : ℕ := 8

structure IDT where
  entries : ℕ → IDTEntry
  descriptorSize : UWord
  descriptorPos : UDword

def interruptionsPlacement : UDword := 0x500

def createIdtEntry (pos : ℕ) (base : UDword) (selector : UWord) (flags : UByte)
    (entries : ℕ → IDTEntry) : ℕ → IDTEntry :=
  Function.update entries pos ⟨base.setWidth 16, selector, 0, flags, (base >>> 16).setWidth 16⟩

/-- The entries `first .. first + n - 1`. -/
def createIdtEntries (place : Placement) (first : ℕ) (stub : ℕ → Stub) :
    ℕ → (ℕ → IDTEntry) → ℕ → IDTEntry
  | 0, entries => entries
  | n + 1, entries =>
    createIdtEntry (first + n) (place.address (stub n)) 0x08 0b10001110
      (createIdtEntries place first stub n entries)

/-- What interrupt handling does that can be seen from outside. -/
inductive InterruptionEvent where
  | portByteOut (port : UWord) (value : UByte)
  | bad (template : String)
  | info (template : String) (n : UDword)
  | panic (template : String) (n : UDword)
  | called (handler : UDword)
deriving DecidableEq, Repr

/-- The two interrupt controllers get the vectors from 32 on; their masks are kept. -/
def remapControllers (masterMask slaveMask : UByte) : List InterruptionEvent :=
  [.portByteOut 0x20 0x11, .portByteOut 0xA0 0x11, .portByteOut 0x21 0x20,
    .portByteOut 0xA1 0x28, .portByteOut 0x21 0x04, .portByteOut 0xA1 0x02,
    .portByteOut 0x21 0x01, .portByteOut 0xA1 0x01, .portByteOut 0x21 0x0,
    .portByteOut 0xA1 0x0, .portByteOut 0x21 masterMask, .portByteOut 0xA1 slaveMask]

def initInterruptions (place : Placement) (masterMask slaveMask : UByte) :
    List InterruptionEvent × IDT :=
  let entries : ℕ → IDTEntry := fun _ => ⟨0, 0, 0, 0, 0⟩
  let entries := createIdtEntries place 0 (fun i => .isr (BitVec.ofNat 8 i)) 32 entries
  let entries := createIdtEntries place 32 (fun i => .irq (BitVec.ofNat 8 i)) 16 entries
  let entries := createIdtEntries place 48 (fun i => .isr (BitVec.ofNat 8 (48 + i))) 5 entries
  let entries := createIdtEntries place 53 (fun _ => .isr 32) 203 entries
  (remapControllers masterMask slaveMask,
    ⟨entries, BitVec.ofNat 16 (256 * sizeofIDTEntry - 1), interruptionsPlacement⟩)

/-! ## Model: the handlers -/

/-- The array `interruption_handlers`; a null pointer is no handler. -/
abbrev InterruptionHandlers := ℕ → UDword

/-- `if (n != 32) info(template, n)`. -/
def announce (template : String) (n : UByte) : List InterruptionEvent :=
  if n ≠ 32 then [.info template (n.setWidth 32)] else []

def setInterruptHandler (n : UByte) (handler : UDword) (handlers : InterruptionHandlers) :
    List InterruptionEvent × InterruptionHandlers :=
  (announce "Handler set for interruption: %d\n" n, Function.update handlers n.toNat handler)

def silenceInterrupt (place : Placement) (n : UByte) (handlers : InterruptionHandlers) :
    List InterruptionEvent × InterruptionHandlers :=
  (announce "Interruption silenced: %d\n" n,
    Function.update handlers n.toNat place.silentInterruptHandler)

def defaultIrs : UDword := 32

def isrHandler (intNo : UDword) (handlers : InterruptionHandlers) : List InterruptionEvent :=
  (if intNo = defaultIrs then [.bad "Received undefined user interrupt."] else []) ++
    if handlers intNo.toNat ≠ 0 then [.called (handlers intNo.toNat)]
    else if intNo < 48 then [.panic "Received undefined interrupt: %h" intNo]
    else [.panic "Received some interrupt: %h" intNo]

def irqHandler (intNo : UDword) (handlers : InterruptionHandlers) : List InterruptionEvent :=
  (if intNo ≥ 40 then [.portByteOut 0xA0 0x20] else []) ++ [.portByteOut 0x20 0x20] ++
    if handlers intNo.toNat ≠ 0 then [.called (handlers intNo.toNat)]
    else [.info "Received hardware interrupt: %h\n" (intNo - 15)]

/-- `isr_common` and `irq_common` as far as the dispatch goes. -/
def Stub.dispatch (stub : Stub) (handlers : InterruptionHandlers) : List InterruptionEvent :=
  match stub with
  | .isr _ => isrHandler stub.number handlers
  | .irq _ => irqHandler stub.number handlers

/-- The processor takes vector `n`: the entry must be inside the table and present,
and there must be a stub at its base. -/
def IDT.raise (idt : IDT) (place : Placement) (n : UByte) (handlers : InterruptionHandlers) :
    Option (List InterruptionEvent) :=
  let entry := idt.entries n.toNat
  if sizeofIDTEntry * n.toNat + 7 ≤ idt.descriptorSize.toNat ∧ entry.flags.getLsbD 7 then
    (place.code (entry.baseHigh ++ entry.baseLow)).map fun stub => stub.dispatch handlers
  else none

/-! ## Model: histories -/

inductive Registration where
  | setInterruptHandler (n : UByte) (handler : UDword)
  | silenceInterrupt (n : UByte)

def Registration.vector : Registration → UByte
  | .setInterruptHandler n _ => n
  | .silenceInterrupt n => n

def Registration.handler (place : Placement) : Registration → UDword
  | .setInterruptHandler _ handler => handler
  | .silenceInterrupt _ => place.silentInterruptHandler

def Registration.perform (place : Placement) (handlers : InterruptionHandlers) :
    Registration → InterruptionHandlers
  | .setInterruptHandler n handler => (MushOS.setInterruptHandler n handler handlers).2
  | .silenceInterrupt n => (MushOS.silenceInterrupt place n handlers).2

/-- The handlers after a history, oldest registration first. At start-up there are none. -/
def handlersAfter (place : Placement) (history : List Registration) : InterruptionHandlers :=
  history.foldl (Registration.perform place) fun _ => 0

/-- The handler a history leaves for a vector: that of the last registration for it,
null when there is none. -/
def lastRegistered (place : Placement) (history : List Registration) (n : UByte) : UDword :=
  ((history.reverse.find? fun r => r.vector = n).map (Registration.handler place)).getD 0

/-- The handlers that were called. -/
def called (events : List InterruptionEvent) : List UDword :=
  events.filterMap fun e =>
    match e with
    | .called handler => some handler
    | _ => none

/-- A null pointer is not called. -/
def invocations (handler : UDword) : List UDword := if handler = 0 then [] else [handler]

/-- Vector `n` is dispatched, to the handler last registered for it and to no other. -/
def HonoursRegistration (place : Placement) (masterMask slaveMask : UByte)
    (history : List Registration) (n : UByte) : Prop :=
  ∃ events, (initInterruptions place masterMask slaveMask).2.raise place n
      (handlersAfter place history) = some events ∧
    called events = invocations (lastRegistered place history n)

/-! ## The descriptor table -/

section Dispatch
variable {place : Placement} {masterMask slaveMask n : UByte} {history : List Registration}

/-- The stub a vector is meant to reach. -/
def stubOf (n : ℕ) : Stub :=
  if n < 32 then .isr (BitVec.ofNat 8 n)
  else if n < 48 then .irq (BitVec.ofNat 8 (n - 32))
  else if n < 53 then .isr (BitVec.ofNat 8 n)
  else .isr 32

/-- An entry of a range that has been filled in, and one outside of it. -/
theorem createIdtEntries_apply (first k pos : ℕ) (stub : ℕ → Stub) (entries : ℕ → IDTEntry) :
    createIdtEntries place first stub k entries pos =
      if first ≤ pos ∧ pos < first + k then
        createIdtEntry pos (place.address (stub (pos - first))) 0x08 0b10001110 entries pos
      else entries pos := by
  induction k with
  | zero => rw [createIdtEntries, if_neg (by omega)]
  | succ k ih =>
    rw [createIdtEntries]
    unfold createIdtEntry at ih ⊢
    by_cases hpos : pos = first + k
    · subst hpos
      rw [Function.update_self, if_pos (by omega), Function.update_self, Nat.add_sub_cancel_left]
    · rw [Function.update_of_ne hpos, ih]
      by_cases hin : first ≤ pos ∧ pos < first + k
      · rw [if_pos hin, if_pos (by omega)]
      · rw [if_neg hin, if_neg (by omega)]

/-- The two halves of a base. -/
theorem base_halves (base : UDword) :
    ((base >>> 16).setWidth 16 : UWord) ++ (base.setWidth 16 : UWord) = base := by
  ext i hi
  rw [BitVec.getElem_append]
  simp
  grind

/-- Every vector reaches the stub it is meant to. -/
theorem raise_eq (n : UByte) (handlers : InterruptionHandlers) :
    (initInterruptions place masterMask slaveMask).2.raise place n handlers =
      some ((stubOf n.toNat).dispatch handlers) := by
  have hn := n.isLt
  have hentry : (initInterruptions place masterMask slaveMask).2.entries n.toNat =
      createIdtEntry n.toNat (place.address (stubOf n.toNat)) 0x08 0b10001110
        (fun _ => ⟨0, 0, 0, 0, 0⟩) n.toNat := by
    simp only [initInterruptions, createIdtEntries_apply]
    unfold createIdtEntry stubOf
    simp only [Function.update_self]
    split_ifs <;> first | omega | rfl | simp [*]
  unfold IDT.raise
  rw [hentry]
  unfold createIdtEntry
  simp only [Function.update_self, base_halves, place.code_address, Option.map_some]
  rw [if_pos]
  refine ⟨?_, by decide⟩
  show 8 * n.toNat + 7 ≤ 2047
  omega

/-! ## The handlers -/

/-- One registration is seen at its own vector only. -/
theorem perform_apply (r : Registration) (handlers : InterruptionHandlers) (n : UByte) :
    r.perform place handlers n.toNat =
      if r.vector = n then r.handler place else handlers n.toNat := by
  have hupdate : r.perform place handlers =
      Function.update handlers r.vector.toNat (r.handler place) := by
    cases r <;> rfl
  rw [hupdate]
  by_cases hn : r.vector = n
  · rw [if_pos hn, hn, Function.update_self]
  · have hne : n.toNat ≠ r.vector.toNat := fun h => hn (BitVec.eq_of_toNat_eq h.symm)
    rw [if_neg hn, Function.update_of_ne hne]

/-- The array holds the last registration of every vector. -/
theorem handlersAfter_eq (history : List Registration) (n : UByte) :
    handlersAfter place history n.toNat = lastRegistered place history n := by
  induction history using List.reverseRecOn with
  | nil => rfl
  | append_singleton history r ih =>
    unfold handlersAfter lastRegistered at ih ⊢
    rw [List.foldl_append, List.foldl_cons, List.foldl_nil, perform_apply, List.reverse_append,
      List.reverse_singleton, List.singleton_append, List.find?_cons]
    by_cases hn : r.vector = n
    · rw [if_pos hn]
      simp [hn]
    · rw [if_neg hn, ih]
      simp [hn]

/-- What a stub calls: the handler at the number it pushes. -/
theorem called_dispatch (stub : Stub) (handlers : InterruptionHandlers) :
    called (stub.dispatch handlers) = invocations (handlers stub.number.toNat) := by
  unfold invocations
  cases stub with
  | isr n =>
    show called (isrHandler _ handlers) = _
    unfold isrHandler called
    rw [List.filterMap_append]
    split_ifs <;> first | rfl | contradiction
  | irq n =>
    show called (irqHandler _ handlers) = _
    unfold irqHandler called
    rw [List.filterMap_append, List.filterMap_append]
    split_ifs <;> first | rfl | contradiction

/-- A stub of a vector up to 52 pushes that vector, and the others push 32. -/
theorem number_stubOf (n : UByte) :
    (stubOf n.toNat).number = if n.toNat < 53 then n.setWidth 32 else 32 := by
  revert n
  decide

theorem invocations_inj {a b : UDword} : invocations a = invocations b ↔ a = b := by
  constructor
  · intro h
    unfold invocations at h
    split_ifs at h with ha hb
    · rw [ha, hb]
    · exact (List.cons.inj h).1
  · intro h
    rw [h]

/-- The handler that is called is that of the vector, or that of vector 32. -/
theorem honours_iff_called : HonoursRegistration place masterMask slaveMask history n ↔
    invocations (lastRegistered place history (if n.toNat < 53 then n else 32)) =
      invocations (lastRegistered place history n) := by
  have hcalled : called ((stubOf n.toNat).dispatch (handlersAfter place history)) =
      invocations (lastRegistered place history (if n.toNat < 53 then n else 32)) := by
    rw [called_dispatch, number_stubOf, ← handlersAfter_eq]
    by_cases hn : n.toNat < 53
    · simp only [if_pos hn, BitVec.toNat_setWidth]
      rw [Nat.mod_eq_of_lt (by omega)]
    · simp only [if_neg hn]
      rfl
  unfold HonoursRegistration
  rw [raise_eq, ← hcalled]
  constructor
  · rintro ⟨events, heq, hcalls⟩
    rcases Option.some.inj heq with rfl
    exact hcalls
  · intro hcalls
    exact ⟨_, rfl, hcalls⟩

end Dispatch

/-- **Dispatch honours registration exactly** where the vector has its own stub, or
where it happens to have the handler of the timer, which the shared stub leads to. -/
theorem dispatch_honours_iff (place : Placement) (masterMask slaveMask : UByte)
    (history : List Registration) (n : UByte) :
    HonoursRegistration place masterMask slaveMask history n ↔
      n.toNat < 53 ∨ lastRegistered place history n = lastRegistered place history 32 := by
  rw [honours_iff_called, invocations_inj]
  by_cases hn : n.toNat < 53
  · rw [if_pos hn]
    exact ⟨fun _ => Or.inl hn, fun _ => rfl⟩
  · rw [if_neg hn]
    constructor
    · intro heq
      exact Or.inr heq.symm
    · intro hor
      exact (hor.resolve_left hn).symm

/-- An image with the stubs one after the other. -/
def exampleImage : Placement where
  address
    | .isr n => n.setWidth 32 + 0x9000
    | .irq n => n.setWidth 32 + 0x9100
  code a :=
    if a.setWidth 16 &&& 0xff00#16 = 0x9000 then some (.isr (a.setWidth 8))
    else if a.setWidth 16 &&& 0xff00#16 = 0x9100 then some (.irq (a.setWidth 8))
    else none
  silentInterruptHandler := 0x9200
  code_address := by
    rintro (n | n) <;> revert n <;> decide
  silent_ne := by decide

/-- With screen and timer set up, a vector nobody registered calls the timer; and a handler
registered for it is not called. -/
theorem dispatch_reaches_timer :
    ¬ HonoursRegistration exampleImage 0 0
        [.setInterruptHandler 48 0x2000, .setInterruptHandler 32 0x1000] 53 ∧
      ¬ HonoursRegistration exampleImage 0 0
        [.setInterruptHandler 48 0x2000, .setInterruptHandler 53 0x1000] 53 := by
  constructor <;> rw [honours_iff_called] <;> decide

end MushOS
