import MushOS.Base.Values
import MushOS.Drivers.Coordinates
import MushOS.Kernel.Syscall

/-! # screen.c: system calls to the screen

`screen_callback` serves the interrupt 48: the first argument says what is asked for, the
others are its arguments, and the answer goes to the slot of the first one. `screenRequest`
is what is asked for, from the list of the arguments.

The handler writes to the memory, so it is one of those that act (`ActingHandler`).
-/

namespace MushOS

open ByteMemory WordStack Attempts Terminal

/-! ## Model: the screen -/

/-- The values of `call_type`. -/
def getCharCall : UDword := 0
def setCharCall : UDword := 1
def setCharsCall : UDword := 2
def getCursorCall : UDword := 3
def setCursorCall : UDword := 4
def clearScreenCall : UDword := 5

/-- The `switch` of `screen_callback`: `ret_value`, and the screen. There is no `break` after
the string, so the cursor is asked for next. -/
def screenRequest (arg : UDword → UDword) (s : Screen) : Option (UDword × Screen) :=
  if arg 0 = getCharCall then some ((getChar ⟨0, 0⟩ s).signExtend 32, s)
  else if arg 0 = setCharCall then
    some (0, printCharColor ((arg 1).setWidth 8) ((arg 2).setWidth 8) ((arg 3).setWidth 8) s)
  else if arg 0 = setCharsCall then
    (printStringColor (arg 1) ((arg 2).setWidth 8) ((arg 3).setWidth 8) (arg 4) s).map
      getCursorOffset
  else if arg 0 = getCursorCall then some (getCursorOffset s)
  else if arg 0 = setCursorCall then some (0, setCursorOffset (arg 1) s)
  else if arg 0 = clearScreenCall then some (0, clearScreen s)
  else some (0, s)

/-- `screen_callback`; nothing when a string does not end. -/
def screenCallback (regs : UDword) (stack : Stack) (s : Screen) : Option (Stack × Screen) := do
  let ebp := regsEbp regs stack
  let (retValue, s) ← screenRequest (fun k => systemGetArg ebp k stack) s
  return (systemPush ebp retValue stack, s)

/-- The code around a system call to the screen: `clobbered` is what the handler leaves in
`eax`, `ecx` and `edx`. -/
structure ScreenSite where
  frame : List UDword
  clobbered : UDword × UDword × UDword
  scratch : GeneralRegisters
  eip : UDword
  extractReturn : UDword

/-- The handler, with the controller as it finds it. -/
def ScreenSite.acting (site : ScreenSite) (v : VideoController) : ActingSite VideoController where
  stub := .isr 48
  handler := fun regs stack => do
    let m ← reads id
    let (stack, s) ← ended (screenCallback regs stack ⟨m, v⟩)
    writes fun _ => s.mem
    return ⟨s.video, site.clobbered.1, site.clobbered.2.1, site.clobbered.2.2, stack⟩
  frame := site.frame
  scratch := site.scratch
  eip := site.eip
  extractReturn := site.extractReturn

/-! ## Requests -/

/-- How many arguments a request reads. -/
def requestArity (callType : UDword) : ℕ :=
  if callType = setCharCall then 4
  else if callType = setCharsCall then 5
  else if callType = setCursorCall then 2
  else 1

/-! ## The screen -/

section Screen
variable {E : Set Fault} {h : Heap} {site : ScreenSite} {v : VideoController} {args : List UDword}
  {arg arg' : UDword → UDword} {s s' : Screen} {ret : UDword}

/-- A request reads no more arguments than it has. -/
theorem screenRequest_congr (h : ∀ k : UDword, k.toNat < requestArity (arg 0) → arg' k = arg k) :
    screenRequest arg' s = screenRequest arg s := by
  have hpos : 0 < requestArity (arg 0) := by
    unfold requestArity
    split_ifs <;> decide
  have h0 : arg' 0 = arg 0 := h 0 hpos
  unfold screenRequest
  rw [h0]
  -- one case for each branch of the callback, which reads the arguments of its request
  by_cases hget : arg 0 = getCharCall
  · rw [if_pos hget, if_pos hget]
  · rw [if_neg hget, if_neg hget]
    by_cases hset : arg 0 = setCharCall
    · have harity : requestArity (arg 0) = 4 := by rw [hset]; rfl
      rw [harity] at h
      rw [if_pos hset, if_pos hset, h 1 (by decide), h 2 (by decide), h 3 (by decide)]
    · rw [if_neg hset, if_neg hset]
      by_cases hchars : arg 0 = setCharsCall
      · have harity : requestArity (arg 0) = 5 := by rw [hchars]; rfl
        rw [harity] at h
        rw [if_pos hchars, if_pos hchars, h 1 (by decide), h 2 (by decide), h 3 (by decide),
          h 4 (by decide)]
      · rw [if_neg hchars, if_neg hchars]
        by_cases hcursor : arg 0 = setCursorCall
        · have harity : requestArity (arg 0) = 2 := by rw [hcursor]; rfl
          rw [harity] at h
          rw [h 1 (by decide)]
        · rw [if_neg hcursor, if_neg hcursor]

/-- The arguments of a call, by their number. -/
def argOf (args : List UDword) (k : UDword) : UDword := args.getD k.toNat 0

/-- **The handler does what is asked for**, and answers in the slot of the first argument. -/
theorem handlesFrame_screen (hargs : args ≠ []) (harity : requestArity (argOf args 0) ≤ args.length)
    (hrequest : screenRequest (argOf args) ⟨h.mem, v⟩ = some (ret, s)) :
    HandlesFrame E (site.acting v).handler args h fun v' args' h' =>
      v' = s.video ∧ args' = args.set 0 ret ∧ h' = { h with mem := s.mem } := by
  intro t saved ebp regs above hebp hlt hregs
  have hread : ∀ k : UDword, k.toNat < args.length →
      systemGetArg ebp k (t.pushAll (above ++ saved :: args)) = argOf args k := by
    intro k hk
    unfold argOf
    rw [systemGetArg_frame hebp hlt hk, List.getD_eq_getElem _ _ hk]
  -- the request reads no more arguments than its arity, and these are on the stack
  have hserved : screenRequest
      (fun k => systemGetArg ebp k (t.pushAll (above ++ saved :: args))) ⟨h.mem, v⟩ =
        some (ret, s) := by
    rw [← hrequest]
    exact screenRequest_congr fun k hk => hread k (lt_of_lt_of_le hk harity)
  have hcallback : screenCallback regs (t.pushAll (above ++ saved :: args)) ⟨h.mem, v⟩ =
      some (t.pushAll (above ++ saved :: args.set 0 ret), s) := by
    unfold screenCallback
    simp only [hregs args rfl, hserved, Option.bind_eq_bind, Option.bind_some,
      systemPush_frame hebp hlt hargs]
    rfl
  unfold ScreenSite.acting
  refine (succeeds_reads _ h).bind ?_
  rintro m h₁ ⟨rfl, rfl⟩
  simp only [id_eq, hcallback]
  refine (succeeds_ended _ h₁).bind ?_
  rintro ⟨stack, s'⟩ h₂ ⟨heq, rfl⟩
  rcases Prod.mk.inj heq with ⟨rfl, rfl⟩
  refine (succeeds_writes _ h₂).bind ?_
  rintro - h₃ rfl
  exact Yields.pure ⟨_, List.length_set, rfl, rfl, rfl, rfl⟩

/-- The cursor is set by one call and asked for by another. -/
def moveCursor (setSite getSite : ScreenSite) (offset retValue : UDword) (v : VideoController)
    (p : Processor) : HeapM (UDword × Processor) := do
  let (v, p) ← (setSite.acting v).callSystem [setCursorCall, offset] p
  let (retValue, _, p) ← (getSite.acting v).callSystemRet retValue [getCursorCall] p
  return (retValue, p)

/-- **The cursor that is set is the one that is found**, the lower half of it, whatever is on the
heap and on the stack. -/
theorem moveCursor_spec {S : Finset Block} {p : Processor} {setSite getSite : ScreenSite}
    {offset retValue : UDword} (hl : Live h S) (hroom : FirstFits S h 8)
    (hset : setSite.frame.length + 2 < 2 ^ 28) (hget : getSite.frame.length + 1 < 2 ^ 28) :
    Succeeds (moveCursor setSite getSite offset retValue v p) h fun r h' =>
      r.1 = offset &&& 0xffff ∧ r.2.general = p.general ∧ r.2.stack = p.stack ∧ Live h' S ∧
        Preserves S h h' := by
  -- the handler sets the cursor and writes no memory
  have hsetHandler : ∀ g, Live g S → Preserves S h g →
      HandlesFrame {.hung allocationException} (setSite.acting v).handler [setCursorCall, offset] g
        fun v' _ g' => v' = (setCursorOffset offset ⟨h.mem, v⟩).video ∧ Live g' S ∧
          Preserves S h g' := by
    intro g hlg hpg t saved ebp regs above hebp hlt hregs
    have harity : requestArity (argOf [setCursorCall, offset] 0) ≤ 2 :=
      show requestArity setCursorCall ≤ 2 by decide
    refine (handlesFrame_screen (List.cons_ne_nil _ _) harity rfl t saved ebp regs above hebp hlt
      hregs).mono ?_
    rintro r g' ⟨args', hlength, hstack, hv, -, rfl⟩
    exact ⟨args', hlength, hstack, hv, hlg, hpg⟩
  have halloc : Allocates {.hung allocationException} S h 8 fun _ => True := by
    refine hl.allocates (by decide) fun hempty => ?_
    have hfits := hroom hempty
    exact ⟨hfits, by omega⟩
  refine (ActingSite.callSystem_spec rfl hset halloc hsetHandler).bind ?_
  rintro ⟨v', q⟩ h₁ ⟨⟨-, -, hv, hl₁, hp₁⟩, hgeneral, hstack, -⟩
  simp only at hv hgeneral hstack
  -- the controller still has the cursor that the first call has set
  have hgetHandler : ∀ g, Live g S → Preserves S h₁ g →
      HandlesFrame {.hung allocationException} (getSite.acting v').handler [getCursorCall] g
        fun _ args' g' => args' = [offset &&& 0xffff] ∧ Live g' S ∧ Preserves S h g' := by
    intro g hlg hpg t saved ebp regs above hebp hlt hregs
    refine (handlesFrame_screen (List.cons_ne_nil _ _) (by decide) rfl t saved ebp regs above hebp
      hlt hregs).mono ?_
    rintro r g' ⟨args', hlength, hstack, -, hargs', rfl⟩
    refine ⟨args', hlength, hstack, ?_, hlg, hp₁.trans hpg⟩
    rw [hargs', hv]
    exact congrArg (fun w => [w]) (getCursorOffset_setCursorOffset offset ⟨h.mem, v⟩)
  have halloc₁ : Allocates {.hung allocationException} S h₁ 4 fun _ => True := by
    refine hl₁.allocates (by decide) fun hempty => ?_
    have hfits := hroom hempty
    rw [hp₁.bounds.heapStart, hp₁.bounds.heapEnd]
    exact ⟨by omega, by omega⟩
  refine (ActingSite.callSystemRet_spec retValue rfl hget halloc₁ hgetHandler).bind ?_
  rintro ⟨answer, v'', q'⟩ h₂ ⟨⟨-, -, ⟨rfl, hl₂, hp₂⟩, hanswer⟩, hgeneral', hstack', -⟩
  exact Yields.pure ⟨hanswer, hgeneral'.trans hgeneral, hstack'.trans hstack, hl₂, hp₂⟩

end Screen

/-- Of an offset beyond the lower half, the lower half is found. -/
theorem moveCursor_small : ∃ r h',
    moveCursor ⟨[], (1, 2, 3), ⟨0, 0, 0, 0, 0, 0, 0⟩, 0x8123, 0x8100⟩
      ⟨[], (4, 5, 6), ⟨0, 0, 0, 0, 0, 0, 0⟩, 0x8223, 0x8200⟩ 0x10050 0 ⟨0, fun _ => 0⟩
      exampleProcessor smallHeap = .ok (r, h') ∧ r.1 = 0x50 ∧
        r.2.general = exampleProcessor.general ∧ r.2.stack = exampleProcessor.stack ∧ Live h' ∅ ∧
        Preserves ∅ smallHeap h' := by
  have hroom : FirstFits ∅ smallHeap 8 := by
    intro _
    decide +kernel
  have hcall := @moveCursor_spec smallHeap ⟨0, fun _ => 0⟩ ∅ exampleProcessor
    ⟨[], (1, 2, 3), ⟨0, 0, 0, 0, 0, 0, 0⟩, 0x8123, 0x8100⟩
    ⟨[], (4, 5, 6), ⟨0, 0, 0, 0, 0, 0, 0⟩, 0x8223, 0x8200⟩ 0x10050 0
    ⟨[], smallHeap_wellFormed, rfl⟩ hroom (by decide) (by decide)
  exact hcall.returns_of_isOk (by decide +kernel)

end MushOS
