import MushOS.Base.Vararg
import MushOS.Kernel.Interruptions
import MushOS.Kernel.Processor

/-! # syscall.h: system calls over an interrupt

The caller saves its registers, pushes the arguments and a frame pointer and
raises an interrupt; the handler finds the arguments from the frame pointer that
`pusha` has saved in its `registers`. The word it leaves as result is the slot of
the first argument. `call_system` throws the arguments away, `call_system_ret` pops
them one after the other into the variable of the caller.

The stack is a list of words, apart from the memory of the heap. Compiled C code is
taken to follow cdecl: it removes what it has pushed, keeps `ebx`, `esi`, `edi` and
`ebp` across calls, and leaves anything in the other registers.

A handler sees the stack only (`Handler`), or it is a program over the memory too
(`ActingHandler`). What holds of the macros is proved for the second kind
(`ActingSite.callSystem_spec`), of which the first one is a case (`callSystem_eq_acting`).
-/

namespace MushOS

open WordStack Attempts

/-! ## Model: handlers -/

/-- `system_get_arg(stack_base, arg_num, ret_val)`. -/
def systemGetArg (stackBase argNum : UDword) (s : Stack) : UDword :=
  s.load (stackBase + 4 + argNum * 4)

/-- `system_push(stack_base, value)`. -/
def systemPush (stackBase value : UDword) (s : Stack) : Stack := s.store (stackBase + 4) value

/-- A handler of system calls, as far as the caller sees it: it reads arguments and
goes on with what it has read, overwrites the result, and in the end leaves
something in the registers a function need not keep. -/
inductive Handler where
  | done (eax ecx edx : UDword)
  | getArg (argNum : UDword) (next : UDword → Handler)
  | push (value : UDword) (next : Handler)

/-- What a handler did. -/
inductive Access where
  | read (argNum value : UDword)
  | pushed (value : UDword)
deriving DecidableEq, Repr

/-- `regs->ebp`, after `ds`, `edi` and `esi`. -/
def regsEbp (regs : UDword) (s : Stack) : UDword := s.load (regs + 12)

/-- `handler(regs)`. -/
def Handler.run (regs : UDword) : Handler → Stack → List Access × (UDword × UDword × UDword) × Stack
  | .done eax ecx edx, s => ([], (eax, ecx, edx), s)
  | .getArg argNum next, s =>
    let value := systemGetArg (regsEbp regs s) argNum s
    let (accesses, rest) := (next value).run regs s
    (.read argNum value :: accesses, rest)
  | .push value next, s =>
    let (accesses, rest) := next.run regs (systemPush (regsEbp regs s) value s)
    (.pushed value :: accesses, rest)

/-- `call isr_handler` or `call irq_handler`, down to the handler and back. The pointer to
the registers is on the stack; `frame` is what the functions have pushed over it while
the handler runs. -/
def callHandler (handler : Handler) (frame : List UDword) (p : Processor) :
    List Access × Processor :=
  let (accesses, (eax, ecx, edx), s) := handler.run (p.peek 0) (p.stack.pushAll frame)
  (accesses, { p with
    stack := s.drop frame.length
    general := { p.general with eax := eax, ecx := ecx, edx := edx } })

/-! ## Model: the stubs -/

/-- The vectors for which the processor itself pushes an error code, when it raises them. -/
def Stub.hasErrorCode : Stub → Bool
  | .isr n => n ∈ [8, 10, 11, 12, 13, 14, 17, 21]
  | .irq _ => false

/-- The words a stub pushes. -/
def Stub.pushes (stub : Stub) : List UDword :=
  if stub.hasErrorCode then [stub.number] else [stub.number, 0]

/-- The register the data segment comes back in: `isr_common` uses `eax`, `irq_common`
uses `ebx`. -/
def Stub.setScratch (stub : Stub) (p : Processor) (w : UDword) : Processor :=
  match stub with
  | .isr _ => { p with general := { p.general with eax := w } }
  | .irq _ => { p with general := { p.general with ebx := w } }

/-- A stub, up to its `call`. -/
def Stub.enter (stub : Stub) (p : Processor) : Processor :=
  let p := (p.pushAll stub.pushes).pusha
  let p := p.setAx p.ds
  let p := p.push p.general.eax
  let p := (p.setAx 0x10).setSegments 0x10
  p.push p.stack.top

/-- A stub, from the return of its `call` to its `iret`. -/
def Stub.leave (stub : Stub) (p : Processor) : Processor :=
  let p := (stub.setScratch p (p.peek 0)).drop 1
  let ds := p.peek 0
  let p := ((stub.setScratch p ds).drop 1).setSegments (ds.setWidth 16)
  (p.popa.drop 2).iret

def Stub.handle (stub : Stub) (handler : Handler) (frame : List UDword) (p : Processor) :
    List Access × Processor :=
  let (accesses, p) := callHandler handler frame (stub.enter p)
  (accesses, stub.leave p)

/-! ## Model: the callers -/

/-- The loop that pushes the words of an array, the last one first. -/
def pushArgs (m : ByteMemory.Mem) (args : UDword) : ℕ → Stack → Stack
  | 0, s => s
  | n + 1, s => pushArgs m args n (s.push (m.read32 (args + BitVec.ofNat 32 (4 * n))))

/-- The loop that pops `n` words, each into the same place. -/
def popArgs : ℕ → UDword × Stack → UDword × Stack
  | 0, r => r
  | n + 1, r => popArgs n (r.2.load r.2.top, r.2.drop 1)

/-- Where the macro is used, and whom it reaches. `scratch` are the registers compiled code
has at the `int`, `eip` is the address of the instruction after it. -/
structure CallSite where
  stub : Stub
  handler : Handler
  frame : List UDword
  scratch : GeneralRegisters
  eip : UDword
  extractReturn : UDword

/-- The block from `push %ebp` to `pop %ebp`. -/
def raiseInterruption (site : CallSite) (p : Processor) : List Access × Processor :=
  let p := p.push p.general.ebp
  let p := { p with general := { p.general with ebp := p.stack.top }, eip := site.eip }
  let (accesses, p) := site.stub.handle site.handler site.frame p.int
  let p := p.setEsp p.general.ebp
  (accesses, { p with general := { p.general with ebp := p.peek 0 } }.drop 1)

/-- What the two macros have in common. -/
def systemEntry (site : CallSite) (args : List UDword) (p : Processor) :
    HeapM (List Access × Processor) := do
  let p := p.pusha
  let argsNum := BitVec.ofNat 32 args.length
  let called := p.stack.pushAll (p.general.ebp :: site.extractReturn :: argsNum :: args)
  let array ← extractDwordArgs argsNum called.top called
  let stack ← reads fun m => pushArgs m array args.length p.stack
  release array
  return raiseInterruption site { p with
    stack := stack
    general := { site.scratch with ebp := p.general.ebp } }

/-- `call_system(interruption, args_num, arguments...)`. -/
def callSystem (site : CallSite) (args : List UDword) (p : Processor) :
    HeapM (List Access × Processor) := do
  let (accesses, p) ← systemEntry site args p
  let (eax, stack) := popArgs args.length (p.general.eax, p.stack)
  return (accesses, { p with stack := stack, general := { p.general with eax := eax } }.popa)

/-- `call_system_ret(interruption, ret_value, args_num, arguments...)`, for a variable of
the caller that is kept in memory; with its value at the end. -/
def callSystemRet (site : CallSite) (retValue : UDword) (args : List UDword) (p : Processor) :
    HeapM (UDword × List Access × Processor) := do
  let (accesses, p) ← systemEntry site args p
  let (retValue, stack) := popArgs args.length (retValue, p.stack)
  return (retValue, accesses, { p with stack := stack }.popa)

/-! ## Model: handlers that act -/

/-- What a handler leaves behind, the memory apart: a value of its own, the registers a
function need not keep, and the stack. -/
structure Handled (α : Type) where
  value : α
  eax : UDword
  ecx : UDword
  edx : UDword
  stack : Stack

/-- `handler(regs)`. -/
abbrev ActingHandler (α : Type) := UDword → Stack → HeapM (Handled α)

/-- Where a macro is used, and the handler it reaches. -/
structure ActingSite (α : Type) where
  stub : Stub
  handler : ActingHandler α
  frame : List UDword
  scratch : GeneralRegisters
  eip : UDword
  extractReturn : UDword

namespace ActingSite
variable {α : Type}

/-- From the `int` to the `iret`. -/
def handle (site : ActingSite α) (p : Processor) : HeapM (α × Processor) := do
  let p := site.stub.enter p
  let r ← site.handler (p.peek 0) (p.stack.pushAll site.frame)
  return (r.value, site.stub.leave { p with
    stack := r.stack.drop site.frame.length
    general := { p.general with eax := r.eax, ecx := r.ecx, edx := r.edx } })

/-- The block from `push %ebp` to `pop %ebp`. -/
def raise (site : ActingSite α) (p : Processor) : HeapM (α × Processor) := do
  let p := p.push p.general.ebp
  let p := { p with general := { p.general with ebp := p.stack.top }, eip := site.eip }
  let (value, p) ← site.handle p.int
  let p := p.setEsp p.general.ebp
  return (value, { p with general := { p.general with ebp := p.peek 0 } }.drop 1)

/-- What the two macros have in common. -/
def entry (site : ActingSite α) (args : List UDword) (p : Processor) : HeapM (α × Processor) := do
  let p := p.pusha
  let argsNum := BitVec.ofNat 32 args.length
  let called := p.stack.pushAll (p.general.ebp :: site.extractReturn :: argsNum :: args)
  let array ← extractDwordArgs argsNum called.top called
  let stack ← reads fun m => pushArgs m array args.length p.stack
  release array
  site.raise { p with stack := stack, general := { site.scratch with ebp := p.general.ebp } }

/-- `call_system(interruption, args_num, arguments...)`. -/
def callSystem (site : ActingSite α) (args : List UDword) (p : Processor) :
    HeapM (α × Processor) := do
  let (value, p) ← site.entry args p
  let (eax, stack) := popArgs args.length (p.general.eax, p.stack)
  return (value, { p with stack := stack, general := { p.general with eax := eax } }.popa)

/-- `call_system_ret(interruption, ret_value, args_num, arguments...)`. -/
def callSystemRet (site : ActingSite α) (retValue : UDword) (args : List UDword) (p : Processor) :
    HeapM (UDword × α × Processor) := do
  let (value, p) ← site.entry args p
  let (retValue, stack) := popArgs args.length (retValue, p.stack)
  return (retValue, value, { p with stack := stack }.popa)

end ActingSite

/-- A handler that leaves the memory as it is. -/
def CallSite.acting (site : CallSite) : ActingSite (List Access) where
  stub := site.stub
  handler := fun regs s => do
    let (accesses, (eax, ecx, edx), s) := site.handler.run regs s
    return ⟨accesses, eax, ecx, edx, s⟩
  frame := site.frame
  scratch := site.scratch
  eip := site.eip
  extractReturn := site.extractReturn

/-! ## The frame of a call -/

/-- The arguments as their slots hold them after what the handler did: the result goes to
the slot of the first one. -/
def argsAfter (args : List UDword) (accesses : List Access) : List UDword :=
  accesses.foldl (fun args access =>
    match access with
    | .read _ _ => args
    | .pushed value => args.set 0 value) args

/-- The last value a handler pushed. -/
def lastPushed (accesses : List Access) : Option UDword :=
  (accesses.filterMap fun access =>
    match access with
    | .read _ _ => none
    | .pushed value => some value).getLast?

theorem length_argsAfter (args : List UDword) (accesses : List Access) :
    (argsAfter args accesses).length = args.length := by
  induction accesses generalizing args with
  | nil => rfl
  | cons access accesses ih =>
    cases access with
    | read argNum value => exact ih args
    | pushed value => exact (ih (args.set 0 value)).trans List.length_set

theorem argsAfter_eq (args : List UDword) (accesses : List Access) :
    argsAfter args accesses = ((lastPushed accesses).map (args.set 0)).getD args := by
  induction accesses using List.reverseRecOn with
  | nil => rfl
  | append_singleton accesses access ih =>
    unfold argsAfter lastPushed at ih ⊢
    rw [List.foldl_append, ih, List.filterMap_append]
    cases access with
    | read argNum value => simp
    | pushed value =>
      cases (accesses.filterMap fun access =>
        match access with
        | .read _ _ => none
        | .pushed value => some value).getLast? <;> simp

section Frame
variable {s : Stack} {saved ebp regs : UDword} {args above : List UDword} {k : UDword}

/-- Argument `k`, from the frame pointer, below whatever has been pushed since. -/
theorem systemGetArg_frame (hebp : ebp = (s.pushAll (saved :: args)).top)
    (hlt : above.length + args.length < 2 ^ 29) (hk : k.toNat < args.length) :
    systemGetArg ebp k (s.pushAll (above ++ saved :: args)) = args[k.toNat] := by
  have hslot : ebp + 4 + k * 4 =
      (s.pushAll (above ++ saved :: args)).slot (above.length + 0 + (1 + k.toNat)) := by
    rw [hebp, ← Stack.pushAll_pushAll, ← Stack.slot_add, Stack.slot_append]
    unfold Stack.top
    bv_omega
  unfold systemGetArg
  rw [hslot, Stack.load_slot_pushAll (by simp; omega) (by omega)]
  simp [Nat.add_comm 1]

/-- The result goes to the slot of the first argument. -/
theorem systemPush_frame (hebp : ebp = (s.pushAll (saved :: args)).top)
    (hlt : above.length + args.length < 2 ^ 29) (hargs : args ≠ []) (value : UDword) :
    systemPush ebp value (s.pushAll (above ++ saved :: args)) =
      s.pushAll (above ++ saved :: args.set 0 value) := by
  rcases List.exists_cons_of_ne_nil hargs with ⟨arg, rest, rfl⟩
  have hslot : ebp + 4 = (s.pushAll (saved :: arg :: rest)).slot (0 + 1) := by
    rw [hebp, ← Stack.slot_add]
    rfl
  unfold systemPush
  rw [← Stack.pushAll_pushAll, hslot,
    Stack.store_append (by simp [Stack.pushAll]) (by simp at hlt; omega)]
  simp [Stack.pushAll]

/-- **What a handler does to its frame**: nothing, but for the result; and every read
yields what the slot holds at that moment. -/
theorem Handler.run_spec (handler : Handler) (hebp : ebp = (s.pushAll (saved :: args)).top)
    (hlt : above.length + args.length < 2 ^ 29) (hargs : args ≠ [])
    (hregs : ∀ args' : List UDword, args'.length = args.length →
      regsEbp regs (s.pushAll (above ++ saved :: args')) = ebp) :
    (handler.run regs (s.pushAll (above ++ saved :: args))).2.2 =
      s.pushAll (above ++ saved ::
        argsAfter args (handler.run regs (s.pushAll (above ++ saved :: args))).1) ∧
    ∀ before k v after,
      (handler.run regs (s.pushAll (above ++ saved :: args))).1 = before ++ .read k v :: after →
      k.toNat < args.length → (argsAfter args before)[k.toNat]? = some v := by
  induction handler generalizing args with
  | done eax ecx edx =>
    refine ⟨rfl, ?_⟩
    intro before k v after heq
    simp [Handler.run] at heq
  | getArg argNum next ih =>
    rcases ih (systemGetArg ebp argNum (s.pushAll (above ++ saved :: args)))
      hebp hlt hargs hregs with ⟨hstack, hreads⟩
    simp only [Handler.run, hregs args rfl]
    refine ⟨hstack, ?_⟩
    intro before k v after heq hk
    cases before with
    | nil =>
      -- this read comes first, before any write
      rcases List.cons.inj heq with ⟨hread, -⟩
      rcases Access.read.inj hread with ⟨rfl, rfl⟩
      rw [systemGetArg_frame hebp hlt hk]
      exact List.getElem?_eq_getElem hk
    | cons access before =>
      rcases List.cons.inj heq with ⟨rfl, hrest⟩
      exact hreads before k v after hrest hk
  | push value next ih =>
    -- a push overwrites the first argument and moves nothing
    have hlength : (args.set 0 value).length = args.length := List.length_set
    have hebp' : ebp = (s.pushAll (saved :: args.set 0 value)).top := by
      rw [hebp]
      exact (@Stack.slot_of_length (s.pushAll (saved :: args))
          (s.pushAll (saved :: args.set 0 value))
        rfl (by simp [Stack.pushAll]) 0).symm
    rcases ih hebp' (by rw [hlength]; exact hlt)
      (by simpa using hargs) (by rw [hlength]; exact hregs) with ⟨hstack, hreads⟩
    simp only [Handler.run, hregs args rfl, systemPush_frame hebp hlt hargs]
    refine ⟨hstack, ?_⟩
    intro before k v after heq hk
    cases before with
    | nil => cases (List.cons.inj heq).1
    | cons access before =>
      rcases List.cons.inj heq with ⟨rfl, hrest⟩
      exact hreads before k v after hrest (by rw [hlength]; exact hk)

end Frame

/-! ## The stub -/

section Stub
variable {p : Processor} {s : Stack} {saved : UDword} {args frame : List UDword} {stub : Stub}

/-- Only the number of words counts for the top. -/
theorem top_pushAll {ws ws' : List UDword} (hlength : ws.length = ws'.length) :
    (s.pushAll ws).top = (s.pushAll ws').top :=
  @Stack.slot_of_length (s.pushAll ws') (s.pushAll ws) rfl (by simp [Stack.pushAll, hlength]) 0

/-- The words between the frame of the caller and the stack of the C functions: the
pointer to the registers, the registers, the number and what `int` has pushed. -/
def savedWords (stub : Stub) (p : Processor) (regs esp : UDword) : List UDword :=
  let r := p.general
  [regs, r.eax.extractLsb' 16 16 ++ p.ds, r.edi, r.esi, r.ebp, esp, r.ebx, r.edx, r.ecx, r.eax,
    stub.number, 0, p.eip, p.cs.setWidth 32, p.eflags]

theorem enter_stack (hstub : stub.hasErrorCode = false) :
    ∃ regs esp, (stub.enter p.int).stack = p.stack.pushAll (savedWords stub p regs esp) ∧
      regs = (p.stack.pushAll (savedWords stub p regs esp).tail).top := by
  have hpushes : stub.pushes = [stub.number, 0] := by
    unfold Stub.pushes
    rw [hstub]
    rfl
  obtain ⟨esp, hesp⟩ : ∃ esp,
      esp = (p.stack.pushAll [stub.number, 0, p.eip, p.cs.setWidth 32, p.eflags]).top := ⟨_, rfl⟩
  refine ⟨(p.stack.pushAll (savedWords stub p 0 esp).tail).top, esp, ?_, rfl⟩
  rw [hesp]
  unfold Stub.enter
  rw [hpushes]
  rfl

theorem setWidth_low (a b : UWord) : (a ++ b).setWidth 16 = b := by
  ext i hi
  rw [BitVec.getElem_setWidth, BitVec.getLsbD_append, if_pos hi]
  rfl

/-- Whatever the C functions have left in the registers, the stub restores. -/
theorem leave_eq {q : Processor} {t : Stack} {regs esp : UDword}
    (hstack : q.stack = t.pushAll (savedWords stub p regs esp)) :
    stub.leave q = { p with es := p.ds, fs := p.ds, gs := p.ds, stack := t } := by
  rcases q with ⟨general, ds, es, fs, gs, eip, cs, eflags, stack⟩
  simp only at hstack
  subst hstack
  unfold savedWords
  cases stub <;>
    simp [Stub.leave, Stub.setScratch, Processor.drop, Processor.peek, Processor.popa,
      Processor.iret, Processor.setSegments, Stack.drop_pushAll_of_le, Stack.load_slot_pushAll,
      setWidth_low]

/-- The frame pointer of the caller, as the handler finds it. -/
theorem regsEbp_eq {t : Stack} {regs esp : UDword} {frame : List UDword}
    (hregs : regs = (t.pushAll (savedWords stub p regs esp).tail).top)
    (hlt : frame.length < 2 ^ 29) :
    regsEbp regs ((t.pushAll (savedWords stub p regs esp)).pushAll frame) = p.general.ebp := by
  have hslot : regs + 12 = (t.pushAll (savedWords stub p regs esp)).slot 4 := by
    have hone := Stack.slot_append (t.pushAll (savedWords stub p regs esp).tail) [regs] 0
    have hfour := Stack.slot_add ((t.pushAll (savedWords stub p regs esp).tail).pushAll [regs]) 1 3
    rw [hregs]
    exact (congrArg (· + 12) hone.symm).trans hfour
  unfold regsEbp
  rw [hslot, Stack.load_append (by simp [Stack.pushAll, savedWords]) (by omega)]
  rfl

end Stub

/-! ## The callers -/

section Callers
variable {p : Processor} {s : Stack} {args ws : List UDword}

theorem pushArgs_eq {m : ByteMemory.Mem} {array : UDword} {n : ℕ} (hn : n ≤ args.length)
    (harray : ∀ k (hk : k < args.length), m.read32 (array + BitVec.ofNat 32 (4 * k)) = args[k]) :
    pushArgs m array n s = s.pushAll (args.take n) := by
  induction n generalizing s with
  | zero => simp [pushArgs]
  | succ n ih =>
    rw [pushArgs, harray n (by omega), ih (by omega), Stack.push_eq, Stack.pushAll_pushAll,
      List.take_succ_eq_append_getElem (by omega)]

/-- The last word popped is the deepest one. -/
theorem popArgs_eq (v : UDword) : popArgs ws.length (v, s.pushAll ws) = (ws.getLastD v, s) := by
  induction ws generalizing v with
  | nil => rfl
  | cons w ws ih =>
    have hload : (s.pushAll (w :: ws)).load (s.pushAll (w :: ws)).top = w :=
      Stack.load_slot_pushAll (by simp) (by decide)
    have hdrop : (s.pushAll (w :: ws)).drop 1 = s.pushAll ws :=
      Stack.drop_pushAll_of_le (by simp)
    rw [List.length_cons, popArgs, hload, hdrop, ih, List.getLastD_cons]

theorem setEsp_top (p : Processor) : p.setEsp p.stack.top = p := by
  unfold Processor.setEsp Processor.drop Stack.depth
  rw [BitVec.sub_self]
  rfl

/-- `popa` undoes `pusha`. -/
theorem popa_pusha {q : Processor} (hstack : q.stack = p.pusha.stack) :
    q.popa = { q with general := p.general, stack := p.stack } := by
  rcases q with ⟨general, ds, es, fs, gs, eip, cs, eflags, stack⟩
  simp only at hstack
  subst hstack
  simp [Processor.popa, Processor.drop, Processor.peek, Processor.pusha, Processor.pushAll,
    Stack.load_slot_pushAll, Stack.drop_pushAll_of_le]

end Callers

/-! ## Calls -/

/-- The handler finds the arguments in the frame of the caller, and leaves as many there. -/
def HandlesFrame {α : Type} (E : Set Fault) (handler : ActingHandler α) (args : List UDword)
    (h : Heap) (Q : α → List UDword → Heap → Prop) : Prop :=
  ∀ (s : Stack) (saved ebp regs : UDword) (above : List UDword),
    ebp = (s.pushAll (saved :: args)).top → above.length + args.length < 2 ^ 29 →
    (∀ args' : List UDword, args'.length = args.length →
      regsEbp regs (s.pushAll (above ++ saved :: args')) = ebp) →
    Yields strict E (handler regs (s.pushAll (above ++ saved :: args))) h fun r h' =>
      ∃ args', args'.length = args.length ∧ r.stack = s.pushAll (above ++ saved :: args') ∧
        Q r.value args' h'

section Acting
variable {α : Type} {E : Set Fault} {R : Block → Prop} {h : Heap} {S : Finset Block}
  {p : Processor} {site : ActingSite α} {s : Stack} {saved : UDword} {args : List UDword}
  {Q : α → List UDword → Heap → Prop}

/-- From the `int` to the `iret`: the processor is back where it was. -/
theorem ActingSite.handle_spec (hstub : site.stub.hasErrorCode = false)
    (hstack : p.stack = s.pushAll (saved :: args)) (hebp : p.general.ebp = p.stack.top)
    (hlt : site.frame.length + args.length < 2 ^ 28)
    (hhandler : HandlesFrame E site.handler args h Q) :
    Yields strict E (site.handle p.int) h fun r h' => ∃ args', args'.length = args.length ∧
      Q r.1 args' h' ∧
      r.2 = { p with es := p.ds, fs := p.ds, gs := p.ds, stack := s.pushAll (saved :: args') } := by
  rcases @enter_stack p site.stub hstub with ⟨regs, esp, henter, hregs⟩
  rw [hstack] at hebp
  have hstart : (site.stub.enter p.int).stack.pushAll site.frame =
      s.pushAll ((site.frame ++ savedWords site.stub p regs esp) ++ saved :: args) := by
    rw [henter, hstack, Stack.pushAll_pushAll, Stack.pushAll_pushAll, List.append_assoc]
  have hlength :
      (site.frame ++ savedWords site.stub p regs esp).length = site.frame.length + 15 := by
    rw [List.length_append]
    rfl
  have hpeek : (site.stub.enter p.int).peek 0 = regs := by
    unfold Processor.peek
    rw [henter, Stack.load_slot_pushAll (by simp [savedWords]) (by decide)]
    rfl
  -- the saved registers hold the `ebp` of the caller, whatever the arguments have become
  have hregsEbp : ∀ args' : List UDword, args'.length = args.length →
      regsEbp regs (s.pushAll ((site.frame ++ savedWords site.stub p regs esp) ++ saved :: args')) =
        p.general.ebp := by
    intro args' hargs'
    have hregs' : regs = ((s.pushAll (saved :: args')).pushAll
        (savedWords site.stub p regs esp).tail).top := by
      refine hregs.trans ?_
      rw [hstack, Stack.pushAll_pushAll, Stack.pushAll_pushAll]
      exact top_pushAll (by simp [hargs'])
    rw [List.append_assoc, ← Stack.pushAll_pushAll, ← Stack.pushAll_pushAll,
      regsEbp_eq hregs' (by omega)]
  unfold ActingSite.handle
  simp only [hpeek, hstart]
  refine (hhandler s saved p.general.ebp regs _ hebp (by omega) hregsEbp).bind ?_
  rintro ⟨value, eax, ecx, edx, stack⟩ h' ⟨args', hargs', hfinal, hQ⟩
  simp only at hfinal hQ
  refine Yields.pure ⟨args', hargs', hQ, @leave_eq p site.stub _ _ regs esp ?_⟩
  show stack.drop site.frame.length = _
  rw [hfinal, List.append_assoc, ← Stack.pushAll_pushAll, ← Stack.pushAll_pushAll]
  exact Stack.drop_pushAll _ _

/-- Raising the interruption over the arguments. -/
theorem ActingSite.raise_spec (hstub : site.stub.hasErrorCode = false)
    (hlt : site.frame.length + args.length < 2 ^ 28) (hstack : p.stack = s.pushAll args)
    (hhandler : HandlesFrame E site.handler args h Q) :
    Yields strict E (site.raise p) h fun r h' => ∃ args', args'.length = args.length ∧
      Q r.1 args' h' ∧ r.2 = { p with
        es := p.ds, fs := p.ds, gs := p.ds, eip := site.eip, stack := s.pushAll args' } := by
  obtain ⟨q, hq⟩ : ∃ q : Processor, q = { p with
      stack := p.stack.push p.general.ebp
      general := { p.general with ebp := (p.stack.push p.general.ebp).top }
      eip := site.eip } := ⟨_, rfl⟩
  have hqstack : q.stack = s.pushAll (p.general.ebp :: args) := by
    rw [hq, hstack]
    rfl
  have hebp : q.general.ebp = q.stack.top := by rw [hq]
  unfold ActingSite.raise
  simp only [Processor.push, ← hq]
  refine (site.handle_spec hstub hqstack hebp hlt hhandler).bind ?_
  rintro ⟨value, t⟩ h' ⟨args', hargs', hQ, ht⟩
  simp only at hQ ht
  refine Yields.pure ⟨args', hargs', hQ, ?_⟩
  have htstack : t.stack = s.pushAll (p.general.ebp :: args') := by rw [ht]
  -- `mov %ebp, %esp` finds the stack pointer where it should be
  have htop : q.general.ebp = t.stack.top := by
    rw [hebp, hqstack, htstack]
    exact top_pushAll (by simp [hargs'])
  have hebp' : t.general.ebp = q.general.ebp := by rw [ht]
  have hpop : t.peek 0 = p.general.ebp := Processor.peek_of_stack htstack
  have hdrop : t.stack.drop 1 = s.pushAll args' := Processor.stack_drop_one htstack
  simp only [hebp', htop, setEsp_top]
  unfold Processor.drop
  simp only [hpop, hdrop]
  rw [ht, hq]

/-- Up to and with `pop %ebp`. -/
theorem ActingSite.entry_spec (hstub : site.stub.hasErrorCode = false)
    (hlt : site.frame.length + args.length < 2 ^ 28)
    (ha : Allocates E S h (4 * args.length) R)
    (hhandler : ∀ g, Live g S → Preserves S h g → HandlesFrame E site.handler args g Q) :
    Yields strict E (site.entry args p) h fun r h' => ∃ args', args'.length = args.length ∧
      Q r.1 args' h' ∧ r.2 = { p with
        general := { site.scratch with ebp := p.general.ebp }
        es := p.ds
        fs := p.ds
        gs := p.ds
        eip := site.eip
        stack := p.pusha.stack.pushAll args' } := by
  refine (extractDwordArgs_of_allocates (by omega) ha).bind ?_
  rintro array h₁ ⟨hgot, harray⟩
  refine (succeeds_reads _ h₁).bind ?_
  rintro stack h₂ ⟨hstack, rfl⟩
  rw [pushArgs_eq (le_refl _) harray, List.take_length] at hstack
  -- the array is given back before the interrupt, and its words are on the stack
  refine (hgot.live.release (Finset.mem_insert_self _ _)).bind ?_
  rintro - h₃ ⟨hl₃, hp₃⟩
  rw [Finset.erase_insert fun hmem => hgot.fresh _ hmem rfl] at hl₃
  have hpreserves : Preserves S h h₃ :=
    hgot.preserves.trans (hp₃.mono (Finset.subset_insert _ _))
  exact @ActingSite.raise_spec _ E h₃ { p.pusha with
      stack := stack
      general := { site.scratch with ebp := p.pusha.general.ebp } } site p.pusha.stack args Q
    hstub hlt hstack (hhandler h₃ hl₃ hpreserves)

/-- The `popa` at the end. -/
theorem popa_back {q : Processor} {eip : UDword} (hstack : q.stack = p.pusha.stack)
    (heip : q.eip = eip) :
    q.popa.general = p.general ∧ q.popa.stack = p.stack ∧ q.popa.eip = eip := by
  rw [popa_pusha hstack]
  exact ⟨rfl, rfl, heip⟩

/-- **A system call leaves the caller as it was**, whatever its handler does to the memory. -/
theorem ActingSite.callSystem_spec (hstub : site.stub.hasErrorCode = false)
    (hlt : site.frame.length + args.length < 2 ^ 28)
    (ha : Allocates E S h (4 * args.length) R)
    (hhandler : ∀ g, Live g S → Preserves S h g → HandlesFrame E site.handler args g Q) :
    Yields strict E (site.callSystem args p) h fun r h' => (∃ args', args'.length = args.length ∧
      Q r.1 args' h') ∧ r.2.general = p.general ∧ r.2.stack = p.stack ∧ r.2.eip = site.eip := by
  refine (ActingSite.entry_spec hstub hlt ha hhandler).bind ?_
  rintro ⟨value, q⟩ h' ⟨args', hargs', hQ, hq⟩
  simp only at hQ hq
  have hpops := @popArgs_eq p.pusha.stack args' q.general.eax
  rw [hargs'] at hpops
  have hqstack : q.stack = p.pusha.stack.pushAll args' := by rw [hq]
  simp only [hqstack, hpops]
  exact Yields.pure ⟨⟨args', hargs', hQ⟩, popa_back rfl (by rw [hq])⟩

/-- The answer is what the handler has left in the last slot. -/
theorem ActingSite.callSystemRet_spec (retValue : UDword) (hstub : site.stub.hasErrorCode = false)
    (hlt : site.frame.length + args.length < 2 ^ 28) (ha : Allocates E S h (4 * args.length) R)
    (hhandler : ∀ g, Live g S → Preserves S h g → HandlesFrame E site.handler args g Q) :
    Yields strict E (site.callSystemRet retValue args p) h fun r h' =>
      (∃ args', args'.length = args.length ∧ Q r.2.1 args' h' ∧ r.1 = args'.getLastD retValue) ∧
        r.2.2.general = p.general ∧ r.2.2.stack = p.stack ∧ r.2.2.eip = site.eip := by
  refine (ActingSite.entry_spec hstub hlt ha hhandler).bind ?_
  rintro ⟨value, q⟩ h' ⟨args', hargs', hQ, hq⟩
  simp only at hQ hq
  have hpops := @popArgs_eq p.pusha.stack args' retValue
  rw [hargs'] at hpops
  have hqstack : q.stack = p.pusha.stack.pushAll args' := by rw [hq]
  simp only [hqstack, hpops]
  exact Yields.pure ⟨⟨args', hargs', hQ, rfl⟩, popa_back rfl (by rw [hq])⟩

end Acting

section Reading
variable {site : CallSite} {args : List UDword}

/-- The macros for a handler that does not touch the memory. -/
theorem callSystem_eq_acting (site : CallSite) (args : List UDword) (p : Processor) :
    callSystem site args p = site.acting.callSystem args p := by
  unfold callSystem systemEntry ActingSite.callSystem ActingSite.entry raiseInterruption
    ActingSite.raise Stub.handle ActingSite.handle callHandler CallSite.acting
  simp only [bind_assoc, pure_bind]

theorem callSystemRet_eq_acting (site : CallSite) (retValue : UDword) (args : List UDword)
    (p : Processor) :
    callSystemRet site retValue args p = site.acting.callSystemRet retValue args p := by
  unfold callSystemRet systemEntry ActingSite.callSystemRet ActingSite.entry raiseInterruption
    ActingSite.raise Stub.handle ActingSite.handle callHandler CallSite.acting
  simp only [bind_assoc, pure_bind]

/-- Such a handler leaves the arguments but for the result, and reads what the slots hold. -/
theorem handlesFrame_acting {E : Set Fault} (hargs : args ≠ []) (h : Heap) :
    HandlesFrame E site.acting.handler args h fun accesses args' _ =>
      args' = argsAfter args accesses ∧
        ∀ before k v after, accesses = before ++ .read k v :: after → k.toNat < args.length →
          (argsAfter args before)[k.toNat]? = some v := by
  intro s saved ebp regs above hebp hlt hregs
  rcases site.handler.run_spec hebp hlt hargs hregs with ⟨hstack, hreads⟩
  exact Yields.pure ⟨_, length_argsAfter _ _, hstack, rfl, hreads⟩

end Reading

/-- Every read yields the argument it asks for, when there is one. -/
def ReadsArguments (args : List UDword) (accesses : List Access) : Prop :=
  ∀ k v : UDword, .read k v ∈ accesses → ∀ hk : k.toNat < args.length, v = args[k.toNat]

/-- Every read yields the argument it asks for, when there is one; but the first one only
as long as the handler has not pushed its result there, and then that. -/
def ReadsArgumentsAndResult (args : List UDword) (accesses : List Access) : Prop :=
  ∀ (before : List Access) (k v : UDword) (after : List Access),
    accesses = before ++ .read k v :: after → ∀ hk : k.toNat < args.length,
    v = if k = 0 then (lastPushed before).getD args[k.toNat] else args[k.toNat]

/-- **A system call passes its arguments and is neutral**: every read yields its argument
(or the result that has taken the place of the first), and in the end the stack, the
registers of `pusha` and the place in the code are what they were. -/
theorem system_call_faithful {h : Heap} {S : Finset Block} {p : Processor} {site : CallSite}
    {args : List UDword} (hl : Live h S) (hargs : args ≠ [])
    (hlt : site.frame.length + args.length < 2 ^ 28) (hstub : site.stub.hasErrorCode = false)
    (hempty : S = ∅ → h.heapStart.toNat + 12 + 4 * args.length ≤ h.heapEnd.toNat ∧
      h.heapStart.toNat + 12 < h.heapEnd.toNat) :
    Succeeds (callSystem site args p) h fun r _ =>
      ReadsArgumentsAndResult args r.1 ∧ r.2.stack = p.stack ∧ r.2.general = p.general ∧
        r.2.eip = site.eip := by
  rw [callSystem_eq_acting]
  refine (ActingSite.callSystem_spec hstub hlt (hl.allocates (by omega) hempty)
    fun g _ _ => handlesFrame_acting hargs g).mono ?_
  rintro ⟨accesses, q⟩ h' ⟨⟨args', -, -, hreads⟩, hgeneral, hstack, heip⟩
  refine ⟨?_, hstack, hgeneral, heip⟩
  intro before k v after heq hk
  have hread := hreads before k v after heq hk
  rw [argsAfter_eq] at hread
  have hzero : k = 0 ↔ k.toNat = 0 := ⟨fun h => by rw [h]; rfl, fun h => BitVec.eq_of_toNat_eq h⟩
  -- what was pushed last stands in the slot of argument 0
  cases hlast : lastPushed before with
  | none =>
    rw [hlast, Option.map_none, Option.getD_none, List.getElem?_eq_getElem hk] at hread
    rw [Option.getD_none, ite_self]
    exact (Option.some.inj hread).symm
  | some u =>
    rw [hlast, Option.map_some, Option.getD_some, List.getElem?_set] at hread
    rw [Option.getD_some]
    by_cases hk0 : k = 0
    · rw [if_pos (hzero.mp hk0).symm, if_pos (by omega)] at hread
      rw [if_pos hk0]
      exact (Option.some.inj hread).symm
    · rw [if_neg (fun h => hk0 (hzero.mpr h.symm)), List.getElem?_eq_getElem hk] at hread
      rw [if_neg hk0]
      exact (Option.some.inj hread).symm

/-! ### One call -/

/-- The only call of a program, through the vector of the screen. -/
def exampleSite (handler : Handler) : CallSite where
  stub := .isr 48
  handler := handler
  frame := []
  scratch := ⟨0, 0, 0, 0, 0, 0, 0⟩
  eip := 0x8123
  extractReturn := 0x8100

def exampleProcessor : Processor where
  general := ⟨1, 2, 3, 4, 0x8ff0, 6, 7⟩
  ds := 0x10
  es := 0x10
  fs := 0x10
  gs := 0x10
  eip := 0x8000
  cs := 0x08
  eflags := 0x200
  stack := ⟨0x9000, [], fun _ => 0⟩

/-- The result of a program, when it returns. -/
def resultOf {α : Type} (r : Except Fault (α × Heap)) : Option α :=
  match r with
  | .ok (a, _) => some a
  | .error _ => none

theorem exists_of_resultOf {α : Type} {r : Except Fault (α × Heap)} {a : α}
    (h : resultOf r = some a) : ∃ h', r = .ok (a, h') := by
  unfold resultOf at h
  split at h
  · exact ⟨_, by rw [Option.some.inj h]⟩
  · cases h

theorem system_call_faithful_example : ∃ accesses q h',
    callSystem (exampleSite (.getArg 1 fun v => .push v (.done 0 0 0))) [5, 6] exampleProcessor
      smallHeap = .ok ((accesses, q), h') ∧ ReadsArgumentsAndResult [5, 6] accesses ∧
      q.stack = exampleProcessor.stack ∧ q.general = exampleProcessor.general ∧
      q.eip = 0x8123 := by
  have hcall := @system_call_faithful smallHeap ∅ exampleProcessor
    (exampleSite (.getArg 1 fun v => .push v (.done 0 0 0))) [5, 6] ⟨[], smallHeap_wellFormed, rfl⟩
    (by decide) (by decide) (by decide) fun _ => by decide +kernel
  rcases hcall.returns_of_isOk (by decide +kernel) with ⟨⟨accesses, q⟩, h', hrun, hfacts⟩
  exact ⟨accesses, q, h', hrun, hfacts⟩

/-- A handler that pushes its result and then reads its first argument gets the result. -/
theorem first_argument_overwritten : ∃ accesses q h',
    callSystem (exampleSite (.push 7 (.getArg 0 fun _ => .done 0 0 0))) [1] exampleProcessor
      smallHeap = .ok ((accesses, q), h') ∧ ¬ ReadsArguments [1] accesses := by
  have hresult : (resultOf (callSystem (exampleSite (.push 7 (.getArg 0 fun _ => .done 0 0 0))) [1]
      exampleProcessor smallHeap)).map Prod.fst = some [.pushed 7, .read 0 7] := by decide +kernel
  rcases Option.map_eq_some_iff.mp hresult with ⟨⟨accesses, q⟩, hok, hfst⟩
  rcases exists_of_resultOf hok with ⟨h', heq⟩
  refine ⟨accesses, q, h', heq, ?_⟩
  intro hreads
  have hread := hreads 0 7 (by rw [show accesses = _ from hfst]; simp) (by decide)
  exact absurd hread (by decide)

/-! ## Results -/

/-- What the slots hold when the last thing a handler did was to push its result. -/
theorem getLastD_argsAfter {args : List UDword} {accesses : List Access} {v : UDword}
    (hargs : args ≠ []) (hlast : accesses.getLast? = some (.pushed v)) (d : UDword) :
    (argsAfter args accesses).getLastD d = if args.length = 1 then v else args.getLastD d := by
  obtain ⟨before, rfl⟩ : ∃ before, accesses = before ++ [.pushed v] :=
    List.getLast?_eq_some_iff.mp hlast
  have hpushed : lastPushed (before ++ [.pushed v]) = some v := by
    unfold lastPushed
    rw [List.filterMap_append]
    simp
  rw [argsAfter_eq, hpushed, Option.map_some, Option.getD_some]
  rcases List.exists_cons_of_ne_nil hargs with ⟨arg, rest, rfl⟩
  cases rest with
  | nil => rfl
  | cons arg' rest =>
    rw [if_neg (by simp)]
    rfl

/-- **The result reaches the caller exactly** when it has the only slot there is, or is
the last argument anyway: the slots are popped into the variable one after the other. -/
theorem system_call_result_iff {h : Heap} {S : Finset Block} {p : Processor} {site : CallSite}
    {args : List UDword} (retValue : UDword) (hl : Live h S) (hargs : args ≠ [])
    (hlt : site.frame.length + args.length < 2 ^ 28) (hstub : site.stub.hasErrorCode = false)
    (hempty : S = ∅ → h.heapStart.toNat + 12 + 4 * args.length ≤ h.heapEnd.toNat ∧
      h.heapStart.toNat + 12 < h.heapEnd.toNat) :
    Succeeds (callSystemRet site retValue args p) h fun r _ =>
      ∀ v, r.2.1.getLast? = some (.pushed v) →
        (r.1 = v ↔ args.length = 1 ∨ args.getLast hargs = v) := by
  rw [callSystemRet_eq_acting]
  refine (ActingSite.callSystemRet_spec retValue hstub hlt (hl.allocates (by omega) hempty)
    fun g _ _ => handlesFrame_acting hargs g).mono ?_
  rintro ⟨answer, accesses, q⟩ h' ⟨⟨args', -, ⟨rfl, -⟩, hanswer⟩, -⟩
  intro v hlast
  dsimp only at hanswer hlast ⊢
  rw [hanswer, getLastD_argsAfter hargs hlast]
  rw [List.getLastD_eq_getLast?, List.getLast?_eq_getLast_of_ne_nil hargs, Option.getD_some]
  by_cases hone : args.length = 1
  · simp [hone]
  · simp [hone]

theorem system_call_result_example : ∃ answer accesses q h',
    callSystemRet (exampleSite (.push 7 (.done 0 0 0))) 0 [5] exampleProcessor smallHeap =
      .ok ((answer, accesses, q), h') ∧ ∀ v, accesses.getLast? = some (.pushed v) →
      (answer = v ↔ [(5 : UDword)].length = 1 ∨ [(5 : UDword)].getLast (by simp) = v) := by
  have hcall := @system_call_result_iff smallHeap ∅ exampleProcessor
    (exampleSite (.push 7 (.done 0 0 0))) [5] 0 ⟨[], smallHeap_wellFormed, rfl⟩ (by decide)
    (by decide) (by decide) fun _ => by decide +kernel
  rcases hcall.returns_of_isOk (by decide +kernel) with ⟨⟨answer, accesses, q⟩, h', hrun, hfacts⟩
  exact ⟨answer, accesses, q, h', hrun, hfacts⟩

/-- With two arguments the caller gets the second one. -/
theorem result_overwritten_by_argument : ∃ accesses q h',
    callSystemRet (exampleSite (.push 7 (.done 0 0 0))) 0 [1, 2] exampleProcessor smallHeap =
      .ok ((2, accesses, q), h') ∧ accesses.getLast? = some (.pushed 7) := by
  have hresult : (resultOf (callSystemRet (exampleSite (.push 7 (.done 0 0 0))) 0 [1, 2]
      exampleProcessor smallHeap)).map (fun r => (r.1, r.2.1)) = some (2, [.pushed 7]) := by
    decide +kernel
  rcases Option.map_eq_some_iff.mp hresult with ⟨⟨retValue, accesses, q⟩, hok, hmap⟩
  rcases exists_of_resultOf hok with ⟨h', heq⟩
  rcases Prod.mk.inj hmap with ⟨rfl, rfl⟩
  exact ⟨[.pushed 7], q, h', heq, rfl⟩

end MushOS
