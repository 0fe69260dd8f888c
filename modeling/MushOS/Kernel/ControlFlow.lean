import MushOS.Theory.Coroutines
import MushOS.Kernel.TaskRuns

/-! # Where fork and switch_task return

`get_instruction_pointer` returns the address of its call site, and a jump to that
address makes it return there again, in whatever task the registers now belong to,
with the dummy value in EAX. The machine below runs just that: a second half is
entered at a call site, with a value and a frame base, and finds its locals in the
frame at that base on the stack of the current task. A stack belongs to a task, and
`fork` copies it along with the address space.

Nothing here decides who returns where but the tests of the code: the sentinel in
`switch_task` and the comparison with `parent_task` in `fork`. That they decide
rightly is `machine_refines_coroutines`, and `returns_once_and_twice` is what it
means for a run. Timer ticks arrive while a task runs code of its own.
-/

namespace MushOS

open ByteMemory RoundRobin Transition Coroutines

/-- The addresses the two calls of `get_instruction_pointer` return to. -/
structure CallSites where
  fork : UDword
  switchTask : UDword
  distinct : fork ≠ switchTask
  fork_ne : fork ≠ switchSentinel
  switchTask_ne : switchTask ≠ switchSentinel

/-- The frame of a call, with the locals the second half reads. -/
inductive Frame where
  | fork (call : ℕ) (parentTask newTask : UDword)
  | switchTask (call : ℕ)

/-- The kernel, the frames on the stack of every task, and the number of calls made. -/
structure Machine where
  kernel : Kernel
  frames : UDword → UDword → Option Frame
  calls : ℕ

abbrev MachineEvent := Coroutines.Event UDword (Option UDword)

/-- How a second half ends. -/
inductive Ending where
  | returned (call : ℕ) (value : Option UDword)
  | jumped (loaded : Registers)

namespace Machine

/-- `get_instruction_pointer` has returned `value` at `site`, with these registers. -/
def secondHalf (sites : CallSites) (site value esp ebp : UDword) (m : Machine) :
    Option (Ending × Machine) :=
  match m.frames m.kernel.currentTask ebp with
  | none => none
  | some (.fork call parentTask newTask) =>
    if site = sites.fork then
      let (result, k) := forkReturn parentTask newTask esp ebp value m.kernel
      some (.returned call (some result), { m with kernel := k })
    else none
  | some (.switchTask call) =>
    if site = sites.switchTask then
      match MushOS.switchTask esp ebp value m.kernel with
      | (none, k) => some (.returned call none, { m with kernel := k })
      | (some loaded, k) => some (.jumped loaded, { m with kernel := k })
    else none

/-- From a return of `get_instruction_pointer` until a call returns, through any number of
switches. -/
def proceed (sites : CallSites) : ℕ → UDword → UDword → UDword → UDword → Machine →
    Option (List MachineEvent × Machine)
  | 0, _, _, _, _, _ => none
  | fuel + 1, site, value, esp, ebp, m =>
    match secondHalf sites site value esp ebp m with
    | none => none
    | some (.returned call result, m) =>
      some ([.returned call m.kernel.currentTask result], m)
    | some (.jumped loaded, m) =>
      (proceed sites fuel loaded.eip switchSentinel loaded.esp loaded.ebp m).map fun result =>
        (.resumed m.kernel.currentTask :: result.1, result.2)

/-- The stack of `task` with a frame at `ebp`. -/
def pushFrame (task ebp : UDword) (frame : Frame) (frames : UDword → UDword → Option Frame) :
    UDword → UDword → Option Frame :=
  Function.update frames task (Function.update (frames task) ebp (some frame))

/-- The current task calls `switch_task`; `fuel` bounds the second halves until a call
returns. -/
def callSwitchTask (sites : CallSites) (fuel : ℕ) (esp ebp : UDword) (m : Machine) :
    Option (List MachineEvent × Machine) :=
  let task := m.kernel.currentTask
  let call := m.calls
  let frames := pushFrame task ebp (.switchTask call) m.frames
  (proceed sites fuel sites.switchTask sites.switchTask esp ebp
    { m with frames := frames, calls := call + 1 }).map fun result =>
      (.called call task .yield :: result.1, result.2)

/-- The stacks when `task` forks: when its stack is copied `parent_task` is in the frame,
and `new_task` holds `garbage` still. -/
def forkFrames (task newTask ebp garbage : UDword) (call : ℕ)
    (frames : UDword → UDword → Option Frame) : UDword → UDword → Option Frame :=
  let frames := pushFrame task ebp (.fork call task garbage) frames
  let frames := Function.update frames newTask (frames task)
  pushFrame task ebp (.fork call task newTask) frames

/-- The current task calls `fork`. -/
def callFork (sites : CallSites) (fuel : ℕ) (esp ebp garbage : UDword) (m : Machine) :
    Option (List MachineEvent × Machine) :=
  let task := m.kernel.currentTask
  let call := m.calls
  match forkTask m.kernel with
  | .error _ => none
  | .ok (newTask, kernel) =>
    let frames := forkFrames task newTask ebp garbage call m.frames
    (proceed sites fuel sites.fork sites.fork esp ebp ⟨kernel, frames, call + 1⟩).map
      fun result => (.called call task .spawn :: .created call newTask :: result.1, result.2)

section
variable {sites : CallSites} {site value esp ebp : UDword} {m m' : Machine}

theorem proceed_returned {c : ℕ} {result : Option UDword}
    (h : secondHalf sites site value esp ebp m = some (.returned c result, m')) (fuel : ℕ) :
    proceed sites (fuel + 1) site value esp ebp m =
      some ([.returned c m'.kernel.currentTask result], m') := by
  unfold proceed
  rw [h]

theorem proceed_jumped {loaded : Registers}
    (h : secondHalf sites site value esp ebp m = some (.jumped loaded, m')) (fuel : ℕ) :
    proceed sites (fuel + 1) site value esp ebp m =
      (proceed sites fuel loaded.eip switchSentinel loaded.esp loaded.ebp m').map fun result =>
        (.resumed m'.kernel.currentTask :: result.1, result.2) := by
  rw [proceed]
  rw [h]

/-- More fuel changes nothing. -/
theorem proceed_succ {fuel : ℕ} {result : List MachineEvent × Machine}
    (h : proceed sites fuel site value esp ebp m = some result) :
    proceed sites (fuel + 1) site value esp ebp m = some result := by
  induction fuel generalizing site value esp ebp m result with
  | zero => cases h
  | succ fuel ih =>
    unfold proceed at h ⊢
    split
    · next hnone =>
      rw [hnone] at h
      cases h
    · next hreturned =>
      rw [hreturned] at h
      exact h
    · next loaded m' hjumped =>
      rw [hjumped, Option.map_eq_some_iff] at h
      rcases h with ⟨rest, hrest, rfl⟩
      rw [ih hrest]
      rfl

theorem callSwitchTask_succ {fuel : ℕ} {result : List MachineEvent × Machine}
    (h : callSwitchTask sites fuel esp ebp m = some result) :
    callSwitchTask sites (fuel + 1) esp ebp m = some result := by
  unfold callSwitchTask at h ⊢
  simp only [Option.map_eq_some_iff] at h ⊢
  rcases h with ⟨rest, hrest, rfl⟩
  exact ⟨rest, proceed_succ hrest, rfl⟩

/-- How a call of `fork` goes on once it has created its child. -/
theorem callFork_eq {garbage newTask : UDword} {k : Kernel}
    (h : forkTask m.kernel = .ok (newTask, k)) (fuel : ℕ) :
    callFork sites fuel esp ebp garbage m =
      (proceed sites fuel sites.fork sites.fork esp ebp
        ⟨k, forkFrames m.kernel.currentTask newTask ebp garbage m.calls m.frames, m.calls + 1⟩).map
        fun result => (.called m.calls m.kernel.currentTask .spawn ::
          .created m.calls newTask :: result.1, result.2) := by
  rw [callFork, h]

theorem callFork_succ {garbage : UDword} {fuel : ℕ} {result : List MachineEvent × Machine}
    (h : callFork sites fuel esp ebp garbage m = some result) :
    callFork sites (fuel + 1) esp ebp garbage m = some result := by
  cases htask : forkTask m.kernel with
  | error e =>
    rw [callFork, htask] at h
    cases h
  | ok child =>
    rw [callFork_eq htask, Option.map_eq_some_iff] at h ⊢
    rcases h with ⟨rest, hrest, rfl⟩
    exact ⟨rest, proceed_succ hrest, rfl⟩

end

theorem pushFrame_self (task ebp : UDword) (frame : Frame)
    (frames : UDword → UDword → Option Frame) :
    pushFrame task ebp frame frames task ebp = some frame := by
  unfold pushFrame
  rw [Function.update_self, Function.update_self]

theorem pushFrame_ne {task t : UDword} (h : t ≠ task) (ebp : UDword) (frame : Frame)
    (frames : UDword → UDword → Option Frame) :
    pushFrame task ebp frame frames t = frames t := by
  unfold pushFrame
  rw [Function.update_of_ne h]

end Machine

/-- `initialise_tasking`, then calls of `fork` and `switch_task` that return. -/
def machineSystem (sites : CallSites) : System Machine (List MachineEvent) where
  Init m := taskSystem.Init m.kernel ∧ m.calls = 0
  Step m es m' :=
    (∃ fuel esp ebp, m.callSwitchTask sites fuel esp ebp = some (es, m')) ∨
      ∃ fuel esp ebp garbage, m.callFork sites fuel esp ebp garbage = some (es, m')

/-! ## Waiting tasks -/

/-- The task `t` will return `v` from the call `c` when it is resumed. -/
def Waits (sites : CallSites) (k : Kernel) (frames : UDword → UDword → Option Frame) (t : UDword)
    (c : ℕ) (v : Option UDword) : Prop :=
  (v = none ∧ (k.task t).eip = sites.switchTask ∧
      frames t (k.task t).ebp = some (.switchTask c)) ∨
    (v = some 0 ∧ (k.task t).eip = sites.fork ∧ ∃ parentTask newTask,
      frames t (k.task t).ebp = some (.fork c parentTask newTask) ∧ parentTask ≠ t)

section
variable {sites : CallSites} {k k' : Kernel} {frames frames' : UDword → UDword → Option Frame}
  {t : UDword} {c : ℕ} {v : Option UDword}

/-- It depends on the context of the task and on its stack. -/
theorem Waits.congr (h : Waits sites k frames t c v)
    (hcontext : (k'.task t).context = (k.task t).context) (hstack : frames' t = frames t) :
    Waits sites k' frames' t c v := by
  have hebp : (k'.task t).ebp = (k.task t).ebp := congrArg Context.ebp hcontext
  have heip : (k'.task t).eip = (k.task t).eip := congrArg Context.eip hcontext
  unfold Waits
  rw [hebp, heip, hstack]
  exact h

/-- **Resuming a waiting task** makes its own call return, whichever function the saved
instruction pointer belongs to, and nothing else happens. -/
theorem Waits.resume (h : Waits sites k frames k.currentTask c v) (hcurrent : k.currentTask ≠ 0)
    (esp : UDword) (calls fuel : ℕ) :
    Machine.proceed sites (fuel + 1) (k.task k.currentTask).eip switchSentinel esp
      (k.task k.currentTask).ebp ⟨k, frames, calls⟩ =
        some ([.returned c k.currentTask v], ⟨k, frames, calls⟩) := by
  refine @Machine.proceed_returned sites _ _ _ _ _ ⟨k, frames, calls⟩ c v ?_ fuel
  unfold Machine.secondHalf
  rcases h with ⟨rfl, heip, hframe⟩ | ⟨rfl, heip, parentTask, newTask, hframe, hparent⟩
  · -- the sentinel
    have hswitch : switchTask esp (k.task k.currentTask).ebp switchSentinel k = (none, k) := by
      unfold switchTask
      rw [if_neg hcurrent, if_pos rfl]
    simp only [hframe, heip, if_true, hswitch]
  · -- the comparison with `parent_task`
    simp only [hframe, heip, if_true, forkReturn_child (Ne.symm hparent)]

end

/-! ## The machine as coroutines -/

/-- The machine `m` stands for the state `s`: its tasks are the clients, and whoever does
not run waits where `s` says. -/
structure Stands (sites : CallSites) (m : Machine) (rota : Rota UDword)
    (s : State UDword (Option UDword)) : Prop where
  tasking : Tasking m.kernel rota
  current : s.current = m.kernel.currentTask
  calls : s.calls = m.calls
  consistent : Consistent s
  known : ∀ t, s.parked t ≠ none → t ∈ rota.queue
  waits : ∀ t ∈ rota.queue, t ≠ m.kernel.currentTask →
    ∃ c v, s.parked t = some (c, v) ∧ Waits sites m.kernel m.frames t c v

section
variable {sites : CallSites} {m m' : Machine} {rota : Rota UDword}
  {s : State UDword (Option UDword)} {esp ebp garbage t : UDword} {es : List MachineEvent}
  {loaded : Registers} {k' : Kernel}

/-- The saved registers of a task lead back to where it waits. -/
theorem Stands.parked (h : Stands sites m rota s) (hswitches :
    Switches m.kernel rota esp ebp sites.switchTask loaded k') (ht : t ∈ rota.queue) :
    ∃ c v, Function.update s.parked s.current (some (s.calls, none)) t = some (c, v) ∧
      Waits sites k' (Machine.pushFrame m.kernel.currentTask ebp (.switchTask m.calls) m.frames)
        t c v := by
  have hcurrent := h.tasking.current
  by_cases htc : t = m.kernel.currentTask
  · -- the task that leaves
    refine ⟨m.calls, none, ?_, Or.inl ⟨rfl, ?_, ?_⟩⟩
    · rw [htc, ← h.current, Function.update_self, h.calls]
    · rw [htc, hcurrent, hswitches.saved]
    · rw [htc, hcurrent, hswitches.saved]
      exact Machine.pushFrame_self _ _ _ _
  · rcases h.waits t ht htc with ⟨c, v, hparked, hwaits⟩
    refine ⟨c, v, ?_, hwaits.congr ?_ (Machine.pushFrame_ne htc _ _ _)⟩
    · rw [Function.update_of_ne (h.current ▸ htc), hparked]
    · rw [hswitches.others t ht (hcurrent ▸ htc)]

/-- A call of `switch_task` is a `yield`: it resumes the next task, whose own call returns
without another switch. -/
theorem Stands.callSwitchTask (h : Stands sites m rota s) (esp ebp : UDword) :
    ∃ c v m' s', (∀ fuel, m.callSwitchTask sites (fuel + 2) esp ebp =
        some ([.called m.calls m.kernel.currentTask .yield, .resumed rota.turn.current,
          .returned c rota.turn.current v], m')) ∧
      Coroutines.Step none (some 0) s
        [.called m.calls m.kernel.currentTask .yield, .resumed rota.turn.current,
          .returned c rota.turn.current v] s' ∧
      Stands sites m' rota.turn s' := by
  rcases @switchTask_spec m.kernel rota h.tasking esp ebp sites.switchTask sites.switchTask_ne with
    ⟨loaded, k', hswitch, hswitches⟩
  have htasking := hswitches.tasking
  have hnext : k'.currentTask ∈ rota.queue := rota.queue_turn ▸ htasking.current_mem
  rcases h.parked hswitches hnext with ⟨c, v, hparked, hwaits⟩
  obtain ⟨frames, hframes⟩ : ∃ frames, frames = Machine.pushFrame m.kernel.currentTask ebp
    (.switchTask m.calls) m.frames := ⟨_, rfl⟩
  have hstep : Coroutines.Step none (some 0) s _ _ := Step.yield hparked
  rw [h.calls, h.current] at hstep
  -- the second half jumps to where the next task was parked
  have hproceed (fuel : ℕ) :
      Machine.proceed sites (fuel + 2) sites.switchTask sites.switchTask esp ebp
      ⟨m.kernel, frames, m.calls + 1⟩ =
        some ([.resumed k'.currentTask, .returned c k'.currentTask v],
          ⟨k', frames, m.calls + 1⟩) := by
    have hjump : Machine.secondHalf sites sites.switchTask sites.switchTask esp ebp
        ⟨m.kernel, frames, m.calls + 1⟩ =
          some (.jumped loaded, ⟨k', frames, m.calls + 1⟩) := by
      unfold Machine.secondHalf
      simp only [hframes, Machine.pushFrame_self, if_true, hswitch]
    rw [← hframes] at hwaits
    have hresume := hwaits.resume (htasking.holds.ne_zero htasking.current_mem)
      (k'.task k'.currentTask).esp (m.calls + 1) fuel
    rw [Machine.proceed_jumped hjump, hswitches.loaded]
    simp only [hresume]
    rfl
  rw [← htasking.current]
  refine ⟨c, v, ⟨k', frames, m.calls + 1⟩, _, ?_, hstep, ?_⟩
  · intro fuel
    unfold Machine.callSwitchTask
    simp only [← hframes, hproceed]
    rfl
  · -- afterwards the next task runs and the one before it is parked
    refine ⟨htasking, rfl, rfl, h.consistent.step hstep, ?_, ?_⟩
    · intro t ht
      rw [Rota.queue_turn]
      by_cases htc : t = m.kernel.currentTask
      · exact htc ▸ h.tasking.current_mem
      · refine h.known t ?_
        by_cases htn : t = k'.currentTask
        · subst htn
          simp at ht
        · simpa only [Function.update_of_ne htn, Function.update_of_ne htc] using ht
    · intro t ht hne
      rw [Rota.queue_turn] at ht
      rcases h.parked hswitches ht with ⟨c', v', hparked', hwaits'⟩
      rw [h.calls, h.current] at hparked'
      refine ⟨c', v', ?_, hframes ▸ hwaits'⟩
      simp only [Function.update_of_ne hne]
      exact hparked'

/-- What is in the frames when `fork` takes its pid: the copy of the child is of the frame
before `new_task` was in it. -/
theorem forkFrames_child {frames : UDword → UDword → Option Frame} {task : UDword} (c : ℕ)
    (hne : t ≠ task) : Machine.forkFrames task t ebp garbage c frames t ebp =
      some (.fork c task garbage) := by
  unfold Machine.forkFrames
  rw [Machine.pushFrame_ne hne, Function.update_self, Machine.pushFrame_self]

theorem forkFrames_self {frames : UDword → UDword → Option Frame} {task : UDword} (c : ℕ) :
    Machine.forkFrames task t ebp garbage c frames task ebp = some (.fork c task t) := by
  unfold Machine.forkFrames
  rw [Machine.pushFrame_self]

theorem forkFrames_other {frames : UDword → UDword → Option Frame} {task t' : UDword} (c : ℕ)
    (hne : t' ≠ task) (hnew : t' ≠ t) :
    Machine.forkFrames task t ebp garbage c frames t' = frames t' := by
  unfold Machine.forkFrames
  rw [Machine.pushFrame_ne hne, Function.update_of_ne hnew, Machine.pushFrame_ne hne]

theorem Stands.not_parked (h : Stands sites m rota s) (ht : t ∉ rota.queue) :
    s.parked t = none := by
  by_contra hparked
  exact ht (h.known t hparked)

/-- A call of `fork` that creates its child is a `spawn`: it returns the pid of the child,
which waits for its first turn. -/
theorem Stands.callFork (h : Stands sites m rota s) (htask : forkTask m.kernel = .ok (t, k'))
    (esp ebp garbage : UDword) :
    ∃ m' s', (∀ fuel, m.callFork sites (fuel + 1) esp ebp garbage =
        some ([.called m.calls m.kernel.currentTask .spawn, .created m.calls t,
          .returned m.calls m.kernel.currentTask (some m.kernel.nextPid)], m')) ∧
      Coroutines.Step none (some 0) s
        [.called m.calls m.kernel.currentTask .spawn, .created m.calls t,
          .returned m.calls m.kernel.currentTask (some m.kernel.nextPid)] s' ∧
      Stands sites m' (rota.spawn t) s' := by
  obtain ⟨pid, k₂, hret⟩ : ∃ pid k₂,
    forkReturn m.kernel.currentTask t esp ebp sites.fork k' = (pid, k₂) := ⟨_, _, rfl⟩
  have hfork : fork esp ebp sites.fork m.kernel = .ok (pid, k₂) := by rw [fork_eq htask, hret]
  rcases fork_spec h.tasking hfork ⟨k', htask⟩ with ⟨rfl, hforks⟩
  have hcurrent₁ := forkTask_currentTask h.tasking htask
  have hcurrent₂ : k₂.currentTask = m.kernel.currentTask := by
    rw [hforks.tasking.current, h.tasking.current, Rota.current_spawn]
  have hne : t ≠ m.kernel.currentTask := by
    rintro rfl
    exact hforks.fresh h.tasking.current_mem
  obtain ⟨frames, hframes⟩ : ∃ frames, frames =
    Machine.forkFrames m.kernel.currentTask t ebp garbage m.calls m.frames := ⟨_, rfl⟩
  have hreturn : Machine.secondHalf sites sites.fork sites.fork esp ebp
      ⟨k', frames, m.calls + 1⟩ = some (.returned m.calls (some m.kernel.nextPid),
        ⟨k₂, frames, m.calls + 1⟩) := by
    unfold Machine.secondHalf
    simp only [hcurrent₁, hframes, forkFrames_self, if_true, hret]
  have hstep : Coroutines.Step none (some 0) s _ _ :=
    Step.spawn (some m.kernel.nextPid) (h.current ▸ hne) (h.not_parked hforks.fresh)
  rw [h.calls, h.current] at hstep
  refine ⟨⟨k₂, frames, m.calls + 1⟩, _, ?_, hstep,
    ⟨hforks.tasking, hcurrent₂.symm, rfl, h.consistent.step hstep, ?_, ?_⟩⟩
  · intro fuel
    rw [Machine.callFork_eq htask, ← hframes, Machine.proceed_returned hreturn]
    simp only [Option.map_some, hcurrent₂]
  · intro t' ht'
    rw [Rota.queue_spawn, List.mem_append, List.mem_singleton]
    by_cases hnew : t' = t
    · exact Or.inr hnew
    · simp only [Function.update_of_ne hnew] at ht'
      exact Or.inl (h.known t' ht')
  · intro t' ht' hrun
    simp only [hcurrent₂] at hrun
    rw [Rota.queue_spawn, List.mem_append, List.mem_singleton] at ht'
    rcases ht' with ht' | rfl
    · -- a task there was waits as it did
      have hnew : t' ≠ t := by
        rintro rfl
        exact hforks.fresh ht'
      rcases h.waits t' ht' hrun with ⟨c, v, hparked, hwaits⟩
      refine ⟨c, v, ?_, hwaits.congr ?_ ?_⟩
      · simp only [Function.update_of_ne hnew]
        exact hparked
      · rw [hforks.others t' ht']
        rfl
      · rw [hframes]
        exact forkFrames_other m.calls hrun hnew
    · -- the child has the frame of its parent
      refine ⟨m.calls, some 0, Function.update_self _ _ _,
        Or.inr ⟨rfl, ?_, m.kernel.currentTask, garbage, ?_, hrun.symm⟩⟩
      · rw [hforks.child]
      · rw [hforks.child, hframes]
        exact forkFrames_child m.calls hrun

/-- A step of the machine is a step of the coroutines with the same events; the queue only
grows. -/
theorem Stands.step (h : Stands sites m rota s) (hstep : (machineSystem sites).Step m es m') :
    ∃ rota' s', Coroutines.Step none (some 0) s es s' ∧ Stands sites m' rota' s' ∧
      rota.queue <+: rota'.queue := by
  rcases hstep with ⟨fuel, esp, ebp, heq⟩ | ⟨fuel, esp, ebp, garbage, heq⟩
  · rcases h.callSwitchTask esp ebp with ⟨c, v, m₁, s', hcall, hstep, hstands⟩
    have heq' := Machine.callSwitchTask_succ (Machine.callSwitchTask_succ heq)
    rw [hcall fuel] at heq'
    rcases Prod.mk.inj (Option.some.inj heq') with ⟨rfl, rfl⟩
    exact ⟨_, _, hstep, hstands, by rw [Rota.queue_turn]⟩
  · cases htask : forkTask m.kernel with
    | error e =>
      rw [Machine.callFork, htask] at heq
      cases heq
    | ok result =>
      rcases result with ⟨child, k⟩
      rcases h.callFork htask esp ebp garbage with ⟨m₁, s', hcall, hstep, hstands⟩
      have heq' := Machine.callFork_succ heq
      rw [hcall fuel] at heq'
      rcases Prod.mk.inj (Option.some.inj heq') with ⟨rfl, rfl⟩
      exact ⟨_, _, hstep, hstands, by rw [Rota.queue_spawn]; exact List.prefix_append _ _⟩

/-- At the start nobody waits. -/
theorem exists_stands (h : (machineSystem sites).Init m) :
    ∃ s, (system none (some 0)).Init s ∧ Stands sites m ⟨[], m.kernel.currentTask, []⟩ s := by
  rcases h with ⟨hinit, hcalls⟩
  have htasking := (tasking_init hinit).1
  refine ⟨⟨m.kernel.currentTask, fun _ => none, 0⟩, rfl, htasking, rfl, hcalls.symm,
    consistent_of_init rfl, fun t ht => absurd rfl ht, ?_⟩
  intro t ht hne
  exact absurd (List.mem_singleton.mp ht) hne

/-- **The machine is made of coroutines**: every run is a run of theirs, with the same
events. -/
theorem machine_refines_coroutines (h : Stands sites m rota s) {bs : List (List MachineEvent)}
    (hrun : (machineSystem sites).Run m bs m') :
    ∃ rota' s', (system none (some 0)).Run s bs s' ∧ Stands sites m' rota' s' ∧
      rota.queue <+: rota'.queue := by
  have hsim : ∀ m₁ es m₂ s₁, (machineSystem sites).Step m₁ es m₂ →
      (∃ rota₁, Stands sites m₁ rota₁ s₁ ∧ rota.queue <+: rota₁.queue) →
      ∃ s₂, Coroutines.Step none (some 0) s₁ es s₂ ∧
        ∃ rota₂, Stands sites m₂ rota₂ s₂ ∧ rota.queue <+: rota₂.queue := by
    intro m₁ es m₂ s₁ hstep ⟨rota₁, hstands, hextends⟩
    rcases hstands.step hstep with ⟨rota₂, s₂, hstep', hstands', hextends'⟩
    exact ⟨s₂, hstep', rota₂, hstands', hextends.trans hextends'⟩
  rcases @System.Run.simulate _ _ _ _ _ (system none (some 0)) _ id hsim _ _ _ s hrun
      ⟨rota, h, List.prefix_rfl⟩ with ⟨s', hrun', rota', hstands, hextends⟩
  rw [List.map_id] at hrun'
  exact ⟨rota', s', hrun', hstands, hextends⟩

end

/-! ## Returning once and twice -/

/-- On the ready queue `child` has `pid`, and no other task has. -/
def OwnPid (k : Kernel) (child pid : UDword) : Prop :=
  ∃ tasks, QueueInvariant k tasks ∧ child ∈ tasks ∧ ∀ t ∈ tasks, (k.task t).id = pid ↔ t = child

/-- The pid of a task is its place in the queue. -/
theorem Tasking.ownPid {k : Kernel} {rota : Rota UDword} {tasks : List UDword} {child : UDword}
    (h : Tasking k rota) (hextends : tasks ++ [child] <+: rota.queue) :
    OwnPid k child (BitVec.ofNat 32 tasks.length) := by
  have hmem : child ∈ rota.queue := hextends.subset (by simp)
  have hid : (k.task child).id = BitVec.ofNat 32 tasks.length := by
    rcases hextends with ⟨later, hlater⟩
    have hids := congrArg (fun ids => ids[tasks.length]?) h.ids
    rw [← hlater] at hids
    simpa using hids
  refine ⟨rota.queue, h.queueInvariant, hmem, ?_⟩
  intro t ht
  constructor
  · intro htid
    have hnodup : (rota.queue.map fun t => (k.task t).id.toNat).Nodup := by
      rw [h.queueInvariant.pids]
      exact List.nodup_range
    exact List.inj_on_of_nodup_map hnodup ht hmem (by rw [htid, hid])
  · rintro rfl
    exact hid

theorem OwnPid.getpid_iff {k : Kernel} {child pid : UDword} (h : OwnPid k child pid) :
    getpid k = pid ↔ k.currentTask = child := by
  rcases h with ⟨tasks, hqueue, -, hown⟩
  exact hown k.currentTask hqueue.current

/-- **What a fork returns is what `getpid` returns in the child**, at any time later and in no
other task. -/
theorem getpid_after_fork {k₀ k k₁ k' : Kernel} {calls later : List Call}
    {esp ebp eip pid child directory : UDword} (hinit : taskSystem.Init k₀)
    (hrun : taskSystem.Run k₀ calls k)
    (hfork : taskSystem.Step k (.fork esp ebp eip pid child directory) k₁)
    (hlater : taskSystem.Run k₁ later k') : getpid k' = pid ↔ k'.currentTask = child := by
  rcases run_act hrun (tasking_init hinit).1 with ⟨rota, -, h⟩
  rcases hfork with ⟨heq, hchild, -⟩
  rcases fork_spec h heq hchild with ⟨rfl, hforks⟩
  rcases run_act hlater hforks.tasking with ⟨rota', hrota, h'⟩
  -- the child keeps its place in the queue
  have hextends : rota.queue ++ [child] <+: rota'.queue := by
    rw [queue_of_run hrota, Rota.queue_spawn]
    exact List.prefix_append _ _
  rw [h.nextPid]
  exact (h'.ownPid hextends).getpid_iff

/-- **Calls return once and twice.** In every run, a call of `switch_task` gets to some
task, and returns there whatever that task was in; it returns once, in its caller when
that is next resumed. A call of `fork` that creates a child returns the pid of the child,
which no other task ever has, and once more, 0 in the child when that is first resumed.
Nothing else returns, and a resumed task does not switch again. -/
theorem returns_once_and_twice (sites : CallSites) {m₀ m : Machine}
    {as : List (List MachineEvent)} (hinit : (machineSystem sites).Init m₀)
    (hrun : (machineSystem sites).Run m₀ as m) :
    NotReturned m.calls as.flatten ∧
      (∀ esp ebp, ∃ next c v m₁,
        (∀ fuel, m.callSwitchTask sites (fuel + 2) esp ebp =
          some ([.called m.calls m.kernel.currentTask .yield, .resumed next, .returned c next v],
            m₁)) ∧
        ∀ bs m₂, (machineSystem sites).Run m₁ bs m₂ →
          ReturnsOnce m.calls m.kernel.currentTask none
            (.resumed next :: .returned c next v :: bs.flatten)) ∧
      ∀ child k esp ebp garbage, forkTask m.kernel = .ok (child, k) → ∃ m₁,
        (∀ fuel, m.callFork sites (fuel + 1) esp ebp garbage =
          some ([.called m.calls m.kernel.currentTask .spawn, .created m.calls child,
            .returned m.calls m.kernel.currentTask (some m.kernel.nextPid)], m₁)) ∧
        ∀ bs m₂, (machineSystem sites).Run m₁ bs m₂ →
          ReturnsOnce m.calls child (some 0) bs.flatten ∧
            OwnPid m₂.kernel child m.kernel.nextPid := by
  -- the runs of the machine are runs of coroutines, where the stories are known
  rcases exists_stands hinit with ⟨s₀, hs₀, hstands₀⟩
  rcases machine_refines_coroutines hstands₀ hrun with ⟨rota, s, hrun', h, -⟩
  rcases notReturned_of_run hs₀ hrun' with ⟨hcons, hnot⟩
  refine ⟨hnot m.calls h.calls.le, ?_, ?_⟩
  · intro esp ebp
    rcases h.callSwitchTask esp ebp with ⟨c, v, m₁, s₁, hcall, hstep, hstands₁⟩
    refine ⟨rota.turn.current, c, v, m₁, hcall, ?_⟩
    intro bs m₂ hlater
    rcases machine_refines_coroutines hstands₁ hlater with ⟨-, s₂, hlater', -⟩
    exact returnsOnce_of_yield hcons hstep hlater'
  · intro child k esp ebp garbage htask
    rcases h.callFork htask esp ebp garbage with ⟨m₁, s₁, hcall, hstep, hstands₁⟩
    refine ⟨m₁, hcall, ?_⟩
    intro bs m₂ hlater
    rcases machine_refines_coroutines hstands₁ hlater with ⟨rota₂, s₂, hlater', hstands₂, hextends⟩
    refine ⟨?_, ?_⟩
    · rcases returnsOnce_of_spawn hcons hstep hlater' with ⟨child', v, hes, honce⟩
      simp only [List.cons.injEq, Event.created.injEq] at hes
      rcases hes with ⟨⟨-, rfl⟩, -⟩
      exact honce
    · -- the child keeps its pid, and no other task gets it
      rw [h.tasking.nextPid]
      rw [Rota.queue_spawn] at hextends
      exact hstands₂.tasking.ownPid hextends

/-- Two call sites. -/
def bootSites : CallSites where
  fork := 0x8100
  switchTask := 0x8123
  distinct := by decide
  fork_ne := by decide
  switchTask_ne := by decide

end MushOS
