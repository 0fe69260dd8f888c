import MushOS.Kernel.Scheduler

/-! # Runs of the scheduler

The system of `initialise_tasking` followed by calls of `fork` and `switch_task` in
any order, whichever task is current. A label says what a call was given and what
came of it, so a run is a history:

* `round_robin`: the ready queue is the tasks created so far, in order of their
  pids, and the schedule is fair;
* `context_preserved`: what a switch loads is what the history says was saved.

Neither asks anything of the pools: a directory may be null here.
-/

namespace MushOS

open ByteMemory Links RoundRobin Transition

/-- A call and its outcome. -/
inductive Call where
  | fork (esp ebp eip : UDword) (pid child directory : UDword)
  | switchTask (task esp ebp eip : UDword) (loaded : Registers) (next : UDword)

/-- `initialise_tasking`, then `fork` and `switch_task` in any order. -/
def taskSystem : System Kernel Call where
  Init k := ∃ k₀, Booted k₀ ∧ initialiseTasking k₀ = .ok k
  Step k call k' :=
    match call with
    | .fork esp ebp eip pid child directory =>
      fork esp ebp eip k = .ok (pid, k') ∧ (∃ k₁, forkTask k = .ok (child, k₁)) ∧
        directory = (cloneDirectory k.currentDirectory k.paging).1
    | .switchTask task esp ebp eip loaded next =>
      switchTask esp ebp eip k = (some loaded, k') ∧ task = k.currentTask ∧
        next = k'.currentTask

/-- What a call does to the queue. -/
def Call.act : Call → Act UDword
  | .fork _ _ _ _ child _ => .spawn child
  | .switchTask _ _ _ _ _ next => .turn next

section
variable {k k' : Kernel} {rota : Rota UDword} {calls : List Call}

/-- A switch that goes through was not given the sentinel. -/
theorem eip_ne_sentinel {esp ebp eip : UDword} {loaded : Registers}
    (h : switchTask esp ebp eip k = (some loaded, k')) : eip ≠ switchSentinel := by
  rintro rfl
  unfold switchTask at h
  split at h
  · cases h
  · rw [if_pos rfl] at h
    cases h

/-- The outcome of a switch is the one of the specification. -/
theorem switches_of_eq {esp ebp eip : UDword} {loaded : Registers} (h : Tasking k rota)
    (heq : switchTask esp ebp eip k = (some loaded, k')) :
    Switches k rota esp ebp eip loaded k' := by
  rcases switchTask_spec h (eip_ne_sentinel heq) with ⟨loaded', k'', heq', hswitches⟩
  rw [heq] at heq'
  rcases Prod.mk.inj heq' with ⟨hloaded, rfl⟩
  rcases Option.some.inj hloaded with rfl
  exact hswitches

/-- Every call is a step of the rota. -/
theorem step_act {call : Call} (hstep : taskSystem.Step k call k') (h : Tasking k rota) :
    ∃ rota', system.Step rota call.act rota' ∧ Tasking k' rota' := by
  cases call with
  | fork esp ebp eip pid child directory =>
    rcases hstep with ⟨heq, hchild, -⟩
    rcases fork_spec h heq hchild with ⟨-, hforks⟩
    exact ⟨rota.spawn child, ⟨hforks.fresh, rfl⟩, hforks.tasking⟩
  | switchTask task esp ebp eip loaded next =>
    rcases hstep with ⟨heq, -, rfl⟩
    have hswitches := switches_of_eq h heq
    exact ⟨rota.turn, ⟨rfl, hswitches.tasking.current.symm⟩, hswitches.tasking⟩

theorem tasking_init (h : taskSystem.Init k) :
    Tasking k ⟨[], k.currentTask, []⟩ ∧
      k.task k.currentTask = ⟨0, 0, 0, 0, k.currentDirectory, 0⟩ := by
  rcases h with ⟨k₀, hbooted, heq⟩
  rcases initialiseTasking_spec hbooted heq with ⟨t, htasking, htask, -, -, hdir, -⟩
  have hcurrent : k.currentTask = t := htasking.current
  rw [hcurrent, hdir]
  exact ⟨htasking, htask⟩

/-- The run as a run of the rota. -/
theorem run_act (hrun : taskSystem.Run k calls k') (h : Tasking k rota) :
    ∃ rota', system.Run rota (calls.map Call.act) rota' ∧ Tasking k' rota' :=
  hrun.simulate (R := Tasking) (f := Call.act) (fun _ _ _ _ hstep => step_act hstep) h

end

/-! ## The queue and the schedule -/

/-- The tasks the calls create, in order. -/
def children (calls : List Call) : List UDword := spawned (calls.map Call.act)

/-- The tasks the calls schedule, in order. -/
def scheduled (calls : List Call) : List UDword := turns (calls.map Call.act)

/-- The ready queue is finite, acyclic, and holds every task once, in the order of
their pids; one of them is current. -/
structure QueueInvariant (k : Kernel) (tasks : List UDword) : Prop where
  walk : walk (fun t => (k.task t).next) 0 chainFuel k.readyQueue = some tasks
  nodup : tasks.Nodup
  pids : tasks.map (fun t => (k.task t).id.toNat) = List.range tasks.length
  sorted : tasks.Pairwise fun t t' => (k.task t).id < (k.task t').id
  current : k.currentTask ∈ tasks

/-- There are fewer tasks than pids, so that `next_pid` does not wrap. -/
theorem Tasking.queueInvariant {k : Kernel} {rota : Rota UDword} (h : Tasking k rota) :
    QueueInvariant k rota.queue := by
  have hlt := h.holds.length_lt h.nodup
  have hpids : rota.queue.map (fun t => (k.task t).id.toNat) = List.range rota.queue.length := by
    have hids := congrArg (List.map BitVec.toNat) h.ids
    rw [List.map_map, List.map_map] at hids
    rw [show (fun t => (k.task t).id.toNat) = BitVec.toNat ∘ fun t => (k.task t).id from rfl, hids]
    refine (List.map_congr_left ?_).trans (List.map_id _)
    intro i hi
    have hi' := List.mem_range.mp hi
    show (BitVec.ofNat 32 i).toNat = i
    rw [BitVec.toNat_ofNat]
    unfold chainFuel at hlt
    exact Nat.mod_eq_of_lt (by omega)
  refine ⟨?_, h.nodup, hpids, ?_, h.current_mem⟩
  · rw [h.first]
    exact h.links.walk h.null_not_mem hlt
  · have hsorted := List.pairwise_lt_range (n := rota.queue.length)
    rw [← hpids, List.pairwise_map] at hsorted
    exact hsorted

/-- **Round robin.** In every run the queue is the tasks created so far; and from any
moment of a task's turn to its next turn, every other task there was has exactly one
turn and every task created on the way at most one. -/
theorem round_robin {k₀ k : Kernel} {calls : List Call} (hinit : taskSystem.Init k₀)
    (hrun : taskSystem.Run k₀ calls k) :
    QueueInvariant k (k₀.currentTask :: children calls) ∧
      ∀ (calls' : List Call) (k' : Kernel), taskSystem.Run k calls' k' →
        k.currentTask ∉ scheduled calls' →
        (∃ task esp ebp eip loaded k'', taskSystem.Step k'
          (.switchTask task esp ebp eip loaded k.currentTask) k'') →
        (∀ t ∈ k₀.currentTask :: children calls, t ≠ k.currentTask →
          (scheduled calls').count t = 1) ∧
        ∀ t ∈ children calls', (scheduled calls').count t ≤ 1 := by
  rcases run_act hrun (tasking_init hinit).1 with ⟨rota, hrota, htasking⟩
  have hqueue : rota.queue = k₀.currentTask :: children calls := queue_of_run hrota
  rw [← hqueue]
  refine ⟨htasking.queueInvariant, ?_⟩
  intro calls' k' hrun' hno hback
  rcases run_act hrun' htasking with ⟨rota', hrota', htasking'⟩
  rcases hback with ⟨task, esp, ebp, eip, loaded, k'', hstep⟩
  rcases step_act hstep htasking' with ⟨rota'', hturn, -⟩
  rw [htasking.current] at hno hturn ⊢
  rcases fair htasking.nodup hrota' hno hturn with ⟨hold, hnew⟩
  refine ⟨hold, ?_⟩
  intro t ht
  refine hnew t ?_
  -- a task created on the way was not there
  intro hmem
  have hnodup := htasking'.nodup
  rw [queue_of_run hrota', List.nodup_append] at hnodup
  exact hnodup.2.2 t hmem t ht rfl

/-- `switch_task` never fails: it gets to the next task. -/
theorem exists_switchTask {k : Kernel} {rota : Rota UDword} (h : Tasking k rota) {eip : UDword}
    (heip : eip ≠ switchSentinel) (esp ebp : UDword) : ∃ loaded k', taskSystem.Step k
      (.switchTask rota.current esp ebp eip loaded rota.turn.current) k' ∧
        Tasking k' rota.turn := by
  rcases @switchTask_spec k rota h esp ebp eip heip with ⟨loaded, k', heq, hswitches⟩
  have htasking := hswitches.tasking
  exact ⟨loaded, k', ⟨heq, h.current.symm, htasking.current.symm⟩, htasking⟩

/-! ## Contexts -/

/-- The registers recorded for a task. -/
structure Context where
  esp : UDword
  ebp : UDword
  eip : UDword
deriving DecidableEq, Repr

def Task.context (a : Task) : Context := ⟨a.esp, a.ebp, a.eip⟩

def Registers.context (r : Registers) : Context := ⟨r.esp, r.ebp, r.eip⟩

/-- What a call records for `t`, if it does: a fork for its child, a switch for the task
that leaves. -/
def Call.records (t : UDword) : Call → Option Context
  | .fork esp ebp eip _ child _ => if child = t then some ⟨esp, ebp, eip⟩ else none
  | .switchTask task esp ebp eip _ _ => if task = t then some ⟨esp, ebp, eip⟩ else none

@[simp] theorem records_fork (t esp ebp eip pid child directory : UDword) :
    Call.records t (.fork esp ebp eip pid child directory) =
      if child = t then some ⟨esp, ebp, eip⟩ else none := rfl

@[simp] theorem records_switchTask (t task esp ebp eip next : UDword) (loaded : Registers) :
    Call.records t (.switchTask task esp ebp eip loaded next) =
      if task = t then some ⟨esp, ebp, eip⟩ else none := rfl

/-- The directory a call gives to `t`, if it does. -/
def Call.gives (t : UDword) : Call → Option UDword
  | .fork _ _ _ _ child directory => if child = t then some directory else none
  | .switchTask .. => none

@[simp] theorem gives_fork (t esp ebp eip pid child directory : UDword) :
    Call.gives t (.fork esp ebp eip pid child directory) =
      if child = t then some directory else none := rfl

@[simp] theorem gives_switchTask (t task esp ebp eip next : UDword) (loaded : Registers) :
    Call.gives t (.switchTask task esp ebp eip loaded next) = none := rfl

/-- The last context recorded for `t`; `initialise_tasking` records zeros. -/
def lastSaved (calls : List Call) (t : UDword) : Context :=
  (calls.filterMap (Call.records t)).getLastD ⟨0, 0, 0⟩

/-- The directory `t` was created with; the kernel task has that of the kernel. -/
def directoryAtCreation (kernelDirectory : UDword) (calls : List Call) (t : UDword) : UDword :=
  (calls.filterMap (Call.gives t)).headD kernelDirectory

theorem lastSaved_concat (calls : List Call) (call : Call) (t : UDword) :
    lastSaved (calls ++ [call]) t = (call.records t).getD (lastSaved calls t) := by
  unfold lastSaved
  rw [List.filterMap_append]
  cases h : call.records t with
  | none => simp [h]
  | some c => simp [h]

theorem gives_concat (calls : List Call) (call : Call) (t : UDword) :
    (calls ++ [call]).filterMap (Call.gives t) =
      calls.filterMap (Call.gives t) ++ (call.gives t).toList := by
  rw [List.filterMap_append]
  cases h : call.gives t with
  | none => simp [h]
  | some d => simp [h]

/-- The tasks of `k` are as the history says. -/
structure Recorded (k₀ : Kernel) (calls : List Call) (k : Kernel) (tasks : List UDword) : Prop where
  contexts : ∀ t ∈ tasks, (k.task t).context = lastSaved calls t
  directories : ∀ t ∈ tasks, (k.task t).pageDirectory =
    directoryAtCreation k₀.currentDirectory calls t
  unknown : ∀ t ∉ tasks, calls.filterMap (Call.gives t) = []

section Step
variable {k₀ k k' : Kernel} {rota : Rota UDword} {calls : List Call}

/-- A fork records the context and the directory of its child. -/
theorem Recorded.fork {esp ebp eip pid child : UDword} (h : Recorded k₀ calls k rota.queue)
    (hforks : Forks k rota esp ebp eip child k') :
    Recorded k₀ (calls ++ [.fork esp ebp eip pid child
      (cloneDirectory k.currentDirectory k.paging).1]) k' (rota.spawn child).queue := by
  -- the child is new, so no earlier record is about it
  have hold : ∀ t ∈ rota.queue, child ≠ t := by
    rintro t ht rfl
    exact hforks.fresh ht
  rw [Rota.queue_spawn]
  refine ⟨?_, ?_, ?_⟩
  · intro t ht
    rw [lastSaved_concat, records_fork]
    rcases List.mem_append.mp ht with ht | ht
    · rw [if_neg (hold t ht), Option.getD_none, ← h.contexts t ht, hforks.others t ht]
      rfl
    · rw [List.mem_singleton] at ht
      subst ht
      rw [if_pos rfl, Option.getD_some, hforks.child]
      rfl
  · intro t ht
    unfold directoryAtCreation
    rw [gives_concat, gives_fork]
    rcases List.mem_append.mp ht with ht | ht
    · rw [if_neg (hold t ht), Option.toList_none, List.append_nil, hforks.others t ht]
      exact h.directories t ht
    · rw [List.mem_singleton] at ht
      subst ht
      rw [if_pos rfl, Option.toList_some, h.unknown t hforks.fresh, List.nil_append,
        List.headD_cons, hforks.child]
  · intro t ht
    rw [List.mem_append, not_or, List.mem_singleton] at ht
    rw [gives_concat, gives_fork, h.unknown t ht.1, if_neg (Ne.symm ht.2)]
    rfl

/-- A switch records the context of the task that leaves. -/
theorem Recorded.switch {esp ebp eip : UDword} {loaded : Registers}
    (h : Recorded k₀ calls k rota.queue) (htasking : Tasking k rota)
    (hswitches : Switches k rota esp ebp eip loaded k') (next : UDword) :
    Recorded k₀ (calls ++ [.switchTask k.currentTask esp ebp eip loaded next]) k'
      rota.turn.queue := by
  rw [Rota.queue_turn, htasking.current]
  refine ⟨?_, ?_, ?_⟩
  · intro t ht
    rw [lastSaved_concat, records_switchTask]
    -- the task that leaves is the one whose record is new
    by_cases htc : rota.current = t
    · subst htc
      rw [if_pos rfl, Option.getD_some, hswitches.saved]
      rfl
    · rw [if_neg htc, Option.getD_none, hswitches.others t ht (Ne.symm htc)]
      exact h.contexts t ht
  · intro t ht
    unfold directoryAtCreation
    rw [gives_concat, gives_switchTask, Option.toList_none, List.append_nil]
    by_cases htc : rota.current = t
    · subst htc
      rw [hswitches.saved]
      exact h.directories _ ht
    · rw [hswitches.others t ht (Ne.symm htc)]
      exact h.directories t ht
  · intro t ht
    rw [gives_concat, gives_switchTask, h.unknown t ht]
    rfl

end Step

theorem children_fork (calls : List Call) (esp ebp eip pid child directory : UDword) :
    children (calls ++ [.fork esp ebp eip pid child directory]) = children calls ++ [child] := by
  simp [children, spawned, Call.act]

theorem children_switchTask (calls : List Call) (task esp ebp eip next : UDword)
    (loaded : Registers) :
    children (calls ++ [.switchTask task esp ebp eip loaded next]) = children calls := by
  simp [children, spawned, Call.act]

/-- Every run ends with its tasks as its history says. -/
theorem recorded_of_run {k₀ k : Kernel} {calls : List Call} (hinit : taskSystem.Init k₀)
    (hrun : taskSystem.Run k₀ calls k) :
    ∃ rota, Tasking k rota ∧ rota.queue = k₀.currentTask :: children calls ∧
      Recorded k₀ calls k rota.queue := by
  induction hrun with
  -- `initialise_tasking` makes a task of zeros
  | nil =>
    rcases tasking_init hinit with ⟨htasking, htask⟩
    refine ⟨_, htasking, rfl, ?_, ?_, fun _ _ => rfl⟩
    · intro t ht
      rw [List.mem_singleton.mp ht, htask]
      rfl
    · intro t ht
      rw [List.mem_singleton.mp ht, htask]
      rfl
  | @snoc k k' calls call hrun hstep ih =>
    rcases ih with ⟨rota, htasking, hqueue, hrec⟩
    cases call with
    | fork esp ebp eip pid child directory =>
      rcases hstep with ⟨heq, hchild, rfl⟩
      rcases fork_spec htasking heq hchild with ⟨-, hforks⟩
      refine ⟨_, hforks.tasking, ?_, hrec.fork hforks⟩
      rw [Rota.queue_spawn, hqueue, children_fork, List.cons_append]
    | switchTask task esp ebp eip loaded next =>
      rcases hstep with ⟨heq, rfl, rfl⟩
      have hswitches := switches_of_eq htasking heq
      refine ⟨_, hswitches.tasking, ?_, hrec.switch htasking hswitches _⟩
      rw [Rota.queue_turn, hqueue, children_switchTask]

/-- What a switch of `task` leaves to `next` and to the other tasks, given the history. -/
structure Restores (k₀ : Kernel) (calls : List Call) (k : Kernel) (call : Call)
    (loaded : Registers) (task next : UDword) (k' : Kernel) : Prop where
  context : loaded.context = lastSaved (calls ++ [call]) next
  directory : loaded.cr3 = directoryAtCreation k₀.currentDirectory calls next
  current : k'.currentDirectory = loaded.cr3
  others : ∀ t ∈ k₀.currentTask :: children calls, t ≠ task →
    (k'.task t).context = (k.task t).context
  directories : ∀ t ∈ k₀.currentTask :: children calls,
    (k'.task t).pageDirectory = (k.task t).pageDirectory

/-- **Contexts are preserved.** In every run the current directory is that of the current
task, and a switch loads the context last recorded for the task it resumes (by this
very switch when that task is alone) and the directory it was created with, and
changes the saved context of no other task. -/
theorem context_preserved {k₀ k : Kernel} {calls : List Call} (hinit : taskSystem.Init k₀)
    (hrun : taskSystem.Run k₀ calls k) :
    k.currentDirectory = (k.task k.currentTask).pageDirectory ∧
      ∀ task esp ebp eip loaded next k',
        taskSystem.Step k (.switchTask task esp ebp eip loaded next) k' →
        Restores k₀ calls k (.switchTask task esp ebp eip loaded next) loaded task next k' := by
  rcases recorded_of_run hinit hrun with ⟨rota, htasking, hqueue, hrec⟩
  refine ⟨htasking.directory, ?_⟩
  intro task esp ebp eip loaded next k' hstep
  rcases hstep with ⟨heq, rfl, rfl⟩
  have hswitches := switches_of_eq htasking heq
  have hrec' := hrec.switch htasking hswitches k'.currentTask
  have hnext := hswitches.tasking.current_mem
  refine ⟨?_, ?_, ?_, ?_, ?_⟩
  · rw [← hrec'.contexts _ hnext, hswitches.loaded]
    rfl
  · have hdir := hrec'.directories _ hnext
    unfold directoryAtCreation at hdir ⊢
    rw [gives_concat, gives_switchTask, Option.toList_none, List.append_nil] at hdir
    rw [← hdir, hswitches.loaded]
  · rw [hswitches.tasking.directory, hswitches.loaded]
  · intro t ht hne
    rw [← hqueue] at ht
    rw [hswitches.others t ht (htasking.current ▸ hne)]
  · intro t ht
    rw [← hqueue] at ht
    -- only the task that leaves is written to
    by_cases htc : t = rota.current
    · subst htc
      rw [hswitches.saved]
    · rw [hswitches.others t ht htc]

end MushOS
