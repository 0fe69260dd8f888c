import MushOS.Theory.Transition

/-! # Processes with private memories

Processes that share one processor, each with a memory of its own. The running
process writes to its memory, or forks: the new process starts with a copy. What a
process finds in its memory is what its parent had in it when it was forked,
changed by its own writes since and by nothing else: `memory_of_run` and
`memory_of_fork`.
-/

namespace Processes

open Transition

/-- A fork and a write name the process they are of. -/
inductive Act (α ι β : Type*) where
  | fork (parent child : α)
  | switch (next : α)
  | write (process : α) (i : ι) (b : β)

structure State (α ι β : Type*) where
  current : α
  known : List α
  memory : α → ι → β

variable {α ι β : Type*} [DecidableEq α] [DecidableEq ι]

def Step (s : State α ι β) (a : Act α ι β) (s' : State α ι β) : Prop :=
  match a with
  | .fork parent child => parent = s.current ∧ child ∉ s.known ∧
      s' = ⟨s.current, s.known ++ [child], Function.update s.memory child (s.memory parent)⟩
  | .switch next => s' = { s with current := next }
  | .write process i b => process = s.current ∧ s' = { s with
      memory := Function.update s.memory process (Function.update (s.memory process) i b) }

def system : System (State α ι β) (Act α ι β) where
  Init s := s.known = [s.current]
  Step := Step

/-- What `t` itself writes, oldest first. -/
def ownWrites (t : α) (as : List (Act α ι β)) : List (ι × β) :=
  as.filterMap fun a =>
    match a with
    | .write process i b => if process = t then some (i, b) else none
    | _ => none

/-- The processes created, oldest first. -/
def forked (as : List (Act α ι β)) : List α :=
  as.filterMap fun a =>
    match a with
    | .fork _ child => some child
    | _ => none

/-- A memory after a list of writes. -/
def written (m : ι → β) (ws : List (ι × β)) : ι → β :=
  ws.foldl (fun m w => Function.update m w.1 w.2) m

theorem written_append (m : ι → β) (ws ws' : List (ι × β)) :
    written m (ws ++ ws') = written (written m ws) ws' := List.foldl_append

section
variable {s s' s'' : State α ι β} {a : Act α ι β} {as : List (Act α ι β)} {t parent child : α}

/-- One step changes the memory of a process by its own writes only. -/
theorem memory_of_step (ht : t ∈ s.known) (hstep : Step s a s') :
    t ∈ s'.known ∧ s'.memory t = written (s.memory t) (ownWrites t [a]) := by
  cases a with
  | fork parent child =>
    rcases hstep with ⟨-, hnew, rfl⟩
    have hne : t ≠ child := by
      rintro rfl
      exact hnew ht
    exact ⟨List.mem_append_left _ ht, Function.update_of_ne hne _ _⟩
  | switch next =>
    rcases hstep with rfl
    exact ⟨ht, rfl⟩
  | write process i b =>
    rcases hstep with ⟨-, rfl⟩
    refine ⟨ht, ?_⟩
    by_cases hp : process = t
    · subst hp
      simp [ownWrites, written]
    · simp [ownWrites, written, hp, Ne.symm hp]

/-- **A memory is private**: along a run it changes by the writes of its process only. -/
theorem memory_of_run (ht : t ∈ s.known) (hrun : system.Run s as s') :
    t ∈ s'.known ∧ s'.memory t = written (s.memory t) (ownWrites t as) := by
  induction hrun with
  | nil => exact ⟨ht, rfl⟩
  | snoc _ hstep ih =>
    rcases ih with ⟨hknown, hmemory⟩
    rcases memory_of_step hknown hstep with ⟨hknown', hmemory'⟩
    refine ⟨hknown', ?_⟩
    rw [hmemory', hmemory, ← written_append]
    unfold ownWrites
    rw [← List.filterMap_append]

/-- The processes there are. -/
theorem known_of_run (hrun : system.Run s as s') : s'.known = s.known ++ forked as := by
  induction hrun with
  | nil => exact (List.append_nil _).symm
  | @snoc s₁ s₂ as a _ hstep ih =>
    unfold forked at ih ⊢
    rw [List.filterMap_append, ← List.append_assoc, ← ih]
    cases a with
    | fork parent child =>
      rcases hstep with ⟨-, -, rfl⟩
      rfl
    | switch next =>
      rcases hstep with rfl
      exact (List.append_nil _).symm
    | write process i b =>
      rcases hstep with ⟨-, rfl⟩
      exact (List.append_nil _).symm

/-- **A fork copies**: later the child has what its parent had then, and its own writes. -/
theorem memory_of_fork (hstep : Step s (.fork parent child) s') (hrun : system.Run s' as s'') :
    s''.memory child = written (s.memory parent) (ownWrites child as) := by
  rcases hstep with ⟨-, -, rfl⟩
  rw [(memory_of_run (by simp) hrun).2]
  exact congrArg (written · _) (Function.update_self _ _ _)

end

end Processes
