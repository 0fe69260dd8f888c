import MushOS.Theory.Transition

/-! # Round robin over a growing queue

A queue of clients with one of them current: a `turn` makes the next one current,
the first one after the last, and `spawn` adds a client at the end, wherever in
the round the current one is.

`fair` is the guarantee of such a schedule: between two consecutive turns of a
client, every client that was there has one turn and every newer one at most one.
The interval is an induction over the run. It has two halves, before and after the
turn passes from the end of the queue to its start, and a client spawned in the
second half waits for the next round; `Round` says what has happened in either.
-/

namespace RoundRobin

open Transition

variable {α : Type*}

/-- A queue split at the current client. -/
structure Rota (α : Type*) where
  before : List α
  current : α
  after : List α

namespace Rota

def queue (r : Rota α) : List α := r.before ++ r.current :: r.after

/-- The next client's turn. -/
def turn (r : Rota α) : Rota α :=
  match r.after, r.before with
  | a :: as, _ => ⟨r.before ++ [r.current], a, as⟩
  | [], [] => r
  | [], a :: as => ⟨[], a, as ++ [r.current]⟩

/-- A new client at the end of the queue. -/
def spawn (a : α) (r : Rota α) : Rota α := { r with after := r.after ++ [a] }

@[simp] theorem queue_turn (r : Rota α) : r.turn.queue = r.queue := by
  rcases r with ⟨before, current, after⟩
  cases after with
  | cons a as => simp [turn, queue]
  | nil =>
    cases before with
    | nil => rfl
    | cons b bs => simp [turn, queue]

@[simp] theorem queue_spawn (a : α) (r : Rota α) : (r.spawn a).queue = r.queue ++ [a] := by
  simp [spawn, queue]

/-- A queue of one is split in one way. -/
theorem eq_of_queue {a : α} {r : Rota α} (h : r.queue = [a]) : r = ⟨[], a, []⟩ := by
  rcases r with ⟨before, current, after⟩
  rcases List.append_eq_singleton_iff.mp h with ⟨rfl, hrest⟩ | ⟨-, hrest⟩
  · cases hrest
    rfl
  · cases hrest

theorem nodup_spawn {a : α} {r : Rota α} (h : r.queue.Nodup) (ha : a ∉ r.queue) :
    (r.spawn a).queue.Nodup := by
  rw [queue_spawn]
  refine List.nodup_append.mpr ⟨h, List.nodup_singleton a, ?_⟩
  intro b hb c hc heq
  rw [List.mem_singleton] at hc
  rw [heq, hc] at hb
  exact ha hb

@[simp] theorem current_spawn (a : α) (r : Rota α) : (r.spawn a).current = r.current := rfl

theorem current_mem (r : Rota α) : r.current ∈ r.queue := by
  simp [queue]

end Rota

/-- What can happen to the queue. -/
inductive Act (α : Type*) where
  | spawn (a : α)
  | turn (a : α)

/-- Clients are spawned once; a turn is labelled with the client that gets it. -/
def system : System (Rota α) (Act α) where
  Init r := r.queue.Nodup
  Step r act r' :=
    match act with
    | .spawn a => a ∉ r.queue ∧ r' = r.spawn a
    | .turn a => r' = r.turn ∧ r'.current = a

/-- The clients that get a turn, in order. -/
def turns (acts : List (Act α)) : List α :=
  acts.filterMap fun act => match act with
    | .spawn _ => none
    | .turn a => some a

@[simp] theorem turns_append (as bs : List (Act α)) : turns (as ++ bs) = turns as ++ turns bs :=
  List.filterMap_append

@[simp] theorem turns_spawn (a : α) : turns [Act.spawn a] = [] := rfl

@[simp] theorem turns_turn (a : α) : turns [Act.turn a] = [a] := rfl

/-- The clients that are spawned, in order. -/
def spawned (acts : List (Act α)) : List α :=
  acts.filterMap fun act => match act with
    | .spawn a => some a
    | .turn _ => none

variable {r r' r'' : Rota α} {acts : List (Act α)}

/-- The queue is what was spawned, in order. -/
theorem queue_of_run (hrun : system.Run r acts r') : r'.queue = r.queue ++ spawned acts := by
  induction hrun with
  | nil => simp [spawned]
  | @snoc s s' as act hrun hstep ih =>
    have hsplit : spawned (as ++ [act]) = spawned as ++ spawned [act] := List.filterMap_append
    cases act with
    | spawn a =>
      rcases hstep with ⟨-, rfl⟩
      rw [Rota.queue_spawn, ih, hsplit, List.append_assoc]
      rfl
    | turn a =>
      rcases hstep with ⟨rfl, -⟩
      rw [Rota.queue_turn, ih, hsplit]
      exact (List.append_nil _).symm ▸ rfl

theorem nodup_step {act : Act α} (h : r.queue.Nodup) (hstep : system.Step r act r') :
    r'.queue.Nodup := by
  cases act with
  | spawn a =>
    rcases hstep with ⟨hnew, rfl⟩
    exact Rota.nodup_spawn h hnew
  | turn a =>
    rcases hstep with ⟨rfl, -⟩
    rw [Rota.queue_turn]
    exact h

/-- What has happened since the last turn of `t`, when the queue was `q₀`: `ts` had
their turns. -/
def Round (t : α) (q₀ : List α) (r : Rota α) (ts : List α) : Prop :=
  (∃ xs, r.before ++ [r.current] = xs ++ t :: ts ∧ q₀ <+: r.queue) ∨
    ∃ zs w rest, r.after = zs ++ t :: (w ++ rest) ∧ ts = w ++ (r.before ++ [r.current]) ∧
      q₀ <+: r.before ++ r.current :: (zs ++ t :: w)

/-- Nobody has had two turns. -/
theorem Round.nodup {t : α} {q₀ ts : List α} (h : Round t q₀ r ts) (hnodup : r.queue.Nodup) :
    ts.Nodup := by
  have hqueue : r.queue = (r.before ++ [r.current]) ++ r.after := by simp [Rota.queue]
  rcases h with ⟨xs, heq, -⟩ | ⟨zs, w, rest, hafter, rfl, -⟩
  · rw [hqueue, heq] at hnodup
    exact (List.nodup_cons.mp (List.nodup_append.mp (List.nodup_append.mp hnodup).1).2.1).2
  · -- `w` comes after the others in the queue
    rw [hqueue, hafter] at hnodup
    refine hnodup.sublist ?_ |>.perm List.perm_append_comm
    refine List.Sublist.append_left ?_ _
    exact ((List.sublist_append_left w rest).cons t).trans (List.sublist_append_right zs _)

/-- A turn of somebody else. -/
theorem Round.turn {t : α} {q₀ ts : List α} (h : Round t q₀ r ts) (hne : r.turn.current ≠ t) :
    Round t q₀ r.turn (ts ++ [r.turn.current]) := by
  rcases r with ⟨before, current, after⟩
  rcases h with ⟨xs, heq, hbefore⟩ | ⟨zs, w, rest, hafter, rfl, hbefore⟩
  · simp only at heq
    cases after with
    | cons a as =>
      left
      refine ⟨xs, ?_, by rwa [Rota.queue_turn]⟩
      show (before ++ [current]) ++ [a] = xs ++ t :: (ts ++ [a])
      rw [heq]
      simp
    | nil =>
      cases before with
      | nil =>
        -- the only client is `t` itself
        have hcur : current = t := by
          cases xs with
          | nil => simpa using (List.cons.inj heq).1
          | cons x xs => simp at heq
        exact absurd hcur hne
      | cons b bs =>
        -- the turn passes to the start of the queue
        right
        cases xs with
        | nil => exact absurd (List.cons.inj heq).1 hne
        | cons x xs =>
          rw [List.cons_append, List.cons_append, List.cons.injEq] at heq
          rcases heq with ⟨rfl, hrest⟩
          refine ⟨xs, ts, [], ?_, rfl, ?_⟩
          · show bs ++ [current] = _
            rw [hrest, List.append_nil]
          · show q₀ <+: b :: (xs ++ t :: ts)
            rw [← hrest]
            simpa [Rota.queue] using hbefore
  · simp only at hafter hbefore
    subst hafter
    cases zs with
    | nil => exact absurd rfl hne
    | cons z zs =>
      right
      refine ⟨zs, w, rest, rfl, ?_, ?_⟩
      · show (w ++ (before ++ [current])) ++ [z] = w ++ ((before ++ [current]) ++ [z])
        simp
      · show q₀ <+: (before ++ [current]) ++ z :: (zs ++ t :: w)
        simpa using hbefore

/-- A new client in between. -/
theorem Round.spawn {t : α} {q₀ ts : List α} (h : Round t q₀ r ts) (a : α) :
    Round t q₀ (r.spawn a) ts := by
  rcases h with ⟨xs, heq, hbefore⟩ | ⟨zs, w, rest, hafter, hts, hbefore⟩
  · left
    refine ⟨xs, heq, ?_⟩
    rw [Rota.queue_spawn]
    exact hbefore.trans (List.prefix_append _ _)
  · right
    refine ⟨zs, w, rest ++ [a], ?_, hts, hbefore⟩
    show r.after ++ [a] = _
    rw [hafter]
    simp

/-- When the turn is back at `t`, everybody who was there has had one. -/
theorem Round.complete {t : α} {q₀ ts : List α} (h : Round t q₀ r ts) (hnodup : r.queue.Nodup)
    (hback : r.turn.current = t) : ∀ u ∈ q₀, u ≠ t → u ∈ ts := by
  rcases r with ⟨before, current, after⟩
  intro u hu hne
  rcases h with ⟨xs, heq, hbefore⟩ | ⟨zs, w, rest, hafter, rfl, hbefore⟩
  · have hmem := hbefore.subset hu
    have hqueue : before ++ current :: after = (xs ++ t :: ts) ++ after := by
      simp only at heq
      rw [← heq]
      simp
    unfold Rota.queue at hmem hnodup
    simp only at hmem hnodup
    rw [hqueue] at hmem hnodup
    cases after with
    | cons a as =>
      -- `t` would be in the queue twice
      have hat : a = t := hback
      subst hat
      simp [List.nodup_append] at hnodup
    | nil =>
      have hxs : xs = [] := by
        cases before with
        | nil =>
          cases xs with
          | nil => rfl
          | cons x xs => simp at heq
        | cons b bs =>
          have hbt : b = t := hback
          subst hbt
          cases xs with
          | nil => rfl
          | cons x xs =>
            simp only [List.cons_append, List.cons.injEq] at heq
            rcases heq with ⟨rfl, -⟩
            simp at hnodup
      subst hxs
      simpa [hne] using hmem
  · simp only at hafter hbefore
    subst hafter
    cases zs with
    | cons z zs =>
      have hzt : z = t := hback
      subst hzt
      simp [Rota.queue, List.nodup_append] at hnodup
    | nil =>
      have hmem := hbefore.subset hu
      simp only [List.nil_append, List.mem_append, List.mem_cons] at hmem
      simp only [List.mem_append, List.mem_singleton]
      tauto

/-- The interval from a turn of `t`, as long as it has not had another one. -/
theorem round_of_run (hrun : system.Run r acts r') (hnodup : r.queue.Nodup)
    (hno : r.current ∉ turns acts) :
    Round r.current r.queue r' (turns acts) ∧ r'.queue.Nodup := by
  induction hrun with
  | nil =>
    refine ⟨Or.inl ⟨r.before, ?_, List.prefix_rfl⟩, hnodup⟩
    rfl
  | @snoc s s' as act hrun hstep ih =>
    rw [turns_append, List.mem_append, not_or] at hno
    rcases ih hno.1 with ⟨hround, hnodup'⟩
    refine ⟨?_, nodup_step hnodup' hstep⟩
    cases act with
    | spawn a =>
      rcases hstep with ⟨-, rfl⟩
      rw [turns_append, turns_spawn, List.append_nil]
      exact hround.spawn a
    | turn a =>
      rcases hstep with ⟨rfl, rfl⟩
      rw [turns_append, turns_turn]
      refine hround.turn ?_
      intro heq
      exact hno.2 (by simp [heq])

/-- **Fairness.** Between two consecutive turns of a client, everybody who was there at
the first has one turn, and everybody who has come since at most one. -/
theorem fair [DecidableEq α] (hnodup : r.queue.Nodup) (hrun : system.Run r acts r')
    (hno : r.current ∉ turns acts) (hstep : system.Step r' (.turn r.current) r'') :
    (∀ u ∈ r.queue, u ≠ r.current → (turns acts).count u = 1) ∧
      ∀ u ∉ r.queue, (turns acts).count u ≤ 1 := by
  rcases round_of_run hrun hnodup hno with ⟨hround, hnodup'⟩
  have honce := hround.nodup hnodup'
  rcases hstep with ⟨rfl, hback⟩
  constructor
  · intro u hu hne
    exact List.count_eq_one_of_mem honce (hround.complete hnodup' hback u hu hne)
  · intro u _
    exact List.nodup_iff_count_le_one.mp honce u

end RoundRobin
