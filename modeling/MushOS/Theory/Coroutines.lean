import MushOS.Theory.Transition

/-! # Coroutines

Clients that share one processor and give it up in calls. A call of `yield` parks
its caller and resumes some parked client, in whose own call it returns; a call of
`spawn` returns in its caller and parks a new client in a second return of the same
call. Every client that does not run is parked in exactly one call, so each park is
undone once, the next time its client is resumed: `returnsOnce_of_yield` and
`returnsOnce_of_spawn`.

Calls are numbered in the order in which they are made, and a run is watched
through its events.
-/

namespace Coroutines

open Transition

inductive Kind where
  | yield
  | spawn
deriving DecidableEq

inductive Event (α ν : Type*) where
  | called (call : ℕ) (client : α) (kind : Kind)
  | created (call : ℕ) (client : α)
  | resumed (client : α)
  | returned (call : ℕ) (client : α) (value : ν)

/-- The client that runs, the call every other one is parked in with the value it will
return there, and the number of calls so far. -/
structure State (α ν : Type*) where
  current : α
  parked : α → Option (ℕ × ν)
  calls : ℕ

variable {α ν : Type*} [DecidableEq α]

/-- The steps, when a `yield` returns `done` and a `spawn` returns `second` in the new
client. -/
inductive Step (done second : ν) : State α ν → List (Event α ν) → State α ν → Prop where
  | yield {s : State α ν} {next : α} {c : ℕ} {v : ν}
      (hnext : Function.update s.parked s.current (some (s.calls, done)) next = some (c, v)) :
      Step done second s
        [.called s.calls s.current .yield, .resumed next, .returned c next v]
        ⟨next, Function.update (Function.update s.parked s.current (some (s.calls, done)))
            next none, s.calls + 1⟩
  | spawn {s : State α ν} {child : α} (v : ν) (hne : child ≠ s.current)
      (hnew : s.parked child = none) :
      Step done second s
        [.called s.calls s.current .spawn, .created s.calls child, .returned s.calls s.current v]
        ⟨s.current, Function.update s.parked child (some (s.calls, second)), s.calls + 1⟩

theorem Step.calls {done second : ν} {s s' : State α ν} {es : List (Event α ν)}
    (h : Step done second s es s') : s'.calls = s.calls + 1 := by
  cases h <;> rfl

/-- The system starts with a single client. -/
def system (done second : ν) : System (State α ν) (List (Event α ν)) where
  Init s := s.parked = fun _ => none
  Step := Step done second

/-- The running client is not parked, and no two are parked in one call. -/
structure Consistent (s : State α ν) : Prop where
  running : s.parked s.current = none
  old : ∀ t c v, s.parked t = some (c, v) → c < s.calls
  unique : ∀ t t' c v v', s.parked t = some (c, v) → s.parked t' = some (c, v') → t = t'

/-- No event is a return of the call `c`. -/
def NotReturned (c : ℕ) (ys : List (Event α ν)) : Prop := ∀ t v, Event.returned c t v ∉ ys

/-- The call `c` returns `v` in `t` once, when `t` is next resumed, and nowhere else. -/
def ReturnsOnce (c : ℕ) (t : α) (v : ν) (ys : List (Event α ν)) : Prop :=
  (.resumed t ∉ ys ∧ NotReturned c ys) ∨
    ∃ ys₁ ys₂, ys = ys₁ ++ .resumed t :: .returned c t v :: ys₂ ∧ .resumed t ∉ ys₁ ∧
      NotReturned c ys₁ ∧ NotReturned c ys₂

/-- How far the story of that return has got: the client is still parked in the call, or
it has returned and nobody is. -/
def Story (c : ℕ) (t : α) (v : ν) (ys : List (Event α ν)) (s : State α ν) : Prop :=
  (.resumed t ∉ ys ∧ NotReturned c ys ∧ s.parked t = some (c, v)) ∨
    (∃ ys₁ ys₂, ys = ys₁ ++ .resumed t :: .returned c t v :: ys₂ ∧ .resumed t ∉ ys₁ ∧
      NotReturned c ys₁ ∧ NotReturned c ys₂) ∧
    (∀ t' v', s.parked t' ≠ some (c, v')) ∧ c < s.calls

section
variable {done second v : ν} {s s' s'' : State α ν} {t : α} {c : ℕ} {ys es : List (Event α ν)}
  {as bs : List (List (Event α ν))}

omit [DecidableEq α] in
theorem Story.returnsOnce (h : Story c t v ys s) : ReturnsOnce c t v ys := by
  rcases h with ⟨hno, hret, -⟩ | ⟨hdone, -, -⟩
  · exact Or.inl ⟨hno, hret⟩
  · exact Or.inr hdone

omit [DecidableEq α] in
/-- What follows the first time the client is resumed is the return. -/
theorem ReturnsOnce.eq_returned (ys : List (Event α ν)) {ys' : List (Event α ν)} {e : Event α ν}
    (h : ReturnsOnce c t v (ys ++ .resumed t :: e :: ys')) (hno : .resumed t ∉ ys) :
    e = .returned c t v := by
  rcases h with ⟨hnot, -⟩ | ⟨ys₁, ys₂, heq, hno₁, -, -⟩
  · exact absurd (List.mem_append_right ys List.mem_cons_self) hnot
  · induction ys generalizing ys₁ with
    | nil =>
      cases ys₁ with
      | nil => exact (List.cons.inj (List.cons.inj heq).2).1
      | cons y ys₁ => exact absurd ((List.cons.inj heq).1 ▸ List.mem_cons_self) hno₁
    | cons y ys ih =>
      cases ys₁ with
      | nil => exact absurd ((List.cons.inj heq).1 ▸ List.mem_cons_self) hno
      | cons y₁ ys₁ =>
        exact ih (fun hmem => hno (List.mem_cons_of_mem y hmem)) ys₁ (List.cons.inj heq).2
          fun hmem => hno₁ (List.mem_cons_of_mem y₁ hmem)

omit [DecidableEq α] in
theorem NotReturned.append {zs : List (Event α ν)} (h : NotReturned c ys)
    (h' : NotReturned c zs) : NotReturned c (ys ++ zs) := by
  intro t v hmem
  rcases List.mem_append.mp hmem with hmem | hmem
  · exact h t v hmem
  · exact h' t v hmem

/-- Who is parked after a `yield`, before anybody is resumed. -/
theorem Consistent.park (h : Consistent s) {t : α} {c : ℕ} {v : ν}
    (ht : Function.update s.parked s.current (some (s.calls, done)) t = some (c, v)) :
    (t = s.current ∧ c = s.calls ∧ v = done) ∨
      (t ≠ s.current ∧ s.parked t = some (c, v) ∧ c < s.calls) := by
  by_cases htc : t = s.current
  · left
    subst htc
    rw [Function.update_self, Option.some.injEq, Prod.mk.injEq] at ht
    exact ⟨rfl, ht.1.symm, ht.2.symm⟩
  · right
    rw [Function.update_of_ne htc] at ht
    exact ⟨htc, ht, h.old t c v ht⟩

theorem Consistent.step (h : Consistent s) (hstep : Step done second s es s') :
    Consistent s' := by
  cases hstep with
  | @yield next c v hnext =>
    refine ⟨Function.update_self _ _ _, ?_, ?_⟩
    · intro t c' v' ht
      by_cases htn : t = next
      · subst htn
        simp at ht
      · simp only [Function.update_of_ne htn] at ht
        show c' < s.calls + 1
        rcases h.park ht with ⟨-, rfl, -⟩ | ⟨-, -, hlt⟩ <;> omega
    · intro t t' c' v' v'' ht ht'
      by_cases htn : t = next
      · subst htn
        simp at ht
      by_cases htn' : t' = next
      · subst htn'
        simp at ht'
      simp only [Function.update_of_ne htn, Function.update_of_ne htn'] at ht ht'
      -- the call parked now has a number no older call has
      rcases h.park ht with ⟨rfl, rfl, -⟩ | ⟨-, hp, hlt⟩
      · rcases h.park ht' with ⟨rfl, -, -⟩ | ⟨-, -, hlt⟩
        · rfl
        · omega
      · rcases h.park ht' with ⟨-, rfl, -⟩ | ⟨-, hp', -⟩
        · omega
        · exact h.unique t t' c' v' v'' hp hp'
  | @spawn child v hne hnew =>
    -- the child is parked on the call in progress, older ones on smaller numbers
    refine ⟨?_, ?_, ?_⟩
    · show Function.update s.parked child _ s.current = none
      rw [Function.update_of_ne (Ne.symm hne)]
      exact h.running
    · intro t c' v' ht
      show c' < s.calls + 1
      by_cases htc : t = child
      · subst htc
        simp only [Function.update_self, Option.some.injEq, Prod.mk.injEq] at ht
        omega
      · simp only [Function.update_of_ne htc] at ht
        have := h.old t c' v' ht
        omega
    · intro t t' c' v' v'' ht ht'
      by_cases htc : t = child
      · by_cases htc' : t' = child
        · rw [htc, htc']
        · subst htc
          simp only [Function.update_self, Option.some.injEq, Prod.mk.injEq] at ht
          simp only [Function.update_of_ne htc'] at ht'
          have := h.old t' c' v'' ht'
          omega
      · simp only [Function.update_of_ne htc] at ht
        have hlt := h.old t c' v' ht
        by_cases htc' : t' = child
        · subst htc'
          simp only [Function.update_self, Option.some.injEq, Prod.mk.injEq] at ht'
          omega
        · simp only [Function.update_of_ne htc'] at ht'
          exact h.unique t t' c' v' v'' ht ht'

/-- One step of the story. -/
theorem Story.step (h : Story c t v ys s) (hs : Consistent s) (hstep : Step done second s es s') :
    Story c t v (ys ++ es) s' := by
  cases hstep with
  | @yield next c' v' hnext =>
    -- the events of the step return a call that somebody was parked in
    have hother : c' ≠ c → NotReturned c
        ([.called s.calls s.current .yield, .resumed next, .returned c' next v'] :
          List (Event α ν)) := by
      intro hne t' v'' hmem
      simp only [List.mem_cons, reduceCtorEq, Event.returned.injEq, List.not_mem_nil, or_false,
        false_or] at hmem
      exact hne hmem.1.symm
    rcases h with ⟨hno, hret, hparked⟩ | ⟨⟨ys₁, ys₂, rfl, hno, hret₁, hret₂⟩, hnot, hlt⟩
    · have hold := hs.old t c v hparked
      have htc : t ≠ s.current := by
        rintro rfl
        rw [hs.running] at hparked
        cases hparked
      by_cases htn : next = t
      · -- resumed now: the call returns
        subst htn
        rw [Function.update_of_ne htc, hparked, Option.some.injEq, Prod.mk.injEq] at hnext
        rcases hnext with ⟨rfl, rfl⟩
        right
        refine ⟨⟨ys ++ [.called s.calls s.current .yield], [], by simp, ?_, ?_, ?_⟩, ?_, ?_⟩
        · intro hmem
          rcases List.mem_append.mp hmem with hmem | hmem
          · exact hno hmem
          · simp at hmem
        · exact hret.append fun t' v'' hmem => by simp at hmem
        · exact fun t' v'' hmem => by cases hmem
        · intro t' v'' hp
          by_cases htn' : t' = next
          · subst htn'
            simp at hp
          · simp only [Function.update_of_ne htn'] at hp
            rcases hs.park hp with ⟨-, rfl, -⟩ | ⟨-, hp', -⟩
            · omega
            · exact htn' (hs.unique t' next c v'' v hp' hparked)
        · show c < s.calls + 1
          omega
      · left
        have hne : c' ≠ c := by
          rintro rfl
          rcases hs.park hnext with ⟨-, rfl, -⟩ | ⟨-, hp, -⟩
          · omega
          · exact htn (hs.unique next t c' v' v hp hparked)
        refine ⟨?_, hret.append (hother hne), ?_⟩
        · intro hmem
          rcases List.mem_append.mp hmem with hmem | hmem
          · exact hno hmem
          · simp [Ne.symm htn] at hmem
        · simp only [Function.update_of_ne (Ne.symm htn), Function.update_of_ne htc]
          exact hparked
    · right
      have hne : c' ≠ c := by
        rintro rfl
        rcases hs.park hnext with ⟨-, rfl, -⟩ | ⟨-, hp, -⟩
        · omega
        · exact hnot next v' hp
      refine ⟨⟨ys₁, ys₂ ++ _, by simp, hno, hret₁, hret₂.append (hother hne)⟩, ?_, ?_⟩
      · intro t' v'' hp
        by_cases htn : t' = next
        · subst htn
          simp at hp
        · simp only [Function.update_of_ne htn] at hp
          rcases hs.park hp with ⟨-, rfl, -⟩ | ⟨-, hp', -⟩
          · omega
          · exact hnot t' v'' hp'
      · show c < s.calls + 1
        omega
  | @spawn child v' hne hnew =>
    have hother : s.calls ≠ c → NotReturned c
        ([.called s.calls s.current .spawn, .created s.calls child,
          .returned s.calls s.current v'] : List (Event α ν)) := by
      intro hne t' v'' hmem
      simp only [List.mem_cons, reduceCtorEq, Event.returned.injEq, List.not_mem_nil, or_false,
        false_or] at hmem
      exact hne hmem.1.symm
    rcases h with ⟨hno, hret, hparked⟩ | ⟨⟨ys₁, ys₂, rfl, hno, hret₁, hret₂⟩, hnot, hlt⟩
    · left
      have hold := hs.old t c v hparked
      have htc : t ≠ child := by
        rintro rfl
        rw [hnew] at hparked
        cases hparked
      refine ⟨?_, hret.append (hother (by omega)), ?_⟩
      · intro hmem
        rcases List.mem_append.mp hmem with hmem | hmem
        · exact hno hmem
        · simp at hmem
      · simp only [Function.update_of_ne htc]
        exact hparked
    · right
      refine ⟨⟨ys₁, ys₂ ++ _, by simp, hno, hret₁, hret₂.append (hother (by omega))⟩, ?_, ?_⟩
      · intro t' v'' hp
        by_cases htc : t' = child
        · subst htc
          simp only [Function.update_self, Option.some.injEq, Prod.mk.injEq] at hp
          omega
        · simp only [Function.update_of_ne htc] at hp
          exact hnot t' v'' hp
      · show c < s.calls + 1
        omega

/-- The story along a run. -/
theorem Story.run (h : Story c t v ys s) (hs : Consistent s)
    (hrun : (system done second).Run s bs s') :
    Story c t v (ys ++ bs.flatten) s' ∧ Consistent s' := by
  induction hrun with
  | nil =>
    rw [List.flatten_nil, List.append_nil]
    exact ⟨h, hs⟩
  | snoc _ hstep ih =>
    rcases ih with ⟨hstory, hcons⟩
    rw [List.flatten_append, List.flatten_singleton, ← List.append_assoc]
    exact ⟨hstory.step hcons hstep, hcons.step hstep⟩

omit [DecidableEq α] in
theorem consistent_of_init (h : s.parked = fun _ => none) : Consistent s := by
  refine ⟨by rw [h], ?_, ?_⟩
  · intro t c v ht
    rw [h] at ht
    cases ht
  · intro t t' c v v' ht
    rw [h] at ht
    cases ht

/-- Calls to come have not returned yet. -/
theorem notReturned_of_run (hinit : (system done second).Init s)
    (hrun : (system done second).Run s as s') :
    Consistent s' ∧ ∀ c, s'.calls ≤ c → NotReturned c as.flatten := by
  induction hrun with
  | nil => exact ⟨consistent_of_init hinit, fun c _ t v hmem => by cases hmem⟩
  | snoc _ hstep ih =>
    rcases ih with ⟨hcons, hnot⟩
    refine ⟨hcons.step hstep, ?_⟩
    intro c hc
    rw [List.flatten_append, List.flatten_singleton]
    cases hstep with
    | @yield next c' v' hnext =>
      have hc' := Nat.le_of_succ_le hc
      refine (hnot c hc').append ?_
      intro t v hmem
      simp only [List.mem_cons, reduceCtorEq, Event.returned.injEq, List.not_mem_nil, or_false,
        false_or] at hmem
      rcases hmem with ⟨rfl, -⟩
      rcases hcons.park hnext with ⟨-, rfl, -⟩ | ⟨-, -, hlt⟩
      · exact absurd hc (Nat.not_succ_le_self _)
      · omega
    | @spawn child v' hne hnew =>
      have hc' := Nat.le_of_succ_le hc
      refine (hnot c hc').append ?_
      intro t v hmem
      simp only [List.mem_cons, reduceCtorEq, Event.returned.injEq, List.not_mem_nil, or_false,
        false_or] at hmem
      rcases hmem with ⟨rfl, -⟩
      exact absurd hc (Nat.not_succ_le_self _)

/-- **A `yield` returns once**, in the client that called it, when it is next resumed. -/
theorem returnsOnce_of_yield (hs : Consistent s)
    (hstep : Step done second s (.called c t .yield :: ys) s')
    (hrun : (system done second).Run s' bs s'') :
    ReturnsOnce c t done (ys ++ bs.flatten) := by
  have hcons := hs.step hstep
  refine (Story.run (s := s') ?_ hcons hrun).1.returnsOnce
  cases hstep with
  | @yield next c' v' hnext =>
    have hpark : ∀ t c v, Function.update s.parked s.current (some (s.calls, done)) t =
        some (c, v) → c = s.calls → t = s.current := by
      intro t c v ht hc
      rcases hs.park ht with ⟨htc, -, -⟩ | ⟨-, -, hlt⟩
      · exact htc
      · omega
    by_cases htn : next = s.current
    · -- the only client there is
      subst htn
      rw [Function.update_self, Option.some.injEq, Prod.mk.injEq] at hnext
      rcases hnext with ⟨rfl, rfl⟩
      refine Or.inr ⟨⟨[], [], rfl, by simp, ?_, ?_⟩, ?_, ?_⟩
      · exact fun t' v hmem => by cases hmem
      · exact fun t' v hmem => by cases hmem
      · intro t' v hp
        by_cases htc : t' = s.current
        · subst htc
          simp at hp
        · simp only [Function.update_of_ne htc] at hp
          have := hs.old t' _ v hp
          omega
      · show s.calls < s.calls + 1
        omega
    · refine Or.inl ⟨?_, ?_, ?_⟩
      · simp [Ne.symm htn]
      · intro t' v hmem
        simp only [List.mem_cons, reduceCtorEq, Event.returned.injEq, List.not_mem_nil, or_false,
          false_or] at hmem
        exact htn (hpark next c' v' hnext hmem.1.symm)
      · simp only [Function.update_of_ne (Ne.symm htn), Function.update_self]

/-- **A `spawn` returns twice**: in its caller, and once in the new client, when that is
first resumed. -/
theorem returnsOnce_of_spawn (hs : Consistent s)
    (hstep : Step done second s (.called c t .spawn :: ys) s')
    (hrun : (system done second).Run s' bs s'') :
    ∃ child v, ys = [.created c child, .returned c t v] ∧
      ReturnsOnce c child second bs.flatten := by
  have hcons := hs.step hstep
  cases hstep with
  | @spawn child v hne hnew =>
    refine ⟨child, v, rfl, ?_⟩
    have hstory : Story s.calls child second ([] : List (Event α ν))
        ⟨s.current, Function.update s.parked child (some (s.calls, second)), s.calls + 1⟩ :=
      Or.inl ⟨by simp, fun t v hmem => (by cases hmem), Function.update_self _ _ _⟩
    exact (hstory.run hcons hrun).1.returnsOnce

end

end Coroutines
