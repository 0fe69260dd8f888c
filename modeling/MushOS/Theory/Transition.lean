import Mathlib.Data.List.Basic
import Mathlib.Tactic

/-! # Labelled transition systems

A program that takes one step after another: which states it may start in and
which step leads where under which label. What is proved about it is proved in
two moves:

* one step keeps the invariant, hence so does every run (`Run.invariant`,
  `Reachable.invariant`);
* every step of one system is matched by a step of another, hence every state it
  reaches stands for a state the other reaches (`Simulation.reachable`).
-/

namespace Transition

/-- A transition system over states `σ` with labels `α`. -/
structure System (σ α : Type*) where
  Init : σ → Prop
  Step : σ → α → σ → Prop

variable {σ τ α β : Type*}

namespace System

/-- `T.Run s as s'`: the labels `as`, oldest first, lead from `s` to `s'`. -/
inductive Run (T : System σ α) (s : σ) : List α → σ → Prop where
  | nil : Run T s [] s
  | snoc {s' s'' : σ} {as : List α} {a : α} :
      Run T s as s' → T.Step s' a s'' → Run T s (as ++ [a]) s''

/-- A state some run from an initial state ends in. -/
def Reachable (T : System σ α) (s : σ) : Prop := ∃ s₀ as, T.Init s₀ ∧ T.Run s₀ as s

/-- The steps of `T` that meet a condition on the state before. -/
def restrict (T : System σ α) (P : σ → α → Prop) : System σ α where
  Init := T.Init
  Step s a s' := P s a ∧ T.Step s a s'

variable {T : System σ α} {s s' s'' : σ} {as bs : List α} {a : α}

theorem Run.single (h : T.Step s a s') : T.Run s [a] s' := Run.nil.snoc h

theorem Run.append (h₁ : T.Run s as s') (h₂ : T.Run s' bs s'') : T.Run s (as ++ bs) s'' := by
  induction h₂ with
  | nil => simpa using h₁
  | snoc _ hstep ih =>
    rw [← List.append_assoc]
    exact ih.snoc hstep

theorem Reachable.init (h : T.Init s) : T.Reachable s := ⟨s, [], h, Run.nil⟩

theorem Reachable.step (h : T.Reachable s) (hstep : T.Step s a s') : T.Reachable s' := by
  rcases h with ⟨s₀, as, h0, hrun⟩
  exact ⟨s₀, as ++ [a], h0, hrun.snoc hstep⟩

/-- What every step keeps, every run keeps. -/
theorem Run.invariant {I : σ → Prop} (hI : ∀ s a s', I s → T.Step s a s' → I s')
    (hrun : T.Run s as s') (hs : I s) : I s' := by
  induction hrun with
  | nil => exact hs
  | snoc _ hstep ih => exact hI _ _ _ ih hstep

/-- What holds at the start and is kept by every step holds of every reachable
state. -/
theorem Reachable.invariant {I : σ → Prop} (hinit : ∀ s, T.Init s → I s)
    (hI : ∀ s a s', I s → T.Step s a s' → I s') (hs : T.Reachable s) : I s := by
  rcases hs with ⟨s₀, as, h0, hrun⟩
  exact hrun.invariant hI (hinit s₀ h0)

end System

/-- When the labels are matched too, a run is matched by a run. -/
theorem System.Run.simulate {C : System σ α} {A : System τ β} {R : σ → τ → Prop} {f : α → β}
    (hsim : ∀ s a s' t, C.Step s a s' → R s t → ∃ t', A.Step t (f a) t' ∧ R s' t')
    {s s' : σ} {as : List α} {t : τ} (hrun : C.Run s as s') (hr : R s t) :
    ∃ t', A.Run t (as.map f) t' ∧ R s' t' := by
  induction hrun with
  | nil => exact ⟨t, System.Run.nil, hr⟩
  | snoc _ hstep ih =>
    rcases ih with ⟨t₁, hrun₁, hr₁⟩
    rcases hsim _ _ _ _ hstep hr₁ with ⟨t₂, hstep₂, hr₂⟩
    rw [List.map_append]
    exact ⟨t₂, hrun₁.snoc hstep₂, hr₂⟩

/-- Forward simulation: a concrete state stands for an abstract one, at the start
and after every step. -/
structure Simulation (C : System σ α) (A : System τ β) (R : σ → τ → Prop) : Prop where
  init : ∀ s, C.Init s → ∃ t, A.Init t ∧ R s t
  step : ∀ s a s' t, C.Step s a s' → R s t → ∃ b t', A.Step t b t' ∧ R s' t'

/-- Every reachable concrete state stands for a reachable abstract one. -/
theorem Simulation.reachable {C : System σ α} {A : System τ β} {R : σ → τ → Prop}
    (hsim : Simulation C A R) {s : σ} (hs : C.Reachable s) : ∃ t, A.Reachable t ∧ R s t := by
  refine hs.invariant (I := fun s => ∃ t, A.Reachable t ∧ R s t) (fun s h0 => ?_)
    fun s a s' hI hstep => ?_
  · rcases hsim.init s h0 with ⟨t, ht, hr⟩
    exact ⟨t, System.Reachable.init ht, hr⟩
  · rcases hI with ⟨t, ht, hr⟩
    rcases hsim.step s a s' t hstep hr with ⟨b, t', hstep', hr'⟩
    exact ⟨t', ht.step hstep', hr'⟩

end Transition
