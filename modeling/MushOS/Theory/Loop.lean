import Mathlib.Data.List.Range
import Mathlib.Tactic

/-! # Counted loops

`loop f n s` is `for (i = 0; i < n; ++i) s = f(i, s);`. Its rule is the one
of every `for` loop: what holds before the first iteration and is carried from
iteration `i` to iteration `i + 1` holds after the last one.

A loop whose f may fail is `loopM`: it stops at the first failure. A loop that
returns from its f at the first index that satisfies a test is `firstTo`.
-/

namespace Loop

variable {σ : Type*}

/-- Iterations `0 .. n - 1` of `f`. -/
def loop (f : ℕ → σ → σ) : ℕ → σ → σ
  | 0, s => s
  | n + 1, s => f n (loop f n s)

/-- The rule of the `for` loop. -/
theorem loop_induction {f : ℕ → σ → σ} {n : ℕ} {s : σ} {P : ℕ → σ → Prop} (hinit : P 0 s)
    (hstep : ∀ i s, i < n → P i s → P (i + 1) (f i s)) : P n (loop f n s) := by
  induction n with
  | zero => exact hinit
  | succ n ih =>
    have hprev : P n (loop f n s) := by
      apply ih
      intro i s hi hP
      exact hstep i s (by omega) hP
    exact hstep n _ (by omega) hprev

/-- Iterations `0 .. n - 1` of a f that may fail. -/
def loopM {ε τ : Type} (f : ℕ → τ → Except ε τ) : ℕ → τ → Except ε τ
  | 0, t => .ok t
  | n + 1, t => loopM f n t >>= f n

/-- Two loops in lockstep: when each iteration of the one is matched by an iteration of
the other, which does not fail, then so is the whole loop. -/
theorem loopM_simulates {ε τ : Type} {f : ℕ → σ → σ} {g : ℕ → τ → Except ε τ} {n : ℕ}
    {s : σ} {t : τ} {R : ℕ → σ → τ → Prop} (hinit : R 0 s t)
    (hstep : ∀ i s t, i < n → R i s t → ∃ t', g i t = .ok t' ∧ R (i + 1) (f i s) t') :
    ∃ t', loopM g n t = .ok t' ∧ R n (loop f n s) t' := by
  induction n with
  | zero => exact ⟨t, rfl, hinit⟩
  | succ n ih =>
    have hprev : ∃ t', loopM g n t = .ok t' ∧ R n (loop f n s) t' := by
      apply ih
      intro i s t hi hR
      exact hstep i s t (by omega) hR
    rcases hprev with ⟨t₁, hloop, hR⟩
    rcases hstep n _ t₁ (by omega) hR with ⟨t', hbody, hR'⟩
    refine ⟨t', ?_, hR'⟩
    show loopM g n t >>= g n = _
    rw [hloop]
    exact hbody

/-- A f that does not fail where `P` holds. -/
theorem loopM_induction {ε τ : Type} {f : ℕ → τ → Except ε τ} {n : ℕ} {t : τ}
    {P : ℕ → τ → Prop} (hinit : P 0 t)
    (hstep : ∀ i t, i < n → P i t → ∃ t', f i t = .ok t' ∧ P (i + 1) t') :
    ∃ t', loopM f n t = .ok t' ∧ P n t' :=
  loopM_simulates (f := fun _ u => u) (s := ()) (R := fun i _ t => P i t) hinit
    fun i _ t hi hP => hstep i t hi hP

/-- Each iteration of a loop, between what comes before it and what comes after. -/
theorem loop_passes {f : ℕ → σ → σ} {n : ℕ} {R : σ → σ → Prop} (hrefl : ∀ s, R s s)
    (htrans : ∀ s₁ s₂ s₃, R s₁ s₂ → R s₂ s₃ → R s₁ s₃) (hstep : ∀ i s, i < n → R s (f i s))
    (s : σ) {i : ℕ} (hi : i < n) : ∃ s', R s s' ∧ R (f i s') (loop f n s) := by
  induction n with
  | zero => exact absurd hi (Nat.not_lt_zero i)
  | succ n ih =>
    have hbefore : ∀ k ≤ n, R s (loop f k s) := by
      intro k hk
      refine loop_induction (P := fun _ s' => R s s') (hrefl s) ?_
      intro j s' hj hs'
      exact htrans _ _ _ hs' (hstep j s' (by omega))
    by_cases hlast : i = n
    · subst hlast
      exact ⟨loop f i s, hbefore i (le_refl i), hrefl _⟩
    · rcases ih (fun j s' hj => hstep j s' (by omega)) (by omega) with ⟨s', hs', hrest⟩
      exact ⟨s', hs', htrans _ _ _ hrest (hstep n _ (by omega))⟩

/-- The first of `n` indices that satisfies `p`, as a search loop finds it. -/
def firstTo (p : ℕ → Bool) (n : ℕ) : Option ℕ := (List.range n).find? p

theorem firstTo_eq_none {p : ℕ → Bool} {n : ℕ} :
    firstTo p n = none ↔ ∀ i < n, p i = false := by
  unfold firstTo
  rw [List.find?_eq_none]
  simp

theorem firstTo_eq_some {p : ℕ → Bool} {n i : ℕ} (h : firstTo p n = some i) :
    i < n ∧ p i = true ∧ ∀ j < i, p j = false := by
  unfold firstTo at h
  rw [List.find?_range_eq_some] at h
  rcases h with ⟨hp, hi, hmin⟩
  refine ⟨by simpa using hi, hp, ?_⟩
  intro j hj
  simpa using hmin j hj

end Loop
