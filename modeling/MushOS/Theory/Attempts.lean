import Mathlib.Tactic

/-! # Programs that return or give up

Programs over a state that may fail. Some failures are left to a handler, which
may stop the program or let it go on with a result that is none. To say what a
program does when nothing fails, it is run twice: as it is, and under a handler
that stops it (`strict`). `Yields` says that the strict run stops with one of the
failures `E`, or that both runs return the same result, and that it satisfies `Q`.
Where `E` is empty the program returns (`Yields.returns`). It is a program logic:
`Yields.pure`, `Yields.bind`, `Yields.mono`.
-/

namespace Attempts

variable {σ ε α β : Type} {strict : σ → σ} {E : Set ε}

/-- Either the strict run stops with one of `E`, or the run returns with `Q`, and the strict
run returns the same. -/
def Yields (strict : σ → σ) (E : Set ε) (f : StateT σ (Except ε) α) (s : σ) (Q : α → σ → Prop) :
    Prop :=
  (∃ e ∈ E, f.run (strict s) = .error e) ∨
    ∃ a s', f.run s = .ok (a, s') ∧ f.run (strict s) = .ok (a, strict s') ∧ Q a s'

namespace Yields
variable {f : StateT σ (Except ε) α} {g : α → StateT σ (Except ε) β} {s : σ} {a : α}
  {Q Q' : α → σ → Prop} {R : β → σ → Prop}

theorem pure (h : Q a s) : Yields strict E (Pure.pure a : StateT σ (Except ε) α) s Q :=
  Or.inr ⟨a, s, rfl, rfl, h⟩

/-- The rule of consequence. -/
theorem mono (h : Yields strict E f s Q) (himp : ∀ a s', Q a s' → Q' a s') :
    Yields strict E f s Q' := by
  rcases h with hstop | ⟨a, s', hrun, hstrict, hQ⟩
  · exact Or.inl hstop
  · exact Or.inr ⟨a, s', hrun, hstrict, himp a s' hQ⟩

/-- With no failure allowed the program returns. -/
theorem returns (h : Yields strict ∅ f s Q) : ∃ a s', f.run s = .ok (a, s') ∧ Q a s' := by
  rcases h with ⟨e, he, -⟩ | ⟨a, s', hrun, -, hQ⟩
  · exact absurd he (Set.notMem_empty e)
  · exact ⟨a, s', hrun, hQ⟩

/-- So it does when the run under `strict` does not fail. -/
theorem returns_of_isOk (h : Yields strict E f s Q) (hok : (f.run (strict s)).isOk = true) :
    ∃ a s', f.run s = .ok (a, s') ∧ Q a s' := by
  rcases h with ⟨e, -, hstop⟩ | ⟨a, s', hrun, -, hQ⟩
  · rw [hstop] at hok
    cases hok
  · exact ⟨a, s', hrun, hQ⟩

/-- A program that returns does what it does unless it fails. -/
theorem both (h : Yields strict ∅ f s Q) (h' : Yields strict E f s Q') :
    Yields strict ∅ f s fun a t => Q a t ∧ Q' a t := by
  rcases h with ⟨e, he, -⟩ | ⟨a, t, hrun, hstrict, hQ⟩
  · exact absurd he (Set.notMem_empty e)
  rcases h' with ⟨e, -, hstop⟩ | ⟨a', t', hrun', -, hQ'⟩
  · rw [hstrict] at hstop
    cases hstop
  · have hsame := Prod.mk.inj (Except.ok.inj (hrun.symm.trans hrun'))
    rw [← hsame.1, ← hsame.2] at hQ'
    exact Or.inr ⟨a, t, hrun, hstrict, hQ, hQ'⟩

/-- One program after another. -/
theorem bind (h : Yields strict E f s Q) (hg : ∀ a s', Q a s' → Yields strict E (g a) s' R) :
    Yields strict E (f >>= g) s R := by
  rcases h with ⟨e, he, hstop⟩ | ⟨a, s', hrun, hstrict, hQ⟩
  · left
    refine ⟨e, he, ?_⟩
    rw [StateT.run_bind, hstop]
    rfl
  · rcases hg a s' hQ with ⟨e, he, hstop'⟩ | ⟨b, s'', hrun', hstrict', hR⟩
    · left
      refine ⟨e, he, ?_⟩
      rw [StateT.run_bind, hstrict]
      exact hstop'
    · right
      refine ⟨b, s'', ?_, ?_, hR⟩
      · rw [StateT.run_bind, hrun]
        exact hrun'
      · rw [StateT.run_bind, hstrict]
        exact hstrict'

end Yields

/-- A run that returns goes on with what it has returned. -/
theorem run_bind_of_ok {f : StateT σ (Except ε) α} {g : α → StateT σ (Except ε) β} {s s' : σ}
    {a : α} (h : f.run s = .ok (a, s')) : (f >>= g).run s = (g a).run s' := by
  rw [StateT.run_bind, h]
  rfl

end Attempts
