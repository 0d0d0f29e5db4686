/- Loops that may go on forever: what it means that one ends, and the rules to show that it does or
does not. -/

set_option autoImplicit false
set_option relaxedAutoImplicit false

namespace Raft2pl.Lib

universe u v

variable {σ : Type u} {ρ : Type v}

/-- A loop whose body either goes on with a new state or leaves with a result; `none` where it has
not left within the given number of rounds. -/
def loop (body : σ → σ ⊕ ρ) : Nat → σ → Option ρ
  | 0, _ => none
  | n + 1, s => match body s with
    | .inl s' => loop body n s'
    | .inr r => some r

def Ends (body : σ → σ ⊕ ρ) (s : σ) (r : ρ) : Prop := ∃ rounds, loop body rounds s = some r

variable {body : σ → σ ⊕ ρ} {s s' : σ} {r r' : ρ}

private theorem ends_of_inr (leaves : body s = .inr r) : Ends body s r := ⟨1, by simp [loop, leaves]⟩

theorem ends_inl (goesOn : body s = .inl s') : Ends body s r ↔ Ends body s' r := by
  constructor
  · rintro ⟨rounds, done⟩
    cases rounds with
    | zero => simp [loop] at done
    | succ n =>
      simp only [loop, goesOn] at done
      exact ⟨n, done⟩
  · rintro ⟨n, done⟩
    refine ⟨n + 1, ?_⟩
    simp only [loop, goesOn, done]

theorem ends_inr (leaves : body s = .inr r') : Ends body s r ↔ r = r' := by
  constructor
  · rintro ⟨rounds, done⟩
    cases rounds with
    | zero => simp [loop] at done
    | succ n =>
      simp only [loop, leaves, Option.some.injEq] at done
      exact done.symm
  · rintro rfl
    exact ends_of_inr leaves

theorem Ends.unique (one : Ends body s r) (other : Ends body s r') : r = r' := by
  obtain ⟨rounds, done⟩ := one
  induction rounds generalizing s with
  | zero => simp [loop] at done
  | succ n ih =>
    cases taken : body s with
    | inl s₁ =>
      simp only [loop, taken] at done
      exact ih ((ends_inl taken).mp other) done
    | inr r₁ =>
      simp only [loop, taken, Option.some.injEq] at done
      rw [← done, (ends_inr taken).mp other]

/-- A loop whose rounds keep it where no round leaves goes on forever. -/
theorem not_ends_of_invariant {I : σ → Prop} (keep : ∀ s, I s → ∃ s', body s = .inl s' ∧ I s')
    (start : I s) : ¬ Ends body s r := by
  rintro ⟨rounds, done⟩
  induction rounds generalizing s with
  | zero => simp [loop] at done
  | succ n ih =>
    obtain ⟨s', goesOn, inv⟩ := keep s start
    simp only [loop, goesOn] at done
    exact ih inv done

end Raft2pl.Lib
