/- Systems that do what an abstract machine does, at points of their own: the record of what happened
at the steps of a run, and forward simulations along it. -/

import Raft2pl.Lib.Run

set_option autoImplicit false
set_option relaxedAutoImplicit false

namespace Raft2pl.Lib

universe u v w x

variable {σ : Type u} {α : Type v} {κ : Type w} {τ : Type x}
  {step : σ → α → Option σ} {note : σ → α → σ → List κ} {s₀ s t : σ} {tr : List α} {a : α}

/-- What the steps of a history add to a record, one after the other. -/
def record (step : σ → α → Option σ) (note : σ → α → σ → List κ) : σ → List α → List κ
  | _, [] => []
  | s, a :: as => match step s a with
    | none => []
    | some t => note s a t ++ record step note t as

private theorem record_append (run : exec step s₀ tr = some s) (as : List α) :
    record step note s₀ (tr ++ as) = record step note s₀ tr ++ record step note s as := by
  induction tr generalizing s₀ with
  | nil =>
    obtain rfl : s₀ = s := by simpa [exec] using run
    rfl
  | cons b tr ih =>
    cases taken : step s₀ b with
    | none => simp [exec, taken] at run
    | some u =>
      simp only [exec, taken] at run
      simp only [List.cons_append, record, taken, ih run, List.append_assoc]

theorem record_next (run : Run (Steps step) s₀ tr s) (taken : step s a = some t) :
    record step note s₀ (tr ++ [a]) = record step note s₀ tr ++ note s a t := by
  rw [record_append (run_exec run)]
  simp [record, taken]

/-- A system refines a machine along its record if each of its steps is answered by a run of the
machine on what the step adds to the record. -/
theorem refine_run {comp : τ → κ → τ → Prop} {R : σ → τ → Prop} {v₀ : τ}
    (answer : ∀ tr s a t v, Run (Steps step) s₀ tr s → step s a = some t → R s v →
      ∃ v', Run comp v (note s a t) v' ∧ R t v')
    (start : R s₀ v₀) (run : Run (Steps step) s₀ tr s) :
    ∃ v, Run comp v₀ (record step note s₀ tr) v ∧ R s v := by
  induction run with
  | start => exact ⟨v₀, .start, start⟩
  | @next tr s t a before taken ih =>
    obtain ⟨v, reached, related⟩ := ih
    obtain ⟨v', more, related'⟩ := answer tr s a t v before taken related
    rw [record_next before taken]
    exact ⟨v', reached.trans more, related'⟩

end Raft2pl.Lib
