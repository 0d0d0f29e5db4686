/- Machines that answer calls, and simulations of one such machine by another. -/

set_option autoImplicit false
set_option relaxedAutoImplicit false

namespace Raft2pl.Lib

universe u v w x

variable {σ : Type u} {τ : Type v} {α : Type w} {ω : Type x}

/-- The answers to some calls, and the state after them; `none` where one of them does not end. -/
def answers (step : σ → α → Option (ω × σ)) : σ → List α → Option (List ω × σ)
  | s, [] => some ([], s)
  | s, a :: as => do
      let (o, s') ← step s a
      let (os, t) ← answers step s' as
      some (o :: os, t)

/-- The implementation `step` answers each allowed call as the specification `spec` does, from states
that are related, and its states stay related. -/
def Simulates (step : σ → α → Option (ω × σ)) (spec : τ → α → Option (ω × τ)) (allowed : α → Prop)
    (R : σ → τ → Prop) : Prop :=
  ∀ s t a, R s t → allowed a → ∀ o t', spec t a = some (o, t') →
    ∃ s', step s a = some (o, s') ∧ R s' t'

section Answers

variable {step : σ → α → Option (ω × σ)} {spec : τ → α → Option (ω × τ)} {allowed : α → Prop}
  {R : σ → τ → Prop}

@[simp] theorem answers_nil (s : σ) : answers step s [] = some ([], s) := rfl

private theorem answers_cons_eq_some {s t : σ} {a : α} {as : List α} {os : List ω} :
    answers step s (a :: as) = some (os, t) ↔
      ∃ o s' os', step s a = some (o, s') ∧ answers step s' as = some (os', t) ∧ os = o :: os' := by
  simp only [answers, Option.bind_eq_bind, Option.bind_eq_some_iff, Option.some.injEq,
    Prod.mk.injEq, Prod.exists]
  constructor
  · rintro ⟨o, s', first, os', t', rest, rfl, rfl⟩
    exact ⟨o, s', os', first, rest, rfl⟩
  · rintro ⟨o, s', os', first, rest, rfl⟩
    exact ⟨o, s', first, os', t, rest, rfl, rfl⟩

theorem answers_total (total : ∀ t a, allowed a → ∃ o t', spec t a = some (o, t')) (t : τ)
    {as : List α} (ok : ∀ a ∈ as, allowed a) : ∃ os t', answers spec t as = some (os, t') := by
  induction as generalizing t with
  | nil => exact ⟨[], t, rfl⟩
  | cons a as ih =>
    obtain ⟨o, t₁, first⟩ := total t a (ok a List.mem_cons_self)
    obtain ⟨os, t₂, rest⟩ := ih t₁ (fun b member => ok b (List.mem_cons_of_mem a member))
    exact ⟨o :: os, t₂, answers_cons_eq_some.mpr ⟨o, t₁, os, first, rest, rfl⟩⟩

/-- A simulated machine is answered alike as a whole. -/
theorem Simulates.answers (sim : Simulates step spec allowed R) {s : σ} {t t' : τ}
    {as : List α} {os : List ω} (related : R s t) (ok : ∀ a ∈ as, allowed a)
    (done : answers spec t as = some (os, t')) :
    ∃ s', Lib.answers step s as = some (os, s') ∧ R s' t' := by
  induction as generalizing s t os with
  | nil =>
    simp only [answers_nil, Option.some.injEq, Prod.mk.injEq] at done
    obtain ⟨rfl, rfl⟩ := done
    exact ⟨s, rfl, related⟩
  | cons a as ih =>
    obtain ⟨o, t₁, os', first, rest, rfl⟩ := answers_cons_eq_some.mp done
    obtain ⟨s₁, first', related₁⟩ := sim s t a related (ok a List.mem_cons_self) o t₁ first
    obtain ⟨s₂, rest', related₂⟩ :=
      ih related₁ (fun b member => ok b (List.mem_cons_of_mem a member)) rest
    exact ⟨s₂, answers_cons_eq_some.mpr ⟨o, s₁, os', first', rest', rfl⟩, related₂⟩

end Answers

end Raft2pl.Lib
