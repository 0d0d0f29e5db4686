/- Finite runs of a labelled transition system, with the labels as their history. -/

import Mathlib.Data.List.Basic
import Mathlib.Data.List.Infix
import Mathlib.Order.RelClasses

set_option autoImplicit false
set_option relaxedAutoImplicit false

namespace Raft2pl.Lib

universe u v w u' v'

/-- A finite run from `s₀`; the trace lists the labels in the order they were taken. -/
inductive Run {σ : Type u} {α : Type v} (step : σ → α → σ → Prop) (s₀ : σ) : List α → σ → Prop
  | start : Run step s₀ [] s₀
  | next {tr : List α} {s t : σ} {a : α} :
      Run step s₀ tr s → step s a t → Run step s₀ (tr ++ [a]) t

namespace Run

variable {σ : Type u} {α : Type v} {step step' : σ → α → σ → Prop} {s₀ s t : σ} {tr : List α}

/-- An assertion on histories and states that holds at the start and is kept by every step
holds after every run. The step case may use that its source state is reached by a run. -/
theorem invariant {I : List α → σ → Prop} (start : I [] s₀)
    (keep : ∀ tr s a t, Run step s₀ tr s → I tr s → step s a t → I (tr ++ [a]) t)
    (run : Run step s₀ tr s) : I tr s := by
  induction run with
  | start => exact start
  | next before taken ih => exact keep _ _ _ _ before ih taken

theorem mono (sub : ∀ s a t, step s a t → step' s a t) (run : Run step s₀ tr s) :
    Run step' s₀ tr s := by
  induction run with
  | start => exact .start
  | next _ taken ih => exact .next ih (sub _ _ _ taken)

/-- A component that answers each step by at most one step of its own runs on its part of the
history. -/
theorem project {τ : Type u'} {β : Type v'} {comp : τ → β → τ → Prop} (f : σ → τ)
    (g : α → Option β)
    (idle : ∀ s a t, step s a t → g a = none → f t = f s)
    (move : ∀ s a t b, step s a t → g a = some b → comp (f s) b (f t))
    (run : Run step s₀ tr s) : Run comp (f s₀) (tr.filterMap g) (f s) := by
  induction run with
  | start => exact .start
  | @next tr s t a _ taken ih =>
    rw [List.filterMap_append]
    cases label : g a with
    | none =>
      have same := idle s a t taken label
      rw [same]
      simpa [label] using ih
    | some b =>
      have one : [a].filterMap g = [b] := by simp [label]
      rw [one]
      exact .next ih (move s a t b taken label)

theorem trans {tr' : List α} (run : Run step s₀ tr s) (more : Run step s tr' t) :
    Run step s₀ (tr ++ tr') t := by
  induction more with
  | start => simpa using run
  | next _ taken ih =>
    rw [← List.append_assoc]
    exact .next ih taken

/-- A system whose steps are answered by runs of another one is answered by it as a whole. -/
theorem simulate {τ : Type u'} {β : Type v'} {comp : τ → β → τ → Prop} (f : σ → τ)
    (g : α → List β) (answer : ∀ s a t, step s a t → Run comp (f s) (g a) (f t))
    (run : Run step s₀ tr s) : Run comp (f s₀) (tr.flatMap g) (f s) := by
  induction run with
  | start => exact .start
  | next _ taken ih =>
    rw [List.flatMap_append, List.flatMap_singleton]
    exact ih.trans (answer _ _ _ taken)

/-- A system that can come closer to a calm state from everywhere else comes to a calm one. -/
theorem calm {β : Type w} [LT β] [WellFoundedLT β] {Good Calm : σ → Prop} {Label : α → Prop}
    (busy : σ → β)
    (one : ∀ s, Good s → ¬ Calm s →
      ∃ tr t, Run step s tr t ∧ (∀ a ∈ tr, Label a) ∧ Good t ∧ busy t < busy s)
    (good : Good s) :
    ∃ tr t, Run step s tr t ∧ (∀ a ∈ tr, Label a) ∧ Good t ∧ Calm t := by
  induction size : busy s using WellFoundedLT.induction generalizing s with
  | ind b ih =>
    by_cases rest : Calm s
    · exact ⟨[], s, .start, by simp, good, rest⟩
    · obtain ⟨tr, t, run, labels, good', less⟩ := one s good rest
      obtain ⟨tr', u, run', labels', good'', rest'⟩ := ih (busy t) (size ▸ less) good' rfl
      refine ⟨tr ++ tr', u, run.trans run', fun a member => ?_, good'', rest'⟩
      exact (List.mem_append.mp member).elim (labels a) (labels' a)

/-- If a system can always lessen what is busy, it can come to rest. -/
theorem exhaust {Good : σ → Prop} {Label : α → Prop} (busy : σ → Nat)
    (one : ∀ s, Good s → 0 < busy s →
      ∃ tr t, Run step s tr t ∧ (∀ a ∈ tr, Label a) ∧ Good t ∧ busy t < busy s)
    (good : Good s) :
    ∃ tr t, Run step s tr t ∧ (∀ a ∈ tr, Label a) ∧ Good t ∧ busy t = 0 :=
  calm busy (fun s good rest => one s good (Nat.pos_of_ne_zero rest)) good

theorem bounded (left : σ → Nat)
    (falls : ∀ tr s a t, Run step s₀ tr s → step s a t → left t < left s)
    (run : Run step s₀ tr s) : tr.length + left s ≤ left s₀ := by
  induction run with
  | start => simp
  | @next tr s t a before taken ih =>
    have less := falls tr s a t before taken
    rw [List.length_append, List.length_singleton]
    omega

theorem split {pre post : List α} {a : α} (run : Run step s₀ tr s) (cut : tr = pre ++ a :: post) :
    ∃ u w, Run step s₀ pre u ∧ step u a w ∧ Run step w post s := by
  induction run generalizing pre post with
  | start => simp at cut
  | @next tr s t b before taken ih =>
    rcases List.eq_nil_or_concat post with rfl | ⟨post', c, rfl⟩
    · obtain ⟨rfl, tail⟩ := List.append_inj' cut rfl
      obtain rfl : b = a := by simpa using tail
      exact ⟨s, t, before, taken, .start⟩
    · rw [List.concat_eq_append, ← List.cons_append, ← List.append_assoc] at cut
      obtain ⟨rfl, tail⟩ := List.append_inj' cut rfl
      obtain rfl : b = c := by simpa using tail
      obtain ⟨u, w, reached, first, rest⟩ := ih rfl
      rw [List.concat_eq_append]
      exact ⟨u, w, reached, first, .next rest taken⟩

/-- The history passed the state `u` and went on with the label `a`. -/
def Past (step : σ → α → σ → Prop) (s₀ : σ) (tr : List α) (u : σ) (a : α) : Prop :=
  ∃ pre post, tr = pre ++ a :: post ∧ Run step s₀ pre u

theorem Past.append {u : σ} {a : α} (past : Past step s₀ tr u a) (tr' : List α) :
    Past step s₀ (tr ++ tr') u a := by
  obtain ⟨pre, post, cut, reached⟩ := past
  exact ⟨pre, post ++ tr', by rw [cut, List.append_assoc, List.cons_append], reached⟩

theorem past_last (run : Run step s₀ tr s) (a : α) : Past step s₀ (tr ++ [a]) s a :=
  ⟨tr, [], rfl, run⟩

theorem past_of_mem {a : α} (run : Run step s₀ tr s) (member : a ∈ tr) :
    ∃ u t, Past step s₀ tr u a ∧ step u a t := by
  obtain ⟨pre, post, cut⟩ := List.append_of_mem member
  obtain ⟨u, t, reached, taken, -⟩ := run.split cut
  exact ⟨u, t, ⟨pre, post, cut, reached⟩, taken⟩

theorem eq_of_nil (run : Run step s₀ [] s) : s = s₀ := by
  generalize empty : ([] : List α) = nothing at run
  cases run with
  | start => rfl
  | next => simp at empty

theorem uncons {a : α} (run : Run step s₀ (a :: tr) s) : ∃ t, step s₀ a t ∧ Run step t tr s := by
  obtain ⟨u, t, before, first, rest⟩ := run.split (List.nil_append _).symm
  generalize empty : ([] : List α) = nothing at before
  cases before with
  | start => exact ⟨t, first, rest⟩
  | next => simp at empty

end Run

def Steps {σ : Type u} {α : Type v} (step : σ → α → Option σ) (s : σ) (a : α) (t : σ) : Prop :=
  step s a = some t

/-- Execution of a list of labels, stopping where one of them is not enabled. -/
def exec {σ : Type u} {α : Type v} (step : σ → α → Option σ) : σ → List α → Option σ
  | s, [] => some s
  | s, a :: as => match step s a with
    | none => none
    | some t => exec step t as

section Exec

variable {σ : Type u} {α : Type v} {step : σ → α → Option σ} {s₀ s t : σ}

private theorem exec_extend {as bs : List α} (run : Run (Steps step) s₀ as s)
    (done : exec step s bs = some t) : Run (Steps step) s₀ (as ++ bs) t := by
  induction bs generalizing as s with
  | nil =>
    obtain rfl : s = t := by simpa [exec] using done
    simpa using run
  | cons b bs ih =>
    cases taken : step s b with
    | none => simp [exec, taken] at done
    | some w =>
      simp only [exec, taken] at done
      have longer := ih (.next run taken) done
      simpa using longer

theorem exec_run {as : List α} (done : exec step s₀ as = some t) : Run (Steps step) s₀ as t := by
  simpa using exec_extend .start done

theorem exec_reaches {as : List α} {p : σ → Bool} (done : (exec step s₀ as).map p = some true) :
    ∃ s, Run (Steps step) s₀ as s ∧ p s = true := by
  obtain ⟨s, reached, holds⟩ := Option.map_eq_some_iff.mp done
  exact ⟨s, exec_run reached, holds⟩

end Exec

section Throughout

variable {σ : Type u} {α : Type v} {step : σ → α → Option σ} {s₀ s t : σ} {tr : List α}

/-- Every step of a history has a property, which may look at the labels before the step. -/
def Throughout (step : σ → α → Option σ) (s₀ : σ) (tr : List α)
    (P : List α → σ → α → σ → Prop) : Prop :=
  ∀ pre a post, tr = pre ++ a :: post → ∀ s t, Run (Steps step) s₀ pre s → step s a = some t →
    P pre s a t

theorem Throughout.part {P : List α → σ → α → σ → Prop} {tr' : List α}
    (all : Throughout step s₀ (tr ++ tr') P) : Throughout step s₀ tr P := by
  intro pre a post cut
  refine all pre a (post ++ tr') ?_
  rw [cut, List.append_assoc, List.cons_append]

/-- A property of steps, checked along an execution. -/
def check (step : σ → α → Option σ) (p : List α → σ → α → Bool) : List α → σ → List α → Bool
  | _, _, [] => true
  | pre, s, a :: as => match step s a with
    | none => true
    | some t => p pre s a && check step p (pre ++ [a]) t as

private theorem check_split {p : List α → σ → α → Bool} {before pre post : List α} {a : α}
    (checked : check step p before s (pre ++ a :: post) = true) {u w : σ}
    (run : exec step s pre = some u) (taken : step u a = some w) : p (before ++ pre) u a = true := by
  induction pre generalizing before s with
  | nil =>
    obtain rfl : s = u := by simpa [exec] using run
    simp only [List.nil_append, check, taken, Bool.and_eq_true] at checked
    simpa using checked.1
  | cons b pre ih =>
    cases first : step s b with
    | none => simp [exec, first] at run
    | some t =>
      simp only [exec, first] at run
      simp only [List.cons_append, check, first, Bool.and_eq_true] at checked
      simpa using ih checked.2 run

theorem run_exec (run : Run (Steps step) s₀ tr s) : exec step s₀ tr = some s := by
  have longer : ∀ (as : List α) (b : α) (r : σ), exec step r (as ++ [b]) =
      (exec step r as).bind (fun t => step t b) := by
    intro as b
    induction as with
    | nil =>
      intro r
      cases taken : step r b <;> simp [exec, taken]
    | cons a as ih =>
      intro r
      cases taken : step r a <;> simp [exec, taken, ih]
  induction run with
  | start => rfl
  | next before taken ih =>
    rw [longer, ih]
    exact taken

/-- A checked execution has the checked property throughout. -/
theorem throughout_of_check {p : List α → σ → α → Bool} (checked : check step p [] s₀ tr = true) :
    Throughout step s₀ tr (fun pre s a _ => p pre s a = true) := by
  intro pre a post cut s t run taken
  rw [cut] at checked
  simpa using check_split checked (run_exec run) taken

end Throughout

end Raft2pl.Lib
