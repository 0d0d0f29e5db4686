/- Histories split among components: what all components did is the sum of what each one did. -/

import Mathlib.Algebra.BigOperators.Group.Finset.Basic
import Mathlib.Data.Multiset.Basic
import Mathlib.Algebra.Order.Group.Multiset

set_option autoImplicit false
set_option relaxedAutoImplicit false

namespace Raft2pl.Lib

universe u v w

variable {ι : Type u} [Fintype ι] {α : Type v} {γ : Type w}

/-- The items that the labels of a history contribute, as a multiset. -/
def contributed {β : Type*} (p : α → Option β) (f : β → List γ) (l : List α) : Multiset γ :=
  ((l.filterMap p).flatMap f : List γ)

section Contributed

variable {β : Type*} (p : α → Option β) (f : β → List γ)

@[simp] theorem contributed_nil : contributed p f [] = 0 := rfl

private theorem contributed_cons (a : α) (l : List α) :
    contributed p f (a :: l) = contributed p f [a] + contributed p f l := by
  unfold contributed
  rw [Multiset.coe_add, ← List.flatMap_append, ← List.filterMap_append]
  rfl

private theorem contributed_none {a : α} (none : p a = none) : contributed p f [a] = 0 := by
  simp [contributed, none]

private theorem contributed_some {a : α} {b : β} (some : p a = some b) :
    contributed p f [a] = (f b : Multiset γ) := by
  simp [contributed, some]

end Contributed

/-- If a label that contributes does so for exactly one component, the components' contributions
add up to the whole. -/
theorem sum_contributed {β β' : Type*} (p : ι → α → Option β) (f : ι → β → List γ)
    (q : α → Option β') (f' : β' → List γ)
    (split : ∀ a, (q a = none ∧ ∀ i, p i a = none) ∨
      ∃ i b b', q a = some b' ∧ p i a = some b ∧ f i b = f' b' ∧ ∀ j, j ≠ i → p j a = none)
    (l : List α) : ∑ i, contributed (p i) (f i) l = contributed q f' l := by
  induction l with
  | nil => simp
  | cons a l ih =>
    have one : ∑ i, contributed (p i) (f i) [a] = contributed q f' [a] := by
      rcases split a with ⟨none, nones⟩ | ⟨i, b, b', whole, part, same, others⟩
      · rw [contributed_none q f' none]
        exact Finset.sum_eq_zero (fun i _ => contributed_none (p i) (f i) (nones i))
      · rw [contributed_some q f' whole, Finset.sum_eq_single i, contributed_some _ _ part, same]
        · exact fun j _ apart => contributed_none (p j) (f j) (others j apart)
        · exact fun absent => absurd (Finset.mem_univ i) absent
    calc ∑ i, contributed (p i) (f i) (a :: l)
        = ∑ i, (contributed (p i) (f i) [a] + contributed (p i) (f i) l) :=
          Finset.sum_congr rfl (fun i _ => contributed_cons (p i) (f i) a l)
      _ = contributed q f' [a] + contributed q f' l := by rw [Finset.sum_add_distrib, one, ih]
      _ = contributed q f' (a :: l) := (contributed_cons q f' a l).symm

end Raft2pl.Lib
