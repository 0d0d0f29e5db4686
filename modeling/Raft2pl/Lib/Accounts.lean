/- Accounts over a commutative group, and moves of an amount between two of them. -/

import Mathlib.Algebra.BigOperators.Group.Finset.Piecewise
import Mathlib.Algebra.BigOperators.Group.List.Basic
import Mathlib.Data.List.Perm.Basic
import Mathlib.Tactic.Abel

set_option autoImplicit false
set_option relaxedAutoImplicit false

namespace Raft2pl.Lib

universe u v

structure Move (κ : Type u) (M : Type v) where
  src : κ
  dst : κ
  amount : M

namespace Move

variable {κ : Type u} [DecidableEq κ] {M : Type v} [AddCommGroup M]

def delta (m : Move κ M) (k : κ) : M :=
  (if m.dst = k then m.amount else 0) - (if m.src = k then m.amount else 0)

def apply (b : κ → M) (m : Move κ M) : κ → M := fun k => b k + m.delta k

/-- Moves commute: after any sequence of them an account holds its first balance plus the sum of
what they do to it. -/
theorem foldl_apply (ms : List (Move κ M)) (b : κ → M) (k : κ) :
    ms.foldl apply b k = b k + (ms.map (delta · k)).sum := by
  induction ms generalizing b with
  | nil => simp
  | cons m ms ih => simp [ih, apply, add_assoc]

private theorem sum_delta (m : Move κ M) (S : Finset κ) (src : m.src ∈ S) (dst : m.dst ∈ S) :
    ∑ k ∈ S, m.delta k = 0 := by
  simp [delta, Finset.sum_sub_distrib, Finset.sum_ite_eq, src, dst]

theorem sum_foldl_apply (ms : List (Move κ M)) (b : κ → M) (S : Finset κ)
    (inside : ∀ m ∈ ms, m.src ∈ S ∧ m.dst ∈ S) :
    ∑ k ∈ S, ms.foldl apply b k = ∑ k ∈ S, b k := by
  induction ms generalizing b with
  | nil => rfl
  | cons m ms ih =>
    have here := inside m List.mem_cons_self
    rw [List.foldl_cons, ih _ (fun n hn => inside n (List.mem_cons_of_mem m hn))]
    simp only [apply, Finset.sum_add_distrib, sum_delta m S here.1 here.2, add_zero]

theorem update_update_eq_apply (m : Move κ M) (apart : m.src ≠ m.dst) (b : κ → M) :
    Function.update (Function.update b m.src (b m.src - m.amount)) m.dst
      (b m.dst + m.amount) = apply b m := by
  funext k
  by_cases dst : k = m.dst
  · subst dst
    simp [apply, delta, apart]
  · by_cases src : k = m.src
    · subst src
      simp [apply, delta, dst, Ne.symm dst, sub_eq_add_neg]
    · simp [apply, delta, dst, src, Ne.symm dst, Ne.symm src]

end Move

theorem sum_ite_of_mem_iff {α : Type u} {M : Type v} [AddCommMonoid M] {as bs : List α}
    (once : as.Nodup) (once' : bs.Nodup) (kind : α → Prop) [DecidablePred kind] (amount : α → M)
    (same : ∀ a, kind a → (a ∈ as ↔ a ∈ bs)) :
    (as.map (fun a => if kind a then amount a else 0)).sum =
      (bs.map (fun a => if kind a then amount a else 0)).sum := by
  have perm : (as.filter (fun a => decide (kind a))).Perm (bs.filter (fun a => decide (kind a))) := by
    refine (List.perm_ext_iff_of_nodup (once.filter _) (once'.filter _)).mpr (fun a => ?_)
    simp only [List.mem_filter, decide_eq_true_eq]
    exact ⟨fun ⟨member, is⟩ => ⟨(same a is).mp member, is⟩,
      fun ⟨member, is⟩ => ⟨(same a is).mpr member, is⟩⟩
  have filtered : ∀ cs : List α, (cs.map (fun a => if kind a then amount a else 0)).sum =
      ((cs.filter (fun a => decide (kind a))).map amount).sum := by
    intro cs
    induction cs with
    | nil => rfl
    | cons c cs ih => by_cases is : kind c <;> simp [is, ih]
  rw [filtered, filtered]
  exact (perm.map amount).sum_eq

end Raft2pl.Lib
