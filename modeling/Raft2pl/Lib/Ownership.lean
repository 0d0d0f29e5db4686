/- Exclusive ownership: every held resource has exactly one owner, and owners hold what they own. -/

import Mathlib.Algebra.BigOperators.Group.Finset.Basic
import Mathlib.Data.Multiset.AddSub
import Mathlib.Algebra.Order.Group.Multiset
import Mathlib.Algebra.Order.BigOperators.Group.Finset
import Mathlib.Tactic.Abel

set_option autoImplicit false
set_option relaxedAutoImplicit false

namespace Raft2pl.Lib

universe u v

variable {ι : Type u} [Fintype ι] {κ : Type v}

/-- All owned resources, each as often as it is owned. -/
def pool (own : ι → Multiset κ) : Multiset κ := ∑ i, own i

/-- The owners' resources are pairwise disjoint, free of repetitions, and exactly the held ones. -/
def Exclusive [DecidableEq κ] (own : ι → Multiset κ) (held : κ → Bool) : Prop :=
  ∀ k, (pool own).count k = if held k then 1 else 0

section Pool

variable {own own' : ι → Multiset κ}

def OnlyAt (i : ι) (own own' : ι → Multiset κ) : Prop := ∀ j, j ≠ i → own' j = own j

theorem pool_balance [DecidableEq ι] (i : ι) (others : OnlyAt i own own') :
    pool own' + own i = pool own + own' i := by
  have rest : ∑ j ∈ Finset.univ.erase i, own' j = ∑ j ∈ Finset.univ.erase i, own j :=
    Finset.sum_congr rfl (fun j hj => others j (Finset.ne_of_mem_erase hj))
  unfold pool
  rw [← Finset.add_sum_erase _ own (Finset.mem_univ i),
    ← Finset.add_sum_erase _ own' (Finset.mem_univ i), rest]
  abel

theorem own_le_pool (own : ι → Multiset κ) (i : ι) : own i ≤ pool own :=
  Finset.single_le_sum (fun _ _ => Multiset.zero_le _) (Finset.mem_univ i)

private theorem pair_le_pool [DecidableEq ι] (own : ι → Multiset κ) {i j : ι} (ne : i ≠ j) :
    own i + own j ≤ pool own := by
  have two : ∑ k ∈ {i, j}, own k = own i + own j := Finset.sum_pair ne
  rw [← two]
  exact Finset.sum_le_sum_of_subset (Finset.subset_univ _)

theorem mem_pool {k : κ} : k ∈ pool own ↔ ∃ i, k ∈ own i := by
  simp [pool, Multiset.mem_sum]

theorem apart_of_nodup [DecidableEq ι] (once : (pool own).Nodup) {i j : ι} (ne : i ≠ j) {k : κ}
    (mem : k ∈ own i) : k ∉ own j := by
  have pair := Multiset.nodup_of_le (pair_le_pool own ne) once
  exact fun other => Multiset.disjoint_left.mp (Multiset.nodup_add.mp pair).2.2 mem other

end Pool

namespace Exclusive

variable [DecidableEq κ] {own own' : ι → Multiset κ} {held held' : κ → Bool}

theorem nothing (free : ∀ k, held k = false) (none : ∀ i, own i = 0) : Exclusive own held := by
  intro k
  have empty : pool own = 0 := Finset.sum_eq_zero (fun i _ => none i)
  simp [empty, free k]

theorem mem_iff (ex : Exclusive own held) (k : κ) : k ∈ pool own ↔ held k = true := by
  rw [← Multiset.count_pos, ex k]
  cases held k <;> simp

theorem nodup (ex : Exclusive own held) : (pool own).Nodup := by
  rw [Multiset.nodup_iff_count_le_one]
  intro k
  rw [ex k]
  split <;> omega

theorem held_of_mem (ex : Exclusive own held) {i : ι} {k : κ} (mem : k ∈ own i) :
    held k = true :=
  (ex.mem_iff k).mp (Multiset.mem_of_le (own_le_pool own i) mem)

theorem own_nodup (ex : Exclusive own held) (i : ι) : (own i).Nodup :=
  Multiset.nodup_of_le (own_le_pool own i) ex.nodup

theorem disjoint [DecidableEq ι] (ex : Exclusive own held) {i j : ι} (ne : i ≠ j) {k : κ}
    (mem : k ∈ own i) : k ∉ own j :=
  apart_of_nodup ex.nodup ne mem

/-- A free resource goes to one owner. -/
theorem acquire [DecidableEq ι] (ex : Exclusive own held) {i : ι} {k : κ} (free : held k = false)
    (others : OnlyAt i own own') (gain : own' i = own i + {k})
    (lock : held' = Function.update held k true) : Exclusive own' held' := by
  intro q
  have balance := congrArg (Multiset.count q) (pool_balance i others)
  rw [gain, Multiset.count_add, Multiset.count_add, Multiset.count_add, ex q] at balance
  subst lock
  by_cases eq : q = k
  · subst eq
    simp only [free, Multiset.count_singleton_self, if_true, Function.update_self,
      Bool.false_eq_true, if_false] at balance ⊢
    omega
  · simp [eq] at balance ⊢
    omega

/-- An owner gives up one of its resources. -/
theorem release [DecidableEq ι] (ex : Exclusive own held) {i : ι} {k : κ}
    (others : OnlyAt i own own') (loss : own i = own' i + {k})
    (unlock : held' = Function.update held k false) : Exclusive own' held' := by
  have was : held k = true := ex.held_of_mem (i := i) (by simp [loss])
  intro q
  have balance := congrArg (Multiset.count q) (pool_balance i others)
  rw [loss, Multiset.count_add, Multiset.count_add, Multiset.count_add, ex q] at balance
  subst unlock
  by_cases eq : q = k
  · subst eq
    simp only [was, Multiset.count_singleton_self, if_true, Function.update_self,
      Bool.false_eq_true, if_false] at balance ⊢
    omega
  · simp [eq] at balance ⊢
    omega

theorem rearrange [DecidableEq ι] (ex : Exclusive own held) (i : ι) (others : OnlyAt i own own')
    (same : own' i = own i) (locks : held' = held) : Exclusive own' held' := by
  have all : own' = own := funext fun j => by
    by_cases eq : j = i
    · rw [eq, same]
    · exact others j eq
  rw [all, locks]
  exact ex

/-- One owner hands some resources over to another. -/
theorem transfer [DecidableEq ι] (ex : Exclusive own held) {i j : ι} (ne : i ≠ j) {m : Multiset κ}
    (others : ∀ l, l ≠ i → l ≠ j → own' l = own l)
    (giver : own i = own' i + m) (taker : own' j = own j + m) : Exclusive own' held := by
  let mid : ι → Multiset κ := Function.update own i (own' i)
  have first : OnlyAt i own mid := fun l hl => Function.update_of_ne hl _ _
  have second : OnlyAt j mid own' := by
    intro l hl
    by_cases eq : l = i
    · subst eq
      simp [mid]
    · simp [mid, eq, others l eq hl]
  have b1 := pool_balance i first
  have b2 := pool_balance j second
  have midI : mid i = own' i := Function.update_self _ _ _
  have midJ : mid j = own j := Function.update_of_ne ne.symm _ _
  rw [midI, giver] at b1
  rw [midJ, taker] at b2
  have total : pool own' + (own j + own' i + m) = pool own + (own j + own' i + m) := by
    calc pool own' + (own j + own' i + m) = (pool own' + own j) + own' i + m := by abel
      _ = (pool mid + (own j + m)) + own' i + m := by rw [b2]
      _ = (pool mid + (own' i + m)) + (own j + m) := by abel
      _ = (pool own + own' i) + (own j + m) := by rw [b1]
      _ = pool own + (own j + own' i + m) := by abel
  intro k
  rw [add_right_cancel total]
  exact ex k

section Step

variable [DecidableEq ι] {i : ι} (ex : Exclusive own held) (ex' : Exclusive own' held')
  (others : OnlyAt i own own') {k : κ}

include ex ex' others

theorem gained (free : held k = false) (now : held' k = true) : k ∈ own' i := by
  obtain ⟨j, theirs⟩ := mem_pool.mp ((ex'.mem_iff k).mpr now)
  by_cases eq : j = i
  · rw [← eq]
    exact theirs
  · rw [others j eq] at theirs
    have before := ex.held_of_mem theirs
    rw [free] at before
    exact absurd before Bool.false_ne_true

private theorem mem_iff_of_held (before : held k = true) (now : held' k = true) (j : ι) :
    k ∈ own' j ↔ k ∈ own j := by
  by_cases eq : j = i
  · subst eq
    constructor
    · intro mine
      obtain ⟨l, theirs⟩ := mem_pool.mp ((ex.mem_iff k).mpr before)
      by_cases same : l = j
      · rw [← same]
        exact theirs
      · rw [← others l same] at theirs
        exact absurd theirs (ex'.disjoint (Ne.symm same) mine)
    · intro mine
      obtain ⟨l, theirs⟩ := mem_pool.mp ((ex'.mem_iff k).mpr now)
      by_cases same : l = j
      · rw [← same]
        exact theirs
      · rw [others l same] at theirs
        exact absurd theirs (ex.disjoint (Ne.symm same) mine)
  · rw [others j eq]

end Step

end Exclusive

/-- An observer's note of the owners after a step: what is held only now is held by `i`. -/
def track (held held' : κ → Bool) (i : Option ι) (owner : κ → Option ι) (k : κ) : Option ι :=
  if held' k then if held k then owner k else i else none

def Tracks (own : ι → Multiset κ) (owner : κ → Option ι) : Prop :=
  ∀ k i, owner k = some i ↔ k ∈ own i

namespace Tracks

variable [DecidableEq κ] {own own' : ι → Multiset κ} {held held' : κ → Bool} {owner : κ → Option ι}

theorem step [DecidableEq ι] {i : ι} (tracks : Tracks own owner) (ex : Exclusive own held)
    (ex' : Exclusive own' held') (others : OnlyAt i own own') :
    Tracks own' (track held held' (some i) owner) := by
  intro k j
  unfold track
  by_cases now : held' k = true
  · rw [if_pos now]
    by_cases before : held k = true
    · rw [if_pos before, tracks k j, ex.mem_iff_of_held ex' others before now j]
    · have mine := ex.gained ex' others (by simpa using before) now
      rw [if_neg before, Option.some.injEq]
      constructor
      · rintro rfl
        exact mine
      · intro theirs
        by_contra apart
        exact ex'.disjoint apart mine theirs
  · rw [if_neg now]
    constructor
    · intro none
      cases none
    · intro theirs
      exact absurd (ex'.held_of_mem theirs) now

theorem idle (tracks : Tracks own owner) (ex : Exclusive own held) (i : Option ι) :
    Tracks own (track held held i owner) := by
  intro k j
  unfold track
  by_cases now : held k = true
  · rw [if_pos now, if_pos now]
    exact tracks k j
  · rw [if_neg now]
    constructor
    · intro none
      cases none
    · intro theirs
      exact absurd (ex.held_of_mem theirs) now

end Tracks

end Raft2pl.Lib
