/- Versioned cells, and optimistic reads that a later look at the version confirms. -/

import Mathlib.Order.Basic
import Mathlib.Data.List.Basic

set_option autoImplicit false
set_option relaxedAutoImplicit false

namespace Raft2pl.Lib

universe u v

/-- A cell: its version, whether a writer has changed the value without a new version yet, and the
value. -/
structure Cell (ν : Type v) (α : Type u) where
  ver : ν
  dirty : Prop
  val : α

namespace Cell

variable {ν : Type v} [PartialOrder ν] {α : Type u} {c d : Cell ν α} {n : ν} {v : α}

/-- What may happen to a cell: versions grow, and a cell that is clean under the same version was
clean before, with the same value. -/
def Advances (c d : Cell ν α) : Prop :=
  c.ver ≤ d.ver ∧ (d.ver = c.ver → ¬ d.dirty → ¬ c.dirty ∧ d.val = c.val)

/-- The value `v` was copied not before version `n`: if the cell is clean and still has that
version, `v` is its value. -/
def Snapshot (c : Cell ν α) (n : ν) (v : α) : Prop :=
  n ≤ c.ver ∧ (c.ver = n → ¬ c.dirty → c.val = v)

theorem Advances.refl (c : Cell ν α) : Advances c c :=
  ⟨le_refl _, fun _ clean => ⟨clean, rfl⟩⟩

theorem Advances.write (same : d.ver = c.ver) (dirty : d.dirty) : Advances c d := by
  refine ⟨le_of_eq same.symm, ?_⟩
  intro _ clean
  exact absurd dirty clean

theorem Advances.publish (newer : c.ver < d.ver) : Advances c d := by
  refine ⟨le_of_lt newer, ?_⟩
  intro same
  exact absurd same (ne_of_gt newer)

theorem Advances.keep (ver : d.ver = c.ver) (dirty : c.dirty → d.dirty) (val : d.val = c.val) :
    Advances c d := by
  refine ⟨le_of_eq ver.symm, ?_⟩
  intro _ clean
  exact ⟨fun before => clean (dirty before), val⟩

theorem Snapshot.take (seen : n ≤ c.ver) : Snapshot c n c.val :=
  ⟨seen, fun _ _ => rfl⟩

/-- Nothing that happens to a cell spoils a snapshot. -/
theorem Snapshot.advance (snap : Snapshot c n v) (moved : Advances c d) : Snapshot d n v := by
  obtain ⟨seen, value⟩ := snap
  obtain ⟨grown, clean⟩ := moved
  refine ⟨le_trans seen grown, ?_⟩
  intro still quiet
  have old : c.ver = n := le_antisymm (le_of_le_of_eq grown still) seen
  obtain ⟨before, same⟩ := clean (still.trans old.symm) quiet
  rw [same]
  exact value old before

/-- The second look: the copy is the value that the cell has now. -/
theorem Snapshot.current (snap : Snapshot c n v) (still : c.ver = n) (clean : ¬ c.dirty) :
    c.val = v :=
  snap.2 still clean

end Cell

/-- A history of versions that starts with `n`, goes on with `ns` and has not passed `top`. -/
structure Ascends {ν : Type v} [Preorder ν] (n : ν) (ns : List ν) (top : ν) : Prop where
  rises : (n :: ns).Pairwise (· < ·)
  below : ∀ m ∈ n :: ns, m ≤ top

namespace Ascends

variable {ν : Type v} [Preorder ν] {n m top top' : ν} {ns : List ν}

theorem nil (n : ν) : Ascends n [] n where
  rises := List.pairwise_singleton _ _
  below := fun _ member => le_of_eq (List.mem_singleton.mp member)

theorem push (ascends : Ascends n ns top) (newer : top < m) : Ascends n (ns ++ [m]) m := by
  refine ⟨?_, fun l member => ?_⟩
  · rw [← List.cons_append, List.pairwise_append]
    refine ⟨ascends.rises, List.pairwise_singleton _ _, fun l old k new => ?_⟩
    rw [List.mem_singleton.mp new]
    exact lt_of_le_of_lt (ascends.below l old) newer
  · rw [← List.cons_append, List.mem_append] at member
    rcases member with old | new
    · exact le_of_lt (lt_of_le_of_lt (ascends.below l old) newer)
    · exact le_of_eq (List.mem_singleton.mp new)

end Ascends

end Raft2pl.Lib
