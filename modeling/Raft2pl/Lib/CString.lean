/- Zero-terminated strings: arrays read up to their first zero, and copies of such strings. -/

import Mathlib.Data.List.OfFn
import Mathlib.Data.List.TakeWhile

set_option autoImplicit false
set_option relaxedAutoImplicit false

namespace Raft2pl.Lib

universe u

variable {β : Type u} [DecidableEq β] [Zero β] {n : Nat}

/-- The string that starts at an array. Where the array holds no zero, it goes on with what lies
behind the array. -/
def cString (a : Fin n → β) (beyond : List β) : List β :=
  (List.ofFn a ++ beyond).takeWhile (fun b => decide (b ≠ 0))

def strlen (a : Fin n → β) : Nat := ((List.ofFn a).takeWhile (fun b => decide (b ≠ 0))).length

/-- An array after a string was copied to its beginning. -/
def copyOver (src : List β) (old : Fin n → β) : Fin n → β := fun i => (src[i.val]?).getD (old i)

variable {a old : Fin n → β} {beyond : List β}

theorem strlen_le (a : Fin n → β) : strlen a ≤ n := by
  have pre := List.takeWhile_prefix (fun b => decide (b ≠ 0)) (l := List.ofFn a)
  simpa [strlen] using pre.length_le

private theorem cString_eq (a : Fin n → β) (beyond : List β) : cString a beyond =
    if strlen a = n then List.ofFn a ++ beyond.takeWhile (fun b => decide (b ≠ 0))
    else (List.ofFn a).takeWhile (fun b => decide (b ≠ 0)) := by
  simp [cString, strlen, List.takeWhile_append]

theorem length_cString (beyond : List β) (inside : strlen a < n) :
    (cString a beyond).length = strlen a := by
  rw [cString_eq, if_neg (by omega)]
  rfl

theorem cString_of_full (beyond : List β) (full : strlen a = n) :
    cString a beyond = List.ofFn a ++ beyond.takeWhile (fun b => decide (b ≠ 0)) := by
  rw [cString_eq, if_pos full]

private theorem getElem?_cString {i : Fin n} (before : i.val < strlen a) :
    (cString a beyond)[i.val]? = some (a i) := by
  rw [cString_eq]
  split
  · rw [List.getElem?_append_left (by simp)]
    simp
  · have pre := List.takeWhile_prefix (fun b => decide (b ≠ 0)) (l := List.ofFn a)
    have same := List.prefix_iff_getElem?.mp pre i.val before
    rw [List.getElem?_eq_getElem before, ← same]
    simp

private theorem copyOver_cString (inside : strlen a < n) (i : Fin n) :
    copyOver (cString a beyond) old i = if i.val < strlen a then a i else old i := by
  unfold copyOver
  split
  · rename_i before
    rw [getElem?_cString before]
    rfl
  · rename_i after
    have out : (cString a beyond)[i.val]? = none := by
      rw [List.getElem?_eq_none_iff, length_cString beyond inside]
      omega
    rw [out]
    rfl

theorem copyOver_cString_eq (inside : strlen a < n) :
    copyOver (cString a beyond) old = a ↔ ∀ i : Fin n, strlen a ≤ i.val → old i = a i := by
  constructor
  · intro all i after
    have here := congrFun all i
    rwa [copyOver_cString inside, if_neg (by omega)] at here
  · intro rest
    funext i
    rw [copyOver_cString inside]
    split
    · rfl
    · exact rest i (by omega)

theorem strlen_eq_zero {a : Fin (n + 1) → β} : strlen a = 0 ↔ a ⟨0, n.succ_pos⟩ = 0 := by
  rw [strlen, List.ofFn_succ, List.takeWhile_cons]
  split <;> simp_all

end Raft2pl.Lib
