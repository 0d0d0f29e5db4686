/- Files of fixed-size records: layouts of records as byte arrays, and the loop that reads them. -/

import Raft2pl.Lib.CString
import Mathlib.Data.BitVec
import Mathlib.Logic.Equiv.Fin.Basic

set_option autoImplicit false
set_option relaxedAutoImplicit false

namespace Raft2pl.Lib

universe u v

/-- The layout of a record: its bytes determine it, and every array of bytes is one. -/
abbrev Layout (β : Type u) (α : Type v) (size : Nat) := α ≃ (Fin size → β)

namespace Layout

def bits {k : Nat} (f : Fin k → BitVec 8) : List Bool :=
  List.ofFn fun j : Fin (8 * k) => (f ⟨j.val / 8, by omega⟩).getLsbD (j.val % 8)

private theorem getLsbD_bits {k : Nat} (f : Fin k → BitVec 8) {j : Nat} (inside : j < 8 * k) :
    ((BitVec.ofBoolListLE (bits f)).setWidth (8 * k)).getLsbD j =
      (f ⟨j / 8, by omega⟩).getLsbD (j % 8) := by
  rw [BitVec.getLsbD_setWidth, BitVec.getLsbD_ofBoolListLE, List.getD_eq_getElem?_getD]
  simp [bits, inside]

def word (k : Nat) : Layout (BitVec 8) (BitVec (8 * k)) k where
  toFun w := fun i => w.extractLsb' (8 * i.val) 8
  invFun f := (BitVec.ofBoolListLE (bits f)).setWidth (8 * k)
  left_inv w := by
    apply BitVec.eq_of_getLsbD_eq
    intro j small
    have split : 8 * (j / 8) + j % 8 = j := Nat.div_add_mod j 8
    rw [getLsbD_bits _ small, BitVec.getLsbD_extractLsb', split]
    simp [Nat.mod_lt]
  right_inv f := by
    funext i
    apply BitVec.eq_of_getLsbD_eq
    intro j small
    have byte : (8 * i.val + j) / 8 = i.val := by omega
    have bit : (8 * i.val + j) % 8 = j := by omega
    have inside : 8 * i.val + j < 8 * k := by omega
    rw [BitVec.getLsbD_extractLsb', getLsbD_bits _ inside]
    simp [small, byte, bit]

section Compound

variable {β : Type u} {α α' : Type v} {m n : Nat}

def pair (first : Layout β α m) (second : Layout β α' n) : Layout β (α × α') (m + n) :=
  (first.prodCongr second).trans (Fin.appendEquiv m n)

def array (k : Nat) (element : Layout β α n) : Layout β (Fin k → α) (k * n) :=
  (Equiv.arrowCongr (Equiv.refl _) element).trans
    ((Equiv.curry (Fin k) (Fin n) β).symm.trans
      (Equiv.arrowCongr finProdFinEquiv (Equiv.refl _)))

end Compound

end Layout

section ReadLoop

variable {β : Type u} {size : Nat}

/-- Reads of up to `size` bytes into a buffer until a read returns nothing. Before the read of
round `i` the buffer holds `stack i`; a shorter read leaves the rest of it in place. -/
def readRecords [NeZero size] (stack : Nat → Fin size → β) (round : Nat) (file : List β) :
    List (Fin size → β) :=
  if file.length = 0 then []
  else copyOver (file.take size) (stack round) :: readRecords stack (round + 1) (file.drop size)
termination_by file.length
decreasing_by
  have positive := Nat.pos_of_neZero size
  rw [List.length_drop]
  omega

theorem copyOver_ofFn (r old : Fin size → β) : copyOver (List.ofFn r) old = r := by
  funext i
  simp [copyOver]

variable [NeZero size] {stack : Nat → Fin size → β} {round : Nat} {file : List β}

@[simp] theorem readRecords_nil : readRecords stack round ([] : List β) = [] := by
  rw [readRecords]
  rfl

private theorem readRecords_of_ne_nil (more : file ≠ []) : readRecords stack round file =
    copyOver (file.take size) (stack round) :: readRecords stack (round + 1) (file.drop size) := by
  rw [readRecords, if_neg (by simpa using more)]

private theorem readRecords_record (r : Fin size → β) (rest : List β) :
    readRecords stack round (List.ofFn r ++ rest) = r :: readRecords stack (round + 1) rest := by
  have whole : (List.ofFn r).length = size := List.length_ofFn
  have more : List.ofFn r ++ rest ≠ [] := by
    intro empty
    have none := congrArg List.length empty
    rw [List.length_append, whole] at none
    exact NeZero.ne size (by simpa using (Nat.add_eq_zero_iff.mp none).1)
  rw [readRecords_of_ne_nil more, List.take_left' whole, List.drop_left' whole, copyOver_ofFn]

/-- Whole records come back as they were written, and the loop goes on with what follows them. -/
theorem readRecords_records (rs : List (Fin size → β)) (rest : List β) (round : Nat) :
    readRecords stack round (rs.flatMap List.ofFn ++ rest) =
      rs ++ readRecords stack (round + rs.length) rest := by
  induction rs generalizing round with
  | nil => simp
  | cons r rs ih =>
    rw [List.flatMap_cons, List.append_assoc, readRecords_record, ih, List.length_cons,
      Nat.add_right_comm, Nat.add_assoc, List.cons_append]

/-- A part of a record is taken for a record, filled up with what the buffer held. -/
theorem readRecords_part {part : List β} (torn : part ≠ []) (short : part.length ≤ size) :
    readRecords stack round part = [copyOver part (stack round)] := by
  rw [readRecords_of_ne_nil torn, List.take_of_length_le short, List.drop_eq_nil_of_le short,
    readRecords_nil]

theorem length_readRecords (file : List β) (round : Nat) :
    (readRecords stack round file).length = (file.length + size - 1) / size := by
  have positive : 0 < size := Nat.pos_of_neZero size
  induction steps : file.length using Nat.strong_induction_on generalizing file round with
  | _ n ih =>
    by_cases empty : file = []
    · subst empty
      have none : n = 0 := by simpa using steps.symm
      subst none
      rw [readRecords_nil, Nat.div_eq_of_lt (by omega)]
      rfl
    · have positive' : 0 < n := by
        rw [← steps]
        exact List.length_pos_iff.mpr empty
      have fewer : (file.drop size).length = n - size := by rw [List.length_drop, steps]
      rw [readRecords_of_ne_nil empty, List.length_cons,
        ih (n - size) (by omega) (file.drop size) (round + 1) fewer]
      by_cases last : n ≤ size
      · have one : (n + size - 1) / size = 1 := by
          rw [Nat.div_eq_iff positive]
          omega
        have zero : (n - size + size - 1) / size = 0 := Nat.div_eq_of_lt (by omega)
        rw [one, zero]
      · have shift : n + size - 1 = n - size + size - 1 + size := by omega
        rw [shift, Nat.add_div_right _ positive]

end ReadLoop

end Raft2pl.Lib
