/- tuple.hh and silo_op_element.hh: versioned tuples with four-byte values, and what is written. -/

import Raft2pl.Header
import Raft2pl.Lib.CString
import Mathlib.Tactic.FinCases

set_option autoImplicit false
set_option relaxedAutoImplicit false

namespace Raft2pl.Silo

open Lib (cString strlen copyOver)

abbrev Byte := BitVec 8

/-- `char val_[VAL_SIZE]`, with the `VAL_SIZE` of the Makefile. -/
abbrev Val := Fin 4 → Byte

/-- The `int32_t amount` of the union that holds a `char val[VAL_SIZE]`, lowest byte first. -/
def amount (v : Val) : CInt := v 3 ++ v 2 ++ v 1 ++ v 0

def bytes (a : CInt) : Val := fun i => a.extractLsb' (8 * i.val) 8

private theorem getLsbD_amount (v : Val) (i : Fin 4) {j : Nat} (small : j < 8) :
    (amount v).getLsbD (8 * i.val + j) = (v i).getLsbD j := by
  fin_cases i <;> simp (disch := omega) only [amount, BitVec.getLsbD_append, if_pos, if_neg] <;>
    exact congrArg _ (by omega)

@[simp] theorem bytes_amount (v : Val) : bytes (amount v) = v := by
  funext i
  apply BitVec.eq_of_getLsbD_eq
  intro j small
  rw [bytes, BitVec.getLsbD_extractLsb', getLsbD_amount v i small]
  simp [small]

@[simp] theorem amount_bytes (a : CInt) : amount (bytes a) = a := by
  apply BitVec.eq_of_getLsbD_eq
  intro j small
  have split : j = 8 * (j / 8) + j % 8 := (Nat.div_add_mod j 8).symm
  have part := getLsbD_amount (bytes a) ⟨j / 8, by omega⟩ (Nat.mod_lt j (by decide : 0 < 8))
  simp only [← split] at part
  rw [part, bytes, BitVec.getLsbD_extractLsb', ← split]
  simp [Nat.mod_lt]

theorem amount_eq_iff {v : Val} {a : CInt} : amount v = a ↔ v = bytes a := by
  constructor
  · rintro rfl
    exact (bytes_amount v).symm
  · rintro rfl
    exact amount_bytes a

/-- `Tidword`. -/
structure Tidword where
  lock : Bool
  latest : Bool
  absent : Bool
  tid : BitVec 29
  epoch : BitVec 32
  deriving DecidableEq

namespace Tidword

def flags (t : Tidword) : Nat := t.lock.toNat + 2 * t.latest.toNat + 4 * t.absent.toNat

/-- The epoch and the tid as one number: the upper 61 bits of `obj_`. -/
def ver (t : Tidword) : Nat := t.epoch.toNat * 2 ^ 29 + t.tid.toNat

/-- `obj_`. -/
def obj (t : Tidword) : Nat := t.ver * 8 + t.flags

def zero : Tidword := ⟨false, false, false, 0, 0⟩

def max (a b : Tidword) : Tidword := if a.obj < b.obj then b else a

def incTid (t : Tidword) : Tidword := { t with tid := t.tid + 1 }

/-- `tid++` stays inside its 29 bits. -/
def roomy (t : Tidword) : Bool := t.tid.toNat + 1 < 2 ^ 29

variable {a b : Tidword}

theorem ver_eq_iff : a.ver = b.ver ↔ a.epoch = b.epoch ∧ a.tid = b.tid := by
  have left := a.tid.isLt
  have right := b.tid.isLt
  constructor
  · intro same
    unfold ver at same
    exact ⟨BitVec.eq_of_toNat_eq (by omega), BitVec.eq_of_toNat_eq (by omega)⟩
  · rintro ⟨epoch, tid⟩
    rw [ver, ver, epoch, tid]

private theorem flags_lt (t : Tidword) : t.flags < 8 := by
  unfold flags
  cases t.lock <;> cases t.latest <;> cases t.absent <;> decide

private theorem ver_le_of_obj (le : a.obj ≤ b.obj) : a.ver ≤ b.ver := by
  have low := flags_lt a
  have low' := flags_lt b
  unfold obj at le
  omega

theorem ver_le_max_left (a b : Tidword) : a.ver ≤ (max a b).ver := by
  unfold max
  split
  · exact ver_le_of_obj (by omega)
  · exact le_refl _

theorem ver_le_max_right (a b : Tidword) : b.ver ≤ (max a b).ver := by
  unfold max
  split
  · exact le_refl _
  · exact ver_le_of_obj (by omega)

theorem max_choice (a b : Tidword) : max a b = a ∨ max a b = b := by
  unfold max
  split
  · exact .inr rfl
  · exact .inl rfl

theorem ver_max (a b : Tidword) : (max a b).ver = Max.max a.ver b.ver := by
  have left := ver_le_max_left a b
  have right := ver_le_max_right a b
  rcases max_choice a b with eq | eq
  · rw [eq] at right ⊢
    exact (Nat.max_eq_left right).symm
  · rw [eq] at left ⊢
    exact (Nat.max_eq_right left).symm

theorem ver_incTid (roomy : a.roomy = true) : a.incTid.ver = a.ver + 1 := by
  unfold Tidword.roomy at roomy
  have small : a.tid.toNat + 1 < 2 ^ 29 := of_decide_eq_true roomy
  have next : (a.tid + 1).toNat = a.tid.toNat + 1 := by
    have one : (1 : BitVec 29).toNat = 1 := rfl
    rw [BitVec.toNat_add, one, Nat.mod_eq_of_lt small]
  rw [ver, ver, incTid, next]
  exact (Nat.add_assoc _ _ _).symm

end Tidword

/-- `Tuple`. -/
structure Tuple where
  tidword : Tidword
  val : Val
  deriving DecidableEq

/-- `Table`, addressed by `uint64_t` keys. -/
abbrev Table := BitVec 64 → Tuple

def keyOf (k : CInt) : BitVec 64 := k.signExtend 64

theorem keyOf_injective {k l : CInt} (same : keyOf k = keyOf l) : k = l := by
  have ints := congrArg BitVec.toInt same
  unfold keyOf at ints
  rw [BitVec.toInt_signExtend_of_le (by decide), BitVec.toInt_signExtend_of_le (by decide)] at ints
  exact BitVec.eq_of_toInt_eq ints

/-- `ReadElement`. -/
structure ReadElement where
  key : BitVec 64
  val : Val
  tidword : Tidword
  deriving DecidableEq

/-- `WriteElement`: `val` is the string of length `val_length_` behind `val_ptr_`. -/
structure WriteElement where
  key : BitVec 64
  val : List Byte
  deriving DecidableEq

/-- `write_val_`: the thread's number in decimal digits, filled up with zeroes. -/
def writeVal (thid : Nat) : Val :=
  copyOver ((Nat.toDigits 10 thid).map (fun c => BitVec.ofNat 8 c.toNat)) (fun _ => 0)

/-- The value of a tuple after the `memcpy` of `writePhase`, inside `val_`. -/
def WriteElement.copyTo (thid : Nat) (e : WriteElement) (old : Val) : Val :=
  if e.val.length = 0 then writeVal thid else copyOver e.val old

/-- The `memcpy` of `writePhase` goes on behind the end of `val_`. -/
def WriteElement.overruns (e : WriteElement) : Bool := decide (4 < e.val.length)

theorem writeVal_first (thid : Nat) : writeVal thid 0 ≠ 0 := by
  obtain ⟨c, rest, digits⟩ := List.exists_cons_of_ne_nil (Nat.toDigits_ne_nil (n := thid) (b := 10))
  have digit : c.isDigit = true := by
    refine Nat.isDigit_of_mem_toDigits (b := 10) (n := thid) (by decide) (by decide) ?_
    rw [digits]
    exact List.mem_cons_self
  obtain ⟨low, high⟩ : 48 ≤ c.toNat ∧ c.toNat ≤ 57 := by
    simpa [Char.isDigit, UInt32.le_iff_toNat_le] using digit
  intro zero
  have value := congrArg BitVec.toNat zero
  simp [writeVal, copyOver, digits] at value
  omega

end Raft2pl.Silo
