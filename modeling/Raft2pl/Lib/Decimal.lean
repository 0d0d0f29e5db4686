/- Decimal numbers as a stream prints them, and that the conversions of a scan read them back. -/

import Raft2pl.Lib.Text

set_option autoImplicit false
set_option relaxedAutoImplicit false

namespace Raft2pl.Lib

def showNat (n : Nat) : List (BitVec 8) :=
  if n < 10 then [.ofNat 8 (48 + n)] else showNat (n / 10) ++ [.ofNat 8 (48 + n % 10)]

def showInt (i : Int) : List (BitVec 8) :=
  if i < 0 then 45 :: showNat i.natAbs else showNat i.natAbs

def Stops (s : List (BitVec 8)) : Prop := ∀ c ∈ s.head?, isDigit c = false

private theorem toNat_digit {d : Nat} (small : d < 10) :
    (BitVec.ofNat 8 (48 + d)).toNat = 48 + d := by
  rw [BitVec.toNat_ofNat, Nat.mod_eq_of_lt (by omega)]

private theorem isDigit_digit {d : Nat} (small : d < 10) : isDigit (.ofNat 8 (48 + d)) = true := by
  rw [isDigit, toNat_digit small, Bool.and_eq_true, decide_eq_true_eq, decide_eq_true_eq]
  omega

private theorem decimal_append (digits : List (BitVec 8)) (c : BitVec 8) :
    decimal (digits ++ [c]) = 10 * decimal digits + (c.toNat - 48) := by
  rw [decimal, List.foldl_append, decimal]
  rfl

theorem showNat_digits (n : Nat) : ∀ c ∈ showNat n, isDigit c = true := by
  induction n using showNat.induct with
  | case1 n small =>
    rw [showNat, if_pos small]
    intro c member
    rw [List.mem_singleton.mp member]
    exact isDigit_digit small
  | case2 n large ih =>
    rw [showNat, if_neg large]
    intro c member
    rcases List.mem_append.mp member with front | last
    · exact ih c front
    · rw [List.mem_singleton.mp last]
      exact isDigit_digit (Nat.mod_lt n (by decide))

private theorem showNat_ne_nil (n : Nat) : showNat n ≠ [] := by
  rw [showNat]
  split <;> simp

private theorem decimal_showNat (n : Nat) : decimal (showNat n) = n := by
  induction n using showNat.induct with
  | case1 n small =>
    rw [showNat, if_pos small, ← List.nil_append [BitVec.ofNat 8 (48 + n)], decimal_append,
      toNat_digit small]
    simp [decimal]
  | case2 n large ih =>
    rw [showNat, if_neg large, decimal_append, ih, toNat_digit (Nat.mod_lt n (by decide))]
    omega

theorem length_showNat {n k : Nat} (small : n < 10 ^ (k + 1)) : (showNat n).length ≤ k + 1 := by
  induction k generalizing n with
  | zero =>
    rw [showNat, if_pos (by simpa using small)]
    simp
  | succ k ih =>
    rw [showNat]
    split
    · simp
    · rw [List.length_append, List.length_singleton]
      have shorter : n / 10 < 10 ^ (k + 1) := by
        rw [Nat.div_lt_iff_lt_mul (by decide)]
        rwa [← Nat.pow_succ]
      exact Nat.succ_le_succ (ih shorter)

private theorem takeWhile_digits {digits rest : List (BitVec 8)}
    (all : ∀ c ∈ digits, isDigit c = true)
    (stops : Stops rest) : (digits ++ rest).takeWhile isDigit = digits ∧
      (digits ++ rest).dropWhile isDigit = rest := by
  rw [List.takeWhile_append_of_pos all, List.dropWhile_append_of_pos all]
  cases rest with
  | nil => simp
  | cons c rest =>
    have other : isDigit c = false := stops c rfl
    simp [other]

/-- A printed number is read back, behind white space and up to where its digits stop. -/
theorem scanInt_showInt {blanks rest : List (BitVec 8)} (i : Int)
    (white : ∀ c ∈ blanks, isSpace c = true) (stops : Stops rest) :
    scanInt (blanks ++ (showInt i ++ rest)) = some (i, rest) := by
  obtain ⟨c, digits, first⟩ := List.exists_cons_of_ne_nil (showNat_ne_nil i.natAbs)
  have digit : isDigit c = true := showNat_digits i.natAbs c (by rw [first]; exact List.mem_cons_self)
  obtain ⟨taken, dropped⟩ := takeWhile_digits (showNat_digits i.natAbs) stops
  by_cases minus : i < 0
  · have signed : scanSign ((blanks ++ (showInt i ++ rest)).dropWhile isSpace) =
        (true, showNat i.natAbs ++ rest) := by
      rw [List.dropWhile_append_of_pos white, showInt, if_pos minus, List.cons_append,
        List.dropWhile_cons_of_neg (by decide)]
      rfl
    simp only [scanInt, signed, taken, dropped, showNat_ne_nil, if_false, if_true, decimal_showNat]
    rw [show -(i.natAbs : Int) = i by omega]
  · have unsigned : scanSign ((blanks ++ (showInt i ++ rest)).dropWhile isSpace) =
        (false, showNat i.natAbs ++ rest) := by
      rw [List.dropWhile_append_of_pos white, showInt, if_neg minus, first, List.cons_append,
        List.dropWhile_cons_of_neg (by simp [isSpace_of_isDigit digit]), scanSign,
        if_neg (ne_of_isDigit digit (by decide)), if_neg (ne_of_isDigit digit (by decide))]
    simp only [scanInt, unsigned, taken, dropped, showNat_ne_nil, if_false, Bool.false_eq_true,
      decimal_showNat]
    rw [show (i.natAbs : Int) = i by omega]

end Raft2pl.Lib
