/- Text files: the lines of a file, the loop that reads them into a buffer, and the conversions of
decimal numbers at the beginning of a line. -/

import Mathlib.Data.BitVec
import Mathlib.Data.List.TakeWhile

set_option autoImplicit false
set_option relaxedAutoImplicit false

namespace Raft2pl.Lib

universe u

section Lines

variable {γ : Type u} [DecidableEq γ] (newline : γ)

def lines : List γ → List (List γ)
  | [] => []
  | c :: rest =>
      if c = newline then [] :: lines rest
      else match lines rest with
        | [] => [[c]]
        | l :: ls => (c :: l) :: ls

/-- The characters up to the next newline, which is taken as well, or up to the end of the file;
`none` where there are more than `room` of them. -/
def takeLine : Nat → List γ → Option (List γ × List γ)
  | _, [] => some ([], [])
  | room, c :: rest =>
      if c = newline then some ([], rest)
      else match room with
        | 0 => none
        | room + 1 => (takeLine room rest).map (fun (l, rest) => (c :: l, rest))

/-- `getline` into a buffer of `size` characters with its closing zero; `none` where it fails, at
the end of the file and at a line that is too long. -/
def getline (size : Nat) : List γ → Option (List γ × List γ)
  | [] => none
  | s => takeLine newline (size - 1) s

def readLines (size : Nat) : Nat → List γ → List (List γ)
  | 0, _ => []
  | fuel + 1, s => match getline newline size s with
    | none => []
    | some (l, rest) => l :: readLines size fuel rest

variable {newline}

private theorem lines_eq_nil {s : List γ} : lines newline s = [] ↔ s = [] := by
  cases s with
  | nil => simp [lines]
  | cons c rest =>
    simp only [lines, reduceCtorEq, iff_false]
    split
    · simp
    · split <;> simp

private theorem takeLine_eq {s l : List γ} {ls : List (List γ)} {room : Nat}
    (split : lines newline s = l :: ls) (fits : l.length ≤ room) :
    ∃ rest, takeLine newline room s = some (l, rest) ∧ lines newline rest = ls ∧
      rest.length < s.length := by
  induction s generalizing l room with
  | nil => simp [lines] at split
  | cons c rest ih =>
    by_cases sep : c = newline
    · simp only [lines, sep, if_true, List.cons.injEq] at split
      obtain ⟨rfl, rfl⟩ := split
      exact ⟨rest, by cases room <;> simp [takeLine, sep], rfl, Nat.lt_succ_self _⟩
    · simp only [lines, sep, if_false] at split
      cases behind : lines newline rest with
      | nil =>
        obtain rfl := lines_eq_nil.mp behind
        obtain ⟨rfl, rfl⟩ := List.cons.inj split
        obtain ⟨room, rfl⟩ : ∃ r, room = r + 1 := ⟨room - 1, by simp at fits; omega⟩
        exact ⟨[], by simp [takeLine, sep], rfl, by simp⟩
      | cons l' ls' =>
        rw [behind] at split
        obtain ⟨rfl, rfl⟩ := List.cons.inj split
        obtain ⟨room, rfl⟩ : ∃ r, room = r + 1 := ⟨room - 1, by simp at fits; omega⟩
        obtain ⟨rest', taken, left, shorter⟩ := ih behind (by simpa using fits)
        refine ⟨rest', by simp [takeLine, sep, taken], left, ?_⟩
        rw [List.length_cons]
        omega

/-- Where each line fits into the buffer the loop sees all of them. -/
theorem readLines_eq {size fuel : Nat} {s : List γ} (enough : s.length < fuel)
    (short : ∀ l ∈ lines newline s, l.length < size) :
    readLines newline size fuel s = lines newline s := by
  induction fuel generalizing s with
  | zero => omega
  | succ fuel ih =>
    cases all : lines newline s with
    | nil =>
      obtain rfl := lines_eq_nil.mp all
      rfl
    | cons l ls =>
      have fits := short l (by simp [all])
      obtain ⟨rest, taken, left, shorter⟩ := takeLine_eq all (show l.length ≤ size - 1 by omega)
      obtain ⟨c, s', rfl⟩ := List.exists_cons_of_length_pos (Nat.zero_lt_of_lt shorter)
      have behind := ih (s := rest) (by omega) (fun l' member => short l' (by
        rw [all]
        exact List.mem_cons_of_mem l (left ▸ member)))
      have got : getline newline size (c :: s') = some (l, rest) := taken
      simp only [readLines, got, behind, left]

private theorem lines_of_ne_nil {s : List γ} (more : s ≠ []) : lines newline s =
    s.takeWhile (fun c => decide (c ≠ newline)) ::
      match s.dropWhile (fun c => decide (c ≠ newline)) with
      | [] => []
      | _ :: rest => lines newline rest := by
  induction s with
  | nil => exact absurd rfl more
  | cons c rest ih =>
    by_cases sep : c = newline
    · simp [lines, sep]
    · cases rest with
      | nil => simp [lines, sep]
      | cons c' rest =>
        rw [lines, if_neg sep, ih (List.cons_ne_nil c' rest)]
        simp [sep]

theorem lines_of_not_mem {l : List γ} (free : newline ∉ l) (more : l ≠ []) :
    lines newline l = [l] := by
  have inside : ∀ c ∈ l, decide (c ≠ newline) = true := by
    intro c member
    rw [decide_eq_true_eq]
    rintro rfl
    exact free member
  rw [lines_of_ne_nil more, List.takeWhile_eq_self_iff.mpr inside,
    List.dropWhile_eq_nil_iff.mpr inside]

theorem lines_append {l rest : List γ} (free : newline ∉ l) :
    lines newline (l ++ newline :: rest) = l :: lines newline rest := by
  induction l with
  | nil => simp [lines]
  | cons c l ih =>
    have apart : c ≠ newline := fun same => free (same ▸ List.mem_cons_self)
    have behind := ih (fun member => free (List.mem_cons_of_mem c member))
    rw [List.cons_append, lines, if_neg apart, behind]

end Lines

section Stream

variable {γ : Type u} [DecidableEq γ] (delim : γ)

/-- An input stream: the characters that are left in it, and its `eofbit` and `failbit`. -/
structure IStream (γ : Type u) where
  rest : List γ
  eof : Bool
  fail : Bool
  deriving DecidableEq

namespace IStream

def opened (s : List γ) : IStream γ := ⟨s, false, false⟩

/-- `std::getline` into a string. At the end of the stream it leaves the string alone; a last line
without the delimiter is taken, and only the end bit is set. -/
def getline (is : IStream γ) (str : List γ) : IStream γ × List γ :=
  if is.eof || is.fail then ({ is with fail := true }, str)
  else match is.rest.dropWhile (fun c => decide (c ≠ delim)) with
    | [] => (⟨[], true, decide (is.rest = [])⟩, is.rest)
    | _ :: rest => (⟨rest, false, false⟩, is.rest.takeWhile (fun c => decide (c ≠ delim)))

def linesLeft (is : IStream γ) : List (List γ) :=
  if is.eof || is.fail then [] else lines delim is.rest

def left (is : IStream γ) : Nat := if is.eof || is.fail then 0 else is.rest.length + 1

variable {delim} {is : IStream γ} {l : List γ} {ls : List (List γ)}

@[simp] theorem linesLeft_opened (s : List γ) : (opened s).linesLeft delim = lines delim s := rfl

theorem getline_cons (str : List γ) (more : is.linesLeft delim = l :: ls) :
    (is.getline delim str).2 = l ∧ (is.getline delim str).1.fail = false ∧
      (is.getline delim str).1.linesLeft delim = ls := by
  by_cases ended : (is.eof || is.fail) = true
  · simp [linesLeft, ended] at more
  · have some' : is.rest ≠ [] := by
      intro none
      simp [linesLeft, ended, none, lines] at more
    simp only [linesLeft, ended, Bool.false_eq_true, if_false, lines_of_ne_nil some',
      List.cons.injEq] at more
    obtain ⟨rfl, rfl⟩ := more
    cases behind : is.rest.dropWhile (fun c => decide (c ≠ delim)) with
    | nil =>
      have whole := List.takeWhile_append_dropWhile (p := fun c => decide (c ≠ delim)) (l := is.rest)
      rw [behind, List.append_nil] at whole
      simp only [getline, ended, Bool.false_eq_true, if_false, behind, whole, some', decide_false,
        linesLeft, Bool.true_or, if_true, and_self]
    | cons c rest =>
      simp only [getline, ended, Bool.false_eq_true, if_false, behind, linesLeft, Bool.or_self,
        and_self]

theorem getline_nil (str : List γ) (none : is.linesLeft delim = []) :
    (is.getline delim str).1.fail = true ∧ (is.getline delim str).1.linesLeft delim = [] ∧
      (str = [] → (is.getline delim str).2 = []) := by
  by_cases ended : (is.eof || is.fail) = true
  · simp [getline, ended, linesLeft]
  · have empty : is.rest = [] := by
      rw [linesLeft, if_neg ended] at none
      exact lines_eq_nil.mp none
    simp [getline, ended, empty, linesLeft]

private theorem left_getline {str : List γ} (read : (is.getline delim str).1.fail = false) :
    (is.getline delim str).1.left < is.left := by
  by_cases ended : (is.eof || is.fail) = true
  · simp [getline, ended] at read
  · cases behind : is.rest.dropWhile (fun c => decide (c ≠ delim)) with
    | nil =>
      simp only [getline, ended, Bool.false_eq_true, if_false, behind, left, Bool.true_or, if_true]
      omega
    | cons c rest =>
      have shorter := (List.dropWhile_suffix (fun c => decide (c ≠ delim)) (l := is.rest)).length_le
      rw [behind, List.length_cons] at shorter
      simp only [getline, ended, Bool.false_eq_true, if_false, behind, left, Bool.or_self]
      omega

def collect (delim : γ) (is : IStream γ) (item : List γ) (elems : List (List γ)) : List (List γ) :=
  if _ : (is.getline delim item).1.fail = false then
    collect delim (is.getline delim item).1 (is.getline delim item).2
      (if (is.getline delim item).2 = [] then elems else elems ++ [(is.getline delim item).2])
  else elems
termination_by is.left
decreasing_by exact left_getline ‹_›

private theorem collect_eq (is : IStream γ) (item : List γ) (elems : List (List γ)) :
    is.collect delim item elems = elems ++ (is.linesLeft delim).filter (fun l => decide (l ≠ [])) := by
  induction all : is.linesLeft delim generalizing is item elems with
  | nil =>
    obtain ⟨failed, -, -⟩ := getline_nil item all
    rw [collect, dif_neg (by simp [failed])]
    simp
  | cons l ls ih =>
    obtain ⟨line, read, behind⟩ := getline_cons item all
    rw [collect, dif_pos read, ih _ _ _ behind, line]
    by_cases empty : l = [] <;> simp [empty]

end IStream

/-- The parts of a string between its delimiters that are not empty. -/
def splitOn (delim : γ) (s : List γ) : List (List γ) := (IStream.opened s).collect delim [] []

theorem splitOn_eq (s : List γ) :
    splitOn delim s = (lines delim s).filter (fun l => decide (l ≠ [])) := by
  rw [splitOn, IStream.collect_eq, IStream.linesLeft_opened, List.nil_append]

end Stream

section Scan

def isSpace (c : BitVec 8) : Bool := c = 32 || (9 ≤ c.toNat && c.toNat ≤ 13)

def isDigit (c : BitVec 8) : Bool := 48 ≤ c.toNat && c.toNat ≤ 57

def decimal (digits : List (BitVec 8)) : Int :=
  digits.foldl (fun n c => 10 * n + (c.toNat - 48)) 0

def scanSign : List (BitVec 8) → Bool × List (BitVec 8)
  | [] => (false, [])
  | c :: rest =>
      if c = 45 then (true, rest) else if c = 43 then (false, rest) else (false, c :: rest)

/-- The conversion `%d`: white space, a sign, and one or more digits. -/
def scanInt (s : List (BitVec 8)) : Option (Int × List (BitVec 8)) :=
  let (minus, s) := scanSign (s.dropWhile isSpace)
  let digits := s.takeWhile isDigit
  if digits = [] then none
  else some (if minus then -decimal digits else decimal digits, s.dropWhile isDigit)

/-- Up to `n` conversions `%d`; the first that fails is the last one tried. -/
def scanInts : Nat → List (BitVec 8) → List Int
  | 0, _ => []
  | n + 1, s => match scanInt s with
    | none => []
    | some (value, rest) => value :: scanInts n rest

section Digits

variable {s digits : List (BitVec 8)} {c : BitVec 8} {minus : Bool}

private theorem isDigit_bounds (digit : isDigit c = true) : 48 ≤ c.toNat ∧ c.toNat ≤ 57 := by
  simpa [isDigit] using digit

theorem ne_of_isDigit {d : BitVec 8} (digit : isDigit c = true) (other : isDigit d = false) :
    c ≠ d := by
  rintro rfl
  rw [digit] at other
  cases other

theorem isSpace_of_isDigit (digit : isDigit c = true) : isSpace c = false := by
  obtain ⟨low, high⟩ := isDigit_bounds digit
  have notBlank : c ≠ 32 := ne_of_isDigit digit (by decide)
  simp only [isSpace, notBlank, decide_false, Bool.false_or, Bool.and_eq_false_iff,
    decide_eq_false_iff_not]
  omega

private theorem scanInt_of_sign (signed : scanSign (s.dropWhile isSpace) = (minus, digits))
    (some' : digits ≠ []) (all : ∀ c ∈ digits, isDigit c) :
    scanInt s = some (if minus then -decimal digits else decimal digits, []) := by
  simp only [scanInt, signed, List.takeWhile_eq_self_iff.mpr all,
    List.dropWhile_eq_nil_iff.mpr all, some', if_false]

theorem scanInt_digits (some' : digits ≠ []) (all : ∀ c ∈ digits, isDigit c) :
    scanInt digits = some (decimal digits, []) := by
  have unsigned : scanSign (digits.dropWhile isSpace) = (false, digits) := by
    cases digits with
    | nil => exact absurd rfl some'
    | cons c rest =>
      have digit := all c List.mem_cons_self
      rw [List.dropWhile_cons_of_neg (by simp [isSpace_of_isDigit digit]), scanSign,
        if_neg (ne_of_isDigit digit (by decide)), if_neg (ne_of_isDigit digit (by decide))]
  exact scanInt_of_sign unsigned some' all

theorem scanInt_plus (some' : digits ≠ []) (all : ∀ c ∈ digits, isDigit c) :
    scanInt (43 :: digits) = some (decimal digits, []) := by
  have signed : scanSign ((43 :: digits).dropWhile isSpace) = (false, digits) := by
    rw [List.dropWhile_cons_of_neg (by decide)]
    rfl
  exact scanInt_of_sign signed some' all

theorem scanInt_minus (some' : digits ≠ []) (all : ∀ c ∈ digits, isDigit c) :
    scanInt (45 :: digits) = some (-decimal digits, []) := by
  have signed : scanSign ((45 :: digits).dropWhile isSpace) = (true, digits) := by
    rw [List.dropWhile_cons_of_neg (by decide)]
    rfl
  exact scanInt_of_sign signed some' all

end Digits

end Scan

end Raft2pl.Lib
