/- createInput.cc: the file of random transfers that it writes, and that client.cc reads it back. -/

import Raft2pl.Client.Workload
import Raft2pl.Lib.Decimal
import Raft2pl.TwoPl.Kvs

set_option autoImplicit false
set_option relaxedAutoImplicit false

namespace Raft2pl.Client

open Lib (lines lines_append showInt showNat showNat_digits length_showNat Stops isDigit isSpace
  scanInt_showInt scanInts)

/-- What `rand` returns: an `int` that is not negative. -/
structure Rand where
  value : CInt
  nonneg : 0 ≤ value.toInt

/-- The three random numbers of a line, in the order in which they are drawn. -/
structure Draw where
  forFrom : Rand
  forDiff : Rand
  forTo : Rand

/-- `rand() / SIZ_DATABASE`. -/
def Rand.key (r : Rand) : CInt := .ofInt 32 (r.value.toInt.tdiv TwoPl.shipped.sizDatabase)

/-- `rand() % 1000`. -/
def Rand.amount (r : Rand) : CInt := .ofInt 32 (r.value.toInt.tmod 1000)

def Draw.transfer (d : Draw) : CInt × CInt × CInt := (d.forFrom.key, d.forTo.key, d.forDiff.amount)

/-- A line of three integers, without its `endl`. -/
def printed (t : CInt × CInt × CInt) : List (BitVec 8) :=
  showInt t.1.toInt ++ 32 :: (showInt t.2.1.toInt ++ 32 :: showInt t.2.2.toInt)

/-- The file that `main` of createInput.cc writes. -/
def createInput (draws : List Draw) : List (BitVec 8) :=
  draws.flatMap (fun d => printed d.transfer ++ [newline])

def Printable (c : BitVec 8) : Prop := isDigit c = true ∨ c = 45 ∨ c = 32

theorem Printable.ne {c d : BitVec 8} (printable : Printable c) (digit : isDigit d = false)
    (minus : d ≠ 45) (blank : d ≠ 32) : c ≠ d := by
  rintro rfl
  rcases printable with inside | rfl | rfl
  · rw [digit] at inside
    cases inside
  · exact minus rfl
  · exact blank rfl

private theorem printable_showInt (i : Int) : ∀ c ∈ showInt i, Printable c := by
  intro c member
  unfold showInt at member
  split at member
  · rcases List.mem_cons.mp member with rfl | digit
    · exact .inr (.inl rfl)
    · exact .inl (showNat_digits _ c digit)
  · exact .inl (showNat_digits _ c member)

private theorem printable_printed (t : CInt × CInt × CInt) : ∀ c ∈ printed t, Printable c := by
  intro c member
  simp only [printed, List.mem_append, List.mem_cons] at member
  rcases member with first | rfl | second | rfl | third
  · exact printable_showInt _ c first
  · exact .inr (.inr rfl)
  · exact printable_showInt _ c second
  · exact .inr (.inr rfl)
  · exact printable_showInt _ c third

private theorem length_showInt (x : CInt) : (showInt x.toInt).length ≤ 11 := by
  have low := BitVec.le_toInt x
  have high := BitVec.toInt_lt (x := x)
  have digits : (showNat x.toInt.natAbs).length ≤ 9 + 1 := length_showNat (by omega)
  unfold showInt
  split
  · rw [List.length_cons]
    omega
  · omega

private theorem length_printed (t : CInt × CInt × CInt) : (printed t).length ≤ 35 := by
  have first := length_showInt t.1
  have second := length_showInt t.2.1
  have third := length_showInt t.2.2
  simp only [printed, List.length_append, List.length_cons]
  omega

private theorem parse_printed (overflow : Int → CInt) (t : CInt × CInt × CInt) :
    parse overflow (printed t) = some t := by
  obtain ⟨a, b, c⟩ := t
  have whole : (printed (a, b, c)).takeWhile (fun d => decide (d ≠ 0)) = printed (a, b, c) := by
    rw [List.takeWhile_eq_self_iff]
    intro d member
    exact decide_eq_true ((printable_printed _ d member).ne (by decide) (by decide) (by decide))
  have blank : ∀ s, Stops (32 :: s) := by
    intro s d first
    obtain rfl : 32 = d := by simpa using first
    decide
  have white : ∀ d ∈ [(32 : BitVec 8)], isSpace d = true := by decide
  have ended : Stops [] := by
    intro d none
    cases none
  have first := scanInt_showInt a.toInt (List.forall_mem_nil (fun d => isSpace d = true))
    (blank (showInt b.toInt ++ 32 :: showInt c.toInt))
  have second := scanInt_showInt b.toInt white (blank (showInt c.toInt))
  have third := scanInt_showInt c.toInt white ended
  simp only [List.nil_append, List.cons_append, List.append_nil] at first second third
  have ints : scanInts 3 (printed (a, b, c)) = [a.toInt, b.toInt, c.toInt] := by
    simp only [printed, scanInts, first, second, third]
  have kept : ∀ x : CInt, toCInt overflow x.toInt = x := by
    intro x
    have low := BitVec.le_toInt x
    have high := BitVec.toInt_lt (x := x)
    rw [toCInt, if_pos ⟨by simpa using low, by simpa using high⟩, BitVec.ofInt_toInt]
  simp only [parse, scanned, whole, ints, List.map_cons, List.map_nil, kept]

private theorem lines_createInput (draws : List Draw) :
    lines newline (createInput draws) = draws.map (fun d => printed d.transfer) := by
  induction draws with
  | nil => rfl
  | cons d draws ih =>
    have free : newline ∉ printed d.transfer := by
      intro member
      exact (printable_printed _ _ member).ne (by decide) (by decide) (by decide) rfl
    have split : createInput (d :: draws) = printed d.transfer ++ newline :: createInput draws := by
      simp [createInput]
    rw [split, lines_append free, ih, List.map_cons]

private theorem toInt_ofInt {i : Int} (low : 0 ≤ i) (high : i < 2 ^ 31) :
    (BitVec.ofInt 32 i).toInt = i := by
  rw [BitVec.toInt_ofInt]
  exact Int.bmod_eq_of_le (by norm_num; omega) (by norm_num; omega)

private theorem Rand.key_bounds (r : Rand) : 0 ≤ r.key.toInt ∧ r.key.toInt ≤ 214 := by
  have high := BitVec.toInt_lt (x := r.value)
  have low := r.nonneg
  have quotient : r.value.toInt.tdiv TwoPl.shipped.sizDatabase = r.value.toInt / 10000000 :=
    Int.tdiv_eq_ediv_of_nonneg low
  have bounds : 0 ≤ r.value.toInt / 10000000 ∧ r.value.toInt / 10000000 ≤ 214 := by omega
  rw [Rand.key, quotient, toInt_ofInt bounds.1 (by omega)]
  exact bounds

private theorem Rand.key_inRange (r : Rand) : TwoPl.shipped.inRange r.key := by
  obtain ⟨low, high⟩ := r.key_bounds
  have size : (TwoPl.shipped.sizDatabase : Int) = 10000000 := rfl
  exact ⟨low, by omega⟩

private theorem Rand.amount_bounds (r : Rand) : 0 ≤ r.amount.toInt ∧ r.amount.toInt < 1000 := by
  have low := r.nonneg
  have remainder : r.value.toInt.tmod 1000 = r.value.toInt % 1000 := Int.tmod_eq_emod_of_nonneg low
  have bounds : 0 ≤ r.value.toInt % 1000 ∧ r.value.toInt % 1000 < 1000 := by omega
  rw [Rand.amount, remainder, toInt_ofInt bounds.1 (by omega)]
  exact bounds

/-- The commands that client.cc reads from a file of createInput.cc hold the transfers that were
written, in their order, up to the last full command; so all their keys pass the assertions of the
store, and their amounts are below 1000. -/
theorem getCC_createInput (overflow : Int → CInt) (cc : ClientCommand) {bufsiz : Nat}
    (room : 256 ≤ bufsiz) (draws : List Draw) :
    (getCC overflow bufsiz cc (createInput draws)).flatMap triples =
      (draws.take (maxCliReq * (draws.length / maxCliReq))).map Draw.transfer ∧
    ∀ c ∈ getCC overflow bufsiz cc (createInput draws), ∀ i,
      TwoPl.shipped.inRange (c.req i).fromKey ∧ TwoPl.shipped.inRange (c.req i).toKey ∧
      0 ≤ (c.req i).diff.toInt ∧ (c.req i).diff.toInt < 1000 := by
  have short : ∀ l ∈ lines newline (createInput draws), l.length < bufsiz := by
    rw [lines_createInput]
    intro l member
    obtain ⟨d, -, rfl⟩ := List.mem_map.mp member
    have length := length_printed d.transfer
    omega
  have requests : (getCC overflow bufsiz cc (createInput draws)).flatMap triples =
      (draws.take (maxCliReq * (draws.length / maxCliReq))).map Draw.transfer := by
    rw [getCC, Lib.readLines_eq (Nat.lt_succ_self _) short, lines_createInput]
    obtain ⟨done, pending, filled⟩ :=
      filled_foldl overflow cc (draws.map (fun d => printed d.transfer))
    have full := length_done filled
    have front : done = (draws.take (maxCliReq * (draws.length / maxCliReq))).map
        (fun d => printed d.transfer) := by
      rw [List.length_map] at full
      rw [List.map_take, filled.lines, List.take_left' full]
    have parsed : ∀ l ∈ done, (parse overflow l).isSome := by
      intro l member
      rw [front] at member
      obtain ⟨d, -, rfl⟩ := List.mem_map.mp member
      rw [parse_printed]
      rfl
    rw [← filterMap_of_matches filled.returned parsed, front, List.filterMap_map,
      ← List.filterMap_eq_map]
    exact List.filterMap_congr (fun d _ => parse_printed overflow d.transfer)
  refine ⟨requests, fun c member i => ?_⟩
  -- each request of a command is one of the transfers
  have inside : triple (c.req i) ∈ (getCC overflow bufsiz cc (createInput draws)).flatMap triples :=
    List.mem_flatMap.mpr ⟨c, member, List.mem_ofFn.mpr ⟨i, rfl⟩⟩
  rw [requests] at inside
  obtain ⟨d, -, same⟩ := List.mem_map.mp inside
  obtain ⟨fromKey, toKey, diff⟩ : d.forFrom.key = (c.req i).fromKey ∧
      d.forTo.key = (c.req i).toKey ∧ d.forDiff.amount = (c.req i).diff := by
    simpa [Draw.transfer, triple] using same
  rw [← fromKey, ← toKey, ← diff]
  exact ⟨d.forFrom.key_inRange, d.forTo.key_inRange, d.forDiff.amount_bounds⟩

section Example

/-- Equal draws for a full command and a half. -/
theorem getCC_createInput_some : ∃ d : Draw, d.transfer = (21, 1, 7) ∧
    (getCC (fun _ => 0) 8192 zeroes (createInput (List.replicate 150 d))).flatMap triples =
      List.replicate 100 (21, 1, 7) := by
  refine ⟨⟨⟨210000000, by decide⟩, ⟨1007, by decide⟩, ⟨19999999, by decide⟩⟩, by decide, ?_⟩
  have read := (getCC_createInput (fun _ => 0) zeroes (show 256 ≤ 8192 by decide)
    (List.replicate 150 ⟨⟨210000000, by decide⟩, ⟨1007, by decide⟩, ⟨19999999, by decide⟩⟩)).1
  rw [read, List.take_replicate, List.map_replicate, List.length_replicate]
  rfl

end Example

end Raft2pl.Client
