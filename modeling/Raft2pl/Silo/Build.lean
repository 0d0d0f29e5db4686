/- db.cc: DB::makeDB, whose threads give the tuples of the table their first contents. -/

import Raft2pl.Silo.Tuple
import Raft2pl.Lib.ParallelFor

set_option autoImplicit false
set_option relaxedAutoImplicit false

namespace Raft2pl.Silo

open Lib (copyOver Run Steps Range Visit)

/-- `sizeof(Tuple)`: eight bytes of `tidword_`, four of `val_` and four of padding. -/
def sizeofTuple : BitVec 64 := 16

/-- What `partTableInit` makes of a tuple: it leaves the bytes behind the string `"a"`. -/
def initTuple (t : Tuple) : Tuple where
  tidword := { Tidword.zero with epoch := 1, latest := true, lock := false }
  val := copyOver [97, 0] t.val

/-- The loop of `DB::decideParallelBuildNumber`, from `i` down to 1; `none` stands for its `ERR`. -/
def searchDivisor (tupleNum : BitVec 64) : Nat → Option (BitVec 64)
  | 0 => some 0
  | i + 1 =>
      if tupleNum % .ofNat 64 (i + 1) = 0 then some (.ofNat 64 (i + 1))
      else if i + 1 = 1 then none
      else searchDivisor tupleNum i

/-- `DB::decideParallelBuildNumber`, where `cores` is what `hardware_concurrency` returns. -/
def decideParallelBuildNumber (tupleNum : BitVec 64) (cores : BitVec 32) : Option (BitVec 64) :=
  if tupleNum < 1000 then some 1 else searchDivisor tupleNum cores.toNat

/-- The table and the threads of `partTableInit` that write to it. -/
structure Building where
  table : Table
  parts : List (Range 64)

/-- The range of thread `i`, as `makeDB` computes it. -/
def partOf (tupleNum maxthread i : BitVec 64) : Range 64 where
  i := i * (tupleNum / maxthread)
  last := (i + 1) * (tupleNum / maxthread) - 1

/-- `DB::makeDB` up to the joins, where `memory` is what the new table holds and `granted` tells
whether `posix_memalign` gives so many bytes; `none` stands for an `ERR`. -/
def makeDB (granted : BitVec 64 → Bool) (cores : BitVec 32) (memory : Table)
    (tupleNum : BitVec 64) : Option Building :=
  if granted (tupleNum * sizeofTuple) then do
    let maxthread ← decideParallelBuildNumber tupleNum cores
    some ⟨memory, (List.range maxthread.toNat).map (fun i => partOf tupleNum maxthread (.ofNat 64 i))⟩
  else none

namespace Building

/-- One round of the loop of `partTableInit` in one of the threads. -/
def step (b : Building) (v : Visit 64) : Option Building :=
  (Range.visit b.parts v).map (fun parts =>
    { table := Function.update b.table v.index (initTuple (b.table v.index)), parts := parts })

def capacity (tupleNum : BitVec 64) : Nat := (tupleNum * sizeofTuple).toNat / sizeofTuple.toNat

/-- The ranges are disjoint and are the table together. The threads all come to their ends, write
inside the memory of the table, and give each tuple its first contents once. -/
structure WellBuilt (tupleNum : BitVec 64) (b : Building) : Prop where
  disjoint : Range.Disjoint b.parts
  union : ∀ k, (∃ p ∈ b.parts, p.Has k) ↔ k < tupleNum
  terminates : ∃ rounds, ∀ tr b', Run (Steps step) b tr b' → tr.length ≤ rounds ∧
    (Range.Finished b'.parts ∨ ∃ v b'', b'.step v = some b'')
  inside : ∀ tr b', Run (Steps step) b tr b' → ∀ v ∈ tr, v.index.toNat < capacity tupleNum
  once : ∀ tr b', Run (Steps step) b tr b' → Range.Finished b'.parts → ∀ k, k < tupleNum →
    (tr.map Visit.index).count k = 1 ∧ b'.table k = initTuple (b.table k)

variable {b b' : Building} {tr : List (Visit 64)} {v : Visit 64} {tupleNum : BitVec 64}

theorem step_eq_some : b.step v = some b' ↔ ∃ parts, Range.visit b.parts v = some parts ∧
    b' = ⟨Function.update b.table v.index (initTuple (b.table v.index)), parts⟩ := by
  simp [step, eq_comm]

private theorem run_parts (run : Run (Steps step) b tr b') :
    Run (Steps Range.visit) b.parts tr b'.parts := by
  induction run with
  | start => exact .start
  | next _ taken ih =>
    obtain ⟨parts, visited, rfl⟩ := step_eq_some.mp taken
    exact .next ih visited

private theorem run_of_parts {parts : List (Range 64)}
    (run : Run (Steps Range.visit) b.parts tr parts) :
    ∃ b', Run (Steps step) b tr b' ∧ b'.parts = parts := by
  induction run with
  | start => exact ⟨b, .start, rfl⟩
  | next _ visited ih =>
    obtain ⟨b', before, rfl⟩ := ih
    exact ⟨_, .next before (step_eq_some.mpr ⟨_, visited, rfl⟩), rfl⟩

private theorem initTuple_initTuple (t : Tuple) : initTuple (initTuple t) = initTuple t := by
  have again : copyOver [97, 0] (copyOver [97, 0] t.val) = copyOver [97, 0] t.val := by
    funext j
    fin_cases j <;> rfl
  rw [initTuple, initTuple, again]

private theorem run_table (run : Run (Steps step) b tr b') (k : BitVec 64) :
    b'.table k = if k ∈ tr.map Visit.index then initTuple (b.table k) else b.table k := by
  induction run with
  | start => simp
  | @next tr c c' v _ taken ih =>
    obtain ⟨parts, -, rfl⟩ := step_eq_some.mp taken
    by_cases here : k = v.index
    · subst here
      by_cases again : v.index ∈ tr.map Visit.index
      · simp [ih, again, initTuple_initTuple]
      · simp [ih, again]
    · simp [here, ih, or_comm]

/-- Threads on bounded, disjoint ranges that are the table together build it well, if there is
memory for the tuples. -/
theorem wellBuilt_of_cover (bounded : Range.Bounded b.parts) (disjoint : Range.Disjoint b.parts)
    (union : ∀ k, (∃ p ∈ b.parts, p.Has k) ↔ k < tupleNum)
    (fits : tupleNum.toNat ≤ capacity tupleNum) : WellBuilt tupleNum b where
  disjoint := disjoint
  union := union
  terminates := by
    refine ⟨tupleNum.toNat, fun tr b' run => ?_⟩
    refine ⟨Range.length_le bounded disjoint (run_parts run) (fun p member k has => ?_), ?_⟩
    · exact (union k).mp ⟨p, member, has⟩
    · rcases Range.finished_or_visit b'.parts with ended | ⟨v, parts, visited⟩
      · exact .inl ended
      · exact .inr ⟨v, _, step_eq_some.mpr ⟨parts, visited, rfl⟩⟩
  inside := by
    intro tr b' run v member
    obtain ⟨p, here, has⟩ := Range.run_has bounded (run_parts run) member
    have small : v.index < tupleNum := (union v.index).mp ⟨p, List.mem_of_getElem? here, has⟩
    exact Nat.lt_of_lt_of_le small fits
  once := by
    intro tr b' run finished k small
    obtain ⟨p, member, has⟩ := (union k).mpr small
    have visited := Range.visited_of_finished bounded (run_parts run) finished member has
    have distinct := Range.nodup_visited bounded disjoint (run_parts run)
    exact ⟨List.count_eq_one_of_mem distinct visited, by rw [run_table run, if_pos visited]⟩

private theorem exists_store {k : BitVec 64} {p : Range 64} (member : p ∈ b.parts) (has : p.Has k) :
    ∃ tr b', Run (Steps step) b tr b' ∧ ∃ v ∈ tr, v.index = k := by
  obtain ⟨t, inside, rfl⟩ := List.getElem_of_mem member
  have low : b.parts[t].i.toNat ≤ k.toNat := has.1
  have high : k.toNat ≤ b.parts[t].last.toNat := has.2
  have largest := k.isLt
  have more : ∀ j < k.toNat - b.parts[t].i.toNat + 1,
      (b.parts[t].after j).i ≤ b.parts[t].last := by
    intro j small
    rw [BitVec.le_def, Range.toNat_after (by omega)]
    omega
  obtain ⟨parts, run, -⟩ := Range.run_thread (List.getElem?_eq_getElem inside) more
  obtain ⟨b', run', -⟩ := run_of_parts run
  refine ⟨_, b', run', ⟨t, (b.parts[t].after (k.toNat - b.parts[t].i.toNat)).i⟩, ?_, ?_⟩
  · exact List.mem_map.mpr ⟨_, List.mem_range.mpr (Nat.lt_succ_self _), rfl⟩
  · apply BitVec.eq_of_toNat_eq
    show (b.parts[t].after (k.toNat - b.parts[t].i.toNat)).i.toNat = k.toNat
    rw [Range.toNat_after (by omega)]
    omega

end Building

section Ranges

variable {tupleNum maxthread : BitVec 64} {cores : BitVec 32}

private theorem searchDivisor_spec (tupleNum : BitVec 64) {i : Nat} (positive : 0 < i)
    (small : i < 2 ^ 64) :
    ∃ d, searchDivisor tupleNum i = some d ∧ 0 < d.toNat ∧ d.toNat ∣ tupleNum.toNat := by
  induction i with
  | zero => omega
  | succ i ih =>
    have value : (BitVec.ofNat 64 (i + 1)).toNat = i + 1 := by
      rw [BitVec.toNat_ofNat, Nat.mod_eq_of_lt small]
    unfold searchDivisor
    split
    · next divides =>
      have rest := congrArg BitVec.toNat divides
      rw [BitVec.toNat_umod, value] at rest
      refine ⟨_, rfl, by omega, ?_⟩
      rw [value]
      exact Nat.dvd_of_mod_eq_zero rest
    · next leaves =>
      split
      · next one =>
        obtain rfl : i = 0 := by omega
        exact absurd (BitVec.eq_of_toNat_eq (by simp)) leaves
      · exact ih (by omega) (by omega)

private theorem decideParallelBuildNumber_spec (known : 1000 ≤ tupleNum → cores ≠ 0) :
    ∃ d, decideParallelBuildNumber tupleNum cores = some d ∧ 0 < d.toNat ∧
      d.toNat ∣ tupleNum.toNat := by
  unfold decideParallelBuildNumber
  split
  · exact ⟨1, rfl, by decide, by simp⟩
  · next large =>
    have some' : cores ≠ 0 := known (BitVec.not_lt.mp large)
    have positive : 0 < cores.toNat := by
      rw [Nat.pos_iff_ne_zero]
      exact fun zero => some' (BitVec.eq_of_toNat_eq zero)
    have small := cores.isLt
    exact searchDivisor_spec tupleNum positive (by omega)

private theorem partOf_bounds (divides : maxthread.toNat ∣ tupleNum.toNat)
    (some' : 0 < tupleNum.toNat) {i : Nat}
    (thread : i < maxthread.toNat) :
    (partOf tupleNum maxthread (.ofNat 64 i)).i.toNat = i * (tupleNum.toNat / maxthread.toNat) ∧
      (partOf tupleNum maxthread (.ofNat 64 i)).last.toNat + 1 =
        (i + 1) * (tupleNum.toNat / maxthread.toNat) := by
  have whole : maxthread.toNat * (tupleNum.toNat / maxthread.toNat) = tupleNum.toNat :=
    Nat.mul_div_cancel' divides
  have share : 0 < tupleNum.toNat / maxthread.toNat :=
    Nat.pos_of_ne_zero (fun zero => by simp [zero] at whole; omega)
  have largest := tupleNum.isLt
  have threads := maxthread.isLt
  have upper : (i + 1) * (tupleNum.toNat / maxthread.toNat) ≤ tupleNum.toNat := by
    calc (i + 1) * (tupleNum.toNat / maxthread.toNat)
        ≤ maxthread.toNat * (tupleNum.toNat / maxthread.toNat) := Nat.mul_le_mul_right _ thread
      _ = tupleNum.toNat := whole
  have lower : i * (tupleNum.toNat / maxthread.toNat) ≤ (i + 1) * (tupleNum.toNat / maxthread.toNat) :=
    Nat.mul_le_mul_right _ (Nat.le_succ i)
  have number : (BitVec.ofNat 64 i).toNat = i := by
    rw [BitVec.toNat_ofNat, Nat.mod_eq_of_lt (by omega)]
  have next : (BitVec.ofNat 64 i + 1).toNat = i + 1 := by
    have one : (1 : BitVec 64).toNat = 1 := rfl
    rw [BitVec.toNat_add, number, one, Nat.mod_eq_of_lt (by omega)]
  have product : ((BitVec.ofNat 64 i + 1) * (tupleNum / maxthread)).toNat =
      (i + 1) * (tupleNum.toNat / maxthread.toNat) := by
    rw [BitVec.toNat_mul, next, BitVec.toNat_udiv, Nat.mod_eq_of_lt (by omega)]
  refine ⟨?_, ?_⟩
  · show (BitVec.ofNat 64 i * (tupleNum / maxthread)).toNat = _
    rw [BitVec.toNat_mul, number, BitVec.toNat_udiv, Nat.mod_eq_of_lt (by omega)]
  · show ((BitVec.ofNat 64 i + 1) * (tupleNum / maxthread) - 1).toNat + 1 = _
    have positive : 0 < (i + 1) * (tupleNum.toNat / maxthread.toNat) := Nat.mul_pos (by omega) share
    have one : (1 : BitVec 64).toNat = 1 := rfl
    have le : (1 : BitVec 64) ≤ (BitVec.ofNat 64 i + 1) * (tupleNum / maxthread) := by
      rw [BitVec.le_def, product, one]
      exact positive
    rw [BitVec.toNat_sub_of_le le, product, one]
    omega

private theorem partOf_has (divides : maxthread.toNat ∣ tupleNum.toNat) (some' : 0 < tupleNum.toNat)
    {i : Nat}
    (thread : i < maxthread.toNat) (k : BitVec 64) :
    (partOf tupleNum maxthread (.ofNat 64 i)).Has k ↔
      i * (tupleNum.toNat / maxthread.toNat) ≤ k.toNat ∧
        k.toNat < (i + 1) * (tupleNum.toNat / maxthread.toNat) := by
  obtain ⟨first, last⟩ := partOf_bounds divides some' thread
  rw [Range.Has, BitVec.le_def, BitVec.le_def, first, ← last, Nat.lt_succ_iff]

def partsOf (tupleNum maxthread : BitVec 64) : List (Range 64) :=
  (List.range maxthread.toNat).map (fun i => partOf tupleNum maxthread (.ofNat 64 i))

private theorem bounded_partsOf (divides : maxthread.toNat ∣ tupleNum.toNat)
    (some' : 0 < tupleNum.toNat) :
    Range.Bounded (partsOf tupleNum maxthread) := by
  intro p member
  obtain ⟨i, thread, rfl⟩ := List.mem_map.mp member
  rw [List.mem_range] at thread
  obtain ⟨-, last⟩ := partOf_bounds divides some' thread
  have whole : maxthread.toNat * (tupleNum.toNat / maxthread.toNat) = tupleNum.toNat :=
    Nat.mul_div_cancel' divides
  have upper : (i + 1) * (tupleNum.toNat / maxthread.toNat) ≤
      maxthread.toNat * (tupleNum.toNat / maxthread.toNat) := Nat.mul_le_mul_right _ thread
  have largest := tupleNum.isLt
  omega

private theorem disjoint_partsOf (divides : maxthread.toNat ∣ tupleNum.toNat)
    (some' : 0 < tupleNum.toNat) :
    Range.Disjoint (partsOf tupleNum maxthread) := by
  rw [Range.Disjoint, partsOf, List.pairwise_map]
  refine List.Pairwise.imp_of_mem ?_ List.pairwise_lt_range
  intro i j first second before k ⟨has, has'⟩
  rw [List.mem_range] at first second
  have upper := ((partOf_has divides some' first k).mp has).2
  have lower := ((partOf_has divides some' second k).mp has').1
  have order : (i + 1) * (tupleNum.toNat / maxthread.toNat) ≤
      j * (tupleNum.toNat / maxthread.toNat) := Nat.mul_le_mul_right _ before
  omega

private theorem union_partsOf (divides : maxthread.toNat ∣ tupleNum.toNat)
    (some' : 0 < tupleNum.toNat)
    (k : BitVec 64) : (∃ p ∈ partsOf tupleNum maxthread, p.Has k) ↔ k < tupleNum := by
  have whole : maxthread.toNat * (tupleNum.toNat / maxthread.toNat) = tupleNum.toNat :=
    Nat.mul_div_cancel' divides
  have share : 0 < tupleNum.toNat / maxthread.toNat :=
    Nat.pos_of_ne_zero (fun zero => by simp [zero] at whole; omega)
  rw [BitVec.lt_def]
  constructor
  · rintro ⟨p, member, has⟩
    obtain ⟨i, thread, rfl⟩ := List.mem_map.mp member
    rw [List.mem_range] at thread
    have upper : (i + 1) * (tupleNum.toNat / maxthread.toNat) ≤
        maxthread.toNat * (tupleNum.toNat / maxthread.toNat) := Nat.mul_le_mul_right _ thread
    have below := ((partOf_has divides some' thread k).mp has).2
    omega
  · intro small
    have thread : k.toNat / (tupleNum.toNat / maxthread.toNat) < maxthread.toNat := by
      rw [Nat.div_lt_iff_lt_mul share, whole]
      exact small
    refine ⟨_, List.mem_map.mpr ⟨_, List.mem_range.mpr thread, rfl⟩, ?_⟩
    rw [partOf_has divides some' thread]
    refine ⟨Nat.div_mul_le_self _ _, ?_⟩
    rw [← Nat.div_lt_iff_lt_mul share]
    exact Nat.lt_succ_self _

end Ranges

section Result

variable {granted : BitVec 64 → Bool} {cores : BitVec 32} {memory : Table}

open Building (capacity WellBuilt exists_store wellBuilt_of_cover)

private theorem capacity_eq (tupleNum : BitVec 64) : capacity tupleNum = tupleNum.toNat % 2 ^ 60 := by
  have size : sizeofTuple.toNat = 16 := rfl
  rw [capacity, BitVec.toNat_mul, size]
  omega

private theorem makeDB_eq_some {tupleNum : BitVec 64} {b : Building} :
    makeDB granted cores memory tupleNum = some b ↔ granted (tupleNum * sizeofTuple) = true ∧
      ∃ d, decideParallelBuildNumber tupleNum cores = some d ∧ b = ⟨memory, partsOf tupleNum d⟩ := by
  unfold makeDB partsOf
  cases given : granted (tupleNum * sizeofTuple) <;>
    cases decided : decideParallelBuildNumber tupleNum cores <;> simp [eq_comm]

/-- A table without tuples, one of 1000 or more where the number of cores is not known, and one whose
size in bytes wraps around, are not built well; all others are, if there is memory for them. -/
theorem makeDB_builds_iff (granted : BitVec 64 → Bool) (cores : BitVec 32) (memory : Table)
    (tupleNum : BitVec 64) :
    (∃ b, makeDB granted cores memory tupleNum = some b ∧ WellBuilt tupleNum b) ↔
      granted (tupleNum * sizeofTuple) = true ∧ 0 < tupleNum.toNat ∧ tupleNum.toNat < 2 ^ 60 ∧
        (1000 ≤ tupleNum → cores ≠ 0) := by
  constructor
  · rintro ⟨b, made, well⟩
    obtain ⟨given, d, decided, rfl⟩ := makeDB_eq_some.mp made
    have some' : 0 < tupleNum.toNat := by
      by_contra none
      obtain rfl : tupleNum = 0 := BitVec.eq_of_toNat_eq (by simpa using none)
      obtain rfl : 1 = d := by simpa [decideParallelBuildNumber] using decided
      have covered : ∃ p ∈ partsOf 0 1, p.Has 0 := by decide
      have first := (well.union 0).mp covered
      simp at first
    refine ⟨given, some', ?_, ?_⟩
    · by_contra large
      -- the index at which the memory ends is still below `tuple_num`
      have behind : (BitVec.ofNat 64 (tupleNum.toNat % 2 ^ 60)).toNat = tupleNum.toNat % 2 ^ 60 := by
        rw [BitVec.toNat_ofNat]
        omega
      have covered : BitVec.ofNat 64 (tupleNum.toNat % 2 ^ 60) < tupleNum := by
        rw [BitVec.lt_def, behind]
        omega
      obtain ⟨p, member, has⟩ := (well.union _).mpr covered
      obtain ⟨tr, b', run, v, stored, eq⟩ := exists_store member has
      have fits := well.inside tr b' run v stored
      rw [eq, behind, capacity_eq] at fits
      omega
    · rintro large rfl
      have notSmall : ¬ tupleNum < 1000 := BitVec.not_lt.mpr large
      have decided' : decideParallelBuildNumber tupleNum 0 = some 0 := by
        rw [decideParallelBuildNumber, if_neg notSmall]
        rfl
      obtain rfl : 0 = d := Option.some.inj (decided'.symm.trans decided)
      obtain ⟨p, member, -⟩ := (well.union 0).mpr some'
      simp [partsOf] at member
  · rintro ⟨given, some', small, known⟩
    obtain ⟨d, decided, -, divides⟩ := decideParallelBuildNumber_spec known
    refine ⟨_, makeDB_eq_some.mpr ⟨given, d, decided, rfl⟩, ?_⟩
    refine wellBuilt_of_cover (bounded_partsOf divides some') (disjoint_partsOf divides some')
      (union_partsOf divides some') ?_
    rw [capacity_eq]
    omega

def zeroed : Table := fun _ => ⟨.zero, fun _ => 0⟩

/-- For an empty table the one thread goes through all words and never ends. -/
theorem empty_table_endless : ∃ b, makeDB (fun _ => true) 4 zeroed 0 = some b ∧
    (∀ m, ∃ tr b', Run (Steps Building.step) b tr b' ∧ tr.length = m) ∧ ¬ WellBuilt 0 b := by
  refine ⟨⟨zeroed, partsOf 0 1⟩, rfl, ?_, ?_⟩
  · intro m
    have here : (partsOf 0 1)[0]? = some ⟨0, .allOnes 64⟩ := by decide
    obtain ⟨tr, parts, run, length⟩ := Range.run_endless here rfl m
    obtain ⟨b', run', -⟩ := Building.run_of_parts (b := ⟨zeroed, partsOf 0 1⟩) run
    exact ⟨tr, b', run', length⟩
  · intro well
    have covered : ∃ p ∈ partsOf 0 1, p.Has 0 := by decide
    have first := (well.union 0).mp covered
    simp at first

end Result

end Raft2pl.Silo
