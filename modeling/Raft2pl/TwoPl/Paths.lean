/- kvs.cc: the two ways to reach a key, through the index and by a scan of the array. -/

import Raft2pl.TwoPl.Mirror
import Raft2pl.Lib.Refinement

set_option autoImplicit false
set_option relaxedAutoImplicit false

namespace Raft2pl.TwoPl

open Lib (answers answers_total Simulates)

/-- A write or a read of one key. -/
inductive KeyCall
  | write (key value : CInt)
  | read (key : CInt)
  deriving DecidableEq

def KeyCall.key : KeyCall → CInt
  | write k _ => k
  | read k => k

def KeyCall.onMap (b : CInt → CInt) : KeyCall → Option (Option CInt × (CInt → CInt))
  | write k v => some (none, Function.update b k v)
  | read k => some (some (b k), b)

/-- The key is stored in one bucket of the table and no other. -/
def InOneBucket (P : KvsConst) (hash : Int → HashObject) (k : CInt) : Prop :=
  ∃! bid : Int, (0 ≤ bid ∧ bid < P.sizHashBucket) ∧ (hash bid).key = k

namespace KVS

variable {P : KvsConst} {kvs : KVS P} {rand : Nat → CInt} {calls : List KeyCall}

/-- A call by `index_update` or `index_read`. -/
def byIndex (kvs : KVS P) : KeyCall → Option (Option CInt × KVS P)
  | .write k v => (kvs.indexUpdate k v).map (fun kvs' => (none, kvs'))
  | .read k => (kvs.indexRead k).map (fun v => (some v, kvs))

/-- A call by `update` or `read`. -/
def byScan (kvs : KVS P) : KeyCall → Option (Option CInt × KVS P)
  | .write k v => some (none, kvs.update k v)
  | .read k => some (some (kvs.read k), kvs)

def IndexHolds (kvs : KVS P) (b : CInt → CInt) : Prop := ∀ k, P.inRange k → kvs.balance k = b k

def ArrayHolds (kvs : KVS P) (b : CInt → CInt) : Prop :=
  kvs.Ordered ∧ ∀ k, P.inRange k → kvs.read k = b k

private theorem update_congr {b b' : CInt → CInt} (same : ∀ k, P.inRange k → b k = b' k)
    (key v : CInt) :
    ∀ k, P.inRange k → Function.update b key v k = Function.update b' key v k := by
  intro k range
  by_cases here : k = key
  · simp [here]
  · simp [here, same k range]

private theorem byIndex_simulates :
    Simulates byIndex KeyCall.onMap (fun c => P.inRange c.key) (IndexHolds (P := P)) := by
  intro kvs b c holds range o b' called
  cases c with
  | write k v =>
    have range : P.inRange k := range
    obtain ⟨rfl, rfl⟩ : none = o ∧ Function.update b k v = b' := by simpa [KeyCall.onMap] using called
    refine ⟨kvs.setBucket k.toInt v, by simp [byIndex, indexUpdate_eq kvs v range], ?_⟩
    intro q here
    rw [balance_setBucket]
    exact update_congr holds k v q here
  | read k =>
    have range : P.inRange k := range
    obtain ⟨rfl, rfl⟩ : some (b k) = o ∧ b = b' := by simpa [KeyCall.onMap] using called
    exact ⟨kvs, by simp [byIndex, indexRead_eq kvs range, holds k range], holds⟩

private theorem byScan_simulates :
    Simulates byScan KeyCall.onMap (fun c => P.inRange c.key) (ArrayHolds (P := P)) := by
  intro kvs b c holds range o b' called
  obtain ⟨ordered, same⟩ := holds
  cases c with
  | write k v =>
    have range : P.inRange k := range
    obtain ⟨rfl, rfl⟩ : none = o ∧ Function.update b k v = b' := by simpa [KeyCall.onMap] using called
    refine ⟨kvs.update k v, rfl, ordered, ?_⟩
    intro q here
    rw [read_update ordered v range here]
    exact update_congr same k v q here
  | read k =>
    obtain ⟨rfl, rfl⟩ : some (b k) = o ∧ b = b' := by simpa [KeyCall.onMap] using called
    exact ⟨kvs, by simp [byScan, same k range], ordered, same⟩

private theorem new_spec (rand : Nat → CInt) :
    ∃ hash, buildIndex P (BitVec.ofNat 32) rand P.sizDatabase = some hash ∧
      (KVS.new P rand).hash = hash ∧ ∀ k, P.inRange k → InOneBucket P hash k := by
  obtain ⟨hash, built, filled, empty⟩ := buildIndex_spec (P := P) rand _ le_rfl
  refine ⟨hash, built, by simp [new, built], fun k range => ?_⟩
  have small := P.database_le
  have low := range.1
  have high := range.2
  refine ⟨k.toInt, ⟨⟨low, by omega⟩, ?_⟩, ?_⟩
  · have here := filled _ (index_lt range)
    rw [Int.toNat_of_nonneg low, ofNat_toNat_of_inRange range] at here
    rw [here]
  · rintro bid ⟨⟨inside, -⟩, stored⟩
    by_cases used : bid < P.sizDatabase
    · have here := filled bid.toNat (by omega)
      rw [Int.toNat_of_nonneg inside] at here
      rw [here] at stored
      rw [← stored, toInt_ofNat_small (P := P) (by omega), Int.toNat_of_nonneg inside]
    · rw [empty bid (by omega)] at stored
      have negative : invalidKey.toInt = -100 := by decide
      rw [← stored, negative] at low
      omega

/-- The index is built with each key in one bucket; and whatever is written and read through it is
answered, without a probe that leaves the table or never ends, as the scans of the array answer it. -/
theorem index_refines_scan (rand : Nat → CInt) (ok : ∀ c ∈ calls, P.inRange c.key) :
    (∃ hash, buildIndex P (BitVec.ofNat 32) rand P.sizDatabase = some hash ∧
      (KVS.new P rand).hash = hash ∧ ∀ k, P.inRange k → InOneBucket P hash k) ∧
    ∃ returned kvs kvs', answers byIndex (KVS.new P rand) calls = some (returned, kvs) ∧
      answers byScan (KVS.new P rand) calls = some (returned, kvs') := by
  refine ⟨new_spec rand, ?_⟩
  have total : ∀ (b : CInt → CInt) (c : KeyCall), P.inRange c.key →
      ∃ o b', KeyCall.onMap b c = some (o, b') := by
    intro b c _
    cases c <;> exact ⟨_, _, rfl⟩
  obtain ⟨returned, b', done⟩ := answers_total total (initial rand) ok
  have index₀ : (KVS.new P rand).IndexHolds (initial rand) := fun k range => balance_new range
  have array₀ : (KVS.new P rand).ArrayHolds (initial rand) :=
    ⟨ordered_new, fun k range => read_new range⟩
  obtain ⟨kvs, index, -⟩ := byIndex_simulates.answers index₀ ok done
  obtain ⟨kvs', scan, -⟩ := byScan_simulates.answers array₀ ok done
  exact ⟨returned, kvs, kvs', index, scan⟩

/-- A write of key 2, read back, beside a key that was not written. -/
theorem index_refines_scan_small :
    (∃ hash, buildIndex smallConsts (BitVec.ofNat 32) (fun _ => 5) smallConsts.sizDatabase =
        some hash ∧ (KVS.new smallConsts (fun _ => 5)).hash = hash ∧
        ∀ k, smallConsts.inRange k → InOneBucket smallConsts hash k) ∧
      ∃ returned kvs kvs',
        answers byIndex (KVS.new smallConsts (fun _ => 5)) [.write 2 7, .read 2, .read 3] =
          some (returned, kvs) ∧
        answers byScan (KVS.new smallConsts (fun _ => 5)) [.write 2 7, .read 2, .read 3] =
          some (returned, kvs') :=
  index_refines_scan (fun _ => 5) (by decide)

end KVS

end Raft2pl.TwoPl
