/- The key-value store of the 2PL build: a hash index over all keys and one mutex per key. -/

import Raft2pl.Header
import Mathlib.Logic.Function.Basic
import Mathlib.Tactic.NormNum

set_option autoImplicit false
set_option relaxedAutoImplicit false

namespace Raft2pl.TwoPl

/-- The table sizes of constant.h, with the relations among them that the index relies on. -/
structure KvsConst where
  sizDatabase : Nat
  sizHashBucket : Nat
  hashDelta : Nat
  database_pos : 0 < sizDatabase
  database_le : sizDatabase ≤ sizHashBucket
  delta_pos : 0 < hashDelta
  delta_le : hashDelta ≤ sizHashBucket
  fits : sizHashBucket + hashDelta < 2 ^ 31

/-- `SIZ_DATABASE`, `SIZ_HASH_BUCKET` and `HASH_DELTA` as shipped. -/
def shipped : KvsConst where
  sizDatabase := 10000000
  sizHashBucket := 100000000
  hashDelta := 13
  database_pos := by norm_num
  database_le := by norm_num
  delta_pos := by norm_num
  delta_le := by norm_num
  fits := by norm_num

def smallConsts : KvsConst where
  sizDatabase := 4
  sizHashBucket := 8
  hashDelta := 3
  database_pos := by norm_num
  database_le := by norm_num
  delta_pos := by norm_num
  delta_le := by norm_num
  fits := by norm_num

/-- The assertion of `KVS::lock` and `KVS::unlock`. -/
def KvsConst.inRange (P : KvsConst) (key : CInt) : Prop :=
  0 ≤ key.toInt ∧ key.toInt < P.sizDatabase

instance (P : KvsConst) (key : CInt) : Decidable (P.inRange key) :=
  inferInstanceAs (Decidable (_ ∧ _))

/-- `HASH_OBJECT`. -/
structure HashObject where
  key : CInt
  value : CInt

def invalidKey : CInt := BitVec.ofInt 32 (-100)

section Probe

variable (P : KvsConst)

/-- One step of a probe sequence, with its wrap-around. -/
def nextBucket (bid : Int) : Int :=
  if bid + P.hashDelta ≥ P.sizHashBucket then bid + P.hashDelta - P.sizHashBucket
  else bid + P.hashDelta

/-- A probe loop: the first bucket with the wanted kind of key. The bucket numbers repeat after
`SIZ_HASH_BUCKET` steps, so a loop that finds nothing within that fuel never ends. -/
def probe (hash : Int → HashObject) (stop : CInt → Bool) : Nat → Int → Option Int
  | 0, _ => none
  | fuel + 1, bid =>
    if bid < 0 ∨ (P.sizHashBucket : Int) ≤ bid then none
    else if stop (hash bid).key then some bid
    else probe hash stop fuel (nextBucket P bid)

/-- The home bucket `key % SIZ_HASH_BUCKET`, with the sign rule of C. -/
def homeBucket (key : CInt) : Int := key.toInt.tmod P.sizHashBucket

/-- The loop of `index_read` and `index_update`. -/
def findBucket (hash : Int → HashObject) (key : CInt) : Option Int :=
  probe P hash (· == key) P.sizHashBucket (homeBucket P key)

/-- The loop of `KVS::KVS` that looks for an empty bucket. -/
def freeBucket (hash : Int → HashObject) (key : CInt) : Option Int :=
  probe P hash (· == invalidKey) P.sizHashBucket (homeBucket P key)

/-- The table after the constructor inserted the keys below `n`. -/
def buildIndex (key value : Nat → CInt) : Nat → Option (Int → HashObject)
  | 0 => some (fun _ => ⟨invalidKey, 0⟩)
  | n + 1 => do
    let hash ← buildIndex key value n
    let bid ← freeBucket P hash (key n)
    some (Function.update hash bid ⟨key n, value n⟩)

variable {P}

private theorem homeBucket_of_inRange {key : CInt} (ok : P.inRange key) :
    homeBucket P key = key.toInt := by
  have small := P.database_le
  obtain ⟨low, high⟩ := ok
  exact Int.tmod_eq_of_lt low (by omega)

private theorem probe_first {hash : Int → HashObject} {stop : CInt → Bool} {bid : Int}
    (low : 0 ≤ bid) (high : bid < P.sizHashBucket) (hit : stop (hash bid).key = true) :
    probe P hash stop P.sizHashBucket bid = some bid := by
  obtain ⟨n, hn⟩ : ∃ n, P.sizHashBucket = n + 1 := by
    have := P.database_pos
    have := P.database_le
    exact ⟨P.sizHashBucket - 1, by omega⟩
  have inside : ¬ (bid < 0 ∨ (P.sizHashBucket : Int) ≤ bid) := by omega
  have unfoldOnce : probe P hash stop (n + 1) bid = some bid := by
    simp [probe, inside, hit]
  rwa [← hn] at unfoldOnce

private theorem findBucket_home {hash : Int → HashObject} {key : CInt} (ok : P.inRange key)
    (home : (hash key.toInt).key = key) : findBucket P hash key = some key.toInt := by
  have small := P.database_le
  unfold findBucket
  rw [homeBucket_of_inRange ok]
  exact probe_first ok.1 (by have := ok.2; omega) (by simp [home])

theorem toInt_ofNat_small {i : Nat} (hi : i < P.sizDatabase) :
    (BitVec.ofNat 32 i).toInt = (i : Int) := by
  have := P.fits
  have := P.database_le
  rw [BitVec.toInt_ofNat', Int.bmod_eq_of_le] <;> omega

theorem inRange_ofNat {i : Nat} (hi : i < P.sizDatabase) : P.inRange (BitVec.ofNat 32 i) := by
  unfold KvsConst.inRange
  rw [toInt_ofNat_small hi]
  omega

theorem ofNat_toNat_of_inRange {key : CInt} (ok : P.inRange key) :
    BitVec.ofNat 32 key.toInt.toNat = key := by
  have small : key.toInt.toNat < P.sizDatabase := by
    have := ok.1
    have := ok.2
    omega
  apply BitVec.eq_of_toInt_eq
  rw [toInt_ofNat_small small]
  have := ok.1
  omega

/-- Every key finds its home bucket empty, so the constructor's loops end at once and each key
ends up in the bucket of its own number. -/
theorem buildIndex_spec (value : Nat → CInt) (n : Nat) (hn : n ≤ P.sizDatabase) :
    ∃ hash, buildIndex P (BitVec.ofNat 32) value n = some hash ∧
      (∀ i < n, hash i = ⟨BitVec.ofNat 32 i, value i⟩) ∧
      ∀ b : Int, n ≤ b → (hash b).key = invalidKey := by
  induction n with
  | zero => exact ⟨_, rfl, by simp, by simp⟩
  | succ n ih =>
    obtain ⟨hash, built, filled, empty⟩ := ih (by omega)
    have ok : P.inRange (BitVec.ofNat 32 n) := inRange_ofNat (by omega)
    have small := P.database_le
    have free : freeBucket P hash (BitVec.ofNat 32 n) = some (n : Int) := by
      unfold freeBucket
      rw [homeBucket_of_inRange ok, toInt_ofNat_small (P := P) (by omega)]
      exact probe_first (by omega) (by omega) (by simp [empty n le_rfl])
    refine ⟨Function.update hash (n : Int) ⟨BitVec.ofNat 32 n, value n⟩,
      by simp [buildIndex, built, free], ?_, ?_⟩
    · intro i hi
      by_cases last : i = n
      · simp [last]
      · rw [Function.update_of_ne (by omega)]
        exact filled i (by omega)
    · intro b hb
      rw [Function.update_of_ne (by omega)]
      exact empty b (by omega)

end Probe

/-- `KVS`. Every key of the database sits in its home bucket: the constructor establishes this
and no operation moves a key. -/
structure KVS (P : KvsConst) where
  key : Nat → CInt
  value : Nat → CInt
  hash : Int → HashObject
  mutex : CInt → Bool
  indexed : ∀ k, P.inRange k → (hash k.toInt).key = k

namespace KVS

variable {P : KvsConst}

/-- `KVS::KVS`, where `rand` gives the values drawn for the keys. -/
def new (P : KvsConst) (rand : Nat → CInt) : KVS P where
  key := BitVec.ofNat 32
  value := rand
  hash := (buildIndex P (BitVec.ofNat 32) rand P.sizDatabase).getD (fun _ => ⟨invalidKey, 0⟩)
  mutex := fun _ => false
  indexed := by
    intro k ok
    obtain ⟨hash, built, filled, -⟩ := buildIndex_spec (P := P) rand _ le_rfl
    have small : k.toInt.toNat < P.sizDatabase := by have := ok.1; have := ok.2; omega
    have here := filled _ small
    rw [Int.toNat_of_nonneg ok.1] at here
    simp [built, here, ofNat_toNat_of_inRange ok]

def setMutex (kvs : KVS P) (k : CInt) (held : Bool) : KVS P :=
  { kvs with mutex := Function.update kvs.mutex k held }

/-- `KVS::lock`: whether the trylock succeeded, or `none` when the assertion fails. -/
def lock (kvs : KVS P) (k : CInt) : Option (Bool × KVS P) :=
  if P.inRange k then
    if kvs.mutex k then some (false, kvs)
    else some (true, kvs.setMutex k true)
  else none

/-- `KVS::unlock`. -/
def unlock (kvs : KVS P) (k : CInt) : Option (KVS P) :=
  if P.inRange k then some (kvs.setMutex k false) else none

/-- `KVS::index_read`; `none` stands for a loop that leaves the table or never ends. -/
def indexRead (kvs : KVS P) (k : CInt) : Option CInt :=
  (findBucket P kvs.hash k).map (fun bid => (kvs.hash bid).value)

/-- `this->hash[bid].value = value`. -/
def setBucket (kvs : KVS P) (bid : Int) (v : CInt) : KVS P :=
  { kvs with
    hash := Function.update kvs.hash bid { kvs.hash bid with value := v }
    indexed := by
      intro q ok
      by_cases same : q.toInt = bid
      · rw [same, Function.update_self, ← same]
        exact kvs.indexed q ok
      · rw [Function.update_of_ne same]
        exact kvs.indexed q ok }

/-- `KVS::index_update`. -/
def indexUpdate (kvs : KVS P) (k v : CInt) : Option (KVS P) :=
  (findBucket P kvs.hash k).map (fun bid => kvs.setBucket bid v)

/-- `KVS::read`: a scan of the array. -/
def read (kvs : KVS P) (k : CInt) : CInt :=
  match (List.range P.sizDatabase).find? (fun i => k == kvs.key i) with
  | some i => kvs.value i
  | none => 0

/-- `KVS::update`, which scans the array as well. -/
def update (kvs : KVS P) (k v : CInt) : KVS P :=
  { kvs with
    value := fun i => if i < P.sizDatabase ∧ k = kvs.key i then v else kvs.value i }

/-- The lines that `KVS::printAll` prints. -/
def printAll (kvs : KVS P) : List (CInt × CInt) :=
  (List.range P.sizDatabase).map (fun i => (kvs.key i, kvs.value i))

def balance (kvs : KVS P) (k : CInt) : CInt := (kvs.hash k.toInt).value

@[simp] theorem balance_setMutex (kvs : KVS P) (k : CInt) (held : Bool) :
    (kvs.setMutex k held).balance = kvs.balance := rfl

@[simp] theorem mutex_setMutex (kvs : KVS P) (k : CInt) (held : Bool) :
    (kvs.setMutex k held).mutex = Function.update kvs.mutex k held := rfl

theorem indexRead_eq (kvs : KVS P) {k : CInt} (ok : P.inRange k) :
    kvs.indexRead k = some (kvs.balance k) := by
  simp [indexRead, balance, findBucket_home ok (kvs.indexed k ok)]

@[simp] theorem setBucket_mutex (kvs : KVS P) (bid : Int) (v : CInt) :
    (kvs.setBucket bid v).mutex = kvs.mutex := rfl

@[simp] theorem balance_setBucket (kvs : KVS P) (k v : CInt) :
    (kvs.setBucket k.toInt v).balance = Function.update kvs.balance k v := by
  funext q
  by_cases same : q = k
  · simp [balance, setBucket, same]
  · have apart : q.toInt ≠ k.toInt := fun h => same (BitVec.eq_of_toInt_eq h)
    simp [balance, setBucket, same, apart]

theorem indexUpdate_eq (kvs : KVS P) {k : CInt} (v : CInt) (ok : P.inRange k) :
    kvs.indexUpdate k v = some (kvs.setBucket k.toInt v) := by
  simp [indexUpdate, findBucket_home ok (kvs.indexed k ok)]

theorem lock_eq_some {kvs kvs' : KVS P} {k : CInt} {ok : Bool} :
    kvs.lock k = some (ok, kvs') ↔ P.inRange k ∧ ok = !kvs.mutex k ∧
      kvs' = if kvs.mutex k then kvs else kvs.setMutex k true := by
  unfold lock
  by_cases range : P.inRange k
  · cases held : kvs.mutex k <;> simp [range, eq_comm]
  · simp [range]

theorem unlock_eq_some {kvs kvs' : KVS P} {k : CInt} :
    kvs.unlock k = some kvs' ↔ P.inRange k ∧ kvs' = kvs.setMutex k false := by
  unfold unlock
  by_cases range : P.inRange k <;> simp [range, eq_comm]

end KVS

end Raft2pl.TwoPl
