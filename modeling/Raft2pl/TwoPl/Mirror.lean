/- The two copies of the values that a store keeps, in its array and in its index. -/

import Raft2pl.TwoPl.Transaction
import Raft2pl.Lib.Run

set_option autoImplicit false
set_option relaxedAutoImplicit false

namespace Raft2pl.TwoPl

open Lib (Run Steps exec_reaches)

/-- The calls that change values of a store. -/
inductive StoreCall
  | update (key value : CInt)
  | indexUpdate (key value : CInt)
  | commitWork (req : ClientRequest)
  deriving DecidableEq

namespace StoreCall

def InRange (P : KvsConst) : StoreCall → Prop
  | update k _ => P.inRange k
  | indexUpdate k _ => P.inRange k
  | commitWork req => P.inRange req.fromKey ∧ P.inRange req.toKey

instance (P : KvsConst) (c : StoreCall) : Decidable (c.InRange P) := by
  cases c <;> unfold InRange <;> infer_instance

/-- What a call makes of the values in the array: only `update` knows them. -/
def onArray (b : CInt → CInt) : StoreCall → CInt → CInt
  | update k v => Function.update b k v
  | _ => b

/-- What a call makes of the values in the index: `update` does not know them. -/
def onIndex (b : CInt → CInt) : StoreCall → CInt → CInt
  | update _ _ => b
  | indexUpdate k v => Function.update b k v
  | commitWork req => Function.update (Function.update b req.fromKey (b req.fromKey - req.diff))
      req.toKey (b req.toKey + req.diff)

/-- The call writes what `b` holds already. -/
def Keeps (b : CInt → CInt) : StoreCall → Prop
  | update k v => v = b k
  | indexUpdate k v => v = b k
  | commitWork req => req.diff = 0

variable {b : CInt → CInt} {c : StoreCall} {P : KvsConst} {cs : List StoreCall}

private theorem onArray_of_keeps (keeps : c.Keeps b) : onArray b c = b := by
  cases c with
  | update k v =>
    obtain rfl : v = b k := keeps
    exact Function.update_eq_self _ _
  | indexUpdate k v => rfl
  | commitWork req => rfl

private theorem onIndex_of_keeps (keeps : c.Keeps b) : onIndex b c = b := by
  cases c with
  | update k v => rfl
  | indexUpdate k v =>
    obtain rfl : v = b k := keeps
    exact Function.update_eq_self _ _
  | commitWork req =>
    have none : req.diff = 0 := keeps
    simp [onIndex, none]

/-- Each call reaches one of the copies only, so after it they agree on the keys of the database
only if the call has changed nothing. -/
theorem keeps_of_agree (ok : c.InRange P)
    (agree : ∀ k, P.inRange k → onArray b c k = onIndex b c k) : c.Keeps b := by
  cases c with
  | update k v => simpa [onArray, onIndex, Keeps] using agree k ok
  | indexUpdate k v => simpa [onArray, onIndex, Keeps, eq_comm] using agree k ok
  | commitWork req =>
    -- whether or not the two keys are different, the receiver's bucket is written last
    simpa [onArray, onIndex, Keeps] using agree req.toKey ok.2

private theorem folds_of_keeps (keeps : ∀ c ∈ cs, c.Keeps b) :
    cs.foldl onArray b = b ∧ cs.foldl onIndex b = b := by
  induction cs with
  | nil => exact ⟨rfl, rfl⟩
  | cons c rest ih =>
    have here := keeps c List.mem_cons_self
    rw [List.foldl_cons, List.foldl_cons, onArray_of_keeps here, onIndex_of_keeps here]
    exact ih (fun c' member => keeps c' (List.mem_cons_of_mem c member))

private theorem agree_throughout_iff (ok : ∀ c ∈ cs, c.InRange P) :
    (∀ pre, pre <+: cs → ∀ k, P.inRange k → pre.foldl onArray b k = pre.foldl onIndex b k) ↔
      ∀ c ∈ cs, c.Keeps b := by
  constructor
  · intro agree
    induction cs using List.reverseRecOn with
    | nil => simp
    | append_singleton cs c ih =>
      have before := ih (fun c' member => ok c' (List.mem_append_left _ member))
        (fun pre part => agree pre (part.trans (List.prefix_append cs [c])))
      intro c' member
      rcases List.mem_append.mp member with old | new
      · exact before c' old
      · obtain rfl := List.mem_singleton.mp new
        obtain ⟨array, index⟩ := folds_of_keeps before
        refine keeps_of_agree (ok c' member) (fun k range => ?_)
        have last := agree _ (List.prefix_refl _) k range
        rwa [List.foldl_append, List.foldl_append, array, index] at last
  · intro keeps pre part k _
    obtain ⟨array, index⟩ := folds_of_keeps (fun c member => keeps c (part.subset member))
    rw [array, index]

end StoreCall

namespace KVS

open StoreCall (onArray onIndex)

variable {P : KvsConst} {kvs kvs' : KVS P} {c : StoreCall} {rand : Nat → CInt} {cs : List StoreCall}

/-- One of the calls. -/
def apply (kvs : KVS P) : StoreCall → Option (KVS P)
  | .update k v => some (kvs.update k v)
  | .indexUpdate k v => kvs.indexUpdate k v
  | .commitWork req => TwoPl.commitWork kvs req

/-- The law that the debugging version of `index_read` checks, for every key of the database; and
`printAll` prints for each key the balance that is read for it. -/
structure Mirrored (kvs : KVS P) : Prop where
  read : ∀ k, P.inRange k → kvs.indexRead k = some (kvs.read k)
  printed : ∀ e ∈ kvs.printAll, kvs.indexRead e.1 = some e.2

def initial (rand : Nat → CInt) (k : CInt) : CInt := rand k.toInt.toNat

def Ordered (kvs : KVS P) : Prop := ∀ i < P.sizDatabase, kvs.key i = BitVec.ofNat 32 i

theorem index_lt {k : CInt} (ok : P.inRange k) : k.toInt.toNat < P.sizDatabase := by
  have := ok.1
  have := ok.2
  omega

private theorem slot_iff (ordered : kvs.Ordered) {k : CInt} (ok : P.inRange k) {i : Nat}
    (small : i < P.sizDatabase) : k = kvs.key i ↔ i = k.toInt.toNat := by
  rw [ordered i small]
  constructor
  · intro eq
    rw [eq, toInt_ofNat_small small]
    rfl
  · rintro rfl
    exact (ofNat_toNat_of_inRange ok).symm

private theorem read_eq (ordered : kvs.Ordered) {k : CInt} (ok : P.inRange k) :
    kvs.read k = kvs.value k.toInt.toNat := by
  have found : (List.range P.sizDatabase).find? (fun i => k == kvs.key i) =
      some k.toInt.toNat := by
    rw [List.find?_range_eq_some]
    refine ⟨?_, List.mem_range.mpr (index_lt ok), fun j before => ?_⟩
    · simpa using (slot_iff ordered ok (index_lt ok)).mpr rfl
    · have other : ¬ k = kvs.key j := fun eq => by
        have := (slot_iff ordered ok (by have := index_lt ok; omega)).mp eq
        omega
      simpa using other
  rw [read, found]

theorem read_update (ordered : kvs.Ordered) {k : CInt} (v : CInt) (ok : P.inRange k) {q : CInt}
    (range : P.inRange q) : (kvs.update k v).read q = Function.update kvs.read k v q := by
  have kept : (kvs.update k v).Ordered := ordered
  rw [read_eq kept range, update]
  by_cases same : q = k
  · subst same
    simp [index_lt range, slot_iff ordered range (index_lt range)]
  · have other : ¬ k = kvs.key q.toInt.toNat := fun eq => by
      have slots := (slot_iff ordered ok (index_lt range)).mp eq
      rw [← ofNat_toNat_of_inRange range, slots, ofNat_toNat_of_inRange ok] at same
      exact same rfl
    simp [same, other, read_eq ordered range]

private theorem apply_spec (ordered : kvs.Ordered) (ok : c.InRange P) :
    ∃ kvs', kvs.apply c = some kvs' ∧ kvs'.Ordered ∧
      (∀ k, P.inRange k → kvs'.read k = onArray kvs.read c k) ∧
      kvs'.balance = onIndex kvs.balance c := by
  cases c with
  | update k v =>
    exact ⟨_, rfl, ordered, fun q range => read_update ordered v ok range, rfl⟩
  | indexUpdate k v =>
    exact ⟨_, indexUpdate_eq kvs v ok, ordered, fun _ _ => rfl, balance_setBucket kvs k v⟩
  | commitWork req =>
    refine ⟨_, commitWork_eq kvs ok.1 ok.2, ordered, fun _ _ => rfl, ?_⟩
    simp [onIndex]

theorem ordered_new : (KVS.new P rand).Ordered := fun _ _ => rfl

theorem read_new {k : CInt} (ok : P.inRange k) : (KVS.new P rand).read k = initial rand k :=
  read_eq ordered_new ok

theorem balance_new {k : CInt} (ok : P.inRange k) :
    (KVS.new P rand).balance k = initial rand k := by
  obtain ⟨hash, built, filled, -⟩ := buildIndex_spec (P := P) rand _ le_rfl
  have here := filled _ (index_lt ok)
  rw [Int.toNat_of_nonneg ok.1] at here
  simp [balance, new, built, here, initial]

private theorem onArray_congr {b b' : CInt → CInt} (same : ∀ k, P.inRange k → b k = b' k)
    (c : StoreCall) :
    ∀ k, P.inRange k → onArray b c k = onArray b' c k := by
  intro k range
  cases c with
  | update key v => by_cases eq : k = key <;> simp [onArray, eq, same k range]
  | indexUpdate key v => exact same k range
  | commitWork req => exact same k range

private theorem onIndex_congr {b b' : CInt → CInt} (same : ∀ k, P.inRange k → b k = b' k)
    (ok : c.InRange P) : ∀ k, P.inRange k → onIndex b c k = onIndex b' c k := by
  intro k range
  cases c with
  | update key v => exact same k range
  | indexUpdate key v => by_cases eq : k = key <;> simp [onIndex, eq, same k range]
  | commitWork req =>
    by_cases last : k = req.toKey
    · simp [onIndex, last, same _ ok.2]
    · by_cases first : k = req.fromKey
      · subst first
        simp [onIndex, last, same _ range]
      · simp [onIndex, last, first, same k range]

private theorem run_spec (ok : ∀ c ∈ cs, c.InRange P)
    (run : Run (Steps apply) (KVS.new P rand) cs kvs) :
    kvs.Ordered ∧ (∀ k, P.inRange k → kvs.read k = cs.foldl onArray (initial rand) k) ∧
      ∀ k, P.inRange k → kvs.balance k = cs.foldl onIndex (initial rand) k := by
  revert ok
  refine run.invariant (I := fun cs kvs => (∀ c ∈ cs, c.InRange P) → kvs.Ordered ∧
    (∀ k, P.inRange k → kvs.read k = cs.foldl onArray (initial rand) k) ∧
      ∀ k, P.inRange k → kvs.balance k = cs.foldl onIndex (initial rand) k) ?_ ?_
  · exact fun _ => ⟨ordered_new, fun _ range => read_new range, fun _ range => balance_new range⟩
  · intro cs kvs c kvs' _ ih taken ok
    obtain ⟨ordered, array, index⟩ := ih (fun c' member => ok c' (List.mem_append_left _ member))
    have range := ok c (by simp)
    obtain ⟨next, done, ordered', array', index'⟩ := apply_spec ordered range
    obtain rfl : next = kvs' := Option.some.inj (done.symm.trans taken)
    refine ⟨ordered', fun k here => ?_, fun k here => ?_⟩
    · rw [List.foldl_append, List.foldl_cons, List.foldl_nil, array' k here]
      exact onArray_congr array c k here
    · rw [List.foldl_append, List.foldl_cons, List.foldl_nil, index']
      exact onIndex_congr index range k here

theorem runs (rand : Nat → CInt) (ok : ∀ c ∈ cs, c.InRange P) :
    ∃ kvs, Run (Steps apply) (KVS.new P rand) cs kvs := by
  induction cs using List.reverseRecOn with
  | nil => exact ⟨_, .start⟩
  | append_singleton cs c ih =>
    have ok' : ∀ c' ∈ cs, c'.InRange P := fun c' member => ok c' (List.mem_append_left _ member)
    obtain ⟨kvs, run⟩ := ih ok'
    obtain ⟨kvs', done, -⟩ := apply_spec (run_spec ok' run).1 (ok c (by simp))
    exact ⟨kvs', .next run done⟩

private theorem mirrored_iff_read (ordered : kvs.Ordered) :
    kvs.Mirrored ↔ ∀ k, P.inRange k → kvs.read k = kvs.balance k := by
  constructor
  · intro mirrored k range
    have eq := mirrored.read k range
    rw [indexRead_eq kvs range] at eq
    exact (Option.some.inj eq).symm
  · intro same
    have read : ∀ k, P.inRange k → kvs.indexRead k = some (kvs.read k) := fun k range => by
      rw [indexRead_eq kvs range, same k range]
    refine ⟨read, fun e printed => ?_⟩
    obtain ⟨i, member, rfl⟩ := List.mem_map.mp printed
    have small := List.mem_range.mp member
    have range : P.inRange (kvs.key i) := by
      rw [ordered i small]
      exact inRange_ofNat small
    have slot := (slot_iff ordered range small).mp rfl
    rw [read _ range, read_eq ordered range, ← slot]

/-- `update` writes the array and never the index, `index_update` and `commitWork` write the index
and never the array. So after a sequence of calls the two agree just where the updates of each key end
with the value that the other calls give it; and they agree all the way just when no call changes
anything. -/
theorem mirrored_iff (ok : ∀ c ∈ cs, c.InRange P)
    (run : Run (Steps apply) (KVS.new P rand) cs kvs) :
    (kvs.Mirrored ↔ ∀ k, P.inRange k →
      cs.foldl onArray (initial rand) k = cs.foldl onIndex (initial rand) k) ∧
    ((∀ pre post kvs', cs = pre ++ post → Run (Steps apply) (KVS.new P rand) pre kvs' →
      kvs'.Mirrored) ↔ ∀ c ∈ cs, c.Keeps (initial rand)) := by
  have final : ∀ {pre : List StoreCall} {kvs' : KVS P}, (∀ c ∈ pre, c.InRange P) →
      Run (Steps apply) (KVS.new P rand) pre kvs' → (kvs'.Mirrored ↔ ∀ k, P.inRange k →
        pre.foldl onArray (initial rand) k = pre.foldl onIndex (initial rand) k) := by
    intro pre kvs' ok run
    obtain ⟨ordered, array, index⟩ := run_spec ok run
    rw [mirrored_iff_read ordered]
    exact forall₂_congr (fun k range => by rw [array k range, index k range])
  refine ⟨final ok run, ?_⟩
  rw [← StoreCall.agree_throughout_iff ok]
  constructor
  · rintro all pre ⟨post, cut⟩
    have ok' : ∀ c ∈ pre, c.InRange P := fun c member => ok c (cut ▸ List.mem_append_left _ member)
    obtain ⟨kvs', before⟩ := runs rand ok'
    exact (final ok' before).mp (all pre post kvs' cut.symm before)
  · intro agree pre post kvs' cut before
    have part : pre <+: cs := ⟨post, cut.symm⟩
    exact (final (fun c member => ok c (part.subset member)) before).mpr (agree pre part)

section Example

def oneTransfer : List StoreCall := [.commitWork ⟨0, 1, 3, 0⟩]

/-- Storing in one of the copies what is there already keeps the law. -/
theorem mirrored_iff_stores : ∃ kvs, Run (Steps apply) (KVS.new smallConsts (fun _ => 5))
    [.update 2 5, .indexUpdate 1 5] kvs ∧ kvs.Mirrored := by
  have ok : ∀ c ∈ ([.update 2 5, .indexUpdate 1 5] : List StoreCall), c.InRange smallConsts := by
    decide
  have keeps : ∀ c ∈ ([.update 2 5, .indexUpdate 1 5] : List StoreCall),
      c.Keeps (initial (fun _ => 5)) := by
    simp [StoreCall.Keeps, initial]
  obtain ⟨kvs, run⟩ := runs (fun _ => 5) ok
  refine ⟨kvs, run, ((mirrored_iff ok run).2.mpr keeps) _ [] kvs ?_ run⟩
  simp

/-- After a transfer the array, and with it `printAll`, still has the old value. -/
theorem transfer_not_mirrored : ∃ kvs, Run (Steps apply) (KVS.new smallConsts (fun _ => 5))
    oneTransfer kvs ∧ kvs.indexRead 0 = some 2 ∧ kvs.read 0 = 5 ∧ (0, 5) ∈ kvs.printAll := by
  have done : (Lib.exec apply (KVS.new smallConsts (fun _ => 5)) oneTransfer).map (fun kvs =>
      decide (kvs.indexRead 0 = some 2 ∧ kvs.read 0 = 5 ∧ (0, 5) ∈ kvs.printAll)) = some true := by
    decide
  obtain ⟨kvs, run, holds⟩ := exec_reaches done
  exact ⟨kvs, run, of_decide_eq_true holds⟩

end Example

end KVS

end Raft2pl.TwoPl
