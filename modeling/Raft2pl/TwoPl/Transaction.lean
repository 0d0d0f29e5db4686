/- twopl.cc: locking the two keys of a transfer, and applying it once it is committed. -/

import Raft2pl.TwoPl.Kvs
import Raft2pl.Lib.Accounts

set_option autoImplicit false
set_option relaxedAutoImplicit false

namespace Raft2pl

open Lib (Move)

namespace ClientRequest

/-- The in-place rewriting of `TxnExecutor::transferWork`: the keys in ascending order. -/
def sorted (req : ClientRequest) : ClientRequest :=
  if req.toKey.slt req.fromKey then { req with fromKey := req.toKey, toKey := req.fromKey }
  else req

def keys (req : ClientRequest) : List CInt := [req.fromKey, req.toKey]

def move (req : ClientRequest) : Move CInt CInt := ⟨req.fromKey, req.toKey, req.diff⟩

theorem sorted_of_slt {req : ClientRequest} (swap : req.toKey.slt req.fromKey = true) :
    req.sorted = { req with fromKey := req.toKey, toKey := req.fromKey } := by
  simp [sorted, swap]

theorem sorted_of_not_slt {req : ClientRequest} (keep : req.toKey.slt req.fromKey = false) :
    req.sorted = req := by
  simp [sorted, keep]

@[simp] theorem sorted_sorted (req : ClientRequest) : req.sorted.sorted = req.sorted := by
  cases swap : req.toKey.slt req.fromKey with
  | false => rw [sorted_of_not_slt swap, sorted_of_not_slt swap]
  | true =>
    rw [sorted_of_slt swap]
    apply sorted_of_not_slt
    simp only [BitVec.slt_eq_decide, decide_eq_true_eq, decide_eq_false_iff_not] at swap ⊢
    omega

theorem sorted_ne {req : ClientRequest} (apart : req.fromKey ≠ req.toKey) :
    req.sorted.fromKey ≠ req.sorted.toKey := by
  cases swap : req.toKey.slt req.fromKey with
  | false => rwa [sorted_of_not_slt swap]
  | true => rw [sorted_of_slt swap]; exact apart.symm

end ClientRequest

namespace TwoPl

variable {P : KvsConst}

/-- `TxnExecutor::transferWork`, with the request as it leaves it; `none` when an assertion
fails. -/
def transferWork (kvs : KVS P) (req : ClientRequest) : Option (Bool × KVS P × ClientRequest) :=
  if req.fromKey = req.toKey then none
  else do
    let (gotFrom, kvs) ← kvs.lock req.sorted.fromKey
    if gotFrom then
      let (gotTo, kvs) ← kvs.lock req.sorted.toKey
      if gotTo then some (true, kvs, req.sorted)
      else
        let kvs ← kvs.unlock req.sorted.fromKey
        some (false, kvs, req.sorted)
    else some (false, kvs, req.sorted)

/-- What the assertions on the way of a request through the server demand of it. -/
def Valid (P : KvsConst) (req : ClientRequest) : Prop :=
  req.fromKey ≠ req.toKey ∧ P.inRange req.fromKey ∧ P.inRange req.toKey

instance (P : KvsConst) (req : ClientRequest) : Decidable (Valid P req) :=
  inferInstanceAs (Decidable (_ ∧ _ ∧ _))

/-- Where a `DB::commitWork` call stands, with the local values it has computed. -/
inductive CommitStage
  | indexReadFrom
  | indexReadTo (fromVal : CInt)
  | indexUpdateFrom (fromVal toVal : CInt)
  | indexUpdateTo (toVal : CInt)
  | unlockFrom
  | unlockTo
  | returned
  deriving DecidableEq

/-- The next call that `DB::commitWork` makes on the store. -/
def commitStep (req : ClientRequest) (kvs : KVS P) :
    CommitStage → Option (KVS P × CommitStage)
  | .indexReadFrom => do
    let fromVal ← kvs.indexRead req.fromKey
    some (kvs, .indexReadTo fromVal)
  | .indexReadTo fromVal => do
    let toVal ← kvs.indexRead req.toKey
    some (kvs, .indexUpdateFrom (fromVal - req.diff) (toVal + req.diff))
  | .indexUpdateFrom fromVal toVal => do
    let kvs ← kvs.indexUpdate req.fromKey fromVal
    some (kvs, .indexUpdateTo toVal)
  | .indexUpdateTo toVal => do
    let kvs ← kvs.indexUpdate req.toKey toVal
    some (kvs, .unlockFrom)
  | .unlockFrom => do
    let kvs ← kvs.unlock req.fromKey
    some (kvs, .unlockTo)
  | .unlockTo => do
    let kvs ← kvs.unlock req.toKey
    some (kvs, .returned)
  | .returned => none

/-- `DB::commitWork` without interference. -/
def commitWork (kvs : KVS P) (req : ClientRequest) : Option (KVS P) := do
  let fromVal ← kvs.indexRead req.fromKey
  let toVal ← kvs.indexRead req.toKey
  let kvs ← kvs.indexUpdate req.fromKey (fromVal - req.diff)
  let kvs ← kvs.indexUpdate req.toKey (toVal + req.diff)
  let kvs ← kvs.unlock req.fromKey
  kvs.unlock req.toKey

def commitSteps (req : ClientRequest) : Nat → KVS P → CommitStage → Option (KVS P × CommitStage)
  | 0, kvs, stage => some (kvs, stage)
  | n + 1, kvs, stage => match commitStep req kvs stage with
    | none => none
    | some (kvs', stage') => commitSteps req n kvs' stage'

/-- The six calls add up to `commitWork`. -/
theorem commitSteps_eq_commitWork (req : ClientRequest) (kvs : KVS P) :
    commitSteps req 6 kvs .indexReadFrom =
      (commitWork kvs req).map (fun kvs' => (kvs', .returned)) := by
  cases read : kvs.indexRead req.fromKey with
  | none => simp [commitSteps, commitStep, commitWork, read]
  | some fromVal =>
    cases readTo : kvs.indexRead req.toKey with
    | none => simp [commitSteps, commitStep, commitWork, read, readTo]
    | some toVal =>
      simp only [commitSteps, commitStep, commitWork, read, readTo, Option.bind_eq_bind,
        Option.bind_some]
      cases kvs.indexUpdate req.fromKey (fromVal - req.diff) with
      | none => rfl
      | some kvs₁ =>
        simp only [Option.bind_some]
        cases kvs₁.indexUpdate req.toKey (toVal + req.diff) with
        | none => rfl
        | some kvs₂ =>
          simp only [Option.bind_some]
          cases kvs₂.unlock req.fromKey with
          | none => rfl
          | some kvs₃ =>
            simp only [Option.bind_some]
            cases kvs₃.unlock req.toKey <;> rfl

theorem commitWork_eq (kvs : KVS P) {req : ClientRequest} (okFrom : P.inRange req.fromKey)
    (okTo : P.inRange req.toKey) : commitWork kvs req =
      some ((((kvs.setBucket req.fromKey.toInt (kvs.balance req.fromKey - req.diff)).setBucket
        req.toKey.toInt (kvs.balance req.toKey + req.diff)).setMutex req.fromKey false).setMutex
        req.toKey false) := by
  simp [commitWork, KVS.indexRead_eq _ okFrom, KVS.indexRead_eq _ okTo,
    KVS.indexUpdate_eq _ _ okFrom, KVS.indexUpdate_eq _ _ okTo, KVS.unlock, okFrom, okTo]

theorem commitWork_spec (kvs : KVS P) {req : ClientRequest} (apart : req.fromKey ≠ req.toKey)
    (okFrom : P.inRange req.fromKey) (okTo : P.inRange req.toKey) :
    ∃ kvs', commitWork kvs req = some kvs' ∧ kvs'.balance = Move.apply kvs.balance req.move := by
  refine ⟨_, commitWork_eq kvs okFrom okTo, ?_⟩
  simpa [ClientRequest.move] using Move.update_update_eq_apply req.move apart kvs.balance

theorem transferWork_true {kvs kvs' : KVS P} {req req' : ClientRequest}
    (done : transferWork kvs req = some (true, kvs', req')) :
    req.fromKey ≠ req.toKey ∧ req' = req.sorted ∧ P.inRange req'.fromKey ∧
      P.inRange req'.toKey := by
  unfold transferWork at done
  split at done
  · cases done
  · rename_i apart
    simp only [Option.bind_eq_bind, Option.bind_eq_some_iff] at done
    obtain ⟨⟨gotFrom, kvs₁⟩, first, done⟩ := done
    have okFrom := (KVS.lock_eq_some.mp first).1
    cases gotFrom with
    | false => simp at done
    | true =>
      simp only [if_true, Option.bind_eq_some_iff] at done
      obtain ⟨⟨gotTo, kvs₂⟩, second, done⟩ := done
      have okTo := (KVS.lock_eq_some.mp second).1
      cases gotTo with
      | false => simp [Option.bind_eq_some_iff] at done
      | true =>
        simp only [if_true, Option.some.injEq, Prod.mk.injEq, true_and] at done
        obtain ⟨-, rfl⟩ := done
        exact ⟨apart, rfl, okFrom, okTo⟩

theorem transferWork_false {kvs kvs' : KVS P} {req req' : ClientRequest}
    (done : transferWork kvs req = some (false, kvs', req')) :
    req.fromKey ≠ req.toKey ∧ req' = req.sorted := by
  unfold transferWork at done
  split at done
  · cases done
  · rename_i apart
    simp only [Option.bind_eq_bind, Option.bind_eq_some_iff] at done
    obtain ⟨⟨gotFrom, kvs₁⟩, first, done⟩ := done
    refine ⟨apart, ?_⟩
    cases gotFrom with
    | false =>
      simp only [Bool.false_eq_true, if_false, Option.some.injEq, Prod.mk.injEq, true_and] at done
      exact done.2.symm
    | true =>
      simp only [if_true, Option.bind_eq_some_iff] at done
      obtain ⟨⟨gotTo, kvs₂⟩, second, done⟩ := done
      cases gotTo with
      | true => simp at done
      | false =>
        simp only [Bool.false_eq_true, if_false, Option.bind_eq_some_iff, Option.some.injEq,
          Prod.mk.injEq, true_and] at done
        obtain ⟨kvs₃, -, -, rfl⟩ := done
        rfl

theorem sorted_inRange {req : ClientRequest} (okFrom : P.inRange req.fromKey)
    (okTo : P.inRange req.toKey) :
    P.inRange req.sorted.fromKey ∧ P.inRange req.sorted.toKey := by
  unfold ClientRequest.sorted
  split
  · exact ⟨okTo, okFrom⟩
  · exact ⟨okFrom, okTo⟩

theorem valid_sorted {req : ClientRequest} (valid : Valid P req) : Valid P req.sorted :=
  ⟨ClientRequest.sorted_ne valid.1, sorted_inRange valid.2.1 valid.2.2⟩

theorem transferWork_free (kvs : KVS P) {req : ClientRequest} (free : ∀ k, kvs.mutex k = false)
    (apart : req.fromKey ≠ req.toKey) (okFrom : P.inRange req.fromKey)
    (okTo : P.inRange req.toKey) :
    ∃ kvs', transferWork kvs req = some (true, kvs', req.sorted) := by
  have ok := sorted_inRange okFrom okTo
  have ne := ClientRequest.sorted_ne apart
  simp [transferWork, apart, KVS.lock, ok, free, ne.symm]

theorem transferWork_busy (kvs : KVS P) {req : ClientRequest}
    (busy : kvs.mutex req.sorted.fromKey = true) (apart : req.fromKey ≠ req.toKey)
    (ok : P.inRange req.sorted.fromKey) :
    transferWork kvs req = some (false, kvs, req.sorted) := by
  simp [transferWork, apart, KVS.lock, ok, busy]

end TwoPl

end Raft2pl
