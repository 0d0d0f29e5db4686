/- A request on its way through retries, buffer, task and commit, and the transfer it makes. -/

import Raft2pl.Server.Notifier

set_option autoImplicit false
set_option relaxedAutoImplicit false

namespace Raft2pl.Server

open Lib (Move)
open TwoPl (KvsConst KVS transferWork commitWork)

section Journey

variable {P : KvsConst}

/-- Any number of failed `transferWork` calls on one request object, each on the store as it is
by then, and the call that succeeds. -/
inductive Acquired (P : KvsConst) : ClientRequest → ClientRequest → Prop
  | success {kvs kvs' : KVS P} {req req' : ClientRequest}
      (done : transferWork kvs req = some (true, kvs', req')) : Acquired P req req'
  | retry {kvs kvs' : KVS P} {req req' req'' : ClientRequest}
      (failed : transferWork kvs req = some (false, kvs', req')) (later : Acquired P req' req'') :
      Acquired P req req''

private theorem acquired_sorted {req req' : ClientRequest} (acquired : Acquired P req req') :
    req' = req.sorted ∧ req'.fromKey ≠ req'.toKey ∧ P.inRange req'.fromKey ∧
      P.inRange req'.toKey := by
  induction acquired with
  | success done =>
    obtain ⟨apart, rfl, okFrom, okTo⟩ := TwoPl.transferWork_true done
    exact ⟨rfl, ClientRequest.sorted_ne apart, okFrom, okTo⟩
  | retry failed _ ih =>
    obtain ⟨-, rfl⟩ := TwoPl.transferWork_false failed
    simpa using ih

variable {N W : Nat}

/-- The way of the request of `orig` from its locks to its commit: worker `w` copies the locked
request to its buffer; by the time `v` stores the batch, later requests follow it there; the task
is found by its number, and the notifier at `j` commits the request on `kvs`. -/
structure Journey (cfg : Config N) (id : Fin W) (orig : TransReq) (w v : Worker N W)
    (tasks : List (Task W)) (j : Job W) (kvs kvs' : KVS cfg.consts) : Prop where
  acquired : Acquired cfg.consts orig.req w.xact.req
  copied : v.logBuffer w.buffid = (w.after cfg .copyToBuffer).logBuffer w.buffid
  inside : w.buffid < v.nlog
  stored : ∀ t ∈ tasks, t.lsn = v.lsn → t = v.task id
  loaded : (taskLoad v.lsn tasks).1 = some j.t
  index : j.i = w.buffid
  committed : ∃ x, j.xact? = some x ∧ commitWork kvs x.req = some kvs'

variable {cfg : Config N} {id : Fin W} {orig : TransReq} {w v : Worker N W} {tasks : List (Task W)}
  {j : Job W} {kvs kvs' : KVS cfg.consts}

private theorem journey_xact (journey : Journey cfg id orig w v tasks j kvs kvs') :
    j.xact? = some w.xact := by
  obtain ⟨number, perm⟩ := taskLoad_some journey.loaded
  have task : j.t = v.task id :=
    journey.stored j.t (perm.symm.subset List.mem_cons_self) number
  have buffer : v.logBuffer w.buffid = w.xact := by
    rw [journey.copied]
    exact Function.update_self _ _ _
  have found : (memcpy v.logBuffer v.nlog)[w.buffid]? = some w.xact := by
    rw [getElem?_memcpy _ journey.inside, buffer]
  rw [Job.xact?, task, journey.index]
  simp only [Worker.task, journey.inside, if_true]
  exact found

private theorem journey_balance (journey : Journey cfg id orig w v tasks j kvs kvs') :
    kvs'.balance = Move.apply kvs.balance orig.req.sorted.move := by
  obtain ⟨locked, apart, okFrom, okTo⟩ := acquired_sorted journey.acquired
  obtain ⟨x, here, done⟩ := journey.committed
  obtain rfl : w.xact = x := Option.some.inj ((journey_xact journey).symm.trans here)
  obtain ⟨kvs₁, made, effect⟩ := TwoPl.commitWork_spec kvs apart okFrom okTo
  obtain rfl : kvs' = kvs₁ := Option.some.inj (done.symm.trans made)
  rw [effect, locked]

/-- The transfer that the client asked for. -/
def Transferred (req : ClientRequest) (before after : CInt → CInt) : Prop :=
  after req.fromKey = before req.fromKey - req.diff ∧
    after req.toKey = before req.toKey + req.diff ∧
    ∀ k, k ≠ req.fromKey → k ≠ req.toKey → after k = before k

private theorem transferred_apply (req : ClientRequest) (apart : req.fromKey ≠ req.toKey)
    (b : CInt → CInt) : Transferred req b (Move.apply b req.move) := by
  rw [← Move.update_update_eq_apply req.move apart b]
  refine ⟨?_, Function.update_self _ _ _, fun k src dst => ?_⟩
  · rw [Function.update_of_ne (show req.fromKey ≠ req.move.dst from apart)]
    exact Function.update_self _ _ _
  · rw [Function.update_of_ne (show k ≠ req.move.dst from dst),
      Function.update_of_ne (show k ≠ req.move.src from src)]

private theorem eq_neg_iff (x : CInt) : x = -x ↔ x = 0 ∨ x = BitVec.intMin 32 := by
  constructor
  · intro own
    have value := congrArg BitVec.toNat own
    have bound := x.isLt
    rw [BitVec.toNat_neg] at value
    have two : x.toNat = 0 ∨ x.toNat = 2 ^ 31 := by omega
    exact two.imp (fun zero => BitVec.eq_of_toNat_eq zero) (fun min => BitVec.eq_of_toNat_eq min)
  · rintro (rfl | rfl) <;> rfl

/-- The exchange of the keys without a change of sign reverses the transfer, unless the amount is
its own negative. -/
theorem transferred_sorted {req : ClientRequest} (apart : req.fromKey ≠ req.toKey)
    (b : CInt → CInt) : Transferred req b (Move.apply b req.sorted.move) ↔
      req.fromKey.slt req.toKey = true ∨ req.diff = 0 ∨ req.diff = BitVec.intMin 32 := by
  rw [← eq_neg_iff]
  cases swap : req.toKey.slt req.fromKey with
  | false =>
    have order : req.fromKey.slt req.toKey = true := by
      have ne : req.fromKey.toInt ≠ req.toKey.toInt := fun eq => apart (BitVec.eq_of_toInt_eq eq)
      simp only [BitVec.slt_eq_decide, decide_eq_true_eq, decide_eq_false_iff_not] at swap ⊢
      omega
    rw [ClientRequest.sorted_of_not_slt swap]
    exact iff_of_true (transferred_apply req apart b) (.inl order)
  | true =>
    have order : req.fromKey.slt req.toKey = false := by
      simp only [BitVec.slt_eq_decide, decide_eq_true_eq, decide_eq_false_iff_not] at swap ⊢
      omega
    rw [ClientRequest.sorted_of_slt swap]
    obtain ⟨src, dst, rest⟩ := transferred_apply { req with
      fromKey := req.toKey, toKey := req.fromKey } apart.symm b
    simp only [order, Bool.false_eq_true, false_or]
    constructor
    · intro done
      have both := dst.symm.trans done.1
      rw [sub_eq_add_neg] at both
      exact add_left_cancel both
    · intro own
      have same : ∀ c : CInt, c - req.diff = c + req.diff := fun c => by
        rw [sub_eq_add_neg, ← own]
      exact ⟨dst.trans (same _).symm, src.trans (same _), fun k ne ne' => rest k ne' ne⟩

/-- A committed transfer goes the way the client asked exactly when the keys came in ascending
order, or its amount is 0 or the least `int`. -/
theorem transfer_direction (apart : orig.req.fromKey ≠ orig.req.toKey)
    (journey : Journey cfg id orig w v tasks j kvs kvs') :
    Transferred orig.req kvs.balance kvs'.balance ↔
      orig.req.fromKey.slt orig.req.toKey = true ∨ orig.req.diff = 0 ∨
        orig.req.diff = BitVec.intMin 32 := by
  rw [journey_balance journey]
  exact transferred_sorted apart kvs.balance

private theorem journey_exists (cfg : Config N) (id : Fin W) (orig : TransReq)
    (apart : orig.req.fromKey ≠ orig.req.toKey) (okFrom : cfg.consts.inRange orig.req.fromKey)
    (okTo : cfg.consts.inRange orig.req.toKey) :
    ∃ (w v : Worker N W) (tasks : List (Task W)) (j : Job W) (kvs kvs' : KVS cfg.consts),
      Journey cfg id orig w v tasks j kvs kvs' := by
  let kvs : KVS cfg.consts := .new _ (fun _ => 0)
  let w : Worker N W := { Worker.start [] with xact := { orig with req := orig.req.sorted } }
  let v : Worker N W := { w.after cfg .copyToBuffer with nlog := 1 }
  obtain ⟨kvs₁, locked⟩ := TwoPl.transferWork_free kvs (fun _ => rfl)
    (ClientRequest.sorted_ne apart) (TwoPl.sorted_inRange okFrom okTo).1
    (TwoPl.sorted_inRange okFrom okTo).2
  obtain ⟨kvs', made, -⟩ := TwoPl.commitWork_spec kvs (ClientRequest.sorted_ne apart)
    (TwoPl.sorted_inRange okFrom okTo).1 (TwoPl.sorted_inRange okFrom okTo).2
  have failed := TwoPl.transferWork_busy (kvs.setMutex orig.req.sorted.fromKey true)
    (by simp) apart (TwoPl.sorted_inRange okFrom okTo).1
  rw [ClientRequest.sorted_sorted] at locked
  let j : Job W := ⟨id, 0, v.task id, 0⟩
  have buffer : v.logBuffer 0 = w.xact := by
    show Function.update w.logBuffer 0 w.xact 0 = w.xact
    exact Function.update_self _ _ _
  have xact : j.xact? = some w.xact := by
    have found : (memcpy v.logBuffer 1)[0]? = some w.xact := by
      rw [getElem?_memcpy _ Nat.zero_lt_one, buffer]
    rw [Job.xact?, if_pos (show j.i < j.t.nlog from Nat.zero_lt_one)]
    exact found
  refine ⟨w, v, [v.task id], j, kvs, kvs', ?_⟩
  exact {
    acquired := .retry failed (.success locked)
    copied := rfl
    inside := Nat.zero_lt_one
    stored := by simp
    loaded := by simp [taskLoad, Worker.task, j]
    index := rfl
    committed := ⟨w.xact, xact, made⟩ }

section Example

def transferConfig : Config 2 := ⟨0, 1, TwoPl.shipped⟩

def upward : TransReq := ⟨0, 7, ⟨1, 3, 5, 0⟩⟩

def downward : TransReq := ⟨0, 7, ⟨3, 1, 5, 0⟩⟩

theorem transfer_direction_upward :
    ∃ kvs kvs' : KVS transferConfig.consts, Transferred upward.req kvs.balance kvs'.balance := by
  obtain ⟨w, v, tasks, j, kvs, kvs', journey⟩ := journey_exists transferConfig (0 : Fin 1)
    upward (by decide) (by decide) (by decide)
  exact ⟨kvs, kvs', (transfer_direction (by decide) journey).mpr (.inl (by decide))⟩

/-- From the larger key to the smaller one the amount goes the wrong way. -/
theorem downward_reversed :
    ∃ (w v : Worker 2 1) (tasks : List (Task 1)) (j : Job 1) (kvs kvs' : KVS transferConfig.consts),
      Journey transferConfig 0 downward w v tasks j kvs kvs' ∧
        ¬ Transferred downward.req kvs.balance kvs'.balance := by
  obtain ⟨w, v, tasks, j, kvs, kvs', journey⟩ := journey_exists transferConfig (0 : Fin 1)
    downward (by decide) (by decide) (by decide)
  refine ⟨w, v, tasks, j, kvs, kvs', journey, ?_⟩
  rw [journey_balance journey, transferred_sorted (by decide)]
  decide

end Example

end Journey

end Raft2pl.Server
