/- The leader process: its workers, its notifiers, and the data that they share. -/

import Raft2pl.Server.Notifier
import Raft2pl.Server.Batches

set_option autoImplicit false
set_option relaxedAutoImplicit false

namespace Raft2pl.Server

open Lib (Run Steps)
open TwoPl (KvsConst KVS CommitStage commitStep)

/-- The leader. `votes` and `nextLsn` are the maps and counters behind `addVoteCount` and
`getLogSequenceNumber`; `clientNodes` lists the ids of the clients that were accepted and are not
erased, in that order (`closeClient` does not erase). -/
structure Leader (N W : Nat) (ν : Type) (P : KvsConst) where
  worker : Fin W → Worker N W
  notifier : ν → Notifier N W
  kvs : KVS P
  votes : Int → Nat
  nextLsn : BitVec 64
  clientNodes : List Int

/-- The next call in the leader process. A thread at a failing assertion has none: there the
process ends, and so does its run. -/
inductive LeaderAct (N W : Nat) (ν : Type)
  | acceptClient
  | worker (w : Fin W) (a : WorkerAct N W)
  | notifier (n : ν) (b : NotifierAct N W)
  deriving DecidableEq

def LeaderAct.entry? {N W : Nat} {ν : Type} : LeaderAct N W ν → Option (Fin W × Entry)
  | .worker w a => a.entry?.map (Prod.mk w)
  | _ => none

def LeaderAct.entryAt {N W : Nat} {ν : Type} (v : Fin W) (a : LeaderAct N W ν) : Option Entry :=
  a.entry?.bind (fun p => if p.1 = v then some p.2 else none)

theorem LeaderAct.eq_loggingWork {N W : Nat} {ν : Type} {a : LeaderAct N W ν} {v : Fin W}
    {e : Entry} (label : a.entry? = some (v, e)) : a = .worker v (.loggingWork e) := by
  cases a with
  | worker w b =>
    cases b with
    | loggingWork e' =>
      obtain ⟨rfl, rfl⟩ : w = v ∧ e' = e := by
        simpa [LeaderAct.entry?, WorkerAct.entry?, and_comm] using label
      rfl
    | _ => simp [LeaderAct.entry?, WorkerAct.entry?] at label
  | _ => simp [LeaderAct.entry?] at label

def WorkerAct.direct {N W : Nat} : WorkerAct N W → Bool
  | .taskLoad _ _ | .setCommitIndex _ => false
  | _ => true

namespace Leader

section Step

variable {N W : Nat} {ν : Type} [DecidableEq ν] (cfg : Config N)

/-- The store after a worker's call, if the call returns what the label says. -/
def lockCall (kvs : KVS cfg.consts) (w : Worker N W) : WorkerAct N W → Option (KVS cfg.consts)
  | .lockFrom got => do
      let r ← kvs.lock w.xact.req.sorted.fromKey
      if r.1 = got then some r.2 else none
  | .lockTo got => do
      let r ← kvs.lock w.xact.req.toKey
      if r.1 = got then some r.2 else none
  | .unlockFrom => kvs.unlock w.xact.req.fromKey
  | _ => some kvs

/-- `loggingWork` numbers its entry with the counter of the whole process. -/
def lsnCall (counter : BitVec 64) : WorkerAct N W → Option (BitVec 64)
  | .loggingWork e => if e.lsn = narrowLsn counter then some (counter + 1) else none
  | _ => some counter

def workerStep (s : Leader N W ν cfg.consts) (w : Fin W) (a : WorkerAct N W) :
    Option (Leader N W ν cfg.consts) :=
  if a.direct then do
    let w' ← (s.worker w).step cfg w a
    let kvs' ← lockCall cfg s.kvs (s.worker w) a
    let nextLsn' ← lsnCall s.nextLsn a
    some { s with worker := Function.update s.worker w w', kvs := kvs', nextLsn := nextLsn' }
  else none

def setNotifier (s : Leader N W ν cfg.consts) (n : ν) (next : Notifier N W) :
    Leader N W ν cfg.consts :=
  { s with notifier := Function.update s.notifier n next }

def onWorker (s : Leader N W ν cfg.consts) (w : Fin W) (a : WorkerAct N W) :
    Leader N W ν cfg.consts :=
  { s with worker := Function.update s.worker w ((s.worker w).after cfg a) }

def notifierStep (s : Leader N W ν cfg.consts) (n : ν) (b : NotifierAct N W) :
    Option (Leader N W ν cfg.consts) :=
  match s.notifier n, b with
  | .recv, .recv ack =>
      let nextIndex := (s.worker ack.workerId).nextIndex ack.rNodeId + 1
      some (s.setNotifier cfg n (if ack.success then .vote ack nextIndex else .recv))
  | .vote ack nextIndex, .addVoteCount lsn count =>
      if lsn = ack.lsn ∧ 0 ≤ lsn ∧ count = s.votes lsn + 1 then
        let s' := { s with votes := Function.update s.votes lsn count }
        some (s'.setNotifier cfg n (if N / 2 < count then .load ack nextIndex else .recv))
      else none
  | .load ack nextIndex, .taskLoad w lsn t =>
      if w = ack.workerId ∧ lsn = ack.lsn ∧ t = (taskLoad lsn (s.worker w).taskList).1 then
        some ((s.onWorker cfg w (.taskLoad lsn t)).setNotifier cfg n (.afterLoad w nextIndex t))
      else none
  | .commit j stage, .commitWork op slot =>
      if op = opOf stage ∧ slot.1 = j.place ∧ j.xact? = some slot.2 then do
        let r ← commitStep slot.2.req s.kvs stage
        some ({ s with kvs := r.1 }.setNotifier cfg n (.commit j r.2))
      else none
  | .commit j stage, .setCommitIndex slot index =>
      if stage = .returned ∧ slot.1 = j.place ∧ j.xact? = some slot.2 ∧ index = j.nextIndex then
        some ((s.onWorker cfg j.workerId (.setCommitIndex index)).setNotifier cfg n (.reply j))
      else none
  | .reply j, .sendRPC slot result =>
      if slot.1 = j.place ∧ j.xact? = some slot.2 ∧
          (result = .noClient ↔ slot.2.clientId ∉ s.clientNodes) then
        let clients := if result = .failed then s.clientNodes.erase slot.2.clientId
          else s.clientNodes
        some ({ s with clientNodes := clients }.setNotifier cfg n (.loop j.succ))
      else none
  | _, _ => none

/-- One call in the leader process. -/
def step (s : Leader N W ν cfg.consts) : LeaderAct N W ν → Option (Leader N W ν cfg.consts)
  | .acceptClient => some { s with clientNodes := s.clientNodes ++ [(s.clientNodes.length : Int)] }
  | .worker w a => workerStep cfg s w a
  | .notifier n b => notifierStep cfg s n b

/-- A leader process before its first call, on the logs it found on disk. -/
structure Fresh (s : Leader N W ν cfg.consts) : Prop where
  worker : ∀ w, (s.worker w).Fresh
  notifier : ∀ n, s.notifier n = .recv
  mutex : ∀ k, s.kvs.mutex k = false
  votes : ∀ lsn, s.votes lsn = 0
  nextLsn : s.nextLsn = 0
  clientNodes : s.clientNodes = []

/-- A leader with the given store and logs. -/
def start (kvs : KVS cfg.consts) (file : Fin W → List Entry) : Leader N W ν cfg.consts where
  worker := fun w => Worker.start (file w)
  notifier := fun _ => .recv
  kvs := kvs
  votes := fun _ => 0
  nextLsn := 0
  clientNodes := []

omit [DecidableEq ν] in
theorem start_fresh {kvs : KVS cfg.consts} (free : ∀ k, kvs.mutex k = false)
    (file : Fin W → List Entry) : Fresh cfg (start (N := N) (ν := ν) cfg kvs file) where
  worker := fun w => Worker.start_fresh (file w)
  notifier := fun _ => rfl
  mutex := free
  votes := fun _ => rfl
  nextLsn := rfl
  clientNodes := rfl

end Step

section Inversion

variable {N W : Nat} {ν : Type} [DecidableEq ν] {cfg : Config N}
  {s s' : Leader N W ν cfg.consts} {w : Fin W} {n : ν}

omit [DecidableEq ν] in
theorem workerStep_some {a : WorkerAct N W} (taken : workerStep cfg s w a = some s') :
    a.direct = true ∧ ∃ w' kvs' nextLsn', (s.worker w).step cfg w a = some w' ∧
      lockCall cfg s.kvs (s.worker w) a = some kvs' ∧ lsnCall s.nextLsn a = some nextLsn' ∧
      s' = { s with worker := Function.update s.worker w w', kvs := kvs', nextLsn := nextLsn' } := by
  unfold workerStep at taken
  simp only [Option.ite_none_right_eq_some, Option.bind_eq_bind, Option.bind_eq_some_iff,
    Option.some.injEq] at taken
  obtain ⟨direct, w', moved, kvs', called, nextLsn', counted, done⟩ := taken
  exact ⟨direct, w', kvs', nextLsn', moved, called, counted, done.symm⟩

theorem notifierStep_recv {ack : ResponseAppendEntries N W}
    (taken : notifierStep cfg s n (.recv ack) = some s') :
    s.notifier n = .recv ∧ s' = s.setNotifier cfg n (if ack.success then
      .vote ack ((s.worker ack.workerId).nextIndex ack.rNodeId + 1) else .recv) := by
  unfold notifierStep at taken
  cases here : s.notifier n with
  | recv =>
    simp only [here, Option.some.injEq] at taken
    exact ⟨rfl, taken.symm⟩
  | _ => simp [here] at taken

theorem notifierStep_addVoteCount {lsn : Int} {count : Nat}
    (taken : notifierStep cfg s n (.addVoteCount lsn count) = some s') :
    ∃ ack nextIndex, s.notifier n = .vote ack nextIndex ∧ lsn = ack.lsn ∧ 0 ≤ lsn ∧
      count = s.votes lsn + 1 ∧
      s' = { s with votes := Function.update s.votes lsn count }.setNotifier cfg n
        (if N / 2 < count then .load ack nextIndex else .recv) := by
  unfold notifierStep at taken
  cases here : s.notifier n with
  | vote ack nextIndex =>
    simp only [here, Option.ite_none_right_eq_some, Option.some.injEq] at taken
    obtain ⟨⟨same, nonneg, next⟩, done⟩ := taken
    exact ⟨ack, nextIndex, rfl, same, nonneg, next, done.symm⟩
  | _ => simp [here] at taken

theorem notifierStep_taskLoad {lsn : Int} {t : Option (Task W)}
    (taken : notifierStep cfg s n (.taskLoad w lsn t) = some s') :
    ∃ ack nextIndex, s.notifier n = .load ack nextIndex ∧ w = ack.workerId ∧ lsn = ack.lsn ∧
      t = (taskLoad lsn (s.worker w).taskList).1 ∧
      s' = (s.onWorker cfg w (.taskLoad lsn t)).setNotifier cfg n (.afterLoad w nextIndex t) := by
  unfold notifierStep at taken
  cases here : s.notifier n with
  | load ack nextIndex =>
    simp only [here, Option.ite_none_right_eq_some, Option.some.injEq] at taken
    obtain ⟨⟨same, number, result⟩, done⟩ := taken
    exact ⟨ack, nextIndex, rfl, same, number, result, done.symm⟩
  | _ => simp [here] at taken

theorem notifierStep_commitWork {op : CommitOp} {slot : Place W × TransReq}
    (taken : notifierStep cfg s n (.commitWork op slot) = some s') :
    ∃ j stage kvs' stage', s.notifier n = .commit j stage ∧ op = opOf stage ∧
      slot.1 = j.place ∧ j.xact? = some slot.2 ∧
      commitStep slot.2.req s.kvs stage = some (kvs', stage') ∧
      s' = { s with kvs := kvs' }.setNotifier cfg n (.commit j stage') := by
  unfold notifierStep at taken
  cases here : s.notifier n with
  | commit j stage =>
    simp only [here, Option.ite_none_right_eq_some, Option.bind_eq_bind, Option.bind_eq_some_iff,
      Option.some.injEq] at taken
    obtain ⟨⟨call, place, xact⟩, ⟨kvs', stage'⟩, made, done⟩ := taken
    exact ⟨j, stage, kvs', stage', rfl, call, place, xact, made, done.symm⟩
  | _ => simp [here] at taken

theorem notifierStep_setCommitIndex {slot : Place W × TransReq} {index : Int}
    (taken : notifierStep cfg s n (.setCommitIndex slot index) = some s') :
    ∃ j, s.notifier n = .commit j .returned ∧ slot.1 = j.place ∧ j.xact? = some slot.2 ∧
      index = j.nextIndex ∧
      s' = (s.onWorker cfg j.workerId (.setCommitIndex index)).setNotifier cfg n (.reply j) := by
  unfold notifierStep at taken
  cases here : s.notifier n with
  | commit j stage =>
    simp only [here, Option.ite_none_right_eq_some, Option.some.injEq] at taken
    obtain ⟨⟨rfl, place, xact, same⟩, done⟩ := taken
    exact ⟨j, rfl, place, xact, same, done.symm⟩
  | _ => simp [here] at taken

theorem notifierStep_sendRPC {slot : Place W × TransReq} {result : SendResult}
    (taken : notifierStep cfg s n (.sendRPC slot result) = some s') :
    ∃ j clients, s.notifier n = .reply j ∧ slot.1 = j.place ∧ j.xact? = some slot.2 ∧
      s' = { s with clientNodes := clients }.setNotifier cfg n (.loop j.succ) := by
  unfold notifierStep at taken
  cases here : s.notifier n with
  | reply j =>
    simp only [here, Option.ite_none_right_eq_some, Option.some.injEq] at taken
    obtain ⟨⟨place, xact, -⟩, done⟩ := taken
    exact ⟨j, _, rfl, place, xact, done.symm⟩
  | _ => simp [here] at taken

theorem notifier_frame {b : NotifierAct N W} {m : ν} (taken : step cfg s (.notifier n b) = some s')
    (apart : m ≠ n) : s'.notifier m = s.notifier m := by
  have taken' : notifierStep cfg s n b = some s' := taken
  cases b with
  | recv =>
    obtain ⟨-, rfl⟩ := notifierStep_recv taken'
    simp [setNotifier, apart]
  | addVoteCount =>
    obtain ⟨ack, nextIndex, -, -, -, -, rfl⟩ := notifierStep_addVoteCount taken'
    simp [setNotifier, apart]
  | taskLoad =>
    obtain ⟨ack, nextIndex, -, -, -, -, rfl⟩ := notifierStep_taskLoad taken'
    simp [setNotifier, onWorker, apart]
  | commitWork =>
    obtain ⟨j, stage, kvs', stage', -, -, -, -, -, rfl⟩ := notifierStep_commitWork taken'
    simp [setNotifier, apart]
  | setCommitIndex =>
    obtain ⟨j, -, -, -, -, rfl⟩ := notifierStep_setCommitIndex taken'
    simp [setNotifier, onWorker, apart]
  | sendRPC =>
    obtain ⟨j, clients, -, -, -, rfl⟩ := notifierStep_sendRPC taken'
    simp [setNotifier, apart]

theorem next_lsn {a : LeaderAct N W ν} (taken : step cfg s a = some s') :
    (a.entry? = none ∧ s'.nextLsn = s.nextLsn) ∨
      ∃ v e, a.entry? = some (v, e) ∧ 0 ≤ e.lsn ∧ e.lsn = narrowLsn s.nextLsn ∧
        s'.nextLsn = s.nextLsn + 1 := by
  cases a with
  | acceptClient =>
    simp only [step, Option.some.injEq] at taken
    subst taken
    exact .inl ⟨rfl, rfl⟩
  | worker v a =>
    obtain ⟨-, v', kvs', nextLsn', moved, -, counted, rfl⟩ := workerStep_some taken
    cases a with
    | loggingWork e =>
      simp only [lsnCall, Option.ite_none_right_eq_some, Option.some.injEq] at counted
      obtain ⟨ready, -⟩ := Worker.step_eq_some.mp moved
      exact .inr ⟨v, e, rfl, ready.2.1, counted.1, counted.2.symm⟩
    | _ => exact .inl ⟨rfl, (Option.some.inj counted).symm⟩
  | notifier n b =>
    refine .inl ⟨rfl, ?_⟩
    have taken' : notifierStep cfg s n b = some s' := taken
    cases b with
    | recv =>
      obtain ⟨-, rfl⟩ := notifierStep_recv taken'
      rfl
    | addVoteCount =>
      obtain ⟨ack, nextIndex, -, -, -, -, rfl⟩ := notifierStep_addVoteCount taken'
      rfl
    | taskLoad =>
      obtain ⟨ack, nextIndex, -, -, -, -, rfl⟩ := notifierStep_taskLoad taken'
      rfl
    | commitWork =>
      obtain ⟨j, stage, kvs', stage', -, -, -, -, -, rfl⟩ := notifierStep_commitWork taken'
      rfl
    | setCommitIndex =>
      obtain ⟨j, -, -, -, -, rfl⟩ := notifierStep_setCommitIndex taken'
      rfl
    | sendRPC =>
      obtain ⟨j, clients, -, -, -, rfl⟩ := notifierStep_sendRPC taken'
      rfl

end Inversion

end Leader

end Raft2pl.Server
