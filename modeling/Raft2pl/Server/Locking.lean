/- Strict two-phase locking: every held mutex belongs to exactly one transaction in flight. -/

import Raft2pl.Server.Threads
import Raft2pl.Lib.Ownership
import Mathlib.Data.Fintype.Sum

set_option autoImplicit false
set_option relaxedAutoImplicit false

namespace Raft2pl.Server

open Lib (Run Steps exec exec_reaches Exclusive OnlyAt pool)
open TwoPl (KvsConst KVS CommitStage commitStep)

/-- The keys of a request that are still locked when `op` is the next call of its commit. -/
def CommitOp.keysLeft (op : CommitOp) (req : ClientRequest) : List CInt :=
  match op with
  | .unlockTo => [req.toKey]
  | .setCommitIndex | .sendRPC => []
  | _ => req.keys

namespace Worker

variable {N W : Nat} {cfg : Config N} {id : Fin W}

/-- The keys locked for the request that is in `transferWork` or just left it. -/
def handKeys (w : Worker N W) : List CInt :=
  match w.pc with
  | .lockTo | .unlockFrom => [w.xact.req.fromKey]
  | .locked => w.xact.req.keys
  | _ => []

def bufferKeys (w : Worker N W) : List CInt := w.buffered.flatMap (·.req.keys)

def taskKeys (id : Fin W) (ts : List (Task W)) : List CInt :=
  ts.flatMap (fun t => (t.slots id).flatMap (·.2.req.keys))

/-- All keys locked on behalf of requests that are at this worker: in `transferWork`, in the
buffer, in the batch being sent, and in the stored tasks. -/
def owned (id : Fin W) (w : Worker N W) : Multiset CInt :=
  w.handKeys + w.bufferKeys + taskKeys id (w.unstored id) + taskKeys id w.taskList

private theorem slots_keys (w : Fin W) (lsn : Int) (xs : List TransReq) :
    (slots w lsn xs).flatMap (·.2.req.keys) = xs.flatMap (·.req.keys) := by
  conv_rhs => rw [← slots_snd w lsn xs]
  rw [List.flatMap_map]

def gained (w : Worker N W) : WorkerAct N W → List CInt
  | .lockFrom true => [w.xact.req.sorted.fromKey]
  | .lockTo true => [w.xact.req.toKey]
  | _ => []

def lost (id : Fin W) (w : Worker N W) : WorkerAct N W → List CInt
  | .unlockFrom => [w.xact.req.fromKey]
  | .taskLoad _ (some t) => (t.slots id).flatMap (·.2.req.keys)
  | _ => []

private theorem owned_of_hand {w w' : Worker N W} {a : WorkerAct N W}
    (buffer : w'.buffered = w.buffered)
    (batch : w'.unstored id = w.unstored id) (tasks : w'.taskList = w.taskList)
    (hand : (w'.handKeys : Multiset CInt) + w.lost id a = w.handKeys + w.gained a) :
    w'.owned id + (w.lost id a : Multiset CInt) = w.owned id + (w.gained a : Multiset CInt) := by
  have same : w'.bufferKeys = w.bufferKeys := by rw [bufferKeys, buffer, bufferKeys]
  calc w'.owned id + (w.lost id a : Multiset CInt)
      = ((w'.handKeys : Multiset CInt) + w.lost id a) + w.bufferKeys +
          taskKeys id (w.unstored id) + taskKeys id w.taskList := by
        rw [owned, same, batch, tasks]
        abel
    _ = w.owned id + (w.gained a : Multiset CInt) := by
        rw [hand, owned]
        abel

private theorem owned_step {w w' : Worker N W} {a : WorkerAct N W}
    (taken : step cfg id w a = some w') :
    w'.owned id + (w.lost id a : Multiset CInt) = w.owned id + (w.gained a : Multiset CInt) := by
  obtain ⟨ready, rfl⟩ := step_eq_some.mp taken
  cases a with
  | xactEnqueue | setCommitIndex => rfl
  | xactDequeue =>
    have here : w.pc = .head := ready
    have fetched : w.fetch.buffered = w.buffered ∧ w.fetch.taskList = w.taskList := by
      unfold fetch
      split <;> exact ⟨rfl, rfl⟩
    refine owned_of_hand fetched.1 ?_ fetched.2 ?_
    · by_cases empty : w.fetch.xact.clientId = -1 <;> simp [after, empty, unstored, here]
    · by_cases empty : w.fetch.xact.clientId = -1 <;>
        simp [after, empty, handKeys, here, lost, gained]
  | lockFrom got =>
    obtain ⟨here, -⟩ := ready
    cases got
    · exact owned_of_hand rfl (by simp [after, unstored, here]) rfl
        (by simp [after, handKeys, here, lost, gained])
    · exact owned_of_hand rfl (by simp [after, unstored, here]) rfl
        (by simp [after, handKeys, here, lost, gained, rewriteReq])
  | lockTo got =>
    obtain ⟨here, -⟩ := ready
    cases got
    · exact owned_of_hand rfl (by simp [after, unstored, here]) rfl
        (by simp [after, handKeys, here, lost, gained])
    · refine owned_of_hand rfl (by simp [after, unstored, here]) rfl ?_
      simp only [after, handKeys, here, lost, gained, ClientRequest.keys, Multiset.coe_nil, add_zero]
      rfl
  | unlockFrom =>
    obtain ⟨here, -⟩ := ready
    exact owned_of_hand rfl (by simp [after, unstored, here]) rfl
      (by simp [after, handKeys, here, lost, gained])
  | flushTest timeOut =>
    have here : w.pc = .flushTest := ready
    cases due : w.flushDue timeOut
    · exact owned_of_hand rfl (by simp [after, due, unstored, here]) rfl
        (by simp [after, due, handKeys, here, lost, gained])
    · exact owned_of_hand rfl (by simp [after, due, unstored, here]) rfl
        (by simp [after, due, handKeys, here, lost, gained])
  | sendRPC p =>
    obtain ⟨here, -⟩ := ready
    exact owned_of_hand rfl (by simp [after, unstored, here, task]) rfl
      (by simp [after, handKeys, here, lost, gained])
  | copyToBuffer =>
    have here : w.pc = .locked := ready
    have buffer : (after cfg w .copyToBuffer).bufferKeys = w.bufferKeys ++ w.xact.req.keys := by
      simp [after, bufferKeys, buffered]
    simp only [owned, buffer, lost, gained, Multiset.coe_nil, add_zero, ← Multiset.coe_add]
    simp only [after, handKeys, here, unstored, reduceCtorEq, if_false, Multiset.coe_nil]
    abel
  | loggingWork e =>
    have here : w.pc = .logging := ready.1
    have batch : taskKeys id ((after cfg w (.loggingWork e)).unstored id) = w.bufferKeys := by
      simp [after, unstored, taskKeys, task, Task.slots, slots_keys, bufferKeys, buffered]
    simp only [owned, batch, lost, gained, Multiset.coe_nil, add_zero]
    simp [after, handKeys, here, unstored, taskKeys, bufferKeys, buffered]
  | taskStore t =>
    obtain ⟨here, -, rfl⟩ := ready
    have tasks : taskKeys id (after cfg w (.taskStore (w.task id))).taskList =
        taskKeys id w.taskList ++ taskKeys id (w.unstored id) := by
      simp [after, taskKeys, unstored, here]
    simp only [owned, tasks, lost, gained, Multiset.coe_nil, add_zero, ← Multiset.coe_add]
    have rest : (after cfg w (.taskStore (w.task id))).unstored id = [] := by
      simp [after, unstored]
    rw [rest]
    simp only [after, handKeys, here, bufferKeys, buffered, taskKeys, List.flatMap_nil,
      Multiset.coe_nil]
    abel
  | taskLoad lsn t =>
    have result : t = (Server.taskLoad lsn w.taskList).1 := ready
    have tasks : (taskKeys id (after cfg w (.taskLoad lsn t)).taskList : Multiset CInt) +
        w.lost id (.taskLoad lsn t) = taskKeys id w.taskList := by
      cases found : (Server.taskLoad lsn w.taskList).1 with
      | none => simp [after, lost, result, found, (taskLoad_none found).1]
      | some u =>
        have perm := (taskLoad_some found).2.flatMap_right
          (fun t => (t.slots id).flatMap (·.2.req.keys))
        rw [result, found, add_comm, lost, Multiset.coe_add]
        exact Multiset.coe_eq_coe.mpr perm.symm
    simp only [gained, Multiset.coe_nil, add_zero]
    rw [owned, add_assoc, tasks]
    rfl

end Worker

def CommitOp.released (op : CommitOp) (req : ClientRequest) : List CInt :=
  match op with
  | .unlockFrom => [req.fromKey]
  | .unlockTo => [req.toKey]
  | _ => []

private theorem CommitOp.keysLeft_eq (op : CommitOp) (req : ClientRequest) :
    op.keysLeft req = op.released req ++ (op.next.map (·.keysLeft req)).getD [] := by
  cases op <;> rfl

namespace Notifier

variable {N W : Nat}

def owned (n : Notifier N W) : Multiset CInt :=
  (n.work.flatMap (fun p => p.1.keysLeft p.2.2.req) : List CInt)

private theorem owned_untouched (ss : List (Place W × TransReq)) :
    (untouched ss).flatMap (fun p => p.1.keysLeft p.2.2.req) = ss.flatMap (·.2.req.keys) := by
  rw [untouched, List.flatMap_map]
  rfl

private theorem owned_call {n n' : Notifier N W} {b : NotifierAct N W} {op : CommitOp}
    {slot : Place W × TransReq} (taken : Step n b n') (call : b.call? = some (op, slot)) :
    n.owned = n'.owned + (op.released slot.2.req : Multiset CInt) := by
  obtain ⟨rest, before, after⟩ := work_call taken call
  have next : (op.next.map (·, slot)).toList.flatMap (fun p => p.1.keysLeft p.2.2.req) =
      (op.next.map (·.keysLeft slot.2.req)).getD [] := by
    cases op.next <;> simp
  rw [owned, owned, before, after, List.flatMap_cons, List.flatMap_append, next,
    CommitOp.keysLeft_eq op]
  simp only [← Multiset.coe_add]
  abel

private theorem owned_load {n n' : Notifier N W} {b : NotifierAct N W} {w : Fin W} {t : Task W}
    (taken : Step n b n') (load : b.loaded? = some (w, t)) :
    n'.owned = n.owned + ((t.slots w).flatMap (·.2.req.keys) : List CInt) := by
  obtain ⟨before, after⟩ := work_load taken load
  rw [owned, owned, before, after, owned_untouched]
  simp

private theorem owned_frame {n n' : Notifier N W} {b : NotifierAct N W} (taken : Step n b n')
    (call : b.call? = none) (load : b.loaded? = none) : n'.owned = n.owned := by
  rw [owned, owned, work_frame taken call load]

end Notifier

namespace Leader

variable {N W : Nat} {ν : Type} [DecidableEq ν] [Fintype ν] {cfg : Config N}
  {s₀ s s' : Leader N W ν cfg.consts} {tr : List (LeaderAct N W ν)}

/-- Who holds locks on behalf of whom: the worker for requests that it has not handed over, the
notifier for those of the task that it loaded. -/
def owned (s : Leader N W ν cfg.consts) : Fin W ⊕ ν → Multiset CInt
  | .inl w => (s.worker w).owned w
  | .inr n => (s.notifier n).owned

private theorem exclusive_worker {w : Fin W} {a : WorkerAct N W}
    (ex : Exclusive s.owned s.kvs.mutex) (taken : workerStep cfg s w a = some s') :
    Exclusive s'.owned s'.kvs.mutex := by
  obtain ⟨direct, w', kvs', nextLsn', moved, called, -, rfl⟩ := workerStep_some taken
  have account := Worker.owned_step moved
  have others : OnlyAt (Sum.inl w) s.owned (owned { s with
      worker := Function.update s.worker w w', kvs := kvs', nextLsn := nextLsn' }) := by
    rintro (v | n) apart
    · have ne : v ≠ w := fun eq => apart (congrArg Sum.inl eq)
      simp [owned, ne]
    · rfl
  have here : owned { s with
      worker := Function.update s.worker w w', kvs := kvs', nextLsn := nextLsn' } (.inl w) =
      w'.owned w := by simp [owned]
  have quiet : (s.worker w).lost w a = [] → (s.worker w).gained a = [] →
      w'.owned w = (s.worker w).owned w := by
    intro none none'
    simpa [none, none'] using account
  cases a with
  | taskLoad | setCommitIndex => simp [WorkerAct.direct] at direct
  | lockFrom got =>
    simp only [lockCall, Option.bind_eq_bind, Option.bind_eq_some_iff,
      Option.ite_none_right_eq_some, Option.some.injEq] at called
    obtain ⟨⟨ok, kvs₁⟩, locked, rfl, rfl⟩ := called
    obtain ⟨-, result, store⟩ := KVS.lock_eq_some.mp locked
    cases free : s.kvs.mutex (s.worker w).xact.req.sorted.fromKey with
    | true =>
      simp only [free, Bool.not_true, if_true] at result store
      subst result store
      exact ex.rearrange (.inl w) others (here.trans (quiet rfl rfl)) rfl
    | false =>
      simp only [free, Bool.not_false, Bool.false_eq_true, if_false] at result store
      subst result store
      refine ex.acquire free others (here.trans ?_) rfl
      simpa [Worker.lost, Worker.gained, owned] using account
  | lockTo got =>
    simp only [lockCall, Option.bind_eq_bind, Option.bind_eq_some_iff,
      Option.ite_none_right_eq_some, Option.some.injEq] at called
    obtain ⟨⟨ok, kvs₁⟩, locked, rfl, rfl⟩ := called
    obtain ⟨-, result, store⟩ := KVS.lock_eq_some.mp locked
    cases free : s.kvs.mutex (s.worker w).xact.req.toKey with
    | true =>
      simp only [free, Bool.not_true, if_true] at result store
      subst result store
      exact ex.rearrange (.inl w) others (here.trans (quiet rfl rfl)) rfl
    | false =>
      simp only [free, Bool.not_false, Bool.false_eq_true, if_false] at result store
      subst result store
      refine ex.acquire free others (here.trans ?_) rfl
      simpa [Worker.lost, Worker.gained, owned] using account
  | unlockFrom =>
    obtain ⟨-, store⟩ := KVS.unlock_eq_some.mp called
    subst store
    refine ex.release (i := .inl w) others ?_ rfl
    rw [here]
    simpa [Worker.lost, Worker.gained, owned] using account.symm
  | _ =>
    obtain rfl : s.kvs = kvs' := Option.some.inj called
    exact ex.rearrange (.inl w) others (here.trans (quiet rfl rfl)) rfl

omit [DecidableEq ν] [Fintype ν] in
private theorem commitStep_mutex {P : KvsConst} {req : ClientRequest} {kvs kvs' : KVS P}
    {stage stage' : CommitStage} (made : commitStep req kvs stage = some (kvs', stage')) :
    ((opOf stage).released req = [] ∧ kvs'.mutex = kvs.mutex) ∨
      ∃ k, (opOf stage).released req = [k] ∧ kvs'.mutex = Function.update kvs.mutex k false := by
  cases stage with
  | returned => simp [commitStep] at made
  | unlockFrom =>
    simp only [commitStep, Option.bind_eq_bind, Option.bind_eq_some_iff, Option.some.injEq,
      Prod.mk.injEq] at made
    obtain ⟨_, unlocked, rfl, -⟩ := made
    obtain ⟨-, rfl⟩ := KVS.unlock_eq_some.mp unlocked
    exact .inr ⟨_, rfl, rfl⟩
  | unlockTo =>
    simp only [commitStep, Option.bind_eq_bind, Option.bind_eq_some_iff, Option.some.injEq,
      Prod.mk.injEq] at made
    obtain ⟨_, unlocked, rfl, -⟩ := made
    obtain ⟨-, rfl⟩ := KVS.unlock_eq_some.mp unlocked
    exact .inr ⟨_, rfl, rfl⟩
  | indexReadFrom | indexReadTo =>
    simp only [commitStep, Option.bind_eq_bind, Option.bind_eq_some_iff, Option.some.injEq,
      Prod.mk.injEq] at made
    obtain ⟨_, -, rfl, -⟩ := made
    exact .inl ⟨rfl, rfl⟩
  | indexUpdateFrom | indexUpdateTo =>
    simp only [commitStep, Option.bind_eq_bind, Option.bind_eq_some_iff, Option.some.injEq,
      Prod.mk.injEq, KVS.indexUpdate, Option.map_eq_some_iff] at made
    obtain ⟨_, ⟨bid, -, rfl⟩, rfl, -⟩ := made
    exact .inl ⟨rfl, rfl⟩

private theorem exclusive_commitWork {n : ν} {op : CommitOp} {slot : Place W × TransReq}
    (ex : Exclusive s.owned s.kvs.mutex)
    (taken : notifierStep cfg s n (.commitWork op slot) = some s') :
    Exclusive s'.owned s'.kvs.mutex := by
  have moved := notifier_taken (b := .commitWork op slot) taken
  have account := Notifier.owned_call moved rfl
  obtain ⟨j, stage, kvs', stage', -, rfl, -, -, made, rfl⟩ := notifierStep_commitWork taken
  have others : OnlyAt (Sum.inr n) s.owned
      (owned ({ s with kvs := kvs' }.setNotifier cfg n (.commit j stage'))) := by
    rintro (w | m) apart
    · rfl
    · have ne : m ≠ n := fun eq => apart (congrArg Sum.inr eq)
      simp [owned, setNotifier, ne]
  rcases commitStep_mutex made with ⟨nothing, same⟩ | ⟨k, key, store⟩
  · refine ex.rearrange (.inr n) others ?_ same
    rw [nothing] at account
    simpa [owned] using account.symm
  · refine ex.release (i := .inr n) others ?_ store
    rw [key] at account
    simpa [owned] using account

private theorem exclusive_taskLoad {n : ν} {w : Fin W} {lsn : Int} {t : Option (Task W)}
    (ex : Exclusive s.owned s.kvs.mutex)
    (taken : notifierStep cfg s n (.taskLoad w lsn t) = some s') :
    Exclusive s'.owned s'.kvs.mutex := by
  have moved := notifier_taken (b := .taskLoad w lsn t) taken
  have called := (worker_step (a := .notifier n (.taskLoad w lsn t)) taken w).2
    (.taskLoad lsn t) (by simp [LeaderAct.toWorker])
  have account := Worker.owned_step called
  simp only [Worker.gained, Multiset.coe_nil, add_zero] at account
  obtain ⟨ack, nextIndex, -, -, -, -, rfl⟩ := notifierStep_taskLoad taken
  have others : ∀ i, i ≠ Sum.inl w → i ≠ Sum.inr n →
      owned ((s.onWorker cfg w (.taskLoad lsn t)).setNotifier cfg n
        (.afterLoad w nextIndex t)) i = s.owned i := by
    rintro (v | m) apart apart'
    · have ne : v ≠ w := fun eq => apart (congrArg Sum.inl eq)
      simp [owned, setNotifier, onWorker, ne]
    · have ne : m ≠ n := fun eq => apart' (congrArg Sum.inr eq)
      simp [owned, setNotifier, onWorker, ne]
  refine ex.transfer (i := .inl w) (j := .inr n) (m := (s.worker w).lost w (.taskLoad lsn t))
    (by simp) others account.symm ?_
  cases t with
  | none => simpa [Worker.lost, owned] using Notifier.owned_frame moved rfl rfl
  | some t => simpa [Worker.lost, owned] using Notifier.owned_load moved rfl

private theorem exclusive_quiet {n : ν} {b : NotifierAct N W} (ex : Exclusive s.owned s.kvs.mutex)
    (moved : Notifier.Step (s.notifier n) b (s'.notifier n)) (load : b.loaded? = none)
    (nothing : ∀ op slot, b.call? = some (op, slot) → op.released slot.2.req = [])
    (workers : ∀ w, (s'.worker w).owned w = (s.worker w).owned w)
    (notifiers : ∀ m, m ≠ n → s'.notifier m = s.notifier m) (store : s'.kvs = s.kvs) :
    Exclusive s'.owned s'.kvs.mutex := by
  have others : OnlyAt (Sum.inr n) s.owned s'.owned := by
    rintro (w | m) apart
    · exact workers w
    · exact congrArg Notifier.owned (notifiers m (fun eq => apart (congrArg Sum.inr eq)))
  refine ex.rearrange (.inr n) others ?_ (by rw [store])
  cases call : b.call? with
  | none => exact Notifier.owned_frame moved call load
  | some p =>
    obtain ⟨op, slot⟩ := p
    have account := Notifier.owned_call moved call
    rw [nothing op slot call] at account
    simpa [owned] using account.symm

theorem exclusive_step {a : LeaderAct N W ν} (ex : Exclusive s.owned s.kvs.mutex)
    (taken : step cfg s a = some s') : Exclusive s'.owned s'.kvs.mutex := by
  cases a with
  | acceptClient =>
    simp only [step, Option.some.injEq] at taken
    subst taken
    exact ex
  | worker w a => exact exclusive_worker ex taken
  | notifier n b =>
    have taken' : notifierStep cfg s n b = some s' := taken
    have moved := notifier_taken taken
    have notifiers : ∀ m, m ≠ n → s'.notifier m = s.notifier m :=
      fun m apart => notifier_frame taken apart
    cases b with
    | commitWork op slot => exact exclusive_commitWork ex taken'
    | taskLoad w lsn t => exact exclusive_taskLoad ex taken'
    | recv ack =>
      obtain ⟨-, rfl⟩ := notifierStep_recv taken'
      exact exclusive_quiet ex moved rfl (by simp [NotifierAct.call?]) (fun _ => rfl) notifiers rfl
    | addVoteCount lsn count =>
      obtain ⟨ack, nextIndex, -, -, -, -, rfl⟩ := notifierStep_addVoteCount taken'
      exact exclusive_quiet ex moved rfl (by simp [NotifierAct.call?]) (fun _ => rfl) notifiers rfl
    | setCommitIndex slot index =>
      have workers : ∀ w, (s'.worker w).owned w = (s.worker w).owned w := by
        intro w
        obtain ⟨j, -, -, -, -, rfl⟩ := notifierStep_setCommitIndex taken'
        by_cases eq : w = j.workerId
        · subst eq
          simp only [setNotifier, onWorker, Function.update_self]
          rfl
        · simp [setNotifier, onWorker, eq]
      have store : s'.kvs = s.kvs := by
        obtain ⟨j, -, -, -, -, rfl⟩ := notifierStep_setCommitIndex taken'
        rfl
      refine exclusive_quiet ex moved rfl ?_ workers notifiers store
      rintro op slot' label
      obtain ⟨rfl, -⟩ : CommitOp.setCommitIndex = op ∧ slot = slot' := by
        simpa [NotifierAct.call?] using label
      rfl
    | sendRPC slot result =>
      obtain ⟨j, clients, -, -, -, rfl⟩ := notifierStep_sendRPC taken'
      refine exclusive_quiet ex moved rfl ?_ (fun _ => rfl) notifiers rfl
      rintro op slot' label
      obtain ⟨rfl, -⟩ : CommitOp.sendRPC = op ∧ slot = slot' := by
        simpa [NotifierAct.call?] using label
      rfl

omit [DecidableEq ν] in
theorem exclusive_start (fresh : Fresh cfg s₀) : Exclusive s₀.owned s₀.kvs.mutex := by
  refine Exclusive.nothing fresh.mutex ?_
  rintro (w | n)
  · have worker := fresh.worker w
    simp [owned, Worker.owned, Worker.handKeys, Worker.bufferKeys, Worker.buffered,
      Worker.taskKeys, Worker.unstored, worker.pc, worker.buffid, worker.taskList]
  · simp [owned, Notifier.owned, Notifier.work, fresh.notifier n]

theorem exclusive_run (fresh : Fresh cfg s₀) (run : Run (Steps (step cfg)) s₀ tr s) :
    Exclusive s.owned s.kvs.mutex :=
  run.invariant (I := fun _ s => Exclusive s.owned s.kvs.mutex) (exclusive_start fresh)
    (fun _ _ _ _ _ ex taken => exclusive_step ex taken)

omit [Fintype ν] in
private theorem handKeys_failed {w : Fin W} {a : WorkerAct N W}
    (taken : step cfg s (.worker w a) = some s')
    (failed : a = .lockFrom false ∨ a = .unlockFrom) : (s'.worker w).handKeys = [] := by
  obtain ⟨direct, w', kvs', nextLsn', moved, -, -, rfl⟩ := workerStep_some taken
  obtain ⟨-, rfl⟩ := Worker.step_eq_some.mp moved
  rcases failed with rfl | rfl <;> simp [Worker.handKeys, Worker.after]

/-- The strict two-phase-locking invariant. -/
theorem held_keys (fresh : Fresh cfg s₀) (run : Run (Steps (step cfg)) s₀ tr s) :
    (∀ k, s.kvs.mutex k = true ↔ k ∈ pool s.owned) ∧ (pool s.owned).Nodup ∧
    (∀ w s', step cfg s (.worker w .unlockFrom) = some s' →
      (s.worker w).handKeys = [(s.worker w).xact.req.fromKey] ∧
        s.kvs.mutex (s.worker w).xact.req.fromKey = true) ∧
    (∀ n op slot s', step cfg s (.notifier n (.commitWork op slot)) = some s' →
      (op, slot) ∈ (s.notifier n).work ∧
        ∀ k ∈ op.released slot.2.req, k ∈ op.keysLeft slot.2.req ∧ s.kvs.mutex k = true) ∧
    ∀ w a s', (a = .lockFrom false ∨ a = .unlockFrom) →
      step cfg s (.worker w a) = some s' →
      (s'.worker w).handKeys = [] ∧ ∀ k, s'.kvs.mutex k = true ↔ k ∈ pool s'.owned := by
  have ex := exclusive_run fresh run
  refine ⟨fun k => (ex.mem_iff k).symm, ex.nodup, ?_, ?_, ?_⟩
  · intro w s' taken
    obtain ⟨-, w', kvs', nextLsn', moved, -, -, -⟩ := workerStep_some taken
    have here : (s.worker w).pc = .unlockFrom := (Worker.step_eq_some.mp moved).1.1
    have hand : (s.worker w).handKeys = [(s.worker w).xact.req.fromKey] := by
      simp [Worker.handKeys, here]
    refine ⟨hand, ex.held_of_mem (i := .inl w) ?_⟩
    simp [owned, Worker.owned, hand]
  · intro n op slot s' taken
    obtain ⟨rest, before, -⟩ := Notifier.work_call (notifier_taken taken) rfl
    have first : (op, slot) ∈ (s.notifier n).work := by simp [before]
    refine ⟨first, fun k released => ?_⟩
    have left : k ∈ op.keysLeft slot.2.req := by
      rw [CommitOp.keysLeft_eq]
      exact List.mem_append_left _ released
    exact ⟨left, ex.held_of_mem (i := .inr n) (List.mem_flatMap.mpr ⟨_, first, left⟩)⟩
  · intro w a s' failed taken
    exact ⟨handKeys_failed taken failed, fun k => ((exclusive_step ex taken).mem_iff k).symm⟩

section Example

def trioConfig : Config 3 := ⟨0, 1, TwoPl.shipped⟩

def trioLeader : Leader 3 2 (Fin 1) trioConfig.consts :=
  start trioConfig (.new _ (fun _ => 0)) (fun _ => [])

private theorem trioLeader_fresh :
    Fresh trioConfig trioLeader := start_fresh trioConfig (fun _ => rfl) _

/-- Worker 0 locks accounts 1 and 2; worker 1 locks account 0 and fails to lock account 2. -/
def backOffTrace : List (LeaderAct 3 2 (Fin 1)) :=
  [.worker 0 (.xactEnqueue ⟨0, 1, ⟨1, 2, 5, 0⟩⟩), .worker 0 .xactDequeue,
    .worker 0 (.lockFrom true), .worker 0 (.lockTo true),
    .worker 1 (.xactEnqueue ⟨1, 1, ⟨2, 0, 5, 0⟩⟩), .worker 1 .xactDequeue,
    .worker 1 (.lockFrom true), .worker 1 (.lockTo false)]

theorem held_keys_backOff :
    ∃ s, Run (Steps (step trioConfig)) trioLeader backOffTrace s ∧ (pool s.owned).Nodup ∧
      ∀ s', step trioConfig s (.worker 1 .unlockFrom) = some s' →
        s.kvs.mutex (s.worker 1).xact.req.fromKey = true := by
  have done : (exec (step trioConfig) trioLeader backOffTrace).map
      (fun s => decide ((s.worker 1).pc = .unlockFrom)) = some true := by decide
  obtain ⟨s, run, -⟩ := exec_reaches done
  have all := held_keys trioLeader_fresh run
  exact ⟨s, run, all.2.1, fun s' taken => (all.2.2.1 1 s' taken).2⟩

/-- The owners' keys without those of a request whose second lock failed: what is left when the
first key only counts between the two lock calls. -/
def ownedBetweenLocks (s : Leader 3 2 (Fin 1) trioConfig.consts) :
    Fin 2 ⊕ Fin 1 → Multiset CInt
  | .inl w =>
      if (s.worker w).pc = .unlockFrom then
        (s.worker w).bufferKeys + Worker.taskKeys w ((s.worker w).unstored w) +
          Worker.taskKeys w (s.worker w).taskList
      else (s.worker w).owned w
  | .inr n => (s.notifier n).owned

/-- After a failed second lock the first key is still held until it is unlocked. -/
theorem backOff_key_held :
    ∃ s, Run (Steps (step trioConfig)) trioLeader backOffTrace s ∧
      s.kvs.mutex 0 = true ∧ 0 ∉ pool (ownedBetweenLocks s) := by
  have done : (exec (step trioConfig) trioLeader backOffTrace).map
      (fun s => decide (s.kvs.mutex 0 = true ∧ ∀ i, 0 ∉ ownedBetweenLocks s i)) = some true := by
    decide
  obtain ⟨s, run, holds⟩ := exec_reaches done
  obtain ⟨held, unowned⟩ := of_decide_eq_true holds
  refine ⟨s, run, held, fun member => ?_⟩
  obtain ⟨i, owner⟩ := Lib.mem_pool.mp member
  exact unowned i owner

end Example

end Leader

end Raft2pl.Server
