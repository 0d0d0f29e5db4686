/- The way of a transaction through the leader, from the queue of a worker to its commit. -/

import Raft2pl.Server.Transfer
import Raft2pl.Server.Commit

set_option autoImplicit false
set_option relaxedAutoImplicit false

namespace Raft2pl

def TransReq.locked (orig : TransReq) : TransReq := { orig with req := orig.req.sorted }

namespace Server

open Lib (Run Steps)
open TwoPl (KvsConst KVS commitWork)

section Request

variable {P : KvsConst}

private theorem apart_of_sorted {req : ClientRequest}
    (apart : req.sorted.fromKey ≠ req.sorted.toKey) : req.fromKey ≠ req.toKey := by
  cases swap : req.toKey.slt req.fromKey with
  | false => rwa [ClientRequest.sorted_of_not_slt swap] at apart
  | true =>
    rw [ClientRequest.sorted_of_slt swap] at apart
    exact apart.symm

private theorem inRange_of_sorted {req : ClientRequest} (okFrom : P.inRange req.sorted.fromKey)
    (okTo : P.inRange req.sorted.toKey) : P.inRange req.fromKey ∧ P.inRange req.toKey := by
  cases swap : req.toKey.slt req.fromKey with
  | false =>
    rw [ClientRequest.sorted_of_not_slt swap] at okFrom okTo
    exact ⟨okFrom, okTo⟩
  | true =>
    rw [ClientRequest.sorted_of_slt swap] at okFrom okTo
    exact ⟨okTo, okFrom⟩

private theorem acquired_free {req : ClientRequest} (apart : req.fromKey ≠ req.toKey)
    (okFrom : P.inRange req.sorted.fromKey) (okTo : P.inRange req.sorted.toKey) :
    Acquired P req req.sorted := by
  obtain ⟨ok, ok'⟩ := inRange_of_sorted okFrom okTo
  obtain ⟨kvs', locked⟩ := TwoPl.transferWork_free (.new P (fun _ => 0)) (fun _ => rfl) apart ok ok'
  exact .success locked

private theorem rewritten_locked {x orig : TransReq} (copy : Rewritten x orig) :
    x.locked = orig.locked ∧
      (x.req.fromKey ≠ x.req.toKey → orig.req.fromKey ≠ orig.req.toKey) := by
  rcases copy with rfl | rfl
  · exact ⟨rfl, id⟩
  · exact ⟨by simp [TransReq.locked], apart_of_sorted⟩

end Request

namespace Worker

variable {N W : Nat} {cfg : Config N} {id : Fin W} {w₀ w w' : Worker N W}
  {tr : List (WorkerAct N W)} {a : WorkerAct N W} {orig : TransReq} {i : Nat} {x : TransReq}

def Handles (cfg : Config N) (w : Worker N W) (orig : TransReq) : Prop :=
  match w.pc with
  | .lockTo | .unlockFrom => w.xact = orig.locked ∧ orig.req.fromKey ≠ orig.req.toKey ∧
      cfg.consts.inRange orig.req.sorted.fromKey
  | .locked => w.xact = orig.locked ∧ Acquired cfg.consts orig.req orig.req.sorted
  | _ => Rewritten w.xact orig

/-- The run copied the enqueued request `orig`, with both keys locked, to place `i` of the buffer, where
it is `x`. -/
def CopiedFrom (cfg : Config N) (id : Fin W) (w₀ : Worker N W) (tr : List (WorkerAct N W)) (i : Nat)
    (x orig : TransReq) : Prop :=
  orig ∈ enqueued tr ∧ x = orig.locked ∧ Acquired cfg.consts orig.req x.req ∧
    ∃ u, Run.Past (Steps (step cfg id)) w₀ tr u .copyToBuffer ∧ u.buffid = i ∧ u.xact = x

structure Origins (cfg : Config N) (id : Fin W) (w₀ : Worker N W) (tr : List (WorkerAct N W))
    (w : Worker N W) : Prop where
  queue : ∀ x ∈ w.xactQ, x ∈ enqueued tr
  hand : w.inHand ≠ [] → ∃ orig ∈ enqueued tr, w.Handles cfg orig
  buffer : ∀ i < w.buffid, ∃ orig, CopiedFrom cfg id w₀ tr i (w.logBuffer i) orig
  batch : w.pc = .sending → ∀ i < w.nlog, ∃ orig, CopiedFrom cfg id w₀ tr i (w.logBuffer i) orig
  tasks : ∀ t ∈ stored tr, ∃ v, Run.Past (Steps (step cfg id)) w₀ tr v (.taskStore t) ∧
    t = v.task id ∧ ∀ i < v.nlog, ∃ orig, CopiedFrom cfg id w₀ tr i (v.logBuffer i) orig

private theorem CopiedFrom.append (copied : CopiedFrom cfg id w₀ tr i x orig)
    (tr' : List (WorkerAct N W)) : CopiedFrom cfg id w₀ (tr ++ tr') i x orig := by
  obtain ⟨enqueued, locked, acquired, u, past, place, same⟩ := copied
  refine ⟨?_, locked, acquired, u, past.append tr', place, same⟩
  rw [enqueued_append]
  exact List.mem_append_left _ enqueued

private theorem origins_start (fresh : w₀.Fresh) : Origins cfg id w₀ [] w₀ where
  queue := by simp [fresh.xactQ]
  hand := by simp [inHand, WorkerPc.transferring, fresh.pc, fresh.canDoXactDeq]
  buffer := by simp [fresh.buffid]
  batch := by simp [fresh.pc]
  tasks := by simp [stored]

section Step

variable (origins : Origins cfg id w₀ tr w) (taken : step cfg id w a = some w')

include origins taken

private theorem queue_step : ∀ x ∈ w'.xactQ, x ∈ enqueued (tr ++ [a]) := by
  obtain ⟨ready, rfl⟩ := step_eq_some.mp taken
  intro x member
  rw [enqueued_append, List.mem_append]
  have kept : ∀ y ∈ w.xactQ, y ∈ enqueued tr ∨ y ∈ enqueued [a] := fun y old =>
    .inl (origins.queue y old)
  cases a with
  | xactEnqueue tx =>
    rcases List.mem_append.mp member with old | new
    · exact kept x old
    · exact .inr (by simpa [WorkerAct.xact?] using new)
  | xactDequeue =>
    simp only [after, fetch] at member
    split at member
    · cases queue : w.xactQ with
      | nil => simp [queue, Server.xactDequeue] at member
      | cons tx rest =>
        rw [queue] at member
        exact kept x (queue ▸ List.mem_cons_of_mem tx member)
    · exact kept x member
  | lockFrom got | lockTo got => cases got <;> exact kept x member
  | _ => exact kept x member

omit taken in
private theorem hand_xactDequeue (here : w.pc = .head)
    (busy : (after cfg w .xactDequeue).inHand ≠ []) :
    ∃ orig ∈ enqueued tr, Handles cfg (after cfg w .xactDequeue) orig := by
  have handles : ∀ orig, Rewritten w.fetch.xact orig →
      Handles cfg (after cfg w .xactDequeue) orig := by
    intro orig copy
    by_cases empty : w.fetch.xact.clientId = -1 <;> simpa [after, Handles, empty] using copy
  cases flag : w.canDoXactDeq with
  | false =>
    obtain ⟨orig, member, copy⟩ := origins.hand (by simp [inHand, flag])
    simp only [Handles, here] at copy
    exact ⟨orig, member, handles orig (by simpa [fetch, flag] using copy)⟩
  | true =>
    cases queue : w.xactQ with
    | nil => simp [after, fetch, flag, queue, Server.xactDequeue, noXact, inHand,
        WorkerPc.transferring] at busy
    | cons tx rest =>
      refine ⟨tx, origins.queue tx (by simp [queue]), handles tx ?_⟩
      simpa [fetch, flag, queue, Server.xactDequeue] using Rewritten.refl tx

private theorem handles_of_busy (busy : w'.inHand ≠ []) :
    ∃ orig ∈ enqueued tr, w'.Handles cfg orig := by
  obtain ⟨ready, rfl⟩ := step_eq_some.mp taken
  have tried : w.pc.transferring = true → ∃ orig ∈ enqueued tr, w.Handles cfg orig :=
    fun at' => origins.hand (by simp [inHand, at'])
  cases a with
  | xactEnqueue | taskLoad | setCommitIndex | sendRPC => exact origins.hand busy
  | xactDequeue => exact hand_xactDequeue origins ready busy
  | lockFrom got =>
    obtain ⟨here, apart, ok⟩ := ready
    obtain ⟨orig, member, copy⟩ := tried (by rw [here]; rfl)
    simp only [Handles, here] at copy
    obtain ⟨locked, apart'⟩ := rewritten_locked copy
    have keys : w.xact.req.sorted = orig.req.sorted := congrArg TransReq.req locked
    refine ⟨orig, member, ?_⟩
    cases got with
    | true => exact ⟨locked, apart' apart, keys ▸ ok⟩
    | false => exact .inr locked
  | lockTo got =>
    obtain ⟨here, ok⟩ := ready
    obtain ⟨orig, member, held⟩ := tried (by rw [here]; rfl)
    simp only [Handles, here] at held
    obtain ⟨locked, apart, okFrom⟩ := held
    refine ⟨orig, member, ?_⟩
    cases got with
    | true =>
      rw [locked] at ok
      exact ⟨locked, acquired_free apart okFrom ok⟩
    | false => exact ⟨locked, apart, okFrom⟩
  | unlockFrom =>
    obtain ⟨orig, member, held⟩ := tried (by rw [ready.1]; rfl)
    simp only [Handles, ready.1] at held
    exact ⟨orig, member, .inr held.1⟩
  | copyToBuffer =>
    have here : w.pc = .locked := ready
    obtain ⟨orig, member, held⟩ := tried (by rw [here]; rfl)
    simp only [Handles, here] at held
    exact ⟨orig, member, .inr held.1⟩
  | flushTest timeOut =>
    have here : w.pc = .flushTest := ready
    have same : (after cfg w (.flushTest timeOut)).inHand = w.inHand := by
      cases due : w.flushDue timeOut <;> simp [after, due, inHand, WorkerPc.transferring, here]
    obtain ⟨orig, member, copy⟩ := origins.hand (same ▸ busy)
    simp only [Handles, here] at copy
    exact ⟨orig, member, by cases due : w.flushDue timeOut <;> simpa [after, Handles, due] using copy⟩
  | loggingWork | taskStore =>
    have same : w.inHand ≠ [] := by
      simpa [after, inHand, WorkerPc.transferring, ready.1] using busy
    obtain ⟨orig, member, copy⟩ := origins.hand same
    simp only [Handles, ready.1] at copy
    exact ⟨orig, member, copy⟩

private theorem buffer_step (run : Run (Steps (step cfg id)) w₀ tr w) :
    ∀ i < w'.buffid, ∃ orig, CopiedFrom cfg id w₀ (tr ++ [a]) i (w'.logBuffer i) orig := by
  obtain ⟨ready, rfl⟩ := step_eq_some.mp taken
  intro i small
  have kept : i < w.buffid → ∃ orig, CopiedFrom cfg id w₀ (tr ++ [a]) i (w.logBuffer i) orig := by
    intro before
    obtain ⟨orig, copied⟩ := origins.buffer i before
    exact ⟨orig, copied.append [a]⟩
  cases a with
  | copyToBuffer =>
    have here : w.pc = .locked := ready
    show ∃ orig, CopiedFrom cfg id w₀ _ i (Function.update w.logBuffer w.buffid w.xact i) orig
    by_cases last : i = w.buffid
    · subst last
      obtain ⟨orig, member, held⟩ := origins.hand (by simp [inHand, WorkerPc.transferring, here])
      simp only [Handles, here] at held
      obtain ⟨locked, acquired⟩ := held
      rw [Function.update_self]
      refine ⟨orig, ?_, locked, by rw [locked]; exact acquired, w, run.past_last _, rfl, rfl⟩
      rw [enqueued_append]
      exact List.mem_append_left _ member
    · rw [Function.update_of_ne last]
      exact kept (by
        have bound : i < w.buffid + 1 := small
        omega)
  | loggingWork => exact absurd small (Nat.not_lt_zero i)
  | xactDequeue =>
    simp only [after, fetch] at small ⊢
    split at small <;> split <;> exact kept small
  | lockFrom got | lockTo got => cases got <;> exact kept small
  | _ => exact kept small

private theorem batch_step (here : w'.pc = .sending) :
    ∀ i < w'.nlog, ∃ orig, CopiedFrom cfg id w₀ (tr ++ [a]) i (w'.logBuffer i) orig := by
  obtain ⟨ready, rfl⟩ := step_eq_some.mp taken
  intro i small
  have kept : ∀ orig, CopiedFrom cfg id w₀ tr i (w.logBuffer i) orig →
      ∃ orig, CopiedFrom cfg id w₀ (tr ++ [a]) i (w.logBuffer i) orig :=
    fun orig copied => ⟨orig, copied.append [a]⟩
  cases a with
  | loggingWork e =>
    obtain ⟨orig, copied⟩ := origins.buffer i small
    exact kept orig copied
  | xactEnqueue | taskLoad | setCommitIndex | sendRPC =>
    obtain ⟨orig, copied⟩ := origins.batch here i small
    exact kept orig copied
  | lockFrom got | lockTo got => cases got <;> simp [after] at here
  | xactDequeue =>
    simp only [after] at here
    split at here <;> cases here
  | flushTest timeOut =>
    simp only [after] at here
    split at here <;> cases here
  | unlockFrom | copyToBuffer | taskStore => simp [after] at here

private theorem tasks_step (run : Run (Steps (step cfg id)) w₀ tr w) : ∀ t ∈ stored (tr ++ [a]),
    ∃ v, Run.Past (Steps (step cfg id)) w₀ (tr ++ [a]) v (.taskStore t) ∧ t = v.task id ∧
      ∀ i < v.nlog, ∃ orig, CopiedFrom cfg id w₀ (tr ++ [a]) i (v.logBuffer i) orig := by
  intro t member
  rw [stored_append] at member
  rcases List.mem_append.mp member with old | new
  · obtain ⟨v, past, same, copied⟩ := origins.tasks t old
    refine ⟨v, past.append [a], same, fun i small => ?_⟩
    obtain ⟨orig, found⟩ := copied i small
    exact ⟨orig, found.append [a]⟩
  · obtain ⟨ready, -⟩ := step_eq_some.mp taken
    cases a with
    | taskStore u =>
      obtain rfl : t = u := by simpa [WorkerAct.stored?] using new
      refine ⟨w, run.past_last _, ready.2.2, fun i small => ?_⟩
      obtain ⟨orig, found⟩ := origins.batch ready.1 i small
      exact ⟨orig, found.append _⟩
    | _ => simp [WorkerAct.stored?] at new

end Step

/-- Every request in the memory of a worker was enqueued, and every one in its batches was copied with
its locks. -/
theorem origins_run (fresh : w₀.Fresh) (run : Run (Steps (step cfg id)) w₀ tr w) :
    Origins cfg id w₀ tr w := by
  refine run.invariant (I := Origins cfg id w₀) (origins_start fresh)
    (fun tr w a w' before origins taken => ?_)
  refine ⟨queue_step origins taken, fun busy => ?_, buffer_step origins taken before,
    batch_step origins taken, tasks_step origins taken before⟩
  obtain ⟨orig, member, handles⟩ := handles_of_busy origins taken busy
  refine ⟨orig, ?_, handles⟩
  rw [enqueued_append]
  exact List.mem_append_left _ member

end Worker

namespace Leader

variable {N W : Nat} {ν : Type} [DecidableEq ν] {cfg : Config N}
  {s₀ s : Leader N W ν cfg.consts} {tr : List (LeaderAct N W ν)}

private theorem stored_nodup (fresh : Fresh cfg s₀) (run : Run (Moves cfg) s₀ tr s) (w : Fin W) :
    ((stored (ofWorker w tr)).map Task.lsn).Nodup := by
  have batches := (Worker.batches_run (fresh.worker w) (worker_moves run w)).stored
  have numbers := congrArg (List.map Prod.fst) batches
  rw [List.map_append, List.map_map, List.map_map] at numbers
  have distinct : ((logged (ofWorker w tr)).map (·.lsn)).Nodup := logged_nodup fresh run w
  refine distinct.sublist ?_
  calc ((stored (ofWorker w tr)).map Task.lsn).Sublist _ := List.sublist_append_left _ _
    _ = _ := numbers.trans List.map_map

-- the list holds stored tasks only
omit [DecidableEq ν] in
private theorem stored_of_listed {w : Fin W} {u : Worker N W} {a : WorkerAct N W}
    (fresh : Fresh cfg s₀)
    (past : Run.Past (Steps (Worker.step cfg w)) (s₀.worker w) (ofWorker w tr) u a) :
    ∀ t ∈ u.taskList, t ∈ stored (ofWorker w tr) := by
  intro t member
  obtain ⟨pre, post, cut, reached⟩ := past
  have batches := Worker.batches_run (fresh.worker w)
    (reached.mono (fun _ _ _ taken => Worker.moves_step taken))
  rw [cut, stored_append]
  exact List.mem_append_left _ (batches.taken.subset (List.mem_append_left _ member))

/-- A transaction that a notifier commits was enqueued by a client, copied to the buffer with its
locks, stored as part of a task, and loaded with it. -/
theorem journey_run {n : ν} {j : Job W} {stage : TwoPl.CommitStage} {x : TransReq}
    {kvs kvs' : KVS cfg.consts} (fresh : Fresh cfg s₀) (run : Run (Steps (step cfg)) s₀ tr s)
    (here : s.notifier n = .commit j stage) (xact : j.xact? = some x)
    (done : commitWork kvs x.req = some kvs') :
    ∃ orig ∈ enqueued (ofWorker j.workerId tr), ∃ w v u,
      (∀ p ∈ [(w, .copyToBuffer), (v, .taskStore j.t), (u, .taskLoad j.t.lsn (some j.t))],
        Run.Past (Steps (Worker.step cfg j.workerId)) (s₀.worker j.workerId)
          (ofWorker j.workerId tr) p.1 p.2) ∧
      Journey cfg j.workerId orig w v u.taskList j kvs kvs' := by
  have own := worker_run run j.workerId
  have mine := notifier_run (moves_run run) n
  rw [fresh.notifier n] at mine
  have load : (j.workerId, j.t) ∈ Notifier.loadsOf (ofNotifier n tr) :=
    (Notifier.job_run mine j (by rw [here]; rfl)).2
  obtain ⟨lsn, label⟩ := taskLoad_of_load load
  obtain ⟨u, u', pastU, loading⟩ := own.past_of_mem label
  have found : some j.t = (taskLoad lsn u.taskList).1 := (Worker.step_eq_some.mp loading).1
  obtain ⟨rfl, perm⟩ := taskLoad_some found.symm
  have inside := stored_of_listed fresh pastU
  have member := inside j.t (perm.symm.subset List.mem_cons_self)
  have origins := Worker.origins_run (fresh.worker j.workerId) own
  obtain ⟨v, pastV, same, copied⟩ := origins.tasks j.t member
  rw [Job.xact?, Option.ite_none_right_eq_some, same] at xact
  obtain ⟨inTask, entry⟩ := xact
  have small : j.i < v.nlog := inTask
  have content : v.logBuffer j.i = x := by
    have cell : (memcpy v.logBuffer v.nlog)[j.i]? = some x := entry
    rw [getElem?_memcpy _ small] at cell
    exact Option.some.inj cell
  obtain ⟨orig, enqueued, -, acquired, w, pastW, place, buffered⟩ := copied j.i small
  rw [content] at acquired buffered
  refine ⟨orig, enqueued, w, v, u, by simp [pastU, pastV, pastW], ?_⟩
  exact {
    acquired := buffered ▸ acquired
    copied := by
      rw [place, content]
      have last : (w.after cfg .copyToBuffer).logBuffer j.i = w.xact := by
        rw [← place]
        exact Function.update_self _ _ _
      rw [last, buffered]
    inside := by rw [place]; exact small
    stored := fun t listed number => by
      refine (List.inj_on_of_nodup_map (stored_nodup fresh (moves_run run) j.workerId)
        (inside t listed) member ?_).trans same
      rw [number, same]
      rfl
    loaded := by
      have number : v.lsn = j.t.lsn := by rw [same]; rfl
      rw [number]
      exact found.symm
    index := place.symm
    committed := by
      refine ⟨x, ?_, done⟩
      rw [Job.xact?, Option.ite_none_right_eq_some, same]
      exact ⟨small, entry⟩ }

end Leader

end Server

end Raft2pl
