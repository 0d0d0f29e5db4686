/- Each thread of the leader as it runs on its own, and the histories of the whole process. -/

import Raft2pl.Server.Leader
import Raft2pl.Lib.History

set_option autoImplicit false
set_option relaxedAutoImplicit false

namespace Raft2pl.Server

open Lib (Run Steps)
open TwoPl (KvsConst KVS CommitStage commitStep)

namespace LeaderAct

variable {N W : Nat} {ν : Type} [DecidableEq ν]

def toWorker (w : Fin W) : LeaderAct N W ν → Option (WorkerAct N W)
  | .worker w' a => if w' = w ∧ a.direct then some a else none
  | .notifier _ (.taskLoad w' lsn t) => if w' = w then some (.taskLoad lsn t) else none
  | .notifier _ (.setCommitIndex slot index) =>
      if slot.1.workerId = w then some (.setCommitIndex index) else none
  | _ => none

def toNotifier (n : ν) : LeaderAct N W ν → Option (NotifierAct N W)
  | .notifier n' b => if n' = n then some b else none
  | _ => none

def byNotifier {β : Type} (g : NotifierAct N W → Option β) : LeaderAct N W ν → Option β
  | .notifier _ b => g b
  | _ => none

end LeaderAct

section Histories

variable {N W : Nat} {ν : Type} [DecidableEq ν]

def ofWorker (w : Fin W) (tr : List (LeaderAct N W ν)) : List (WorkerAct N W) :=
  tr.filterMap (LeaderAct.toWorker w)

def ofNotifier (n : ν) (tr : List (LeaderAct N W ν)) : List (NotifierAct N W) :=
  tr.filterMap (LeaderAct.toNotifier n)

def entries (tr : List (LeaderAct N W ν)) : List (Fin W × Entry) := tr.filterMap LeaderAct.entry?

/-- The transactions of these entries. -/
def loggedSlots (tr : List (LeaderAct N W ν)) : List (Place W × TransReq) :=
  (entries tr).flatMap (fun p => p.2.slots p.1)

/-- The transactions for which the call `op` was made, in the order of the calls. -/
def calls (op : CommitOp) (tr : List (LeaderAct N W ν)) : List (Place W × TransReq) :=
  tr.filterMap (LeaderAct.byNotifier (NotifierAct.callOf? op))

def loads (tr : List (LeaderAct N W ν)) : List (Fin W × Task W) :=
  tr.filterMap (LeaderAct.byNotifier NotifierAct.loaded?)

def loadedSlots (tr : List (LeaderAct N W ν)) : List (Place W × TransReq) :=
  (loads tr).flatMap (fun p => p.2.slots p.1)

/-- The transactions for which a COMMIT_MESSAGE was sent. -/
def messages (tr : List (LeaderAct N W ν)) : List (Place W × TransReq) :=
  tr.filterMap (LeaderAct.byNotifier NotifierAct.message?)

end Histories

namespace Notifier

variable {N W : Nat}

def loadsOf (tr : List (NotifierAct N W)) : List (Fin W × Task W) :=
  tr.filterMap NotifierAct.loaded?

def callsOf (op : CommitOp) (tr : List (NotifierAct N W)) : List (Place W × TransReq) :=
  tr.filterMap (NotifierAct.callOf? op)

/-- The transactions for which the notifier has still to make the call `op`. -/
def todo (op : CommitOp) (n : Notifier N W) : List (Place W × TransReq) :=
  n.work.filterMap (fun p => if p.1.rank ≤ op.rank then some p.2 else none)

theorem todo_untouched (op : CommitOp) (ss : List (Place W × TransReq)) :
    (untouched ss).filterMap (fun p => if p.1.rank ≤ op.rank then some p.2 else none) = ss := by
  have first : CommitOp.indexReadFrom.rank ≤ op.rank := Nat.zero_le _
  simp [untouched, List.filterMap_map, first]

private theorem todo_call {n n' : Notifier N W} {b : NotifierAct N W} {op op' : CommitOp}
    {slot : Place W × TransReq} (taken : Step n b n') (call : b.call? = some (op', slot)) :
    n.todo op = (b.callOf? op).toList ++ n'.todo op := by
  obtain ⟨rest, before, after⟩ := work_call taken call
  have later := todo_untouched op rest
  unfold todo
  rw [before, after, List.filterMap_cons, List.filterMap_append, later]
  have label : b.callOf? op = if op' = op then some slot else none := by
    simp [NotifierAct.callOf?, call]
  rw [label]
  by_cases same : op' = op
  · subst same
    cases succ : op'.next with
    | none => simp
    | some next =>
      have rank := CommitOp.rank_next succ
      have beyond : ¬ next.rank ≤ op'.rank := by omega
      simp [beyond]
  · have apart : op'.rank ≠ op.rank := fun eq => same (CommitOp.rank_injective eq)
    cases succ : op'.next with
    | none =>
      have last := CommitOp.rank_last succ op
      have beyond : ¬ op'.rank ≤ op.rank := by omega
      simp [same, beyond]
    | some next =>
      have rank := CommitOp.rank_next succ
      by_cases low : op'.rank ≤ op.rank
      · have low' : next.rank ≤ op.rank := by omega
        simp [same, low, low']
      · have high : ¬ next.rank ≤ op.rank := by omega
        simp [same, low, high]

/-- A notifier makes each call for the transactions of the tasks it loaded, in batch order, and
what it has not done yet comes last. -/
theorem callsOf_todo {tr : List (NotifierAct N W)} {n : Notifier N W}
    (run : Run Step .recv tr n) (op : CommitOp) :
    callsOf op tr ++ n.todo op = (loadsOf tr).flatMap (fun p => p.2.slots p.1) := by
  refine run.invariant (I := fun tr n =>
    callsOf op tr ++ n.todo op = (loadsOf tr).flatMap (fun p => p.2.slots p.1)) rfl ?_
  intro tr n b n' _ inv taken
  have calls : callsOf op (tr ++ [b]) = callsOf op tr ++ (b.callOf? op).toList := by
    cases out : b.callOf? op <;> simp [callsOf, out]
  have tasks : loadsOf (tr ++ [b]) = loadsOf tr ++ b.loaded?.toList := by
    cases out : b.loaded? <;> simp [loadsOf, out]
  rw [calls, tasks, List.flatMap_append, ← inv, List.append_assoc, List.append_assoc]
  congr 1
  cases call : b.call? with
  | some p =>
    obtain ⟨op', slot⟩ := p
    have none : b.loaded? = none := by cases b <;> simp [NotifierAct.call?] at call <;> rfl
    rw [todo_call taken call, none]
    simp
  | none =>
    have out : b.callOf? op = none := by simp [NotifierAct.callOf?, call]
    cases load : b.loaded? with
    | none => simp [out, todo, work_frame taken call load]
    | some p =>
      obtain ⟨w, t⟩ := p
      obtain ⟨before, after⟩ := work_load taken load
      simp [out, todo, before, after, todo_untouched op (t.slots w)]

def job? : Notifier N W → Option (Job W)
  | .commit j _ | .reply j => some j
  | _ => none

private theorem job_loop {j j' : Job W} (here : (loop j : Notifier N W).job? = some j') :
    j' = j ∧ j.i < j.t.nlog := by
  unfold loop at here
  split at here
  · exact ⟨(Option.some.inj here).symm, by assumption⟩
  · cases here

theorem job_run {tr : List (NotifierAct N W)} {n : Notifier N W} (run : Run Step .recv tr n) :
    ∀ j, n.job? = some j → j.i < j.t.nlog ∧ (j.workerId, j.t) ∈ loadsOf tr := by
  refine run.invariant (I := fun tr n => ∀ j, n.job? = some j →
    j.i < j.t.nlog ∧ (j.workerId, j.t) ∈ loadsOf tr) (by simp [job?]) ?_
  intro tr n b n' _ inv taken j here
  have tasks : loadsOf (tr ++ [b]) = loadsOf tr ++ b.loaded?.toList := by
    cases out : b.loaded? <;> simp [loadsOf, out]
  rw [tasks]
  -- the same task, at the same or the next index
  have same : ∀ k, n.job? = some k → j.workerId = k.workerId → j.t = k.t → j.i < k.t.nlog →
      j.i < j.t.nlog ∧ (j.workerId, j.t) ∈ loadsOf tr ++ b.loaded?.toList := by
    intro k before worker task inside
    rw [worker, task]
    exact ⟨inside, List.mem_append_left _ (inv k before).2⟩
  cases taken with
  | recv ack nextIndex => cases granted : ack.success <;> simp [granted, job?] at here
  | addVoteCount ack nextIndex count =>
    by_cases quorum : N / 2 < count <;> simp [quorum, job?] at here
  | taskLoad ack nextIndex t =>
    cases t with
    | none => simp [afterLoad, job?] at here
    | some t =>
      obtain ⟨rfl, inside⟩ := job_loop here
      exact ⟨inside, by simp [NotifierAct.loaded?]⟩
  | @commitWork k stage stage' x xact follows =>
    obtain rfl : k = j := Option.some.inj here
    exact same k rfl rfl rfl (inv k rfl).1
  | @setCommitIndex k x xact =>
    obtain rfl : k = j := Option.some.inj here
    exact same k rfl rfl rfl (inv k rfl).1
  | @sendRPC k x result xact =>
    obtain ⟨rfl, inside⟩ := job_loop here
    exact same k rfl rfl rfl inside

end Notifier

namespace Leader

variable {N W : Nat} {ν : Type} [DecidableEq ν] {cfg : Config N}
  {s₀ s s' : Leader N W ν cfg.consts} {tr : List (LeaderAct N W ν)}

theorem notifier_step {a : LeaderAct N W ν} (taken : step cfg s a = some s') (n : ν) :
    (a.toNotifier n = none → s'.notifier n = s.notifier n) ∧
      ∀ b, a.toNotifier n = some b → Notifier.Step (s.notifier n) b (s'.notifier n) := by
  cases a with
  | acceptClient =>
    simp only [step, Option.some.injEq] at taken
    subst taken
    exact ⟨fun _ => rfl, by simp [LeaderAct.toNotifier]⟩
  | worker w a =>
    obtain ⟨-, w', kvs', nextLsn', -, -, -, rfl⟩ := workerStep_some taken
    exact ⟨fun _ => rfl, by simp [LeaderAct.toNotifier]⟩
  | notifier m b =>
    by_cases eq : m = n
    · subst eq
      refine ⟨by simp [LeaderAct.toNotifier], ?_⟩
      rintro c hc
      obtain rfl : b = c := by simpa [LeaderAct.toNotifier] using hc
      have taken' : notifierStep cfg s m b = some s' := taken
      cases b with
      | recv ack =>
        obtain ⟨here, rfl⟩ := notifierStep_recv taken'
        simpa [here, setNotifier] using Notifier.Step.recv ack _
      | addVoteCount lsn count =>
        obtain ⟨ack, nextIndex, here, rfl, -, -, rfl⟩ := notifierStep_addVoteCount taken'
        simpa [here, setNotifier] using Notifier.Step.addVoteCount ack nextIndex count
      | taskLoad w lsn t =>
        obtain ⟨ack, nextIndex, here, rfl, rfl, -, rfl⟩ := notifierStep_taskLoad taken'
        simpa [here, setNotifier] using Notifier.Step.taskLoad ack nextIndex t
      | commitWork op slot =>
        obtain ⟨place, x⟩ := slot
        obtain ⟨j, stage, kvs', stage', here, rfl, rfl, xact, made, rfl⟩ :=
          notifierStep_commitWork taken'
        simpa [here, setNotifier] using
          Notifier.Step.commitWork xact (opOf_commitStep made)
      | setCommitIndex slot index =>
        obtain ⟨place, x⟩ := slot
        obtain ⟨j, here, rfl, xact, rfl, rfl⟩ := notifierStep_setCommitIndex taken'
        simpa [here, setNotifier] using Notifier.Step.setCommitIndex xact
      | sendRPC slot result =>
        obtain ⟨place, x⟩ := slot
        obtain ⟨j, clients, here, rfl, xact, rfl⟩ := notifierStep_sendRPC taken'
        simpa [here, setNotifier] using Notifier.Step.sendRPC result xact
    · refine ⟨fun _ => notifier_frame taken (Ne.symm eq), ?_⟩
      simp [LeaderAct.toNotifier, eq]

theorem notifier_taken {n : ν} {b : NotifierAct N W}
    (taken : step cfg s (.notifier n b) = some s') :
    Notifier.Step (s.notifier n) b (s'.notifier n) :=
  (notifier_step taken n).2 b (by simp [LeaderAct.toNotifier])

theorem worker_step {a : LeaderAct N W ν} (taken : step cfg s a = some s') (w : Fin W) :
    (a.toWorker w = none → s'.worker w = s.worker w) ∧
      ∀ b, a.toWorker w = some b → (s.worker w).step cfg w b = some (s'.worker w) := by
  cases a with
  | acceptClient =>
    simp only [step, Option.some.injEq] at taken
    subst taken
    exact ⟨fun _ => rfl, by simp [LeaderAct.toWorker]⟩
  | worker v a =>
    obtain ⟨direct, v', kvs', nextLsn', moved, -, -, rfl⟩ := workerStep_some taken
    by_cases eq : v = w
    · subst eq
      exact ⟨by simp [LeaderAct.toWorker, direct], by simp [LeaderAct.toWorker, direct, moved]⟩
    · exact ⟨fun _ => Function.update_of_ne (Ne.symm eq) _ _, by simp [LeaderAct.toWorker, eq]⟩
  | notifier n b =>
    have taken' : notifierStep cfg s n b = some s' := taken
    cases b with
    | recv ack =>
      obtain ⟨-, rfl⟩ := notifierStep_recv taken'
      exact ⟨fun _ => rfl, by simp [LeaderAct.toWorker]⟩
    | addVoteCount lsn count =>
      obtain ⟨ack, nextIndex, -, -, -, -, rfl⟩ := notifierStep_addVoteCount taken'
      exact ⟨fun _ => rfl, by simp [LeaderAct.toWorker]⟩
    | commitWork op slot =>
      obtain ⟨j, stage, kvs', stage', -, -, -, -, -, rfl⟩ := notifierStep_commitWork taken'
      exact ⟨fun _ => rfl, by simp [LeaderAct.toWorker]⟩
    | sendRPC slot result =>
      obtain ⟨j, clients, -, -, -, rfl⟩ := notifierStep_sendRPC taken'
      exact ⟨fun _ => rfl, by simp [LeaderAct.toWorker]⟩
    | taskLoad v lsn t =>
      obtain ⟨ack, nextIndex, -, -, -, result, rfl⟩ := notifierStep_taskLoad taken'
      by_cases eq : v = w
      · subst eq
        have ready : (s.worker v).Ready cfg v (.taskLoad lsn t) := result
        simp [LeaderAct.toWorker, setNotifier, onWorker, Worker.step, ready]
      · simp [LeaderAct.toWorker, setNotifier, onWorker, eq, Ne.symm eq]
    | setCommitIndex slot index =>
      obtain ⟨place, x⟩ := slot
      obtain ⟨j, -, rfl, -, -, rfl⟩ := notifierStep_setCommitIndex taken'
      have same : j.place.workerId = j.workerId := rfl
      by_cases eq : j.workerId = w
      · subst eq
        simp [LeaderAct.toWorker, setNotifier, onWorker, Worker.step, Worker.Ready, same]
      · simp [LeaderAct.toWorker, setNotifier, onWorker, same, eq, Ne.symm eq]

private theorem votes_step {a : LeaderAct N W ν} (taken : step cfg s a = some s') (lsn : Int) :
    s'.votes lsn = s.votes lsn +
      (LeaderAct.byNotifier NotifierAct.voted? a).toList.count lsn := by
  have quiet : LeaderAct.byNotifier NotifierAct.voted? a = none → s'.votes = s.votes →
      s'.votes lsn = s.votes lsn +
        (LeaderAct.byNotifier NotifierAct.voted? a).toList.count lsn := by
    intro none same
    simp [none, same]
  cases a with
  | acceptClient =>
    obtain rfl := Option.some.inj taken
    exact quiet rfl rfl
  | worker w b =>
    obtain ⟨-, w', kvs', nextLsn', -, -, -, rfl⟩ := workerStep_some taken
    exact quiet rfl rfl
  | notifier n b =>
    have taken' : notifierStep cfg s n b = some s' := taken
    cases b with
    | recv =>
      obtain ⟨-, rfl⟩ := notifierStep_recv taken'
      exact quiet rfl rfl
    | addVoteCount number count =>
      obtain ⟨ack, nextIndex, -, -, -, next, rfl⟩ := notifierStep_addVoteCount taken'
      by_cases eq : number = lsn
      · subst eq
        simp [setNotifier, LeaderAct.byNotifier, NotifierAct.voted?, next]
      · simp [setNotifier, LeaderAct.byNotifier, NotifierAct.voted?, eq, Ne.symm eq]
    | taskLoad =>
      obtain ⟨ack, nextIndex, -, -, -, -, rfl⟩ := notifierStep_taskLoad taken'
      exact quiet rfl rfl
    | commitWork =>
      obtain ⟨j, stage, kvs', stage', -, -, -, -, -, rfl⟩ := notifierStep_commitWork taken'
      exact quiet rfl rfl
    | setCommitIndex =>
      obtain ⟨j, -, -, -, -, rfl⟩ := notifierStep_setCommitIndex taken'
      exact quiet rfl rfl
    | sendRPC =>
      obtain ⟨j, clients, -, -, -, rfl⟩ := notifierStep_sendRPC taken'
      exact quiet rfl rfl

/-- What a call does to the threads and to the counters that they share, whatever the store answers
and whatever it makes of the requests. Logs, packets, votes and tasks depend on nothing else. -/
structure Moves (cfg : Config N) (s : Leader N W ν cfg.consts) (a : LeaderAct N W ν)
    (s' : Leader N W ν cfg.consts) : Prop where
  worker : ∀ w, (a.toWorker w = none → s'.worker w = s.worker w) ∧
    ∀ b, a.toWorker w = some b → Worker.Moves cfg w (s.worker w) b (s'.worker w)
  notifier : ∀ n, (a.toNotifier n = none → s'.notifier n = s.notifier n) ∧
    ∀ b, a.toNotifier n = some b → Notifier.Step (s.notifier n) b (s'.notifier n)
  nextLsn : (a.entry? = none ∧ s'.nextLsn = s.nextLsn) ∨
    ∃ v e, a.entry? = some (v, e) ∧ 0 ≤ e.lsn ∧ e.lsn = narrowLsn s.nextLsn ∧
      s'.nextLsn = s.nextLsn + 1
  votes : ∀ lsn, s'.votes lsn = s.votes lsn +
    (LeaderAct.byNotifier NotifierAct.voted? a).toList.count lsn
  counted : ∀ n lsn count, a = .notifier n (.addVoteCount lsn count) → count = s'.votes lsn

theorem moves_step {a : LeaderAct N W ν} (taken : step cfg s a = some s') : Moves cfg s a s' where
  worker := fun w =>
    have ⟨frame, moved⟩ := worker_step taken w
    ⟨frame, fun b label => Worker.moves_step (moved b label)⟩
  notifier := notifier_step taken
  nextLsn := next_lsn taken
  votes := votes_step taken
  counted := by
    rintro n lsn count rfl
    obtain ⟨ack, nextIndex, -, -, -, -, rfl⟩ := notifierStep_addVoteCount taken
    exact (Function.update_self lsn count s.votes).symm

theorem moves_run (run : Run (Steps (step cfg)) s₀ tr s) : Run (Moves cfg) s₀ tr s :=
  run.mono (fun _ _ _ taken => moves_step taken)

theorem moves_worker {w : Fin W} {b : WorkerAct N W} {v : Worker N W} (direct : b.direct = true)
    (unlogged : b.entry? = none) (moves : Worker.Moves cfg w (s.worker w) b v) :
    Moves cfg s (.worker w b) { s with worker := Function.update s.worker w v } where
  worker := by
    intro u
    by_cases eq : w = u
    · subst eq
      simpa [LeaderAct.toWorker, direct] using moves
    · simp [LeaderAct.toWorker, eq, Ne.symm eq]
  notifier := fun n => ⟨fun _ => rfl, by simp [LeaderAct.toNotifier]⟩
  nextLsn := .inl ⟨by simp [LeaderAct.entry?, unlogged], rfl⟩
  votes := by simp [LeaderAct.byNotifier]
  counted := by simp

theorem moves_commitWork {n : ν} {op : CommitOp} {slot : Place W × TransReq} {p : Notifier N W}
    (taken : Notifier.Step (s.notifier n) (.commitWork op slot) p) :
    Moves cfg s (.notifier n (.commitWork op slot)) (s.setNotifier cfg n p) where
  worker := fun w => ⟨fun _ => rfl, by simp [LeaderAct.toWorker]⟩
  notifier := by
    intro m
    by_cases eq : n = m
    · subst eq
      simpa [LeaderAct.toNotifier, setNotifier] using taken
    · simp [LeaderAct.toNotifier, setNotifier, eq, Ne.symm eq]
  nextLsn := .inl ⟨rfl, rfl⟩
  votes := by simp [LeaderAct.byNotifier, NotifierAct.voted?, setNotifier]
  counted := by simp

theorem Moves.called {n : ν} {b : NotifierAct N W} (moves : Moves cfg s (.notifier n b) s') :
    Notifier.Step (s.notifier n) b (s'.notifier n) :=
  (moves.notifier n).2 b (by simp [LeaderAct.toNotifier])

theorem notifier_run (run : Run (Moves cfg) s₀ tr s) (n : ν) :
    Run Notifier.Step (s₀.notifier n) (ofNotifier n tr) (s.notifier n) :=
  run.project (fun s => s.notifier n) (LeaderAct.toNotifier n)
    (fun _ _ _ moves none => (moves.notifier n).1 none)
    (fun _ _ _ b moves label => (moves.notifier n).2 b label)

theorem worker_run (run : Run (Steps (step cfg)) s₀ tr s) (w : Fin W) :
    Run (Steps (Worker.step cfg w)) (s₀.worker w) (ofWorker w tr) (s.worker w) :=
  run.project (fun s => s.worker w) (LeaderAct.toWorker w)
    (fun _ _ _ taken none => (worker_step taken w).1 none)
    (fun _ _ _ b taken label => (worker_step taken w).2 b label)

theorem worker_moves (run : Run (Moves cfg) s₀ tr s) (w : Fin W) :
    Run (Worker.Moves cfg w) (s₀.worker w) (ofWorker w tr) (s.worker w) :=
  run.project (fun s => s.worker w) (LeaderAct.toWorker w)
    (fun _ _ _ moves none => (moves.worker w).1 none)
    (fun _ _ _ b moves label => (moves.worker w).2 b label)

omit [DecidableEq ν] in
theorem toWorker_entry (w : Fin W) (a : LeaderAct N W ν) :
    (a.toWorker w).bind WorkerAct.entry? = a.entryAt w := by
  cases a with
  | acceptClient => rfl
  | worker v a =>
    by_cases eq : v = w <;> cases a <;>
      simp [LeaderAct.toWorker, WorkerAct.direct, LeaderAct.entryAt, LeaderAct.entry?,
        WorkerAct.entry?, eq]
  | notifier n b =>
    cases b with
    | taskLoad v =>
      by_cases eq : v = w <;>
        simp [LeaderAct.toWorker, LeaderAct.entryAt, LeaderAct.entry?, WorkerAct.entry?, eq]
    | setCommitIndex slot =>
      by_cases eq : slot.1.workerId = w <;>
        simp [LeaderAct.toWorker, LeaderAct.entryAt, LeaderAct.entry?, WorkerAct.entry?, eq]
    | _ => rfl

theorem log_step {a : LeaderAct N W ν} (taken : step cfg s a = some s') (w : Fin W) :
    (s'.worker w).log = (a.entryAt w).elim (s.worker w).log (s.worker w).log.addEntry := by
  obtain ⟨frame, moved⟩ := worker_step taken w
  rw [← toWorker_entry]
  cases mine : a.toWorker w with
  | none =>
    rw [frame mine]
    rfl
  | some b =>
    obtain ⟨-, after⟩ := Worker.step_eq_some.mp (moved b mine)
    rw [after, Worker.log_after]
    rfl

section Accounting

theorem entries_numbered (fresh : Fresh cfg s₀) (run : Run (Moves cfg) s₀ tr s) :
    (entries tr).map (fun p => p.2.lsn) = (List.range s.nextLsn.toNat).map Int.ofNat ∧
      s.nextLsn.toNat ≤ 2 ^ 31 := by
  refine run.invariant (I := fun tr s =>
    (entries tr).map (fun p => p.2.lsn) = (List.range s.nextLsn.toNat).map Int.ofNat ∧
      s.nextLsn.toNat ≤ 2 ^ 31) ?_ ?_
  · simp [fresh.nextLsn, entries]
  · intro tr s a s' _ inv moves
    obtain ⟨numbers, small⟩ := inv
    have histories : entries (tr ++ [a]) = entries tr ++ a.entry?.toList := by
      cases out : a.entry? <;> simp [entries, out]
    rcases moves.nextLsn with ⟨none, same⟩ | ⟨w, e, label, nonneg, number, next⟩
    · rw [histories, none, same]
      exact ⟨by simpa using numbers, small⟩
    · obtain ⟨value, bound⟩ := narrowLsn_of_nonneg (by omega) (number ▸ nonneg)
      have count : s'.nextLsn.toNat = s.nextLsn.toNat + 1 := by
        rw [next, BitVec.toNat_add]
        have one : (1 : BitVec 64).toNat = 1 := rfl
        omega
      rw [histories, label, count, List.range_succ, List.map_append, List.map_append, numbers]
      refine ⟨?_, by omega⟩
      simp [number, value]

section Workers

variable {γ : Type} (f : Fin W → Int × Nat × List TransReq → List γ) (tr : List (LeaderAct N W ν))

omit [DecidableEq ν] in
theorem sum_logged :
    ∑ w, Lib.contributed WorkerAct.entry? (fun e => f w e.batch) (ofWorker w tr) =
      Lib.contributed LeaderAct.entry? (fun p => f p.1 p.2.batch) tr := by
  have parts := Lib.sum_contributed (fun w a => (LeaderAct.toWorker w a).bind WorkerAct.entry?)
    (fun w e => f w e.batch) (LeaderAct.entry? (ν := ν)) (fun p => f p.1 p.2.batch) ?_ tr
  · simpa only [Lib.contributed, ofWorker, List.filterMap_filterMap] using parts
  · intro a
    cases a with
    | acceptClient => exact .inl ⟨rfl, fun _ => rfl⟩
    | worker v a =>
      cases a with
      | loggingWork e =>
        refine .inr ⟨v, e, (v, e), rfl, by simp [LeaderAct.toWorker, WorkerAct.direct,
          WorkerAct.entry?], rfl, fun w apart => ?_⟩
        simp [LeaderAct.toWorker, Ne.symm apart]
      | _ =>
        refine .inl ⟨rfl, fun w => ?_⟩
        by_cases eq : v = w <;> simp [LeaderAct.toWorker, WorkerAct.direct, eq, WorkerAct.entry?]
    | notifier n b =>
      refine .inl ⟨rfl, fun w => ?_⟩
      cases b with
      | taskLoad v => by_cases eq : v = w <;> simp [LeaderAct.toWorker, eq, WorkerAct.entry?]
      | setCommitIndex slot =>
        by_cases eq : slot.1.workerId = w <;> simp [LeaderAct.toWorker, eq, WorkerAct.entry?]
      | _ => rfl

omit [DecidableEq ν] in
private theorem sum_loaded :
    ∑ w, Lib.contributed WorkerAct.loaded? (fun t => f w t.batch) (ofWorker w tr) =
      Lib.contributed (LeaderAct.byNotifier NotifierAct.loaded?) (fun p => f p.1 p.2.batch) tr := by
  have parts := Lib.sum_contributed (fun w a => (LeaderAct.toWorker w a).bind WorkerAct.loaded?)
    (fun w t => f w t.batch) (LeaderAct.byNotifier (ν := ν) NotifierAct.loaded?)
    (fun p => f p.1 p.2.batch) ?_ tr
  · simpa only [Lib.contributed, ofWorker, List.filterMap_filterMap] using parts
  · intro a
    cases a with
    | acceptClient => exact .inl ⟨rfl, fun _ => rfl⟩
    | worker v a =>
      refine .inl ⟨rfl, fun w => ?_⟩
      by_cases eq : v = w <;> cases a <;>
        simp [LeaderAct.toWorker, WorkerAct.direct, eq, WorkerAct.loaded?]
    | notifier n b =>
      cases b with
      | taskLoad v lsn t =>
        cases t with
        | none =>
          refine .inl ⟨rfl, fun w => ?_⟩
          by_cases eq : v = w <;> simp [LeaderAct.toWorker, eq, WorkerAct.loaded?]
        | some t =>
          refine .inr ⟨v, t, (v, t), rfl, by simp [LeaderAct.toWorker, WorkerAct.loaded?], rfl,
            fun w apart => ?_⟩
          simp [LeaderAct.toWorker, Ne.symm apart]
      | setCommitIndex slot =>
        refine .inl ⟨rfl, fun w => ?_⟩
        by_cases eq : slot.1.workerId = w <;> simp [LeaderAct.toWorker, eq, WorkerAct.loaded?]
      | _ => exact .inl ⟨rfl, fun _ => rfl⟩

variable {tr}

theorem batch_accounting (fresh : Fresh cfg s₀) (run : Run (Moves cfg) s₀ tr s) :
    Lib.contributed (LeaderAct.byNotifier NotifierAct.loaded?) (fun p => f p.1 p.2.batch) tr +
      ∑ w, Multiset.ofList (((s.worker w).waiting w).flatMap (fun t => f w t.batch)) =
    Lib.contributed LeaderAct.entry? (fun p => f p.1 p.2.batch) tr := by
  rw [← sum_loaded, ← sum_logged, ← Finset.sum_add_distrib]
  refine Finset.sum_congr rfl (fun w _ => ?_)
  have batches := Worker.batches_run (fresh.worker w) (worker_moves run w)
  have perm := (Worker.waiting_perm batches).flatMap_right (f w)
  rw [List.map_append, List.flatMap_append, List.flatMap_map, List.flatMap_map,
    List.flatMap_map] at perm
  exact Multiset.coe_eq_coe.mpr perm

end Workers

theorem sum_byNotifier [Fintype ν] {β γ : Type} (g : NotifierAct N W → Option β)
    (f : β → List γ) (tr : List (LeaderAct N W ν)) :
    ∑ n, Lib.contributed g f (ofNotifier n tr) =
      Lib.contributed (LeaderAct.byNotifier g) f tr := by
  have parts := Lib.sum_contributed (fun n a => (LeaderAct.toNotifier n a).bind g)
    (fun _ => f) (LeaderAct.byNotifier (ν := ν) g) f ?_ tr
  · simpa only [Lib.contributed, ofNotifier, List.filterMap_filterMap] using parts
  · intro a
    cases a with
    | notifier m b =>
      cases out : g b with
      | none =>
        refine .inl ⟨out, fun n => ?_⟩
        by_cases eq : m = n <;> simp [LeaderAct.toNotifier, eq, out]
      | some x =>
        refine .inr ⟨m, x, x, out, by simp [LeaderAct.toNotifier, out], rfl, fun n apart => ?_⟩
        simp [LeaderAct.toNotifier, Ne.symm apart]
    | _ => exact .inl ⟨rfl, fun _ => rfl⟩

/-- Every logged transaction waits in a worker, is still to be called for by a notifier, or was
called for: one place each. -/
theorem accounting [Fintype ν] (fresh : Fresh cfg s₀) (run : Run (Moves cfg) s₀ tr s)
    (op : CommitOp) :
    (calls op tr : Multiset (Place W × TransReq)) +
      ∑ n, ((s.notifier n).todo op : Multiset (Place W × TransReq)) +
      ∑ w, Multiset.ofList (((s.worker w).waiting w).flatMap (Task.slots w)) =
    loggedSlots tr := by
  have notifiers : ∑ n, (Lib.contributed (NotifierAct.callOf? op) (fun p => [p]) (ofNotifier n tr) +
      ((s.notifier n).todo op : Multiset (Place W × TransReq))) = loadedSlots tr := by
    have each : ∀ n, Lib.contributed (NotifierAct.callOf? op) (fun p => [p]) (ofNotifier n tr) +
        ((s.notifier n).todo op : Multiset (Place W × TransReq)) =
        Lib.contributed NotifierAct.loaded? (fun p => p.2.slots p.1) (ofNotifier n tr) := by
      intro n
      have own := notifier_run run n
      rw [fresh.notifier n] at own
      have done := Notifier.callsOf_todo own op
      unfold Lib.contributed
      rw [Multiset.coe_add, List.flatMap_singleton']
      exact congrArg _ done
    rw [Finset.sum_congr rfl (fun n _ => each n), sum_byNotifier]
    rfl
  have workers := batch_accounting (fun w b => slots w b.1 (b.2.2.take b.2.1)) fresh run
  have made := sum_byNotifier (NotifierAct.callOf? op) (fun p => [p]) tr
  have made' : Lib.contributed (LeaderAct.byNotifier (ν := ν) (NotifierAct.callOf? op))
      (fun p => [p]) tr = (calls op tr : Multiset (Place W × TransReq)) := by
    unfold Lib.contributed
    rw [List.flatMap_singleton']
    rfl
  rw [Finset.sum_add_distrib, made, made'] at notifiers
  rw [notifiers]
  exact workers

end Accounting

end Leader

end Raft2pl.Server
