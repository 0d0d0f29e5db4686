/- What the threads of the cluster do next: none of them waits for ever in the middle of its work. -/

import Raft2pl.Server.Majority
import Raft2pl.Server.Requests

set_option autoImplicit false
set_option relaxedAutoImplicit false

namespace Raft2pl.Server

open Lib (Run Steps)
open TwoPl (KVS CommitStage commitStep)

namespace Worker

variable {N W : Nat} (cfg : Config N) (w : Worker N W)

def left : Nat :=
  match w.pc with
  | .head => 0
  | .sending => w.followers.length + 1
  | .logging => N + 2
  | .flushTest => N + 3
  | .unlockFrom | .locked => N + 4
  | .lockTo => N + 5
  | .lockFrom => N + 6

private theorem length_followers : cfg.followers.length ≤ N := by
  refine (List.length_filter_le _ _).trans ?_
  rw [List.length_finRange]

end Worker

namespace Notifier

variable {N W : Nat}

def left (n : Notifier N W) : Nat := (n.work.map (fun p => 8 - p.1.rank)).sum

theorem left_call {n n' : Notifier N W} {b : NotifierAct N W} {op : CommitOp}
    {slot : Place W × TransReq} (taken : Step n b n') (call : b.call? = some (op, slot)) :
    n'.left < n.left := by
  obtain ⟨rest, before, after⟩ := work_call taken call
  rw [left, left, before, after]
  cases op <;> simp [CommitOp.next, CommitOp.rank]

def ackLeft (n : Notifier N W) : Nat := 2 * n.uncounted.length + n.unprocessed.length

private theorem ackLeft_less {n n' : Notifier N W} {b : NotifierAct N W} (taken : Step n b n')
    (unread : b.ack? = none) (uncalled : b.call? = none) : n'.ackLeft < n.ackLeft := by
  cases taken with
  | recv => cases unread
  | addVoteCount ack nextIndex count => split <;> simp [ackLeft]
  | taskLoad ack nextIndex t => cases t <;> simp [ackLeft, afterLoad]
  | commitWork | setCommitIndex | sendRPC => cases uncalled

private theorem ackLeft_recv {n n' : Notifier N W} {b : NotifierAct N W}
    {ack : ResponseAppendEntries N W}
    (taken : Step n b n') (read : b.ack? = some ack) : n'.ackLeft ≤ 2 := by
  cases taken with
  | recv => split <;> simp [ackLeft]
  | _ => cases read

theorem ackLeft_call {n n' : Notifier N W} {b : NotifierAct N W} {op : CommitOp}
    {slot : Place W × TransReq} (taken : Step n b n') (call : b.call? = some (op, slot)) :
    n'.ackLeft = n.ackLeft := by
  cases taken with
  | recv | addVoteCount | taskLoad => cases call
  | commitWork | setCommitIndex | sendRPC => simp [ackLeft]

end Notifier

namespace Leader

variable {N W : Nat} {ν : Type} [DecidableEq ν] {cfg : Config N}
  {s₀ s s' : Leader N W ν cfg.consts} {tr : List (LeaderAct N W ν)}

def Flushing (s : Leader N W ν cfg.consts) (w : Fin W) : Prop :=
  match (s.worker w).pc with
  | .head | .sending => False
  | .lockFrom => 0 < (s.worker w).buffid ∨
      ∀ k ∈ (s.worker w).xact.req.sorted.keys, s.kvs.mutex k = false
  | .lockTo => 0 < (s.worker w).buffid ∨ s.kvs.mutex (s.worker w).xact.req.toKey = false
  | .locked | .logging => True
  | .unlockFrom | .flushTest => 0 < (s.worker w).buffid

theorem step_worker {w : Fin W} {a : WorkerAct N W} {kvs' : KVS cfg.consts} {nextLsn' : BitVec 64}
    (direct : a.direct = true) (ready : (s.worker w).Ready cfg w a)
    (called : lockCall cfg s.kvs (s.worker w) a = some kvs')
    (counted : lsnCall s.nextLsn a = some nextLsn') :
    step cfg s (.worker w a) = some { s with
      worker := Function.update s.worker w ((s.worker w).after cfg a)
      kvs := kvs'
      nextLsn := nextLsn' } := by
  simp only [step, workerStep, direct, if_true, Worker.step, ready, called, counted,
    Option.bind_eq_bind, Option.bind_some]

/-- The next call of a worker that is not at the head of its loop, towards the head and, if it is on
its way to a flush, towards the log. -/
structure NextCall (s : Leader N W ν cfg.consts) (w : Fin W) (a : WorkerAct N W)
    (s' : Leader N W ν cfg.consts) : Prop where
  taken : step cfg s (.worker w a) = some s'
  quiet : a.xact? = none
  less : (s'.worker w).left < (s.worker w).left
  flushing : s.Flushing w → a.entry? ≠ none ∨ s'.Flushing w

private theorem next_lockFrom {w : Fin W} (safe : ¬ s.Aborts) (here : (s.worker w).pc = .lockFrom) :
    ∃ a s', NextCall s w a s' := by
  have apart : (s.worker w).xact.req.fromKey ≠ (s.worker w).xact.req.toKey :=
    fun same => safe (.transferWork w here same)
  obtain ⟨⟨got, kvs'⟩, locked⟩ :=
    Option.ne_none_iff_exists'.mp (fun failed => safe (.lockFrom w here failed))
  obtain ⟨ok, result, store⟩ := KVS.lock_eq_some.mp locked
  have called : lockCall cfg s.kvs (s.worker w) (.lockFrom got) = some kvs' := by
    simp [lockCall, locked]
  refine ⟨.lockFrom got, _, step_worker rfl ⟨here, apart, ok⟩ called rfl, rfl, ?_,
    fun flushing => .inr ?_⟩
  · cases got <;> simp [Worker.left, Worker.after, here]
  · simp only [Flushing, here] at flushing
    cases busy : s.kvs.mutex (s.worker w).xact.req.sorted.fromKey with
    | true =>
      obtain rfl : got = false := by simpa [busy] using result
      have filled : 0 < (s.worker w).buffid := by
        refine flushing.resolve_right (fun free => ?_)
        rw [free _ (by simp [ClientRequest.keys])] at busy
        cases busy
      simpa [Flushing, Worker.after, Worker.rewriteReq] using filled
    | false =>
      obtain rfl : got = true := by simpa [busy] using result
      obtain rfl : kvs' = s.kvs.setMutex (s.worker w).xact.req.sorted.fromKey true := by
        simpa [busy] using store
      have later : 0 < (s.worker w).buffid ∨
          s.kvs.mutex (s.worker w).xact.req.sorted.toKey = false :=
        flushing.imp_right (fun free => free _ (by simp [ClientRequest.keys]))
      have other := ClientRequest.sorted_ne apart
      simpa [Flushing, Worker.after, Worker.rewriteReq, Ne.symm other] using later

private theorem next_lockTo {w : Fin W} (safe : ¬ s.Aborts) (here : (s.worker w).pc = .lockTo) :
    ∃ a s', NextCall s w a s' := by
  obtain ⟨⟨got, kvs'⟩, locked⟩ :=
    Option.ne_none_iff_exists'.mp (fun failed => safe (.lockTo w here failed))
  obtain ⟨ok, result, -⟩ := KVS.lock_eq_some.mp locked
  have called : lockCall cfg s.kvs (s.worker w) (.lockTo got) = some kvs' := by
    simp [lockCall, locked]
  refine ⟨.lockTo got, _, step_worker rfl ⟨here, ok⟩ called rfl, rfl, ?_, fun flushing => .inr ?_⟩
  · cases got <;> simp [Worker.left, Worker.after, here]
  · simp only [Flushing, here] at flushing
    cases busy : s.kvs.mutex (s.worker w).xact.req.toKey with
    | true =>
      obtain rfl : got = false := by simpa [busy] using result
      simpa [Flushing, Worker.after, busy] using flushing
    | false =>
      obtain rfl : got = true := by simpa [busy] using result
      simp [Flushing, Worker.after]

/-- A worker in the middle of its loop has a next call, whatever locks it meets, as long as no
assertion fails and the numbers of the batches have not run out. -/
theorem worker_next {w : Fin W} (safe : ¬ s.Aborts)
    (numbers : (s.worker w).pc = .logging → s.nextLsn.toNat < 2 ^ 31)
    (busy : (s.worker w).pc ≠ .head) : ∃ a s', NextCall s w a s' := by
  cases here : (s.worker w).pc with
  | head => exact absurd here busy
  | lockFrom => exact next_lockFrom safe here
  | lockTo => exact next_lockTo safe here
  | unlockFrom =>
    obtain ⟨kvs', unlocked⟩ :=
      Option.ne_none_iff_exists'.mp (fun failed => safe (.unlockFrom w here failed))
    obtain ⟨ok, -⟩ := KVS.unlock_eq_some.mp unlocked
    refine ⟨.unlockFrom, _, step_worker rfl ⟨here, ok⟩ unlocked rfl, rfl, ?_, fun flushing => .inr ?_⟩
    · simp [Worker.left, Worker.after, here]
    · simpa [Flushing, Worker.after, here] using flushing
  | locked =>
    refine ⟨.copyToBuffer, _, step_worker rfl here rfl rfl, rfl, ?_, fun _ => .inr ?_⟩
    · simp [Worker.left, Worker.after, here]
    · simp [Flushing, Worker.after]
  | flushTest =>
    refine ⟨.flushTest true, _, step_worker rfl here rfl rfl, rfl, ?_, fun flushing => .inr ?_⟩
    · cases due : (s.worker w).flushDue true <;> simp [Worker.left, Worker.after, here, due]
    · have filled : 0 < (s.worker w).buffid := by simpa [Flushing, here] using flushing
      simp [Flushing, Worker.after, Worker.flushDue, filled]
  | logging =>
    have small := numbers here
    have nonneg : 0 ≤ narrowLsn s.nextLsn := by
      rw [narrowLsn, BitVec.toInt_eq_toNat_cond, BitVec.toNat_setWidth]
      split <;> omega
    have counted : lsnCall s.nextLsn (WorkerAct.loggingWork (N := N) (W := W)
        (leaderEntry (s.worker w).logBuffer (s.worker w).buffid cfg.currentTerm
          (narrowLsn s.nextLsn) 0)) = some (s.nextLsn + 1) := by
      simp [lsnCall, leaderEntry]
    refine ⟨.loggingWork _, _, step_worker rfl ⟨here, nonneg, rfl⟩ rfl counted, rfl, ?_,
      fun _ => .inl (by simp [WorkerAct.entry?])⟩
    have few := Worker.length_followers cfg
    simp only [Function.update_self, Worker.left, Worker.after, here]
    omega
  | sending =>
    cases rest : (s.worker w).followers with
    | nil =>
      refine ⟨.taskStore ((s.worker w).task w), _, step_worker rfl ⟨here, rest, rfl⟩ rfl rfl, rfl, ?_,
        fun flushing => ?_⟩
      · simp [Worker.left, Worker.after, here]
      · simp [Flushing, here] at flushing
    | cons f rest' =>
      refine ⟨.sendRPC ((s.worker w).packet cfg w f), _,
        step_worker rfl ⟨here, by rw [rest]; rfl, rfl⟩ rfl rfl, rfl, ?_, fun flushing => ?_⟩
      · simp [Worker.left, Worker.after, here, rest]
      · simp [Flushing, here] at flushing

theorem job_xact (fresh : Fresh cfg s₀) (run : Run (Steps (step cfg)) s₀ tr s) {n : ν} {j : Job W}
    (here : (s.notifier n).job? = some j) : ∃ x, j.xact? = some x := by
  have moves := moves_run run
  have own := notifier_run moves n
  rw [fresh.notifier n] at own
  obtain ⟨inside, loaded⟩ := Notifier.job_run own j here
  obtain ⟨e, entry, batch⟩ := loadsOf_logged fresh moves loaded
  have full := (Worker.pipeline_run (fresh.worker j.workerId) (worker_run run _)).entries e entry
  simp only [Entry.batch, Task.batch, Prod.mk.injEq] at batch
  obtain ⟨-, size, content⟩ := batch
  rw [size, content] at full
  exact ⟨_, by rw [Job.xact?, if_pos inside, List.getElem?_eq_getElem (full ▸ inside)]⟩

theorem job_next {n : ν} {j : Job W} {x : TransReq} (safe : ¬ s.Aborts)
    (here : (s.notifier n).job? = some j) (xact : j.xact? = some x) :
    ∃ b op, b.call? = some (op, j.place, x) ∧ (step cfg s (.notifier n b)).isSome := by
  cases point : s.notifier n with
  | commit k stage =>
    obtain rfl : k = j := by simpa [Notifier.job?, point] using here
    by_cases running : stage = .returned
    · subst running
      refine ⟨.setCommitIndex (k.place, x) k.nextIndex, _, rfl, ?_⟩
      simp [step, notifierStep, point, xact]
    · obtain ⟨r, made⟩ := Option.ne_none_iff_exists'.mp
        (fun failed => safe (.commitWork n point xact running failed))
      refine ⟨.commitWork (opOf stage) (k.place, x), _, rfl, ?_⟩
      simp [step, notifierStep, point, xact, made]
  | reply k =>
    obtain rfl : k = j := by simpa [Notifier.job?, point] using here
    by_cases known : x.clientId ∈ s.clientNodes
    · refine ⟨.sendRPC (k.place, x) .sent, _, rfl, ?_⟩
      simp [step, notifierStep, point, xact, known]
    · refine ⟨.sendRPC (k.place, x) .noClient, _, rfl, ?_⟩
      simp [step, notifierStep, point, xact, known]
  | _ => simp [Notifier.job?, point] at here

theorem left_notifier {n : ν} {b : NotifierAct N W} (taken : step cfg s (.notifier n b) = some s')
    (w : Fin W) : (s'.worker w).pc = (s.worker w).pc ∧ (s'.worker w).left = (s.worker w).left := by
  obtain ⟨frame, moved⟩ := worker_step taken w
  cases mine : (LeaderAct.notifier n b).toWorker w with
  | none =>
    rw [frame mine]
    exact ⟨rfl, rfl⟩
  | some a =>
    obtain ⟨-, after⟩ := Worker.step_eq_some.mp (moved a mine)
    rw [after]
    cases b <;> simp only [LeaderAct.toWorker, Option.ite_none_right_eq_some, reduceCtorEq,
      Option.some.injEq] at mine
    · obtain ⟨-, rfl⟩ := mine
      exact ⟨rfl, rfl⟩
    · obtain ⟨-, rfl⟩ := mine
      exact ⟨rfl, rfl⟩

private theorem entry_filled (fresh : Fresh cfg s₀) (run : Run (Steps (step cfg)) s₀ tr s) {w : Fin W}
    {e : Entry} (entry : e ∈ logged (ofWorker w tr)) : 0 ≤ e.lsn ∧ 1 ≤ e.nlog := by
  constructor
  · have number := List.mem_map_of_mem (f := fun p : Fin W × Entry => p.2.lsn) (mem_entries.mpr entry)
    rw [(entries_numbered fresh (moves_run run)).1] at number
    obtain ⟨i, -, same⟩ := List.mem_map.mp number
    have value : (i : Int) = e.lsn := same
    omega
  · obtain ⟨a, member, label⟩ := List.mem_filterMap.mp entry
    have sized := (Worker.pipeline_run (fresh.worker w) (worker_run run w)).sized a member
    cases a <;> simp only [WorkerAct.entry?, reduceCtorEq, Option.some.injEq] at label
    subst label
    exact sized.1

omit [DecidableEq ν] in
private theorem length_entries (tr : List (LeaderAct N W ν)) :
    ∑ w, (logged (ofWorker w tr)).length = (entries tr).length := by
  have parts := congrArg Multiset.card (sum_logged (fun _ _ => [()]) tr)
  simpa [Lib.contributed, Multiset.card_sum, logged, entries] using parts

private theorem length_logged (fresh : Fresh cfg s₀) (run : Run (Steps (step cfg)) s₀ tr s)
    (w : Fin W) :
    (logged (ofWorker w tr)).length + (s.worker w).content.length ≤
      (enqueued (ofWorker w tr)).length := by
  have pipeline := Worker.pipeline_run (fresh.worker w) (worker_run run w)
  have sizes : ∀ es : List Entry, (∀ e ∈ es, 1 ≤ e.xactSet.length) →
      es.length ≤ (es.flatMap Entry.xactSet).length := by
    intro es
    induction es with
    | nil => simp
    | cons e es ih =>
      intro full
      have first := full e List.mem_cons_self
      have rest := ih (fun e' member => full e' (List.mem_cons_of_mem _ member))
      rw [List.flatMap_cons, List.length_append, List.length_cons]
      omega
  have several := sizes (logged (ofWorker w tr)) (fun e member => by
    rw [pipeline.entries e member]
    exact (entry_filled fresh run member).2)
  have total := pipeline.order.length_eq
  rw [List.length_append] at total
  omega

theorem numbers_last (fresh : Fresh cfg s₀) (run : Run (Steps (step cfg)) s₀ tr s)
    (few : ∑ w, (enqueued (ofWorker w tr)).length ≤ 2 ^ 31) {w : Fin W}
    (here : (s.worker w).pc = .logging) : s.nextLsn.toNat < 2 ^ 31 := by
  have count := congrArg List.length (entries_numbered fresh (moves_run run)).1
  rw [List.length_map, List.length_map, List.length_range] at count
  have waiting : 0 < (s.worker w).content.length := by
    have room := (Worker.pipeline_run (fresh.worker w) (worker_run run w)).room
    simp only [Worker.Room, here] at room
    have batch := room.1
    rw [Worker.content, Worker.buffered, List.append_assoc, List.length_append, length_memcpy]
    omega
  calc s.nextLsn.toNat = ∑ v, (logged (ofWorker v tr)).length := by rw [length_entries, count]
    _ < ∑ v, (enqueued (ofWorker v tr)).length := by
        refine Finset.sum_lt_sum (fun v _ => ?_) ⟨w, Finset.mem_univ w, ?_⟩
        · have le := length_logged fresh run v
          omega
        · have le := length_logged fresh run w
          omega
    _ ≤ 2 ^ 31 := few

end Leader

def ClusterAct.xact? {N W : Nat} : ClusterAct N W → Option TransReq
  | .leader (.worker _ a) => a.xact?
  | _ => none

namespace Cluster

variable {N W : Nat} {cfg : Config N} {curTerm : Fin N → Int}
  {c₀ c c' : Cluster N W cfg.consts} {tr : List (ClusterAct N W)} {n : Conn N W}

/-- What is on its way on a connection, from the packets to the votes. Each step of the way counts
less than the one before it. -/
def underWay (c : Cluster N W cfg.consts) (n : Conn N W) : Nat :=
  6 * (c.toFollower n).length + 5 * (unwritten (c.receiver n)).length +
    4 * (unacked (c.receiver n)).length + 3 * (c.toLeader n).length + (c.leader.notifier n).ackLeft

theorem step_notifier {b : NotifierAct N W} {leader' : Leader N W (Conn N W) cfg.consts}
    (moved : Leader.step cfg c.leader (.notifier n b) = some leader') (unread : b.ack? = none) :
    step cfg curTerm c (.leader (.notifier n b)) = some { c with leader := leader' } := by
  have sent : c.transmit cfg (.notifier n b) = some c := by
    cases b <;> first | rfl | cases unread
  simp only [step, moved, sent, Option.bind_eq_bind, Option.bind_some]

theorem step_worker {w : Fin W} {a : WorkerAct N W} {leader' : Leader N W (Conn N W) cfg.consts}
    (moved : Leader.step cfg c.leader (.worker w a) = some leader') :
    ∃ t, step cfg curTerm c (.leader (.worker w a)) = some t ∧ t.leader = leader' := by
  have sent : ∃ c₁, c.transmit cfg (.worker w a) = some c₁ := by
    cases a <;> exact ⟨_, rfl⟩
  obtain ⟨c₁, sent⟩ := sent
  refine ⟨{ c₁ with leader := leader' }, ?_, rfl⟩
  simp only [step, moved, sent, Option.bind_eq_bind, Option.bind_some]

private theorem packet_filled (fresh : Fresh cfg c₀) (run : Run (Steps (step cfg curTerm)) c₀ tr c)
    {p : AppendEntriesRpc N W} (under : p.shared ∈ (sent n tr).map AppendEntriesRpc.shared) :
    0 ≤ p.lsn ∧ 1 ≤ p.szLog := by
  have moves := moves_run run
  obtain ⟨q, member, same⟩ := List.mem_map.mp under
  have follower := (sent_addressed fresh moves n q member).2.2
  have batches := Worker.batches_run (fresh.leader.worker n.2)
    (Leader.worker_moves (leader_run moves) n.2)
  have inLog : p.shared ∈ (leaderLogged n.2 tr).map Entry.shared := by
    rw [leaderLogged, ← batches.sent n.1 follower]
    exact List.mem_append_left _ under
  obtain ⟨e, entry, content⟩ := List.mem_map.mp inLog
  obtain ⟨number, filled⟩ := Leader.entry_filled fresh.leader (leader_steps run) entry
  simp only [Entry.shared, AppendEntriesRpc.shared, Prod.mk.injEq] at content
  exact ⟨content.1 ▸ number, content.2.2.1 ▸ filled⟩

/-- A call that adds no request and brings one connection nearer to rest. -/
structure Clears (curTerm : Fin N → Int) (c : Cluster N W cfg.consts) (n : Conn N W)
    (b : ClusterAct N W) (t : Cluster N W cfg.consts) : Prop where
  taken : stepStoredFirst cfg curTerm c b = some t
  quiet : b.xact? = none
  less : t.underWay n < c.underWay n
  others : ∀ m, m ≠ n → t.underWay m = c.underWay m
  worker : ∀ w, (t.leader.worker w).left = (c.leader.worker w).left

private theorem clears_notifier {b : NotifierAct N W}
    (enabled : (Leader.step cfg c.leader (.notifier n b)).isSome)
    (unread : b.ack? = none) (uncalled : b.call? = none)
    (first : c.storedFirst (.leader (.notifier n b)) = true) : ∃ b t, Clears curTerm c n b t := by
  obtain ⟨leader', moved⟩ := Option.isSome_iff_exists.mp enabled
  have less := Notifier.ackLeft_less (Leader.notifier_taken moved) unread uncalled
  refine ⟨.leader (.notifier n b), { c with leader := leader' }, ⟨stepStoredFirst_some.mpr
    ⟨first, step_notifier moved unread⟩, rfl, ?_, fun m apart => ?_, fun w => ?_⟩⟩
  · simp only [underWay]
    omega
  · simp only [underWay, Leader.notifier_frame moved apart]
  · exact (Leader.left_notifier moved w).2

private theorem vote_clears (fresh : Fresh cfg c₀) (run : Run (Steps (step cfg curTerm)) c₀ tr c)
    {ack : ResponseAppendEntries N W} {nextIndex : Int}
    (here : c.leader.notifier n = .vote ack nextIndex) : ∃ b t, Clears curTerm c n b t := by
  obtain ⟨-, e, entry, number⟩ := ackAt_logged (n := n) (a := ack) fresh (moves_run run)
    (by simp [here])
  have nonneg := (Leader.entry_filled fresh.leader (leader_steps run) entry).1
  rw [number] at nonneg
  have enabled : (Leader.step cfg c.leader
      (.notifier n (.addVoteCount ack.lsn (c.leader.votes ack.lsn + 1)))).isSome := by
    simp [Leader.step, Leader.notifierStep, here, nonneg]
  exact clears_notifier enabled rfl rfl rfl

private theorem load_clears (head : ∀ w, (c.leader.worker w).pc = .head)
    {ack : ResponseAppendEntries N W} {nextIndex : Int}
    (here : c.leader.notifier n = .load ack nextIndex) : ∃ b t, Clears curTerm c n b t := by
  have enabled : (Leader.step cfg c.leader (.notifier n (.taskLoad ack.workerId ack.lsn
      (taskLoad ack.lsn (c.leader.worker ack.workerId).taskList).1))).isSome := by
    simp [Leader.step, Leader.notifierStep, here]
  exact clears_notifier enabled rfl rfl (by simp [storedFirst, head])

private theorem ack_clears (here : c.leader.notifier n = .recv) {ack : ResponseAppendEntries N W}
    {rest : List (ResponseAppendEntries N W)} (first : c.toLeader n = ack :: rest) :
    ∃ b t, Clears curTerm c n b t := by
  have enabled : (Leader.step cfg c.leader (.notifier n (.recv ack))).isSome := by
    simp [Leader.step, Leader.notifierStep, here]
  obtain ⟨leader', moved⟩ := Option.isSome_iff_exists.mp enabled
  refine ⟨.leader (.notifier n (.recv ack)), { c with
    leader := leader'
    toLeader := Function.update c.toLeader n rest }, ⟨?_, rfl, ?_, fun m apart => ?_, fun w => ?_⟩⟩
  · refine stepStoredFirst_some.mpr ⟨rfl, ?_⟩
    simp [step, moved, transmit, first]
  · have light := Notifier.ackLeft_recv (Leader.notifier_taken moved) rfl
    simp only [underWay, Function.update_self, first, List.length_cons]
    omega
  · simp only [underWay, Function.update_of_ne apart, Leader.notifier_frame moved apart]
  · exact (Leader.left_notifier moved w).2

private theorem logging_clears (fresh : Fresh cfg c₀) (run : Run (Steps (step cfg curTerm)) c₀ tr c)
    {id : Fin W} {arpc : AppendEntriesRpc N W} (here : c.receiver n = .logging id arpc) :
    ∃ b t, Clears curTerm c n b t := by
  have link := link_run fresh (moves_run run) n
  obtain ⟨number, filled⟩ : 0 ≤ arpc.lsn ∧ 1 ≤ arpc.szLog := by
    refine packet_filled fresh run (n := n) ?_
    rw [← link.packets, List.map_append, ← link.written]
    simp [here, unwritten]
  refine ⟨.loggingWork n id (followerEntry arpc 0), { c with
    disk := Function.update c.disk (n.1, id) ((c.disk (n.1, id)).addEntry (followerEntry arpc 0))
    receiver := Function.update c.receiver n (.acking id arpc) }, ⟨?_, rfl, ?_, fun m apart => ?_,
      fun w => rfl⟩⟩
  · refine stepStoredFirst_some.mpr ⟨rfl, ?_⟩
    have positive : 0 < arpc.szLog := filled
    simp [step, here, number, positive, followerEntry]
  · simp [underWay, here, unwritten, unacked]
  · simp only [underWay, Function.update_of_ne apart]

private theorem acking_clears {id : Fin W} {arpc : AppendEntriesRpc N W}
    (here : c.receiver n = .acking id arpc) : ∃ b t, Clears curTerm c n b t := by
  refine ⟨.sendAck n (raeByFields curTerm n.1 arpc), { c with
    toLeader := Function.update c.toLeader n (c.toLeader n ++ [raeByFields curTerm n.1 arpc])
    receiver := Function.update c.receiver n (.recv id) }, ⟨?_, rfl, ?_, fun m apart => ?_,
      fun w => rfl⟩⟩
  · refine stepStoredFirst_some.mpr ⟨rfl, ?_⟩
    simp [step, here]
  · simp only [underWay, Function.update_self, here, unwritten, unacked, List.length_append,
      List.length_cons, List.length_nil]
    omega
  · simp only [underWay, Function.update_of_ne apart]

private theorem packet_clears {id : Fin W} {arpc : AppendEntriesRpc N W}
    {rest : List (AppendEntriesRpc N W)} (opened : Receiver.logId arpc (c.receiver n) = some id)
    (first : c.toFollower n = arpc :: rest) : ∃ b t, Clears curTerm c n b t := by
  refine ⟨.recv n arpc, { c with
    toFollower := Function.update c.toFollower n rest
    receiver := Function.update c.receiver n (.logging id arpc) }, ⟨?_, rfl, ?_, fun m apart => ?_,
      fun w => rfl⟩⟩
  · refine stepStoredFirst_some.mpr ⟨rfl, ?_⟩
    simp [step, opened, first]
  · simp only [underWay, Function.update_self, first, unwritten, unacked, List.length_cons,
      List.length_nil]
    omega
  · simp only [underWay, Function.update_of_ne apart]

/-- As long as something is on its way on a connection and its notifier is not in the middle of a
task, one of its threads has a next call. -/
theorem connection_next (fresh : Fresh cfg c₀) (run : Run (Steps (step cfg curTerm)) c₀ tr c)
    (head : ∀ w, (c.leader.worker w).pc = .head) (between : (c.leader.notifier n).job? = none)
    (some : 0 < c.underWay n) : ∃ b t, Clears curTerm c n b t := by
  cases point : c.leader.notifier n with
  | vote ack nextIndex => exact vote_clears fresh run point
  | load ack nextIndex => exact load_clears head point
  | commit j stage => simp [point, Notifier.job?] at between
  | reply j => simp [point, Notifier.job?] at between
  | recv =>
    cases acks : c.toLeader n with
    | cons ack rest => exact ack_clears point acks
    | nil =>
      cases here : c.receiver n with
      | logging id arpc => exact logging_clears fresh run here
      | acking id arpc => exact acking_clears here
      | closed | recv id =>
        cases packets : c.toFollower n with
        | cons arpc rest => exact packet_clears (by rw [here]; rfl) packets
        | nil =>
          simp [underWay, packets, here, unwritten, unacked, acks, point, Notifier.ackLeft] at some

end Cluster

end Raft2pl.Server
