/- The leader, the followers' logReceiver threads, and the FIFO connections between them. -/

import Raft2pl.Server.Threads

set_option autoImplicit false
set_option relaxedAutoImplicit false

namespace Raft2pl.Server

open Lib (Run Steps)
open TwoPl (KvsConst)

/-- A pair of connections: from the leader's worker to the follower, and back to the notifier that
serves the follower's `logReceiver` thread. -/
abbrev Conn (N W : Nat) := Fin N × Fin W

/-- The program points of `Raft::logReceiver`. The thread is created, and opens its log, when the
first packet arrives on the connection; `logId` is the number of that log. -/
inductive Receiver (N W : Nat)
  | closed
  | recv (logId : Fin W)
  | logging (logId : Fin W) (arpc : AppendEntriesRpc N W)
  | acking (logId : Fin W) (arpc : AppendEntriesRpc N W)

/-- The cluster: `disk (f, v)` is log `v` in the storage directory of follower `f`. -/
structure Cluster (N W : Nat) (P : KvsConst) where
  leader : Leader N W (Conn N W) P
  toFollower : Conn N W → List (AppendEntriesRpc N W)
  receiver : Conn N W → Receiver N W
  disk : Conn N W → Log
  toLeader : Conn N W → List (ResponseAppendEntries N W)

/-- The next call anywhere in the cluster. -/
inductive ClusterAct (N W : Nat)
  | leader (a : LeaderAct N W (Conn N W))
  | recv (n : Conn N W) (arpc : AppendEntriesRpc N W)
  | loggingWork (n : Conn N W) (logId : Fin W) (e : Entry)
  | sendAck (n : Conn N W) (rae : ResponseAppendEntries N W)
  deriving DecidableEq

namespace Cluster

section Step

variable {N W : Nat} (cfg : Config N) (curTerm : Fin N → Int)

/-- `raeByFields`, with the term that the follower's `Status` read. -/
def raeByFields (f : Fin N) (arpc : AppendEntriesRpc N W) : ResponseAppendEntries N W where
  term := curTerm f
  success := true
  lsn := arpc.lsn
  workerId := arpc.workerId
  rNodeId := arpc.rNodeId

def transmit (c : Cluster N W cfg.consts) : LeaderAct N W (Conn N W) →
    Option (Cluster N W cfg.consts)
  | .worker w (.sendRPC p) =>
      let n := (p.rNodeId, w)
      some { c with toFollower := Function.update c.toFollower n (c.toFollower n ++ [p]) }
  | .notifier n (.recv ack) =>
      if (c.toLeader n).head? = some ack then
        some { c with toLeader := Function.update c.toLeader n (c.toLeader n).tail }
      else none
  | _ => some c

def Receiver.logId (arpc : AppendEntriesRpc N W) : Receiver N W → Option (Fin W)
  | .closed => some arpc.workerId
  | .recv logId => some logId
  | _ => none

def step (c : Cluster N W cfg.consts) : ClusterAct N W → Option (Cluster N W cfg.consts)
  | .leader a => do
      let leader' ← Leader.step cfg c.leader a
      let c' ← c.transmit cfg a
      some { c' with leader := leader' }
  | .recv n arpc => do
      let logId ← Receiver.logId arpc (c.receiver n)
      if (c.toFollower n).head? = some arpc then
        some { c with
          toFollower := Function.update c.toFollower n (c.toFollower n).tail
          receiver := Function.update c.receiver n (.logging logId arpc) }
      else none
  | .loggingWork n logId e => match c.receiver n with
      | .logging id arpc =>
          if logId = id ∧ 0 ≤ arpc.lsn ∧ 0 < arpc.szLog ∧ e = followerEntry arpc e.time then
            some { c with
              disk := Function.update c.disk (n.1, id) ((c.disk (n.1, id)).addEntry e)
              receiver := Function.update c.receiver n (.acking id arpc) }
          else none
      | _ => none
  | .sendAck n rae => match c.receiver n with
      | .acking id arpc =>
          if rae = raeByFields curTerm n.1 arpc then
            some { c with
              toLeader := Function.update c.toLeader n (c.toLeader n ++ [rae])
              receiver := Function.update c.receiver n (.recv id) }
          else none
      | _ => none

/-- A cluster whose processes have just started, on whatever logs they found. -/
structure Fresh (c : Cluster N W cfg.consts) : Prop where
  leader : Leader.Fresh cfg c.leader
  toFollower : ∀ n, c.toFollower n = []
  receiver : ∀ n, c.receiver n = .closed
  toLeader : ∀ n, c.toLeader n = []

def start (kvs : TwoPl.KVS cfg.consts) (file : Fin W → List Entry)
    (files : Conn N W → List Entry) : Cluster N W cfg.consts where
  leader := .start cfg kvs file
  toFollower := fun _ => []
  receiver := fun _ => .closed
  disk := fun n => Log.ofFile (files n)
  toLeader := fun _ => []

theorem start_fresh {kvs : TwoPl.KVS cfg.consts} (free : ∀ k, kvs.mutex k = false)
    (file : Fin W → List Entry) (files : Conn N W → List Entry) :
    Fresh cfg (start cfg kvs file files) where
  leader := Leader.start_fresh cfg free file
  toFollower := fun _ => rfl
  receiver := fun _ => rfl
  toLeader := fun _ => rfl

end Step

end Cluster

namespace Cluster

section Inversion

variable {N W : Nat} {cfg : Config N} {curTerm : Fin N → Int} {c c' : Cluster N W cfg.consts}
  {n : Conn N W}

theorem transmit_frame {a : LeaderAct N W (Conn N W)} (moved : c.transmit cfg a = some c') :
    c'.receiver = c.receiver ∧ c'.disk = c.disk := by
  unfold transmit at moved
  split at moved
  · obtain rfl := Option.some.inj moved
    exact ⟨rfl, rfl⟩
  · simp only [Option.ite_none_right_eq_some, Option.some.injEq] at moved
    obtain ⟨-, rfl⟩ := moved
    exact ⟨rfl, rfl⟩
  · obtain rfl := Option.some.inj moved
    exact ⟨rfl, rfl⟩

theorem step_leader {a : LeaderAct N W (Conn N W)}
    (taken : step cfg curTerm c (.leader a) = some c') :
    Leader.step cfg c.leader a = some c'.leader ∧ c'.receiver = c.receiver ∧ c'.disk = c.disk ∧
      ∃ c₁, c.transmit cfg a = some c₁ ∧ c'.toFollower = c₁.toFollower ∧
        c'.toLeader = c₁.toLeader := by
  simp only [step, Option.bind_eq_bind, Option.bind_eq_some_iff, Option.some.injEq] at taken
  obtain ⟨leader', moved, c₁, moved', rfl⟩ := taken
  obtain ⟨receiver, disk⟩ := transmit_frame moved'
  exact ⟨moved, receiver, disk, c₁, moved', rfl, rfl⟩

theorem step_recv {arpc : AppendEntriesRpc N W}
    (taken : step cfg curTerm c (.recv n arpc) = some c') :
    ∃ logId, (c.receiver n = .closed ∧ logId = arpc.workerId ∨ c.receiver n = .recv logId) ∧
      (c.toFollower n).head? = some arpc ∧
      c' = { c with
        toFollower := Function.update c.toFollower n (c.toFollower n).tail
        receiver := Function.update c.receiver n (.logging logId arpc) } := by
  simp only [step, Option.bind_eq_bind, Option.bind_eq_some_iff, Option.ite_none_right_eq_some,
    Option.some.injEq] at taken
  obtain ⟨logId, opened, first, done⟩ := taken
  refine ⟨logId, ?_, first, done.symm⟩
  cases here : c.receiver n with
  | closed =>
    rw [here] at opened
    exact .inl ⟨rfl, (Option.some.inj opened).symm⟩
  | recv id =>
    rw [here] at opened
    exact .inr (by rw [Option.some.inj opened])
  | _ => simp [here, Receiver.logId] at opened

theorem step_loggingWork {logId : Fin W} {e : Entry}
    (taken : step cfg curTerm c (.loggingWork n logId e) = some c') :
    ∃ arpc, c.receiver n = .logging logId arpc ∧ 0 ≤ arpc.lsn ∧ e = followerEntry arpc e.time ∧
      c' = { c with
        disk := Function.update c.disk (n.1, logId) ((c.disk (n.1, logId)).addEntry e)
        receiver := Function.update c.receiver n (.acking logId arpc) } := by
  cases here : c.receiver n with
  | logging id arpc =>
    simp only [step, here, Option.ite_none_right_eq_some, Option.some.injEq] at taken
    obtain ⟨⟨rfl, nonneg, -, content⟩, done⟩ := taken
    exact ⟨arpc, rfl, nonneg, content, done.symm⟩
  | _ => simp [step, here] at taken

theorem step_sendAck {rae : ResponseAppendEntries N W}
    (taken : step cfg curTerm c (.sendAck n rae) = some c') :
    ∃ logId arpc, c.receiver n = .acking logId arpc ∧ rae = raeByFields curTerm n.1 arpc ∧
      c' = { c with
        toLeader := Function.update c.toLeader n (c.toLeader n ++ [rae])
        receiver := Function.update c.receiver n (.recv logId) } := by
  cases here : c.receiver n with
  | acking id arpc =>
    simp only [step, here, Option.ite_none_right_eq_some, Option.some.injEq] at taken
    obtain ⟨content, done⟩ := taken
    exact ⟨id, arpc, rfl, content, done.symm⟩
  | _ => simp [step, here] at taken

end Inversion

end Cluster

section Histories

variable {N W : Nat}

namespace ClusterAct

def leader? : ClusterAct N W → Option (LeaderAct N W (Conn N W))
  | .leader a => some a
  | _ => none

def received? (n : Conn N W) : ClusterAct N W → Option (AppendEntriesRpc N W)
  | .recv m arpc => if m = n then some arpc else none
  | _ => none

def appended? (n : Conn N W) : ClusterAct N W → Option Entry
  | .loggingWork m _ e => if m = n then some e else none
  | _ => none

def acked? (n : Conn N W) : ClusterAct N W → Option (ResponseAppendEntries N W)
  | .sendAck m rae => if m = n then some rae else none
  | _ => none

end ClusterAct

def ofLeader (tr : List (ClusterAct N W)) : List (LeaderAct N W (Conn N W)) :=
  tr.filterMap ClusterAct.leader?

def received (n : Conn N W) (tr : List (ClusterAct N W)) : List (AppendEntriesRpc N W) :=
  tr.filterMap (ClusterAct.received? n)

def appended (n : Conn N W) (tr : List (ClusterAct N W)) : List Entry :=
  tr.filterMap (ClusterAct.appended? n)

def acked (n : Conn N W) (tr : List (ClusterAct N W)) : List (ResponseAppendEntries N W) :=
  tr.filterMap (ClusterAct.acked? n)

def sent (n : Conn N W) (tr : List (ClusterAct N W)) : List (AppendEntriesRpc N W) :=
  sentTo n.1 (ofWorker n.2 (ofLeader tr))

def leaderLogged (w : Fin W) (tr : List (ClusterAct N W)) : List Entry :=
  logged (ofWorker w (ofLeader tr))

def delivered (n : Conn N W) (tr : List (ClusterAct N W)) : List (ResponseAppendEntries N W) :=
  (ofNotifier n (ofLeader tr)).filterMap NotifierAct.ack?

end Histories

namespace Cluster

variable {N W : Nat} {cfg : Config N} {curTerm : Fin N → Int}
  {c₀ c c' : Cluster N W cfg.consts} {tr : List (ClusterAct N W)}

/-- One call anywhere in the cluster, whatever the leader's store is and answers. -/
inductive Moves (cfg : Config N) (curTerm : Fin N → Int) (c : Cluster N W cfg.consts) :
    ClusterAct N W → Cluster N W cfg.consts → Prop
  | leader {a : LeaderAct N W (Conn N W)} {leader' : Leader N W (Conn N W) cfg.consts}
      {c₁ : Cluster N W cfg.consts} (moves : Leader.Moves cfg c.leader a leader')
      (sent : c.transmit cfg a = some c₁) : Moves cfg curTerm c (.leader a) { c₁ with leader := leader' }
  | follower {b : ClusterAct N W} {c' : Cluster N W cfg.consts} (elsewhere : b.leader? = none)
      (taken : step cfg curTerm c b = some c') : Moves cfg curTerm c b c'

theorem moves_step {b : ClusterAct N W} (taken : step cfg curTerm c b = some c') :
    Moves cfg curTerm c b c' := by
  cases b with
  | leader a =>
    simp only [step, Option.bind_eq_bind, Option.bind_eq_some_iff, Option.some.injEq] at taken
    obtain ⟨leader', moved, c₁, sent, rfl⟩ := taken
    exact .leader (Leader.moves_step moved) sent
  | _ => exact .follower rfl taken

theorem moves_run (run : Run (Steps (step cfg curTerm)) c₀ tr c) :
    Run (Moves cfg curTerm) c₀ tr c :=
  run.mono (fun _ _ _ taken => moves_step taken)

theorem moves_leader {a : LeaderAct N W (Conn N W)} (moves : Moves cfg curTerm c (.leader a) c') :
    Leader.Moves cfg c.leader a c'.leader ∧ c'.receiver = c.receiver ∧ c'.disk = c.disk ∧
      ∃ c₁, c.transmit cfg a = some c₁ ∧ c'.toFollower = c₁.toFollower ∧
        c'.toLeader = c₁.toLeader := by
  cases moves with
  | @leader _ leader' c₁ moves sent =>
    obtain ⟨receiver, disk⟩ := transmit_frame sent
    exact ⟨moves, receiver, disk, c₁, sent, rfl, rfl⟩
  | follower elsewhere => simp [ClusterAct.leader?] at elsewhere

theorem moves_follower {b : ClusterAct N W} (moves : Moves cfg curTerm c b c')
    (elsewhere : b.leader? = none) : step cfg curTerm c b = some c' ∧ c'.leader = c.leader := by
  cases moves with
  | leader => simp [ClusterAct.leader?] at elsewhere
  | follower _ taken =>
    refine ⟨taken, ?_⟩
    cases b with
    | leader a => simp [ClusterAct.leader?] at elsewhere
    | recv n arpc =>
      obtain ⟨logId, -, -, rfl⟩ := step_recv taken
      rfl
    | loggingWork n logId e =>
      obtain ⟨arpc, -, -, -, rfl⟩ := step_loggingWork taken
      rfl
    | sendAck n rae =>
      obtain ⟨logId, arpc, -, -, rfl⟩ := step_sendAck taken
      rfl

theorem leader_run (run : Run (Moves cfg curTerm) c₀ tr c) :
    Run (Leader.Moves cfg) c₀.leader (ofLeader tr) c.leader := by
  refine run.project (fun c => c.leader) ClusterAct.leader? ?_ ?_
  · intro c b c' moves elsewhere
    exact (moves_follower moves elsewhere).2
  · intro c b c' a moves label
    cases b with
    | leader a' =>
      obtain rfl : a' = a := by simpa [ClusterAct.leader?] using label
      exact (moves_leader moves).1
    | _ => simp [ClusterAct.leader?] at label

theorem leader_steps (run : Run (Steps (step cfg curTerm)) c₀ tr c) :
    Run (Steps (Leader.step cfg)) c₀.leader (ofLeader tr) c.leader := by
  refine run.project (fun c => c.leader) ClusterAct.leader? ?_ ?_
  · intro c b c' taken elsewhere
    exact (moves_follower (moves_step taken) elsewhere).2
  · intro c b c' a taken label
    cases b with
    | leader a' =>
      obtain rfl : a' = a := by simpa [ClusterAct.leader?] using label
      exact (step_leader taken).1
    | _ => simp [ClusterAct.leader?] at label

end Cluster

end Raft2pl.Server
