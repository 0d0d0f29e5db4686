/- Each follower's log for a worker is a prefix of the leader's, and covers what was acked. -/

import Raft2pl.Server.Cluster

set_option autoImplicit false
set_option relaxedAutoImplicit false

namespace Raft2pl.Server

open Lib (Run Steps exec exec_reaches)
open TwoPl (KvsConst)

section Histories

variable {N W : Nat}

namespace LeaderAct

def sent? (n : Conn N W) (a : LeaderAct N W (Conn N W)) : Option (AppendEntriesRpc N W) :=
  (a.toWorker n.2).bind (WorkerAct.packet? n.1)

def delivered? (n : Conn N W) (a : LeaderAct N W (Conn N W)) :
    Option (ResponseAppendEntries N W) :=
  (a.toNotifier n).bind NotifierAct.ack?

end LeaderAct

section Append

variable (tr : List (ClusterAct N W)) (b : ClusterAct N W) (n : Conn N W)

private theorem filterMap_append_one {α β : Type} (g : α → Option β) (l : List α) (a : α) :
    (l ++ [a]).filterMap g = l.filterMap g ++ (g a).toList := by
  cases out : g a <;> simp [out]

@[simp] theorem received_append : received n (tr ++ [b]) =
    received n tr ++ (b.received? n).toList := filterMap_append_one _ _ _

@[simp] theorem appended_append : appended n (tr ++ [b]) =
    appended n tr ++ (b.appended? n).toList := filterMap_append_one _ _ _

@[simp] theorem acked_append : acked n (tr ++ [b]) = acked n tr ++ (b.acked? n).toList :=
  filterMap_append_one _ _ _

private theorem sent_eq : sent n tr = tr.filterMap (fun b => b.leader?.bind (LeaderAct.sent? n)) := by
  simp only [sent, sentTo, ofWorker, ofLeader, List.filterMap_filterMap, Option.bind_assoc]
  rfl

private theorem delivered_eq :
    delivered n tr = tr.filterMap (fun b => b.leader?.bind (LeaderAct.delivered? n)) := by
  simp only [delivered, ofNotifier, ofLeader, List.filterMap_filterMap, Option.bind_assoc]
  rfl

@[simp] theorem sent_append : sent n (tr ++ [b]) =
    sent n tr ++ (b.leader?.bind (LeaderAct.sent? n)).toList := by
  rw [sent_eq, sent_eq, filterMap_append_one]

@[simp] theorem delivered_append : delivered n (tr ++ [b]) =
    delivered n tr ++ (b.leader?.bind (LeaderAct.delivered? n)).toList := by
  rw [delivered_eq, delivered_eq, filterMap_append_one]

end Append

end Histories

namespace Cluster

variable {N W : Nat} {cfg : Config N} {curTerm : Fin N → Int}
  {c₀ c c' : Cluster N W cfg.consts} {tr : List (ClusterAct N W)}

def unwritten : Receiver N W → List (Int × Int × Nat × List TransReq)
  | .logging _ arpc => [arpc.shared]
  | _ => []

def unacked : Receiver N W → List Int
  | .acking _ arpc => [arpc.lsn]
  | _ => []

def OwnLog (n : Conn N W) : Receiver N W → Prop
  | .closed => True
  | .recv logId => logId = n.2
  | .logging logId arpc => logId = n.2 ∧ arpc.workerId = n.2 ∧ arpc.rNodeId = n.1
  | .acking logId arpc => logId = n.2 ∧ arpc.workerId = n.2 ∧ arpc.rNodeId = n.1

/-- What is kept on the way of a batch from the leader's log to a follower's log and back. -/
structure Link (c₀ : Cluster N W cfg.consts) (n : Conn N W) (tr : List (ClusterAct N W))
    (c : Cluster N W cfg.consts) : Prop where
  packets : received n tr ++ c.toFollower n = sent n tr
  written : (appended n tr).map Entry.shared ++ unwritten (c.receiver n) =
    (received n tr).map AppendEntriesRpc.shared
  acks : (acked n tr).map (·.lsn) ++ unacked (c.receiver n) = (appended n tr).map (·.lsn)
  answers : ∀ a ∈ acked n tr, a.success = true ∧ a.workerId = n.2 ∧ a.rNodeId = n.1
  returned : delivered n tr ++ c.toLeader n = acked n tr
  ownLog : OwnLog n (c.receiver n)
  file : (c.disk n).file = (c₀.disk n).file ++ appended n tr

theorem transmit_spec {c₁ : Cluster N W cfg.consts} {a : LeaderAct N W (Conn N W)}
    (moved : c.transmit cfg a = some c₁) (n : Conn N W) :
    c₁.toFollower n = c.toFollower n ++ (a.sent? n).toList ∧
      (a.delivered? n).toList ++ c₁.toLeader n = c.toLeader n := by
  cases a with
  | acceptClient =>
    obtain rfl := Option.some.inj moved
    simp [LeaderAct.sent?, LeaderAct.delivered?, LeaderAct.toWorker, LeaderAct.toNotifier]
  | worker w b =>
    cases b with
    | sendRPC p =>
      obtain rfl := Option.some.inj moved
      refine ⟨?_, by simp [LeaderAct.delivered?, LeaderAct.toNotifier]⟩
      by_cases eq : (p.rNodeId, w) = n
      · subst eq
        simp [LeaderAct.sent?, LeaderAct.toWorker, WorkerAct.direct, WorkerAct.packet?]
      · have other : (LeaderAct.worker w (.sendRPC p)).sent? n = none := by
          by_cases same : w = n.2
          · have apart : p.rNodeId ≠ n.1 := fun h => eq (Prod.ext h same)
            simp [LeaderAct.sent?, LeaderAct.toWorker, WorkerAct.direct, WorkerAct.packet?, same,
              apart]
          · simp [LeaderAct.sent?, LeaderAct.toWorker, same]
        simp [other, Function.update_of_ne (Ne.symm eq)]
    | _ =>
      obtain rfl := Option.some.inj moved
      by_cases same : w = n.2 <;> simp [LeaderAct.sent?, LeaderAct.delivered?, LeaderAct.toWorker,
        LeaderAct.toNotifier, WorkerAct.direct, WorkerAct.packet?, same]
  | notifier m b =>
    cases b with
    | recv ack =>
      simp only [transmit, Option.ite_none_right_eq_some, Option.some.injEq] at moved
      obtain ⟨first, rfl⟩ := moved
      refine ⟨by simp [LeaderAct.sent?, LeaderAct.toWorker], ?_⟩
      by_cases eq : m = n
      · subst eq
        obtain ⟨rest, split⟩ : ∃ rest, c.toLeader m = ack :: rest := by
          cases list : c.toLeader m with
          | nil => simp [list] at first
          | cons x rest => exact ⟨rest, by simpa [list] using first⟩
        simp [LeaderAct.delivered?, LeaderAct.toNotifier, NotifierAct.ack?, split]
      · simp [LeaderAct.delivered?, LeaderAct.toNotifier, eq, Function.update_of_ne (Ne.symm eq)]
    | taskLoad v lsn t =>
      obtain rfl := Option.some.inj moved
      by_cases same : v = n.2 <;> by_cases eq : m = n <;> simp [LeaderAct.sent?,
        LeaderAct.delivered?, LeaderAct.toWorker, LeaderAct.toNotifier, NotifierAct.ack?,
        WorkerAct.packet?, same, eq]
    | setCommitIndex slot index =>
      obtain rfl := Option.some.inj moved
      by_cases same : slot.1.workerId = n.2 <;> by_cases eq : m = n <;> simp [LeaderAct.sent?,
        LeaderAct.delivered?, LeaderAct.toWorker, LeaderAct.toNotifier, NotifierAct.ack?,
        WorkerAct.packet?, same, eq]
    | _ =>
      obtain rfl := Option.some.inj moved
      by_cases eq : m = n <;> simp [LeaderAct.sent?, LeaderAct.delivered?, LeaderAct.toWorker,
        LeaderAct.toNotifier, NotifierAct.ack?, eq]

theorem sent_addressed (fresh : Fresh cfg c₀) (run : Run (Moves cfg curTerm) c₀ tr c)
    (n : Conn N W) : ∀ p ∈ sent n tr, p.workerId = n.2 ∧ p.rNodeId = n.1 ∧ n.1 ∈ cfg.followers :=
  (Worker.batches_run (fresh.leader.worker n.2)
    (Leader.worker_moves (leader_run run) n.2)).addressed n.1

private theorem link_leader {n : Conn N W} {a : LeaderAct N W (Conn N W)} (inv : Link c₀ n tr c)
    (moves : Moves cfg curTerm c (.leader a) c') : Link c₀ n (tr ++ [.leader a]) c' := by
  obtain ⟨-, receiver, disk, c₁, moved, toFollower, toLeader⟩ := moves_leader moves
  obtain ⟨packets, acks⟩ := transmit_spec moved n
  refine ⟨?_, ?_, ?_, ?_, ?_, ?_, ?_⟩
  · rw [toFollower, packets]
    simp [ClusterAct.received?, ClusterAct.leader?, ← inv.packets]
  · simpa [receiver, ClusterAct.received?, ClusterAct.appended?] using inv.written
  · simpa [receiver, ClusterAct.acked?, ClusterAct.appended?] using inv.acks
  · simpa [ClusterAct.acked?] using inv.answers
  · have rest := inv.returned
    rw [← acks] at rest
    simpa [toLeader, ClusterAct.acked?, ClusterAct.leader?] using rest
  · rw [receiver]
    exact inv.ownLog
  · simpa [disk, ClusterAct.appended?] using inv.file

private theorem link_other {n : Conn N W} {b : ClusterAct N W} (inv : Link c₀ n tr c)
    (leader : b.leader? = none) (received : b.received? n = none) (appended : b.appended? n = none)
    (acked : b.acked? n = none) (toFollower : c'.toFollower n = c.toFollower n)
    (receiver : c'.receiver n = c.receiver n) (disk : c'.disk n = c.disk n)
    (toLeader : c'.toLeader n = c.toLeader n) : Link c₀ n (tr ++ [b]) c' where
  packets := by simpa [leader, received, toFollower] using inv.packets
  written := by simpa [received, appended, receiver] using inv.written
  acks := by simpa [acked, appended, receiver] using inv.acks
  answers := by simpa [acked] using inv.answers
  returned := by simpa [leader, acked, toLeader] using inv.returned
  ownLog := by
    rw [receiver]
    exact inv.ownLog
  file := by simpa [appended, disk] using inv.file

private theorem link_recv {n m : Conn N W} {arpc : AppendEntriesRpc N W} (inv : Link c₀ n tr c)
    (sender : ∀ p ∈ sent n tr, p.workerId = n.2 ∧ p.rNodeId = n.1)
    (taken : step cfg curTerm c (.recv m arpc) = some c') :
    Link c₀ n (tr ++ [.recv m arpc]) c' := by
  obtain ⟨logId, opened, first, rfl⟩ := step_recv taken
  by_cases eq : m = n
  · subst eq
    obtain ⟨rest, split⟩ : ∃ rest, c.toFollower m = arpc :: rest := by
      cases list : c.toFollower m with
      | nil => simp [list] at first
      | cons x rest => exact ⟨rest, by simpa [list] using first⟩
    have packets := inv.packets
    rw [split] at packets
    have ids := sender arpc (by rw [← packets]; simp)
    have own := inv.ownLog
    have written := inv.written
    have acks := inv.acks
    have idle : unwritten (c.receiver m) = [] ∧ unacked (c.receiver m) = [] ∧ logId = m.2 := by
      rcases opened with ⟨here, rfl⟩ | here
      · exact ⟨by rw [here]; rfl, by rw [here]; rfl, ids.1⟩
      · rw [here] at own ⊢
        exact ⟨rfl, rfl, own⟩
    obtain ⟨noPacket, noAck, log⟩ := idle
    rw [noPacket, List.append_nil] at written
    rw [noAck, List.append_nil] at acks
    refine ⟨?_, ?_, ?_, ?_, ?_, ?_, ?_⟩
    · simpa [ClusterAct.received?, ClusterAct.leader?, split] using packets
    · simp [ClusterAct.received?, ClusterAct.appended?, unwritten, written]
    · simp [ClusterAct.acked?, ClusterAct.appended?, unacked, acks]
    · simpa [ClusterAct.acked?] using inv.answers
    · simpa [ClusterAct.acked?, ClusterAct.leader?] using inv.returned
    · simpa [OwnLog] using ⟨log, ids⟩
    · simpa [ClusterAct.appended?] using inv.file
  · exact link_other inv rfl (by simp [ClusterAct.received?, eq]) rfl rfl
      (Function.update_of_ne (Ne.symm eq) _ _) (Function.update_of_ne (Ne.symm eq) _ _) rfl rfl

private theorem link_loggingWork {n m : Conn N W} {logId : Fin W} {e : Entry} (inv : Link c₀ n tr c)
    (own : OwnLog m (c.receiver m))
    (taken : step cfg curTerm c (.loggingWork m logId e) = some c') :
    Link c₀ n (tr ++ [.loggingWork m logId e]) c' := by
  obtain ⟨arpc, here, -, content, rfl⟩ := step_loggingWork taken
  rw [here] at own
  obtain ⟨rfl, ids⟩ := own
  by_cases eq : m = n
  · subst eq
    have written := inv.written
    have acks := inv.acks
    have noAck : unacked (c.receiver m) = [] := by rw [here]; rfl
    rw [here, unwritten] at written
    rw [noAck, List.append_nil] at acks
    have shared : e.shared = arpc.shared := by rw [content, shared_followerEntry]
    have number : e.lsn = arpc.lsn := by rw [content]; rfl
    refine ⟨?_, ?_, ?_, ?_, ?_, ?_, ?_⟩
    · simpa [ClusterAct.received?, ClusterAct.leader?] using inv.packets
    · simpa [ClusterAct.received?, ClusterAct.appended?, unwritten, shared] using written
    · simp [ClusterAct.acked?, ClusterAct.appended?, unacked, acks, number]
    · simpa [ClusterAct.acked?] using inv.answers
    · simpa [ClusterAct.acked?, ClusterAct.leader?] using inv.returned
    · simpa [OwnLog] using ids
    · simp [ClusterAct.appended?, inv.file]
  · exact link_other inv rfl rfl (by simp [ClusterAct.appended?, eq]) rfl rfl
      (Function.update_of_ne (Ne.symm eq) _ _) (Function.update_of_ne (Ne.symm eq) _ _) rfl

private theorem link_sendAck {n m : Conn N W} {rae : ResponseAppendEntries N W} (inv : Link c₀ n tr c)
    (taken : step cfg curTerm c (.sendAck m rae) = some c') :
    Link c₀ n (tr ++ [.sendAck m rae]) c' := by
  obtain ⟨logId, arpc, here, content, rfl⟩ := step_sendAck taken
  by_cases eq : m = n
  · subst eq
    have written := inv.written
    have acks := inv.acks
    have own := inv.ownLog
    have noPacket : unwritten (c.receiver m) = [] := by rw [here]; rfl
    rw [noPacket, List.append_nil] at written
    rw [here, unacked] at acks
    rw [here] at own
    obtain ⟨log, worker, node⟩ := own
    refine ⟨?_, ?_, ?_, ?_, ?_, ?_, ?_⟩
    · simpa [ClusterAct.received?, ClusterAct.leader?] using inv.packets
    · simpa [ClusterAct.received?, ClusterAct.appended?, unwritten] using written
    · simpa [ClusterAct.acked?, ClusterAct.appended?, unacked, content, raeByFields] using acks
    · simpa [ClusterAct.acked?, content, raeByFields, or_imp, forall_and, worker, node] using
        inv.answers
    · simp [ClusterAct.acked?, ClusterAct.leader?, ← inv.returned]
    · simpa [OwnLog] using log
    · simpa [ClusterAct.appended?] using inv.file
  · exact link_other inv rfl rfl rfl (by simp [ClusterAct.acked?, eq]) rfl
      (Function.update_of_ne (Ne.symm eq) _ _) rfl (Function.update_of_ne (Ne.symm eq) _ _)

theorem link_run (fresh : Fresh cfg c₀) (run : Run (Moves cfg curTerm) c₀ tr c) :
    ∀ n, Link c₀ n tr c := by
  refine run.invariant (I := fun tr c => ∀ n, Link c₀ n tr c) ?_ ?_
  · intro n
    refine ⟨?_, ?_, ?_, ?_, ?_, ?_, ?_⟩ <;>
      simp [received, appended, acked, sent, sentTo, delivered, ofLeader, ofWorker, ofNotifier,
        fresh.toFollower, fresh.toLeader, fresh.receiver, unwritten, unacked, OwnLog]
  · intro tr c b c' before inv moves n
    cases b with
    | leader a => exact link_leader (inv n) moves
    | recv m arpc =>
      exact link_recv (inv n) (fun p member =>
        have ids := sent_addressed fresh before n p member
        ⟨ids.1, ids.2.1⟩) (moves_follower moves rfl).1
    | loggingWork m logId e =>
      exact link_loggingWork (inv n) (inv m).ownLog (moves_follower moves rfl).1
    | sendAck m rae => exact link_sendAck (inv n) (moves_follower moves rfl).1

theorem logged_extends_appended (fresh : Fresh cfg c₀) (run : Run (Moves cfg curTerm) c₀ tr c)
    (n : Conn N W) (follower : n.1 ≠ cfg.me) :
    (appended n tr).map Entry.shared <+: (leaderLogged n.2 tr).map Entry.shared := by
  have link := link_run fresh run n
  have batches := Worker.batches_run (fresh.leader.worker n.2)
    (Leader.worker_moves (leader_run run) n.2)
  calc (appended n tr).map Entry.shared
      <+: (received n tr).map AppendEntriesRpc.shared := ⟨_, link.written⟩
    _ <+: (sent n tr).map AppendEntriesRpc.shared :=
        ⟨_, by rw [← List.map_append, link.packets]⟩
    _ <+: (leaderLogged n.2 tr).map Entry.shared :=
        ⟨_, batches.sent n.1 (mem_followers.mpr follower)⟩

/-- Followers' logs are prefixes of the leader's, and acked batches are in them. -/
theorem leader_log_extends (fresh : Fresh cfg c₀)
    (equal : ∀ n : Conn N W, n.1 ≠ cfg.me → (c₀.disk n).file.map Entry.shared =
      (c₀.leader.worker n.2).log.file.map Entry.shared)
    (run : Run (Steps (step cfg curTerm)) c₀ tr c) (n : Conn N W) (follower : n.1 ≠ cfg.me) :
    (c.disk n).file.map Entry.shared <+: (c.leader.worker n.2).log.file.map Entry.shared ∧
      ∀ a ∈ acked n tr, a.workerId = n.2 ∧ ∃ e ∈ (c.disk n).file, e.lsn = a.lsn := by
  have moves := moves_run run
  have link := link_run fresh moves n
  have file := Worker.file_run (Leader.worker_moves (leader_run moves) n.2)
  constructor
  · rw [link.file, file, List.map_append, List.map_append, equal n follower]
    exact List.prefix_append_right_inj _ |>.mpr (logged_extends_appended fresh moves n follower)
  · intro a member
    refine ⟨(link.answers a member).2.1, ?_⟩
    have number : a.lsn ∈ (appended n tr).map (·.lsn) := by
      rw [← link.acks]
      exact List.mem_append_left _ (List.mem_map_of_mem member)
    obtain ⟨e, entry, same⟩ := List.mem_map.mp number
    exact ⟨e, by rw [link.file]; exact List.mem_append_right _ entry, same⟩

section Example

def threeConfig : Config 3 := ⟨0, 1, TwoPl.smallConsts⟩

def threeNodes : Cluster 3 1 threeConfig.consts :=
  start threeConfig (.new _ (fun _ => 100)) (fun _ => []) (fun _ => [])

theorem threeNodes_fresh : Fresh threeConfig threeNodes :=
  start_fresh threeConfig (fun _ => rfl) _ _

def packetTo (f : Fin 3) : AppendEntriesRpc 3 1 :=
  ⟨1, 0, -1, 0, 0, 0, [Worker.firstLocked], 1, 0, f⟩

def ackFrom (f : Fin 3) : ResponseAppendEntries 3 1 := ⟨1, true, 0, 0, f⟩

def shipTrace : List (ClusterAct 3 1) :=
  [.leader (.worker 0 (.xactEnqueue Worker.firstXact)), .leader (.worker 0 .xactDequeue),
    .leader (.worker 0 (.lockFrom true)), .leader (.worker 0 (.lockTo true)),
    .leader (.worker 0 .copyToBuffer), .leader (.worker 0 (.flushTest true)),
    .leader (.worker 0 (.loggingWork ⟨0, 1, 1, 0, [Worker.firstLocked]⟩)),
    .leader (.worker 0 (.sendRPC (packetTo 1))), .leader (.worker 0 (.sendRPC (packetTo 2)))]

def replicateTrace (f : Fin 3) : List (ClusterAct 3 1) :=
  [.recv (f, 0) (packetTo f), .loggingWork (f, 0) 0 ⟨0, 1, 1, 5, [Worker.firstLocked]⟩,
    .sendAck (f, 0) (ackFrom f)]

theorem leader_log_extends_shipped :
    ∃ c, Run (Steps (step threeConfig (fun _ => 1))) threeNodes (shipTrace ++ replicateTrace 1) c ∧
      (c.disk (1, 0)).file.map Entry.shared <+:
        (c.leader.worker 0).log.file.map Entry.shared ∧
      ∃ e ∈ (c.disk (1, 0)).file, e.lsn = 0 := by
  have done : (exec (step threeConfig (fun _ => 1)) threeNodes
      (shipTrace ++ replicateTrace 1)).map (fun c => decide ((c.disk (1, 0)).file.length = 1)) =
      some true := by decide
  obtain ⟨c, run, -⟩ := exec_reaches done
  have all := leader_log_extends threeNodes_fresh (fun _ _ => rfl) run (1, 0) (by decide)
  exact ⟨c, run, all.1, (all.2 (ackFrom 1) (by decide)).2⟩

end Example

end Cluster

end Raft2pl.Server
