/- The cluster over several lifetimes of its processes: stops between calls, and restarts on the
log files that were left. -/

import Raft2pl.Server.Replication

set_option autoImplicit false
set_option relaxedAutoImplicit false

namespace Raft2pl.Server

open Lib (Run Steps exec exec_reaches)
open TwoPl (KvsConst KVS)

/-- `follower_info::sockfd`: -1 before the first packet, then a socket, whose connection may break. -/
inductive Sockfd
  | unopened
  | connected
  | broken
  deriving DecidableEq

/-- A `logReceiver` thread of a connection from an earlier leader process. It has a `Log` of its
own on the follower's file `logId`. -/
structure OldReceiver (N W : Nat) where
  node : Fin N
  toFollower : List (AppendEntriesRpc N W)
  receiver : Receiver N W

/-- A cluster whose processes stop and start. While `leaderUp` is false, only the log files of
`cluster.leader` are left of the leader. Files hold whole entries: a process stops between two of its
calls, and so not inside the `write` of an entry. -/
structure Deployment (N W : Nat) (P : KvsConst) where
  cluster : Cluster N W P
  leaderUp : Bool
  sockfd : Conn N W → Sockfd
  old : List (OldReceiver N W)

/-- The calls of a thread on a connection from an earlier leader process; `lose` drops what the
network does not deliver any more. -/
inductive OldAct (N W : Nat)
  | recv (arpc : AppendEntriesRpc N W)
  | loggingWork (logId : Fin W) (e : Entry)
  | sendAck
  | lose (kept : Nat)
  deriving DecidableEq

/-- The next call, or the end or the start of a process. A follower that has stopped is running
again before the next leader is, because `connect2raftnode` waits for it. -/
inductive DeployAct (N W : Nat)
  | call (b : ClusterAct N W)
  | startLeader
  | stopLeader
  | stopFollower (f : Fin N)
  | lose (n : Conn N W) (kept : Nat)
  | old (i : Nat) (b : OldAct N W)
  deriving DecidableEq

namespace OldReceiver

variable {N W : Nat}

def step (t : OldReceiver N W) : OldAct N W → Option (OldReceiver N W)
  | .recv arpc => do
      let logId ← Cluster.Receiver.logId arpc t.receiver
      if t.toFollower.head? = some arpc then
        some { t with toFollower := t.toFollower.tail, receiver := .logging logId arpc }
      else none
  | .loggingWork logId e => match t.receiver with
      | .logging id arpc =>
          if logId = id ∧ 0 ≤ arpc.lsn ∧ 0 < arpc.szLog ∧ e = followerEntry arpc e.time then
            some { t with receiver := .acking id arpc }
          else none
      | _ => none
  | .sendAck => match t.receiver with
      | .acking id _ => some { t with receiver := .recv id }
      | _ => none
  | .lose kept => some { t with toFollower := t.toFollower.take kept }

def append (t : OldReceiver N W) (disk : Conn N W → Log) : OldAct N W → Conn N W → Log
  | .loggingWork logId e =>
      let log := disk (t.node, logId)
      Function.update disk (t.node, logId) { log with file := log.file ++ [e] }
  | _ => disk

end OldReceiver

namespace Deployment

section Step

variable {N W : Nat} (cfg : Config N) (curTerm : Fin N → Int) (kvs : KVS cfg.consts)

def conns (cfg : Config N) : List (Conn N W) := cfg.followers ×ˢ List.finRange W

/-- The first packet for a follower opens the connection. -/
def dial (sockfd : Conn N W → Sockfd) : LeaderAct N W (Conn N W) → Conn N W → Sockfd
  | .worker w (.sendRPC p) =>
      if sockfd (p.rNodeId, w) = .unopened then
        Function.update sockfd (p.rNodeId, w) .connected
      else sockfd
  | _ => sockfd

/-- The leader on the files that an earlier process left, with a new store. -/
def restart (d : Deployment N W cfg.consts) : Deployment N W cfg.consts where
  cluster := .start cfg kvs (fun w => (d.cluster.leader.worker w).log.file)
    (fun n => (d.cluster.disk n).file)
  leaderUp := true
  sockfd := fun _ => .unopened
  old := d.old ++ (conns cfg).map (fun n =>
    ⟨n.1, d.cluster.toFollower n, d.cluster.receiver n⟩)

def deliver (d : Deployment N W cfg.consts) (c : Cluster N W cfg.consts) :
    Cluster N W cfg.consts :=
  { c with toFollower := fun n =>
      if d.sockfd n = .broken then d.cluster.toFollower n else c.toFollower n }

def reset (c : Cluster N W cfg.consts) (f : Fin N) : Cluster N W cfg.consts :=
  { c with
    toFollower := fun n => if n.1 = f then [] else c.toFollower n
    receiver := fun n => if n.1 = f then .closed else c.receiver n }

def cutOff (c : Cluster N W cfg.consts) (n : Conn N W) (kept : Nat) : Cluster N W cfg.consts :=
  { c with toFollower := Function.update c.toFollower n ((c.toFollower n).take kept) }

def step (d : Deployment N W cfg.consts) : DeployAct N W → Option (Deployment N W cfg.consts)
  | .call (.leader a) =>
      if d.leaderUp then do
        let c ← Cluster.step cfg curTerm d.cluster (.leader a)
        some { d with cluster := d.deliver cfg c, sockfd := dial d.sockfd a }
      else none
  | .call b => do
      let c ← Cluster.step cfg curTerm d.cluster b
      some { d with cluster := c }
  | .startLeader => if d.leaderUp then none else some (restart cfg kvs d)
  | .stopLeader => if d.leaderUp then some { d with leaderUp := false } else none
  | .stopFollower f =>
      if f = cfg.me then none
      else some { d with
        cluster := reset cfg d.cluster f
        sockfd := fun n => if n.1 = f ∧ d.sockfd n = .connected then .broken else d.sockfd n
        old := d.old.filter (fun t => decide (t.node ≠ f)) }
  | .lose n kept =>
      if d.leaderUp then none
      else some { d with cluster := cutOff cfg d.cluster n kept }
  | .old i b => do
      let t ← d.old[i]?
      let t' ← t.step b
      some { d with
        cluster := { d.cluster with disk := t.append d.cluster.disk b }
        old := d.old.set i t' }

/-- No process runs, and all nodes have the same log files. -/
def off (file : Fin W → List Entry) : Deployment N W cfg.consts where
  cluster := .start cfg kvs file (fun n => file n.2)
  leaderUp := false
  sockfd := fun _ => .unopened
  old := []

def inSync (d : Deployment N W cfg.consts) : DeployAct N W → Bool
  | .startLeader => decide (∀ f w, f ≠ cfg.me →
      (d.cluster.disk (f, w)).file.map Entry.shared =
        (d.cluster.leader.worker w).log.file.map Entry.shared)
  | _ => true

/-- The steps of the cluster in which the leader is started on such logs only. -/
def stepInSync (d : Deployment N W cfg.consts) (a : DeployAct N W) :
    Option (Deployment N W cfg.consts) :=
  if inSync cfg d a then step cfg curTerm kvs d a else none

def nodeLog (d : Deployment N W cfg.consts) (g : Fin N) (w : Fin W) : List Entry :=
  if g = cfg.me then (d.cluster.leader.worker w).log.file else (d.cluster.disk (g, w)).file

/-- Where two nodes have an entry of the same term at an index, their logs hold the same entries
up to it. -/
def LogMatching (d : Deployment N W cfg.consts) : Prop :=
  ∀ (w : Fin W) (i : Nat) (g h : Fin N) (e e' : Entry),
    (d.nodeLog cfg g w)[i]? = some e → (d.nodeLog cfg h w)[i]? = some e' → e.term = e'.term →
    ∀ j ≤ i, ((d.nodeLog cfg g w)[j]?).map Entry.shared = ((d.nodeLog cfg h w)[j]?).map Entry.shared

end Step

end Deployment

namespace Leader

variable {N W : Nat} {cfg : Config N} {s s' : Leader N W (Conn N W) cfg.consts}

private theorem unsent_next {a : LeaderAct N W (Conn N W)} (taken : step cfg s a = some s')
    (n : Conn N W)
    (targets : (s.worker n.2).Targets cfg) (follower : n.1 ∈ cfg.followers) :
    (a.sent? n).toList.map AppendEntriesRpc.shared ++ (s'.worker n.2).unsent cfg n.1 =
      (s.worker n.2).unsent cfg n.1 ++ (a.entryAt n.2).toList.map Entry.shared := by
  obtain ⟨frame, moved⟩ := worker_step taken n.2
  rw [← toWorker_entry, LeaderAct.sent?]
  cases mine : a.toWorker n.2 with
  | none => simp [frame mine]
  | some b =>
    have sends := Worker.unsent_step targets (moved b mine) follower
    rw [sentTo_one, logged_one] at sends
    exact sends

private theorem targets_next {a : LeaderAct N W (Conn N W)} (taken : step cfg s a = some s')
    (w : Fin W)
    (targets : (s.worker w).Targets cfg) : (s'.worker w).Targets cfg := by
  obtain ⟨frame, moved⟩ := worker_step taken w
  cases mine : a.toWorker w with
  | none =>
    rw [frame mine]
    exact targets
  | some b => exact Worker.targets_step targets (moved b mine)

private theorem sent_names {a : LeaderAct N W (Conn N W)} (taken : step cfg s a = some s')
    (n : Conn N W)
    (targets : (s.worker n.2).Targets cfg) :
    ∀ p ∈ (a.sent? n).toList, p.workerId = n.2 ∧ p.rNodeId = n.1 := by
  intro p member
  obtain ⟨b, mine, packet⟩ := Option.bind_eq_some_iff.mp (Option.mem_toList.mp member)
  have sent : p ∈ sentTo n.1 [b] := by simpa using packet
  have addressed := Worker.packet_addressed targets ((worker_step taken n.2).2 b mine) sent
  exact ⟨addressed.1, addressed.2.1⟩

private theorem file_next {a : LeaderAct N W (Conn N W)} (taken : step cfg s a = some s')
    (w : Fin W) :
    (s'.worker w).log.file = (s.worker w).log.file ++ (a.entryAt w).toList := by
  rw [log_step taken w]
  cases a.entryAt w <;> simp

end Leader

namespace Cluster

variable {N W : Nat} {cfg : Config N} {curTerm : Fin N → Int} {c c' : Cluster N W cfg.consts}

def source (c : Cluster N W cfg.consts) (w : Fin W) : List (Int × Int × Nat × List TransReq) :=
  (c.leader.worker w).log.file.map Entry.shared

def arriving (c : Cluster N W cfg.consts) (n : Conn N W) :
    List (Int × Int × Nat × List TransReq) :=
  (c.disk n).file.map Entry.shared ++ unwritten (c.receiver n) ++
    (c.toFollower n).map AppendEntriesRpc.shared

/-- The packets of a connection belong to its worker and its follower, and so does the log that
they are written to. -/
structure Private (c : Cluster N W cfg.consts) (n : Conn N W) : Prop where
  ownLog : OwnLog n (c.receiver n)
  addressed : ∀ p ∈ c.toFollower n, p.workerId = n.2 ∧ p.rNodeId = n.1

private theorem leader_frame {b : ClusterAct N W} (taken : step cfg curTerm c b = some c')
    (theirs : b.leader? = none) : c'.leader = c.leader := by
  cases b with
  | leader a => cases theirs
  | recv m arpc =>
    obtain ⟨logId, -, -, rfl⟩ := step_recv taken
    rfl
  | loggingWork m logId e =>
    obtain ⟨arpc, -, -, -, rfl⟩ := step_loggingWork taken
    rfl
  | sendAck m rae =>
    obtain ⟨logId, arpc, -, -, rfl⟩ := step_sendAck taken
    rfl

private theorem arriving_follower {b : ClusterAct N W}
    (own : ∀ n : Conn N W, n.1 ≠ cfg.me → c.Private n)
    (taken : step cfg curTerm c b = some c') (theirs : b.leader? = none) {n : Conn N W}
    (follower : n.1 ≠ cfg.me) :
    c'.arriving n = c.arriving n ∧ c'.Private n ∧
      (c.toFollower n = [] ∧ c.receiver n = .closed →
        c'.toFollower n = [] ∧ c'.receiver n = .closed) := by
  cases b with
  | leader a => cases theirs
  | recv m arpc =>
    obtain ⟨logId, opened, first, rfl⟩ := step_recv taken
    by_cases eq : m = n
    · subst eq
      obtain ⟨ownLog, addressed⟩ := own m follower
      obtain ⟨rest, split⟩ : ∃ rest, c.toFollower m = arpc :: rest := by
        cases list : c.toFollower m with
        | nil => simp [list] at first
        | cons x rest => exact ⟨rest, by simpa [list] using first⟩
      have ids := addressed arpc (by simp [split])
      have idle : unwritten (c.receiver m) = [] ∧ logId = m.2 := by
        rcases opened with ⟨here, rfl⟩ | here
        · exact ⟨by rw [here]; rfl, ids.1⟩
        · rw [here] at ownLog ⊢
          exact ⟨rfl, ownLog⟩
      refine ⟨?_, ⟨?_, ?_⟩, ?_⟩
      · have taken' : unwritten (.logging logId arpc) = [arpc.shared] := rfl
        simp [arriving, idle.1, split, taken']
      · simpa [OwnLog] using ⟨idle.2, ids⟩
      · intro p member
        have later : p ∈ (c.toFollower m).tail := by simpa using member
        exact addressed p (List.mem_of_mem_tail later)
      · rintro ⟨empty, -⟩
        simp [split] at empty
    · have apart := Ne.symm eq
      obtain ⟨ownLog, addressed⟩ := own n follower
      exact ⟨by simp [arriving, apart], ⟨by simpa [apart] using ownLog,
        by simpa [apart] using addressed⟩, by simp [apart]⟩
  | loggingWork m logId e =>
    obtain ⟨arpc, here, -, content, rfl⟩ := step_loggingWork taken
    by_cases eq : m = n
    · subst eq
      obtain ⟨ownLog, addressed⟩ := own m follower
      rw [here] at ownLog
      obtain ⟨rfl, ids⟩ := ownLog
      have shared : e.shared = arpc.shared := by rw [content, shared_followerEntry]
      refine ⟨?_, ⟨?_, addressed⟩, ?_⟩
      · simp [arriving, here, unwritten, shared]
      · simpa [OwnLog] using ids
      · rintro ⟨-, closed⟩
        simp [here] at closed
    · have apart := Ne.symm eq
      obtain ⟨ownLog, addressed⟩ := own n follower
      have elsewhere : n ≠ (m.1, logId) := by
        intro same
        by_cases mine : m.1 = cfg.me
        · exact follower (by rw [same]; exact mine)
        · have theirLog := (own m mine).ownLog
          rw [here] at theirLog
          exact apart (by rw [same, theirLog.1])
      exact ⟨by simp [arriving, apart, elsewhere], ⟨by simpa [apart] using ownLog, addressed⟩,
        by simp [apart]⟩
  | sendAck m rae =>
    obtain ⟨logId, arpc, here, -, rfl⟩ := step_sendAck taken
    by_cases eq : m = n
    · subst eq
      obtain ⟨ownLog, addressed⟩ := own m follower
      rw [here] at ownLog
      refine ⟨?_, ⟨?_, addressed⟩, ?_⟩
      · simp [arriving, here, unwritten]
      · simpa [OwnLog] using ownLog.1
      · rintro ⟨-, closed⟩
        simp [here] at closed
    · have apart := Ne.symm eq
      obtain ⟨ownLog, addressed⟩ := own n follower
      exact ⟨by simp [arriving, apart], ⟨by simpa [apart] using ownLog, addressed⟩,
        by simp [apart]⟩

private theorem arriving_leader {a : LeaderAct N W (Conn N W)}
    (taken : step cfg curTerm c (.leader a) = some c')
    (n : Conn N W) :
    c'.toFollower n = c.toFollower n ++ (a.sent? n).toList ∧ c'.receiver n = c.receiver n ∧
      c'.disk n = c.disk n ∧
      c'.source n.2 = c.source n.2 ++ (a.entryAt n.2).toList.map Entry.shared := by
  obtain ⟨moved, receiver, disk, c₁, transmitted, toFollower, -⟩ := step_leader taken
  refine ⟨?_, by rw [receiver], by rw [disk], ?_⟩
  · rw [toFollower]
    exact (transmit_spec transmitted n).1
  · simp only [source, Leader.file_next moved n.2, List.map_append]

end Cluster

namespace Deployment

variable {N W : Nat} {cfg : Config N} {curTerm : Fin N → Int} {kvs : KVS cfg.consts}
  {d d' : Deployment N W cfg.consts} {tr : List (DeployAct N W)}

structure Level (cfg : Config N) (d : Deployment N W cfg.consts) (n : Conn N W) : Prop where
  own : d.cluster.Private n
  behind : d.cluster.arriving n <+: d.cluster.source n.2
  level : d.leaderUp = true → d.sockfd n ≠ .broken →
    d.cluster.arriving n ++ (d.cluster.leader.worker n.2).unsent cfg n.1 = d.cluster.source n.2
  quiet : d.sockfd n = .unopened → d.cluster.toFollower n = [] ∧ d.cluster.receiver n = .closed

def Spent (t : OldReceiver N W) : Prop := t.toFollower = [] ∧ Cluster.unwritten t.receiver = []

/-- What is kept over all lifetimes, if the leader is started on equal logs. -/
structure Synced (cfg : Config N) (d : Deployment N W cfg.consts) : Prop where
  levels : ∀ n : Conn N W, n.1 ≠ cfg.me → d.Level cfg n
  targets : d.leaderUp = true → ∀ w, (d.cluster.leader.worker w).Targets cfg
  spent : ∀ t ∈ d.old, Spent t

private theorem synced_off (file : Fin W → List Entry) : (off cfg kvs file).Synced cfg where
  levels := fun n _ => {
    own := ⟨trivial, by simp [off, Cluster.start]⟩
    behind := by simp [off, Cluster.start, Cluster.arriving, Cluster.source, Cluster.unwritten,
      Leader.start, Worker.start]
    level := by simp [off]
    quiet := fun _ => ⟨rfl, rfl⟩ }
  targets := by simp [off]
  spent := by simp [off]

theorem dial_spec (sockfd : Conn N W → Sockfd) (a : LeaderAct N W (Conn N W)) (n : Conn N W) :
    (dial sockfd a n = .broken ↔ sockfd n = .broken) ∧
      (dial sockfd a n = .unopened → sockfd n = .unopened ∧ a.sent? n = none) := by
  cases a with
  | worker w b =>
    cases b with
    | sendRPC p =>
      by_cases eq : (p.rNodeId, w) = n
      · subst eq
        by_cases fresh : sockfd (p.rNodeId, w) = .unopened <;> simp [dial, fresh]
      · have silent : (LeaderAct.worker w (.sendRPC p)).sent? n = none := by
          by_cases same : w = n.2
          · have apart : p.rNodeId ≠ n.1 := fun h => eq (Prod.ext h same)
            simp [LeaderAct.sent?, LeaderAct.toWorker, WorkerAct.packet?, apart, same]
          · simp [LeaderAct.sent?, LeaderAct.toWorker, same]
        by_cases fresh : sockfd (p.rNodeId, w) = .unopened <;>
          simp [dial, fresh, Ne.symm eq, silent]
    | _ =>
      by_cases same : w = n.2 <;>
        simp [dial, LeaderAct.sent?, LeaderAct.toWorker, WorkerAct.packet?, WorkerAct.direct, same]
  | notifier m b =>
    cases b with
    | taskLoad v =>
      by_cases same : v = n.2 <;>
        simp [dial, LeaderAct.sent?, LeaderAct.toWorker, WorkerAct.packet?, same]
    | setCommitIndex slot =>
      by_cases same : slot.1.workerId = n.2 <;>
        simp [dial, LeaderAct.sent?, LeaderAct.toWorker, WorkerAct.packet?, same]
    | _ => simp [dial, LeaderAct.sent?, LeaderAct.toWorker]
  | acceptClient => simp [dial, LeaderAct.sent?, LeaderAct.toWorker]

private theorem level_leader {a : LeaderAct N W (Conn N W)} {c : Cluster N W cfg.consts}
    {n : Conn N W}
    (before : d.Level cfg n) (up : d.leaderUp = true)
    (targets : (d.cluster.leader.worker n.2).Targets cfg) (follower : n.1 ≠ cfg.me)
    (taken : Cluster.step cfg curTerm d.cluster (.leader a) = some c) :
    Level cfg { d with cluster := d.deliver cfg c, sockfd := dial d.sockfd a } n := by
  obtain ⟨toFollower, receiver, disk, source⟩ := Cluster.arriving_leader taken n
  have moved := (Cluster.step_leader taken).1
  have batches := Leader.unsent_next moved n targets (mem_followers.mpr follower)
  obtain ⟨broken, unopened⟩ := dial_spec d.sockfd a n
  have source' : (d.deliver cfg c).source n.2 = c.source n.2 := rfl
  by_cases cut : d.sockfd n = .broken
  · have lost : (d.deliver cfg c).toFollower n = d.cluster.toFollower n := by simp [deliver, cut]
    have same : (d.deliver cfg c).arriving n = d.cluster.arriving n := by
      simp only [Cluster.arriving, lost]
      simp only [deliver, disk, receiver]
    refine ⟨⟨?_, ?_⟩, ?_, ?_, ?_⟩
    · simpa [deliver, receiver] using before.own.ownLog
    · simpa only [lost] using before.own.addressed
    · rw [same, source', source]
      exact before.behind.trans (List.prefix_append _ _)
    · exact fun _ whole => absurd (broken.mpr cut) whole
    · intro fresh
      rw [(unopened fresh).1] at cut
      cases cut
  · have sent : (d.deliver cfg c).toFollower n = d.cluster.toFollower n ++ (a.sent? n).toList := by
      simp [deliver, cut, toFollower]
    have grown : (d.deliver cfg c).arriving n =
        d.cluster.arriving n ++ (a.sent? n).toList.map AppendEntriesRpc.shared := by
      simp only [Cluster.arriving, sent, List.map_append]
      simp only [deliver, disk, receiver, List.append_assoc]
    have level : (d.deliver cfg c).arriving n ++ (c.leader.worker n.2).unsent cfg n.1 =
        c.source n.2 := by
      rw [grown, List.append_assoc, batches, ← List.append_assoc, before.level up cut, source]
    refine ⟨⟨?_, ?_⟩, ⟨_, level⟩, fun _ _ => level, ?_⟩
    · simpa [deliver, receiver] using before.own.ownLog
    · intro p member
      rw [sent] at member
      rcases List.mem_append.mp member with old | new
      · exact before.own.addressed p old
      · exact Leader.sent_names moved n targets p new
    · intro fresh
      obtain ⟨was, silent⟩ := unopened fresh
      obtain ⟨empty, closed⟩ := before.quiet was
      rw [sent, empty, silent]
      exact ⟨rfl, by simpa [deliver, receiver] using closed⟩

private theorem level_follower {b : ClusterAct N W} {c : Cluster N W cfg.consts} {n : Conn N W}
    (before : ∀ n : Conn N W, n.1 ≠ cfg.me → d.Level cfg n) (theirs : b.leader? = none)
    (follower : n.1 ≠ cfg.me) (taken : Cluster.step cfg curTerm d.cluster b = some c) :
    Level cfg { d with cluster := c } n := by
  obtain ⟨arriving, own, quiet⟩ := Cluster.arriving_follower
    (fun m theirs => (before m theirs).own) taken theirs follower
  have leader := Cluster.leader_frame taken theirs
  have source : c.source n.2 = d.cluster.source n.2 := by simp only [Cluster.source, leader]
  refine ⟨own, ?_, ?_, fun fresh => quiet ((before n follower).quiet fresh)⟩
  · simpa only [arriving, source] using (before n follower).behind
  · simpa only [arriving, source, leader] using (before n follower).level

private theorem level_frame {n : Conn N W} (before : d.Level cfg n)
    (leader : d'.cluster.leader = d.cluster.leader)
    (toFollower : d'.cluster.toFollower n = d.cluster.toFollower n)
    (receiver : d'.cluster.receiver n = d.cluster.receiver n)
    (disk : d'.cluster.disk n = d.cluster.disk n)
    (up : d'.leaderUp = true → d.leaderUp = true) (sockfd : d'.sockfd n = d.sockfd n) :
    d'.Level cfg n := by
  have arriving : d'.cluster.arriving n = d.cluster.arriving n := by
    simp only [Cluster.arriving, toFollower, receiver, disk]
  have source : d'.cluster.source n.2 = d.cluster.source n.2 := by
    simp only [Cluster.source, leader]
  refine ⟨⟨?_, ?_⟩, ?_, ?_, ?_⟩
  · rw [receiver]
    exact before.own.ownLog
  · rw [toFollower]
    exact before.own.addressed
  · rw [arriving, source]
    exact before.behind
  · intro running whole
    rw [arriving, source, leader]
    exact before.level (up running) (by rwa [sockfd] at whole)
  · rw [sockfd, toFollower, receiver]
    exact before.quiet

private theorem level_lose {n : Conn N W} (m : Conn N W) (kept : Nat) (before : d.Level cfg n)
    (down : d.leaderUp = false) :
    Level cfg { d with cluster := cutOff cfg d.cluster m kept } n := by
  by_cases eq : n = m
  · subst eq
    have left : (cutOff cfg d.cluster n kept).toFollower n =
        (d.cluster.toFollower n).take kept := Function.update_self _ _ _
    refine ⟨⟨before.own.ownLog, ?_⟩, ?_, by simp [down], ?_⟩
    · intro p member
      rw [left] at member
      exact before.own.addressed p (List.mem_of_mem_take member)
    · refine List.IsPrefix.trans ?_ before.behind
      simp only [Cluster.arriving, left, List.map_take]
      exact (List.prefix_append_right_inj _).mpr (List.take_prefix _ _)
    · intro fresh
      obtain ⟨empty, closed⟩ := before.quiet fresh
      exact ⟨by rw [left, empty, List.take_nil], closed⟩
  · exact level_frame before rfl (Function.update_of_ne eq _ _) rfl rfl id rfl

private theorem level_stopFollower {n : Conn N W} (f : Fin N) (old : List (OldReceiver N W))
    (before : d.Level cfg n) :
    Level cfg ⟨reset cfg d.cluster f, d.leaderUp,
      fun n => if n.1 = f ∧ d.sockfd n = .connected then .broken else d.sockfd n, old⟩ n := by
  by_cases eq : n.1 = f
  · have none : (reset cfg d.cluster f).toFollower n = [] ∧
        (reset cfg d.cluster f).receiver n = .closed := by simp [reset, eq]
    have left : (reset cfg d.cluster f).arriving n = (d.cluster.disk n).file.map Entry.shared := by
      simp only [Cluster.arriving, none.1, none.2]
      simp [reset, Cluster.unwritten]
    refine ⟨⟨?_, ?_⟩, ?_, ?_, fun _ => none⟩
    · simp only [none.2]
      trivial
    · simp [none.1]
    · refine List.IsPrefix.trans ?_ before.behind
      rw [left, Cluster.arriving, List.append_assoc]
      exact List.prefix_append _ _
    · intro up whole
      have fresh : d.sockfd n = .unopened := by
        cases was : d.sockfd n <;> simp [eq, was] at whole ⊢
      obtain ⟨empty, closed⟩ := before.quiet fresh
      have level := before.level up (by simp [fresh])
      have same : d.cluster.arriving n = (d.cluster.disk n).file.map Entry.shared := by
        simp [Cluster.arriving, empty, closed, Cluster.unwritten]
      rw [same, ← left] at level
      exact level
  · exact level_frame before rfl (by simp [reset, eq]) (by simp [reset, eq]) rfl id (by simp [eq])

private theorem level_restart {n : Conn N W} (equal : (d.cluster.disk n).file.map Entry.shared =
      (d.cluster.leader.worker n.2).log.file.map Entry.shared) :
    (restart cfg kvs d).Level cfg n := by
  have same : (restart cfg kvs d).cluster.arriving n = (restart cfg kvs d).cluster.source n.2 := by
    simpa [restart, Cluster.start, Cluster.arriving, Cluster.source, Cluster.unwritten,
      Leader.start, Worker.start] using equal
  refine ⟨⟨trivial, ?_⟩, ?_, ?_, fun _ => ⟨rfl, rfl⟩⟩
  · simp [restart, Cluster.start]
  · rw [same]
  · intro _ _
    rw [same]
    simp [restart, Cluster.start, Leader.start, Worker.start, Worker.unsent]

private theorem spent_of_equal {n : Conn N W} (before : d.Level cfg n)
    (equal : (d.cluster.disk n).file.map Entry.shared = d.cluster.source n.2) :
    Spent ⟨n.1, d.cluster.toFollower n, d.cluster.receiver n⟩ := by
  have bound := before.behind.length_le
  rw [← equal, Cluster.arriving, List.length_append, List.length_append] at bound
  have packets : (d.cluster.toFollower n).map AppendEntriesRpc.shared = [] :=
    List.eq_nil_of_length_eq_zero (by omega)
  have idle : Cluster.unwritten (d.cluster.receiver n) = [] :=
    List.eq_nil_of_length_eq_zero (by omega)
  exact ⟨List.map_eq_nil_iff.mp packets, idle⟩

private theorem spent_step {t t' : OldReceiver N W} {b : OldAct N W} (spent : Spent t)
    (taken : t.step b = some t') : Spent t' ∧ ∀ disk, t.append disk b = disk := by
  obtain ⟨empty, idle⟩ := spent
  cases b with
  | recv arpc =>
    simp only [OldReceiver.step, Option.bind_eq_bind, Option.bind_eq_some_iff, empty,
      Option.ite_none_right_eq_some] at taken
    obtain ⟨logId, -, first, -⟩ := taken
    cases first
  | loggingWork logId e =>
    cases here : t.receiver with
    | logging id arpc => simp [here, Cluster.unwritten] at idle
    | _ => simp [OldReceiver.step, here] at taken
  | sendAck =>
    refine ⟨?_, fun _ => rfl⟩
    cases here : t.receiver with
    | acking id arpc =>
      simp only [OldReceiver.step, here, Option.some.injEq] at taken
      subst taken
      exact ⟨empty, rfl⟩
    | _ => simp [OldReceiver.step, here] at taken
  | lose kept =>
    simp only [OldReceiver.step, Option.some.injEq] at taken
    subst taken
    exact ⟨⟨by simp [empty], idle⟩, fun _ => rfl⟩

private theorem synced_next {a : DeployAct N W} (before : d.Synced cfg)
    (taken : stepInSync cfg curTerm kvs d a = some d') : d'.Synced cfg := by
  obtain ⟨fits, moved⟩ := Option.ite_none_right_eq_some.mp taken
  cases a with
  | call b =>
    cases b with
    | leader a =>
      simp only [step, Option.ite_none_right_eq_some, Option.bind_eq_bind,
        Option.bind_eq_some_iff, Option.some.injEq] at moved
      obtain ⟨up, c, called, rfl⟩ := moved
      refine ⟨fun n follower => ?_, fun _ w => ?_, before.spent⟩
      · exact level_leader (before.levels n follower) up (before.targets up n.2) follower called
      · exact Leader.targets_next (Cluster.step_leader called).1 w (before.targets up w)
    | _ =>
      simp only [step, Option.bind_eq_bind, Option.bind_eq_some_iff, Option.some.injEq] at moved
      obtain ⟨c, called, rfl⟩ := moved
      refine ⟨fun n follower => level_follower before.levels rfl follower called, ?_, before.spent⟩
      rw [Cluster.leader_frame called rfl]
      exact before.targets
  | startLeader =>
    simp only [step, Option.ite_none_left_eq_some, Option.some.injEq] at moved
    obtain ⟨-, rfl⟩ := moved
    have equal : ∀ n : Conn N W, n.1 ≠ cfg.me → (d.cluster.disk n).file.map Entry.shared =
        (d.cluster.leader.worker n.2).log.file.map Entry.shared := by
      simp only [inSync, decide_eq_true_eq] at fits
      exact fun n follower => fits n.1 n.2 follower
    refine ⟨fun n follower => level_restart (equal n follower), fun _ w => ?_, ?_⟩
    · simp [restart, Cluster.start, Leader.start, Worker.start, Worker.Targets]
    · intro t member
      rcases List.mem_append.mp member with older | new
      · exact before.spent t older
      · obtain ⟨n, conn, rfl⟩ := List.mem_map.mp new
        have follower : n.1 ≠ cfg.me :=
          mem_followers.mp (List.mem_product.mp conn).1
        exact spent_of_equal (before.levels n follower) (equal n follower)
  | stopLeader =>
    simp only [step, Option.ite_none_right_eq_some, Option.some.injEq] at moved
    obtain ⟨-, rfl⟩ := moved
    refine ⟨fun n follower => ?_, by simp, before.spent⟩
    exact level_frame (before.levels n follower) rfl rfl rfl rfl (by simp) rfl
  | stopFollower f =>
    simp only [step, Option.ite_none_left_eq_some, Option.some.injEq] at moved
    obtain ⟨-, rfl⟩ := moved
    refine ⟨fun n follower => level_stopFollower f _ (before.levels n follower),
      before.targets, fun t member => before.spent t (List.mem_of_mem_filter member)⟩
  | lose m kept =>
    simp only [step, Option.ite_none_left_eq_some, Option.some.injEq] at moved
    obtain ⟨down, rfl⟩ := moved
    exact ⟨fun n follower => level_lose m kept (before.levels n follower) (by simpa using down),
      before.targets, before.spent⟩
  | old i b =>
    simp only [step, Option.bind_eq_bind, Option.bind_eq_some_iff, Option.some.injEq] at moved
    obtain ⟨t, here, t', took, rfl⟩ := moved
    obtain ⟨spent, same⟩ := spent_step (before.spent t (List.mem_of_getElem? here)) took
    refine ⟨fun n follower => ?_, before.targets, ?_⟩
    · exact level_frame (before.levels n follower) rfl rfl rfl (by simp [same]) id rfl
    · intro u member
      rcases List.mem_or_eq_of_mem_set member with older | rfl
      · exact before.spent u older
      · exact spent

/-- Where the leader is only started on logs that its followers have as well, all logs agree. -/
theorem logs_match (file : Fin W → List Entry)
    (run : Run (Steps (stepInSync cfg curTerm kvs)) (off cfg kvs file) tr d) :
    d.LogMatching cfg := by
  have synced : d.Synced cfg := run.invariant (I := fun _ d => d.Synced cfg) (synced_off file)
    (fun _ _ _ _ _ before taken => synced_next before taken)
  have part : ∀ g w, (d.nodeLog cfg g w).map Entry.shared <+: d.cluster.source w := by
    intro g w
    unfold nodeLog
    by_cases mine : g = cfg.me
    · rw [if_pos mine]
      exact List.prefix_refl _
    · rw [if_neg mine]
      refine List.IsPrefix.trans ?_ (synced.levels (g, w) mine).behind
      rw [Cluster.arriving, List.append_assoc]
      exact List.prefix_append _ _
  intro w i g h e e' here here' _ j low
  have entry : ∀ g e, (d.nodeLog cfg g w)[i]? = some e →
      ((d.nodeLog cfg g w)[j]?).map Entry.shared = (d.cluster.source w)[j]? := by
    intro g e here
    have short : i < (d.nodeLog cfg g w).length := (List.getElem?_eq_some_iff.mp here).1
    rw [← List.getElem?_map, List.prefix_iff_getElem?.mp (part g w) j (by rw [List.length_map]; omega)]
    exact List.getElem?_eq_getElem _
  rw [entry g e here, entry h e' here']

section Example

open Cluster (threeConfig shipTrace replicateTrace)

def neverStarted : Deployment 3 1 threeConfig.consts :=
  off threeConfig (.new _ (fun _ => 100)) (fun _ => [])

abbrev threeStep := step (W := 1) threeConfig (fun _ => 1) (.new _ (fun _ => 100))

def evenTrace : List (DeployAct 3 1) :=
  [.startLeader] ++ (shipTrace ++ replicateTrace 1 ++
    replicateTrace 2).map .call ++ [.stopLeader, .startLeader]

theorem logs_match_even :
    ∃ d, Run (Steps (stepInSync threeConfig (fun _ => 1) (.new _ (fun _ => 100)))) neverStarted
      evenTrace d ∧ d.LogMatching threeConfig := by
  have done : (exec (stepInSync threeConfig (fun _ => 1) (.new _ (fun _ => 100))) neverStarted
      evenTrace).map (fun d => d.leaderUp) = some true := by decide
  obtain ⟨d, run, -⟩ := exec_reaches done
  exact ⟨d, run, logs_match _ run⟩

def logTrace (x : TransReq) : List (DeployAct 3 1) :=
  [.worker 0 (.xactEnqueue x), .worker 0 .xactDequeue, .worker 0 (.lockFrom true),
    .worker 0 (.lockTo true), .worker 0 .copyToBuffer, .worker 0 (.flushTest true),
    .worker 0 (.loggingWork ⟨0, 1, 1, 0, [x]⟩)].map (fun a => .call (.leader a))

def nextXact : TransReq := ⟨0, 8, ⟨0, 2, 5, 0⟩⟩

def nextPacket : AppendEntriesRpc 3 1 := ⟨1, 0, -1, 0, 0, 0, [nextXact], 1, 0, 1⟩

/-- The leader stops between its own append and its first send. The next leader process logs and
sends another batch, and the follower puts it at index 0. -/
def shiftTrace : List (DeployAct 3 1) :=
  [.startLeader] ++ logTrace Worker.firstLocked ++ [.stopLeader, .startLeader] ++
    logTrace nextXact ++ [.call (.leader (.worker 0 (.sendRPC nextPacket))),
      .call (.recv (1, 0) nextPacket), .call (.loggingWork (1, 0) 0 ⟨0, 1, 1, 0, [nextXact]⟩)]

theorem logs_shifted :
    ∃ d, Run (Steps threeStep) neverStarted shiftTrace d ∧ ¬ d.LogMatching threeConfig := by
  have done : (exec threeStep neverStarted shiftTrace).map (fun d =>
      decide ((d.nodeLog threeConfig 0 0)[0]? = some ⟨0, 1, 1, 0, [Worker.firstLocked]⟩ ∧
        (d.nodeLog threeConfig 1 0)[0]? = some ⟨0, 1, 1, 0, [nextXact]⟩)) = some true := by decide
  obtain ⟨d, run, holds⟩ := exec_reaches done
  obtain ⟨leader, follower⟩ := of_decide_eq_true holds
  refine ⟨d, run, fun same => ?_⟩
  have entries := same 0 0 0 1 _ _ leader follower rfl 0 (Nat.le_refl _)
  rw [leader, follower] at entries
  exact absurd entries (by decide)

end Example

end Deployment

end Raft2pl.Server
