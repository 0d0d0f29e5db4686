/- What was committed in any lifetime of the leader survives all stops and restarts. -/

import Raft2pl.Server.Recovery
import Raft2pl.Server.Restart

set_option autoImplicit false
set_option relaxedAutoImplicit false

namespace Raft2pl.Server

open Lib (Run Steps exec exec_reaches)
open TwoPl (KVS)

namespace Cluster

variable {N W : Nat} {cfg : Config N} {curTerm : Fin N → Int} {c c' c₁ : Cluster N W cfg.consts}

private theorem transmit_again {a : LeaderAct N W (Conn N W)} (acks : c'.toLeader = c.toLeader)
    (moved : c.transmit cfg a = some c₁) :
    ∃ c₁', c'.transmit cfg a = some c₁' ∧ c₁'.toLeader = c₁.toLeader := by
  cases a with
  | acceptClient =>
    obtain rfl := Option.some.inj moved
    exact ⟨c', rfl, acks⟩
  | worker w b =>
    cases b <;>
    · obtain rfl := Option.some.inj moved
      exact ⟨_, rfl, acks⟩
  | notifier n b =>
    cases b with
    | recv ack =>
      simp only [transmit, Option.ite_none_right_eq_some, Option.some.injEq] at moved
      obtain ⟨first, rfl⟩ := moved
      refine ⟨{ c' with toLeader := Function.update c'.toLeader n (c'.toLeader n).tail }, ?_, ?_⟩
      · simp only [transmit, acks, first, if_true]
      · simp only [acks]
    | _ =>
      obtain rfl := Option.some.inj moved
      exact ⟨c', rfl, acks⟩

end Cluster

namespace Deployment

variable {N W : Nat} {cfg : Config N} {curTerm : Fin N → Int} {kvs : KVS cfg.consts}
  {d d' : Deployment N W cfg.consts} {tr : List (DeployAct N W)} {c : Cluster N W cfg.consts}

/-- A cluster none of whose followers ever stopped: it agrees with the deployment but for the
connections that broke, on which nothing moves any more, and the entries of earlier lifetimes. -/
structure Mirrors (d : Deployment N W cfg.consts) (c : Cluster N W cfg.consts) : Prop where
  leader : c.leader = d.cluster.leader
  toLeader : c.toLeader = d.cluster.toLeader
  whole : ∀ n, d.sockfd n ≠ .broken →
    c.toFollower n = d.cluster.toFollower n ∧ c.receiver n = d.cluster.receiver n
  closed : ∀ n, d.sockfd n ≠ .connected →
    d.cluster.toFollower n = [] ∧ d.cluster.receiver n = .closed
  disk : ∀ n, (c.disk n).file.Sublist (d.cluster.disk n).file

private theorem mirrors_restart : (restart cfg kvs d).Mirrors (restart cfg kvs d).cluster where
  leader := rfl
  toLeader := rfl
  whole := fun _ _ => ⟨rfl, rfl⟩
  closed := fun _ _ => ⟨rfl, rfl⟩
  disk := fun _ => List.Sublist.refl _

private theorem mirrors_leader {a : LeaderAct N W (Conn N W)} {c₁ : Cluster N W cfg.consts}
    (mirrors : d.Mirrors c) (taken : Cluster.step cfg curTerm d.cluster (.leader a) = some c₁) :
    ∃ c', Cluster.step cfg curTerm c (.leader a) = some c' ∧
      Mirrors { d with cluster := d.deliver cfg c₁, sockfd := dial d.sockfd a } c' := by
  obtain ⟨moved, receiver, disk, c₂, sent, toFollower, toLeader⟩ := Cluster.step_leader taken
  obtain ⟨c₃, again, acks⟩ := Cluster.transmit_again mirrors.toLeader sent
  obtain ⟨receiver', disk'⟩ := Cluster.transmit_frame again
  refine ⟨{ c₃ with leader := c₁.leader }, ?_, rfl, ?_, fun n whole => ?_, fun n apart => ?_, ?_⟩
  · simp only [Cluster.step, mirrors.leader, moved, again, Option.bind_eq_bind, Option.bind_some]
  · rw [acks, ← toLeader]
    rfl
  · have intact : d.sockfd n ≠ .broken := fun cut => whole ((dial_spec d.sockfd a n).1.mpr cut)
    obtain ⟨packets, thread⟩ := mirrors.whole n intact
    constructor
    · rw [(Cluster.transmit_spec again n).1, packets, ← (Cluster.transmit_spec sent n).1]
      simp [deliver, intact, toFollower]
    · simp only [deliver, receiver, receiver', thread]
  · by_cases cut : d.sockfd n = .broken
    · obtain ⟨empty, closed⟩ := mirrors.closed n (by simp [cut])
      exact ⟨by simp [deliver, cut, empty], by simpa only [deliver, receiver] using closed⟩
    · have fresh : dial d.sockfd a n = .unopened := by
        cases now : dial d.sockfd a n with
        | unopened => rfl
        | connected => exact absurd now apart
        | broken => exact absurd ((dial_spec d.sockfd a n).1.mp now) cut
      obtain ⟨was, silent⟩ := (dial_spec d.sockfd a n).2 fresh
      obtain ⟨empty, closed⟩ := mirrors.closed n (by simp [was])
      have packets := (Cluster.transmit_spec sent n).1
      rw [empty, silent] at packets
      refine ⟨?_, by simpa only [deliver, receiver] using closed⟩
      simp only [deliver, cut, if_false, toFollower, packets]
      rfl
  · intro n
    simpa only [deliver, disk, disk'] using mirrors.disk n

theorem Mirrors.connected {n : Conn N W} (mirrors : d.Mirrors c)
    (busy : d.cluster.toFollower n ≠ [] ∨ d.cluster.receiver n ≠ .closed) :
    d.sockfd n = .connected := by
  by_contra apart
  obtain ⟨empty, closed⟩ := mirrors.closed n apart
  exact busy.elim (absurd empty) (absurd closed)

private theorem ne_of_connected {sockfd : Conn N W → Sockfd} {n m : Conn N W}
    (live : sockfd n = .connected) (apart : sockfd m ≠ .connected) : m ≠ n := by
  rintro rfl
  exact apart live

private theorem mirrors_recv {n : Conn N W} {arpc : AppendEntriesRpc N W}
    {c₁ : Cluster N W cfg.consts} (mirrors : d.Mirrors c)
    (taken : Cluster.step cfg curTerm d.cluster (.recv n arpc) = some c₁) :
    ∃ c', Cluster.step cfg curTerm c (.recv n arpc) = some c' ∧
      Mirrors { d with cluster := c₁ } c' := by
  obtain ⟨logId, opened, first, rfl⟩ := Cluster.step_recv taken
  have live := mirrors.connected (n := n) (.inl (by rintro empty; simp [empty] at first))
  obtain ⟨packets, thread⟩ := mirrors.whole n (by simp [live])
  have id : Cluster.Receiver.logId arpc (d.cluster.receiver n) = some logId := by
    rcases opened with ⟨here, rfl⟩ | here <;> rw [here] <;> rfl
  refine ⟨{ c with
    toFollower := Function.update c.toFollower n (c.toFollower n).tail
    receiver := Function.update c.receiver n (.logging logId arpc) }, ?_,
    mirrors.leader, mirrors.toLeader, fun m whole => ?_, fun m apart => ?_, mirrors.disk⟩
  · simp only [Cluster.step, thread, id, packets, first, Option.bind_eq_bind, Option.bind_some,
      if_true]
  · by_cases here : m = n
    · subst here
      simp [packets]
    · simpa [here] using mirrors.whole m whole
  · simpa [ne_of_connected live apart] using mirrors.closed m apart

private theorem mirrors_loggingWork {n : Conn N W} {logId : Fin W} {e : Entry}
    {c₁ : Cluster N W cfg.consts} (mirrors : d.Mirrors c)
    (taken : Cluster.step cfg curTerm d.cluster (.loggingWork n logId e) = some c₁) :
    ∃ c', Cluster.step cfg curTerm c (.loggingWork n logId e) = some c' ∧
      Mirrors { d with cluster := c₁ } c' := by
  obtain ⟨arpc, here, nonneg, content, rfl⟩ := Cluster.step_loggingWork taken
  have live := mirrors.connected (n := n) (.inr (by simp [here]))
  obtain ⟨-, thread⟩ := mirrors.whole n (by simp [live])
  have filled : 0 < arpc.szLog := by
    simp only [Cluster.step, here, Option.ite_none_right_eq_some] at taken
    exact taken.1.2.2.1
  refine ⟨{ c with
    disk := Function.update c.disk (n.1, logId) ((c.disk (n.1, logId)).addEntry e)
    receiver := Function.update c.receiver n (.acking logId arpc) }, ?_,
    mirrors.leader, mirrors.toLeader, fun m whole => ?_, fun m apart => ?_, fun m => ?_⟩
  · simp only [Cluster.step, thread, here]
    exact if_pos ⟨trivial, nonneg, filled, content⟩
  · by_cases same : m = n
    · subst same
      simpa using (mirrors.whole m whole).1
    · simpa [same] using mirrors.whole m whole
  · simpa [ne_of_connected live apart] using mirrors.closed m apart
  · by_cases same : m = (n.1, logId)
    · subst same
      simpa using mirrors.disk (n.1, logId)
    · simpa [same] using mirrors.disk m

private theorem mirrors_sendAck {n : Conn N W} {rae : ResponseAppendEntries N W}
    {c₁ : Cluster N W cfg.consts} (mirrors : d.Mirrors c)
    (taken : Cluster.step cfg curTerm d.cluster (.sendAck n rae) = some c₁) :
    ∃ c', Cluster.step cfg curTerm c (.sendAck n rae) = some c' ∧
      Mirrors { d with cluster := c₁ } c' := by
  obtain ⟨logId, arpc, here, content, rfl⟩ := Cluster.step_sendAck taken
  have live := mirrors.connected (n := n) (.inr (by simp [here]))
  obtain ⟨-, thread⟩ := mirrors.whole n (by simp [live])
  refine ⟨{ c with
    toLeader := Function.update c.toLeader n (c.toLeader n ++ [rae])
    receiver := Function.update c.receiver n (.recv logId) }, ?_,
    mirrors.leader, ?_, fun m whole => ?_, fun m apart => ?_, mirrors.disk⟩
  · simp only [Cluster.step, thread, here, content, if_true]
  · simp only [mirrors.toLeader]
  · by_cases same : m = n
    · subst same
      simpa using (mirrors.whole m whole).1
    · simpa [same] using mirrors.whole m whole
  · simpa [ne_of_connected live apart] using mirrors.closed m apart

private theorem mirrors_follower {b : ClusterAct N W} {c₁ : Cluster N W cfg.consts}
    (mirrors : d.Mirrors c)
    (theirs : b.leader? = none) (taken : Cluster.step cfg curTerm d.cluster b = some c₁) :
    ∃ c', Cluster.step cfg curTerm c b = some c' ∧ Mirrors { d with cluster := c₁ } c' := by
  cases b with
  | leader a => cases theirs
  | recv n arpc => exact mirrors_recv mirrors taken
  | loggingWork n logId e => exact mirrors_loggingWork mirrors taken
  | sendAck n rae => exact mirrors_sendAck mirrors taken

private theorem append_grows (t : OldReceiver N W) (disk : Conn N W → Log) (b : OldAct N W)
    (n : Conn N W) : (disk n).file <+: (t.append disk b n).file := by
  cases b with
  | loggingWork logId e =>
    by_cases here : n = (t.node, logId)
    · subst here
      simp [OldReceiver.append]
    · simp [OldReceiver.append, here]
  | _ => exact List.prefix_rfl

private theorem mirrors_old {i : Nat} {b : OldAct N W} {t t' : OldReceiver N W}
    (mirrors : d.Mirrors c) :
    Mirrors { d with
      cluster := { d.cluster with disk := t.append d.cluster.disk b }
      old := d.old.set i t' } c := by
  refine ⟨mirrors.leader, mirrors.toLeader, mirrors.whole, mirrors.closed, fun n => ?_⟩
  exact (mirrors.disk n).trans (append_grows t d.cluster.disk b n).sublist

private theorem mirrors_stopFollower {f : Fin N} {old : List (OldReceiver N W)}
    (mirrors : d.Mirrors c) :
    Mirrors ⟨reset cfg d.cluster f, d.leaderUp,
      fun n => if n.1 = f ∧ d.sockfd n = .connected then .broken else d.sockfd n, old⟩ c := by
  refine ⟨mirrors.leader, mirrors.toLeader, fun n whole => ?_, fun n apart => ?_, mirrors.disk⟩
  · by_cases theirs : n.1 = f
    · have unopened : d.sockfd n ≠ .connected := by
        intro live
        simp [theirs, live] at whole
      have intact : d.sockfd n ≠ .broken := by
        intro cut
        simp [theirs, cut] at whole
      obtain ⟨empty, closed⟩ := mirrors.closed n unopened
      obtain ⟨packets, thread⟩ := mirrors.whole n intact
      simp [reset, theirs, packets, thread, empty, closed]
    · have intact : d.sockfd n ≠ .broken := by simpa [theirs] using whole
      simpa [reset, theirs] using mirrors.whole n intact
  · by_cases theirs : n.1 = f
    · simp [reset, theirs]
    · have unopened : d.sockfd n ≠ .connected := by simpa [theirs] using apart
      simpa [reset, theirs] using mirrors.closed n unopened

theorem files_grow {a : DeployAct N W} (taken : step cfg curTerm kvs d a = some d') :
    (∀ w, (d.cluster.leader.worker w).log.file <+: (d'.cluster.leader.worker w).log.file) ∧
      ∀ n, (d.cluster.disk n).file <+: (d'.cluster.disk n).file := by
  cases a with
  | call b =>
    cases b with
    | leader a =>
      simp only [step, Option.ite_none_right_eq_some, Option.bind_eq_bind,
        Option.bind_eq_some_iff, Option.some.injEq] at taken
      obtain ⟨-, c, called, rfl⟩ := taken
      obtain ⟨leader, disks⟩ := Cluster.files_grow (Cluster.moves_step called)
      exact ⟨leader, disks⟩
    | _ =>
      simp only [step, Option.bind_eq_bind, Option.bind_eq_some_iff, Option.some.injEq] at taken
      obtain ⟨c, called, rfl⟩ := taken
      exact Cluster.files_grow (Cluster.moves_step called)
  | startLeader =>
    simp only [step, Option.ite_none_left_eq_some, Option.some.injEq] at taken
    obtain ⟨-, rfl⟩ := taken
    exact ⟨fun w => List.prefix_rfl, fun n => List.prefix_rfl⟩
  | stopLeader =>
    simp only [step, Option.ite_none_right_eq_some, Option.some.injEq] at taken
    obtain ⟨-, rfl⟩ := taken
    exact ⟨fun w => List.prefix_rfl, fun n => List.prefix_rfl⟩
  | stopFollower f =>
    simp only [step, Option.ite_none_left_eq_some, Option.some.injEq] at taken
    obtain ⟨-, rfl⟩ := taken
    exact ⟨fun w => List.prefix_rfl, fun n => List.prefix_rfl⟩
  | lose m kept =>
    simp only [step, Option.ite_none_left_eq_some, Option.some.injEq] at taken
    obtain ⟨-, rfl⟩ := taken
    exact ⟨fun w => List.prefix_rfl, fun n => List.prefix_rfl⟩
  | old i b =>
    simp only [step, Option.bind_eq_bind, Option.bind_eq_some_iff, Option.some.injEq] at taken
    obtain ⟨t, -, t', -, rfl⟩ := taken
    exact ⟨fun w => List.prefix_rfl, append_grows t d.cluster.disk b⟩

/-- Since the leader was started, it has done what the leader of a cluster does whose processes
have not stopped. -/
def Mirrored (curTerm : Fin N → Int) (d : Deployment N W cfg.consts) : Prop :=
  ∃ c₀ tr c, Cluster.Fresh cfg c₀ ∧ Run (Steps (Cluster.step cfg curTerm)) c₀ tr c ∧ d.Mirrors c

private theorem mirrored_next (free : ∀ k, kvs.mutex k = false) {a : DeployAct N W}
    (before : d.leaderUp = true → d.Mirrored curTerm)
    (taken : step cfg curTerm kvs d a = some d') (up : d'.leaderUp = true) :
    d'.Mirrored curTerm := by
  cases a with
  | call b =>
    cases b with
    | leader a =>
      simp only [step, Option.ite_none_right_eq_some, Option.bind_eq_bind,
        Option.bind_eq_some_iff, Option.some.injEq] at taken
      obtain ⟨running, c₁, called, rfl⟩ := taken
      obtain ⟨c₀, tr, c, fresh, run, mirrors⟩ := before running
      obtain ⟨c', again, mirrors'⟩ := mirrors_leader mirrors called
      exact ⟨c₀, _, c', fresh, .next run again, mirrors'⟩
    | _ =>
      simp only [step, Option.bind_eq_bind, Option.bind_eq_some_iff, Option.some.injEq] at taken
      obtain ⟨c₁, called, rfl⟩ := taken
      obtain ⟨c₀, tr, c, fresh, run, mirrors⟩ := before up
      obtain ⟨c', again, mirrors'⟩ := mirrors_follower mirrors rfl called
      exact ⟨c₀, _, c', fresh, .next run again, mirrors'⟩
  | startLeader =>
    simp only [step, Option.ite_none_left_eq_some, Option.some.injEq] at taken
    obtain ⟨-, rfl⟩ := taken
    exact ⟨_, [], _, Cluster.start_fresh cfg free _ _, .start, mirrors_restart⟩
  | stopLeader =>
    simp only [step, Option.ite_none_right_eq_some, Option.some.injEq] at taken
    obtain ⟨-, rfl⟩ := taken
    cases up
  | stopFollower f =>
    simp only [step, Option.ite_none_left_eq_some, Option.some.injEq] at taken
    obtain ⟨-, rfl⟩ := taken
    obtain ⟨c₀, tr, c, fresh, run, mirrors⟩ := before up
    exact ⟨c₀, tr, c, fresh, run, mirrors_stopFollower mirrors⟩
  | lose m kept =>
    simp only [step, Option.ite_none_left_eq_some, Option.some.injEq] at taken
    obtain ⟨down, rfl⟩ := taken
    exact absurd up down
  | old i b =>
    simp only [step, Option.bind_eq_bind, Option.bind_eq_some_iff, Option.some.injEq] at taken
    obtain ⟨t, -, t', -, rfl⟩ := taken
    obtain ⟨c₀, tr, c, fresh, run, mirrors⟩ := before up
    exact ⟨c₀, tr, c, fresh, run, mirrors_old mirrors⟩

/-- A notifier of some leader process has made a call for this transaction. -/
def Called (tr : List (DeployAct N W)) (p : Place W × TransReq) : Prop :=
  ∃ n b op, .call (.leader (.notifier n b)) ∈ tr ∧ b.call? = some (op, p)

theorem Mirrors.durable {p : Place W × TransReq} (mirrors : d.Mirrors c) (durable : c.Durable p) :
    d.cluster.Durable p :=
  durable.grows (fun v => by rw [mirrors.leader]; exact List.Subset.refl _)
    (fun n => (mirrors.disk n).subset)

private theorem durable_called {n : Conn N W} {b : NotifierAct N W} {op : CommitOp}
    {p : Place W × TransReq} (mirrored : d.leaderUp = true → d.Mirrored curTerm)
    (taken : step cfg curTerm kvs d (.call (.leader (.notifier n b))) = some d')
    (call : b.call? = some (op, p)) : d'.cluster.Durable p := by
  simp only [step, Option.ite_none_right_eq_some, Option.bind_eq_bind, Option.bind_eq_some_iff,
    Option.some.injEq] at taken
  obtain ⟨running, c₁, called, rfl⟩ := taken
  obtain ⟨c₀, tr, c, fresh, run, mirrors⟩ := mirrored running
  obtain ⟨c', again, mirrors'⟩ := mirrors_leader mirrors called
  have made : p ∈ calls op (ofLeader (tr ++ [.leader (.notifier n b)])) := by
    simp [calls, ofLeader, ClusterAct.leader?, LeaderAct.byNotifier, NotifierAct.callOf?, call]
  exact mirrors'.durable (Cluster.calls_durable fresh (Cluster.moves_run (.next run again)) op p made)

private theorem called_durable (free : ∀ k, kvs.mutex k = false) (file : Fin W → List Entry)
    (run : Run (Steps (step cfg curTerm kvs)) (off cfg kvs file) tr d) :
    ∀ p, Called tr p → d.cluster.Durable p := by
  have kept : (d.leaderUp = true → d.Mirrored curTerm) ∧ ∀ p, Called tr p → d.cluster.Durable p := by
    refine run.invariant (I := fun tr d => (d.leaderUp = true → d.Mirrored curTerm) ∧
      ∀ p, Called tr p → d.cluster.Durable p) ⟨by simp [off], by simp [Called]⟩ ?_
    intro tr d a d' _ before taken
    obtain ⟨mirrored, durable⟩ := before
    refine ⟨mirrored_next free mirrored taken, ?_⟩
    rintro p ⟨n, b, op, made, call⟩
    rcases List.mem_append.mp made with old | new
    · obtain ⟨leader, disks⟩ := files_grow taken
      exact (durable p ⟨n, b, op, old, call⟩).grows (fun v => (leader v).subset)
        (fun n => (disks n).subset)
    · obtain rfl : .call (.leader (.notifier n b)) = a := by simpa using new
      exact durable_called mirrored taken call
  exact kept.2

/-- Processes stop and start in any order, and what earlier leaders left under way still arrives.
A transaction that a notifier ever called for is, from then on and for ever, in the leader's log
file, and in the log files of any half of the nodes. -/
theorem committed_survives (free : ∀ k, kvs.mutex k = false) (file : Fin W → List Entry)
    (run : Run (Steps (step cfg curTerm kvs)) (off cfg kvs file) tr d)
    {p : Place W × TransReq} (called : Called tr p) :
    (∃ e ∈ d.nodeLog cfg cfg.me p.1.workerId, p ∈ e.slots p.1.workerId) ∧
      ∀ half : Finset (Fin N), N ≤ 2 * half.card →
        ∃ g ∈ half, ∃ e ∈ d.nodeLog cfg g p.1.workerId, p ∈ e.slots p.1.workerId := by
  have durable := called_durable free file run p called
  refine ⟨?_, fun half size => durable.inLogs size⟩
  obtain ⟨e, entry, slot, -⟩ := durable
  refine ⟨e, ?_, slot⟩
  rw [nodeLog, if_pos rfl]
  exact entry

section Example

open Cluster (threeConfig committedTrace)

/-- A transaction is committed and answered, then the leader and a follower stop, and the leader
is started again. -/
def survivalTrace : List (DeployAct 3 1) :=
  [.startLeader] ++ committedTrace.map .call ++ [.stopLeader, .stopFollower 1, .startLeader]

theorem committed_survives_restart :
    ∃ d, Run (Steps threeStep) neverStarted survivalTrace d ∧
      ∃ g ∈ ({0, 1} : Finset (Fin 3)), ∃ e ∈ d.nodeLog threeConfig g 0,
        ((⟨0, 0, 0⟩, Worker.firstLocked) : Place 1 × TransReq) ∈ e.slots 0 := by
  have done : (exec threeStep neverStarted survivalTrace).map (fun d => d.leaderUp) = some true := by
    decide
  obtain ⟨d, run, -⟩ := exec_reaches done
  have called : Called survivalTrace ((⟨0, 0, 0⟩, Worker.firstLocked) : Place 1 × TransReq) := by
    refine ⟨(2, 0), .sendRPC (⟨0, 0, 0⟩, Worker.firstLocked) .sent, .sendRPC, ?_, rfl⟩
    decide
  have survives := committed_survives (fun _ => rfl) _ run called
  exact ⟨d, run, survives.2 {0, 1} (by decide)⟩

end Example

end Deployment

end Raft2pl.Server
