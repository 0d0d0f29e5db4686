/- logging.cc and rpc.cc on bytes, and the loops of raft.cc that send and receive them: the batches of
a worker on their way to the log file of a follower, and the acknowledgements on their way back. -/

import Raft2pl.Server.Framing
import Mathlib.Data.Prod.Lex

set_option autoImplicit false
set_option relaxedAutoImplicit false

namespace Raft2pl.Server

open Lib (Run Steps)

/-- An array of requests as it lies in memory. -/
abbrev Requests := Fin maxGroupEntry → TransReqImage

/-- `memcpy` of the first `n` requests over those of an array. -/
def copyRequests (src : Requests) (n : CInt) (old : Requests) : Requests :=
  fun i => if i.val < n.toNat then src i else old i

/-- The leader's `loggingWork` up to `addEntry`. `e` is what the uninitialised `entry` holds, with the
time that `gettimeofday` puts into it; `none` where the assertion fails. -/
def EntryImage.loggingWork (e : EntryImage) (logBuffer : Requests) (nlog term lsn : CInt) :
    Option EntryImage :=
  if lsn.slt 0 then none
  else some { e with
    lsn := lsn
    term := term
    nlog := nlog
    xactSet := copyRequests logBuffer nlog e.xactSet }

/-- `arpcByFields`, over what the uninitialised `append_entries_rpc` holds. -/
def AppendEntriesImage.arpcByFields (arpc : AppendEntriesImage)
    (term leaderId prevLogIndex prevLogTerm leaderCommit : CInt) (log : Requests)
    (szLog lsn workerId rNodeId : CInt) : AppendEntriesImage :=
  { arpc with
    rpcKind := RPCKind.appendEntries.code
    term := term
    leaderId := leaderId
    prevLogIndex := prevLogIndex
    prevLogTerm := prevLogTerm
    leaderCommit := leaderCommit
    log := copyRequests log szLog arpc.log
    szLog := szLog
    lsn := lsn
    workerId := workerId
    rNodeId := rNodeId }

/-- The follower's `loggingWork` up to `addEntry`, as for the leader; `none` where an assertion fails
or `memcpy` leaves the arrays. -/
def AppendEntriesImage.loggingWork (arpc : AppendEntriesImage) (e : EntryImage) :
    Option EntryImage :=
  if arpc.lsn.slt 0 then none
  else if arpc.szLog.sle 0 then none
  else if maxGroupEntry < arpc.szLog.toNat then none
  else some { e with
    lsn := arpc.lsn
    term := arpc.term
    nlog := arpc.szLog
    xactSet := copyRequests arpc.log arpc.szLog e.xactSet }

/-- `raeByFields`, over what the uninitialised `response_append_entries` holds. -/
def ResponseImage.raeByFields (rae : ResponseImage) (term : CInt) (success : Bool) (lsn : BitVec 32)
    (workerId rNodeId : CInt) : ResponseImage :=
  { rae with
    rpcKind := RPCKind.responseAppendEntries.code
    term := term
    success := fun _ => if success then 1 else 0
    lsn := lsn
    workerId := workerId
    rNodeId := rNodeId }

/-- A worker of the leader and a follower: the connections between them in both directions, and what
they take from their configuration and status. -/
structure Channel where
  conn : Connection
  back : Connection
  workerId : CInt
  me : CInt
  currentTerm : CInt
  followerNodeId : CInt
  followerTerm : CInt

/-- Where the log receiver is in its loop. -/
inductive ReceiverPc
  | connect2raftnode
  | recv
  | loggingWork (arpc : AppendEntriesImage)
  | sendRPC (arpc : AppendEntriesImage)

/-- What a worker and a log receiver have done. `unsent` tells that the worker is at the follower with
its batch, `disk` are the log files of the follower and `log` is the one that its log receiver has
opened. -/
structure Wire where
  leader : LogFile
  logBuffer : Requests
  nlog : CInt
  lsn : CInt
  unsent : Bool
  link : Link
  pc : ReceiverPc
  log : Option (CInt × LogFile)
  disk : CInt → List Byte
  reply : Link

/-- The calls of the worker, of the log receiver and of the notifier, each with what the others leave
open: the contents of uninitialised memory, the time, and the fields that nobody reads. -/
inductive WireAct
  | loggingWork (e : EntryImage) (logBuffer : Requests) (nlog lsn : CInt)
  | connect2raftnode
  | sendRPC (arpc : AppendEntriesImage) (prevLogIndex commitIndex : CInt)
  | arrive (n : Nat)
  | recv (stack : Nat → Fin sizeofEntry → Byte)
  | connectNotifier
  | logReceived (e : EntryImage)
  | sendAck (rae : ResponseImage)
  | arriveAck (n : Nat)
  | recvAck

namespace Wire

variable (ch : Channel)

/-- The thread of the connection reads: the receiver, or the log receiver once it has connected. -/
def reads (s : Wire) : Bool :=
  match s.pc with
  | .connect2raftnode => s.link.reader.thread?.isNone
  | .recv => true
  | _ => false

def received? (l l' : Link) : Option AppendEntriesImage :=
  match (l'.handled.drop l.handled.length).head? with
  | some ⟨.logReceiver, arpc⟩ => some arpc
  | _ => none

/-- The `log` of the log receiver, which it opens at the first payload. -/
def openLog (s : Wire) (stack : Nat → Fin sizeofEntry → Byte) (workerId : CInt) : CInt × LogFile :=
  s.log.getD (workerId, LogFile.ofBytes stack (s.disk workerId))

def step (s : Wire) : WireAct → Option Wire
  | .loggingWork e logBuffer nlog lsn =>
      -- 0 < buffid <= MAX_GROUP_ENTRY
      if s.unsent ∨ nlog.toNat = 0 ∨ maxGroupEntry < nlog.toNat then none
      else do
        let e ← e.loggingWork logBuffer nlog ch.currentTerm lsn
        some { s with
          leader := s.leader.addEntry e
          logBuffer := logBuffer
          nlog := nlog
          lsn := lsn
          unsent := true }
  | .connect2raftnode =>
      if s.unsent then do
        let link ← s.link.step ch.conn (.connect2raftnode : LinkAct .logReceiver)
        some { s with link := link }
      else none
  | .sendRPC arpc prevLogIndex commitIndex =>
      if s.unsent then do
        let link ← s.link.step ch.conn (.sendRPC (arpc.arpcByFields ch.currentTerm ch.me prevLogIndex
          (ch.currentTerm - 1) commitIndex s.logBuffer s.nlog s.lsn ch.workerId ch.followerNodeId)
            : LinkAct .logReceiver)
        some { s with link := link, unsent := false }
      else none
  | .arrive n => do
      let link ← s.link.step ch.conn (.arrive n : LinkAct .logReceiver)
      some { s with link := link }
  | .recv stack =>
      if s.reads then do
        let link ← s.link.step ch.conn (.recv : LinkAct .logReceiver)
        match received? s.link link with
        | some arpc => some { s with
            link := link
            pc := .loggingWork arpc
            log := some (s.openLog stack arpc.workerId) }
        | none => some { s with link := link }
      else none
  | .connectNotifier =>
      match s.pc with
      | .connect2raftnode =>
          if s.link.reader.thread?.isSome then do
            let reply ← s.reply.step ch.back (.connect2raftnode : LinkAct .notifier)
            some { s with reply := reply, pc := .recv }
          else none
      | _ => none
  | .logReceived e =>
      match s.pc, s.log with
      | .loggingWork arpc, some (id, log) => do
          let e ← arpc.loggingWork e
          some { s with
            log := some (id, log.addEntry e)
            disk := Function.update s.disk id (log.addEntry e).bytes
            pc := .sendRPC arpc }
      | _, _ => none
  | .sendAck rae =>
      match s.pc with
      | .sendRPC arpc => do
          let reply ← s.reply.step ch.back (.sendRPC (rae.raeByFields ch.followerTerm true arpc.lsn
            arpc.workerId arpc.rNodeId) : LinkAct .notifier)
          some { s with reply := reply, pc := .recv }
      | _ => none
  | .arriveAck n => do
      let reply ← s.reply.step ch.back (.arrive n : LinkAct .notifier)
      some { s with reply := reply }
  | .recvAck => do
      let reply ← s.reply.step ch.back (.recv : LinkAct .notifier)
      some { s with reply := reply }

/-- The worker has opened its log and is about to send its first batch to the follower. -/
def start (leader : LogFile) (logBuffer : Requests) (disk : CInt → List Byte) : Wire where
  leader := leader
  logBuffer := logBuffer
  nlog := 0
  lsn := 0
  unsent := false
  link := .start
  pc := .connect2raftnode
  log := none
  disk := disk
  reply := .start

end Wire

section Batches

/-- What the log files on both sides have of a batch. -/
def batchOf (lsn term nlog : CInt) (xactSet : Requests) : Int × Int × Nat × List TransReq :=
  (lsn.toInt, term.toInt, nlog.toNat, ((List.ofFn xactSet).take nlog.toNat).map fun r =>
    ⟨r.clientId.toInt, r.commandId, r.req⟩)

def AppendEntriesImage.shared (arpc : AppendEntriesImage) : Int × Int × Nat × List TransReq :=
  batchOf arpc.lsn arpc.term arpc.szLog arpc.log

private theorem shared_entry (e : EntryImage) :
    e.entry.shared = batchOf e.lsn e.term e.nlog e.xactSet := by
  simp [Entry.shared, EntryImage.entry, batchOf, ← List.map_take, List.take_take]

@[simp] theorem batchOf_copyRequests (lsn term n : CInt) (src old : Requests) :
    batchOf lsn term n (copyRequests src n old) = batchOf lsn term n src := by
  have same : (List.ofFn (copyRequests src n old)).take n.toNat = (List.ofFn src).take n.toNat := by
    apply List.ext_getElem
    · simp
    · intro i first second
      have small : i < n.toNat := by
        rw [List.length_take] at first
        omega
      simp [copyRequests, small]
  rw [batchOf, batchOf, same]

private theorem shared_loggingWork {e e' : EntryImage} {logBuffer : Requests} {nlog term lsn : CInt}
    (logged : e.loggingWork logBuffer nlog term lsn = some e') :
    e'.entry.shared = batchOf lsn term nlog logBuffer ∧ lsn.slt 0 = false := by
  simp only [EntryImage.loggingWork, Option.ite_none_left_eq_some, Option.some.injEq,
    Bool.not_eq_true] at logged
  obtain ⟨positive, rfl⟩ := logged
  exact ⟨by simp [shared_entry], positive⟩

def Logs (arpc : AppendEntriesImage) (e : EntryImage) : Prop := ∃ e₀, arpc.loggingWork e₀ = some e

theorem Logs.same {arpc : AppendEntriesImage} {e : EntryImage} (logs : Logs arpc e) :
    e.entry.shared = arpc.shared ∧ e.lsn = arpc.lsn := by
  obtain ⟨e₀, logged⟩ := logs
  simp only [AppendEntriesImage.loggingWork, Option.ite_none_left_eq_some, Option.some.injEq] at logged
  obtain ⟨-, -, -, rfl⟩ := logged
  simp [shared_entry, AppendEntriesImage.shared]

end Batches

namespace Wire

variable {ch : Channel}

structure Sound (nlog lsn : CInt) : Prop where
  lsn : lsn.slt 0 = false
  nonempty : nlog.toNat ≠ 0
  fits : nlog.toNat ≤ maxGroupEntry

structure Proper (ch : Channel) (arpc : AppendEntriesImage) : Prop where
  sound : Sound arpc.szLog arpc.lsn
  workerId : arpc.workerId = ch.workerId
  rNodeId : arpc.rNodeId = ch.followerNodeId

theorem Sound.logs {arpc : AppendEntriesImage} (sound : Sound arpc.szLog arpc.lsn)
    (e₀ : EntryImage) : ∃ e, arpc.loggingWork e₀ = some e := by
  obtain ⟨lsn, nonempty, fits⟩ := sound
  have positive : arpc.szLog.sle 0 = false := by
    have small : arpc.szLog.toNat ≤ 100 := fits
    have value : arpc.szLog.toInt = arpc.szLog.toNat := BitVec.toInt_eq_toNat_of_lt (by omega)
    have zero : (0 : CInt).toInt = 0 := rfl
    simp only [BitVec.sle, value, zero, decide_eq_false_iff_not]
    omega
  apply Option.isSome_iff_exists.mp
  rw [AppendEntriesImage.loggingWork, if_neg (ne_true_of_eq_false lsn),
    if_neg (ne_true_of_eq_false positive), if_neg (Nat.not_lt.mpr fits)]
  rfl

def packets (tr : List (LinkAct .logReceiver)) : List AppendEntriesImage := Link.sent tr

private theorem packets_sendRPC (tr : List (LinkAct .logReceiver)) (arpc : AppendEntriesImage) :
    packets (tr ++ [.sendRPC arpc]) = packets tr ++ [arpc] := Link.sent_append tr (.sendRPC arpc)

private theorem packets_silent (tr : List (LinkAct .logReceiver)) {act : LinkAct .logReceiver}
    (silent : act.sent? = none) : packets (tr ++ [act]) = packets tr := by
  rw [packets, Link.sent_append, silent]
  exact List.append_nil _

def acks (tr : List (LinkAct .notifier)) : List ResponseImage := Link.sent tr

private theorem acks_sendRPC (tr : List (LinkAct .notifier)) (rae : ResponseImage) :
    acks (tr ++ [.sendRPC rae]) = acks tr ++ [rae] := Link.sent_append tr (.sendRPC rae)

private theorem acks_silent (tr : List (LinkAct .notifier)) {act : LinkAct .notifier}
    (silent : act.sent? = none) : acks (tr ++ [act]) = acks tr := by
  rw [acks, Link.sent_append, silent]
  exact List.append_nil _

def worker (s : Wire) : LogFile × Requests × CInt × CInt × Bool :=
  (s.leader, s.logBuffer, s.nlog, s.lsn, s.unsent)

def unsentBatch (ch : Channel) (s : Wire) : List (Int × Int × Nat × List TransReq) :=
  if s.unsent then [batchOf s.lsn ch.currentTerm s.nlog s.logBuffer] else []

def unwritten (s : Wire) : List AppendEntriesImage :=
  match s.pc with
  | .loggingWork arpc => [arpc]
  | _ => []

def unanswered (s : Wire) : List AppendEntriesImage :=
  match s.pc with
  | .sendRPC arpc => [arpc]
  | _ => []

/-- What the notifier looks at in an acknowledgement. -/
def answerOf (rae : ResponseImage) : Byte × BitVec 32 × CInt × CInt :=
  (rae.success 0, rae.lsn, rae.workerId, rae.rNodeId)

def answer (ch : Channel) (lsn : BitVec 32) : Byte × BitVec 32 × CInt × CInt :=
  (1, lsn, ch.workerId, ch.followerNodeId)

/-- The worker's file holds a batch for each packet, and the batch that is still to be sent. -/
structure Ships (ch : Channel) (own es : List EntryImage) (tr : List (LinkAct .logReceiver))
    (s : Wire) : Prop where
  file : s.leader.bytes = EntryImage.encodeAll (own ++ es)
  run : Run (Steps (Link.step ch.conn)) Link.start tr s.link
  sent : es.map (fun e => e.entry.shared) =
    (packets tr).map AppendEntriesImage.shared ++ s.unsentBatch ch
  proper : ∀ arpc ∈ packets tr, Proper ch arpc
  sound : s.unsent = true → Sound s.nlog s.lsn

/-- The follower's file holds an entry for each packet that the log receiver is done with. -/
structure Writes (ch : Channel) (disk : CInt → List Byte) (old fs : List EntryImage)
    (done : List AppendEntriesImage) (s : Wire) : Prop where
  handled : s.link.handled = @Link.addressed .logReceiver (done ++ s.unwritten)
  logged : List.Forall₂ Logs done fs
  file : s.disk ch.workerId = EntryImage.encodeAll (old ++ fs)
  others : ∀ id, id ≠ ch.workerId → s.disk id = disk id
  log : ∀ f, s.log = some f → f.1 = ch.workerId ∧ f.2.bytes = s.disk ch.workerId
  opened : s.unwritten ≠ [] → s.log ≠ none

/-- Each of these packets is acknowledged, but for the last one while the log receiver is at it. -/
structure Answers (ch : Channel) (done : List AppendEntriesImage) (tr : List (LinkAct .notifier))
    (s : Wire) : Prop where
  run : Run (Steps (Link.step ch.back)) Link.start tr s.reply
  sent : done.map (fun arpc => answer ch arpc.lsn) =
    (acks tr).map answerOf ++ s.unanswered.map (fun arpc => answer ch arpc.lsn)
  connected : s.reply.connected = true ↔ s.pc ≠ .connect2raftnode
  proper : ∀ arpc ∈ s.unwritten ++ s.unanswered, Proper ch arpc

section Receive

theorem recv_spec {conn : Connection} {l l' : Link} (read : l.recv conn = some l') :
    l'.connected = l.connected ∧ (l'.handled = l.handled ∨
      l.reader.thread?.isSome ∧ ∃ m, l'.handled = l.handled ++ [m]) := by
  obtain ⟨connected, pipe, reader, handled⟩ := l
  cases reader with
  | receiver port =>
    obtain ⟨⟨bs, pipe'⟩, -, done⟩ := Option.bind_eq_some_iff.mp read
    obtain rfl := Option.some.inj done
    exact ⟨rfl, .inl rfl⟩
  | header port sv buf =>
    obtain ⟨⟨bs, pipe'⟩, -, done⟩ := Option.bind_eq_some_iff.mp read
    obtain rfl := Option.some.inj done
    exact ⟨rfl, .inl rfl⟩
  | payload port sv buf header =>
    obtain ⟨⟨bs, pipe'⟩, -, done⟩ := Option.bind_eq_some_iff.mp read
    dsimp only at done
    split at done
    · obtain rfl := Option.some.inj done
      exact ⟨rfl, .inl rfl⟩
    · split at done
      · obtain rfl := Option.some.inj done
        exact ⟨rfl, .inl rfl⟩
      · next mine _ =>
        obtain rfl := Option.some.inj done
        cases mine with
        | true => exact ⟨rfl, .inr ⟨rfl, _, rfl⟩⟩
        | false => exact ⟨rfl, .inl (List.append_nil _)⟩
  | other => cases read
  | exited => cases read

private theorem link_step {conn : Connection} {sv : Service} {l l' : Link} {act : LinkAct sv}
    (moved : l.step conn act = some l') :
    (act ≠ .recv → l'.handled = l.handled) ∧
      l'.connected = (l.connected || act matches .connect2raftnode) := by
  cases act with
  | connect2raftnode =>
    simp only [Link.step, Option.ite_none_left_eq_some, Option.some.injEq] at moved
    obtain ⟨-, rfl⟩ := moved
    simp
  | sendRPC m =>
    simp only [Link.step, Option.ite_none_right_eq_some, Option.some.injEq] at moved
    obtain ⟨-, rfl⟩ := moved
    simp
  | arrive n =>
    obtain rfl := Option.some.inj moved
    simp
  | recv => simpa using (recv_spec moved).1

variable {conn : Connection} {tr : List (LinkAct .logReceiver)} {l l' : Link}

private theorem received_spec (run : Run (Steps (Link.step conn)) Link.start tr l)
    (read : l.recv conn = some l') :
    received? l l' = none ∧ l'.handled = l.handled ∨
    l.reader.thread?.isSome ∧ ∃ arpc ∈ packets tr, received? l l' = some arpc ∧
      l'.handled = l.handled ++ @Link.addressed .logReceiver [arpc] := by
  have next : Run (Steps (Link.step conn)) Link.start (tr ++ [.recv]) l' := .next run read
  obtain ⟨handled, queue, -, got, all⟩ := Link.run_stage next
  rcases (recv_spec read).2 with same | ⟨thread, m, more⟩
  · exact .inl ⟨by simp [received?, same], same⟩
  · have last : m ∈ Link.addressed handled := by
      rw [← got, more]
      simp
    obtain ⟨arpc, member, rfl⟩ := List.mem_map.mp last
    refine .inr ⟨thread, arpc, ?_, by simp [received?, more], more⟩
    have sent : Link.sent (tr ++ [.recv]) = Link.sent tr := by
      simp [Link.sent_append, LinkAct.sent?]
    rw [packets, ← sent, all]
    exact List.mem_append_left _ member

end Receive

section Steps

variable {s t : Wire} {a : WireAct} {own es old fs : List EntryImage} {disk : CInt → List Byte}
  {tr : List (LinkAct .logReceiver)} {btr : List (LinkAct .notifier)}
  {done : List AppendEntriesImage}

/-- The call puts no new batch into the worker's log. -/
def Later : WireAct → Prop
  | .loggingWork _ _ _ _ => False
  | _ => True

theorem Ships.frame {tr' : List (LinkAct .logReceiver)} (ships : Ships ch own es tr s)
    (worker : t.worker = s.worker) (run : Run (Steps (Link.step ch.conn)) Link.start tr' t.link)
    (same : packets tr' = packets tr) : Ships ch own es tr' t := by
  obtain ⟨leader, logBuffer, nlog, lsn, unsent, link, pc, log, disk, reply⟩ := t
  simp only [Wire.worker, Prod.mk.injEq] at worker
  obtain ⟨rfl, rfl, rfl, rfl, rfl⟩ := worker
  refine ⟨ships.file, run, ?_, ?_, ships.sound⟩
  · rw [same]
    exact ships.sent
  · rw [same]
    exact ships.proper

theorem Ships.moved {act : LinkAct .logReceiver} (ships : Ships ch own es tr s)
    (worker : t.worker = s.worker) (moved : s.link.step ch.conn act = some t.link)
    (silent : act.sent? = none) : Ships ch own es (tr ++ [act]) t :=
  ships.frame worker (.next ships.run moved) (packets_silent tr silent)

private theorem ships_loggingWork {e : EntryImage} {logBuffer : Requests} {nlog lsn : CInt}
    (ships : Ships ch own es tr s) (taken : step ch s (.loggingWork e logBuffer nlog lsn) = some t) :
    ∃ e', Ships ch own (es ++ [e']) tr t := by
  simp only [step, Option.ite_none_left_eq_some, Option.bind_eq_bind, Option.bind_eq_some_iff,
    Option.some.injEq, not_or, Bool.not_eq_true] at taken
  obtain ⟨⟨idle, nonempty, fits⟩, e', logged, rfl⟩ := taken
  obtain ⟨same, positive⟩ := shared_loggingWork logged
  refine ⟨e', ?_, ships.run, ?_, ships.proper, ?_⟩
  · simp [LogFile.addEntry, ships.file, EntryImage.encodeAll]
  · simp [ships.sent, unsentBatch, idle, same]
  · exact fun _ => ⟨positive, nonempty, Nat.not_lt.mp fits⟩

private theorem ships_sendRPC {arpc : AppendEntriesImage} {prevLogIndex commitIndex : CInt}
    (ships : Ships ch own es tr s)
    (taken : step ch s (.sendRPC arpc prevLogIndex commitIndex) = some t) :
    ∃ tr', Ships ch own es tr' t := by
  simp only [step, Option.ite_none_right_eq_some, Option.bind_eq_bind, Option.bind_eq_some_iff,
    Option.some.injEq] at taken
  obtain ⟨unsent, link, moved, rfl⟩ := taken
  refine ⟨_, ships.file, .next ships.run moved, ?_, ?_, ?_⟩
  · rw [ships.sent, packets_sendRPC]
    simp [unsentBatch, unsent, AppendEntriesImage.shared, AppendEntriesImage.arpcByFields]
  · intro arpc' member
    rw [packets_sendRPC] at member
    rcases List.mem_append.mp member with old | new
    · exact ships.proper arpc' old
    · obtain rfl := List.mem_singleton.mp new
      exact ⟨ships.sound unsent, rfl, rfl⟩
  · simp

private theorem ships_step (ships : Ships ch own es tr s) (taken : step ch s a = some t) :
    ∃ es' tr', Ships ch own es' tr' t ∧ (Later a → es' = es) := by
  cases a with
  | loggingWork e logBuffer nlog lsn =>
    obtain ⟨e', ships'⟩ := ships_loggingWork ships taken
    exact ⟨es ++ [e'], tr, ships', False.elim⟩
  | connect2raftnode =>
    simp only [step, Option.ite_none_right_eq_some, Option.bind_eq_bind, Option.bind_eq_some_iff,
      Option.some.injEq] at taken
    obtain ⟨-, link, moved, rfl⟩ := taken
    exact ⟨es, _, ships.moved rfl moved rfl, fun _ => rfl⟩
  | sendRPC arpc prevLogIndex commitIndex =>
    obtain ⟨tr', ships'⟩ := ships_sendRPC ships taken
    exact ⟨es, tr', ships', fun _ => rfl⟩
  | arrive n =>
    simp only [step, Option.bind_eq_bind, Option.bind_eq_some_iff, Option.some.injEq] at taken
    obtain ⟨link, moved, rfl⟩ := taken
    exact ⟨es, _, ships.moved rfl moved rfl, fun _ => rfl⟩
  | recv stack =>
    simp only [step, Option.ite_none_right_eq_some, Option.bind_eq_bind,
      Option.bind_eq_some_iff] at taken
    obtain ⟨-, link, moved, rest⟩ := taken
    refine ⟨es, tr ++ [.recv], ?_, fun _ => rfl⟩
    split at rest
    · obtain rfl := Option.some.inj rest
      exact ships.moved rfl moved rfl
    · obtain rfl := Option.some.inj rest
      exact ships.moved rfl moved rfl
  | connectNotifier =>
    simp only [step] at taken
    split at taken
    · simp only [Option.ite_none_right_eq_some, Option.bind_eq_bind, Option.bind_eq_some_iff,
        Option.some.injEq] at taken
      obtain ⟨-, reply, -, rfl⟩ := taken
      exact ⟨es, tr, ships.frame rfl ships.run rfl, fun _ => rfl⟩
    · cases taken
  | logReceived e =>
    simp only [step] at taken
    split at taken
    · simp only [Option.bind_eq_bind, Option.bind_eq_some_iff, Option.some.injEq] at taken
      obtain ⟨e', -, rfl⟩ := taken
      exact ⟨es, tr, ships.frame rfl ships.run rfl, fun _ => rfl⟩
    · cases taken
  | sendAck rae =>
    simp only [step] at taken
    split at taken
    · simp only [Option.bind_eq_bind, Option.bind_eq_some_iff, Option.some.injEq] at taken
      obtain ⟨reply, -, rfl⟩ := taken
      exact ⟨es, tr, ships.frame rfl ships.run rfl, fun _ => rfl⟩
    · cases taken
  | arriveAck n =>
    simp only [step, Option.bind_eq_bind, Option.bind_eq_some_iff, Option.some.injEq] at taken
    obtain ⟨reply, -, rfl⟩ := taken
    exact ⟨es, tr, ships.frame rfl ships.run rfl, fun _ => rfl⟩
  | recvAck =>
    simp only [step, Option.bind_eq_bind, Option.bind_eq_some_iff, Option.some.injEq] at taken
    obtain ⟨reply, -, rfl⟩ := taken
    exact ⟨es, tr, ships.frame rfl ships.run rfl, fun _ => rfl⟩

theorem Writes.frame (writes : Writes ch disk old fs done s)
    (handled : t.link.handled = s.link.handled) (unwritten : t.unwritten = s.unwritten)
    (log : t.log = s.log) (file : t.disk = s.disk) : Writes ch disk old fs done t where
  handled := by rw [handled, unwritten, writes.handled]
  logged := writes.logged
  file := by rw [file, writes.file]
  others := by rw [file]; exact writes.others
  log := by rw [log, file]; exact writes.log
  opened := by rw [log, unwritten]; exact writes.opened

theorem Answers.frame (answers : Answers ch done btr s) (reply : t.reply = s.reply)
    (pc : t.pc = s.pc) : Answers ch done btr t where
  run := by rw [reply]; exact answers.run
  sent := by rw [unanswered, pc]; exact answers.sent
  connected := by rw [reply, pc]; exact answers.connected
  proper := by rw [unwritten, unanswered, pc]; exact answers.proper

theorem Answers.moved {act : LinkAct .notifier} (answers : Answers ch done btr s)
    (moved : s.reply.step ch.back act = some t.reply) (silent : act.sent? = none)
    (later : act ≠ .connect2raftnode) (pc : t.pc = s.pc) :
    Answers ch done (btr ++ [act]) t where
  run := .next answers.run moved
  sent := by rw [acks_silent btr silent, unanswered, pc]; exact answers.sent
  connected := by
    rw [(link_step moved).2, pc, ← answers.connected]
    cases act <;> simp at later ⊢
  proper := by rw [unwritten, unanswered, pc]; exact answers.proper

section Follows

variable (ships : Ships ch own es tr s) (writes : Writes ch disk old fs done s)
  (answers : Answers ch done btr s)

include writes answers

private theorem follows_link (handled : t.link.handled = s.link.handled)
    (same : t.reply = s.reply ∧ t.pc = s.pc ∧ t.log = s.log ∧ t.disk = s.disk) :
    ∃ fs' done' btr', Writes ch disk old fs' done' t ∧ Answers ch done' btr' t := by
  obtain ⟨reply, pc, log, file⟩ := same
  have unwritten : t.unwritten = s.unwritten := by rw [Wire.unwritten, Wire.unwritten, pc]
  exact ⟨fs, done, btr, writes.frame handled unwritten log file, answers.frame reply pc⟩

include ships in
private theorem follows_recv {stack : Nat → Fin sizeofEntry → Byte}
    (taken : step ch s (.recv stack) = some t) :
    ∃ fs' done' btr', Writes ch disk old fs' done' t ∧ Answers ch done' btr' t := by
  simp only [step, Option.ite_none_right_eq_some, Option.bind_eq_bind,
    Option.bind_eq_some_iff] at taken
  obtain ⟨reads, link, moved, rest⟩ := taken
  rcases received_spec ships.run moved with ⟨no, same⟩ | ⟨thread, arpc, member, yes, more⟩
  · rw [no] at rest
    obtain rfl := Option.some.inj rest
    exact ⟨fs, done, btr, writes.frame same rfl rfl rfl, answers.frame rfl rfl⟩
  · rw [yes] at rest
    obtain rfl := Option.some.inj rest
    have here : s.pc = .recv := by
      simp only [Wire.reads] at reads
      split at reads
      · rw [Option.isNone_iff_eq_none] at reads
        rw [reads] at thread
        cases thread
      · assumption
      · cases reads
    have proper := ships.proper arpc member
    refine ⟨fs, done, btr, ⟨?_, writes.logged, writes.file, writes.others, ?_, by simp⟩,
      ⟨answers.run, ?_, ?_, ?_⟩⟩
    · have idle : s.unwritten = [] := by simp [unwritten, here]
      rw [more, writes.handled, idle, List.append_nil]
      exact List.map_append.symm
    · rintro f opened
      obtain rfl := Option.some.inj opened
      cases log : s.log with
      | none => simp [openLog, log, proper.workerId]
      | some f =>
        rw [openLog, log]
        exact writes.log f log
    · simpa [unanswered, here] using answers.sent
    · rw [answers.connected, here]
      simp
    · simpa [unwritten, unanswered] using proper

private theorem follows_connectNotifier (taken : step ch s .connectNotifier = some t) :
    ∃ fs' done' btr', Writes ch disk old fs' done' t ∧ Answers ch done' btr' t := by
  simp only [step] at taken
  split at taken
  · next here =>
    simp only [Option.ite_none_right_eq_some, Option.bind_eq_bind, Option.bind_eq_some_iff,
      Option.some.injEq] at taken
    obtain ⟨-, reply, moved, rfl⟩ := taken
    refine ⟨fs, done, _, writes.frame rfl ?_ rfl rfl, ⟨.next answers.run moved, ?_, ?_, ?_⟩⟩
    · simp [unwritten, here]
    · rw [acks_silent btr rfl, answers.sent]
      simp [unanswered, here]
    · simp [(link_step moved).2]
    · simp [unwritten, unanswered]
  · cases taken

private theorem follows_logReceived {e : EntryImage} (taken : step ch s (.logReceived e) = some t) :
    ∃ fs' done' btr', Writes ch disk old fs' done' t ∧ Answers ch done' btr' t := by
  simp only [step] at taken
  split at taken
  · next arpc id log here opened =>
    simp only [Option.bind_eq_bind, Option.bind_eq_some_iff, Option.some.injEq] at taken
    obtain ⟨e', logged, rfl⟩ := taken
    obtain ⟨rfl, bytes⟩ := writes.log _ opened
    refine ⟨fs ++ [e'], done ++ [arpc], btr, ⟨?_, ?_, ?_, ?_, ?_, ?_⟩, answers.run, ?_, ?_, ?_⟩
    · rw [writes.handled]
      simp [unwritten, here]
    · exact List.rel_append writes.logged (.cons ⟨e, logged⟩ .nil)
    · simp only [Function.update_self, LogFile.addEntry]
      rw [bytes, writes.file]
      simp [EntryImage.encodeAll]
    · intro id other
      exact (Function.update_of_ne other _ _).trans (writes.others id other)
    · rintro f again
      obtain rfl := Option.some.inj again
      simp
    · simp
    · rw [List.map_append, answers.sent]
      simp [unanswered, here]
    · rw [answers.connected, here]
      simp
    · simpa [unwritten, unanswered, here] using answers.proper
  · cases taken

private theorem follows_sendAck {rae : ResponseImage} (taken : step ch s (.sendAck rae) = some t) :
    ∃ fs' done' btr', Writes ch disk old fs' done' t ∧ Answers ch done' btr' t := by
  simp only [step] at taken
  split at taken
  · next arpc here =>
    simp only [Option.bind_eq_bind, Option.bind_eq_some_iff, Option.some.injEq] at taken
    obtain ⟨reply, moved, rfl⟩ := taken
    refine ⟨fs, done, _, writes.frame rfl ?_ rfl rfl, ⟨.next answers.run moved, ?_, ?_, ?_⟩⟩
    · simp [unwritten, here]
    · have proper : Proper ch arpc := answers.proper arpc (by simp [unanswered, here])
      rw [answers.sent, acks_sendRPC]
      simp [unanswered, here, answerOf, answer, ResponseImage.raeByFields, proper.workerId,
        proper.rNodeId]
    · rw [(link_step moved).2, Bool.or_eq_true, answers.connected, here]
      simp
    · simp [unwritten, unanswered]
  · cases taken

include ships in
private theorem follows_step (taken : step ch s a = some t) :
    ∃ fs' done' btr', Writes ch disk old fs' done' t ∧ Answers ch done' btr' t := by
  cases a with
  | loggingWork e logBuffer nlog lsn =>
    simp only [step, Option.ite_none_left_eq_some, Option.bind_eq_bind, Option.bind_eq_some_iff,
      Option.some.injEq] at taken
    obtain ⟨-, e', -, rfl⟩ := taken
    exact follows_link writes answers rfl ⟨rfl, rfl, rfl, rfl⟩
  | connect2raftnode | sendRPC =>
    simp only [step, Option.ite_none_right_eq_some, Option.bind_eq_bind, Option.bind_eq_some_iff,
      Option.some.injEq] at taken
    obtain ⟨-, link, moved, rfl⟩ := taken
    exact follows_link writes answers ((link_step moved).1 (by simp)) ⟨rfl, rfl, rfl, rfl⟩
  | arrive n =>
    simp only [step, Option.bind_eq_bind, Option.bind_eq_some_iff, Option.some.injEq] at taken
    obtain ⟨link, moved, rfl⟩ := taken
    exact follows_link writes answers ((link_step moved).1 (by simp)) ⟨rfl, rfl, rfl, rfl⟩
  | recv stack => exact follows_recv ships writes answers taken
  | connectNotifier => exact follows_connectNotifier writes answers taken
  | logReceived e => exact follows_logReceived writes answers taken
  | sendAck rae => exact follows_sendAck writes answers taken
  | arriveAck n | recvAck =>
    simp only [step, Option.bind_eq_bind, Option.bind_eq_some_iff, Option.some.injEq] at taken
    obtain ⟨reply, moved, rfl⟩ := taken
    exact ⟨fs, done, _, writes.frame rfl rfl rfl rfl, answers.moved moved rfl (by simp) rfl⟩

end Follows

def Kept (ch : Channel) (own es old : List EntryImage) (disk : CInt → List Byte) (s : Wire) : Prop :=
  ∃ tr fs done btr, Ships ch own es tr s ∧ Writes ch disk old fs done s ∧ Answers ch done btr s

private theorem kept_start (stack : Nat → Fin sizeofEntry → Byte) (logBuffer : Requests)
    (whole : disk ch.workerId = EntryImage.encodeAll old) : Kept ch own [] old disk
      (start (LogFile.ofBytes stack (EntryImage.encodeAll own)) logBuffer disk) := by
  refine ⟨[], [], [], [], ⟨?_, .start, rfl, ?_, ?_⟩, ⟨rfl, .nil, ?_, fun _ _ => rfl, ?_, ?_⟩,
    ⟨.start, rfl, ?_, ?_⟩⟩
  · simp [start]
  · intro arpc member
    cases member
  · simp [start]
  · simpa [start] using whole
  · simp [start]
  · simp [unwritten, start]
  · simp [start, Link.start]
  · simp [unwritten, unanswered, start]

private theorem kept_step (kept : Kept ch own es old disk s) (taken : step ch s a = some t) :
    ∃ es', Kept ch own es' old disk t ∧ (Later a → es' = es) := by
  obtain ⟨tr, fs, done, btr, ships, writes, answers⟩ := kept
  obtain ⟨es', tr', ships', later⟩ := ships_step ships taken
  obtain ⟨fs', done', btr', writes', answers'⟩ := follows_step ships writes answers taken
  exact ⟨es', ⟨tr', fs', done', btr', ships', writes', answers'⟩, later⟩

end Steps

section Rest

variable {s t : Wire} {own es old fs : List EntryImage} {disk : CInt → List Byte}
  {tr : List (LinkAct .logReceiver)} {btr : List (LinkAct .notifier)}
  {done : List AppendEntriesImage}

/-- Nothing is left to be sent, delivered, read, written or acknowledged. -/
structure AtRest (ch : Channel) (s : Wire) : Prop where
  unsent : s.unsent = false
  flight : s.link.pipe.flight = []
  reads : s.reads = true
  waits : s.link.recv ch.conn = none
  flight' : s.reply.pipe.flight = []
  waits' : s.reply.recv ch.back = none

def rank : ReceiverPc → Nat
  | .connect2raftnode => 1
  | .recv => 0
  | .loggingWork _ => 2
  | .sendRPC _ => 1

def busy (s : Wire) : Nat ×ₗ Nat ×ₗ Nat :=
  toLex ((if s.unsent then 2 else 0) + (if s.link.connected then 0 else 1),
    toLex (4 * s.link.pipe.unread.length + rank s.pc + s.link.pipe.flight.length,
      s.reply.pipe.unread.length + s.reply.pipe.flight.length))

private theorem recv_less {conn : Connection} {sv : Service} {ltr : List (LinkAct sv)} {l l' : Link}
    (run : Run (Steps (Link.step conn)) Link.start ltr l) (read : l.recv conn = some l') :
    l'.pipe.unread.length < l.pipe.unread.length ∧ l'.pipe.flight = l.pipe.flight := by
  obtain ⟨handled, queue, stage, -, -⟩ := Link.run_stage run
  obtain ⟨-, flight, shorter, -⟩ := stage.recv read
  exact ⟨shorter, flight⟩

def zeroPacket : AppendEntriesImage := appendEntriesLayout.symm (fun _ => 0)

def zeroAck : ResponseImage := responseLayout.symm (fun _ => 0)

private theorem connect_ready {conn : Connection} {sv : Service} {l : Link}
    (fresh : l.connected = false) :
    ∃ l', l.step conn (.connect2raftnode : LinkAct sv) = some l' := by
  rw [Link.step, fresh]
  exact ⟨_, rfl⟩

private theorem sendRPC_ready {conn : Connection} {sv : Service} {l : Link}
    (connected : l.connected = true)
    (m : sv.Payload) : ∃ l', l.step conn (.sendRPC m) = some l' := by
  rw [Link.step, connected]
  exact ⟨_, rfl⟩

theorem worker_next (unsent : s.unsent = true) :
    ∃ a t, step ch s a = some t ∧ Later a ∧ t.busy < s.busy := by
  cases connected : s.link.connected with
  | true =>
    obtain ⟨link, moved⟩ := @sendRPC_ready ch.conn .logReceiver _ connected
      (zeroPacket.arpcByFields ch.currentTerm ch.me 0 (ch.currentTerm - 1) 0 s.logBuffer s.nlog s.lsn
        ch.workerId ch.followerNodeId)
    refine ⟨.sendRPC zeroPacket 0 0, { s with link := link, unsent := false }, ?_, trivial, ?_⟩
    · simp only [step, unsent, if_true, moved]
      rfl
    · refine Prod.Lex.toLex_lt_toLex.mpr (.inl ?_)
      simp [unsent, connected, (link_step moved).2]
  | false =>
    obtain ⟨link, moved⟩ := @connect_ready ch.conn .logReceiver _ connected
    refine ⟨.connect2raftnode, { s with link := link }, ?_, trivial, ?_⟩
    · simp only [step, unsent, if_true, moved]
      rfl
    · refine Prod.Lex.toLex_lt_toLex.mpr (.inl ?_)
      simp [unsent, connected, (link_step moved).2]

/-- A step that leaves the worker alone brings the rest nearer to its end where it uses up bytes or
calls of the receiver. -/
theorem busy_receiver (worker : t.unsent = s.unsent) (connected : t.link.connected = s.link.connected)
    (less : 4 * t.link.pipe.unread.length + rank t.pc + t.link.pipe.flight.length <
      4 * s.link.pipe.unread.length + rank s.pc + s.link.pipe.flight.length) : t.busy < s.busy := by
  refine Prod.Lex.toLex_lt_toLex.mpr (.inr ⟨?_, Prod.Lex.toLex_lt_toLex.mpr (.inl less)⟩)
  rw [worker, connected]

private theorem link_arrives (flying : s.link.pipe.flight ≠ []) :
    ∃ a t, step ch s a = some t ∧ Later a ∧ t.busy < s.busy := by
  refine ⟨.arrive s.link.pipe.flight.length, _, rfl, trivial, busy_receiver rfl rfl ?_⟩
  have some' := List.length_pos_iff.mpr flying
  simp only [Lib.Pipe.unread_arrive, Lib.Pipe.flight_arrive_all, List.length_nil]
  omega

private theorem receiver_reads (ships : Ships ch own es tr s) (reads : s.reads = true)
    (ready : s.link.recv ch.conn ≠ none) :
    ∃ a t, step ch s a = some t ∧ Later a ∧ t.busy < s.busy := by
  obtain ⟨link, read⟩ := Option.ne_none_iff_exists'.mp ready
  obtain ⟨shorter, flight⟩ := recv_less ships.run read
  have moved : s.link.step ch.conn (.recv : LinkAct .logReceiver) = some link := read
  have low : rank s.pc ≤ 2 := by cases s.pc <;> simp [rank]
  rcases received_spec ships.run read with ⟨no, -⟩ | ⟨-, arpc, -, yes, -⟩
  · refine ⟨.recv (fun _ _ => 0), { s with link := link }, ?_, trivial,
      busy_receiver rfl (recv_spec read).1 ?_⟩
    · simp only [step, reads, if_true, moved, Option.bind_eq_bind, Option.bind_some, no]
    · simp only [flight]
      omega
  · refine ⟨.recv (fun _ _ => 0), { s with
        link := link
        pc := .loggingWork arpc
        log := some (s.openLog (fun _ _ => 0) arpc.workerId) }, ?_, trivial,
      busy_receiver rfl (recv_spec read).1 ?_⟩
    · simp only [step, reads, if_true, moved, Option.bind_eq_bind, Option.bind_some, yes]
    · simp only [flight, rank]
      omega

private theorem receiver_next (writes : Writes ch disk old fs done s)
    (answers : Answers ch done btr s)
    (elsewhere : s.reads = false) :
    ∃ a t, step ch s a = some t ∧ Later a ∧ t.busy < s.busy := by
  cases here : s.pc with
  | connect2raftnode =>
    have thread : s.link.reader.thread?.isSome = true := by
      simpa [Wire.reads, here] using elsewhere
    have fresh : s.reply.connected = false := by
      have none := answers.connected
      simpa [here] using none
    obtain ⟨reply, moved⟩ := @connect_ready ch.back .notifier _ fresh
    refine ⟨.connectNotifier, { s with reply := reply, pc := .recv }, ?_, trivial, ?_⟩
    · simp only [step, here, thread, if_true, moved]
      rfl
    · refine busy_receiver rfl rfl ?_
      simp [rank, here]
  | recv => simp [Wire.reads, here] at elsewhere
  | loggingWork arpc =>
    have proper := answers.proper arpc (by simp [unwritten, here])
    obtain ⟨⟨id, log⟩, opened⟩ := Option.ne_none_iff_exists'.mp
      (writes.opened (by simp [unwritten, here]))
    obtain ⟨e, logged⟩ := proper.sound.logs (entryLayout.symm (fun _ => 0))
    refine ⟨.logReceived (entryLayout.symm (fun _ => 0)), { s with
        log := some (id, log.addEntry e)
        disk := Function.update s.disk id (log.addEntry e).bytes
        pc := .sendRPC arpc }, ?_, trivial, ?_⟩
    · simp only [step, here, opened, logged]
      rfl
    · refine busy_receiver rfl rfl ?_
      simp [rank, here]
  | sendRPC arpc =>
    have connected : s.reply.connected = true := answers.connected.mpr (by simp [here])
    obtain ⟨reply, moved⟩ := @sendRPC_ready ch.back .notifier _ connected
      (zeroAck.raeByFields ch.followerTerm true arpc.lsn arpc.workerId arpc.rNodeId)
    refine ⟨.sendAck zeroAck, { s with reply := reply, pc := .recv }, ?_, trivial, ?_⟩
    · simp only [step, here, moved]
      rfl
    · refine busy_receiver rfl rfl ?_
      simp [rank, here]

private theorem notifier_next (answers : Answers ch done btr s)
    (left : s.reply.pipe.flight ≠ [] ∨ s.reply.recv ch.back ≠ none) :
    ∃ a t, step ch s a = some t ∧ Later a ∧ t.busy < s.busy := by
  rcases left with flying | ready
  · refine ⟨.arriveAck s.reply.pipe.flight.length, _, rfl, trivial, ?_⟩
    have some' := List.length_pos_iff.mpr flying
    refine Prod.Lex.toLex_lt_toLex.mpr (.inr ⟨rfl, Prod.Lex.toLex_lt_toLex.mpr (.inr ⟨rfl, ?_⟩)⟩)
    simp only [Lib.Pipe.unread_arrive, Lib.Pipe.flight_arrive_all, List.length_nil]
    omega
  · obtain ⟨reply, read⟩ := Option.ne_none_iff_exists'.mp ready
    obtain ⟨shorter, flight⟩ := recv_less answers.run read
    have moved : s.reply.step ch.back (.recv : LinkAct .notifier) = some reply := read
    refine ⟨.recvAck, { s with reply := reply }, by simp [step, moved], trivial, ?_⟩
    refine Prod.Lex.toLex_lt_toLex.mpr (.inr ⟨rfl, Prod.Lex.toLex_lt_toLex.mpr (.inr ⟨rfl, ?_⟩)⟩)
    simp only [flight]
    omega

private theorem one_next (kept : Kept ch own es old disk s) (moving : ¬ AtRest ch s) :
    ∃ a t, step ch s a = some t ∧ Later a ∧ t.busy < s.busy := by
  obtain ⟨tr, fs, done, btr, ships, writes, answers⟩ := kept
  by_cases unsent : s.unsent = true
  · exact worker_next unsent
  by_cases flight : s.link.pipe.flight = []
  · by_cases reads : s.reads = true
    · by_cases waits : s.link.recv ch.conn = none
      · refine notifier_next answers ?_
        by_contra quiet
        obtain ⟨flight', waits'⟩ := not_or.mp quiet
        exact moving ⟨by simpa using unsent, flight, reads, waits, not_not.mp flight',
          not_not.mp waits'⟩
      · exact receiver_reads ships reads waits
    · exact receiver_next writes answers (by simpa using reads)
  · exact link_arrives flight

private theorem rests (kept : Kept ch own es old disk s) :
    ∃ more t, Run (Steps (step ch)) s more t ∧ (∀ a ∈ more, Later a) ∧
      Kept ch own es old disk t ∧ AtRest ch t := by
  refine Run.calm busy (fun s kept moving => ?_) kept
  obtain ⟨a, t, taken, later, less⟩ := one_next kept moving
  obtain ⟨es', kept', same⟩ := kept_step kept taken
  obtain rfl := same later
  exact ⟨[a], t, .next .start taken, by simpa using later, kept', less⟩

end Rest

section Replication

variable {s : Wire} {own es old : List EntryImage} {disk : CInt → List Byte} {tr : List WireAct}

/-- The files of both sides, read back: behind what they held before, that of the worker holds `es`
and that of the follower `fs`, whose entries are the first ones of the worker, up to their times and
what lies behind their requests. The notifier has handled `as`, the acknowledgements of the first
entries of the follower. -/
structure Replicated (ch : Channel) (own old es fs : List EntryImage) (as : List ResponseImage)
    (disk : CInt → List Byte) (s : Wire) : Prop where
  leader : ∀ stack, (LogFile.ofBytes stack s.leader.bytes).entry = own ++ es
  follower : ∀ stack, (LogFile.ofBytes stack (s.disk ch.workerId)).entry = old ++ fs
  others : ∀ id, id ≠ ch.workerId → s.disk id = disk id
  entries : fs.map (fun f => f.entry.shared) <+: es.map (fun e => e.entry.shared)
  handled : s.reply.handled = @Link.addressed .notifier as
  answers : as.map answerOf <+: fs.map (fun f => answer ch f.lsn)

/-- The follower has all entries, and the notifier all acknowledgements. -/
structure Complete (ch : Channel) (es fs : List EntryImage) (as : List ResponseImage) : Prop where
  entries : fs.map (fun f => f.entry.shared) = es.map (fun e => e.entry.shared)
  answers : as.map answerOf = fs.map (fun f => answer ch f.lsn)

private theorem addressed_inj {sv : Service} {ms ms' : List sv.Payload}
    (same : Link.addressed ms = Link.addressed ms') : ms = ms' :=
  List.map_injective_iff.mpr (fun _ _ same => eq_of_heq (Sigma.mk.inj same).2) same

private theorem logged_shared {done : List AppendEntriesImage} {fs : List EntryImage}
    (logged : List.Forall₂ Logs done fs) (ch : Channel) :
    fs.map (fun f => f.entry.shared) = done.map AppendEntriesImage.shared ∧
      fs.map (fun f => answer ch f.lsn) = done.map (fun arpc => answer ch arpc.lsn) := by
  induction logged with
  | nil => exact ⟨rfl, rfl⟩
  | cons one _ ih =>
    obtain ⟨shared, lsn⟩ := one.same
    simp only [List.map_cons, ih.1, ih.2, shared, lsn, and_self]

private theorem packets_run {conn : Connection} {ltr : List (LinkAct .logReceiver)} {l : Link}
    (run : Run (Steps (Link.step conn)) Link.start ltr l) :
    ∃ ms queue : List AppendEntriesImage, l.handled = @Link.addressed .logReceiver ms ∧
      packets ltr = ms ++ queue := by
  obtain ⟨ms, queue, -, got, sent⟩ := Link.run_stage run
  exact ⟨ms, queue, got, sent⟩

private theorem acks_run {conn : Connection} {ltr : List (LinkAct .notifier)} {l : Link}
    (run : Run (Steps (Link.step conn)) Link.start ltr l) :
    ∃ as later : List ResponseImage, l.handled = @Link.addressed .notifier as ∧
      acks ltr = as ++ later := by
  obtain ⟨as, later, -, got, sent⟩ := Link.run_stage run
  exact ⟨as, later, got, sent⟩

private theorem Kept.replicated (kept : Kept ch own es old disk s) :
    ∃ fs as, Replicated ch own old es fs as disk s ∧
      (ch.conn.known ch.conn.listenPort = true → ch.back.known ch.back.listenPort = true →
        AtRest ch s → Complete ch es fs as) := by
  obtain ⟨tr, fs, done, btr, ships, writes, answers⟩ := kept
  obtain ⟨as, later, got, sent⟩ := acks_run answers.run
  obtain ⟨handled, queue, got', sent'⟩ := packets_run ships.run
  obtain ⟨shared, lsns⟩ := logged_shared writes.logged ch
  have read : done ++ s.unwritten = handled := addressed_inj (writes.handled.symm.trans got')
  refine ⟨fs, as, ⟨fun stack => ?_, fun stack => ?_, writes.others, ?_, got, ?_⟩, ?_⟩
  · rw [ships.file, LogFile.entry_ofBytes_whole]
  · rw [writes.file, LogFile.entry_ofBytes_whole]
  · rw [shared, ships.sent, sent', ← read, List.append_assoc, List.map_append, List.append_assoc]
    exact List.prefix_append _ _
  · rw [lsns, answers.sent, sent, List.map_append, List.append_assoc]
    exact List.prefix_append _ _
  · intro known known' rest
    have whole := (Link.decoded_of_known known ships.run).quiet rest.flight rest.waits
    have whole' := (Link.decoded_of_known known' answers.run).quiet rest.flight' rest.waits'
    have idle : s.unwritten = [] ∧ s.unanswered = [] := by
      have reads := rest.reads
      cases here : s.pc <;> simp [Wire.reads, unwritten, unanswered, here] at reads ⊢
    have all : packets tr = done ++ s.unwritten := addressed_inj (whole.symm.trans writes.handled)
    have all' : acks btr = as := addressed_inj (whole'.symm.trans got)
    refine ⟨?_, ?_⟩
    · rw [shared, ships.sent, all, idle.1, unsentBatch, rest.unsent]
      simp
    · rw [lsns, answers.sent, all', idle.2]
      simp

/-- The batches of a worker reach the log file of a follower as the worker wrote them into its own. -/
theorem log_replicated (stack : Nat → Fin sizeofEntry → Byte) (logBuffer : Requests)
    (known : ch.conn.known ch.conn.listenPort = true)
    (known' : ch.back.known ch.back.listenPort = true)
    (whole : disk ch.workerId = EntryImage.encodeAll old)
    (run : Run (Steps (step ch))
      (start (LogFile.ofBytes stack (EntryImage.encodeAll own)) logBuffer disk) tr s) :
    ∃ es fs as, Replicated ch own old es fs as disk s ∧ (AtRest ch s → Complete ch es fs as) ∧
      ∃ more t fs' as', Run (Steps (step ch)) s more t ∧ (∀ a ∈ more, Later a) ∧
        Replicated ch own old es fs' as' disk t ∧ Complete ch es fs' as' := by
  have kept : ∃ es, Kept ch own es old disk s := by
    refine run.invariant (I := fun _ s => ∃ es, Kept ch own es old disk s)
      ⟨[], kept_start stack logBuffer whole⟩ ?_
    rintro tr s a t - ⟨es, kept⟩ taken
    obtain ⟨es', kept', -⟩ := kept_step kept taken
    exact ⟨es', kept'⟩
  obtain ⟨es, kept⟩ := kept
  obtain ⟨fs, as, replicated, complete⟩ := kept.replicated
  obtain ⟨more, t, run', later, kept', rest⟩ := rests kept
  obtain ⟨fs', as', replicated', complete'⟩ := kept'.replicated
  exact ⟨es, fs, as, replicated, complete known known', more, t, fs', as', run', later, replicated',
    complete' known known' rest⟩

section Example

def twoHosts : List NodeConf :=
  [⟨[49, 48, 46, 48, 46, 48, 46, 49], 51111⟩, ⟨[49, 48, 46, 48, 46, 48, 46, 50], 51112⟩]

def firstToSecond : Channel where
  conn := ⟨twoHosts, ⟨0, by decide⟩, ⟨1, by decide⟩, by decide, [49, 48, 46, 48, 46, 48, 46, 49],
    fun _ _ => 0⟩
  back := ⟨twoHosts, ⟨1, by decide⟩, ⟨0, by decide⟩, by decide, [49, 48, 46, 48, 46, 48, 46, 50],
    fun _ _ => 0⟩
  workerId := 0
  me := 0
  currentTerm := 1
  followerNodeId := 1
  followerTerm := 1

def someRequests : Requests := fun i => ⟨0, 0, 0, 1, 5, BitVec.ofNat 32 i⟩

def emptyWire : Wire :=
  start (LogFile.ofBytes (fun _ _ => 0) (EntryImage.encodeAll [])) someRequests (fun _ => [])

def twoLogged : EntryImage :=
  { (entryLayout.symm (fun _ => 0) : EntryImage) with
    lsn := 0
    term := 1
    nlog := 2
    xactSet := copyRequests someRequests 2 (entryLayout.symm (fun _ => 0)).xactSet }

def twoRequests : List WireAct := [.loggingWork (entryLayout.symm (fun _ => 0)) someRequests 2 0]

private theorem run_twoRequests : Run (Steps (step firstToSecond)) emptyWire twoRequests
    { emptyWire with
      leader := emptyWire.leader.addEntry twoLogged
      logBuffer := someRequests
      nlog := 2
      lsn := 0
      unsent := true } :=
  .next .start rfl

/-- The log file of the follower gets them, and their entry is acknowledged. -/
theorem log_replicated_two : ∃ more t f as,
    Run (Steps (step firstToSecond)) emptyWire (twoRequests ++ more) t ∧
      (∀ stack, (LogFile.ofBytes stack (t.disk 0)).entry = [f]) ∧
      f.entry.shared = batchOf 0 1 2 someRequests ∧
      t.reply.handled = @Link.addressed .notifier as ∧
      as.map answerOf = [answer firstToSecond f.lsn] := by
  have none : (fun _ => [] : CInt → List Byte) firstToSecond.workerId = EntryImage.encodeAll [] := rfl
  obtain ⟨es, _, _, replicated, -, more, t, fs, as, run, -, replicated', complete⟩ :=
    log_replicated (fun _ _ => 0) someRequests (by decide) (by decide) none run_twoRequests
  have one : es = [twoLogged] := by
    have loaded := replicated.leader (fun _ _ => 0)
    have bytes : (emptyWire.leader.addEntry twoLogged).bytes = EntryImage.encodeAll [twoLogged] := by
      simp [emptyWire, start, LogFile.addEntry, EntryImage.encodeAll]
    rw [bytes, LogFile.entry_ofBytes_whole] at loaded
    exact loaded.symm
  subst one
  obtain ⟨f, rest, rfl, shared, empty⟩ := List.map_eq_cons_iff.mp complete.entries
  obtain rfl := List.map_eq_nil_iff.mp empty
  have logged : twoLogged.entry.shared = batchOf 0 1 2 someRequests := by
    rw [shared_entry, twoLogged, batchOf_copyRequests]
  exact ⟨more, t, f, as, run_twoRequests.trans run, replicated'.follower, shared.trans logged,
    replicated'.handled, complete.answers⟩

end Example

end Replication

end Wire

end Raft2pl.Server
