/- raft.cc and rpc.cc on bytes: the messages between two nodes, from connect2raftnode and sendRPC
through the receiver thread to the thread that serves the connection. -/

import Raft2pl.Server.ConfigFile
import Raft2pl.Server.LogFile
import Raft2pl.Lib.Pipe
import Raft2pl.Lib.Run

set_option autoImplicit false
set_option relaxedAutoImplicit false

namespace Raft2pl.Server

open Lib (Layout Pipe Run Steps copyOver copyOver_ofFn)

/-- `RPCKind`. -/
inductive RPCKind
  | none
  | notifyPort
  | appendEntries
  | requestVote
  | responseAppendEntries
  | responseRequestVote
  | requestLocation
  | responseRequestLocation
  | clientCommand
  | commitMessage
  | clientExit
  | byeFromRaft
  | connectNotifier
  deriving DecidableEq

/-- The value of an enumerator. -/
def RPCKind.code : RPCKind → CInt
  | none => 0
  | notifyPort => 1
  | appendEntries => 10
  | requestVote => 11
  | responseAppendEntries => 12
  | responseRequestVote => 13
  | requestLocation => 14
  | responseRequestLocation => 15
  | clientCommand => 16
  | commitMessage => 17
  | clientExit => 18
  | byeFromRaft => 19
  | connectNotifier => 20

/-- `HEADER`. -/
structure Header where
  kind : CInt
  size : BitVec 32
  deriving DecidableEq

/-- `append_entries_rpc` as it lies in memory. -/
structure AppendEntriesImage where
  rpcKind : CInt
  term : CInt
  leaderId : CInt
  prevLogIndex : CInt
  prevLogTerm : CInt
  leaderCommit : CInt
  lsn : CInt
  log : Fin maxGroupEntry → TransReqImage
  szLog : CInt
  workerId : CInt
  rNodeId : CInt

/-- `response_append_entries` as it lies in memory, with the padding behind `success`. -/
structure ResponseImage where
  rpcKind : CInt
  term : CInt
  success : Fin 1 → Byte
  padding : Fin 3 → Byte
  lsn : BitVec 32
  workerId : CInt
  rNodeId : CInt

section Layouts

/-- `sizeof(HEADER)`. -/
def sizeofHeader : Nat := 4 + 4

def sizeofAppendEntries : Nat :=
  4 + (4 + (4 + (4 + (4 + (4 + (4 + (maxGroupEntry * sizeofTransReq + (4 + (4 + 4)))))))))

def sizeofResponse : Nat := 4 + (4 + (1 + (3 + (4 + (4 + 4)))))

def bytesLayout (n : Nat) : Layout Byte (Fin n → Byte) n := Equiv.refl _

def headerLayout : Layout Byte Header sizeofHeader :=
  Equiv.trans ⟨fun h => (h.kind, h.size), fun t => ⟨t.1, t.2⟩, fun _ => rfl, fun _ => rfl⟩
    (Layout.pair intLayout intLayout)

def appendEntriesLayout : Layout Byte AppendEntriesImage sizeofAppendEntries :=
  Equiv.trans ⟨fun a => (a.rpcKind, a.term, a.leaderId, a.prevLogIndex, a.prevLogTerm, a.leaderCommit,
        a.lsn, a.log, a.szLog, a.workerId, a.rNodeId),
      fun t => ⟨t.1, t.2.1, t.2.2.1, t.2.2.2.1, t.2.2.2.2.1, t.2.2.2.2.2.1, t.2.2.2.2.2.2.1,
        t.2.2.2.2.2.2.2.1, t.2.2.2.2.2.2.2.2.1, t.2.2.2.2.2.2.2.2.2.1, t.2.2.2.2.2.2.2.2.2.2⟩,
      fun _ => rfl, fun _ => rfl⟩
    (Layout.pair intLayout (Layout.pair intLayout (Layout.pair intLayout (Layout.pair intLayout
      (Layout.pair intLayout (Layout.pair intLayout (Layout.pair intLayout
        (Layout.pair (Layout.array maxGroupEntry transReqLayout)
          (Layout.pair intLayout (Layout.pair intLayout intLayout))))))))))

def responseLayout : Layout Byte ResponseImage sizeofResponse :=
  Equiv.trans ⟨fun r => (r.rpcKind, r.term, r.success, r.padding, r.lsn, r.workerId, r.rNodeId),
      fun t => ⟨t.1, t.2.1, t.2.2.1, t.2.2.2.1, t.2.2.2.2.1, t.2.2.2.2.2.1, t.2.2.2.2.2.2⟩,
      fun _ => rfl, fun _ => rfl⟩
    (Layout.pair intLayout (Layout.pair intLayout (Layout.pair (bytesLayout 1)
      (Layout.pair (bytesLayout 3) (Layout.pair intLayout (Layout.pair intLayout intLayout))))))

end Layouts

/-- `RaftNode`. -/
structure RaftNode where
  hostname : List Byte
  listenPort : CInt
  isMe : Bool

/-- `Raft::setRaftNodesByConfig` at node number `me`. -/
def setRaftNodesByConfig (nodes : List NodeConf) (me : Nat) : List RaftNode :=
  nodes.mapIdx (fun i h => ⟨h.hostname, h.port, decide (i = me)⟩)

/-- The kinds that `printRPC` knows; for another one it ends the process. -/
def printRPC (kind : CInt) : Bool :=
  [RPCKind.notifyPort, .appendEntries, .requestVote, .responseAppendEntries, .responseRequestVote,
    .requestLocation, .responseRequestLocation, .clientCommand, .commitMessage].any
    (fun k => k.code == kind)

/-- The threads that the receiver starts for connections of other nodes. -/
inductive Service
  | logReceiver
  | notifier
  deriving DecidableEq

namespace Service

def kind : Service → RPCKind
  | logReceiver => .appendEntries
  | notifier => .responseAppendEntries

def Payload : Service → Type
  | logReceiver => AppendEntriesImage
  | notifier => ResponseImage

def size : Service → Nat
  | logReceiver => sizeofAppendEntries
  | notifier => sizeofResponse

def layout : (sv : Service) → Layout Byte sv.Payload sv.size
  | logReceiver => appendEntriesLayout
  | notifier => responseLayout

/-- Whether a thread handles a message under this header, or `none` where it ends the process:
`logReceiver` does not look at the header, and `notifier` prints its kind first. -/
def handles (header : Header) : Service → Option Bool
  | logReceiver => some true
  | notifier =>
      if printRPC header.kind then some (decide (header.kind = RPCKind.responseAppendEntries.code))
      else Option.none

def header (sv : Service) : Header := ⟨sv.kind.code, .ofNat 32 sv.size⟩

end Service

/-- A message with the thread that got it. -/
abbrev Message := (sv : Service) × sv.Payload

/-- Where a connection is read: by the receiver at `retry`, or by the thread it was handed to, which
waits for a payload or for a header. `other` is a connection that no such thread reads, and `exited`
a process that ended. `port` is what the receiver had in `port`. -/
inductive Reader
  | receiver (port : CInt)
  | payload (port : CInt) (sv : Service) (buf : Fin sv.size → Byte) (header : Header)
  | header (port : CInt) (sv : Service) (buf : Fin sv.size → Byte)
  | other
  | exited

namespace Reader

def thread? : Reader → Option (CInt × Service)
  | payload port sv _ _ => some (port, sv)
  | header port sv _ => some (port, sv)
  | _ => Option.none

def atHeader : Reader → Prop
  | header _ _ _ => True
  | _ => False

end Reader

/-- A connection from one node of a configuration to another: `addr` is the address of the sender as
`inet_ntoa` writes it for the receiver, and `stack` what the buffer of a new thread holds. -/
structure Connection where
  nodes : List NodeConf
  sender : Fin nodes.length
  receiver : Fin nodes.length
  apart : sender ≠ receiver
  addr : List Byte
  stack : (sv : Service) → Fin sv.size → Byte

namespace Connection

variable (conn : Connection)

def listenPort : CInt := conn.nodes[conn.sender].port

/-- Some other node has the address of the connection and the port. -/
def known (port : CInt) : Bool :=
  (setRaftNodesByConfig conn.nodes conn.receiver).any
    (fun n => !n.isMe && conn.addr == n.hostname && port == n.listenPort)

/-- What the loop of `Raft::receiver` does with a header. -/
def receive (port : CInt) (header : Header) : Reader :=
  if printRPC header.kind = false then .exited
  else if header.kind = RPCKind.notifyPort.code then .receiver header.size
  else if header.kind = RPCKind.requestLocation.code then .other
  else if header.kind = RPCKind.clientCommand.code then .exited
  else if header.kind = RPCKind.requestVote.code then .other
  else if header.kind = RPCKind.responseAppendEntries.code then
    if conn.known port then .payload port .notifier (conn.stack .notifier) header else .other
  else if header.kind = RPCKind.appendEntries.code then
    if conn.known port then .payload port .logReceiver (conn.stack .logReceiver) header else .other
  else .other

end Connection

/-- A connection in use, with the messages that its thread has handled. -/
structure Link where
  connected : Bool
  pipe : Pipe Byte
  reader : Reader
  handled : List Message

/-- What can happen on a connection with messages for one kind of thread. -/
inductive LinkAct (sv : Service)
  | connect2raftnode
  | sendRPC (m : sv.Payload)
  | arrive (n : Nat)
  | recv

namespace Link

def headerBytes (h : Header) : List Byte := List.ofFn (headerLayout h)

def headerOf (bs : List Byte) : Header := headerLayout.symm (copyOver bs (fun _ => 0))

def payloadBytes {sv : Service} (m : sv.Payload) : List Byte := List.ofFn (sv.layout m)

/-- The bytes that `sendRPC` sends. -/
def frame {sv : Service} (m : sv.Payload) : List Byte := headerBytes sv.header ++ payloadBytes m

/-- The bytes that `connect2raftnode` sends. -/
def notify (port : CInt) : List Byte := headerBytes ⟨RPCKind.notifyPort.code, port⟩

variable (conn : Connection) {sv : Service}

def recv (l : Link) : Option Link :=
  match l.reader with
  | .receiver port => do
      let (bs, pipe) ← l.pipe.recv sizeofHeader
      some { l with pipe := pipe, reader := conn.receive port (headerOf bs) }
  | .header port sv buf => do
      let (bs, pipe) ← l.pipe.recv sizeofHeader
      some { l with pipe := pipe, reader := .payload port sv buf (headerOf bs) }
  | .payload port sv buf header => do
      let (bs, pipe) ← l.pipe.recv header.size.toNat
      -- more than the buffer has room for
      if sv.size < header.size.toNat then some { l with pipe := pipe, reader := .exited }
      else match sv.handles header with
        | none => some { l with pipe := pipe, reader := .exited }
        | some handled => some {
            connected := l.connected
            pipe := pipe
            reader := .header port sv (copyOver bs buf)
            handled := l.handled ++ if handled then [⟨sv, sv.layout.symm (copyOver bs buf)⟩] else [] }
  | .other => none
  | .exited => none

def step (l : Link) : LinkAct sv → Option Link
  | .connect2raftnode =>
      if l.connected then none
      else some { l with connected := true, pipe := l.pipe.send (notify conn.listenPort) }
  | .sendRPC m => if l.connected then some { l with pipe := l.pipe.send (frame m) } else none
  | .arrive n => some { l with pipe := l.pipe.arrive n }
  | .recv => l.recv conn

def start : Link := ⟨false, .fresh, .receiver 0, []⟩

end Link

namespace LinkAct

variable {sv : Service}

def sent? : LinkAct sv → Option sv.Payload
  | sendRPC m => some m
  | _ => none

def Receives : LinkAct sv → Prop
  | arrive _ => True
  | recv => True
  | _ => False

end LinkAct

namespace Link

variable {sv : Service}

def sent (tr : List (LinkAct sv)) : List sv.Payload := tr.filterMap LinkAct.sent?

theorem sent_append (tr : List (LinkAct sv)) (a : LinkAct sv) :
    sent (tr ++ [a]) = sent tr ++ a.sent?.toList := by
  cases message : a.sent? <;> simp [sent, List.filterMap_append, message]

/-- Messages with the thread that they are for. -/
def addressed (ms : List sv.Payload) : List Message := ms.map (fun m => ⟨sv, m⟩)

def frames (ms : List sv.Payload) : List Byte := ms.flatMap frame

section Bytes

@[simp] theorem length_headerBytes (h : Header) : (headerBytes h).length = sizeofHeader :=
  List.length_ofFn

@[simp] theorem length_payloadBytes (m : sv.Payload) : (payloadBytes m).length = sv.size :=
  List.length_ofFn

@[simp] theorem headerOf_headerBytes (h : Header) : headerOf (headerBytes h) = h := by
  rw [headerOf, headerBytes, copyOver_ofFn, Equiv.symm_apply_apply]

private theorem payload_copied (m : sv.Payload) (buf : Fin sv.size → Byte) :
    sv.layout.symm (copyOver (payloadBytes m) buf) = m := by
  rw [payloadBytes, copyOver_ofFn, Equiv.symm_apply_apply]

private theorem size_header (sv : Service) : sv.header.size.toNat = sv.size := by
  cases sv <;> decide

private theorem handles_header (sv : Service) : sv.handles sv.header = some true := by
  cases sv <;> decide

private theorem frames_cons (m : sv.Payload) (ms : List sv.Payload) :
    frames (m :: ms) = headerBytes sv.header ++ (payloadBytes m ++ frames ms) := by
  simp [frames, frame]

private theorem frames_append (ms : List sv.Payload) (m : sv.Payload) :
    frames (ms ++ [m]) = frames ms ++ frame m := by
  simp [frames]

private theorem recv_frames {p p' : Pipe Byte} {ms : List sv.Payload} {bs : List Byte}
    (read : p.recv sizeofHeader = some (bs, p')) (unread : p.unread = frames ms) :
    ∃ m rest, ms = m :: rest ∧ bs = headerBytes sv.header ∧
      p'.unread = payloadBytes m ++ frames rest ∧ p'.flight = p.flight := by
  cases ms with
  | nil =>
    have shorter := Pipe.recv_shorter read (by decide)
    rw [unread] at shorter
    exact absurd shorter (Nat.not_lt_zero _)
  | cons m rest =>
    rw [frames_cons] at unread
    exact ⟨m, rest, rfl, Pipe.recv_first read unread (length_headerBytes _)⟩

private theorem recv_frames_none {p : Pipe Byte} {ms : List sv.Payload} (arrived : p.flight = [])
    (unread : p.unread = frames ms) (waits : ∀ bs p', p.recv sizeofHeader ≠ some (bs, p')) :
    ms = [] := by
  cases ms with
  | nil => rfl
  | cons m rest =>
    rw [frames_cons] at unread
    obtain ⟨p', read⟩ := Pipe.recv_of_unread arrived unread (length_headerBytes _)
    exact absurd read (waits _ p')

end Bytes

section Receive

variable (conn : Connection)

private theorem receive_notify (port port' : CInt) :
    conn.receive port ⟨RPCKind.notifyPort.code, port'⟩ = .receiver port' := rfl

private theorem receive_header (port : CInt) (sv : Service) : conn.receive port sv.header =
    if conn.known port then .payload port sv (conn.stack sv) sv.header else .other := by
  cases sv <;> rfl

private theorem known_of_addr (addr : conn.addr = conn.nodes[conn.sender].hostname) :
    conn.known conn.listenPort = true := by
  have apart : conn.sender.val ≠ conn.receiver.val := fun same => conn.apart (Fin.ext same)
  rw [Connection.known, List.any_eq_true]
  refine ⟨⟨conn.nodes[conn.sender].hostname, conn.listenPort, false⟩, ?_, ?_⟩
  · rw [setRaftNodesByConfig, List.mem_mapIdx]
    exact ⟨conn.sender, conn.sender.isLt, by simp [apart, Connection.listenPort]⟩
  · simp [addr]

end Receive

section Stages

variable (conn : Connection) (sv : Service)

/-- How far the reader is in the stream: what is not read yet are the bytes of the messages that are
not handled yet, from the next header on, or behind it. -/
inductive Stage : Reader → Bool → List Byte → List sv.Payload → List sv.Payload → Prop
  | opened {bytes : List Byte} (unread : bytes = []) : Stage (.receiver 0) false bytes [] []
  | notified {bytes : List Byte} {queue : List sv.Payload}
      (unread : bytes = notify conn.listenPort ++ frames queue) :
      Stage (.receiver 0) true bytes [] queue
  | accepted {bytes : List Byte} {queue : List sv.Payload} (unread : bytes = frames queue) :
      Stage (.receiver conn.listenPort) true bytes [] queue
  | other {bytes : List Byte} {queue : List sv.Payload}
      (unknown : conn.known conn.listenPort = false) : Stage .other true bytes [] queue
  | payload {bytes : List Byte} {handled queue : List sv.Payload} {m : sv.Payload}
      (known : conn.known conn.listenPort = true) (buf : Fin sv.size → Byte)
      (unread : bytes = payloadBytes m ++ frames queue) :
      Stage (.payload conn.listenPort sv buf sv.header) true bytes handled (m :: queue)
  | header {bytes : List Byte} {handled queue : List sv.Payload}
      (known : conn.known conn.listenPort = true) (buf : Fin sv.size → Byte)
      (unread : bytes = frames queue) :
      Stage (.header conn.listenPort sv buf) true bytes handled queue

variable {conn sv} {r : Reader} {connected : Bool} {bytes : List Byte}
  {handled queue : List sv.Payload} {l l' : Link}

theorem Stage.connect (stage : Stage conn sv r false bytes handled queue) :
    Stage conn sv r true (bytes ++ notify conn.listenPort) handled queue := by
  cases stage with
  | opened unread => exact .notified (by simp [unread, frames])

theorem Stage.send (stage : Stage conn sv r true bytes handled queue) (m : sv.Payload) :
    Stage conn sv r true (bytes ++ frame m) handled (queue ++ [m]) := by
  cases stage with
  | notified unread => exact .notified (by rw [unread, frames_append, List.append_assoc])
  | accepted unread => exact .accepted (by rw [unread, frames_append])
  | other unknown => exact .other unknown
  | payload known buf unread =>
    refine .payload known buf ?_
    rw [unread, List.append_assoc]
    exact congrArg _ (frames_append _ m).symm
  | header known buf unread => exact .header known buf (by rw [unread, frames_append])

theorem Stage.recv (stage : Stage conn sv l.reader l.connected l.pipe.unread handled queue)
    (got : l.recv conn = some l') :
    l'.connected = true ∧ l'.pipe.flight = l.pipe.flight ∧
    l'.pipe.unread.length < l.pipe.unread.length ∧
    ∃ now rest, queue = now ++ rest ∧ l'.handled = l.handled ++ addressed now ∧
      Stage conn sv l'.reader true l'.pipe.unread (handled ++ now) rest := by
  obtain ⟨connected, pipe, reader, old⟩ := l
  have headerLong : 0 < sizeofHeader := by decide
  have payloadLong : 0 < sv.size := by cases sv <;> decide
  cases stage with
  | opened unread =>
    obtain ⟨⟨bs, pipe'⟩, read, -⟩ := Option.bind_eq_some_iff.mp got
    have shorter := Pipe.recv_shorter read headerLong
    rw [unread] at shorter
    exact absurd shorter (Nat.not_lt_zero _)
  | notified unread =>
    obtain ⟨⟨bs, pipe'⟩, read, done⟩ := Option.bind_eq_some_iff.mp got
    obtain rfl := Option.some.inj done
    obtain ⟨rfl, rest, flight⟩ := Pipe.recv_first read unread (length_headerBytes _)
    refine ⟨rfl, flight, Pipe.recv_shorter read headerLong, [], queue, rfl,
      by simp [addressed], ?_⟩
    rw [notify, headerOf_headerBytes, receive_notify]
    exact .accepted rest
  | accepted unread =>
    obtain ⟨⟨bs, pipe'⟩, read, done⟩ := Option.bind_eq_some_iff.mp got
    obtain rfl := Option.some.inj done
    obtain ⟨m, rest, rfl, rfl, behind, flight⟩ := recv_frames read unread
    refine ⟨rfl, flight, Pipe.recv_shorter read headerLong, [], m :: rest, rfl,
      by simp [addressed], ?_⟩
    rw [headerOf_headerBytes, receive_header]
    cases known : conn.known conn.listenPort with
    | true => exact .payload known _ behind
    | false => exact .other known
  | other unknown => cases got
  | payload known buf unread =>
    obtain ⟨⟨bs, pipe'⟩, read, done⟩ := Option.bind_eq_some_iff.mp got
    rw [size_header] at read
    obtain ⟨rfl, behind, flight⟩ := Pipe.recv_first read unread (length_payloadBytes _)
    have fits : ¬ sv.size < sv.header.size.toNat := by
      rw [size_header]
      exact Nat.lt_irrefl _
    simp only [fits, if_false, handles_header, if_true, payload_copied, Option.some.injEq] at done
    subst done
    exact ⟨rfl, flight, Pipe.recv_shorter read payloadLong, [_], _, rfl, rfl,
      .header known _ behind⟩
  | header known buf unread =>
    obtain ⟨⟨bs, pipe'⟩, read, done⟩ := Option.bind_eq_some_iff.mp got
    obtain rfl := Option.some.inj done
    obtain ⟨m, rest, rfl, rfl, behind, flight⟩ := recv_frames read unread
    refine ⟨rfl, flight, Pipe.recv_shorter read headerLong, [], m :: rest, rfl,
      by simp [addressed], ?_⟩
    rw [headerOf_headerBytes, List.append_nil]
    exact .payload known buf behind

theorem Stage.quiet (stage : Stage conn sv l.reader l.connected l.pipe.unread handled queue)
    (known : conn.known conn.listenPort = true) (arrived : l.pipe.flight = [])
    (waits : l.recv conn = none) : queue = [] := by
  obtain ⟨connected, pipe, reader, old⟩ := l
  cases stage with
  | opened unread => rfl
  | notified unread =>
    obtain ⟨pipe', read⟩ := Pipe.recv_of_unread arrived unread (length_headerBytes _)
    simp [Link.recv, read] at waits
  | accepted unread => exact recv_frames_none arrived unread (by simpa [Link.recv] using waits)
  | other unknown => simp [known] at unknown
  | payload _ buf unread =>
    obtain ⟨pipe', read⟩ := Pipe.recv_of_unread arrived unread (length_payloadBytes _)
    simp [Link.recv, read, size_header, handles_header] at waits
  | header _ buf unread => exact recv_frames_none arrived unread (by simpa [Link.recv] using waits)

theorem Stage.complete (stage : Stage conn sv l.reader l.connected l.pipe.unread handled queue)
    (known : conn.known conn.listenPort = true) (arrived : l.pipe.flight = []) :
    ∃ more l', Run (Steps (step conn : Link → LinkAct sv → Option Link)) l more l' ∧
      (∀ a ∈ more, a.Receives) ∧ l'.handled = l.handled ++ addressed queue := by
  induction size : l.pipe.unread.length using Nat.strong_induction_on generalizing l handled queue with
  | _ n ih =>
    cases taken : l.recv conn with
    | none =>
      obtain rfl := stage.quiet known arrived taken
      exact ⟨[], l, .start, by simp, by simp [addressed]⟩
    | some l₁ =>
      obtain ⟨connected, flight, shorter, now, rest, rfl, grown, stage₁⟩ := stage.recv taken
      rw [← connected] at stage₁
      obtain ⟨more, l₂, run, receives, all⟩ :=
        ih _ (size ▸ shorter) stage₁ (flight.trans arrived) rfl
      refine ⟨.recv :: more, l₂, (Run.next .start taken).trans run, ?_, ?_⟩
      · intro a member
        rcases List.mem_cons.mp member with rfl | later
        · trivial
        · exact receives a later
      · rw [all, grown]
        simp [addressed]

end Stages

section Decoding

variable {conn : Connection} {sv : Service} {tr : List (LinkAct sv)} {l l' : Link}

theorem run_stage (run : Run (Steps (step conn)) start tr l) : ∃ handled queue,
    Stage conn sv l.reader l.connected l.pipe.unread handled queue ∧
      l.handled = addressed handled ∧ sent tr = handled ++ queue := by
  induction run with
  | start => exact ⟨[], [], .opened rfl, rfl, rfl⟩
  | @next tr l l' a _ taken ih =>
    obtain ⟨handled, queue, stage, got, all⟩ := ih
    cases a with
    | connect2raftnode =>
      simp only [Steps, step, Option.ite_none_left_eq_some, Option.some.injEq,
        Bool.not_eq_true] at taken
      obtain ⟨fresh, rfl⟩ := taken
      rw [fresh] at stage
      refine ⟨handled, queue, ?_, got, ?_⟩
      · simpa using stage.connect
      · simpa [sent_append, LinkAct.sent?] using all
    | sendRPC m =>
      simp only [Steps, step, Option.ite_none_right_eq_some, Option.some.injEq] at taken
      obtain ⟨connected, rfl⟩ := taken
      rw [connected] at stage
      refine ⟨handled, queue ++ [m], ?_, got, ?_⟩
      · simpa [connected] using stage.send m
      · simp [sent_append, LinkAct.sent?, all]
    | arrive n =>
      obtain rfl : { l with pipe := l.pipe.arrive n } = l' := Option.some.inj taken
      refine ⟨handled, queue, ?_, got, ?_⟩
      · simpa using stage
      · simpa [sent_append, LinkAct.sent?] using all
    | recv =>
      obtain ⟨connected, -, -, now, rest, rfl, grown, stage'⟩ := stage.recv taken
      refine ⟨handled ++ now, rest, connected ▸ stage', ?_, ?_⟩
      · rw [grown, got]
        simp [addressed]
      · simpa [sent_append, LinkAct.sent?] using all

/-- What the reader makes of the stream: the thread that the connection was handed to is the one for
its messages, under the port that the sender listens at; it handles the messages in their order, with
what is not read yet being the messages that are left whenever it waits for a header; it gets through
all that was sent, whatever the pieces in which it arrives, and waits for nothing else. -/
structure Decoded (conn : Connection) (tr : List (LinkAct sv)) (l : Link) : Prop where
  alive : l.reader ≠ .other ∧ l.reader ≠ .exited
  thread : ∀ t, l.reader.thread? = some t → t = (conn.listenPort, sv)
  order : ∃ queue : List sv.Payload, addressed (sent tr) = l.handled ++ addressed queue ∧
    (l.reader.atHeader → l.pipe.unread = frames queue)
  quiet : l.pipe.flight = [] → l.recv conn = none → l.handled = addressed (sent tr)
  complete : ∃ more l', Run (Steps (step conn : Link → LinkAct sv → Option Link)) l more l' ∧
    (∀ a ∈ more, a.Receives) ∧ l'.handled = addressed (sent tr)

private theorem Stage.alive {r : Reader} {connected : Bool} {bytes : List Byte}
    {handled queue : List sv.Payload} (stage : Stage conn sv r connected bytes handled queue)
    (known : conn.known conn.listenPort = true) : (r ≠ .other ∧ r ≠ .exited) ∧
      (∀ t, r.thread? = some t → t = (conn.listenPort, sv)) ∧
      (r.atHeader → bytes = frames queue) := by
  cases stage with
  | opened unread => simp [Reader.thread?, Reader.atHeader]
  | notified unread => simp [Reader.thread?, Reader.atHeader]
  | accepted unread => simp [Reader.thread?, Reader.atHeader]
  | other unknown => simp [known] at unknown
  | payload _ buf unread => simp [Reader.thread?, Reader.atHeader, eq_comm]
  | header _ buf unread => simp [Reader.thread?, Reader.atHeader, unread, eq_comm]

theorem decoded_of_known (known : conn.known conn.listenPort = true)
    (run : Run (Steps (step conn)) start tr l) : Decoded conn tr l := by
  obtain ⟨handled, queue, stage, got, all⟩ := run_stage run
  obtain ⟨alive, thread, boundary⟩ := stage.alive known
  have split : addressed (sent tr) = l.handled ++ addressed queue := by
    rw [all, got]
    simp [addressed]
  refine ⟨alive, thread, ⟨queue, split, boundary⟩, ?_, ?_⟩
  · intro arrived waits
    rw [split, stage.quiet known arrived waits]
    simp [addressed]
  · have stage' : Stage conn sv l.reader l.connected (l.pipe.arrive l.pipe.flight.length).unread
        handled queue := by simpa using stage
    obtain ⟨more, l', rest, receives, done⟩ := Stage.complete
      (l := { l with pipe := l.pipe.arrive l.pipe.flight.length }) stage' known
      (Pipe.flight_arrive_all l.pipe)
    refine ⟨.arrive l.pipe.flight.length :: more, l', (Run.next .start rfl).trans rest, ?_, ?_⟩
    · intro a member
      rcases List.mem_cons.mp member with rfl | later
      · trivial
      · exact receives a later
    · rw [split, done]

private theorem handled_of_unknown (unknown : conn.known conn.listenPort = false)
    (run : Run (Steps (step conn : Link → LinkAct sv → Option Link)) start tr l) :
    l.handled = [] := by
  obtain ⟨handled, queue, stage, got, -⟩ := run_stage run
  rw [got]
  generalize l.pipe.unread = bytes at stage
  generalize l.connected = connected at stage
  generalize l.reader = r at stage
  cases stage with
  | payload known => simp [known] at unknown
  | header known => simp [known] at unknown
  | _ => rfl

private theorem run_one (conn : Connection) (m : sv.Payload) :
    ∃ l, Run (Steps (step conn)) start [.connect2raftnode, .sendRPC m] l := by
  let l₁ : Link := { start with connected := true, pipe := start.pipe.send (notify conn.listenPort) }
  have first : step conn start (LinkAct.connect2raftnode : LinkAct sv) = some l₁ := rfl
  have second : step conn l₁ (LinkAct.sendRPC m) =
      some { l₁ with pipe := l₁.pipe.send (frame m) } := rfl
  exact ⟨_, Run.next (Run.next .start first) second⟩

private theorem not_decoded_of_unknown (unknown : conn.known conn.listenPort = false)
    (run : Run (Steps (step conn : Link → LinkAct sv → Option Link)) start tr l)
    (message : sent tr ≠ []) : ¬ Decoded conn tr l := by
  intro decoded
  obtain ⟨more, l', rest, -, done⟩ := decoded.complete
  rw [handled_of_unknown unknown (run.trans rest)] at done
  exact message (List.map_eq_nil_iff.mp done.symm)

/-- The messages that one node sends to another on a connection are handled there as they were sent
just when the receiver finds a node for the address of the connection and the announced port. It does
if the sender is configured under the address that it connects from. Where it finds none, no message of
any run is handled. -/
theorem stream_decoded_iff (conn : Connection) (sv : Service) :
    ((∀ tr l, Run (Steps (step conn : Link → LinkAct sv → Option Link)) start tr l →
      Decoded conn tr l) ↔ conn.known conn.listenPort = true) ∧
    (conn.addr = conn.nodes[conn.sender].hostname → conn.known conn.listenPort = true) ∧
    (conn.known conn.listenPort = false → ∀ tr l,
      Run (Steps (step conn : Link → LinkAct sv → Option Link)) start tr l →
        l.handled = [] ∧ (sent tr ≠ [] → ¬ Decoded conn tr l)) := by
  refine ⟨⟨?_, fun known tr l run => decoded_of_known known run⟩, known_of_addr conn, ?_⟩
  · intro all
    by_contra unknown
    have message : sv.Payload := sv.layout.symm (fun _ => 0)
    obtain ⟨l, run⟩ := run_one conn message
    exact not_decoded_of_unknown (by simpa using unknown) run (by simp [sent, LinkAct.sent?])
      (all _ l run)
  · intro unknown tr l run
    exact ⟨handled_of_unknown unknown run, not_decoded_of_unknown unknown run⟩

end Decoding

section Example

def byName : Connection where
  nodes := [⟨[108, 111, 99, 97, 108, 104, 111, 115, 116], 51111⟩,
    ⟨[108, 111, 99, 97, 108, 104, 111, 115, 116], 51112⟩]
  sender := 0
  receiver := 1
  apart := by decide
  addr := [49, 50, 55, 46, 48, 46, 48, 46, 49]
  stack := fun _ _ => 0

def firstAck : Service.notifier.Payload :=
  (⟨RPCKind.responseAppendEntries.code, 1, fun _ => 1, fun _ => 0, 0, 0, 0⟩ : ResponseImage)

def oneAck : List (LinkAct .notifier) := [.connect2raftnode, .sendRPC firstAck]

/-- `connect2raftnode` finds `localhost`, but the receiver looks for a node `127.0.0.1`: whatever is
sent is never handled. -/
theorem named_node_unheard :
    (∀ tr l, Run (Steps (step byName : Link → LinkAct .notifier → Option Link)) start tr l →
      l.handled = []) ∧
    ∃ l, Run (Steps (step byName)) start oneAck l ∧ ¬ Decoded byName oneAck l := by
  have unknown : byName.known byName.listenPort = false := by decide
  refine ⟨fun tr l run => handled_of_unknown unknown run, ?_⟩
  obtain ⟨l, run⟩ := run_one byName firstAck
  exact ⟨l, run, not_decoded_of_unknown unknown run (by decide)⟩

end Example

end Link

end Raft2pl.Server
