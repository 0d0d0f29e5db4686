/- Raft::worker and the parts of WorkerInfo that it shares with producers and notifiers. -/

import Raft2pl.Server.Log
import Raft2pl.TwoPl.Transaction

set_option autoImplicit false
set_option relaxedAutoImplicit false

namespace Raft2pl.Server

open TwoPl (KvsConst)

/-- What the leader process is started with: its place in the cluster, the term that `Status`
read, and the compiled-in table sizes. -/
structure Config (N : Nat) where
  me : Fin N
  currentTerm : Int
  consts : KvsConst

def Config.followers {N : Nat} (cfg : Config N) : List (Fin N) :=
  (List.finRange N).filter (fun f => decide (f ≠ cfg.me))

/-- Program points of the loop body of `Raft::worker`, each before a call on shared data. -/
inductive WorkerPc
  | head | lockFrom | lockTo | unlockFrom | locked | flushTest | logging | sending
  deriving DecidableEq

/-- A `WorkerInfo` with the local variables of its thread. `followers` is what the send loop has
still to serve. -/
structure Worker (N W : Nat) where
  xactQ : List TransReq
  taskList : List (Task W)
  commitIndex : Int
  nextIndex : Fin N → Int
  log : Log
  pc : WorkerPc
  canDoXactDeq : Bool
  xact : TransReq
  logBuffer : Nat → TransReq
  buffid : Nat
  nlog : Nat
  lsn : Int
  followers : List (Fin N)

/-- What happens at one worker: its own calls with the results they returned, and the calls of
producers and notifiers on its `WorkerInfo`. -/
inductive WorkerAct (N W : Nat)
  | xactEnqueue (tx : TransReq)
  | xactDequeue
  | lockFrom (got : Bool)
  | lockTo (got : Bool)
  | unlockFrom
  | copyToBuffer
  | flushTest (timeOut : Bool)
  | loggingWork (e : Entry)
  | sendRPC (packet : AppendEntriesRpc N W)
  | taskStore (t : Task W)
  | taskLoad (lsn : Int) (t : Option (Task W))
  | setCommitIndex (index : Int)
  deriving DecidableEq

/-- `WorkerInfo::taskLoad`: the first task with the wanted number, taken out of the list. -/
def taskLoad {W : Nat} (lsn : Int) : List (Task W) → Option (Task W) × List (Task W)
  | [] => (none, [])
  | t :: ts =>
    if t.lsn = lsn then (some t, ts)
    else ((taskLoad lsn ts).1, t :: (taskLoad lsn ts).2)

/-- What `xactDequeue` returns from an empty queue. -/
def noXact : TransReq := ⟨-1, 0, ⟨0, 0, 0, 0⟩⟩

/-- `WorkerInfo::xactDequeue`. -/
def xactDequeue : List TransReq → TransReq × List TransReq
  | [] => (noXact, [])
  | tx :: rest => (tx, rest)

section TaskLoad

variable {W : Nat} {lsn : Int} {ts : List (Task W)}

theorem taskLoad_some {t : Task W} (found : (taskLoad lsn ts).1 = some t) :
    t.lsn = lsn ∧ ts.Perm (t :: (taskLoad lsn ts).2) := by
  induction ts with
  | nil => simp [taskLoad] at found
  | cons u us ih =>
    by_cases here : u.lsn = lsn
    · simp only [taskLoad, here, if_true, Option.some.injEq] at found ⊢
      subst found
      exact ⟨here, .refl _⟩
    · simp only [taskLoad, here, if_false] at found ⊢
      obtain ⟨same, perm⟩ := ih found
      exact ⟨same, (perm.cons u).trans (.swap _ _ _)⟩

theorem taskLoad_none (missing : (taskLoad lsn ts).1 = none) :
    (taskLoad lsn ts).2 = ts ∧ ∀ t ∈ ts, t.lsn ≠ lsn := by
  induction ts with
  | nil => simp [taskLoad]
  | cons u us ih =>
    by_cases here : u.lsn = lsn
    · simp [taskLoad, here] at missing
    · simp only [taskLoad, here, if_false] at missing ⊢
      obtain ⟨same, absent⟩ := ih missing
      exact ⟨by rw [same], by simpa [here] using absent⟩

end TaskLoad

namespace Worker

variable {N W : Nat} (cfg : Config N) (id : Fin W)

/-- The packet for follower `f`, as `arpcByFields` fills it in. -/
def packet (w : Worker N W) (f : Fin N) : AppendEntriesRpc N W where
  term := cfg.currentTerm
  leaderId := cfg.me
  prevLogIndex := w.nextIndex f - 1
  prevLogTerm := cfg.currentTerm - 1
  leaderCommit := w.commitIndex
  lsn := w.lsn
  log := memcpy w.logBuffer w.nlog
  szLog := w.nlog
  workerId := id
  rNodeId := f

/-- The task stored after the send loop. -/
def task (w : Worker N W) : Task W where
  workerId := id
  lsn := w.lsn
  nlog := w.nlog
  xactSet := memcpy w.logBuffer w.nlog

/-- The point and the data at which a call can happen. Calls on keys that an assertion of
`transferWork`, `KVS::lock` or `KVS::unlock` rejects cannot: the process ends there. -/
def Ready (w : Worker N W) : WorkerAct N W → Prop
  -- producers stamp requests with the id of a connected client, a list length
  | .xactEnqueue tx => 0 ≤ tx.clientId
  | .xactDequeue => w.pc = .head
  | .lockFrom _ => w.pc = .lockFrom ∧ w.xact.req.fromKey ≠ w.xact.req.toKey ∧
      cfg.consts.inRange w.xact.req.sorted.fromKey
  | .lockTo _ => w.pc = .lockTo ∧ cfg.consts.inRange w.xact.req.toKey
  | .unlockFrom => w.pc = .unlockFrom ∧ cfg.consts.inRange w.xact.req.fromKey
  | .copyToBuffer => w.pc = .locked
  | .flushTest _ => w.pc = .flushTest
  | .loggingWork e => w.pc = .logging ∧ 0 ≤ e.lsn ∧
      e = leaderEntry w.logBuffer w.buffid cfg.currentTerm e.lsn e.time
  | .sendRPC p => w.pc = .sending ∧ w.followers.head? = some p.rNodeId ∧
      p = w.packet cfg id p.rNodeId
  | .taskStore t => w.pc = .sending ∧ w.followers = [] ∧ t = w.task id
  | .taskLoad lsn t => t = (Server.taskLoad lsn w.taskList).1
  | .setCommitIndex _ => True

instance decidableReady (w : Worker N W) : (a : WorkerAct N W) → Decidable (Ready cfg id w a)
  | .xactEnqueue _ => inferInstanceAs (Decidable (_ ≤ _))
  | .xactDequeue => inferInstanceAs (Decidable (_ = _))
  | .lockFrom _ => inferInstanceAs (Decidable (_ ∧ _ ∧ _))
  | .lockTo _ => inferInstanceAs (Decidable (_ ∧ _))
  | .unlockFrom => inferInstanceAs (Decidable (_ ∧ _))
  | .copyToBuffer => inferInstanceAs (Decidable (_ = _))
  | .flushTest _ => inferInstanceAs (Decidable (_ = _))
  | .loggingWork _ => inferInstanceAs (Decidable (_ ∧ _ ∧ _))
  | .sendRPC _ => inferInstanceAs (Decidable (_ ∧ _ ∧ _))
  | .taskStore _ => inferInstanceAs (Decidable (_ ∧ _ ∧ _))
  | .taskLoad _ _ => inferInstanceAs (Decidable (_ = _))
  | .setCommitIndex _ => inferInstanceAs (Decidable True)

/-- `if (canDoXactDeq == true) xact = workerInfo->xactDequeue();` -/
def fetch (w : Worker N W) : Worker N W :=
  if w.canDoXactDeq then
    { w with xact := (Server.xactDequeue w.xactQ).1, xactQ := (Server.xactDequeue w.xactQ).2 }
  else w

/-- `transferWork` rewrites the request in place before it tries the first lock. -/
def rewriteReq (w : Worker N W) : Worker N W :=
  { w with xact := { w.xact with req := w.xact.req.sorted } }

/-- `(timeOut(preLogSend) && buffid > 0) || (buffid == MAX_GROUP_ENTRY)` -/
def flushDue (w : Worker N W) (timeOut : Bool) : Bool :=
  (timeOut && decide (0 < w.buffid)) || decide (w.buffid = maxGroupEntry)

/-- The worker after a call. -/
def after (w : Worker N W) : WorkerAct N W → Worker N W
  | .xactEnqueue tx => { w with xactQ := w.xactQ ++ [tx] }
  | .xactDequeue =>
      { w.fetch with pc := if w.fetch.xact.clientId = -1 then .flushTest else .lockFrom }
  | .lockFrom true => { w.rewriteReq with pc := .lockTo }
  | .lockFrom false => { w.rewriteReq with pc := .flushTest, canDoXactDeq := false }
  | .lockTo true => { w with pc := .locked, canDoXactDeq := true }
  | .lockTo false => { w with pc := .unlockFrom }
  | .unlockFrom => { w with pc := .flushTest, canDoXactDeq := false }
  | .copyToBuffer =>
      { w with
        pc := .flushTest
        logBuffer := Function.update w.logBuffer w.buffid w.xact
        buffid := w.buffid + 1 }
  | .flushTest timeOut => { w with pc := if w.flushDue timeOut then .logging else .head }
  | .loggingWork e =>
      { w with
        pc := .sending
        log := w.log.addEntry e
        nlog := w.buffid
        buffid := 0
        lsn := e.lsn
        followers := cfg.followers }
  | .sendRPC _ => { w with followers := w.followers.tail }
  | .taskStore t => { w with pc := .head, taskList := w.taskList ++ [t] }
  | .taskLoad lsn _ => { w with taskList := (Server.taskLoad lsn w.taskList).2 }
  | .setCommitIndex index => { w with commitIndex := index }

/-- One call at a worker. -/
def step (w : Worker N W) (a : WorkerAct N W) : Option (Worker N W) :=
  if Ready cfg id w a then some (after cfg w a) else none

variable {cfg id}

theorem step_eq_some {w w' : Worker N W} {a : WorkerAct N W} :
    step cfg id w a = some w' ↔ Ready cfg id w a ∧ w' = after cfg w a := by
  unfold step
  split <;> simp_all [eq_comm]

/-- A worker thread at its first iteration, with the log it found on disk. -/
structure Fresh (w : Worker N W) : Prop where
  xactQ : w.xactQ = []
  taskList : w.taskList = []
  log : w.log = Log.ofFile w.log.file
  pc : w.pc = .head
  canDoXactDeq : w.canDoXactDeq = true
  buffid : w.buffid = 0

/-- A `WorkerInfo` and its thread before the first iteration, with zeroes for what the source
leaves uninitialised. -/
def start (file : List Entry) : Worker N W where
  xactQ := []
  taskList := []
  commitIndex := 0
  nextIndex := fun _ => 0
  log := Log.ofFile file
  pc := .head
  canDoXactDeq := true
  xact := noXact
  logBuffer := fun _ => noXact
  buffid := 0
  nlog := 0
  lsn := 0
  followers := []

theorem start_fresh (file : List Entry) : (start file : Worker N W).Fresh where
  xactQ := rfl
  taskList := rfl
  log := rfl
  pc := rfl
  canDoXactDeq := rfl
  buffid := rfl

end Worker

end Raft2pl.Server
