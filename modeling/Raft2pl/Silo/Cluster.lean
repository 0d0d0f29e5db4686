/- The server built with SILO: the threads of the leader, the executors of its workers, the followers. -/

import Raft2pl.Server.Durability
import Raft2pl.Silo.Steps

set_option autoImplicit false
set_option relaxedAutoImplicit false

namespace Raft2pl.Server

variable {N W : Nat}

def WorkerAct.onStore : WorkerAct N W → Bool
  | .lockFrom _ | .lockTo _ | .unlockFrom => true
  | _ => false

def ClusterAct.shared : ClusterAct N W → Bool
  | .leader (.worker _ a) => !a.onStore
  | .leader (.notifier _ (.commitWork _ _)) => false
  | _ => true

def CommitOp.ofCommitWork : List CommitOp :=
  [.indexReadFrom, .indexReadTo, .indexUpdateFrom, .indexUpdateTo, .unlockFrom, .unlockTo]

namespace Worker

variable {cfg : Config N} {id : Fin W}

def unlogged (v : Worker N W) : List TransReq :=
  v.buffered ++ if v.pc = .locked then [v.xact] else []

private theorem unlogged_step {v v' : Worker N W} {a : WorkerAct N W} (elsewhere : a.onStore = false)
    (taken : step cfg id v a = some v') :
    (logged [a]).flatMap Entry.xactSet ++ v'.unlogged = v.unlogged ∧
      (v'.pc = .lockTo ↔ v.pc = .lockTo) := by
  obtain ⟨ready, rfl⟩ := step_eq_some.mp taken
  cases a with
  | lockFrom | lockTo | unlockFrom => simp [WorkerAct.onStore] at elsewhere
  | xactEnqueue | taskLoad | setCommitIndex =>
    exact ⟨rfl, Iff.rfl⟩
  | xactDequeue =>
    have here : v.pc = .head := ready
    have buffer : (after cfg v .xactDequeue).buffered = v.buffered := by
      simp only [after, buffered, fetch]
      split <;> rfl
    by_cases empty : v.fetch.xact.clientId = -1 <;>
      simp [WorkerAct.entry?, unlogged, buffer, here] <;> simp [after, empty]
  | copyToBuffer =>
    have here : v.pc = .locked := ready
    simp [WorkerAct.entry?, unlogged, buffered, after, here]
  | flushTest timeOut =>
    have here : v.pc = .flushTest := ready
    cases due : v.flushDue timeOut <;>
      simp [WorkerAct.entry?, unlogged, buffered, after, here, due]
  | loggingWork e =>
    have batch : e.xactSet = v.buffered := by rw [ready.2.2]; rfl
    simp [WorkerAct.entry?, unlogged, after, ready.1, batch, buffered]
  | sendRPC | taskStore =>
    simp [WorkerAct.entry?, unlogged, buffered, after, ready.1]

end Worker

theorem onStore_of_shared {a : LeaderAct N W (Conn N W)} {w : Fin W} {b : WorkerAct N W}
    (common : (ClusterAct.leader a).shared = true) (mine : a.toWorker w = some b) :
    b.onStore = false := by
  cases a with
  | acceptClient => simp [LeaderAct.toWorker] at mine
  | worker v b' =>
    obtain ⟨-, rfl⟩ : (v = w ∧ b'.direct = true) ∧ b' = b := by
      simpa [LeaderAct.toWorker] using mine
    simpa [ClusterAct.shared] using common
  | notifier n d =>
    cases d <;> simp only [LeaderAct.toWorker, reduceCtorEq, Option.ite_none_right_eq_some,
      Option.some.injEq] at mine
    all_goals
      obtain ⟨-, rfl⟩ := mine
      rfl

theorem Cluster.shared_step {cfg : Config N} {curTerm : Fin N → Int}
    {c c' : Cluster N W cfg.consts} {b : ClusterAct N W} (common : b.shared = true)
    (taken : c.step cfg curTerm b = some c') (w : Fin W) :
    (leaderLogged w [b]).flatMap Entry.xactSet ++ (c'.leader.worker w).unlogged =
        (c.leader.worker w).unlogged ∧
      ((c'.leader.worker w).pc = .lockTo ↔ (c.leader.worker w).pc = .lockTo) := by
  cases b with
  | leader a =>
    obtain ⟨frame, moved⟩ := Leader.worker_step (step_leader taken).1 w
    cases mine : a.toWorker w with
    | none =>
      have quiet : leaderLogged w [.leader a] = [] := by
        simp [leaderLogged, ofLeader, ofWorker, ClusterAct.leader?, mine, logged]
      rw [frame mine, quiet]
      exact ⟨rfl, Iff.rfl⟩
    | some b =>
      have label : leaderLogged w [.leader a] = logged [b] := by
        simp [leaderLogged, ofLeader, ofWorker, ClusterAct.leader?, mine]
      rw [label]
      exact Worker.unlogged_step (onStore_of_shared common mine) (moved b mine)
  | recv | loggingWork | sendAck =>
    rw [(moves_follower (moves_step taken) rfl).2]
    exact ⟨rfl, Iff.rfl⟩

end Raft2pl.Server

namespace Raft2pl.Silo

open Lib (Run Steps)
open TwoPl (KvsConst)
open Server (Config Conn CommitOp)

/-- The cluster. It uses all of `base` but the store, which only the other build has. A worker of
`base` is at `lockFrom` when it calls `transferWork`, and at `lockTo` until the call returns. -/
structure Cluster (N W : Nat) (P : KvsConst) where
  base : Server.Cluster N W P
  db : Process W

/-- The next call anywhere in the cluster; `returned` is the return of `transferWork`. -/
inductive ClusterAct (N W : Nat)
  | shared (a : Server.ClusterAct N W)
  | transferWork (w : Fin W)
  | access (w : Fin W) (beyondFrom beyondTo : List Byte)
  | returned (w : Fin W) (committed : Bool)
  | advanceEpoch
  | commitWork (n : Conn N W) (slot : Place W × TransReq)
  deriving DecidableEq

namespace Cluster

section Step

variable {N W : Nat} (cfg : Config N) (curTerm : Fin N → Int)

/-- `trans.transferWork(xact.req)`, which rewrites the request in place before it reads. -/
def called (v : Server.Worker N W) : Server.Worker N W :=
  { v with pc := .lockTo, xact := { v.xact with req := sorted v.xact.req } }

/-- `canDoXactDeq = trans.transferWork(xact.req);` and the branch on it. -/
def answered (v : Server.Worker N W) (committed : Bool) : Server.Worker N W :=
  { v with pc := if committed then .locked else .flushTest, canDoXactDeq := committed }

def setWorker (c : Server.Cluster N W cfg.consts) (w : Fin W) (v : Server.Worker N W) :
    Server.Cluster N W cfg.consts :=
  { c with leader := { c.leader with worker := Function.update c.leader.worker w v } }

def setNotifier (c : Server.Cluster N W cfg.consts) (n : Conn N W) (p : Server.Notifier N W) :
    Server.Cluster N W cfg.consts :=
  { c with leader := c.leader.setNotifier cfg n p }

/-- One call. `DB::commitWork` is empty in this build. -/
def step (s : Cluster N W cfg.consts) : ClusterAct N W → Option (Cluster N W cfg.consts)
  | .shared a =>
      if a.shared then (s.base.step cfg curTerm a).map (fun c => { s with base := c }) else none
  | .transferWork w =>
      let v := s.base.leader.worker w
      if v.pc = .lockFrom then
        (s.db.call w v.xact.req).map (fun db => ⟨setWorker cfg s.base w (called v), db⟩)
      else none
  | .access w beyondFrom beyondTo =>
      (s.db.access w beyondFrom beyondTo).map (fun db => { s with db := db })
  | .returned w committed =>
      let v := s.base.leader.worker w
      if v.pc = .lockTo ∧ (s.db.worker w).pc = .idle ∧
          committed = decide ((s.db.worker w).x.status = .committed) then
        some { s with base := setWorker cfg s.base w (answered v committed) }
      else none
  | .advanceEpoch => some { s with db := { s.db with globalEpoch := s.db.globalEpoch + 1 } }
  | .commitWork n slot => match s.base.leader.notifier n with
      | .commit j .indexReadFrom =>
          if slot.1 = j.place ∧ j.xact? = some slot.2 then
            some { s with base := setNotifier cfg s.base n (.commit j .returned) }
          else none
      | _ => none

structure Fresh (s : Cluster N W cfg.consts) : Prop where
  base : Server.Cluster.Fresh cfg s.base
  db : s.db.Fresh

end Step

section Simulation

variable {N W : Nat} {cfg : Config N} {curTerm : Fin N → Int} {s s' : Cluster N W cfg.consts}

def labels : ClusterAct N W → List (Server.ClusterAct N W)
  | .shared a => [a]
  | .transferWork w => [.leader (.worker w (.lockFrom true))]
  | .returned w true => [.leader (.worker w (.lockTo true))]
  | .returned w false => [.leader (.worker w (.lockTo false)), .leader (.worker w .unlockFrom)]
  | .commitWork n slot =>
      CommitOp.ofCommitWork.map (fun op => .leader (.notifier n (.commitWork op slot)))
  | .access _ _ _ | .advanceEpoch => []

private theorem inRange_zero (P : KvsConst) : P.inRange 0 := by
  have pos := P.database_pos
  refine ⟨by decide, ?_⟩
  have zero : (0 : CInt).toInt = 0 := by decide
  omega

section Worker

variable {w : Fin W} {v : Server.Worker N W}

private theorem called_moves (here : v.pc = .lockFrom) :
    Server.Worker.Moves cfg w v (.lockFrom true) (called v) := by
  refine ⟨⟨0, 0, ⟨0, 1, 0, 0⟩⟩, ⟨0, 0, ⟨0, 1, 0, 0⟩⟩, Server.Worker.step_eq_some.mpr ⟨?_, rfl⟩⟩
  exact ⟨here, (by decide : (0 : CInt) ≠ 1), inRange_zero cfg.consts⟩

private theorem granted_moves (here : v.pc = .lockTo) :
    Server.Worker.Moves cfg w v (.lockTo true) (answered v true) :=
  ⟨Server.noXact, Server.noXact,
    Server.Worker.step_eq_some.mpr ⟨⟨here, inRange_zero cfg.consts⟩, rfl⟩⟩

private theorem refused_moves (here : v.pc = .lockTo) :
    Server.Worker.Moves cfg w v (.lockTo false) { v with pc := .unlockFrom } :=
  ⟨Server.noXact, Server.noXact,
    Server.Worker.step_eq_some.mpr ⟨⟨here, inRange_zero cfg.consts⟩, rfl⟩⟩

private theorem unlocked_moves :
    Server.Worker.Moves cfg w { v with pc := .unlockFrom } .unlockFrom (answered v false) :=
  ⟨Server.noXact, Server.noXact,
    Server.Worker.step_eq_some.mpr ⟨⟨rfl, inRange_zero cfg.consts⟩, rfl⟩⟩

end Worker

section Calls

variable {c : Server.Cluster N W cfg.consts}

theorem moves_worker {w : Fin W} {b : Server.WorkerAct N W} {v : Server.Worker N W}
    (store : b.onStore = true) (moves : Server.Worker.Moves cfg w (c.leader.worker w) b v) :
    Server.Cluster.Moves cfg curTerm c (.leader (.worker w b)) (setWorker cfg c w v) := by
  cases b with
  | lockFrom | lockTo | unlockFrom => exact .leader (Server.Leader.moves_worker rfl rfl moves) rfl
  | _ => simp [Server.WorkerAct.onStore] at store

theorem moves_commitWork (stage stage' : TwoPl.CommitStage) {n : Conn N W} {j : Server.Job W}
    {x : TransReq} (xact : j.xact? = some x)
    (follows : (Server.opOf stage).next = some (Server.opOf stage')) :
    Server.Cluster.Moves cfg curTerm (setNotifier cfg c n (.commit j stage))
      (.leader (.notifier n (.commitWork (Server.opOf stage) (j.place, x))))
      (setNotifier cfg c n (.commit j stage')) := by
  have taken := Server.Notifier.Step.commitWork (N := N) xact follows
  have here : (setNotifier cfg c n (.commit j stage)).leader.notifier n = .commit j stage :=
    Function.update_self _ _ _
  have moves := Server.Leader.moves_commitWork (s := (setNotifier cfg c n (.commit j stage)).leader)
    (n := n) (here ▸ taken)
  have again : (setNotifier cfg c n (.commit j stage)).leader.setNotifier cfg n (.commit j stage') =
      c.leader.setNotifier cfg n (.commit j stage') := by
    simp [setNotifier, Server.Leader.setNotifier]
  rw [again] at moves
  have sent : (setNotifier cfg c n (.commit j stage)).transmit cfg
      (.notifier n (.commitWork (Server.opOf stage) (j.place, x))) =
      some (setNotifier cfg c n (.commit j stage)) := rfl
  exact (Server.Cluster.Moves.leader moves sent : Server.Cluster.Moves cfg curTerm _ _ _)

private theorem commitWork_run {n : Conn N W} {j : Server.Job W} {x : TransReq}
    (xact : j.xact? = some x)
    (here : c.leader.notifier n = .commit j .indexReadFrom) :
    Run (Server.Cluster.Moves cfg curTerm) c (labels (.commitWork n (j.place, x)))
      (setNotifier cfg c n (.commit j .returned)) := by
  have start : setNotifier cfg c n (.commit j .indexReadFrom) = c := by
    simp [setNotifier, Server.Leader.setNotifier, ← here]
  have first : Run (Server.Cluster.Moves cfg curTerm) c []
      (setNotifier cfg c n (.commit j .indexReadFrom)) := by
    rw [start]
    exact .start
  have readFrom := first.next (moves_commitWork .indexReadFrom (.indexReadTo 0) xact rfl)
  have readTo := readFrom.next (moves_commitWork (.indexReadTo 0) (.indexUpdateFrom 0 0) xact rfl)
  have updateFrom := readTo.next (moves_commitWork (.indexUpdateFrom 0 0) (.indexUpdateTo 0) xact rfl)
  have updateTo := updateFrom.next (moves_commitWork (.indexUpdateTo 0) .unlockFrom xact rfl)
  have unlockFrom := updateTo.next (moves_commitWork .unlockFrom .unlockTo xact rfl)
  exact unlockFrom.next (moves_commitWork .unlockTo .returned xact rfl)

end Calls

/-- Each call does to the threads, the logs and the connections what calls of the other build do, as
far as these do not depend on the store and on the requests. -/
theorem simulated_step {a : ClusterAct N W} (taken : s.step cfg curTerm a = some s') :
    Run (Server.Cluster.Moves cfg curTerm) s.base (labels a) s'.base := by
  cases a with
  | shared a =>
    simp only [step, Option.ite_none_right_eq_some, Option.map_eq_some_iff] at taken
    obtain ⟨-, c, moved, rfl⟩ := taken
    exact Run.next .start (Server.Cluster.moves_step moved)
  | transferWork w =>
    simp only [step, Option.ite_none_right_eq_some, Option.map_eq_some_iff] at taken
    obtain ⟨here, db, -, rfl⟩ := taken
    exact Run.next .start (moves_worker rfl (called_moves here))
  | access w beyondFrom beyondTo =>
    simp only [step, Option.map_eq_some_iff] at taken
    obtain ⟨db, -, rfl⟩ := taken
    exact .start
  | returned w committed =>
    simp only [step, Option.ite_none_right_eq_some, Option.some.injEq] at taken
    obtain ⟨⟨here, -, -⟩, rfl⟩ := taken
    cases committed with
    | true => exact Run.next .start (moves_worker rfl (granted_moves here))
    | false =>
      have first : Server.Cluster.Moves cfg curTerm s.base (.leader (.worker w (.lockTo false))) _ :=
        moves_worker rfl (refused_moves here)
      have between : (setWorker cfg s.base w { s.base.leader.worker w with
          pc := .unlockFrom }).leader.worker w = { s.base.leader.worker w with pc := .unlockFrom } :=
        Function.update_self _ _ _
      have second : Server.Cluster.Moves cfg curTerm _ (.leader (.worker w .unlockFrom)) _ :=
        moves_worker (v := answered (s.base.leader.worker w) false) rfl (between ▸ unlocked_moves)
      have same : setWorker cfg (setWorker cfg s.base w { s.base.leader.worker w with
          pc := .unlockFrom }) w (answered (s.base.leader.worker w) false) =
          setWorker cfg s.base w (answered (s.base.leader.worker w) false) := by
        simp [setWorker]
      rw [same] at second
      exact (Run.start.next first).next second
  | advanceEpoch =>
    obtain rfl := Option.some.inj taken
    exact .start
  | commitWork n slot =>
    simp only [step] at taken
    split at taken
    · rename_i j here
      simp only [Option.ite_none_right_eq_some, Option.some.injEq] at taken
      obtain ⟨place, x⟩ := slot
      obtain ⟨⟨rfl, xact⟩, rfl⟩ := taken
      exact commitWork_run xact here
    · simp at taken

theorem simulated_run {s₀ : Cluster N W cfg.consts} {tr : List (ClusterAct N W)}
    (run : Run (Steps (step cfg curTerm)) s₀ tr s) :
    Run (Server.Cluster.Moves cfg curTerm) s₀.base (tr.flatMap labels) s.base :=
  run.simulate (fun s => s.base) labels (fun _ _ _ taken => simulated_step taken)

end Simulation

end Cluster

end Raft2pl.Silo
