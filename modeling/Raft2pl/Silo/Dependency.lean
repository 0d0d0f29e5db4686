/- What an acknowledged transaction has read from, and which of that is replicated. -/

import Raft2pl.Silo.Cluster
import Raft2pl.Silo.Transfer
import Raft2pl.Lib.Located

set_option autoImplicit false
set_option relaxedAutoImplicit false

namespace Raft2pl.Silo

open Lib (Run Steps exec exec_reaches Located exists_located mem_of_isPrefix)
open TwoPl (KvsConst)
open Server (Config Conn leaderLogged)

/-- A transaction: the worker that ran it, and for how many transactions before it `transferWork` had
returned true there. -/
structure Txn (W : Nat) where
  worker : Fin W
  index : Nat
  deriving DecidableEq

/-- The cluster with its history: the requests for which `transferWork` returned true, the
transaction that stored the version of a tuple, those whose versions the call at hand has read, and
those whose versions a transaction read. -/
structure Traced (N W : Nat) (P : KvsConst) where
  cluster : Cluster N W P
  committed : Fin W → List TransReq
  writer : BitVec 64 → Option (Txn W)
  sources : Fin W → List (Txn W)
  readsFrom : Txn W → List (Txn W)

namespace Traced

section Step

variable {N W : Nat} (cfg : Config N) (curTerm : Fin N → Int)

def current {P : KvsConst} (g : Traced N W P) (w : Fin W) : Txn W := ⟨w, (g.committed w).length⟩

def note {P : KvsConst} (g : Traced N W P) : ClusterAct N W → Traced N W P
  | .transferWork w => { g with sources := Function.update g.sources w [] }
  | .access w _ _ => match (g.cluster.db.worker w).pc with
      | .readCheck key _ expected _ =>
          if expected = (g.cluster.db.table key).tidword then
            { g with
              sources := Function.update g.sources w (g.sources w ++ (g.writer key).toList) }
          else g
      | .writeStore e _ _ =>
          { g with writer := Function.update g.writer e.key (some (g.current w)) }
      | _ => g
  | .returned w true =>
      { g with
        committed := Function.update g.committed w
          (g.committed w ++ [(g.cluster.base.leader.worker w).xact])
        readsFrom := Function.update g.readsFrom (g.current w) (g.sources w) }
  | _ => g

def step (g : Traced N W cfg.consts) (a : ClusterAct N W) : Option (Traced N W cfg.consts) :=
  (g.cluster.step cfg curTerm a).map (fun s => { g.note a with cluster := s })

/-- Nothing has happened yet. -/
structure Fresh (g : Traced N W cfg.consts) : Prop where
  cluster : g.cluster.Fresh cfg
  committed : ∀ w, g.committed w = []
  writer : ∀ k, g.writer k = none
  sources : ∀ w, g.sources w = []
  readsFrom : ∀ t, g.readsFrom t = []

def logged (w : Fin W) (tr : List (ClusterAct N W)) : List Entry :=
  leaderLogged w (tr.flatMap Cluster.labels)

end Step

section Invariant

variable {N W : Nat} {cfg : Config N} {curTerm : Fin N → Int}
  {g₀ g g' : Traced N W cfg.consts} {tr : List (ClusterAct N W)}

/-- Worker `w` is in a call of `transferWork` that is past its validation. -/
def Publishing {P : KvsConst} (g : Traced N W P) (w : Fin W) : Prop :=
  (g.cluster.base.leader.worker w).pc = .lockTo ∧ (g.cluster.db.worker w).x.status = .committed

/-- `transferWork` has returned true for the transaction, or is past its validation. -/
def Published {P : KvsConst} (g : Traced N W P) (t : Txn W) : Prop :=
  t.index < (g.committed t.worker).length ∨ t = g.current t.worker ∧ g.Publishing t.worker

structure Inv (tr : List (ClusterAct N W)) (g : Traced N W cfg.consts) : Prop where
  outside : ∀ w, (g.cluster.base.leader.worker w).pc ≠ .lockTo → (g.cluster.db.worker w).pc = .idle
  held : g.cluster.db.Held
  committed : ∀ w, (logged w tr).flatMap Entry.xactSet ++
    (g.cluster.base.leader.worker w).unlogged = g.committed w
  writer : ∀ k t, g.writer k = some t → g.Published t
  sources : ∀ w, ∀ t ∈ g.sources w,
    g.Published t ∧ (t.worker = w → t.index < (g.committed w).length)
  readsFrom : ∀ u, ∀ t ∈ g.readsFrom u, g.Published t ∧ (t.worker = u.worker → t.index < u.index)

theorem inv_start (fresh : g.Fresh cfg) : Inv [] g where
  outside := fun w _ => fresh.cluster.db.idle w
  held := Process.held_start fresh.cluster.db
  committed := fun w => by
    have worker := fresh.cluster.base.leader.worker w
    simp [fresh.committed w, logged, leaderLogged, Server.ofLeader, Server.ofWorker, Server.logged,
      Server.Worker.unlogged, Server.Worker.buffered, worker.pc, worker.buffid]
  writer := fun k t here => by simp [fresh.writer k] at here
  sources := fun w t here => by simp [fresh.sources w] at here
  readsFrom := fun u t here => by simp [fresh.readsFrom u] at here

theorem Published.frame {t : Txn W} (published : g.Published t)
    (more : ∀ w, (g.committed w).length ≤ (g'.committed w).length)
    (busy : ∀ w, g.Publishing w → (g.committed w).length < (g'.committed w).length ∨
      (g'.committed w).length = (g.committed w).length ∧ g'.Publishing w) : g'.Published t := by
  rcases published with past | ⟨now, publishing⟩
  · exact .inl (past.trans_le (more t.worker))
  · have index : t.index = (g.committed t.worker).length := congrArg Txn.index now
    rcases busy t.worker publishing with returned | ⟨same, still⟩
    · exact .inl (by omega)
    · refine .inr ⟨?_, still⟩
      rw [current, same, ← index]

private theorem logged_next (w : Fin W) (tr : List (ClusterAct N W)) (a : ClusterAct N W) :
    logged w (tr ++ [a]) = logged w tr ++ leaderLogged w (Cluster.labels a) := by
  rw [logged, List.flatMap_append, List.flatMap_singleton, Server.Cluster.leaderLogged_append]
  rfl

private theorem inv_frame {a : ClusterAct N W} {s : Cluster N W cfg.consts} (inv : Inv tr g)
    (outside : ∀ w, (s.base.leader.worker w).pc ≠ .lockTo → (s.db.worker w).pc = .idle)
    (held : s.db.Held)
    (unlogged : ∀ w, (leaderLogged w (Cluster.labels a)).flatMap Entry.xactSet ++
      (s.base.leader.worker w).unlogged = (g.cluster.base.leader.worker w).unlogged)
    (busy : ∀ w, g.Publishing w → (s.base.leader.worker w).pc = .lockTo ∧
      (s.db.worker w).x.status = .committed) : Inv (tr ++ [a]) { g with cluster := s } where
  outside := outside
  held := held
  committed := by
    intro w
    rw [logged_next, List.flatMap_append, List.append_assoc, unlogged w]
    exact inv.committed w
  writer := fun k t here =>
    (inv.writer k t here).frame (fun _ => le_refl _) (fun w now => .inr ⟨rfl, busy w now⟩)
  sources := fun w t here =>
    ⟨(inv.sources w t here).1.frame (fun _ => le_refl _) (fun v now => .inr ⟨rfl, busy v now⟩),
      (inv.sources w t here).2⟩
  readsFrom := fun u t here =>
    ⟨(inv.readsFrom u t here).1.frame (fun _ => le_refl _) (fun v now => .inr ⟨rfl, busy v now⟩),
      (inv.readsFrom u t here).2⟩

private theorem inv_shared {b : Server.ClusterAct N W} {c : Server.Cluster N W cfg.consts}
    (inv : Inv tr g) (common : b.shared = true)
    (taken : g.cluster.base.step cfg curTerm b = some c) :
    Inv (tr ++ [.shared b]) { g with cluster := { g.cluster with base := c } } := by
  have each := Server.Cluster.shared_step common taken
  refine inv_frame inv (fun w outside => ?_) inv.held (fun w => (each w).1) (fun w now => ?_)
  · exact inv.outside w (fun here => outside ((each w).2.mpr here))
  · exact ⟨(each w).2.mpr now.1, now.2⟩

private theorem inv_commitWork {n : Conn N W} {slot : Place W × TransReq} {p : Server.Notifier N W}
    (inv : Inv tr g) : Inv (tr ++ [.commitWork n slot])
      { g with
        cluster := { g.cluster with base := Cluster.setNotifier cfg g.cluster.base n p } } := by
  have quiet : ∀ w, leaderLogged w (Cluster.labels (.commitWork n slot)) = [] := by
    simp [Cluster.labels, Server.CommitOp.ofCommitWork, leaderLogged, Server.ofLeader,
      Server.ofWorker, Server.ClusterAct.leader?, Server.LeaderAct.toWorker, Server.logged]
  refine inv_frame inv inv.outside inv.held (fun w => ?_) (fun w now => now)
  rw [quiet w]
  rfl

private theorem inv_advanceEpoch (inv : Inv tr g) : Inv (tr ++ [.advanceEpoch])
    { g with
      cluster := { g.cluster with
        db := { g.cluster.db with globalEpoch := g.cluster.db.globalEpoch + 1 } } } :=
  inv_frame inv inv.outside (Process.held_step (a := .advanceEpoch) inv.held rfl) (fun _ => rfl)
    (fun _ now => now)

section Call

variable {w : Fin W}

theorem worker_setWorker (c : Server.Cluster N W cfg.consts) (v : Server.Worker N W) (u : Fin W) :
    (Cluster.setWorker cfg c w v).leader.worker u = if u = w then v else c.leader.worker u := by
  by_cases eq : u = w
  · subst eq
    simp [Cluster.setWorker]
  · simp [Cluster.setWorker, eq]

private theorem leaderLogged_worker {b : Server.WorkerAct N W} (store : b.onStore = true)
    (u : Fin W) :
    leaderLogged u [.leader (.worker w b)] = [] := by
  cases b with
  | lockFrom | lockTo | unlockFrom =>
    by_cases eq : w = u <;>
      simp [eq, leaderLogged, Server.ofLeader, Server.ofWorker, Server.ClusterAct.leader?,
        Server.LeaderAct.toWorker, Server.logged, Server.WorkerAct.direct, Server.WorkerAct.entry?]
  | _ => simp [Server.WorkerAct.onStore] at store

theorem inv_call {db : Process W} (inv : Inv tr g)
    (here : (g.cluster.base.leader.worker w).pc = .lockFrom)
    (taken : g.cluster.db.call w (g.cluster.base.leader.worker w).xact.req = some db) :
    Inv (tr ++ [.transferWork w])
      { g with
        sources := Function.update g.sources w []
        cluster := ⟨Cluster.setWorker cfg g.cluster.base w
          (Cluster.called (g.cluster.base.leader.worker w)), db⟩ } := by
  have cleared : Inv tr { g with sources := Function.update g.sources w [] } := by
    refine ⟨inv.outside, inv.held, inv.committed, inv.writer, fun u t member => ?_, inv.readsFrom⟩
    by_cases eq : u = w
    · subst eq
      simp at member
    · exact inv.sources u t (by simpa [eq] using member)
  obtain ⟨w', workers, -, -, -⟩ := Process.call_moves taken
  refine inv_frame cleared (fun u outside => ?_)
    (Process.held_step (a := .transferWork w _) inv.held taken) (fun u => ?_) (fun u now => ?_)
  · rw [worker_setWorker] at outside
    by_cases eq : u = w
    · rw [if_pos eq] at outside
      exact absurd rfl outside
    · rw [if_neg eq] at outside
      show (db.worker u).pc = .idle
      rw [workers, Function.update_of_ne eq]
      exact inv.outside u outside
  · rw [Cluster.labels, leaderLogged_worker rfl, worker_setWorker]
    by_cases eq : u = w
    · subst eq
      simp [Server.Worker.unlogged, Server.Worker.buffered, Cluster.called, here]
    · simp [eq]
  · rw [worker_setWorker]
    by_cases eq : u = w
    · subst eq
      exact absurd now.1 (by rw [here]; decide)
    · rw [if_neg eq, workers, Function.update_of_ne eq]
      exact now

section Access

variable {beyondFrom beyondTo : List Byte} {db : Process W} (inv : Inv tr g)
  (taken : g.cluster.db.access w beyondFrom beyondTo = some db)

include inv taken

theorem access_busy : (g.cluster.base.leader.worker w).pc = .lockTo := by
  by_contra outside
  simp [Process.access, inv.outside w outside] at taken

private theorem inv_db : Inv (tr ++ [.access w beyondFrom beyondTo])
    { g with cluster := { g.cluster with db := db } } := by
  have busy := access_busy inv taken
  have sound := inv.held.sound w
  obtain ⟨w', workers, -⟩ := Process.access_moves sound taken
  refine inv_frame inv (fun u outside => ?_)
    (Process.held_step (a := .access w beyondFrom beyondTo) inv.held taken) (fun _ => rfl)
    (fun u now => ⟨now.1, ?_⟩)
  · have apart : u ≠ w := fun eq => outside (eq ▸ busy)
    show (db.worker u).pc = .idle
    rw [workers, Function.update_of_ne apart]
    exact inv.outside u outside
  · show (db.worker u).x.status = .committed
    by_cases eq : u = w
    · subst eq
      exact Process.access_committed sound taken now.2
    · rw [workers, Function.update_of_ne eq]
      exact now.2

end Access

/-- A version that is read has been published, and by a transaction before the reader's if both ran
on the same worker. -/
theorem inv_read {key : BitVec 64} {rest : List (BitVec 64)} {expected : Tidword} {val : Val}
    (inv : Inv tr g) (here : (g.cluster.db.worker w).pc = .readCheck key rest expected val) :
    Inv tr { g with
      sources := Function.update g.sources w (g.sources w ++ (g.writer key).toList) } := by
  refine ⟨inv.outside, inv.held, inv.committed, inv.writer, fun u t member => ?_, inv.readsFrom⟩
  by_cases eq : u = w
  · subst eq
    have either : t ∈ g.sources u ++ (g.writer key).toList := by simpa using member
    rcases List.mem_append.mp either with old | new
    · exact inv.sources u t old
    · have published := inv.writer key t (by simpa using new)
      refine ⟨published, fun mine => ?_⟩
      have sound := inv.held.sound u
      rw [Worker.Sound, here] at sound
      rcases published with past | ⟨-, -, committed⟩
      · exact mine ▸ past
      · rw [mine, sound] at committed
        cases committed
  · exact inv.sources u t (by simpa [eq] using member)

theorem inv_write {e : WriteElement} {rest : List WriteElement} {maxtid : Tidword}
    (inv : Inv tr g) (here : (g.cluster.db.worker w).pc = .writeStore e rest maxtid)
    (busy : (g.cluster.base.leader.worker w).pc = .lockTo) :
    Inv tr { g with writer := Function.update g.writer e.key (some (g.current w)) } := by
  refine ⟨inv.outside, inv.held, inv.committed, fun k t written => ?_, inv.sources, inv.readsFrom⟩
  have sound := inv.held.sound w
  rw [Worker.Sound, here] at sound
  by_cases eq : k = e.key
  · subst eq
    obtain rfl : g.current w = t := by simpa using written
    exact .inr ⟨rfl, busy, sound.1⟩
  · exact inv.writer k t (by simpa [eq] using written)

theorem inv_access {beyondFrom beyondTo : List Byte} {db : Process W} (inv : Inv tr g)
    (taken : g.cluster.db.access w beyondFrom beyondTo = some db) :
    Inv (tr ++ [.access w beyondFrom beyondTo])
      { g.note (.access w beyondFrom beyondTo) with cluster := { g.cluster with db := db } } := by
  cases here : (g.cluster.db.worker w).pc with
  | readCheck key rest expected val =>
    by_cases same : expected = (g.cluster.db.table key).tidword
    · simp only [note, here, if_pos same]
      exact inv_db (inv_read inv here) taken
    · simp only [note, here, if_neg same]
      exact inv_db inv taken
  | writeStore e rest maxtid =>
    simp only [note, here]
    exact inv_db (inv_write inv here (access_busy inv taken)) taken
  | _ =>
    simp only [note, here]
    exact inv_db inv taken

section Return

variable (inv : Inv tr g) (here : (g.cluster.base.leader.worker w).pc = .lockTo)
  (idle : (g.cluster.db.worker w).pc = .idle)

include inv idle

private theorem outside_returned (committed : Bool) (u : Fin W) (outside : ((Cluster.setWorker cfg
    g.cluster.base w (Cluster.answered (g.cluster.base.leader.worker w) committed)).leader.worker
    u).pc ≠ .lockTo) : (g.cluster.db.worker u).pc = .idle := by
  rw [worker_setWorker] at outside
  by_cases eq : u = w
  · rw [eq]
    exact idle
  · rw [if_neg eq] at outside
    exact inv.outside u outside

include here

private theorem inv_refused (aborted : (g.cluster.db.worker w).x.status ≠ .committed) :
    Inv (tr ++ [.returned w false])
      { g with
        cluster := { g.cluster with
          base := Cluster.setWorker cfg g.cluster.base w
            (Cluster.answered (g.cluster.base.leader.worker w) false) } } := by
  refine inv_frame inv (outside_returned inv idle false) inv.held (fun u => ?_)
    (fun u now => ⟨?_, now.2⟩)
  · have quiet : leaderLogged u (Cluster.labels (N := N) (.returned w false)) = [] := by
      have split := Server.Cluster.leaderLogged_append u
        [.leader (.worker w (Server.WorkerAct.lockTo (N := N) (W := W) false))]
        [.leader (.worker w .unlockFrom)]
      rw [leaderLogged_worker rfl, leaderLogged_worker rfl] at split
      exact split
    rw [quiet, worker_setWorker]
    by_cases eq : u = w
    · subst eq
      simp [Server.Worker.unlogged, Server.Worker.buffered, Cluster.answered, here]
    · simp [eq]
  · rw [worker_setWorker]
    by_cases eq : u = w
    · subst eq
      exact absurd now.2 aborted
    · rw [if_neg eq]
      exact now.1

private theorem inv_granted : Inv (tr ++ [.returned w true])
    { g.note (.returned w true) with
      cluster := { g.cluster with
        base := Cluster.setWorker cfg g.cluster.base w
          (Cluster.answered (g.cluster.base.leader.worker w) true) } } := by
  let more := Function.update g.committed w
    (g.committed w ++ [(g.cluster.base.leader.worker w).xact])
  have mine : more w = g.committed w ++ [(g.cluster.base.leader.worker w).xact] :=
    Function.update_self _ _ _
  have theirs : ∀ u, u ≠ w → more u = g.committed u := fun u eq => Function.update_of_ne eq _ _
  have longer : ∀ u, (g.committed u).length ≤ (more u).length := by
    intro u
    by_cases eq : u = w
    · rw [eq, mine, List.length_append]
      exact Nat.le_add_right _ _
    · rw [theirs u eq]
  have kept : ∀ t, g.Published t → Published
      { g.note (.returned w true) with
        cluster := { g.cluster with
          base := Cluster.setWorker cfg g.cluster.base w
            (Cluster.answered (g.cluster.base.leader.worker w) true) } } t := by
    intro t published
    refine published.frame longer (fun u now => ?_)
    by_cases eq : u = w
    · refine .inl ?_
      show _ < (more u).length
      rw [eq, mine, List.length_append, List.length_singleton]
      exact Nat.lt_succ_self _
    · refine .inr ⟨congrArg List.length (theirs u eq), ?_, now.2⟩
      show ((Cluster.setWorker cfg g.cluster.base w _).leader.worker u).pc = .lockTo
      rw [worker_setWorker, if_neg eq]
      exact now.1
  refine ⟨outside_returned inv idle true, inv.held, fun u => ?_,
    fun k t written => kept t (inv.writer k t written), fun u t member => ?_, fun u t member => ?_⟩
  · show _ ++ ((Cluster.setWorker cfg g.cluster.base w _).leader.worker u).unlogged = more u
    rw [logged_next, Cluster.labels, leaderLogged_worker rfl, List.append_nil, worker_setWorker]
    by_cases eq : u = w
    · subst eq
      rw [mine, ← inv.committed u]
      simp [Server.Worker.unlogged, Server.Worker.buffered, Cluster.answered, here]
    · rw [if_neg eq, theirs u eq]
      exact inv.committed u
  · obtain ⟨published, earlier⟩ := inv.sources u t member
    exact ⟨kept t published, fun same => (earlier same).trans_le (longer u)⟩
  · by_cases eq : u = g.current w
    · subst eq
      have read : t ∈ g.sources w := by simpa [note] using member
      obtain ⟨published, earlier⟩ := inv.sources w t read
      exact ⟨kept t published, earlier⟩
    · have read : t ∈ g.readsFrom u := by simpa [note, eq] using member
      obtain ⟨published, earlier⟩ := inv.readsFrom u t read
      exact ⟨kept t published, earlier⟩

end Return

end Call

theorem inv_step {a : ClusterAct N W} (inv : Inv tr g) (taken : g.step cfg curTerm a = some g') :
    Inv (tr ++ [a]) g' := by
  obtain ⟨s, moved, rfl⟩ := Option.map_eq_some_iff.mp taken
  cases a with
  | shared b =>
    simp only [Cluster.step, Option.ite_none_right_eq_some, Option.map_eq_some_iff] at moved
    obtain ⟨common, c, moved, rfl⟩ := moved
    exact inv_shared inv common moved
  | transferWork w =>
    simp only [Cluster.step, Option.ite_none_right_eq_some, Option.map_eq_some_iff] at moved
    obtain ⟨here, db, moved, rfl⟩ := moved
    exact inv_call inv here moved
  | access w beyondFrom beyondTo =>
    simp only [Cluster.step, Option.map_eq_some_iff] at moved
    obtain ⟨db, moved, rfl⟩ := moved
    exact inv_access inv moved
  | returned w committed =>
    simp only [Cluster.step, Option.ite_none_right_eq_some, Option.some.injEq] at moved
    obtain ⟨⟨here, idle, value⟩, rfl⟩ := moved
    cases committed with
    | true => exact inv_granted inv here idle
    | false => exact inv_refused inv here idle (of_decide_eq_false value.symm)
  | advanceEpoch =>
    obtain rfl := Option.some.inj moved
    exact inv_advanceEpoch inv
  | commitWork n slot =>
    simp only [Cluster.step] at moved
    split at moved
    · simp only [Option.ite_none_right_eq_some, Option.some.injEq] at moved
      obtain ⟨-, rfl⟩ := moved
      exact inv_commitWork inv
    · simp at moved

theorem inv_run (fresh : g₀.Fresh cfg) (run : Run (Steps (step cfg curTerm)) g₀ tr g) : Inv tr g :=
  run.invariant (inv_start fresh) (fun _ _ _ _ _ inv taken => inv_step inv taken)

/-- The entry that contains a transaction is in the leader's log and in the logs of more than half of
the nodes besides. -/
def Durable (tr : List (ClusterAct N W)) (g : Traced N W cfg.consts) (t : Txn W) : Prop :=
  ∃ e i, Located Entry.xactSet (logged t.worker tr) t.index e i ∧
    e ∈ (g.cluster.base.leader.worker t.worker).log.file ∧
    ∃ followers : Finset (Fin N), N < 2 * followers.card ∧ ∀ f ∈ followers, f ≠ cfg.me ∧
      ∃ e' ∈ (g.cluster.base.disk (f, t.worker)).file, e'.shared = e.shared

theorem cluster_run (run : Run (Steps (step cfg curTerm)) g₀ tr g) :
    Run (Steps (Cluster.step cfg curTerm)) g₀.cluster tr g.cluster := by
  have moves : ∀ (g : Traced N W cfg.consts) a g' b, Steps (step cfg curTerm) g a g' →
      some a = some b → Steps (Cluster.step cfg curTerm) g.cluster b g'.cluster := by
    intro g a g' b taken label
    obtain rfl := Option.some.inj label
    obtain ⟨s, moved, rfl⟩ := Option.map_eq_some_iff.mp taken
    exact moved
  have parts := run.project (fun g => g.cluster) some (fun _ _ _ _ none => by cases none) moves
  simpa using parts

private theorem disk_earlier {c₀ c : Server.Cluster N W cfg.consts}
    {ltr : List (Server.ClusterAct N W)}
    (fresh : Server.Cluster.Fresh cfg c₀) (run : Run (Server.Cluster.Moves cfg curTerm) c₀ ltr c)
    {w : Fin W} {pre post : List Entry} {e e₁ : Entry}
    (split : leaderLogged w ltr = pre ++ e :: post) (earlier : e₁ ∈ pre ++ [e]) {f : Fin N}
    (follower : f ≠ cfg.me) (arrived : ∃ e' ∈ Server.appended (f, w) ltr, e'.shared = e.shared) :
    ∃ e' ∈ (c.disk (f, w)).file, e'.shared = e₁.shared := by
  have initial := Server.Cluster.logged_extends_appended fresh run (f, w) follower
  have numbers := Server.Leader.logged_nodup fresh.leader (Server.Cluster.leader_run run) w
  have nodup : ((leaderLogged w ltr).map Entry.shared).Nodup := by
    refine List.Nodup.of_map Prod.fst ?_
    rw [List.map_map]
    exact numbers
  rw [split, List.map_append, List.map_cons] at initial nodup
  obtain ⟨e', entry, same⟩ := arrived
  have reached : e.shared ∈ (Server.appended (f, w) ltr).map Entry.shared := by
    rw [← same]
    exact List.mem_map_of_mem entry
  have before : e₁.shared ∈ pre.map Entry.shared ++ [e.shared] := by
    simpa using List.mem_map_of_mem (f := Entry.shared) earlier
  obtain ⟨e'', entry'', same''⟩ :=
    List.mem_map.mp (mem_of_isPrefix initial nodup reached before)
  refine ⟨e'', ?_, same''⟩
  rw [(Server.Cluster.link_run fresh run (f, w)).file]
  exact List.mem_append_right _ entry''

/-- When the followers of a quorum have appended an entry, the transactions up to one in that entry are
in a majority of logs. -/
theorem durable_upto (fresh : g₀.Fresh cfg) (run : Run (Steps (step cfg curTerm)) g₀ tr g) {u : Fin W}
    {k j : Nat} {e : Entry} (here : Located Entry.xactSet (logged u tr) k e j)
    {followers : Finset (Fin N)} (quorum : N < 2 * followers.card)
    (each : ∀ f ∈ followers, f ≠ cfg.me ∧
      ∃ e' ∈ Server.appended (f, u) (tr.flatMap Cluster.labels), e'.shared = e.shared) :
    ∀ i ≤ k, Durable tr g ⟨u, i⟩ := by
  have whole := Cluster.simulated_run (cluster_run run)
  have file := Server.Worker.file_run
    (Server.Leader.worker_moves (Server.Cluster.leader_run whole) u)
  obtain ⟨pre, post, split, rfl, inside⟩ := here
  intro i upto
  have early : i < ((pre ++ [e]).flatMap Entry.xactSet).length := by
    rw [List.flatMap_append, List.length_append, List.flatMap_singleton]
    omega
  have small : i < ((logged u tr).flatMap Entry.xactSet).length := by
    rw [split, List.append_cons, List.flatMap_append, List.length_append]
    omega
  obtain ⟨e₁, j, located⟩ := exists_located small
  have earlier := (split ▸ located).earlier early
  refine ⟨e₁, j, located, ?_, followers, quorum, fun f member => ?_⟩
  · rw [file]
    exact List.mem_append_right _ located.mem
  · obtain ⟨follower, arrived⟩ := each f member
    exact ⟨follower, disk_earlier fresh.cluster.base whole split earlier follower arrived⟩

/-- When a transaction's commit message has been sent, the transaction and all earlier ones of the same
worker are in the leader's log and in a majority of logs besides; so are those of them that it has
read from. -/
theorem acknowledged_reads_durable (fresh : g₀.Fresh cfg)
    (run : Run (Steps (step cfg curTerm)) g₀ tr g) {n : Conn N W} {slot : Place W × TransReq}
    (sent : ClusterAct.shared (.leader (.notifier n (.sendRPC slot .sent))) ∈ tr) :
    ∃ k e, Located Entry.xactSet (logged slot.1.workerId tr) k e slot.1.index ∧
      e.lsn = slot.1.lsn ∧ (g.committed slot.1.workerId)[k]? = some slot.2 ∧
      Durable tr g ⟨slot.1.workerId, k⟩ ∧
      ∀ t ∈ g.readsFrom ⟨slot.1.workerId, k⟩, g.Published t ∧
        (t.worker = slot.1.workerId → Durable tr g t) := by
  have inv := inv_run fresh run
  obtain ⟨before, after, cut⟩ := List.append_of_mem sent
  obtain ⟨g₁, g₂, reached, taken, -⟩ := run.split cut
  -- the message is sent for a batch with a quorum
  have early := Cluster.simulated_run (cluster_run reached)
  obtain ⟨s, moved, -⟩ := Option.map_eq_some_iff.mp taken
  simp only [Cluster.step, Option.ite_none_right_eq_some, Option.map_eq_some_iff] at moved
  obtain ⟨-, c, moved, -⟩ := moved
  have call : (Server.NotifierAct.sendRPC slot .sent : Server.NotifierAct N W).call? =
      some (.sendRPC, slot) := rfl
  obtain ⟨e, entry, number, content, -, followers, quorum, each⟩ :=
    Server.Cluster.call_durable fresh.cluster.base early call (Server.Cluster.moves_step moved)
  have later : tr.flatMap Cluster.labels = before.flatMap Cluster.labels ++
      (ClusterAct.shared (.leader (.notifier n (.sendRPC slot .sent))) :: after).flatMap
        Cluster.labels := by
    rw [cut, List.flatMap_append]
  have entry' : e ∈ logged slot.1.workerId tr := by
    rw [logged, later, Server.Cluster.leaderLogged_append]
    exact List.mem_append_left _ entry
  obtain ⟨pre, post, split⟩ := List.append_of_mem entry'
  obtain ⟨inside, -⟩ := List.getElem?_eq_some_iff.mp content
  have here : Located Entry.xactSet (logged slot.1.workerId tr)
      ((pre.flatMap Entry.xactSet).length + slot.1.index) e slot.1.index :=
    ⟨pre, post, split, rfl, inside⟩
  have durable := durable_upto fresh run here quorum (fun f member => by
    obtain ⟨follower, e', arrived, same, -⟩ := each f member
    refine ⟨follower, e', ?_, same⟩
    rw [later, Server.appended, List.filterMap_append]
    exact List.mem_append_left _ arrived)
  refine ⟨_, e, here, number, ?_, durable _ (le_refl _), fun t member => ?_⟩
  · obtain ⟨small, -⟩ := List.getElem?_eq_some_iff.mp (here.getElem?_eq.trans content)
    rw [← inv.committed, List.getElem?_append_left small, here.getElem?_eq, content]
  · obtain ⟨published, order⟩ := inv.readsFrom _ t member
    refine ⟨published, fun same => ?_⟩
    have earlier := order same
    obtain ⟨worker, index⟩ := t
    obtain rfl : worker = slot.1.workerId := same
    exact durable index (Nat.le_of_lt earlier)

end Invariant

section Example

open Server.Cluster (threeConfig)

def tracedStart (W : Nat) : Traced 3 W threeConfig.consts where
  cluster :=
    { base := Server.Cluster.start threeConfig (.new _ (fun _ => 100)) (fun _ => []) (fun _ => [])
      db := .start (tableOf 5) }
  committed := fun _ => []
  writer := fun _ => none
  sources := fun _ => []
  readsFrom := fun _ => []

theorem tracedStart_fresh (W : Nat) : (tracedStart W).Fresh threeConfig where
  cluster := ⟨Server.Cluster.start_fresh threeConfig (fun _ => rfl) _ _,
    Process.start_fresh (fun _ => rfl)⟩
  committed := fun _ => rfl
  writer := fun _ => rfl
  sources := fun _ => rfl
  readsFrom := fun _ => rfl

def firstXact : TransReq := ⟨0, 7, ⟨1, 2, 3, 0⟩⟩

def secondXact : TransReq := ⟨0, 8, ⟨2, 3, 1, 0⟩⟩

def runTrace {W : Nat} (w : Fin W) (x : TransReq) : List (ClusterAct 3 W) :=
  [.shared (.leader (.worker w (.xactEnqueue x))), .shared (.leader (.worker w .xactDequeue)),
    .transferWork w] ++ List.replicate 19 (.access w [] []) ++
    [.returned w true, .shared (.leader (.worker w .copyToBuffer))]

def shipTrace {W : Nat} (w : Fin W) (xs : List TransReq) : List (ClusterAct 3 W) :=
  [.shared (.leader (.worker w (.flushTest true))),
    .shared (.leader (.worker w (.loggingWork ⟨0, 1, xs.length, 0, xs⟩)))] ++
    [1, 2].map (fun f => .shared (.leader (.worker w
      (.sendRPC ⟨1, 0, -1, 0, 0, 0, xs, xs.length, w, f⟩)))) ++
    [.shared (.leader (.worker w (.taskStore ⟨w, 0, xs.length, xs⟩)))] ++
    [1, 2].flatMap (fun f => [.shared (.recv (f, w) ⟨1, 0, -1, 0, 0, 0, xs, xs.length, w, f⟩),
      .shared (.loggingWork (f, w) w ⟨0, 1, xs.length, 5, xs⟩),
      .shared (.sendAck (f, w) ⟨1, true, 0, w, f⟩),
      .shared (.leader (.notifier (f, w) (.recv ⟨1, true, 0, w, f⟩)))])

def commitTrace {W : Nat} (w : Fin W) (xs : List TransReq) : List (ClusterAct 3 W) :=
  [.shared (.leader (.notifier (1, w) (.addVoteCount 0 1))),
    .shared (.leader (.notifier (2, w) (.addVoteCount 0 2))),
    .shared (.leader (.notifier (2, w) (.taskLoad w 0 (some ⟨w, 0, xs.length, xs⟩))))] ++
    (slots w 0 xs).flatMap (fun slot => [.commitWork (2, w) slot,
      .shared (.leader (.notifier (2, w) (.setCommitIndex slot 1))),
      .shared (.leader (.notifier (2, w) (.sendRPC slot .sent)))])

def sameWorkerTrace : List (ClusterAct 3 1) :=
  [.shared (.leader .acceptClient)] ++ runTrace 0 firstXact ++
    [.shared (.leader (.worker 0 (.flushTest false)))] ++ runTrace 0 secondXact ++
    shipTrace 0 [firstXact, secondXact] ++ commitTrace 0 [firstXact, secondXact]

/-- Both are in the batch that is committed. -/
theorem acknowledged_reads_durable_same :
    ∃ g, Run (Steps (step threeConfig (fun _ => 1))) (tracedStart 1) sameWorkerTrace g ∧
      ⟨0, 0⟩ ∈ g.readsFrom ⟨0, 1⟩ ∧ Durable sameWorkerTrace g ⟨0, 0⟩ := by
  have done : (exec (step threeConfig (fun _ => 1)) (tracedStart 1) sameWorkerTrace).map
      (fun g => decide (⟨0, 0⟩ ∈ g.readsFrom ⟨0, 1⟩)) = some true := by decide
  obtain ⟨g, run, holds⟩ := exec_reaches done
  have read := of_decide_eq_true holds
  have sent : .shared (.leader (.notifier (2, 0) (.sendRPC (⟨0, 0, 1⟩, secondXact) .sent))) ∈
      sameWorkerTrace := by decide
  obtain ⟨k, e, ⟨pre, post, split, rank, -⟩, -, -, -, reads⟩ :=
    acknowledged_reads_durable (tracedStart_fresh 1) run sent
  -- the log has one entry
  have single : logged 0 sameWorkerTrace = [⟨0, 1, 2, 0, [firstXact, secondXact]⟩] := by decide
  rw [single] at split
  cases pre with
  | nil =>
    obtain rfl : k = 1 := by simpa using rank
    exact ⟨g, run, read, (reads _ read).2 rfl⟩
  | cons e' pre => simp at split

/-- Worker 1 runs the second transaction and ships it, while the first one waits in the buffer of
worker 0. -/
def overtakingTrace : List (ClusterAct 3 2) :=
  [.shared (.leader .acceptClient)] ++ runTrace 0 firstXact ++ runTrace 1 secondXact ++
    shipTrace 1 [secondXact] ++ commitTrace 1 [secondXact]

/-- The second transaction is acknowledged, and the first one, which it read from, is in no log. -/
theorem acknowledged_reads_overtaken :
    ∃ g, Run (Steps (step threeConfig (fun _ => 1))) (tracedStart 2) overtakingTrace g ∧
      ClusterAct.shared (.leader (.notifier (2, 1) (.sendRPC (⟨1, 0, 0⟩, secondXact) .sent))) ∈
        overtakingTrace ∧
      Located Entry.xactSet (logged 1 overtakingTrace) 0 ⟨0, 1, 1, 0, [secondXact]⟩ 0 ∧
      ⟨0, 0⟩ ∈ g.readsFrom ⟨1, 0⟩ ∧ ¬ Durable overtakingTrace g ⟨0, 0⟩ ∧
      (g.cluster.base.leader.worker 0).log.file = [] ∧
      ∀ f, (g.cluster.base.disk (f, 0)).file = [] := by
  have done : (exec (step threeConfig (fun _ => 1)) (tracedStart 2) overtakingTrace).map
      (fun g => decide (⟨0, 0⟩ ∈ g.readsFrom ⟨1, 0⟩ ∧
        (g.cluster.base.leader.worker 0).log.file = [] ∧
        ∀ f, (g.cluster.base.disk (f, 0)).file = [])) = some true := by decide
  obtain ⟨g, run, holds⟩ := exec_reaches done
  obtain ⟨read, leader, followers⟩ := of_decide_eq_true holds
  have shipped : logged 1 overtakingTrace = [⟨0, 1, 1, 0, [secondXact]⟩] := by decide
  have unlogged : logged 0 overtakingTrace = [] := by decide
  refine ⟨g, run, by decide, ⟨[], [], shipped, rfl, by decide⟩, read, ?_, leader, followers⟩
  rintro ⟨e, i, located, -⟩
  have entry := located.mem
  rw [unlogged] at entry
  simp at entry
end Example

end Traced

end Raft2pl.Silo
