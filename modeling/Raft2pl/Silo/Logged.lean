/- The logs and buffers of the workers account for the table, in the build with SILO. -/

import Raft2pl.Silo.Dependency
import Raft2pl.Silo.Balance

set_option autoImplicit false
set_option relaxedAutoImplicit false

namespace Raft2pl.Server

variable {N W : Nat} {cfg : Config N} {curTerm : Fin N → Int}

private theorem Worker.xact_step {id : Fin W} {v v' : Worker N W} {a : WorkerAct N W}
    (here : v.pc = .lockTo) (elsewhere : a.onStore = false) (taken : step cfg id v a = some v') :
    v'.xact = v.xact := by
  obtain ⟨ready, rfl⟩ := step_eq_some.mp taken
  cases a with
  | lockFrom | lockTo | unlockFrom => simp [WorkerAct.onStore] at elsewhere
  | xactEnqueue | taskLoad | setCommitIndex => rfl
  | xactDequeue =>
    have head : v.pc = .head := ready
    simp [here] at head
  | copyToBuffer =>
    have locked : v.pc = .locked := ready
    simp [here] at locked
  | flushTest timeOut =>
    have test : v.pc = .flushTest := ready
    simp [here] at test
  | loggingWork | sendRPC | taskStore => simp [Ready, here] at ready

private theorem Cluster.xact_step {c c' : Cluster N W cfg.consts} {b : ClusterAct N W}
    (common : b.shared = true) (taken : c.step cfg curTerm b = some c') {w : Fin W}
    (here : (c.leader.worker w).pc = .lockTo) :
    (c'.leader.worker w).xact = (c.leader.worker w).xact := by
  cases b with
  | leader a =>
    obtain ⟨frame, moved⟩ := Leader.worker_step (step_leader taken).1 w
    cases mine : a.toWorker w with
    | none => rw [frame mine]
    | some b =>
      exact Worker.xact_step here (onStore_of_shared common mine) (moved b mine)
  | _ => rw [(moves_follower (moves_step taken) rfl).2]

end Raft2pl.Server

namespace Raft2pl.Silo

open Lib (Run Steps Move record record_next exec exec_reaches)
open TwoPl (KvsConst)
open Server (Config Conn)

namespace Worker

variable {w w' : Worker}

private theorem nextLock_busy (locked rest : List WriteElement) :
    (w.nextLock locked rest).pc ≠ .idle := by
  cases rest <;> rintro ⟨⟩

private theorem nextRead_busy {beyondFrom beyondTo : List Byte} {keys : List (BitVec 64)}
    (next : w.nextRead beyondFrom beyondTo keys = some w') : w'.pc ≠ .idle := by
  induction keys with
  | nil =>
    simp only [nextRead, Option.bind_eq_bind, Option.bind_eq_some_iff, Option.some.injEq] at next
    obtain ⟨x, -, rfl⟩ := next
    exact nextLock_busy _ _
  | cons key rest ih =>
    rw [nextRead] at next
    split at next
    · exact ih next
    · obtain rfl := Option.some.inj next
      rintro ⟨⟩

private theorem fail_status (locked : List WriteElement) : (w.fail locked).x.status = .aborted := by
  cases locked <;> rfl

private theorem nextUnlock_status (es : List WriteElement) :
    (w.nextUnlock es).x.status = w.x.status := by
  cases es <;> rfl

end Worker

namespace Process

variable {W : Nat} {s s' : Process W} {i : Fin W} {beyondFrom beyondTo : List Byte}

private theorem readCheck_busy (taken : s.access i beyondFrom beyondTo = some s') {key : BitVec 64}
    {rest : List (BitVec 64)} {expected : Tidword} {val : Val}
    (here : (s.worker i).pc = .readCheck key rest expected val) : (s'.worker i).pc ≠ .idle := by
  intro idle
  simp only [access, here] at taken
  split at taken
  · simp only [Option.bind_eq_bind, Option.bind_eq_some_iff, Option.some.injEq] at taken
    obtain ⟨w', next, rfl⟩ := taken
    rw [go_self] at idle
    exact Worker.nextRead_busy next idle
  · obtain rfl := Option.some.inj taken
    rw [go_self] at idle
    split at idle <;> cases idle

private theorem lockLoad_aborts (taken : s.access i beyondFrom beyondTo = some s')
    {locked rest : List WriteElement} {e : WriteElement}
    (here : (s.worker i).pc = .lockLoad locked e rest) (idle : (s'.worker i).pc = .idle) :
    (s'.worker i).x.status = .aborted := by
  simp only [access, here, Option.some.injEq] at taken
  subst taken
  rw [go_self] at idle ⊢
  split at idle
  next refused => rw [if_pos refused, Worker.fail_status]
  next => cases idle

private theorem lockCas_aborts (taken : s.access i beyondFrom beyondTo = some s')
    {locked rest : List WriteElement} {e : WriteElement} {expected : Tidword}
    (here : (s.worker i).pc = .lockCas locked e rest expected) (idle : (s'.worker i).pc = .idle) :
    (s'.worker i).x.status = .aborted := by
  simp only [access, here] at taken
  split at taken
  · obtain rfl := Option.some.inj taken
    rw [go_self] at idle
    exact absurd idle (Worker.nextLock_busy _ _)
  · obtain rfl := Option.some.inj taken
    rw [go_self] at idle ⊢
    split at idle
    next refused => rw [if_pos refused, Worker.fail_status]
    next => cases idle

private theorem validate_aborts (taken : s.access i beyondFrom beyondTo = some s')
    {r : ReadElement} {rest : List ReadElement} (here : (s.worker i).pc = .validate r rest)
    (idle : (s'.worker i).pc = .idle) : (s'.worker i).x.status = .aborted := by
  simp only [access, here, Option.some.injEq] at taken
  subst taken
  rw [go_self] at idle ⊢
  split at idle
  next refused => rw [if_pos refused, Worker.fail_status]
  next => cases rest <;> cases idle

-- the validation sets the status, and `writePhase` returns with it
private theorem committed_of_idle (sound : (s.worker i).Sound s.table)
    (taken : s.access i beyondFrom beyondTo = some s') (idle : (s'.worker i).pc = .idle)
    (committed : (s'.worker i).x.status = .committed) : (s.worker i).x.status = .committed := by
  have notAborted : (s'.worker i).x.status ≠ .aborted := by simp [committed]
  cases here : (s.worker i).pc with
  | idle => simp [access, here] at taken
  | readLoad key rest =>
    simp only [access, here, Option.some.injEq] at taken
    subst taken
    rw [go_self] at idle
    split at idle <;> cases idle
  | readCheck => exact absurd idle (readCheck_busy taken here)
  | lockLoad => exact absurd (lockLoad_aborts taken here idle) notAborted
  | lockCas => exact absurd (lockCas_aborts taken here idle) notAborted
  | readCopy | unlockLoad | epochLoad =>
    simp only [access, here, Option.some.injEq] at taken
    subst taken
    rw [go_self] at idle
    cases idle
  | unlockStore e rest desired =>
    simp only [Worker.Sound, here] at sound
    simp only [access, here, Option.some.injEq] at taken
    subst taken
    rw [go_self, Worker.nextUnlock_status, sound.1] at committed
    cases committed
  | epochStore epoch =>
    simp only [access, here, Option.some.injEq] at taken
    subst taken
    rw [go_self] at idle
    cases reads : (s.worker i).x.readSet <;> simp [reads, Worker.nextCheck] at idle
  | validate => exact absurd (validate_aborts taken here idle) notAborted
  | commitTid => simpa only [Worker.Sound, here] using sound
  | writeCopy | writeStore =>
    simp only [Worker.Sound, here] at sound
    exact sound.1

private theorem call_busy {req : ClientRequest} (taken : s.call i req = some s') :
    (s'.worker i).pc ≠ .idle := by
  simp only [call, Option.bind_eq_bind, Option.ite_none_right_eq_some, Option.bind_eq_some_iff,
    Option.some.injEq] at taken
  obtain ⟨-, w', next, rfl⟩ := taken
  rw [go_self]
  exact Worker.nextRead_busy next

private theorem access_req (inv : Inv s) (prepared : (s.worker i).Prepared)
    (taken : s.access i beyondFrom beyondTo = some s') : (s'.worker i).req = (s.worker i).req := by
  by_cases early : (s.worker i).committing = false
  · exact (access_early prepared taken (inv.good i).knows early).req
  · cases here : (s.worker i).pc with
    | commitTid =>
      simp only [access, here, Option.some.injEq] at taken
      subst taken
      rw [go_self]
      cases writes : (s.worker i).x.writeSet <;> rfl
    | writeCopy e rest maxtid =>
      simp only [access, here, Option.some.injEq] at taken
      subst taken
      rw [go_self]
    | writeStore e rest maxtid =>
      simp only [access, here, Option.some.injEq] at taken
      subst taken
      rw [go_self]
      cases rest <;> rfl
    | _ => simp [Worker.committing, here] at early

private theorem sum_mine {M : Type} [AddCommMonoid M] (f : ClientRequest → M)
    (calls : List (Fin W × ClientRequest)) :
    (calls.map (fun c => f c.2)).sum = ∑ i, ((mine i calls).map f).sum := by
  induction calls with
  | nil => simp [mine]
  | cons c calls ih =>
    have head : ∀ i, ((mine i (c :: calls)).map f).sum =
        (if c.1 = i then f c.2 else 0) + ((mine i calls).map f).sum := by
      intro i
      by_cases here : c.1 = i <;> simp [mine, here]
    rw [List.map_cons, List.sum_cons, ih, Finset.sum_congr rfl (fun i _ => head i),
      Finset.sum_add_distrib, Finset.sum_ite_eq, if_pos (Finset.mem_univ _)]

end Process

namespace Traced

section Step

variable {N W : Nat} (cfg : Config N) (curTerm : Fin N → Int)

/-- The step does not wrap a tid field, and the strings that its `writePhase` has still to copy fit. -/
def sound {P : KvsConst} (g : Traced N W P) : ClusterAct N W → Bool
  | .access w beyondFrom beyondTo =>
      g.cluster.db.roomy (.access w beyondFrom beyondTo) &&
        g.cluster.db.fits (.access w beyondFrom beyondTo)
  | _ => true

/-- The steps that wrap no tid field, of calls whose strings fit: their copies stay in their tuples. -/
def stepSound (g : Traced N W cfg.consts) (a : ClusterAct N W) : Option (Traced N W cfg.consts) :=
  if g.sound a then g.step cfg curTerm a else none

def unanswered {P : KvsConst} (g : Traced N W P) (w : Fin W) : List ClientRequest :=
  if (g.cluster.base.leader.worker w).pc = .lockTo ∧ (g.cluster.db.worker w).pc = .idle ∧
      (g.cluster.db.worker w).x.status = .committed then
    [(g.cluster.base.leader.worker w).xact.req]
  else []

/-- What the workers' threads know of the executors, which started as `p₀` and have made `calls`. -/
structure Accounts (p₀ : Process W) (calls : List (ProcessAct W)) (g : Traced N W cfg.consts) :
    Prop where
  run : Run (Steps Process.stepSound) p₀ calls g.cluster.db
  req : ∀ w, (g.cluster.base.leader.worker w).pc = .lockTo →
    (g.cluster.db.worker w).req = (g.cluster.base.leader.worker w).xact.req
  returned : ∀ w, Process.mine w (record Process.stepSound Process.returns p₀ calls) =
    (g.committed w).map (·.req) ++ g.unanswered w

end Step

section Accounts

variable {N W : Nat} {cfg : Config N} {curTerm : Fin N → Int} {g₀ g g' : Traced N W cfg.consts}
  {tr : List (ClusterAct N W)} {p₀ : Process W} {calls : List (ProcessAct W)} {w : Fin W}

theorem stepSound_some {a : ClusterAct N W} :
    g.stepSound cfg curTerm a = some g' ↔ g.sound a = true ∧ g.step cfg curTerm a = some g' := by
  simp [stepSound]

private theorem accounts_start (fresh : g.Fresh cfg) : g.Accounts cfg g.cluster.db [] where
  run := .start
  req := fun w here => by simp [(fresh.cluster.base.leader.worker w).pc] at here
  returned := fun w => by
    simp [record, Process.mine, fresh.committed w, unanswered,
      (fresh.cluster.base.leader.worker w).pc]

private theorem accounts_frame (accounts : g.Accounts cfg p₀ calls)
    (db : g'.cluster.db = g.cluster.db) (committed : g'.committed = g.committed)
    (waits : ∀ w, (g'.cluster.base.leader.worker w).pc = .lockTo ↔
      (g.cluster.base.leader.worker w).pc = .lockTo)
    (xact : ∀ w, (g.cluster.base.leader.worker w).pc = .lockTo →
      (g'.cluster.base.leader.worker w).xact = (g.cluster.base.leader.worker w).xact) :
    g'.Accounts cfg p₀ calls := by
  refine ⟨db ▸ accounts.run, fun w here => ?_, fun w => ?_⟩
  · have before := (waits w).mp here
    rw [db, xact w before]
    exact accounts.req w before
  · have same : g'.unanswered w = g.unanswered w := by
      by_cases here : (g.cluster.base.leader.worker w).pc = .lockTo
      · simp [unanswered, db, waits, here, xact w here]
      · simp [unanswered, waits, here]
    rw [committed, same]
    exact accounts.returned w

private theorem accounts_call {db : Process W} (fresh : p₀.Fresh) (accounts : g.Accounts cfg p₀ calls)
    (here : (g.cluster.base.leader.worker w).pc = .lockFrom)
    (taken : g.cluster.db.call w (g.cluster.base.leader.worker w).xact.req = some db) :
    Accounts cfg p₀
      (calls ++ [.transferWork w (g.cluster.base.leader.worker w).xact.req])
      { g with
        sources := Function.update g.sources w []
        cluster := ⟨Cluster.setWorker cfg g.cluster.base w
          (Cluster.called (g.cluster.base.leader.worker w)), db⟩ } := by
  have moved : Steps Process.stepSound g.cluster.db
      (.transferWork w (g.cluster.base.leader.worker w).xact.req) db :=
    Process.stepSound_some.mpr ⟨rfl, Process.stepRoomy_some.mpr ⟨rfl, taken⟩⟩
  have early := Process.call_early (Process.inv_run fresh (Process.roomy_run accounts.run)) taken
  obtain ⟨w', workers, -⟩ := Process.call_moves taken
  refine ⟨.next accounts.run moved, fun u waits => ?_, fun u => ?_⟩
  · rw [worker_setWorker] at waits ⊢
    by_cases eq : u = w
    · subst eq
      rw [if_pos rfl]
      exact early.req
    · rw [if_neg eq] at waits ⊢
      rw [workers, Function.update_of_ne eq]
      exact accounts.req u waits
  · rw [record_next accounts.run moved, Process.mine_append, accounts.returned u]
    have nothing : Process.mine u (Process.returns g.cluster.db
        (.transferWork w (g.cluster.base.leader.worker w).xact.req) db) = [] := rfl
    rw [nothing, List.append_nil]
    refine congrArg ((g.committed u).map (·.req) ++ ·) ?_
    by_cases eq : u = w
    · subst eq
      have busy : (db.worker u).pc ≠ .idle := Process.call_busy taken
      simp [unanswered, here, busy]
    · simp [unanswered, worker_setWorker, eq, workers]

private theorem accounts_access {beyondFrom beyondTo : List Byte} {db : Process W} (fresh : p₀.Fresh)
    (inv : Inv tr g) (accounts : g.Accounts cfg p₀ calls)
    (allowed : g.sound (.access w beyondFrom beyondTo) = true)
    (taken : g.cluster.db.access w beyondFrom beyondTo = some db) :
    Accounts cfg p₀ (calls ++ [.access w beyondFrom beyondTo])
      { g.note (.access w beyondFrom beyondTo) with cluster := { g.cluster with db := db } } := by
  obtain ⟨roomy, fits⟩ := Bool.and_eq_true_iff.mp allowed
  have moved : Steps Process.stepSound g.cluster.db (.access w beyondFrom beyondTo) db :=
    Process.stepSound_some.mpr ⟨fits, Process.stepRoomy_some.mpr ⟨roomy, taken⟩⟩
  have sound := inv.held.sound w
  have waits := access_busy inv taken
  have same : (g.note (.access w beyondFrom beyondTo)).committed = g.committed := by
    simp only [note]
    split
    · split <;> rfl
    · rfl
    · rfl
  obtain ⟨w', workers, -⟩ := Process.access_moves sound taken
  refine ⟨.next accounts.run moved, fun u waits => ?_, fun u => ?_⟩
  · by_cases eq : u = w
    · subst eq
      have kept := Process.access_req (Process.inv_run fresh (Process.roomy_run accounts.run))
        (Process.prepared_run fresh (Process.roomy_run accounts.run) u) taken
      exact kept.trans (accounts.req u waits)
    · show (db.worker u).req = _
      rw [workers, Function.update_of_ne eq]
      exact accounts.req u waits
  · rw [record_next accounts.run moved, Process.mine_append, accounts.returned u, same,
      List.append_assoc]
    refine congrArg ((g.committed u).map (·.req) ++ ·) ?_
    by_cases eq : u = w
    · subst eq
      have busy : (g.cluster.db.worker u).pc ≠ .idle := by
        intro idle
        simp [Process.access, idle] at taken
      have status : (db.worker u).pc = .idle →
          ((db.worker u).x.status = .committed ↔ (g.cluster.db.worker u).x.status = .committed) :=
        fun idle => ⟨Process.committed_of_idle sound taken idle,
          Process.access_committed sound taken⟩
      rw [unanswered, if_neg (fun all => busy all.2.1), List.nil_append, Process.returns]
      by_cases ends : (db.worker u).pc = .idle ∧ (g.cluster.db.worker u).x.status = .committed
      · rw [if_pos ends, Process.mine_self, accounts.req u waits, unanswered,
          if_pos ⟨waits, ends.1, (status ends.1).mpr ends.2⟩]
      · rw [if_neg ends, unanswered, if_neg]
        · rfl
        · rintro ⟨-, idle, committed⟩
          exact ends ⟨idle, (status idle).mp committed⟩
    · have nothing : Process.mine u (Process.returns g.cluster.db
          (.access w beyondFrom beyondTo) db) = [] := by
        rw [Process.returns]
        split
        · exact Process.mine_other eq _
        · rfl
      rw [nothing, List.append_nil]
      simp [unanswered, workers, eq]

private theorem accounts_returned (accounts : g.Accounts cfg p₀ calls) {committed : Bool}
    (here : (g.cluster.base.leader.worker w).pc = .lockTo)
    (idle : (g.cluster.db.worker w).pc = .idle)
    (value : committed = decide ((g.cluster.db.worker w).x.status = .committed)) :
    Accounts cfg p₀ calls
      { g.note (.returned w committed) with
        cluster := { g.cluster with
          base := Cluster.setWorker cfg g.cluster.base w
            (Cluster.answered (g.cluster.base.leader.worker w) committed) } } := by
  have gone : (Cluster.answered (g.cluster.base.leader.worker w) committed).pc ≠ .lockTo := by
    cases committed <;> simp [Cluster.answered]
  have db : (g.note (.returned w committed)).cluster.db = g.cluster.db := by
    cases committed <;> rfl
  refine ⟨accounts.run, fun u waits => ?_, fun u => ?_⟩
  · rw [worker_setWorker] at waits ⊢
    by_cases eq : u = w
    · rw [if_pos eq] at waits
      exact absurd waits gone
    · rw [if_neg eq] at waits ⊢
      exact accounts.req u waits
  · rw [accounts.returned u]
    by_cases eq : u = w
    · subst eq
      cases committed with
      | true =>
        have status := of_decide_eq_true value.symm
        simp [unanswered, here, idle, status, note, worker_setWorker,
          Cluster.answered]
      | false =>
        have status := of_decide_eq_false value.symm
        simp [unanswered, status, note]
    · cases committed <;> simp [unanswered, note, worker_setWorker, eq]

private theorem accounts_step (fresh : p₀.Fresh) (inv : Inv tr g) (accounts : g.Accounts cfg p₀ calls)
    {a : ClusterAct N W} (taken : g.stepSound cfg curTerm a = some g') :
    ∃ calls', g'.Accounts cfg p₀ calls' := by
  obtain ⟨allowed, taken⟩ := stepSound_some.mp taken
  obtain ⟨s, moved, rfl⟩ := Option.map_eq_some_iff.mp taken
  cases a with
  | shared b =>
    simp only [Cluster.step, Option.ite_none_right_eq_some, Option.map_eq_some_iff] at moved
    obtain ⟨common, c, moved, rfl⟩ := moved
    exact ⟨calls, accounts_frame accounts rfl rfl
      (fun u => (Server.Cluster.shared_step common moved u).2)
      (fun u waits => Server.Cluster.xact_step common moved waits)⟩
  | transferWork w =>
    simp only [Cluster.step, Option.ite_none_right_eq_some, Option.map_eq_some_iff] at moved
    obtain ⟨here, db, moved, rfl⟩ := moved
    exact ⟨_, accounts_call fresh accounts here moved⟩
  | access w beyondFrom beyondTo =>
    simp only [Cluster.step, Option.map_eq_some_iff] at moved
    obtain ⟨db, moved, rfl⟩ := moved
    exact ⟨_, accounts_access fresh inv accounts allowed moved⟩
  | returned w committed =>
    simp only [Cluster.step, Option.ite_none_right_eq_some, Option.some.injEq] at moved
    obtain ⟨⟨here, idle, value⟩, rfl⟩ := moved
    exact ⟨calls, accounts_returned accounts here idle value⟩
  | advanceEpoch =>
    obtain rfl := Option.some.inj moved
    have stepped : Steps Process.stepSound g.cluster.db .advanceEpoch
        { g.cluster.db with globalEpoch := g.cluster.db.globalEpoch + 1 } := rfl
    refine ⟨_, .next accounts.run stepped, accounts.req, fun u => ?_⟩
    rw [record_next accounts.run stepped, Process.mine_append, accounts.returned u]
    exact List.append_nil _
  | commitWork n slot =>
    simp only [Cluster.step] at moved
    split at moved
    · simp only [Option.ite_none_right_eq_some, Option.some.injEq] at moved
      obtain ⟨-, rfl⟩ := moved
      exact ⟨calls, accounts_frame accounts rfl rfl (fun _ => Iff.rfl) (fun _ _ => rfl)⟩
    · simp at moved

private theorem publishing_of_published (inv : Inv tr g)
    (published : (g.cluster.db.worker w).published = true) : g.Publishing w := by
  have sound := inv.held.sound w
  constructor
  · by_contra outside
    simp [Worker.published, inv.outside w outside] at published
  · cases here : (g.cluster.db.worker w).pc with
    | writeCopy e rest maxtid =>
      simp only [Worker.Sound, here] at sound
      exact sound.1
    | writeStore e rest maxtid =>
      simp only [Worker.Sound, here] at sound
      exact sound.1
    | _ => simp [Worker.published, here] at published

theorem plain_run (run : Run (Steps (stepSound cfg curTerm)) g₀ tr g) :
    Run (Steps (step cfg curTerm)) g₀ tr g :=
  run.mono (fun _ _ _ taken => (stepSound_some.mp taken).2)

private theorem accounts_run (fresh : g₀.Fresh cfg)
    (run : Run (Steps (stepSound cfg curTerm)) g₀ tr g) :
    ∃ calls, g.Accounts cfg g₀.cluster.db calls :=
  run.invariant (I := fun _ g => ∃ calls, g.Accounts cfg g₀.cluster.db calls)
    ⟨[], accounts_start fresh⟩ (fun _ _ _ _ before ⟨_, accounts⟩ taken =>
      accounts_step fresh.cluster.db (inv_run fresh (plain_run before)) accounts taken)

/-- The transactions that worker `w` has logged, and those that are on their way to its log. -/
def recorded (w : Fin W) (tr : List (ClusterAct N W)) (g : Traced N W cfg.consts) :
    List ClientRequest :=
  ((logged w tr).flatMap Entry.xactSet ++ (g.cluster.base.leader.worker w).unlogged).map (·.req)

end Accounts

section Example

open Server.Cluster (threeConfig)

end Example

end Traced

end Raft2pl.Silo
