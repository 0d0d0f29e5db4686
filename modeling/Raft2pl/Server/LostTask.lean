/- A task that is stored after its last ack was processed is lost; otherwise it is loaded once. -/

import Raft2pl.Lib.Ownership
import Raft2pl.Server.Durability

set_option autoImplicit false
set_option relaxedAutoImplicit false

namespace Raft2pl.Server

open Lib (Run Steps exec exec_reaches pool)

/-- The batch whose ack is dealt with by this call: a vote that does not make a quorum, or the
attempt to load the task after one that does. -/
def NotifierAct.processed? {N W : Nat} : NotifierAct N W → Option Int
  | .addVoteCount lsn count => if N / 2 < count then none else some lsn
  | .taskLoad _ lsn _ => some lsn
  | _ => none

def NotifierAct.attempted? {N W : Nat} : NotifierAct N W → Option Int
  | .taskLoad _ lsn _ => some lsn
  | _ => none

namespace Leader

variable {N W : Nat} {ν : Type} [DecidableEq ν] {cfg : Config N}
  {s₀ s s' : Leader N W ν cfg.consts} {tr : List (LeaderAct N W ν)}

def processed (lsn : Int) (tr : List (LeaderAct N W ν)) : Nat :=
  (tr.filterMap (LeaderAct.byNotifier NotifierAct.processed?)).count lsn

omit [DecidableEq ν] in
theorem processed_append (lsn : Int) (tr : List (LeaderAct N W ν)) (a : LeaderAct N W ν) :
    processed lsn (tr ++ [a]) = processed lsn tr +
      (LeaderAct.byNotifier NotifierAct.processed? a).toList.count lsn := by
  cases out : LeaderAct.byNotifier NotifierAct.processed? a <;> simp [processed, out]

def attempts (lsn : Int) (tr : List (LeaderAct N W ν)) : Nat :=
  (tr.filterMap (LeaderAct.byNotifier NotifierAct.attempted?)).count lsn

omit [DecidableEq ν] in
private theorem attempts_append (lsn : Int) (tr : List (LeaderAct N W ν)) (a : LeaderAct N W ν) :
    attempts lsn (tr ++ [a]) = attempts lsn tr +
      (LeaderAct.byNotifier NotifierAct.attempted? a).toList.count lsn := by
  cases out : LeaderAct.byNotifier NotifierAct.attempted? a <;> simp [attempts, out]

omit [DecidableEq ν] in
private theorem attempts_pos {lsn : Int} {tr : List (LeaderAct N W ν)} :
    0 < attempts lsn tr ↔ ∃ n v t, LeaderAct.notifier n (.taskLoad v lsn t) ∈ tr := by
  unfold attempts
  rw [List.count_pos_iff, List.mem_filterMap]
  constructor
  · rintro ⟨a, member, label⟩
    cases a with
    | notifier n b =>
      cases b with
      | taskLoad v number t =>
        obtain rfl : number = lsn := by
          simpa [LeaderAct.byNotifier, NotifierAct.attempted?] using label
        exact ⟨n, v, t, member⟩
      | _ => simp [LeaderAct.byNotifier, NotifierAct.attempted?] at label
    | _ => simp [LeaderAct.byNotifier] at label
  · rintro ⟨n, v, t, member⟩
    exact ⟨_, member, rfl⟩

/-- The acks of a batch that are dealt with: votes up to half of the nodes, and the attempts to
load its task, which are made with more votes only. -/
structure Tally (cfg : Config N) (lsn : Int) (tr : List (LeaderAct N W ν))
    (s : Leader N W ν cfg.consts) : Prop where
  processed : processed lsn tr = min (s.votes lsn) (N / 2) + attempts lsn tr
  attempted : 0 < attempts lsn tr → N / 2 < s.votes lsn
  loading : ∀ n ack nextIndex, s.notifier n = .load ack nextIndex → ack.lsn = lsn →
    N / 2 < s.votes lsn

private theorem tally_step {lsn : Int} {a : LeaderAct N W ν} (inv : Tally cfg lsn tr s)
    (moves : Moves cfg s a s') : Tally cfg lsn (tr ++ [a]) s' := by
  have votes := moves.votes lsn
  have more : s.votes lsn ≤ s'.votes lsn := by omega
  refine ⟨?_, ?_, ?_⟩
  · rw [processed_append, attempts_append, inv.processed, votes]
    cases a with
    | notifier n b =>
      cases b with
      | addVoteCount number count =>
        have total := moves.counted n number count rfl
        by_cases eq : number = lsn
        · subst eq
          have next : s'.votes number = s.votes number + 1 := by
            simpa [LeaderAct.byNotifier, NotifierAct.voted?] using votes
          by_cases half : N / 2 < count <;>
            simp [LeaderAct.byNotifier, NotifierAct.processed?, NotifierAct.attempted?,
              NotifierAct.voted?, half] <;> omega
        · by_cases half : N / 2 < count <;>
            simp [LeaderAct.byNotifier, NotifierAct.processed?, NotifierAct.attempted?,
              NotifierAct.voted?, half, eq]
      | taskLoad v number t =>
        simp [LeaderAct.byNotifier, NotifierAct.processed?, NotifierAct.attempted?,
          NotifierAct.voted?]
        omega
      | _ => rfl
    | _ => rfl
  · intro tried
    rw [attempts_append] at tried
    cases none : (LeaderAct.byNotifier NotifierAct.attempted? a).toList.count lsn with
    | zero =>
      rw [none] at tried
      exact lt_of_lt_of_le (inv.attempted tried) more
    | succ k =>
      cases a with
      | notifier n b =>
        cases b with
        | taskLoad v number t =>
          obtain ⟨ack, nextIndex, here, -, same⟩ :=
            moves.called.of_taskLoad
          have eq : number = lsn := by
            by_contra other
            simp [LeaderAct.byNotifier, NotifierAct.attempted?, other] at none
          exact lt_of_lt_of_le (inv.loading n ack nextIndex here (same.symm.trans eq)) more
        | _ => simp [LeaderAct.byNotifier, NotifierAct.attempted?] at none
      | _ => simp [LeaderAct.byNotifier] at none
  · intro n ack nextIndex here number
    obtain ⟨frame, moved⟩ := moves.notifier n
    cases mine : a.toNotifier n with
    | none =>
      rw [frame mine] at here
      exact lt_of_lt_of_le (inv.loading n ack nextIndex here number) more
    | some b =>
      obtain rfl : a = .notifier n b := by
        cases a <;> simp only [LeaderAct.toNotifier, reduceCtorEq,
          Option.ite_none_right_eq_some, Option.some.injEq] at mine
        obtain ⟨rfl, rfl⟩ := mine
        rfl
      obtain ⟨count, rfl, quorum⟩ := (moved b mine).to_load here
      have total := moves.counted n ack.lsn count rfl
      rw [number] at total
      omega

private theorem tally_run (fresh : Fresh cfg s₀) (run : Run (Moves cfg) s₀ tr s) (lsn : Int) :
    Tally cfg lsn tr s := by
  refine run.invariant (I := fun tr s => Tally cfg lsn tr s) ?_
    (fun _ _ _ _ _ inv moves => tally_step inv moves)
  refine ⟨by simp [processed, attempts, fresh.votes], by simp [attempts], ?_⟩
  intro n ack nextIndex here
  simp [fresh.notifier n] at here

theorem quorum_attempted (fresh : Fresh cfg s₀) (run : Run (Moves cfg) s₀ tr s) {lsn : Int} :
    N / 2 < processed lsn tr ↔ ∃ n v t, LeaderAct.notifier n (.taskLoad v lsn t) ∈ tr := by
  obtain ⟨processed, attempted, -⟩ := tally_run fresh run lsn
  rw [← attempts_pos, processed]
  constructor
  · intro quorum
    omega
  · intro tried
    have quorum := attempted tried
    omega

def batchOwner (tr : List (LeaderAct N W ν)) (s : Leader N W ν cfg.consts) :
    Fin W ⊕ ν → Multiset Int
  | .inl w => ((s.worker w).waiting w).map (·.lsn)
  | .inr n => (Notifier.loadsOf (ofNotifier n tr)).map (fun p => p.2.lsn)

private theorem pool_batchOwner [Fintype ν] (fresh : Fresh cfg s₀)
    (run : Run (Moves cfg) s₀ tr s) :
    pool (batchOwner tr s) = ((entries tr).map (fun p => p.2.lsn) : List Int) := by
  have account := batch_accounting (fun _ b => [b.1]) fresh run
  have loads := sum_byNotifier (ν := ν) NotifierAct.loaded? (fun p => [p.2.lsn]) tr
  simp only [Task.batch, Entry.batch] at account
  rw [← loads, add_comm] at account
  rw [pool, Fintype.sum_sum_type]
  simpa only [batchOwner, Lib.contributed, Notifier.loadsOf, entries, ← List.map_eq_flatMap] using
    account

private theorem mem_loaded {w : Fin W} {t : Task W}
    (member : t ∈ loaded (ofWorker w tr)) :
    ∃ n, (w, t) ∈ Notifier.loadsOf (ofNotifier n tr) := by
  obtain ⟨b, made, load⟩ := List.mem_filterMap.mp member
  obtain ⟨a, label, mine⟩ := List.mem_filterMap.mp made
  cases a with
  | acceptClient => simp [LeaderAct.toWorker] at mine
  | worker v c =>
    simp only [LeaderAct.toWorker, Option.ite_none_right_eq_some, Option.some.injEq] at mine
    obtain ⟨⟨-, direct⟩, rfl⟩ := mine
    cases c <;> simp [WorkerAct.loaded?, WorkerAct.direct] at load direct
  | notifier n c =>
    cases c with
    | taskLoad v lsn u =>
      simp only [LeaderAct.toWorker, Option.ite_none_right_eq_some, Option.some.injEq] at mine
      obtain ⟨rfl, rfl⟩ := mine
      obtain rfl : u = some t := by simpa [WorkerAct.loaded?] using load
      exact ⟨n, List.mem_filterMap.mpr ⟨.taskLoad v lsn (some t), List.mem_filterMap.mpr
        ⟨_, label, by simp [LeaderAct.toNotifier]⟩, rfl⟩⟩
    | setCommitIndex slot =>
      simp only [LeaderAct.toWorker, Option.ite_none_right_eq_some, Option.some.injEq] at mine
      obtain ⟨-, rfl⟩ := mine
      simp [WorkerAct.loaded?] at load
    | _ => simp [LeaderAct.toWorker] at mine

theorem loadsOf_label {n : ν} {w : Fin W} {t : Task W}
    (member : (w, t) ∈ Notifier.loadsOf (ofNotifier n tr)) :
    ∃ lsn, LeaderAct.notifier n (.taskLoad w lsn (some t)) ∈ tr := by
  obtain ⟨b, made, load⟩ := List.mem_filterMap.mp member
  obtain ⟨a, label, mine⟩ := List.mem_filterMap.mp made
  cases a with
  | notifier m c =>
    simp only [LeaderAct.toNotifier, Option.ite_none_right_eq_some, Option.some.injEq] at mine
    obtain ⟨rfl, rfl⟩ := mine
    cases c with
    | taskLoad v lsn u =>
      obtain rfl | ⟨u, rfl⟩ := u.eq_none_or_eq_some
      · simp [NotifierAct.loaded?] at load
      · obtain ⟨rfl, rfl⟩ : v = w ∧ u = t := by simpa [NotifierAct.loaded?] using load
        exact ⟨lsn, label⟩
    | _ => simp [NotifierAct.loaded?] at load
  | _ => simp [LeaderAct.toNotifier] at mine

end Leader

namespace Cluster

variable {N W : Nat} {cfg : Config N} {curTerm : Fin N → Int}
  {c₀ c c' : Cluster N W cfg.consts} {tr : List (ClusterAct N W)}

/-- A call other than a notifier's search for the task of the batch that its worker is sending:
logged, but not stored by `taskStore` yet. -/
def storedFirst (c : Cluster N W cfg.consts) : ClusterAct N W → Bool
  | .leader (.notifier _ (.taskLoad v lsn _)) =>
      decide (¬ ((c.leader.worker v).pc = .sending ∧ (c.leader.worker v).lsn = lsn))
  | _ => true

/-- The steps of the cluster in which notifiers search for stored tasks only. -/
def stepStoredFirst (cfg : Config N) (curTerm : Fin N → Int) (c : Cluster N W cfg.consts)
    (b : ClusterAct N W) : Option (Cluster N W cfg.consts) :=
  if c.storedFirst b then step cfg curTerm c b else none

theorem stepStoredFirst_some {b : ClusterAct N W} :
    stepStoredFirst cfg curTerm c b = some c' ↔
      c.storedFirst b = true ∧ step cfg curTerm c b = some c' := by
  simp [stepStoredFirst]

theorem plain_run (run : Run (Steps (stepStoredFirst cfg curTerm)) c₀ tr c) :
    Run (Steps (step cfg curTerm)) c₀ tr c :=
  run.mono (fun _ _ _ taken => (stepStoredFirst_some.mp taken).2)

theorem stored_logged (fresh : Fresh cfg c₀) (run : Run (Moves cfg curTerm) c₀ tr c)
    {w : Fin W} {t : Task W} (member : t ∈ stored (ofWorker w (ofLeader tr))) :
    t.workerId = w ∧ ∃ e ∈ leaderLogged w tr, e.batch = t.batch := by
  have batches := Worker.batches_run (fresh.leader.worker w)
    (Leader.worker_moves (leader_run run) w)
  have old := List.mem_append_left
    (((c.leader.worker w).unstored w).map Task.batch) (List.mem_map_of_mem (f := Task.batch) member)
  rw [batches.stored] at old
  exact ⟨batches.owner t member, List.mem_map.mp old⟩

theorem attempt_logged (fresh : Fresh cfg c₀) (run : Run (Moves cfg curTerm) c₀ tr c)
    {n : Conn N W} {v : Fin W} {lsn : Int} {t : Option (Task W)}
    (moves : Moves cfg curTerm c (.leader (.notifier n (.taskLoad v lsn t))) c') :
    v = n.2 ∧ ∃ e ∈ leaderLogged v tr, e.lsn = lsn := by
  obtain ⟨ack, nextIndex, here, worker, rfl⟩ := (moves_leader moves).1.called.of_taskLoad
  obtain ⟨own, logged⟩ := ackAt_logged (n := n) (a := ack) fresh run (by simp [here])
  obtain rfl : v = n.2 := worker.trans own
  exact ⟨rfl, logged⟩

theorem attempt_stored (fresh : Fresh cfg c₀) (run : Run (Moves cfg curTerm) c₀ tr c)
    {n : Conn N W} {v : Fin W} {lsn : Int} {t : Option (Task W)}
    (moves : Moves cfg curTerm c (.leader (.notifier n (.taskLoad v lsn t))) c')
    (first : c.storedFirst (.leader (.notifier n (.taskLoad v lsn t))) = true) :
    ∃ u ∈ stored (ofWorker v (ofLeader tr)), u.lsn = lsn := by
  obtain ⟨-, e, entry, number⟩ := attempt_logged fresh run moves
  have batches := Worker.batches_run (fresh.leader.worker v)
    (Leader.worker_moves (leader_run run) v)
  have member := List.mem_map_of_mem (f := Entry.batch) entry
  rw [leaderLogged, ← batches.stored] at member
  rcases List.mem_append.mp member with old | pending
  · obtain ⟨u, stored, batch⟩ := List.mem_map.mp old
    exact ⟨u, stored, (congrArg Prod.fst batch).trans number⟩
  · refine absurd ?_ (of_decide_eq_true first)
    unfold Worker.unstored at pending
    split at pending
    · rename_i sending
      have eq : e.batch = (Worker.task v (c.leader.worker v)).batch := by simpa using pending
      exact ⟨sending, (congrArg Prod.fst eq).symm.trans number⟩
    · simp at pending

private theorem attempt_loads (fresh : Fresh cfg c₀) (run : Run (Moves cfg curTerm) c₀ tr c)
    {n : Conn N W} {v : Fin W} {lsn : Int} {t : Option (Task W)}
    (moves : Moves cfg curTerm c (.leader (.notifier n (.taskLoad v lsn t))) c')
    {u : Task W} (stored : u ∈ stored (ofWorker v (ofLeader tr))) (number : u.lsn = lsn) :
    ∃ u ∈ loaded (ofWorker v (ofLeader (tr ++ [.leader (.notifier n (.taskLoad v lsn t))]))),
      u.lsn = lsn := by
  obtain ⟨x, x', loads⟩ := ((moves_leader moves).1.worker v).2 (.taskLoad lsn t)
    (by simp [LeaderAct.toWorker])
  have result : t = (taskLoad lsn (c.leader.worker v).taskList).1 :=
    (Worker.step_eq_some.mp loads).1
  have batches := Worker.batches_run (fresh.leader.worker v)
    (Leader.worker_moves (leader_run run) v)
  have later : loaded (ofWorker v (ofLeader (tr ++ [.leader (.notifier n (.taskLoad v lsn t))]))) =
      loaded (ofWorker v (ofLeader tr)) ++ t.toList := by
    simp [ofLeader, ofWorker, ClusterAct.leader?, LeaderAct.toWorker, WorkerAct.loaded?]
  rw [later]
  rcases List.mem_append.mp (batches.taken.mem_iff.mpr stored) with waiting | done
  · cases t with
    | none => exact absurd number ((taskLoad_none result.symm).2 u waiting)
    | some t' => exact ⟨t', by simp, (taskLoad_some result.symm).1⟩
  · exact ⟨u, List.mem_append_left _ done, number⟩

private theorem stored_unique (fresh : Fresh cfg c₀) (run : Run (Moves cfg curTerm) c₀ tr c)
    {w v : Fin W} {t u : Task W} (here : t ∈ stored (ofWorker w (ofLeader tr)))
    (there : u ∈ stored (ofWorker v (ofLeader tr))) (same : u.lsn = t.lsn) : v = w ∧ u = t := by
  obtain ⟨owner, e, entry, batch⟩ := stored_logged fresh run here
  obtain ⟨owner', e', entry', batch'⟩ := stored_logged fresh run there
  have lsn : e'.lsn = e.lsn :=
    calc e'.lsn = u.lsn := congrArg Prod.fst batch'
      _ = t.lsn := same
      _ = e.lsn := (congrArg Prod.fst batch).symm
  obtain ⟨rfl, rfl⟩ := Leader.entry_unique fresh.leader (leader_run run) entry' entry lsn
  have equal : u.batch = t.batch := batch'.symm.trans batch
  simp only [Task.batch, Prod.mk.injEq] at equal
  refine ⟨rfl, ?_⟩
  cases u
  cases t
  simp_all

theorem leader_cut {a : LeaderAct N W (Conn N W)} (label : a ∈ ofLeader tr) :
    ∃ pre post, tr = pre ++ .leader a :: post := by
  obtain ⟨b, member, isLeader⟩ := List.mem_filterMap.mp label
  obtain rfl : b = .leader a := by
    cases b with
    | leader a' => exact congrArg ClusterAct.leader (Option.some.inj isLeader)
    | _ => simp [ClusterAct.leader?] at isLeader
  exact List.append_of_mem member

theorem handed_after_attempt (fresh : Fresh cfg c₀)
    (run : Run (Moves cfg curTerm) c₀ tr c) {w v : Fin W} {t u : Task W} {n : Conn N W}
    {t₀ : Option (Task W)} {pre post : List (ClusterAct N W)}
    (finished : t ∈ stored (ofWorker w (ofLeader tr)))
    (cut : tr = pre ++ .leader (.notifier n (.taskLoad v t.lsn t₀)) :: post)
    (before : u ∈ stored (ofWorker v (ofLeader pre))) (number : u.lsn = t.lsn) :
    ∃ m, (w, t) ∈ Notifier.loadsOf (ofNotifier m (ofLeader tr)) := by
  have leader := leader_run run
  obtain ⟨c₁, c₂, reached, moves, -⟩ := run.split cut
  obtain ⟨u', got, number'⟩ := attempt_loads fresh reached moves before number
  have loaded : u' ∈ loaded (ofWorker v (ofLeader tr)) := by
    rw [cut, List.append_cons, ofLeader, List.filterMap_append, ofWorker, List.filterMap_append,
      loaded_append]
    exact List.mem_append_left _ got
  -- what was loaded is the task that the worker stored
  have batches := Worker.batches_run (fresh.leader.worker v) (Leader.worker_moves leader v)
  have stored' := batches.taken.mem_iff.mp (List.mem_append_right _ loaded)
  obtain ⟨rfl, rfl⟩ := stored_unique fresh run finished stored' number'
  exact Leader.mem_loaded loaded

theorem handed_once (fresh : Fresh cfg c₀) (run : Run (Moves cfg curTerm) c₀ tr c)
    {w : Fin W} {t : Task W} {n : Conn N W}
    (handed : (w, t) ∈ Notifier.loadsOf (ofNotifier n (ofLeader tr))) :
    (∀ u ∈ (c.leader.worker w).taskList, u.lsn ≠ t.lsn) ∧ ∀ m,
      ((Notifier.loadsOf (ofNotifier m (ofLeader tr))).map (fun p => p.2.lsn)).count t.lsn =
        if m = n then 1 else 0 := by
  have leader := leader_run run
  have once : (pool (Leader.batchOwner (ofLeader tr) c.leader)).Nodup := by
    rw [Leader.pool_batchOwner fresh.leader leader]
    exact Leader.lsn_nodup fresh.leader leader
  have mine : t.lsn ∈ Leader.batchOwner (ofLeader tr) c.leader (.inr n) :=
    List.mem_map_of_mem (f := fun p : Fin W × Task W => p.2.lsn) handed
  refine ⟨fun r waiting same => ?_, fun m => ?_⟩
  · refine Lib.apart_of_nodup once (i := .inr n) (j := .inl w) (by simp) mine ?_
    rw [← same]
    exact List.mem_map_of_mem (f := fun r : Task W => r.lsn) (List.mem_append_right _ waiting)
  · by_cases eq : m = n
    · subst eq
      rw [if_pos rfl]
      have own : (Leader.batchOwner (ofLeader tr) c.leader (.inr m)).Nodup :=
        Multiset.nodup_of_le (Lib.own_le_pool _ _) once
      exact List.count_eq_one_of_mem (Multiset.coe_nodup.mp own) mine
    · rw [if_neg eq]
      refine List.count_eq_zero_of_not_mem (fun there => ?_)
      exact Lib.apart_of_nodup once (i := .inr n) (j := .inr m) (by simpa using Ne.symm eq) mine
        there

/-- As long as notifiers look for stored tasks only, every stored batch with a processed quorum has
left the task list and was handed to exactly one notifier. -/
theorem no_lost_commit (fresh : Fresh cfg c₀)
    (run : Run (Steps (stepStoredFirst cfg curTerm)) c₀ tr c) {w : Fin W} {t : Task W}
    (finished : t ∈ stored (ofWorker w (ofLeader tr)))
    (quorum : N / 2 < Leader.processed t.lsn (ofLeader tr)) :
    (∀ u ∈ (c.leader.worker w).taskList, u.lsn ≠ t.lsn) ∧
      ∃ n, (w, t) ∈ Notifier.loadsOf (ofNotifier n (ofLeader tr)) ∧ ∀ m,
        ((Notifier.loadsOf (ofNotifier m (ofLeader tr))).map (fun p => p.2.lsn)).count t.lsn =
          if m = n then 1 else 0 := by
  have plain := moves_run (plain_run run)
  obtain ⟨n₀, v, t₀, label⟩ :=
    (Leader.quorum_attempted fresh.leader (leader_run plain)).mp quorum
  obtain ⟨pre, post, cut⟩ := leader_cut label
  obtain ⟨before, after, reached, taken, -⟩ := run.split cut
  obtain ⟨first, moved⟩ := stepStoredFirst_some.mp taken
  obtain ⟨u, stored, number⟩ := attempt_stored fresh (moves_run (plain_run reached))
    (moves_step moved) first
  obtain ⟨n, handed⟩ := handed_after_attempt fresh plain finished cut stored number
  obtain ⟨left, once⟩ := handed_once fresh plain handed
  exact ⟨left, n, handed, once⟩

section Example

theorem no_lost_commit_quorum :
    ∃ c, Run (Steps (stepStoredFirst threeConfig (fun _ => 1))) threeNodes quorumTrace c ∧
      ∀ u ∈ (c.leader.worker 0).taskList, u.lsn ≠ 0 := by
  have done : (exec (stepStoredFirst threeConfig (fun _ => 1)) threeNodes quorumTrace).map
      (fun c => decide ((c.leader.worker 0).pc = .head)) = some true := by decide
  obtain ⟨c, run, -⟩ := exec_reaches done
  have all := no_lost_commit threeNodes_fresh run (w := 0)
    (t := ⟨0, 0, 1, [Worker.firstLocked]⟩) (by decide) (by decide)
  exact ⟨c, run, all.1⟩

/-- Both acks are processed, the second one with a vain search for the task, before the worker
stores it. -/
def lostTrace : List (ClusterAct 3 1) :=
  shipTrace ++ replicateTrace 1 ++ replicateTrace 2 ++
    [.leader (.notifier (1, 0) (.recv (ackFrom 1))), .leader (.notifier (1, 0) (.addVoteCount 0 1)),
      .leader (.notifier (2, 0) (.recv (ackFrom 2))), .leader (.notifier (2, 0) (.addVoteCount 0 2)),
      .leader (.notifier (2, 0) (.taskLoad 0 0 none)),
      .leader (.worker 0 (.taskStore ⟨0, 0, 1, [Worker.firstLocked]⟩))]

/-- The task stays in the list with every follower's ack consumed and its keys locked. -/
theorem task_lost :
    ∃ c t, Run (Steps (step threeConfig (fun _ => 1))) threeNodes lostTrace c ∧
      t ∈ stored (ofWorker 0 (ofLeader lostTrace)) ∧
      3 / 2 < Leader.processed t.lsn (ofLeader lostTrace) ∧
      (∀ n, c.toFollower n = [] ∧ c.toLeader n = [] ∧ acked n lostTrace = delivered n lostTrace) ∧
      t ∈ (c.leader.worker 0).taskList ∧ loads (ofLeader lostTrace) = [] ∧
      c.leader.kvs.mutex 1 = true ∧ c.leader.kvs.mutex 3 = true := by
  have done : (exec (step threeConfig (fun _ => 1)) threeNodes lostTrace).map
      (fun c => decide ((∀ n, c.toFollower n = [] ∧ c.toLeader n = []) ∧
        ⟨0, 0, 1, [Worker.firstLocked]⟩ ∈ (c.leader.worker 0).taskList ∧
        c.leader.kvs.mutex 1 = true ∧ c.leader.kvs.mutex 3 = true)) = some true := by decide
  obtain ⟨c, run, holds⟩ := exec_reaches done
  obtain ⟨idle, waiting, locked, locked'⟩ := of_decide_eq_true holds
  refine ⟨c, _, run, ?_, ?_, fun n => ⟨(idle n).1, (idle n).2, ?_⟩, waiting, ?_, locked, locked'⟩
  · decide
  · decide
  · revert n
    decide
  · decide

end Example

end Cluster

end Raft2pl.Server
