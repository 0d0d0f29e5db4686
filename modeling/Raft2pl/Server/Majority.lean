/- A stored task is loaded just when more than half of the nodes are followers whose acks for it
were processed: the leader itself is not counted. -/

import Raft2pl.Server.LostTask

set_option autoImplicit false
set_option relaxedAutoImplicit false

namespace Raft2pl.Server

open Lib (Run Steps exec)

namespace Notifier

variable {N W : Nat}

def processedOf (tr : List (NotifierAct N W)) : List Int := tr.filterMap NotifierAct.processed?

def unprocessed : Notifier N W → List Int
  | .load ack _ => [ack.lsn]
  | _ => []

section Points

variable (ack : ResponseAppendEntries N W) (nextIndex : Int) (j : Job W) (stage : TwoPl.CommitStage)

@[simp] theorem unprocessed_recv : (recv : Notifier N W).unprocessed = [] := rfl

@[simp] theorem unprocessed_vote : (vote ack nextIndex).unprocessed = [] := rfl

@[simp] theorem unprocessed_load : (load ack nextIndex).unprocessed = [ack.lsn] := rfl

@[simp] theorem unprocessed_commit : (commit j stage : Notifier N W).unprocessed = [] := rfl

@[simp] theorem unprocessed_reply : (reply j : Notifier N W).unprocessed = [] := rfl

@[simp] theorem unprocessed_loop : (loop j : Notifier N W).unprocessed = [] := by
  unfold loop
  split <;> rfl

end Points

theorem votesOf_eq {tr : List (NotifierAct N W)} {n : Notifier N W} (run : Run Step .recv tr n) :
    votesOf tr = processedOf tr ++ n.unprocessed := by
  refine run.invariant (I := fun tr n => votesOf tr = processedOf tr ++ n.unprocessed) rfl ?_
  intro tr n b n' _ inv taken
  have votes : votesOf (tr ++ [b]) = votesOf tr ++ b.voted?.toList := by
    cases out : b.voted? <;> simp [votesOf, out]
  have processed : processedOf (tr ++ [b]) = processedOf tr ++ b.processed?.toList := by
    cases out : b.processed? <;> simp [processedOf, out]
  rw [votes, processed, inv]
  cases taken with
  | recv ack nextIndex => cases ack.success <;> simp [NotifierAct.voted?, NotifierAct.processed?]
  | addVoteCount ack nextIndex count =>
    by_cases quorum : N / 2 < count <;>
      simp [NotifierAct.voted?, NotifierAct.processed?, quorum]
  | taskLoad ack nextIndex t =>
    cases t <;> simp [NotifierAct.voted?, NotifierAct.processed?, afterLoad]
  | commitWork | setCommitIndex | sendRPC => simp [NotifierAct.voted?, NotifierAct.processed?]

end Notifier

namespace Cluster

variable {N W : Nat} {cfg : Config N} {curTerm : Fin N → Int}
  {c₀ c c' : Cluster N W cfg.consts} {tr : List (ClusterAct N W)}

/-- The followers whose ack for batch `lsn` of worker `w` the leader has processed. -/
def ackers (w : Fin W) (lsn : Int) (tr : List (ClusterAct N W)) : Finset (Fin N) :=
  Finset.univ.filter (fun f => lsn ∈ Notifier.processedOf (ofNotifier (f, w) (ofLeader tr)))

theorem mem_ackers {w : Fin W} {lsn : Int} {f : Fin N} :
    f ∈ ackers w lsn tr ↔ lsn ∈ Notifier.processedOf (ofNotifier (f, w) (ofLeader tr)) := by
  simp [ackers]

private theorem count_processedOf (fresh : Fresh cfg c₀) (run : Run (Moves cfg curTerm) c₀ tr c)
    {w : Fin W} {e : Entry} (entry : e ∈ leaderLogged w tr) (n : Conn N W) :
    (Notifier.processedOf (ofNotifier n (ofLeader tr))).count e.lsn =
      if n.2 = w ∧ n.1 ∈ ackers w e.lsn tr then 1 else 0 := by
  have own := Leader.notifier_run (leader_run run) n
  rw [fresh.leader.notifier n] at own
  have le : (Notifier.processedOf (ofNotifier n (ofLeader tr))).count e.lsn ≤
      (Notifier.votesOf (ofNotifier n (ofLeader tr))).count e.lsn := by
    rw [Notifier.votesOf_eq own, List.count_append]
    exact Nat.le_add_right _ _
  have votes := count_votesOf fresh run entry n
  by_cases worker : n.2 = w
  · subst worker
    by_cases member : n.1 ∈ ackers n.2 e.lsn tr
    · have once : 0 < (Notifier.processedOf (ofNotifier n (ofLeader tr))).count e.lsn :=
        List.count_pos_iff.mpr (mem_ackers.mp member)
      rw [if_pos ⟨rfl, member⟩]
      split at votes <;> omega
    · rw [if_neg (fun both => member both.2)]
      exact List.count_eq_zero_of_not_mem (fun there => member (mem_ackers.mpr there))
  · rw [if_neg (fun both => worker both.1)] at votes ⊢
    omega

theorem processed_eq_card (fresh : Fresh cfg c₀) (run : Run (Moves cfg curTerm) c₀ tr c)
    {w : Fin W} {e : Entry} (entry : e ∈ leaderLogged w tr) :
    Leader.processed e.lsn (ofLeader tr) = (ackers w e.lsn tr).card :=
  calc Leader.processed e.lsn (ofLeader tr)
      = ∑ n : Conn N W, (Notifier.processedOf (ofNotifier n (ofLeader tr))).count e.lsn :=
        Leader.count_byNotifier NotifierAct.processed? e.lsn (ofLeader tr)
    _ = ∑ n : Conn N W, if n.2 = w ∧ n.1 ∈ ackers w e.lsn tr then 1 else 0 :=
        Finset.sum_congr rfl (fun n _ => count_processedOf fresh run entry n)
    _ = (ackers w e.lsn tr).card := by
        rw [Fintype.sum_prod_type]
        simp [ite_and]

/-- As long as the task is not stored, none of its acks has been processed. -/
def StoredBeforeAcks (w : Fin W) (t : Task W) (tr : List (ClusterAct N W)) : Prop :=
  ∀ pre ∈ tr.inits, t ∉ stored (ofWorker w (ofLeader pre)) →
    Leader.processed t.lsn (ofLeader pre) = 0

instance (w : Fin W) (t : Task W) (tr : List (ClusterAct N W)) :
    Decidable (StoredBeforeAcks w t tr) := by
  unfold StoredBeforeAcks
  infer_instance

private theorem StoredBeforeAcks.attempt {w : Fin W} {t : Task W} (first : StoredBeforeAcks w t tr)
    {pre post : List (ClusterAct N W)} {n : Conn N W} {v : Fin W} {t₀ : Option (Task W)}
    (cut : tr = pre ++ .leader (.notifier n (.taskLoad v t.lsn t₀)) :: post) :
    t ∈ stored (ofWorker w (ofLeader pre)) := by
  by_contra missing
  have inside : pre ++ [.leader (.notifier n (.taskLoad v t.lsn t₀))] ∈ tr.inits := by
    rw [List.mem_inits, cut]
    exact ⟨post, by rw [List.append_assoc, List.singleton_append]⟩
  have same : stored (ofWorker w (ofLeader (pre ++
      [.leader (.notifier n (.taskLoad v t.lsn t₀))]))) = stored (ofWorker w (ofLeader pre)) := by
    by_cases eq : v = w <;>
      simp [ofLeader, ofWorker, ClusterAct.leader?, LeaderAct.toWorker, stored,
        WorkerAct.stored?, eq]
  have none := first _ inside (by rw [same]; exact missing)
  have grown : ofLeader (pre ++ [.leader (.notifier n (.taskLoad v t.lsn t₀))]) =
      ofLeader pre ++ [.notifier n (.taskLoad v t.lsn t₀)] := by
    simp [ofLeader, ClusterAct.leader?]
  rw [grown, Leader.processed_append] at none
  simp [LeaderAct.byNotifier, NotifierAct.processed?] at none

/-- A task that was stored before its acks were processed has been loaded just when the followers
whose acks were processed are more than half of all nodes. -/
theorem majority_loads (fresh : Fresh cfg c₀) (run : Run (Steps (step cfg curTerm)) c₀ tr c)
    {w : Fin W} {t : Task W} (finished : t ∈ stored (ofWorker w (ofLeader tr)))
    (first : StoredBeforeAcks w t tr) :
    (∃ n, (w, t) ∈ Notifier.loadsOf (ofNotifier n (ofLeader tr))) ↔
      N / 2 < (ackers w t.lsn tr).card := by
  have moves := moves_run run
  have leader := leader_run moves
  obtain ⟨-, e, entry, batch⟩ := stored_logged fresh moves finished
  have lsn : e.lsn = t.lsn := congrArg Prod.fst batch
  rw [← lsn, ← processed_eq_card fresh moves entry, lsn,
    Leader.quorum_attempted fresh.leader leader]
  constructor
  · rintro ⟨n, handed⟩
    obtain ⟨number, member⟩ := Leader.loadsOf_label handed
    obtain ⟨pre, post, cut⟩ := leader_cut member
    obtain ⟨c₁, c₂, -, taken, -⟩ := run.split cut
    have moved : Leader.notifierStep cfg c₁.leader n (.taskLoad w number (some t)) =
        some c₂.leader := (step_leader taken).1
    obtain ⟨ack, nextIndex, -, -, -, result, -⟩ := Leader.notifierStep_taskLoad moved
    obtain rfl : t.lsn = number := (taskLoad_some result.symm).1
    exact ⟨n, w, some t, member⟩
  · rintro ⟨n, v, t₀, label⟩
    obtain ⟨pre, post, cut⟩ := leader_cut label
    obtain ⟨c₁, c₂, reached, taken, -⟩ := run.split cut
    -- the attempt is at the list of the worker that stored the task
    obtain ⟨-, e', entry', number'⟩ := attempt_logged fresh (moves_run reached) (moves_step taken)
    have later : e' ∈ leaderLogged v tr := by
      rw [cut, leaderLogged, ofLeader, List.filterMap_append, ofWorker, List.filterMap_append,
        logged_append]
      exact List.mem_append_left _ entry'
    obtain ⟨rfl, -⟩ := Leader.entry_unique fresh.leader leader later entry (number'.trans lsn.symm)
    exact handed_after_attempt fresh moves finished cut (first.attempt cut) rfl

section Example

theorem majority_loads_quorum :
    ∃ n, (0, ⟨0, 0, 1, [Worker.firstLocked]⟩) ∈
      Notifier.loadsOf (ofNotifier n (ofLeader quorumTrace)) := by
  have done : (exec (step threeConfig (fun _ => 1)) threeNodes quorumTrace).isSome = true := by
    decide
  obtain ⟨c, run⟩ := Option.isSome_iff_exists.mp done
  exact (majority_loads threeNodes_fresh (Lib.exec_run run) (by decide) (by decide)).mpr (by decide)

/-- The task is stored, then the ack of follower 1 is processed; follower 2 never answers. -/
def halfTrace : List (ClusterAct 3 1) :=
  shipTrace ++ [.leader (.worker 0 (.taskStore ⟨0, 0, 1, [Worker.firstLocked]⟩))] ++
    replicateTrace 1 ++
    [.leader (.notifier (1, 0) (.recv (ackFrom 1))), .leader (.notifier (1, 0) (.addVoteCount 0 1))]

/-- The leader and one follower of three nodes do not get a batch committed. -/
theorem majority_not_loaded :
    ∃ c, Run (Steps (step threeConfig (fun _ => 1))) threeNodes halfTrace c ∧
      ⟨0, 0, 1, [Worker.firstLocked]⟩ ∈ stored (ofWorker 0 (ofLeader halfTrace)) ∧
      StoredBeforeAcks 0 ⟨0, 0, 1, [Worker.firstLocked]⟩ halfTrace ∧
      ackers 0 0 halfTrace = {1} ∧ 3 < 2 * (({1} : Finset (Fin 3)).card + 1) ∧
      ∀ n, Notifier.loadsOf (ofNotifier n (ofLeader halfTrace)) = [] := by
  have done : (exec (step threeConfig (fun _ => 1)) threeNodes halfTrace).isSome = true := by
    decide
  obtain ⟨c, run⟩ := Option.isSome_iff_exists.mp done
  refine ⟨c, Lib.exec_run run, by decide, by decide, by decide, by decide, ?_⟩
  intro n
  revert n
  decide

end Example

end Cluster

end Raft2pl.Server
