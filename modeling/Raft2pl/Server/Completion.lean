/- Whatever the threads of the cluster have done so far, they can bring all requests to their end. -/

import Raft2pl.Server.Progress
import Raft2pl.Server.Accounting
import Mathlib.Data.Prod.Lex

set_option autoImplicit false
set_option relaxedAutoImplicit false

namespace Raft2pl.Server

open Lib (Run Steps exec exec_reaches)
open TwoPl (Valid)

namespace Cluster

variable {N W : Nat} {cfg : Config N} {curTerm : Fin N → Int} {Q : Fin W → List TransReq}
  {c₀ c t : Cluster N W cfg.consts} {tr : List (ClusterAct N W)} {b : ClusterAct N W}

private theorem xact_toWorker {a : LeaderAct N W (Conn N W)} {w : Fin W} {a' : WorkerAct N W}
    (quiet : (ClusterAct.leader a).xact? = none) (mine : a.toWorker w = some a') :
    a'.xact? = none := by
  cases a with
  | acceptClient => cases mine
  | worker v a =>
    simp only [LeaderAct.toWorker, Option.ite_none_right_eq_some, Option.some.injEq] at mine
    obtain ⟨-, rfl⟩ := mine
    exact quiet
  | notifier n b =>
    cases b <;> simp only [LeaderAct.toWorker, Option.ite_none_right_eq_some, reduceCtorEq,
      Option.some.injEq] at mine
    · obtain ⟨-, rfl⟩ := mine
      rfl
    · obtain ⟨-, rfl⟩ := mine
      rfl

private theorem enqueued_quiet (quiet : b.xact? = none) (w : Fin W) :
    enqueued (ofWorker w (ofLeader (tr ++ [b]))) = enqueued (ofWorker w (ofLeader tr)) := by
  rw [ofLeader, List.filterMap_append, ofWorker, List.filterMap_append, enqueued_append]
  refine List.append_right_eq_self.mpr ?_
  cases b with
  | leader a =>
    cases mine : a.toWorker w with
    | none => simp [ClusterAct.leader?, mine, enqueued]
    | some a' =>
      have none := xact_toWorker quiet mine
      simp [ClusterAct.leader?, mine, none]
  | _ => rfl

/-- The cluster serves valid requests `Q`, and not more than there are numbers for batches. Its
notifiers look for stored tasks only. -/
structure Serving (curTerm : Fin N → Int) (c₀ : Cluster N W cfg.consts) (Q : Fin W → List TransReq)
    (tr : List (ClusterAct N W)) (c : Cluster N W cfg.consts) : Prop where
  fresh : Fresh cfg c₀
  run : Run (Steps (stepStoredFirst cfg curTerm)) c₀ tr c
  requests : ∀ w, enqueued (ofWorker w (ofLeader tr)) = Q w
  valid : ∀ w, ∀ x ∈ Q w, Valid cfg.consts x.req
  few : ∑ w, (Q w).length ≤ 2 ^ 31

namespace Serving

theorem plain (serving : Serving curTerm c₀ Q tr c) : Run (Steps (step cfg curTerm)) c₀ tr c :=
  plain_run serving.run

theorem leader (serving : Serving curTerm c₀ Q tr c) :
    Run (Steps (Leader.step cfg)) c₀.leader (ofLeader tr) c.leader :=
  leader_steps serving.plain

theorem pipeline (serving : Serving curTerm c₀ Q tr c) (w : Fin W) :
    Worker.Pipeline (c₀.leader.worker w) (ofWorker w (ofLeader tr)) (c.leader.worker w) :=
  Worker.pipeline_run (serving.fresh.leader.worker w) (Leader.worker_run serving.leader w)

theorem safe (serving : Serving curTerm c₀ Q tr c) : ¬ c.leader.Aborts := by
  refine Leader.not_aborts serving.fresh.leader serving.leader (fun w x member => ?_)
  rw [serving.requests w] at member
  exact serving.valid w x member

theorem numbers (serving : Serving curTerm c₀ Q tr c) {w : Fin W}
    (here : (c.leader.worker w).pc = .logging) : c.leader.nextLsn.toNat < 2 ^ 31 := by
  refine Leader.numbers_last serving.fresh.leader serving.leader ?_ here
  simp only [serving.requests]
  exact serving.few

theorem next (serving : Serving curTerm c₀ Q tr c) (taken : stepStoredFirst cfg curTerm c b = some t)
    (quiet : b.xact? = none) : Serving curTerm c₀ Q (tr ++ [b]) t where
  fresh := serving.fresh
  run := .next serving.run taken
  requests := fun w => (enqueued_quiet quiet w).trans (serving.requests w)
  valid := serving.valid
  few := serving.few

private theorem extend {tr' : List (ClusterAct N W)} (serving : Serving curTerm c₀ Q tr c)
    (run : Run (Steps (stepStoredFirst cfg curTerm)) c tr' t) (quiet : ∀ b ∈ tr', b.xact? = none) :
    Serving curTerm c₀ Q (tr ++ tr') t := by
  induction run with
  | start => simpa using serving
  | next before taken ih =>
    rw [← List.append_assoc]
    refine (ih (fun b member => quiet b (List.mem_append_left _ member))).next taken ?_
    exact quiet _ (List.mem_append_right _ (List.mem_singleton_self _))

end Serving

def contents (c : Cluster N W cfg.consts) : Nat := ∑ w, (c.leader.worker w).content.length

private theorem content_next (serving : Serving curTerm c₀ Q tr c)
    (taken : stepStoredFirst cfg curTerm c b = some t) (quiet : b.xact? = none) (w : Fin W) :
    (t.leader.worker w).content.length ≤ (c.leader.worker w).content.length ∧
      ∀ e, b = .leader (.worker w (.loggingWork e)) →
        (t.leader.worker w).content.length < (c.leader.worker w).content.length := by
  have pipeline := serving.pipeline w
  have plain := (stepStoredFirst_some.mp taken).2
  cases b with
  | leader a =>
    obtain ⟨frame, moved⟩ := Leader.worker_step (step_leader plain).1 w
    cases mine : a.toWorker w with
    | none =>
      rw [frame mine]
      refine ⟨le_rfl, fun e label => ?_⟩
      obtain rfl : a = .worker w (.loggingWork e) := by simpa using label
      simp [LeaderAct.toWorker, WorkerAct.direct] at mine
    | some a' =>
      have moved := moved a' mine
      have sizes := (Worker.content_step pipeline.stamped pipeline.granted moved).length_eq
      have none := xact_toWorker quiet mine
      rw [List.length_append, List.length_append, enqueued_one, none] at sizes
      simp only [Option.toList_none, List.length_nil, add_zero] at sizes
      refine ⟨by omega, fun e label => ?_⟩
      obtain rfl : a = .worker w (.loggingWork e) := by simpa using label
      obtain rfl : .loggingWork e = a' := by simpa [LeaderAct.toWorker, WorkerAct.direct] using mine
      have batch : BatchSize e.nlog := Worker.sized_of_room pipeline.room moved
      obtain ⟨ready, -⟩ := Worker.step_eq_some.mp moved
      have full : e.xactSet.length = e.nlog := by
        rw [ready.2.2]
        exact length_memcpy _ _
      have some := batch.1
      simp only [logged_one, WorkerAct.entry?, Option.toList_some, List.flatMap_singleton] at sizes
      omega
  | _ =>
    rw [(moves_follower (moves_step plain) rfl).2]
    exact ⟨le_rfl, by simp⟩

private theorem contents_next (serving : Serving curTerm c₀ Q tr c)
    (taken : stepStoredFirst cfg curTerm c b = some t) (quiet : b.xact? = none) :
    t.contents ≤ c.contents :=
  Finset.sum_le_sum (fun w _ => (content_next serving taken quiet w).1)

theorem worker_next (serving : Serving curTerm c₀ Q tr c) {w : Fin W}
    (busy : (c.leader.worker w).pc ≠ .head) :
    ∃ a t, stepStoredFirst cfg curTerm c (.leader (.worker w a)) = some t ∧
      Leader.NextCall c.leader w a t.leader := by
  obtain ⟨a, leader', next⟩ := Leader.worker_next serving.safe serving.numbers busy
  obtain ⟨t, taken, rfl⟩ : ∃ t, step cfg curTerm c _ = some t ∧ _ := step_worker next.taken
  exact ⟨a, t, stepStoredFirst_some.mpr ⟨rfl, taken⟩, next⟩

/-- All workers are at the heads of their loops, all notifiers between two tasks, and nothing is on
its way on the connections. -/
structure Settled (c : Cluster N W cfg.consts) : Prop where
  head : ∀ w, (c.leader.worker w).pc = .head
  between : ∀ n, (c.leader.notifier n).job? = none
  clear : ∀ n, c.underWay n = 0

def busy (c : Cluster N W cfg.consts) : Nat ×ₗ Nat ×ₗ Nat :=
  toLex (∑ w, (c.leader.worker w).left,
    toLex (∑ n, c.underWay n, ∑ n, (c.leader.notifier n).left))

private theorem settles_worker (serving : Serving curTerm c₀ Q tr c) {w : Fin W}
    (moving : (c.leader.worker w).pc ≠ .head) :
    ∃ b t, stepStoredFirst cfg curTerm c b = some t ∧ b.xact? = none ∧ t.busy < c.busy := by
  obtain ⟨a, t, taken, next⟩ := worker_next serving moving
  refine ⟨_, t, taken, next.quiet, Prod.Lex.toLex_lt_toLex.mpr (.inl ?_)⟩
  refine Finset.sum_lt_sum (fun v _ => ?_) ⟨w, Finset.mem_univ w, next.less⟩
  by_cases eq : v = w
  · subst eq
    exact next.less.le
  · have frame := (Leader.worker_step next.taken v).1 (by simp [LeaderAct.toWorker, Ne.symm eq])
    rw [frame]

private theorem settles_notifier (serving : Serving curTerm c₀ Q tr c) {n : Conn N W} {j : Job W}
    (here : (c.leader.notifier n).job? = some j) :
    ∃ b t, stepStoredFirst cfg curTerm c b = some t ∧ b.xact? = none ∧ t.busy < c.busy := by
  obtain ⟨x, xact⟩ := Leader.job_xact serving.fresh.leader serving.leader here
  obtain ⟨b, op, call, enabled⟩ := Leader.job_next serving.safe here xact
  obtain ⟨leader', moved⟩ := Option.isSome_iff_exists.mp enabled
  have taken := Leader.notifier_taken moved
  have unread : b.ack? = none := by cases b <;> first | rfl | cases call
  have first : c.storedFirst (.leader (.notifier n b)) = true := by
    cases b <;> first | rfl | cases call
  refine ⟨_, { c with leader := leader' }, stepStoredFirst_some.mpr ⟨first, step_notifier moved unread⟩,
    rfl, ?_⟩
  have workers : ∑ w, (leader'.worker w).left = ∑ w, (c.leader.worker w).left :=
    Finset.sum_congr rfl (fun w _ => (Leader.left_notifier moved w).2)
  have connections : ∑ m, underWay { c with leader := leader' } m = ∑ m, c.underWay m := by
    refine Finset.sum_congr rfl (fun m _ => ?_)
    by_cases eq : m = n
    · subst eq
      simp only [underWay, Notifier.ackLeft_call taken call]
    · simp only [underWay, Leader.notifier_frame moved eq]
  refine Prod.Lex.toLex_lt_toLex.mpr (.inr ⟨workers, ?_⟩)
  refine Prod.Lex.toLex_lt_toLex.mpr (.inr ⟨connections, ?_⟩)
  have less := Notifier.left_call taken call
  refine Finset.sum_lt_sum (fun m _ => ?_) ⟨n, Finset.mem_univ n, less⟩
  by_cases eq : m = n
  · subst eq
    exact less.le
  · exact (congrArg Notifier.left (Leader.notifier_frame moved eq)).le

private theorem settles_connection (serving : Serving curTerm c₀ Q tr c)
    (head : ∀ w, (c.leader.worker w).pc = .head) {n : Conn N W}
    (between : (c.leader.notifier n).job? = none) (under : 0 < c.underWay n) :
    ∃ b t, stepStoredFirst cfg curTerm c b = some t ∧ b.xact? = none ∧ t.busy < c.busy := by
  obtain ⟨b, t, clears⟩ := connection_next serving.fresh serving.plain head between under
  have workers : ∑ w, (t.leader.worker w).left = ∑ w, (c.leader.worker w).left :=
    Finset.sum_congr rfl (fun w _ => clears.worker w)
  refine ⟨b, t, clears.taken, clears.quiet, Prod.Lex.toLex_lt_toLex.mpr (.inr ⟨workers, ?_⟩)⟩
  refine Prod.Lex.toLex_lt_toLex.mpr (.inl ?_)
  refine Finset.sum_lt_sum (fun m _ => ?_) ⟨n, Finset.mem_univ n, clears.less⟩
  by_cases eq : m = n
  · subst eq
    exact clears.less.le
  · exact (clears.others m eq).le

theorem settles_step (serving : Serving curTerm c₀ Q tr c) (unsettled : ¬ c.Settled) :
    ∃ b t, stepStoredFirst cfg curTerm c b = some t ∧ b.xact? = none ∧ t.busy < c.busy := by
  by_cases head : ∀ w, (c.leader.worker w).pc = .head
  · by_cases between : ∀ n, (c.leader.notifier n).job? = none
    · obtain ⟨n, under⟩ : ∃ n, c.underWay n ≠ 0 := by
        by_contra none
        exact unsettled ⟨head, between, by simpa using none⟩
      exact settles_connection serving head (between n) (Nat.pos_of_ne_zero under)
    · obtain ⟨n, inside⟩ := not_forall.mp between
      obtain ⟨j, here⟩ := Option.ne_none_iff_exists'.mp inside
      exact settles_notifier serving here
  · obtain ⟨w, moving⟩ := not_forall.mp head
    exact settles_worker serving moving

def Within (curTerm : Fin N → Int) (c₀ : Cluster N W cfg.consts) (Q : Fin W → List TransReq)
    (K : Nat) (c : Cluster N W cfg.consts) : Prop :=
  (∃ tr, Serving curTerm c₀ Q tr c) ∧ c.contents ≤ K

theorem Within.next {K : Nat} (within : Within curTerm c₀ Q K c)
    (taken : stepStoredFirst cfg curTerm c b = some t) (quiet : b.xact? = none) :
    Within curTerm c₀ Q K t := by
  obtain ⟨⟨tr, serving⟩, few⟩ := within
  exact ⟨⟨_, serving.next taken quiet⟩, (contents_next serving taken quiet).trans few⟩

private theorem one_step (taken : stepStoredFirst cfg curTerm c b = some t) (quiet : b.xact? = none) :
    ∃ tr, Run (Steps (stepStoredFirst cfg curTerm)) c tr t ∧ ∀ b ∈ tr, b.xact? = none :=
  ⟨[b], .next .start taken, by simpa using quiet⟩

theorem settles {K : Nat} (within : Within curTerm c₀ Q K c) :
    ∃ tr t, Run (Steps (stepStoredFirst cfg curTerm)) c tr t ∧ (∀ b ∈ tr, b.xact? = none) ∧
      Within curTerm c₀ Q K t ∧ t.Settled := by
  refine Run.calm busy (fun c within unsettled => ?_) within
  obtain ⟨tr, serving⟩ := within.1
  obtain ⟨b, t, taken, quiet, less⟩ := settles_step serving unsettled
  obtain ⟨tr', run, labels⟩ := one_step taken quiet
  exact ⟨tr', t, run, labels, within.next taken quiet, less⟩

section Settled

theorem Settled.notifier (settled : c.Settled) (n : Conn N W) : c.leader.notifier n = .recv := by
  have clear := settled.clear n
  have between := settled.between n
  cases point : c.leader.notifier n with
  | recv => rfl
  | vote => simp [underWay, point, Notifier.ackLeft] at clear
  | load => simp [underWay, point, Notifier.ackLeft] at clear
  | commit => simp [point, Notifier.job?] at between
  | reply => simp [point, Notifier.job?] at between

private theorem settled_link (serving : Serving curTerm c₀ Q tr c) (settled : c.Settled)
    {n : Conn N W}
    (follower : n.1 ≠ cfg.me) :
    (appended n tr).map Entry.shared = (leaderLogged n.2 tr).map Entry.shared ∧
      Notifier.processedOf (ofNotifier n (ofLeader tr)) = (leaderLogged n.2 tr).map (·.lsn) := by
  have moves := moves_run serving.plain
  have link := link_run serving.fresh moves n
  have batches := Worker.batches_run (serving.fresh.leader.worker n.2)
    (Leader.worker_moves (leader_run moves) n.2)
  obtain ⟨packets, writing, acking, acks⟩ : c.toFollower n = [] ∧ unwritten (c.receiver n) = [] ∧
      unacked (c.receiver n) = [] ∧ c.toLeader n = [] := by
    have clear := settled.clear n
    rw [underWay] at clear
    simp only [← List.length_eq_zero_iff]
    omega
  have sentAll : (sent n tr).map AppendEntriesRpc.shared = (leaderLogged n.2 tr).map Entry.shared := by
    have all := batches.sent n.1 (mem_followers.mpr follower)
    have done : (c.leader.worker n.2).unsent cfg n.1 = [] := by
      simp [Worker.unsent, settled.head n.2]
    rwa [done, List.append_nil] at all
  have written := link.written
  rw [writing, List.append_nil] at written
  have received : received n tr = sent n tr := by
    rw [← link.packets, packets, List.append_nil]
  have logs : (appended n tr).map Entry.shared = (leaderLogged n.2 tr).map Entry.shared := by
    rw [written, received, sentAll]
  refine ⟨logs, ?_⟩
  have own := Leader.notifier_run (leader_run moves) n
  rw [serving.fresh.leader.notifier n] at own
  have returned : delivered n tr = acked n tr := by
    rw [← link.returned, acks, List.append_nil]
  have granted : (delivered n tr).filter (·.success) = delivered n tr := by
    rw [List.filter_eq_self]
    intro a member
    exact (link.answers a (returned ▸ member)).1
  have votes := (Notifier.counting_run own).votes
  rw [settled.notifier n, Notifier.uncounted_recv, List.append_nil, Notifier.votesOf_eq own,
    settled.notifier n, Notifier.unprocessed_recv, List.append_nil] at votes
  have numbers := link.acks
  rw [acking, List.append_nil] at numbers
  calc Notifier.processedOf (ofNotifier n (ofLeader tr))
      = ((delivered n tr).filter (·.success)).map (·.lsn) := votes.symm
    _ = (appended n tr).map (·.lsn) := by rw [granted, returned, numbers]
    _ = (leaderLogged n.2 tr).map (·.lsn) := by
        simpa [Function.comp_def, Entry.shared] using congrArg (List.map Prod.fst) logs

/-- With more than two nodes the followers alone make a quorum, so in a settled cluster every task
was loaded. -/
theorem settled_taskList (several : 2 < N) (serving : Serving curTerm c₀ Q tr c)
    (settled : c.Settled) (w : Fin W) : (c.leader.worker w).taskList = [] := by
  have moves := moves_run serving.plain
  have leader := leader_run moves
  have fresh := serving.fresh
  have batches := Worker.batches_run (fresh.leader.worker w) (Leader.worker_moves leader w)
  rw [List.eq_nil_iff_forall_not_mem]
  intro t waiting
  have finished : t ∈ stored (ofWorker w (ofLeader tr)) :=
    batches.taken.subset (List.mem_append_left _ waiting)
  obtain ⟨-, e, entry, batch⟩ := stored_logged fresh moves finished
  have lsn : e.lsn = t.lsn := congrArg Prod.fst batch
  have all : Finset.univ.erase cfg.me ⊆ ackers w e.lsn tr := by
    intro f member
    have follower : (f, w).1 ≠ cfg.me := (Finset.mem_erase.mp member).1
    rw [mem_ackers, (settled_link serving settled follower).2]
    exact List.mem_map_of_mem entry
  have quorum : N / 2 < Leader.processed t.lsn (ofLeader tr) := by
    have size := Finset.card_le_card all
    rw [Finset.card_erase_of_mem (Finset.mem_univ _), Finset.card_univ, Fintype.card_fin] at size
    rw [← lsn, processed_eq_card fresh moves entry]
    omega
  -- whoever looked for the task found it, or found that another notifier had it
  obtain ⟨n, v, t₀, label⟩ := (Leader.quorum_attempted fresh.leader leader).mp quorum
  obtain ⟨pre, post, cut⟩ := leader_cut label
  obtain ⟨before, after, reached, taken, -⟩ := serving.run.split cut
  obtain ⟨first, moved⟩ := stepStoredFirst_some.mp taken
  obtain ⟨u, old, number⟩ := attempt_stored fresh (moves_run (plain_run reached))
    (moves_step moved) first
  obtain ⟨m, handed⟩ := handed_after_attempt fresh moves finished cut old number
  exact (handed_once fresh moves handed).1 t waiting rfl

private theorem settled_free (several : 2 < N) (serving : Serving curTerm c₀ Q tr c)
    (settled : c.Settled)
    (empty : ∀ w, (c.leader.worker w).buffid = 0) (k : CInt) : c.leader.kvs.mutex k = false := by
  have ex := Leader.exclusive_run serving.fresh.leader serving.leader
  by_contra held
  rw [Bool.not_eq_false, ← ex.mem_iff, Lib.mem_pool] at held
  obtain ⟨w | n, mine⟩ := held
  · simp [Leader.owned, Worker.owned, Worker.handKeys, Worker.bufferKeys, Worker.buffered,
      Worker.taskKeys, Worker.unstored, settled.head w, empty w,
      settled_taskList several serving settled w] at mine
  · simp [Leader.owned, Notifier.owned, Notifier.work, settled.notifier n] at mine

private theorem settled_calls (several : 2 < N) (serving : Serving curTerm c₀ Q tr c)
    (settled : c.Settled) (done : c.contents = 0) (op : CommitOp) :
    ((calls op (ofLeader tr) : Multiset (Place W × TransReq)).map Prod.snd).map normal =
      (∑ w, (Q w : Multiset TransReq)).map normal := by
  have leader := leader_run (moves_run serving.plain)
  have account := Leader.accounting serving.fresh.leader leader op
  have todo : ∑ n, ((c.leader.notifier n).todo op : Multiset (Place W × TransReq)) = 0 :=
    Finset.sum_eq_zero (fun n _ => by rw [settled.notifier n]; rfl)
  have tasks : ∑ w, Multiset.ofList (((c.leader.worker w).waiting w).flatMap (Task.slots w)) = 0 :=
    Finset.sum_eq_zero (fun w _ => by
      simp [Worker.waiting, Worker.unstored, settled.head w,
        settled_taskList several serving settled w])
  rw [todo, tasks, add_zero, add_zero, ← Intake.sum_slotsOf] at account
  rw [account]
  simp only [← Multiset.mapAddMonoidHom_apply, map_sum]
  refine Finset.sum_congr rfl (fun w _ => ?_)
  have empty : (c.leader.worker w).content = [] :=
    List.length_eq_zero_iff.mp ((Finset.sum_eq_zero_iff.mp done) w (Finset.mem_univ w))
  have all := Leader.enqueued_normal serving.fresh.leader serving.leader w
  rw [empty, List.map_nil, List.append_nil, serving.requests w] at all
  simp only [Multiset.mapAddMonoidHom_apply, Multiset.map_coe, all]

end Settled

section Flush

def Draining (curTerm : Fin N → Int) (c₀ : Cluster N W cfg.consts) (Q : Fin W → List TransReq)
    (K : Nat) (w : Fin W) (c : Cluster N W cfg.consts) : Prop :=
  Within curTerm c₀ Q K c ∧ (c.contents < K ∨ c.leader.Flushing w)

private theorem flushes_step {K : Nat} {w : Fin W} (draining : Draining curTerm c₀ Q K w c)
    (notYet : ¬ c.contents < K) :
    ∃ b t, stepStoredFirst cfg curTerm c b = some t ∧ b.xact? = none ∧
      Draining curTerm c₀ Q K w t ∧ (t.leader.worker w).left < (c.leader.worker w).left := by
  obtain ⟨within, progress⟩ := draining
  have flushing := progress.resolve_left notYet
  obtain ⟨tr, serving⟩ := within.1
  have moving : (c.leader.worker w).pc ≠ .head := by
    intro here
    simp [Leader.Flushing, here] at flushing
  obtain ⟨a, t, taken, next⟩ := worker_next serving moving
  refine ⟨_, t, taken, next.quiet, ⟨within.next taken next.quiet, ?_⟩, next.less⟩
  rcases next.flushing flushing with entry | still
  · -- what is logged is not on its way any more
    obtain ⟨e, rfl⟩ : ∃ e, a = .loggingWork e := by
      cases a <;> first | exact ⟨_, rfl⟩ | exact absurd rfl entry
    refine .inl (lt_of_lt_of_le (Finset.sum_lt_sum (fun v _ => ?_) ⟨w, Finset.mem_univ w, ?_⟩)
      within.2)
    · exact (content_next serving taken next.quiet v).1
    · exact (content_next serving taken next.quiet w).2 e rfl
  · exact .inr still

private theorem flushing_starts (several : 2 < N) (serving : Serving curTerm c₀ Q tr c)
    (settled : c.Settled) (waiting : 0 < c.contents) :
    ∃ w t, stepStoredFirst cfg curTerm c (.leader (.worker w .xactDequeue)) = some t ∧
      t.leader.Flushing w := by
  have dequeue : ∀ w, ∃ t, stepStoredFirst cfg curTerm c (.leader (.worker w .xactDequeue)) = some t ∧
      t.leader.worker w = (c.leader.worker w).after cfg .xactDequeue ∧
      t.leader.kvs = c.leader.kvs := by
    intro w
    have moved := Leader.step_worker (a := .xactDequeue) rfl (settled.head w) rfl rfl
    obtain ⟨t, taken, after⟩ : ∃ t, step cfg curTerm c _ = some t ∧ _ := step_worker moved
    refine ⟨t, stepStoredFirst_some.mpr ⟨rfl, taken⟩, ?_, ?_⟩
    · rw [after]
      exact Function.update_self _ _ _
    · rw [after]
  have buffer : ∀ w, (c.leader.worker w).fetch.buffid = (c.leader.worker w).buffid := by
    intro w
    unfold Worker.fetch
    split <;> rfl
  by_cases filled : ∃ w, 0 < (c.leader.worker w).buffid
  · obtain ⟨w, filled⟩ := filled
    obtain ⟨t, taken, after, -⟩ := dequeue w
    refine ⟨w, t, taken, ?_⟩
    by_cases none : (c.leader.worker w).fetch.xact.clientId = -1 <;>
      simp [Leader.Flushing, after, Worker.after, none, buffer w, filled]
  · -- nobody has a lock, so the next request that is fetched gets its keys
    have empty : ∀ w, (c.leader.worker w).buffid = 0 := by simpa using filled
    have free := settled_free several serving settled empty
    obtain ⟨w, -, here⟩ := Finset.exists_ne_zero_of_sum_ne_zero (Nat.pos_iff_ne_zero.mp waiting)
    obtain ⟨t, taken, after, store⟩ := dequeue w
    refine ⟨w, t, taken, ?_⟩
    have fetched : 0 ≤ (c.leader.worker w).fetch.xact.clientId := by
      rcases Worker.fetch_cases (serving.pipeline w).stamped with ⟨flag, queue, -⟩ |
        ⟨client, -, eq⟩ | ⟨tx, rest, client, -, -, eq⟩
      · simp [Worker.content, Worker.buffered, Worker.inHand, WorkerPc.transferring,
          settled.head w, empty w, flag, queue] at here
      · rw [eq]
        exact client
      · rw [eq]
        exact client
    have present : (c.leader.worker w).fetch.xact.clientId ≠ -1 := by omega
    simp [Leader.Flushing, after, store, Worker.after, present, free]

private theorem flushes {K : Nat} {w : Fin W} (within : Within curTerm c₀ Q K c)
    (flushing : c.leader.Flushing w) :
    ∃ tr t, Run (Steps (stepStoredFirst cfg curTerm)) c tr t ∧ (∀ b ∈ tr, b.xact? = none) ∧
      Within curTerm c₀ Q K t ∧ t.contents < K := by
  have draining : Draining curTerm c₀ Q K w c := ⟨within, .inr flushing⟩
  have closer : ∀ c, Draining curTerm c₀ Q K w c → ¬ c.contents < K →
      ∃ tr t, Run (Steps (stepStoredFirst cfg curTerm)) c tr t ∧ (∀ b ∈ tr, b.xact? = none) ∧
        Draining curTerm c₀ Q K w t ∧ (t.leader.worker w).left < (c.leader.worker w).left := by
    intro c draining notYet
    obtain ⟨b, t, taken, quiet, draining', less⟩ := flushes_step draining notYet
    obtain ⟨tr, run, labels⟩ := one_step taken quiet
    exact ⟨tr, t, run, labels, draining', less⟩
  obtain ⟨tr, t, run, quiet, drained, less⟩ :=
    Run.calm (fun c => (c.leader.worker w).left) closer draining
  exact ⟨tr, t, run, quiet, drained.1, less⟩

private theorem finishes_one (several : 2 < N) (serving : ∃ tr, Serving curTerm c₀ Q tr c)
    (waiting : 0 < c.contents) :
    ∃ tr t, Run (Steps (stepStoredFirst cfg curTerm)) c tr t ∧ (∀ b ∈ tr, b.xact? = none) ∧
      (∃ tr, Serving curTerm c₀ Q tr t) ∧ t.contents < c.contents := by
  have within : Within curTerm c₀ Q c.contents c := ⟨serving, le_rfl⟩
  obtain ⟨tr₁, c₁, run₁, quiet₁, within₁, settled⟩ := settles within
  rcases within₁.2.lt_or_eq with less | same
  · exact ⟨tr₁, c₁, run₁, quiet₁, within₁.1, less⟩
  · obtain ⟨tr, serving₁⟩ := within₁.1
    obtain ⟨w, c₂, taken, flushing⟩ := flushing_starts several serving₁ settled (same ▸ waiting)
    obtain ⟨tr₂, run₂, quiet₂⟩ := one_step taken rfl
    obtain ⟨tr₃, t, run₃, quiet₃, within₃, less⟩ := flushes (within₁.next taken rfl) flushing
    refine ⟨tr₁ ++ tr₂ ++ tr₃, t, (run₁.trans run₂).trans run₃, fun b member => ?_, within₃.1, less⟩
    simp only [List.mem_append] at member
    rcases member with (first | second) | third
    · exact quiet₁ b first
    · exact quiet₂ b second
    · exact quiet₃ b third

end Flush

end Cluster

end Raft2pl.Server
