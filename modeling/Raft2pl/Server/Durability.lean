/- Commits only of what a majority of followers has in its logs. -/

import Raft2pl.Server.Replication
import Raft2pl.Server.Commit
import Mathlib.Data.Fintype.BigOperators

set_option autoImplicit false
set_option relaxedAutoImplicit false

namespace Raft2pl.Server

open Lib (Run Steps exec exec_reaches)
open TwoPl (KvsConst)

namespace Notifier

variable {N W : Nat}

def acksOf (tr : List (NotifierAct N W)) : List (ResponseAppendEntries N W) :=
  tr.filterMap NotifierAct.ack?

def votesOf (tr : List (NotifierAct N W)) : List Int := tr.filterMap NotifierAct.voted?

def uncounted : Notifier N W → List Int
  | .vote ack _ => [ack.lsn]
  | _ => []

def ackAt : Notifier N W → Option (ResponseAppendEntries N W)
  | .vote ack _ | .load ack _ => some ack
  | _ => none

section Points

variable (a : ResponseAppendEntries N W) (nextIndex : Int) (j : Job W) (stage : TwoPl.CommitStage)

@[simp] theorem uncounted_recv : (recv : Notifier N W).uncounted = [] := rfl

@[simp] theorem uncounted_vote : (vote a nextIndex).uncounted = [a.lsn] := rfl

@[simp] theorem uncounted_load : (load a nextIndex).uncounted = [] := rfl

@[simp] theorem uncounted_commit : (commit j stage : Notifier N W).uncounted = [] := rfl

@[simp] theorem uncounted_reply : (reply j : Notifier N W).uncounted = [] := rfl

@[simp] theorem uncounted_loop : (loop j : Notifier N W).uncounted = [] := by
  unfold loop
  split <;> rfl

@[simp] theorem ackAt_recv : (recv : Notifier N W).ackAt = none := rfl

@[simp] theorem ackAt_vote : (vote a nextIndex).ackAt = some a := rfl

@[simp] theorem ackAt_load : (load a nextIndex).ackAt = some a := rfl

@[simp] theorem ackAt_commit : (commit j stage : Notifier N W).ackAt = none := rfl

@[simp] theorem ackAt_reply : (reply j : Notifier N W).ackAt = none := rfl

@[simp] theorem ackAt_loop : (loop j : Notifier N W).ackAt = none := by
  unfold loop
  split <;> rfl

end Points

structure Counting (tr : List (NotifierAct N W)) (n : Notifier N W) : Prop where
  votes : ((acksOf tr).filter (·.success)).map (·.lsn) = votesOf tr ++ n.uncounted
  ack : ∀ a, n.ackAt = some a → a ∈ acksOf tr

private theorem counting_step {n n' : Notifier N W} {b : NotifierAct N W}
    {tr : List (NotifierAct N W)}
    (inv : Counting tr n) (taken : Step n b n') : Counting (tr ++ [b]) n' := by
  have acks : acksOf (tr ++ [b]) = acksOf tr ++ b.ack?.toList := by
    cases out : b.ack? <;> simp [acksOf, out]
  have votes : votesOf (tr ++ [b]) = votesOf tr ++ b.voted?.toList := by
    cases out : b.voted? <;> simp [votesOf, out]
  have before := inv.votes
  have kept := inv.ack
  refine ⟨?_, ?_⟩ <;> rw [acks]
  · rw [votes]
    cases taken with
    | recv a nextIndex =>
      cases granted : a.success <;>
        simpa [granted, NotifierAct.ack?, NotifierAct.voted?] using before
    | addVoteCount a nextIndex count =>
      by_cases quorum : N / 2 < count <;>
        simpa [quorum, NotifierAct.ack?, NotifierAct.voted?] using before
    | taskLoad a nextIndex t =>
      cases t <;> simpa [NotifierAct.ack?, NotifierAct.voted?, afterLoad] using before
    | commitWork | setCommitIndex | sendRPC =>
      simpa [NotifierAct.ack?, NotifierAct.voted?] using before
  · cases taken with
    | recv a nextIndex => cases a.success <;> simp [NotifierAct.ack?]
    | addVoteCount a nextIndex count =>
      have old := kept a rfl
      by_cases quorum : N / 2 < count <;> simp [quorum, NotifierAct.ack?, old]
    | taskLoad a nextIndex t => cases t <;> simp [afterLoad]
    | commitWork | setCommitIndex | sendRPC => simp

theorem counting_run {tr : List (NotifierAct N W)} {n : Notifier N W}
    (run : Run Step .recv tr n) : Counting tr n :=
  run.invariant ⟨rfl, by simp [ackAt]⟩ (fun _ _ _ _ _ inv taken => counting_step inv taken)

end Notifier

namespace Leader

variable {N W : Nat} {ν : Type} [DecidableEq ν] {cfg : Config N}
  {s₀ s s' : Leader N W ν cfg.consts} {tr : List (LeaderAct N W ν)}

def votesCast (tr : List (LeaderAct N W ν)) : List Int :=
  tr.filterMap (LeaderAct.byNotifier NotifierAct.voted?)

private theorem votes_count (fresh : Fresh cfg s₀) (run : Run (Moves cfg) s₀ tr s) (lsn : Int) :
    s.votes lsn = (votesCast tr).count lsn := by
  refine run.invariant (I := fun tr s => s.votes lsn = (votesCast tr).count lsn)
    (by simp [fresh.votes, votesCast]) ?_
  intro tr s a s' _ inv moves
  have cast : votesCast (tr ++ [a]) =
      votesCast tr ++ (LeaderAct.byNotifier NotifierAct.voted? a).toList := by
    cases out : LeaderAct.byNotifier NotifierAct.voted? a <;> simp [votesCast, out]
  rw [cast, List.count_append, ← inv]
  exact moves.votes lsn

theorem count_byNotifier [Fintype ν] (g : NotifierAct N W → Option Int) (lsn : Int)
    (tr : List (LeaderAct N W ν)) : (tr.filterMap (LeaderAct.byNotifier g)).count lsn =
      ∑ n, ((ofNotifier n tr).filterMap g).count lsn := by
  have cast := sum_byNotifier (ν := ν) g (fun l => [l]) tr
  simp only [Lib.contributed, List.flatMap_singleton'] at cast
  have count := congrArg (Multiset.count lsn) cast
  rw [Multiset.count_sum', Multiset.coe_count] at count
  rw [← count]
  exact Finset.sum_congr rfl (fun n _ => Multiset.coe_count _ _)

theorem entry_unique (fresh : Fresh cfg s₀) (run : Run (Moves cfg) s₀ tr s) {w w' : Fin W}
    {e e' : Entry} (here : e ∈ logged (ofWorker w tr)) (there : e' ∈ logged (ofWorker w' tr))
    (same : e.lsn = e'.lsn) : w = w' ∧ e = e' := by
  have pair := List.inj_on_of_nodup_map (lsn_nodup fresh run) (mem_entries.mpr here)
    (mem_entries.mpr there) same
  simpa using pair

theorem call_logged [Fintype ν] (fresh : Fresh cfg s₀) (run : Run (Moves cfg) s₀ tr s)
    {n : ν} {b : NotifierAct N W} {op : CommitOp} {slot : Place W × TransReq}
    (call : b.call? = some (op, slot)) (moves : Moves cfg s (.notifier n b) s') :
    ∃ e ∈ logged (ofWorker slot.1.workerId tr), e.lsn = slot.1.lsn ∧
      e.xactSet[slot.1.index]? = some slot.2 := by
  have after := Run.next run moves
  have made : slot ∈ calls op (tr ++ [.notifier n b]) := by
    simp [calls_append, LeaderAct.byNotifier, NotifierAct.callOf?, call]
  have member := (calls_subperm fresh after op).subset made
  have unlogged : entries (tr ++ [.notifier n b]) = entries tr := by
    simp [entries, LeaderAct.entry?]
  rw [loggedSlots, unlogged, ← loggedSlots, mem_loggedSlots] at member
  obtain ⟨e, entry, found⟩ := List.mem_flatMap.mp member
  obtain ⟨-, number, content⟩ := mem_slots.mp found
  refine ⟨e, entry, number.symm, ?_⟩
  rw [List.getElem?_take, Option.ite_none_right_eq_some] at content
  exact content.2

end Leader

namespace Cluster

variable {N W : Nat} {cfg : Config N} {curTerm : Fin N → Int}
  {c₀ c c' : Cluster N W cfg.consts} {tr : List (ClusterAct N W)}

def holders (w : Fin W) (lsn : Int) (tr : List (ClusterAct N W)) : Finset (Fin N) :=
  Finset.univ.filter (fun f => lsn ∈ (appended (f, w) tr).map (·.lsn))

private theorem holders_mono (w : Fin W) (lsn : Int) (tr : List (ClusterAct N W))
    (b : ClusterAct N W) :
    holders w lsn tr ⊆ holders w lsn (tr ++ [b]) := by
  intro f member
  simp only [holders, Finset.mem_filter, Finset.mem_univ, true_and] at member ⊢
  rw [appended_append, List.map_append]
  exact List.mem_append_left _ member

private theorem appended_extends_votes (fresh : Fresh cfg c₀) (run : Run (Moves cfg curTerm) c₀ tr c)
    (n : Conn N W) : Notifier.votesOf (ofNotifier n (ofLeader tr)) <+:
      (appended n tr).map (·.lsn) := by
  have link := link_run fresh run n
  have own := Leader.notifier_run (leader_run run) n
  rw [fresh.leader.notifier n] at own
  have counting := (Notifier.counting_run own).votes
  have granted : (delivered n tr).filter (·.success) = delivered n tr := by
    rw [List.filter_eq_self]
    intro a member
    refine (link.answers a ?_).1
    rw [← link.returned]
    exact List.mem_append_left _ member
  calc Notifier.votesOf (ofNotifier n (ofLeader tr))
      <+: ((delivered n tr).filter (·.success)).map (·.lsn) := ⟨_, counting.symm⟩
    _ = (delivered n tr).map (·.lsn) := by rw [granted]
    _ <+: (acked n tr).map (·.lsn) := ⟨_, by rw [← List.map_append, link.returned]⟩
    _ <+: (appended n tr).map (·.lsn) := ⟨_, link.acks⟩

private theorem appended_lsn (fresh : Fresh cfg c₀) (run : Run (Moves cfg curTerm) c₀ tr c)
    (n : Conn N W) : n.1 ≠ cfg.me ∧ (appended n tr).map (·.lsn) <+:
      (leaderLogged n.2 tr).map (·.lsn) ∨ appended n tr = [] := by
  by_cases follower : n.1 = cfg.me
  · refine .inr ?_
    have link := link_run fresh run n
    have nothing : received n tr = [] := by
      rw [List.eq_nil_iff_forall_not_mem]
      intro p member
      have sender := sent_addressed fresh run n p
        (by rw [← link.packets]; exact List.mem_append_left _ member)
      exact mem_followers.mp sender.2.2 follower
    have written := link.written
    rw [nothing, List.map_nil, List.append_eq_nil_iff, List.map_eq_nil_iff] at written
    exact written.1
  · refine .inl ⟨follower, ?_⟩
    have shared := (logged_extends_appended fresh run n follower).map Prod.fst
    simpa [Function.comp_def, Entry.shared] using shared

theorem count_votesOf (fresh : Fresh cfg c₀) (run : Run (Moves cfg curTerm) c₀ tr c)
    {w : Fin W} {e : Entry} (entry : e ∈ leaderLogged w tr) (n : Conn N W) :
    (Notifier.votesOf (ofNotifier n (ofLeader tr))).count e.lsn ≤
      if n.2 = w ∧ n.1 ∈ holders w e.lsn tr then 1 else 0 := by
  have le := (appended_extends_votes fresh run n).sublist.count_le e.lsn
  rcases appended_lsn fresh run n with ⟨-, inside⟩ | none
  · have leader := leader_run run
    have nodup := (Leader.logged_nodup fresh.leader leader n.2).sublist inside.sublist
    by_cases member : e.lsn ∈ (appended n tr).map (·.lsn)
    · obtain ⟨e', entry', same⟩ := List.mem_map.mp (inside.subset member)
      obtain ⟨eq, -⟩ := Leader.entry_unique fresh.leader leader entry' entry same
      have holder : n.1 ∈ holders w e.lsn tr := by
        simp only [holders, Finset.mem_filter, Finset.mem_univ, true_and, ← eq]
        exact member
      rw [if_pos ⟨eq, holder⟩]
      exact le.trans (List.nodup_iff_count_le_one.mp nodup _)
    · rw [List.count_eq_zero_of_not_mem member] at le
      omega
  · rw [none] at le
    simp only [List.map_nil, List.count_nil] at le
    omega

private theorem votes_le_holders (fresh : Fresh cfg c₀) (run : Run (Moves cfg curTerm) c₀ tr c)
    {w : Fin W} {e : Entry} (entry : e ∈ leaderLogged w tr) :
    c.leader.votes e.lsn ≤ (holders w e.lsn tr).card := by
  calc c.leader.votes e.lsn
      = (Leader.votesCast (ofLeader tr)).count e.lsn :=
        Leader.votes_count fresh.leader (leader_run run) e.lsn
    _ = ∑ n : Conn N W, (Notifier.votesOf (ofNotifier n (ofLeader tr))).count e.lsn :=
        Leader.count_byNotifier NotifierAct.voted? e.lsn (ofLeader tr)
    _ ≤ ∑ n : Conn N W, if n.2 = w ∧ n.1 ∈ holders w e.lsn tr then 1 else 0 :=
        Finset.sum_le_sum (fun n _ => count_votesOf fresh run entry n)
    _ = (holders w e.lsn tr).card := by
        rw [Fintype.sum_prod_type]
        simp [ite_and]

def Quorum (w : Fin W) (lsn : Int) (tr : List (ClusterAct N W)) : Prop :=
  N < 2 * (holders w lsn tr).card

theorem Quorum.mono {w : Fin W} {lsn : Int} (quorum : Quorum w lsn tr) (b : ClusterAct N W) :
    Quorum w lsn (tr ++ [b]) := by
  have more := Finset.card_le_card (holders_mono w lsn tr b)
  unfold Quorum at *
  omega

def Decided (n : Conn N W) (tr : List (ClusterAct N W)) : Notifier N W → Prop
  | .recv => True
  | .vote ack _ => ack.workerId = n.2
  | .load ack _ => ack.workerId = n.2 ∧ Quorum n.2 ack.lsn tr
  | .commit j _ => j.workerId = n.2 ∧ Quorum n.2 j.t.lsn tr
  | .reply j => j.workerId = n.2 ∧ Quorum n.2 j.t.lsn tr

theorem Decided.mono {n : Conn N W} {t : Notifier N W} (decided : Decided n tr t)
    (b : ClusterAct N W) : Decided n (tr ++ [b]) t := by
  cases t with
  | recv => trivial
  | vote => exact decided
  | load | commit | reply => exact ⟨decided.1, decided.2.mono b⟩

private theorem decided_loop {n : Conn N W} {j : Job W}
    (decided : j.workerId = n.2 ∧ Quorum n.2 j.t.lsn tr) :
    Decided n tr (.loop j) := by
  unfold Notifier.loop
  split
  · exact decided
  · trivial

theorem ackAt_logged (fresh : Fresh cfg c₀) (run : Run (Moves cfg curTerm) c₀ tr c)
    {n : Conn N W} {a : ResponseAppendEntries N W}
    (here : (c.leader.notifier n).ackAt = some a) :
    a.workerId = n.2 ∧ ∃ e ∈ leaderLogged n.2 tr, e.lsn = a.lsn := by
  have link := link_run fresh run n
  have own := Leader.notifier_run (leader_run run) n
  rw [fresh.leader.notifier n] at own
  have read := (Notifier.counting_run own).ack a here
  have member : a ∈ acked n tr := by
    rw [← link.returned]
    exact List.mem_append_left _ read
  have number : a.lsn ∈ (appended n tr).map (·.lsn) := by
    rw [← link.acks]
    exact List.mem_append_left _ (List.mem_map_of_mem member)
  refine ⟨(link.answers a member).2.1, ?_⟩
  rcases appended_lsn fresh run n with ⟨-, inside⟩ | none
  · exact List.mem_map.mp (inside.subset number)
  · simp [none] at number

private theorem decided_notifier {n : Conn N W} {b : NotifierAct N W} {p p' : Notifier N W}
    (before : Decided n tr p) (taken : Notifier.Step p b p')
    (acked : ∀ a, p'.ackAt = some a → a.workerId = n.2)
    (counted : ∀ lsn count, b = .addVoteCount lsn count → N / 2 < count → Quorum n.2 lsn tr)
    (found : ∀ v lsn t, b = .taskLoad v lsn (some t) → t.lsn = lsn) : Decided n tr p' := by
  cases taken with
  | recv ack nextIndex =>
    cases granted : ack.success with
    | false => trivial
    | true => exact acked ack (by simp [granted])
  | addVoteCount ack nextIndex count =>
    by_cases quorum : N / 2 < count
    · rw [if_pos quorum]
      exact ⟨before, counted _ _ rfl quorum⟩
    · rw [if_neg quorum]
      trivial
  | taskLoad ack nextIndex t =>
    cases t with
    | none => trivial
    | some t =>
      have number := found _ _ t rfl
      exact decided_loop ⟨before.1, by rw [number]; exact before.2⟩
  | commitWork | setCommitIndex => exact before
  | sendRPC => exact decided_loop before

theorem leaderLogged_append (w : Fin W) (tr tr' : List (ClusterAct N W)) :
    leaderLogged w (tr ++ tr') = leaderLogged w tr ++ leaderLogged w tr' := by
  simp [leaderLogged, ofLeader, ofWorker]

private theorem decided_step (fresh : Fresh cfg c₀) {b : ClusterAct N W}
    (run : Run (Moves cfg curTerm) c₀ tr c)
    (inv : ∀ n, Decided n tr (c.leader.notifier n)) (moves : Moves cfg curTerm c b c') :
    ∀ n, Decided n (tr ++ [b]) (c'.leader.notifier n) := by
  have after : Run (Moves cfg curTerm) c₀ (tr ++ [b]) c' := .next run moves
  intro n
  have still : c'.leader.notifier n = c.leader.notifier n →
      Decided n (tr ++ [b]) (c'.leader.notifier n) := fun same => by
    rw [same]
    exact (inv n).mono b
  cases b with
  | recv | loggingWork | sendAck => exact still (by rw [(moves_follower moves rfl).2])
  | leader a =>
    have moved := (moves_leader moves).1
    cases mine : a.toNotifier n with
    | none => exact still ((moved.notifier n).1 mine)
    | some b =>
      obtain rfl : a = .notifier n b := by
        cases a <;> simp only [LeaderAct.toNotifier, reduceCtorEq,
          Option.ite_none_right_eq_some, Option.some.injEq] at mine
        obtain ⟨rfl, rfl⟩ := mine
        rfl
      have taken := moved.called
      refine decided_notifier ((inv n).mono _) taken ?_ ?_ ?_
      · intro ack here
        exact (ackAt_logged fresh after here).1
      · rintro lsn count rfl quorum
        obtain ⟨ack, nextIndex, here, rfl⟩ := taken.of_addVoteCount
        -- the votes so far are no more than the followers that have the batch
        obtain ⟨-, e, entry, same⟩ := ackAt_logged (n := n) (a := ack) fresh run (by simp [here])
        have entry' := List.mem_append_left
          (leaderLogged n.2 [.leader (.notifier n (.addVoteCount ack.lsn count))]) entry
        rw [← leaderLogged_append] at entry'
        have holding := votes_le_holders fresh after entry'
        have total := moved.counted n ack.lsn count rfl
        rw [same, ← total] at holding
        unfold Quorum
        omega
      · rintro v lsn t rfl
        obtain ⟨x, x', loaded⟩ := (moved.worker v).2 (.taskLoad lsn (some t))
          (by simp [LeaderAct.toWorker])
        obtain ⟨result, -⟩ := Worker.step_eq_some.mp loaded
        exact (taskLoad_some result.symm).1

private theorem decided_run (fresh : Fresh cfg c₀) (run : Run (Moves cfg curTerm) c₀ tr c) :
    ∀ n, Decided n tr (c.leader.notifier n) := by
  refine run.invariant (I := fun tr c => ∀ n, Decided n tr (c.leader.notifier n)) ?_
    (fun _ _ _ _ before inv moves => decided_step fresh before inv moves)
  intro n
  rw [fresh.leader.notifier n]
  trivial

private theorem decided_call {n : Conn N W} {b : NotifierAct N W} {op : CommitOp}
    {slot : Place W × TransReq} {p p' : Notifier N W} (decided : Decided n tr p)
    (call : b.call? = some (op, slot)) (taken : Notifier.Step p b p') :
    slot.1.workerId = n.2 ∧ Quorum n.2 slot.1.lsn tr := by
  cases taken with
  | recv | addVoteCount | taskLoad => simp [NotifierAct.call?] at call
  | @commitWork j stage stage' x here follows =>
    obtain ⟨-, rfl⟩ : opOf stage = op ∧ (j.place, x) = slot := by
      simpa [NotifierAct.call?] using call
    exact decided
  | @setCommitIndex j x here =>
    obtain ⟨-, rfl⟩ : CommitOp.setCommitIndex = op ∧ (j.place, x) = slot := by
      simpa [NotifierAct.call?] using call
    exact decided
  | @sendRPC j x result here =>
    obtain ⟨-, rfl⟩ : CommitOp.sendRPC = op ∧ (j.place, x) = slot := by
      simpa [NotifierAct.call?] using call
    exact decided

/-- A notifier calls for batches that are in the leader's log and in those of more than half of the
nodes besides, whatever the store does. -/
theorem call_durable (fresh : Fresh cfg c₀) (run : Run (Moves cfg curTerm) c₀ tr c) {n : Conn N W}
    {b : NotifierAct N W} {op : CommitOp} {slot : Place W × TransReq} (call : b.call? = some (op, slot))
    (moves : Moves cfg curTerm c (.leader (.notifier n b)) c') :
    ∃ e ∈ leaderLogged slot.1.workerId tr, e.lsn = slot.1.lsn ∧
      e.xactSet[slot.1.index]? = some slot.2 ∧
      e ∈ (c.leader.worker slot.1.workerId).log.file ∧
      ∃ followers : Finset (Fin N), N < 2 * followers.card ∧ ∀ f ∈ followers, f ≠ cfg.me ∧
        ∃ e' ∈ appended (f, slot.1.workerId) tr, e'.shared = e.shared ∧
          e' ∈ (c.disk (f, slot.1.workerId)).file := by
  have leader := leader_run run
  have moved := (moves_leader moves).1
  -- the call is made for a logged transaction
  obtain ⟨e, entry, number, content⟩ := Leader.call_logged fresh.leader leader call moved
  obtain ⟨worker, quorum⟩ := decided_call (decided_run fresh run n) call moved.called
  have file : ∀ v, (c.leader.worker v).log.file =
      (c₀.leader.worker v).log.file ++ leaderLogged v tr := fun v =>
    Worker.file_run (Leader.worker_moves leader v)
  refine ⟨e, entry, number, content, ?_, holders slot.1.workerId slot.1.lsn tr, ?_, ?_⟩
  · rw [file]
    exact List.mem_append_right _ entry
  · rw [worker]
    exact quorum
  · intro f member
    simp only [holders, Finset.mem_filter, Finset.mem_univ, true_and] at member
    obtain ⟨e', entry', same⟩ := List.mem_map.mp member
    have follower : f ≠ cfg.me := by
      rcases appended_lsn fresh run (f, slot.1.workerId) with ⟨follower, -⟩ | none
      · exact follower
      · simp [none] at entry'
    refine ⟨follower, e', entry', ?_, ?_⟩
    · have shared := (logged_extends_appended fresh run (f, slot.1.workerId) follower).subset
        (List.mem_map_of_mem entry')
      obtain ⟨e'', entry'', eq⟩ := List.mem_map.mp shared
      have lsn : e''.lsn = e.lsn := by
        rw [number, ← same]
        exact congrArg Prod.fst eq
      rw [← eq, (Leader.entry_unique fresh.leader leader entry'' entry lsn).2]
    · rw [(link_run fresh run (f, slot.1.workerId)).file]
      exact List.mem_append_right _ entry'

/-- Whatever call a notifier makes for a transaction, the transaction's batch is in the leader's
log and in the logs of more than half of the nodes besides. -/
theorem durable_before_commit (fresh : Fresh cfg c₀)
    (run : Run (Steps (step cfg curTerm)) c₀ tr c) {n : Conn N W} {b : NotifierAct N W}
    {op : CommitOp} {slot : Place W × TransReq} (call : b.call? = some (op, slot))
    (taken : step cfg curTerm c (.leader (.notifier n b)) = some c') :
    ∃ e ∈ leaderLogged slot.1.workerId tr, e.lsn = slot.1.lsn ∧
      e.xactSet[slot.1.index]? = some slot.2 ∧
      e ∈ (c.leader.worker slot.1.workerId).log.file ∧
      ∃ followers : Finset (Fin N), N < 2 * followers.card ∧ ∀ f ∈ followers, f ≠ cfg.me ∧
        ∃ e' ∈ appended (f, slot.1.workerId) tr, e'.shared = e.shared ∧
          e' ∈ (c.disk (f, slot.1.workerId)).file :=
  call_durable fresh (moves_run run) call (moves_step taken)

section Example

def quorumTrace : List (ClusterAct 3 1) :=
  shipTrace ++ [.leader (.worker 0 (.taskStore ⟨0, 0, 1, [Worker.firstLocked]⟩))] ++
    replicateTrace 1 ++ replicateTrace 2 ++
    [.leader (.notifier (1, 0) (.recv (ackFrom 1))), .leader (.notifier (1, 0) (.addVoteCount 0 1)),
      .leader (.notifier (2, 0) (.recv (ackFrom 2))), .leader (.notifier (2, 0) (.addVoteCount 0 2)),
      .leader (.notifier (2, 0) (.taskLoad 0 0 (some ⟨0, 0, 1, [Worker.firstLocked]⟩)))]

theorem durable_before_commit_quorum :
    ∃ c c', Run (Steps (step threeConfig (fun _ => 1))) threeNodes quorumTrace c ∧
      step threeConfig (fun _ => 1) c (.leader (.notifier (2, 0)
        (.commitWork .indexReadFrom (⟨0, 0, 0⟩, Worker.firstLocked)))) = some c' ∧
      ∃ followers : Finset (Fin 3), 3 < 2 * followers.card ∧ ∀ f ∈ followers, f ≠ 0 := by
  have done : (exec (step threeConfig (fun _ => 1)) threeNodes quorumTrace).map
      (fun c => (step threeConfig (fun _ => 1) c (.leader (.notifier (2, 0)
        (.commitWork .indexReadFrom (⟨0, 0, 0⟩, Worker.firstLocked))))).isSome) = some true := by
    decide
  obtain ⟨c, run, enabled⟩ := exec_reaches done
  obtain ⟨c', taken⟩ := Option.isSome_iff_exists.mp enabled
  obtain ⟨e, -, -, -, -, followers, quorum, each⟩ :=
    durable_before_commit threeNodes_fresh run rfl taken
  exact ⟨c, c', run, taken, followers, quorum, fun f member => (each f member).1⟩

end Example

end Cluster

end Raft2pl.Server
