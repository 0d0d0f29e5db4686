/- Where each request of a client is: nothing is lost or doubled on the whole way through the leader. -/

import Raft2pl.Server.Requests
import Raft2pl.Server.Commit

set_option autoImplicit false
set_option relaxedAutoImplicit false

namespace Raft2pl.Server

open Lib (Run Steps OnlyAt pool pool_balance exec exec_reaches)

/-- A request as `transferWork` rewrites it. -/
def normal (x : TransReq) : TransReq := { x with req := x.req.sorted }

private theorem normal_rewritten {copy orig : TransReq} (rewritten : Rewritten copy orig) :
    normal copy = normal orig := by
  rcases rewritten with rfl | rfl
  · rfl
  · simp [normal]

private theorem map_normal {copies origs : List TransReq}
    (rewritten : List.Forall₂ Rewritten copies origs) :
    copies.map normal = origs.map normal := by
  induction rewritten with
  | nil => rfl
  | cons head _ ih => rw [List.map_cons, List.map_cons, normal_rewritten head, ih]

@[simp] theorem length_producer (clientId : Int) (cc : ClientCommand) :
    (producer clientId cc).length = maxCliReq := by
  simp [producer]

namespace Leader

variable {N W : Nat} {ν : Type} [DecidableEq ν] {cfg : Config N}
  {s₀ s : Leader N W ν cfg.consts} {tr : List (LeaderAct N W ν)}

private theorem slotsOf_requests (fresh : Fresh cfg s₀) (run : Run (Steps (step cfg)) s₀ tr s)
    (w : Fin W) : (slotsOf w tr).map Prod.snd =
      (logged (ofWorker w tr)).flatMap Entry.xactSet := by
  have pipeline := Worker.pipeline_run (fresh.worker w) (worker_run run w)
  rw [slotsOf, List.map_flatMap]
  refine List.flatMap_congr (fun e member => ?_)
  rw [Entry.slots, slots_snd, ← pipeline.entries e member, List.take_length]

theorem enqueued_normal (fresh : Fresh cfg s₀) (run : Run (Steps (step cfg)) s₀ tr s)
    (w : Fin W) : (enqueued (ofWorker w tr)).map normal =
      ((slotsOf w tr).map Prod.snd).map normal ++ (s.worker w).content.map normal := by
  have pipeline := Worker.pipeline_run (fresh.worker w) (worker_run run w)
  rw [slotsOf_requests fresh run, ← List.map_append]
  exact (map_normal pipeline.order).symm

end Leader

namespace Intake

section Histories

variable {N W : Nat} {ν κ : Type} {bound : κ → Binding W}

def arrivals (bound : κ → Binding W) (tr : List (IntakeAct N W ν κ)) : List TransReq :=
  (commands tr).flatMap (fun m => producer (bound m.1).clientId m.2)

def given (bound : κ → Binding W) (tr : List (IntakeAct N W ν κ)) (w : Fin W) : List TransReq :=
  enqueued (ofWorker w (tr.filterMap (toLeader bound)))

private theorem arrivals_next (tr : List (IntakeAct N W ν κ)) (a : IntakeAct N W ν κ) :
    arrivals bound (tr ++ [a]) = arrivals bound tr ++ arrivals bound [a] := by
  rw [arrivals, commands_append, List.flatMap_append]
  rfl

private theorem given_next (tr : List (IntakeAct N W ν κ)) (a : IntakeAct N W ν κ) (w : Fin W) :
    given bound (tr ++ [a]) w = given bound tr w ++ given bound [a] w :=
  enqueued_next tr a w

private theorem given_leader {b : LeaderAct N W ν} (other : b.ofProducer = false) (w : Fin W) :
    given bound [(.leader b : IntakeAct N W ν κ)] w = [] := by
  have quiet : (LeaderAct.toWorker w b).bind WorkerAct.xact? = none := by
    cases b with
    | worker v a =>
      by_cases own : v = w <;> cases a <;>
        simp [LeaderAct.ofProducer, LeaderAct.toWorker, WorkerAct.direct, WorkerAct.xact?,
          own] at other ⊢
    | notifier n c =>
      cases c <;> simp only [LeaderAct.toWorker] <;> first | rfl | (split <;> rfl)
    | acceptClient => rfl
  rw [given]
  cases mine : LeaderAct.toWorker w b with
  | none => simp [toLeader, ofWorker, mine, Server.enqueued]
  | some a =>
    rw [mine] at quiet
    have none : a.xact? = none := quiet
    simp [toLeader, ofWorker, mine, none]

private theorem given_xactEnqueue (c : κ) (tx : TransReq) (w : Fin W) :
    given bound [(.xactEnqueue c tx : IntakeAct N W ν κ)] w =
      if (bound c).workerId = w then [tx] else [] := by
  by_cases own : (bound c).workerId = w
  · simp [given, toLeader, ofWorker, LeaderAct.toWorker, WorkerAct.direct, WorkerAct.xact?, own]
  · simp [given, toLeader, ofWorker, LeaderAct.toWorker, own, Server.enqueued]

end Histories

section Runs

variable {N W : Nat} {ν κ : Type} [DecidableEq ν] [DecidableEq κ] {cfg : Config N}
  {bound : κ → Binding W} {s₀ s s' : Intake N W ν κ cfg.consts} {tr : List (IntakeAct N W ν κ)}

private theorem arrivals_step [Fintype κ] {a : IntakeAct N W ν κ}
    (taken : step cfg bound s a = some s') :
    pool (fun c => (s.pending c : Multiset TransReq)) + (arrivals bound [a] : Multiset TransReq) =
      pool (fun c => (s'.pending c : Multiset TransReq)) +
        ∑ w, (given bound [a] w : Multiset TransReq) := by
  cases a with
  | recv c cc =>
    obtain ⟨ready, rfl⟩ := by
      simpa only [step, Option.ite_none_right_eq_some, Option.some.injEq] using taken
    have only : OnlyAt c (fun d => (s.pending d : Multiset TransReq))
        (fun d => (Function.update s.pending c (producer (bound c).clientId cc) d :
          Multiset TransReq)) := by
      intro d apart
      simp only [Function.update_of_ne apart]
    have balance := pool_balance c only
    simp only [ready, Multiset.coe_nil, add_zero, Function.update_self] at balance
    have quiet : ∑ w, (given bound [(.recv c cc : IntakeAct N W ν κ)] w : Multiset TransReq) = 0 :=
      Finset.sum_eq_zero (fun _ _ => rfl)
    rw [quiet, add_zero, balance]
    simp [arrivals, commands]
  | xactEnqueue c tx =>
    simp only [step, Option.ite_none_right_eq_some, Option.bind_eq_bind, Option.bind_eq_some_iff,
      Option.some.injEq] at taken
    obtain ⟨first, leader', -, rfl⟩ := taken
    obtain ⟨rest, waiting⟩ := List.head?_eq_some_iff.mp first
    have only : OnlyAt c (fun d => (s.pending d : Multiset TransReq))
        (fun d => (Function.update s.pending c (s.pending c).tail d : Multiset TransReq)) := by
      intro d apart
      simp only [Function.update_of_ne apart]
    have balance := pool_balance c only
    simp only [waiting, List.tail_cons, Function.update_self] at balance ⊢
    have one : ∑ w, (given bound [(.xactEnqueue c tx : IntakeAct N W ν κ)] w :
        Multiset TransReq) = {tx} := by
      rw [Finset.sum_eq_single (bound c).workerId]
      · rw [given_xactEnqueue, if_pos rfl]
        rfl
      · intro w _ apart
        rw [given_xactEnqueue, if_neg apart.symm]
        rfl
      · exact fun absent => absurd (Finset.mem_univ _) absent
    rw [one]
    refine add_right_cancel (b := (rest : Multiset TransReq)) ?_
    calc _ = pool (fun d => (s.pending d : Multiset TransReq)) + rest := by
          simp [arrivals, commands]
      _ = _ := by
          rw [← balance, ← Multiset.cons_coe, ← Multiset.singleton_add, add_assoc]
  | leader b =>
    simp only [step, Option.ite_none_left_eq_some, Option.bind_eq_bind, Option.bind_eq_some_iff,
      Option.some.injEq] at taken
    obtain ⟨other, leader', -, rfl⟩ := taken
    have quiet : ∑ w, (given bound [(.leader b : IntakeAct N W ν κ)] w : Multiset TransReq) = 0 :=
      Finset.sum_eq_zero (fun w _ => by rw [given_leader (by simpa using other)]; rfl)
    rw [quiet]
    simp [arrivals, commands]

private theorem arrivals_run [Fintype κ] (idle : Idle cfg s₀)
    (run : Run (Steps (step cfg bound)) s₀ tr s) :
    (arrivals bound tr : Multiset TransReq) = pool (fun c => (s.pending c : Multiset TransReq)) +
      ∑ w, (given bound tr w : Multiset TransReq) := by
  refine run.invariant (I := fun tr s => (arrivals bound tr : Multiset TransReq) =
    pool (fun c => (s.pending c : Multiset TransReq)) +
      ∑ w, (given bound tr w : Multiset TransReq)) ?_ (fun tr s a t _ ih taken => ?_)
  · have none : pool (fun c => (s₀.pending c : Multiset TransReq)) = 0 :=
      Finset.sum_eq_zero (fun c _ => by rw [idle c]; rfl)
    rw [none]
    exact (add_zero (0 : Multiset TransReq)).symm.trans (congrArg _
      (Finset.sum_eq_zero (fun w _ => rfl)).symm)
  · have moved := arrivals_step taken
    simp only [arrivals_next, given_next, ← Multiset.coe_add, Finset.sum_add_distrib]
    rw [ih, add_right_comm, moved]
    abel

private theorem given_normal (fresh : Leader.Fresh cfg s₀.leader)
    (run : Run (Steps (step cfg bound)) s₀ tr s)
    (w : Fin W) : (given bound tr w).map normal =
      ((slotsOf w (tr.filterMap (toLeader bound))).map Prod.snd).map normal ++
        (s.leader.worker w).content.map normal :=
  Leader.enqueued_normal fresh (leader_run run) w

omit [DecidableEq ν] in
theorem sum_slotsOf (tr : List (LeaderAct N W ν)) :
    ∑ w, (slotsOf w tr : Multiset (Place W × TransReq)) = loggedSlots tr :=
  Leader.sum_logged (fun w b => slots w b.1 (b.2.2.take b.2.1)) tr

/-- The logged transactions that are not called for yet: in a worker, or in a notifier. -/
def uncalled [Fintype ν] (op : CommitOp) (s : Intake N W ν κ cfg.consts) :
    Multiset (Place W × TransReq) :=
  ∑ n, ((s.leader.notifier n).todo op : Multiset (Place W × TransReq)) +
    ∑ w, Multiset.ofList (((s.leader.worker w).waiting w).flatMap (Task.slots w))

theorem arrivals_logged [Fintype κ] (fresh : Leader.Fresh cfg s₀.leader) (idle : Idle cfg s₀)
    (run : Run (Steps (step cfg bound)) s₀ tr s) :
    (arrivals bound tr : Multiset TransReq).map normal =
      (∑ c, (s.pending c : Multiset TransReq)).map normal +
      (∑ w, ((s.leader.worker w).content : Multiset TransReq)).map normal +
      ((loggedSlots (tr.filterMap (toLeader bound)) : Multiset (Place W × TransReq)).map
        Prod.snd).map normal := by
  have workers : (∑ w, (given bound tr w : Multiset TransReq)).map normal =
      ((loggedSlots (tr.filterMap (toLeader bound)) : Multiset (Place W × TransReq)).map
        Prod.snd).map normal +
      (∑ w, ((s.leader.worker w).content : Multiset TransReq)).map normal := by
    rw [← sum_slotsOf]
    simp only [← Multiset.mapAddMonoidHom_apply, map_sum]
    rw [← Finset.sum_add_distrib]
    refine Finset.sum_congr rfl (fun w _ => ?_)
    simp only [Multiset.mapAddMonoidHom_apply, Multiset.map_coe, Multiset.coe_add]
    exact congrArg _ (given_normal fresh run w)
  rw [arrivals_run idle run, Multiset.map_add, workers, pool]
  abel

/-- Every request that arrived is in one place, whatever the order of all threads: with its producer,
on its way through its worker, logged and not called for by a notifier, or called for. -/
theorem requests_accounted [Fintype ν] [Fintype κ] (fresh : Leader.Fresh cfg s₀.leader)
    (idle : Idle cfg s₀) (run : Run (Steps (step cfg bound)) s₀ tr s) (op : CommitOp) :
    (arrivals bound tr : Multiset TransReq).map normal =
      (∑ c, (s.pending c : Multiset TransReq)).map normal +
      (∑ w, ((s.leader.worker w).content : Multiset TransReq)).map normal +
      ((s.uncalled op + (calls op (tr.filterMap (toLeader bound)) :
        Multiset (Place W × TransReq))).map Prod.snd).map normal := by
  have account := Leader.accounting fresh (Leader.moves_run (leader_run run)) op
  have logs : (loggedSlots (tr.filterMap (toLeader bound)) : Multiset (Place W × TransReq)) =
      s.uncalled op + calls op (tr.filterMap (toLeader bound)) := by
    rw [← account, uncalled]
    abel
  rw [arrivals_logged fresh idle run, logs]

end Runs

section Example

open Leader (smallConfig smallLeader_fresh)

def threeTrace : List (IntakeAct 2 1 (Fin 2) (Fin 1)) :=
  [.recv 0 (repeated 1 3), .xactEnqueue 0 ⟨0, 7, ⟨1, 3, 5, 0⟩⟩, .leader (.worker 0 .xactDequeue),
    .leader (.worker 0 (.lockFrom true)), .leader (.worker 0 (.lockTo true)),
    .leader (.worker 0 .copyToBuffer), .leader (.worker 0 (.flushTest true)),
    .leader (.worker 0 (.loggingWork ⟨0, 1, 1, 0, [⟨0, 7, ⟨1, 3, 5, 0⟩⟩]⟩)),
    .xactEnqueue 0 ⟨0, 7, ⟨1, 3, 5, 0⟩⟩, .xactEnqueue 0 ⟨0, 7, ⟨1, 3, 5, 0⟩⟩]

theorem requests_accounted_three :
    ∃ s, Run (Steps (step smallConfig onlyWorker)) oneConnection threeTrace s ∧
      (s.pending 0).length = 97 ∧ (s.leader.worker 0).content.length = 2 ∧
      (s.uncalled .sendRPC).card = 1 := by
  have done : (exec (step smallConfig onlyWorker) oneConnection threeTrace).map (fun s => decide
      ((s.pending 0).length = 97 ∧ (s.leader.worker 0).content.length = 2)) = some true := by decide
  obtain ⟨s, run, holds⟩ := exec_reaches done
  obtain ⟨pending, content⟩ := of_decide_eq_true holds
  have account := congrArg Multiset.card
    (requests_accounted smallLeader_fresh (fun _ => rfl) run .sendRPC)
  have came : (arrivals onlyWorker threeTrace).length = 100 := by
    have one : arrivals onlyWorker threeTrace = producer 0 (repeated 1 3) ++ [] := rfl
    rw [one, List.append_nil, length_producer]
    rfl
  have called : calls .sendRPC (threeTrace.filterMap (toLeader onlyWorker)) = [] := by decide
  refine ⟨s, run, pending, content, ?_⟩
  simp [called, came, pending, content] at account
  omega

end Example

end Intake

end Raft2pl.Server
