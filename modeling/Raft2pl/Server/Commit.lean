/- At most one commit for each logged transaction, whatever acks arrive and however often. -/

import Raft2pl.Server.Threads
import Mathlib.Algebra.Order.BigOperators.Group.Finset

set_option autoImplicit false
set_option relaxedAutoImplicit false

namespace Raft2pl

namespace Server

open Lib (Run Steps exec exec_reaches)

section Logged

variable {N W : Nat} {ν : Type} {tr : List (LeaderAct N W ν)}

def slotsOf (w : Fin W) (tr : List (LeaderAct N W ν)) : List (Place W × TransReq) :=
  (logged (ofWorker w tr)).flatMap (Entry.slots w)

private theorem logged_ofWorker (w : Fin W) (tr : List (LeaderAct N W ν)) :
    logged (ofWorker w tr) = (entries tr).filterMap (fun p => if p.1 = w then some p.2 else none) := by
  unfold logged ofWorker entries
  rw [List.filterMap_filterMap, List.filterMap_filterMap]
  congr 1
  funext a
  exact Leader.toWorker_entry w a

theorem mem_entries {w : Fin W} {e : Entry} : (w, e) ∈ entries tr ↔ e ∈ logged (ofWorker w tr) := by
  simp [logged_ofWorker]

theorem mem_loggedSlots {p : Place W × TransReq} :
    p ∈ loggedSlots tr ↔ p ∈ slotsOf p.1.workerId tr := by
  simp only [loggedSlots, slotsOf, List.mem_flatMap, Prod.exists]
  constructor
  · rintro ⟨w, e, member, slot⟩
    obtain rfl : p.1.workerId = w := (mem_slots.mp slot).1
    exact ⟨e, mem_entries.mp member, slot⟩
  · rintro ⟨e, member, slot⟩
    exact ⟨_, e, mem_entries.mpr member, slot⟩

theorem loggedSlots_nodup (distinct : ((entries tr).map (fun p => p.2.lsn)).Nodup) :
    ((loggedSlots tr).map Prod.fst).Nodup := by
  rw [loggedSlots, List.map_flatMap, List.nodup_flatMap]
  refine ⟨fun p _ => slots_places_nodup _ _ _, ?_⟩
  refine (List.pairwise_map.mp distinct).imp ?_
  intro p q apart
  rw [Function.onFun, List.disjoint_left]
  intro place here there
  obtain ⟨a, ha, rfl⟩ := List.mem_map.mp here
  obtain ⟨b, hb, same⟩ := List.mem_map.mp there
  have left := (mem_slots.mp ha).2.1
  have right := (mem_slots.mp hb).2.1
  exact apart (left.symm.trans ((congrArg Place.lsn same).symm.trans right))

private theorem slotsOf_subperm (w : Fin W) (tr : List (LeaderAct N W ν)) :
    (slotsOf w tr).Subperm (loggedSlots tr) := by
  have all := Leader.sum_logged (fun w b => slots w b.1 (b.2.2.take b.2.1)) tr
  rw [← Multiset.coe_le]
  calc (slotsOf w tr : Multiset (Place W × TransReq))
      ≤ ∑ v, Lib.contributed WorkerAct.entry? (Entry.slots v) (ofWorker v tr) :=
        Finset.single_le_sum (f := fun v => Lib.contributed WorkerAct.entry? (Entry.slots v)
          (ofWorker v tr)) (fun _ _ => Multiset.zero_le _) (Finset.mem_univ w)
    _ = loggedSlots tr := all

theorem places_nodup {as bs : List (Place W × TransReq)} (distinct : (bs.map Prod.fst).Nodup)
    (sub : as.Subperm bs) : (as.map Prod.fst).Nodup := by
  have le : (as : Multiset (Place W × TransReq)) ≤ bs := Multiset.coe_le.mpr sub
  exact Multiset.nodup_of_le (Multiset.map_le_map (f := Prod.fst) le) distinct

end Logged

namespace Leader

variable {N W : Nat} {ν : Type} [DecidableEq ν] {cfg : Config N}
  {s₀ s : Leader N W ν cfg.consts} {tr : List (LeaderAct N W ν)}

theorem lsn_nodup (fresh : Fresh cfg s₀) (run : Run (Moves cfg) s₀ tr s) :
    ((entries tr).map (fun p => p.2.lsn)).Nodup := by
  rw [(entries_numbered fresh run).1]
  exact List.nodup_range.map (fun _ _ same => Int.ofNat.inj same)

theorem logged_nodup (fresh : Fresh cfg s₀) (run : Run (Moves cfg) s₀ tr s) (w : Fin W) :
    ((logged (ofWorker w tr)).map (·.lsn)).Nodup := by
  have all := List.pairwise_map.mp (lsn_nodup fresh run)
  rw [logged_ofWorker, List.nodup_iff_pairwise_ne, List.pairwise_map]
  refine all.filterMap _ ?_
  intro p q apart b hb b' hb'
  obtain ⟨-, rfl⟩ : p.1 = w ∧ p.2 = b := by simpa using hb
  obtain ⟨-, rfl⟩ : q.1 = w ∧ q.2 = b' := by simpa using hb'
  exact apart

omit [DecidableEq ν] in
theorem calls_append (op : CommitOp) (tr : List (LeaderAct N W ν)) (a : LeaderAct N W ν) :
    calls op (tr ++ [a]) =
      calls op tr ++ (LeaderAct.byNotifier (NotifierAct.callOf? op) a).toList := by
  cases out : LeaderAct.byNotifier (NotifierAct.callOf? op) a <;> simp [calls, out]

theorem calls_subperm [Fintype ν] (fresh : Fresh cfg s₀) (run : Run (Moves cfg) s₀ tr s)
    (op : CommitOp) : (calls op tr).Subperm (loggedSlots tr) := by
  have account := accounting fresh run op
  rw [← Multiset.coe_le, ← account, add_assoc]
  exact Multiset.le_add_right _ _

omit [DecidableEq ν] in
theorem messages_sublist (tr : List (LeaderAct N W ν)) :
    (messages tr).Sublist (calls .sendRPC tr) := by
  unfold messages calls
  induction tr with
  | nil => exact .slnil
  | cons a tr ih =>
    have step : LeaderAct.byNotifier NotifierAct.message? a = none ∨
        LeaderAct.byNotifier NotifierAct.message? a =
          LeaderAct.byNotifier (NotifierAct.callOf? .sendRPC) a := by
      cases a with
      | notifier n b =>
        cases b with
        | sendRPC slot result => cases result <;> simp [LeaderAct.byNotifier, NotifierAct.message?,
            NotifierAct.callOf?, NotifierAct.call?]
        | _ => exact .inl rfl
      | _ => exact .inl rfl
    rcases step with none | same
    · rw [List.filterMap_cons_none none]
      cases call : LeaderAct.byNotifier (NotifierAct.callOf? .sendRPC) a with
      | none => rwa [List.filterMap_cons_none call]
      | some p =>
        rw [List.filterMap_cons_some call]
        exact ih.cons p
    · cases call : LeaderAct.byNotifier (NotifierAct.callOf? .sendRPC) a with
      | none => rwa [List.filterMap_cons_none call, List.filterMap_cons_none (same.trans call)]
      | some p =>
        rw [List.filterMap_cons_some call, List.filterMap_cons_some (same.trans call)]
        exact ih.cons_cons p

private theorem slotsOf_enqueued (fresh : Fresh cfg s₀) (run : Run (Steps (step cfg)) s₀ tr s)
    (w : Fin W) : List.Forall₂ Rewritten ((slotsOf w tr).map Prod.snd)
      ((enqueued (ofWorker w tr)).take (slotsOf w tr).length) := by
  have pipeline := Worker.pipeline_run (fresh.worker w) (worker_run run w)
  have contents : (slotsOf w tr).map Prod.snd =
      (logged (ofWorker w tr)).flatMap Entry.xactSet := by
    rw [slotsOf, List.map_flatMap]
    refine List.flatMap_congr (fun e member => ?_)
    rw [Entry.slots, slots_snd, ← pipeline.entries e member, List.take_length]
  have firsts := List.forall₂_take (slotsOf w tr).length pipeline.order
  have size : (slotsOf w tr).length =
      ((logged (ofWorker w tr)).flatMap Entry.xactSet).length := by
    rw [← contents, List.length_map]
  rw [contents]
  rwa [size, List.take_left, ← size] at firsts

theorem taskLoad_of_load {n : ν} {w : Fin W} {t : Task W}
    (member : (w, t) ∈ Notifier.loadsOf (ofNotifier n tr)) :
    ∃ lsn, .taskLoad lsn (some t) ∈ ofWorker w tr := by
  obtain ⟨b, made, load⟩ := List.mem_filterMap.mp member
  obtain ⟨a, label, mine⟩ := List.mem_filterMap.mp made
  cases a with
  | notifier m c =>
    simp only [LeaderAct.toNotifier, Option.ite_none_right_eq_some, Option.some.injEq] at mine
    obtain ⟨rfl, rfl⟩ := mine
    cases c <;> simp only [NotifierAct.loaded?, reduceCtorEq] at load
    rename_i v lsn u
    cases u with
    | none => simp at load
    | some u =>
      obtain ⟨rfl, rfl⟩ : v = w ∧ u = t := by simpa using load
      exact ⟨lsn, List.mem_filterMap.mpr ⟨_, label, by simp [LeaderAct.toWorker]⟩⟩
  | _ => simp [LeaderAct.toNotifier] at mine

theorem loadsOf_logged (fresh : Fresh cfg s₀) (run : Run (Moves cfg) s₀ tr s) {n : ν}
    {w : Fin W} {t : Task W} (member : (w, t) ∈ Notifier.loadsOf (ofNotifier n tr)) :
    ∃ e ∈ logged (ofWorker w tr), e.batch = t.batch := by
  obtain ⟨lsn, label⟩ := taskLoad_of_load member
  have taken : t ∈ loaded (ofWorker w tr) := List.mem_filterMap.mpr ⟨_, label, rfl⟩
  have batches := Worker.batches_run (fresh.worker w) (worker_moves run w)
  have batch := (Worker.waiting_perm batches).subset
    (List.mem_map_of_mem (List.mem_append_left _ taken))
  exact List.mem_map.mp batch

/-- Each enqueued request is committed at most once, with its calls in batch order. -/
theorem commits_at_most_once [Fintype ν] (fresh : Fresh cfg s₀)
    (run : Run (Steps (step cfg)) s₀ tr s) :
    (∀ w, ((slotsOf w tr).map Prod.fst).Nodup ∧ List.Forall₂ Rewritten
      ((slotsOf w tr).map Prod.snd) ((enqueued (ofWorker w tr)).take (slotsOf w tr).length)) ∧
    (∀ op, ((calls op tr).map Prod.fst).Nodup ∧
      ∀ p ∈ calls op tr, p ∈ slotsOf p.1.workerId tr) ∧
    (((messages tr).map Prod.fst).Nodup ∧ ∀ p ∈ messages tr, p ∈ slotsOf p.1.workerId tr) ∧
    ∀ n, (∀ op, Notifier.callsOf op (ofNotifier n tr) ++ (s.notifier n).todo op =
        (Notifier.loadsOf (ofNotifier n tr)).flatMap (fun p => p.2.slots p.1)) ∧
      ∀ p ∈ Notifier.loadsOf (ofNotifier n tr), ∃ e ∈ logged (ofWorker p.1 tr),
        p.2.lsn = e.lsn ∧ e.xactSet.length = e.nlog ∧
        p.2.slots p.1 = slots p.1 e.lsn e.xactSet := by
  have moves := moves_run run
  have distinct := loggedSlots_nodup (lsn_nodup fresh moves)
  have once : ∀ op, ((calls op tr).map Prod.fst).Nodup ∧
      ∀ p ∈ calls op tr, p ∈ slotsOf p.1.workerId tr := fun op =>
    have sub := calls_subperm fresh moves op
    ⟨places_nodup distinct sub, fun p member => mem_loggedSlots.mp (sub.subset member)⟩
  have sent := messages_sublist tr
  refine ⟨fun w => ⟨?_, slotsOf_enqueued fresh run w⟩, once,
    ⟨(once .sendRPC).1.sublist (sent.map _), fun p member =>
      (once .sendRPC).2 p (sent.subset member)⟩, fun n => ⟨fun op => ?_, ?_⟩⟩
  · exact places_nodup distinct (slotsOf_subperm w tr)
  · have own := notifier_run moves n
    rw [fresh.notifier n] at own
    exact Notifier.callsOf_todo own op
  · rintro ⟨w, t⟩ member
    obtain ⟨e, entry, batch⟩ := loadsOf_logged fresh moves member
    have size := (Worker.pipeline_run (fresh.worker w) (worker_run run w)).entries e entry
    simp only [Entry.batch, Task.batch, Prod.mk.injEq] at batch
    obtain ⟨lsn, nlog, xactSet⟩ := batch
    refine ⟨e, entry, lsn.symm, size, ?_⟩
    rw [Task.slots, ← lsn, ← nlog, ← xactSet, ← size, List.take_length]

section Example

def smallConfig : Config 2 := ⟨0, 1, TwoPl.smallConsts⟩

def smallStore : TwoPl.KVS smallConfig.consts := .new _ (fun k => BitVec.ofNat 32 (100 + k))

def smallLeader : Leader 2 1 (Fin 2) smallConfig.consts :=
  start smallConfig smallStore (fun _ => [])

def firstSlot : Place 1 × TransReq := (⟨0, 0, 0⟩, Worker.firstLocked)

def firstAck : ResponseAppendEntries 2 1 := ⟨1, true, 0, 0, 1⟩

/-- One request; its ack arrives three times, on two notifiers. The second one reaches the quorum
and commits, the third one finds no task. -/
def commitTrace : List (LeaderAct 2 1 (Fin 2)) :=
  [.acceptClient, .worker 0 (.xactEnqueue Worker.firstXact), .worker 0 .xactDequeue,
    .worker 0 (.lockFrom true), .worker 0 (.lockTo true), .worker 0 .copyToBuffer,
    .worker 0 (.flushTest true), .worker 0 (.loggingWork ⟨0, 1, 1, 0, [Worker.firstLocked]⟩),
    .worker 0 (.sendRPC ⟨1, 0, -1, 0, 0, 0, [Worker.firstLocked], 1, 0, 1⟩),
    .worker 0 (.taskStore ⟨0, 0, 1, [Worker.firstLocked]⟩),
    .notifier 0 (.recv firstAck), .notifier 0 (.addVoteCount 0 1),
    .notifier 1 (.recv firstAck), .notifier 1 (.addVoteCount 0 2),
    .notifier 1 (.taskLoad 0 0 (some ⟨0, 0, 1, [Worker.firstLocked]⟩)),
    .notifier 1 (.commitWork .indexReadFrom firstSlot),
    .notifier 1 (.commitWork .indexReadTo firstSlot),
    .notifier 0 (.recv firstAck), .notifier 0 (.addVoteCount 0 3), .notifier 0 (.taskLoad 0 0 none),
    .notifier 1 (.commitWork .indexUpdateFrom firstSlot),
    .notifier 1 (.commitWork .indexUpdateTo firstSlot),
    .notifier 1 (.commitWork .unlockFrom firstSlot), .notifier 1 (.commitWork .unlockTo firstSlot),
    .notifier 1 (.setCommitIndex firstSlot 1), .notifier 1 (.sendRPC firstSlot .sent)]

theorem smallLeader_fresh : Fresh smallConfig smallLeader :=
  start_fresh smallConfig (fun _ => rfl) _

theorem commits_at_most_once_small :
    ∃ s, Run (Steps (step smallConfig)) smallLeader commitTrace s ∧
      ∀ op, ((calls op commitTrace).map Prod.fst).Nodup := by
  have done : (exec (step smallConfig) smallLeader commitTrace).map
      (fun s => decide (s.kvs.balance 1 = 96)) = some true := by decide
  obtain ⟨s, run, -⟩ := exec_reaches done
  exact ⟨s, run, fun op => ((commits_at_most_once smallLeader_fresh run).2.1 op).1⟩

end Example

end Leader

end Server

end Raft2pl
