/- Each batch of a worker is logged once, sent once to each follower and stored once as a task. -/

import Raft2pl.Server.Pipeline
import Raft2pl.Server.Notifier
import Mathlib.Data.List.Perm.Basic

set_option autoImplicit false
set_option relaxedAutoImplicit false

namespace Raft2pl

def Entry.batch (e : Entry) : Int × Nat × List TransReq := (e.lsn, e.nlog, e.xactSet)

def Task.batch {W : Nat} (t : Task W) : Int × Nat × List TransReq := (t.lsn, t.nlog, t.xactSet)

def AppendEntriesRpc.shared {N W : Nat} (p : AppendEntriesRpc N W) :
    Int × Int × Nat × List TransReq :=
  (p.lsn, p.term, p.szLog, p.log.take p.szLog)

namespace Server

open Lib (Run Steps)

@[simp] theorem shared_followerEntry {N W : Nat} (p : AppendEntriesRpc N W) (time : Int) :
    (followerEntry p time).shared = p.shared := by
  simp [Entry.shared, followerEntry, AppendEntriesRpc.shared, List.take_take]

theorem mem_followers {N : Nat} {cfg : Config N} {f : Fin N} : f ∈ cfg.followers ↔ f ≠ cfg.me := by
  simp [Config.followers]

private theorem nodup_followers {N : Nat} (cfg : Config N) : cfg.followers.Nodup :=
  (List.nodup_finRange N).filter _

namespace Worker

variable {N W : Nat} {cfg : Config N} {id : Fin W}

def unstored (id : Fin W) (w : Worker N W) : List (Task W) :=
  if w.pc = .sending then [w.task id] else []

def unsent (cfg : Config N) (w : Worker N W) (f : Fin N) : List (Int × Int × Nat × List TransReq) :=
  if w.pc = .sending ∧ f ∈ w.followers then
    [(w.lsn, cfg.currentTerm, w.nlog, memcpy w.logBuffer w.nlog)]
  else []

private theorem send_frame {w w' : Worker N W} {a : WorkerAct N W} (taken : step cfg id w a = some w')
    (entry : a.entry? = none) (packet : ∀ f, a.packet? f = none) (task : a.stored? = none) :
    w'.unstored id = w.unstored id ∧ (∀ f, w'.unsent cfg f = w.unsent cfg f) ∧
      (w'.pc = .sending → w.pc = .sending ∧ w'.followers = w.followers) := by
  obtain ⟨ready, rfl⟩ := step_eq_some.mp taken
  cases a with
  | loggingWork | taskStore => cases entry <;> cases task
  | sendRPC p => simpa [WorkerAct.packet?] using packet p.rNodeId
  | xactEnqueue | taskLoad | setCommitIndex =>
    exact ⟨rfl, fun _ => rfl, fun here => ⟨here, rfl⟩⟩
  | xactDequeue =>
    have here : w.pc = .head := ready
    by_cases empty : w.fetch.xact.clientId = -1 <;> simp [after, empty, unstored, unsent, here]
  | lockFrom got => cases got <;> simp [after, unstored, unsent, ready.1]
  | lockTo got => cases got <;> simp [after, unstored, unsent, ready.1]
  | unlockFrom => simp [after, unstored, unsent, ready.1]
  | copyToBuffer =>
    have here : w.pc = .locked := ready
    simp [after, unstored, unsent, here]
  | flushTest timeOut =>
    have here : w.pc = .flushTest := ready
    cases due : w.flushDue timeOut <;> simp [after, due, unstored, unsent, here]

def Targets (cfg : Config N) (w : Worker N W) : Prop :=
  w.pc = .sending → w.followers.Nodup ∧ ∀ f ∈ w.followers, f ∈ cfg.followers

structure Batches (cfg : Config N) (id : Fin W) (tr : List (WorkerAct N W)) (w : Worker N W) :
    Prop where
  stored : (stored tr).map Task.batch ++ (w.unstored id).map Task.batch = (logged tr).map Entry.batch
  owner : ∀ t ∈ Server.stored tr, t.workerId = id
  taken : (w.taskList ++ loaded tr).Perm (Server.stored tr)
  sent : ∀ f ∈ cfg.followers,
    (sentTo f tr).map AppendEntriesRpc.shared ++ w.unsent cfg f = (logged tr).map Entry.shared
  targets : w.Targets cfg
  addressed : ∀ f, ∀ p ∈ sentTo f tr, p.workerId = id ∧ p.rNodeId = f ∧ f ∈ cfg.followers

private theorem batches_start {w₀ : Worker N W} (fresh : w₀.Fresh) : Batches cfg id [] w₀ where
  stored := by simp [Server.stored, logged, unstored, fresh.pc]
  owner := by simp [Server.stored]
  taken := by simp [Server.stored, loaded, fresh.taskList]
  sent := by simp [sentTo, logged, unsent, fresh.pc]
  targets := by simp [Targets, fresh.pc]
  addressed := by simp [sentTo]

private theorem taskList_frame {w w' : Worker N W} {a : WorkerAct N W}
    (taken : step cfg id w a = some w') :
    (w'.taskList ++ (loaded [a])).Perm (w.taskList ++ Server.stored [a]) := by
  obtain ⟨ready, rfl⟩ := step_eq_some.mp taken
  cases a with
  | taskLoad lsn t =>
    have result : t = (Server.taskLoad lsn w.taskList).1 := ready
    cases found : (Server.taskLoad lsn w.taskList).1 with
    | none =>
      have same := (taskLoad_none found).1
      simp [after, same, result, found, WorkerAct.loaded?, WorkerAct.stored?]
    | some u =>
      have perm := (taskLoad_some found).2
      simp only [after, result, found, loaded_one, stored_one, WorkerAct.loaded?,
        WorkerAct.stored?, Option.toList_some, Option.toList_none, List.append_nil]
      exact (List.perm_append_singleton _ _).trans perm.symm
  | xactDequeue =>
    simp only [after, fetch, loaded_one, stored_one, WorkerAct.loaded?, WorkerAct.stored?]
    split <;> simp
  | lockFrom got =>
    cases got <;> simp [after, rewriteReq, WorkerAct.loaded?, WorkerAct.stored?]
  | lockTo got => cases got <;> simp [after, WorkerAct.loaded?, WorkerAct.stored?]
  | _ => simp [after, WorkerAct.loaded?, WorkerAct.stored?]

private theorem taken_next {tr : List (WorkerAct N W)} {w w' : Worker N W} {a : WorkerAct N W}
    (before : (w.taskList ++ loaded tr).Perm (Server.stored tr))
    (taken : step cfg id w a = some w') :
    (w'.taskList ++ loaded (tr ++ [a])).Perm (Server.stored (tr ++ [a])) := by
  have moved := taskList_frame taken
  rw [loaded_append, stored_append]
  calc (w'.taskList ++ (loaded tr ++ loaded [a])).Perm
        ((w'.taskList ++ loaded [a]) ++ loaded tr) := by
          rw [List.append_assoc]
          exact List.Perm.append_left _ List.perm_append_comm
    _ |>.Perm ((w.taskList ++ Server.stored [a]) ++ loaded tr) := moved.append_right _
    _ |>.Perm ((w.taskList ++ loaded tr) ++ Server.stored [a]) := by
          rw [List.append_assoc, List.append_assoc]
          exact List.Perm.append_left _ List.perm_append_comm
    _ |>.Perm (Server.stored tr ++ Server.stored [a]) := before.append_right _

private theorem unsent_sendRPC {w : Worker N W} {p : AppendEntriesRpc N W} (here : w.pc = .sending)
    (first : w.followers.head? = some p.rNodeId) (content : p = w.packet cfg id p.rNodeId)
    (nodup : w.followers.Nodup) (f : Fin N) :
    (sentTo f [WorkerAct.sendRPC (W := W) p]).map AppendEntriesRpc.shared ++
      (after cfg w (.sendRPC p)).unsent cfg f = w.unsent cfg f := by
  obtain ⟨rest, split⟩ : ∃ rest, w.followers = p.rNodeId :: rest := by
    cases list : w.followers with
    | nil => simp [list] at first
    | cons g rest => exact ⟨rest, by simpa [list] using first⟩
  rw [split, List.nodup_cons] at nodup
  by_cases eq : p.rNodeId = f
  · subst eq
    have shared : p.shared = (w.lsn, cfg.currentTerm, w.nlog, memcpy w.logBuffer w.nlog) := by
      rw [content]
      simp [AppendEntriesRpc.shared, packet]
    simp [after, unsent, here, split, nodup.1, WorkerAct.packet?, shared]
  · simp [after, unsent, here, split, WorkerAct.packet?, eq, Ne.symm eq]

theorem targets_step {w w' : Worker N W} {a : WorkerAct N W} (targets : w.Targets cfg)
    (taken : step cfg id w a = some w') : w'.Targets cfg := by
  by_cases loop : a.entry? = none ∧ (∀ f, a.packet? f = none) ∧ a.stored? = none
  · obtain ⟨-, -, pcs⟩ := send_frame taken loop.1 loop.2.1 loop.2.2
    intro here
    obtain ⟨was, same⟩ := pcs here
    rw [same]
    exact targets was
  · obtain ⟨ready, rfl⟩ := step_eq_some.mp taken
    cases a with
    | loggingWork e => exact fun _ => ⟨nodup_followers cfg, fun _ member => member⟩
    | sendRPC p =>
      obtain ⟨nodup, inside⟩ := targets ready.1
      exact fun _ => ⟨nodup.sublist (List.tail_sublist _),
        fun f member => inside f (List.mem_of_mem_tail member)⟩
    | taskStore t => simp [Targets, after]
    | _ => exact absurd ⟨rfl, fun _ => rfl, rfl⟩ loop

theorem unsent_step {w w' : Worker N W} {a : WorkerAct N W} (targets : w.Targets cfg)
    (taken : step cfg id w a = some w') {f : Fin N} (follower : f ∈ cfg.followers) :
    (sentTo f [a]).map AppendEntriesRpc.shared ++ w'.unsent cfg f =
      w.unsent cfg f ++ (logged [a]).map Entry.shared := by
  by_cases loop : a.entry? = none ∧ (∀ f, a.packet? f = none) ∧ a.stored? = none
  · obtain ⟨noEntry, noPacket, noTask⟩ := loop
    obtain ⟨-, unsent, -⟩ := send_frame taken noEntry noPacket noTask
    simp [noEntry, noPacket, unsent]
  · obtain ⟨ready, rfl⟩ := step_eq_some.mp taken
    cases a with
    | loggingWork e =>
      obtain ⟨here, -, content⟩ := ready
      rw [content]
      simp [after, unsent, here, follower, WorkerAct.entry?, WorkerAct.packet?, Entry.shared,
        leaderEntry]
    | sendRPC p =>
      obtain ⟨here, first, content⟩ := ready
      have moved := unsent_sendRPC here first content (targets here).1 f
      simpa [WorkerAct.entry?] using moved
    | taskStore t =>
      obtain ⟨here, served, -⟩ := ready
      simp [unsent, here, after, served, WorkerAct.packet?, WorkerAct.entry?]
    | _ => exact absurd ⟨rfl, fun _ => rfl, rfl⟩ loop

theorem packet_addressed {w w' : Worker N W} {a : WorkerAct N W} (targets : w.Targets cfg)
    (taken : step cfg id w a = some w') {f : Fin N} {p : AppendEntriesRpc N W}
    (sent : p ∈ sentTo f [a]) : p.workerId = id ∧ p.rNodeId = f ∧ f ∈ cfg.followers := by
  obtain ⟨ready, -⟩ := step_eq_some.mp taken
  cases a with
  | sendRPC q =>
    obtain ⟨here, first, content⟩ := ready
    simp only [sentTo_one, WorkerAct.packet?, Option.mem_toList, Option.ite_none_right_eq_some,
      Option.some.injEq] at sent
    obtain ⟨rfl, rfl⟩ := sent
    refine ⟨by rw [content]; rfl, rfl, (targets here).2 _ ?_⟩
    exact List.mem_of_mem_head? first
  | _ => simp [WorkerAct.packet?] at sent

private theorem unstored_step {w w' : Worker N W} {a : WorkerAct N W}
    (taken : step cfg id w a = some w') :
    (Server.stored [a]).map Task.batch ++ (w'.unstored id).map Task.batch =
      (w.unstored id).map Task.batch ++ (logged [a]).map Entry.batch ∧
      ∀ t ∈ Server.stored [a], t.workerId = id := by
  by_cases loop : a.entry? = none ∧ (∀ f, a.packet? f = none) ∧ a.stored? = none
  · obtain ⟨noEntry, noPacket, noTask⟩ := loop
    obtain ⟨unstored, -, -⟩ := send_frame taken noEntry noPacket noTask
    simp [noEntry, noTask, unstored]
  · obtain ⟨ready, rfl⟩ := step_eq_some.mp taken
    cases a with
    | loggingWork e =>
      obtain ⟨here, -, content⟩ := ready
      rw [content]
      simp [after, unstored, here, WorkerAct.entry?, WorkerAct.stored?, task, Task.batch,
        Entry.batch, leaderEntry]
    | sendRPC p =>
      obtain ⟨here, -, -⟩ := ready
      simp [unstored, here, after, WorkerAct.stored?, WorkerAct.entry?, task]
    | taskStore t =>
      obtain ⟨here, served, content⟩ := ready
      simp [unstored, here, after, WorkerAct.stored?, WorkerAct.entry?, content, task]
    | _ => exact absurd ⟨rfl, fun _ => rfl, rfl⟩ loop

private theorem batches_next {tr : List (WorkerAct N W)} {w w' : Worker N W} {a : WorkerAct N W}
    (inv : Batches cfg id tr w) (taken : step cfg id w a = some w') :
    Batches cfg id (tr ++ [a]) w' := by
  obtain ⟨tasks, owner⟩ := unstored_step taken
  refine ⟨?_, ?_, taken_next inv.taken taken, ?_, targets_step inv.targets taken, ?_⟩
  · rw [stored_append, List.map_append, List.append_assoc, tasks, ← List.append_assoc, inv.stored,
      logged_append, List.map_append]
  · intro t member
    rw [stored_append] at member
    rcases List.mem_append.mp member with old | new
    · exact inv.owner t old
    · exact owner t new
  · intro f follower
    rw [sentTo_append, List.map_append, List.append_assoc, unsent_step inv.targets taken follower,
      ← List.append_assoc, inv.sent f follower, logged_append, List.map_append]
  · intro f p member
    rw [sentTo_append] at member
    rcases List.mem_append.mp member with old | new
    · exact inv.addressed f p old
    · exact packet_addressed inv.targets taken new

def Moves (cfg : Config N) (id : Fin W) (w : Worker N W) (a : WorkerAct N W) (w' : Worker N W) :
    Prop :=
  ∃ x x', step cfg id { w with xact := x } a = some { w' with xact := x' }

theorem moves_step {w w' : Worker N W} {a : WorkerAct N W} (taken : step cfg id w a = some w') :
    Moves cfg id w a w' :=
  ⟨w.xact, w'.xact, taken⟩

private theorem batches_moves {tr : List (WorkerAct N W)} {w w' : Worker N W} {a : WorkerAct N W}
    (inv : Batches cfg id tr w) (moves : Moves cfg id w a w') : Batches cfg id (tr ++ [a]) w' := by
  obtain ⟨x, x', taken⟩ := moves
  have here : Batches cfg id tr { w with xact := x } :=
    ⟨inv.stored, inv.owner, inv.taken, inv.sent, inv.targets, inv.addressed⟩
  have next := batches_next here taken
  exact ⟨next.stored, next.owner, next.taken, next.sent, next.targets, next.addressed⟩

theorem batches_run {w₀ w : Worker N W} {tr : List (WorkerAct N W)} (fresh : w₀.Fresh)
    (run : Run (Moves cfg id) w₀ tr w) : Batches cfg id tr w :=
  run.invariant (batches_start fresh) (fun _ _ _ _ _ inv moves => batches_moves inv moves)

theorem log_run {w₀ w : Worker N W} {tr : List (WorkerAct N W)}
    (run : Run (Moves cfg id) w₀ tr w) :
    w.log = ⟨w₀.log.entry ++ logged tr, w₀.log.file ++ logged tr⟩ := by
  refine run.invariant
    (I := fun tr w => w.log = ⟨w₀.log.entry ++ logged tr, w₀.log.file ++ logged tr⟩)
    (by simp [logged]) ?_
  rintro tr w a w' - inv ⟨x, x', taken⟩
  obtain ⟨-, after⟩ := step_eq_some.mp taken
  have log : w'.log = a.entry?.elim w.log w.log.addEntry :=
    (congrArg Worker.log after).trans (log_after { w with xact := x } a)
  rw [log, logged_append, logged_one, ← List.append_assoc, ← List.append_assoc]
  cases a.entry? <;> simp [inv, Log.addEntry]

theorem file_run {w₀ w : Worker N W} {tr : List (WorkerAct N W)}
    (run : Run (Moves cfg id) w₀ tr w) : w.log.file = w₀.log.file ++ logged tr := by
  rw [log_run run]

def waiting (id : Fin W) (w : Worker N W) : List (Task W) := w.unstored id ++ w.taskList

theorem waiting_perm {tr : List (WorkerAct N W)} {w : Worker N W} (inv : Batches cfg id tr w) :
    ((loaded tr ++ w.waiting id).map Task.batch).Perm ((logged tr).map Entry.batch) := by
  have all : (loaded tr ++ w.waiting id).Perm (Server.stored tr ++ w.unstored id) := by
    calc (loaded tr ++ (w.unstored id ++ w.taskList)).Perm
          ((w.unstored id ++ w.taskList) ++ loaded tr) := List.perm_append_comm
      _ = w.unstored id ++ (w.taskList ++ loaded tr) := List.append_assoc _ _ _
      _ |>.Perm (w.unstored id ++ Server.stored tr) := inv.taken.append_left _
      _ |>.Perm (Server.stored tr ++ w.unstored id) := List.perm_append_comm
  have batches := all.map Task.batch
  have parts : (Server.stored tr ++ w.unstored id).map Task.batch =
      (Server.stored tr).map Task.batch ++ (w.unstored id).map Task.batch := List.map_append
  rwa [parts, inv.stored] at batches

end Worker

end Server

end Raft2pl
