/- Log::match, the position that a packet states for it, and the follower that does not ask it. -/

import Raft2pl.Server.Commit
import Raft2pl.Server.Replication

set_option autoImplicit false
set_option relaxedAutoImplicit false

namespace Raft2pl.Server

open Lib (Run Steps exec exec_reaches)

namespace Log

variable {log : Log} {index : Int} {e : Entry}

theorem getEntry_eq_some :
    log.getEntry index = some e ↔ 0 ≤ index ∧ log.entry[index.toNat]? = some e := by
  unfold getEntry
  split
  · constructor
    · intro found
      cases found
    · intro found
      omega
  · constructor
    · intro found
      exact ⟨by omega, found⟩
    · intro found
      exact found.2

private theorem getEntry_isSome :
    (log.getEntry index).isSome ↔ 0 ≤ index ∧ index ≤ log.lastLogIndex := by
  unfold getEntry lastLogIndex
  split
  · simp
    omega
  · rw [isSome_getElem?]
    omega

private theorem getTerm_of_getEntry (found : log.getEntry index = some e) :
    log.getTerm index = e.term := by
  obtain ⟨low, high⟩ := getEntry_isSome.mp (Option.isSome_of_mem found)
  unfold getTerm
  rw [if_neg (by omega), if_neg (by omega), found]
  rfl

private theorem getTerm_past (past : log.lastLogIndex < index) : log.getTerm index = -1 := by
  unfold getTerm
  by_cases first : index < 0
  · rw [if_pos first]
  · rw [if_neg first, if_pos past]

/-- Either nothing comes before the entries that follow, or it is an entry of the given term. -/
def HasTerm (log : Log) (prevLogIndex prevTerm : Int) : Prop :=
  prevLogIndex < 0 ∨ ∃ e, log.getEntry prevLogIndex = some e ∧ e.term = prevTerm

private theorem match_of_getEntry (found : log.getEntry index = some e) (prevTerm : Int) :
    log.match index prevTerm = true ↔ e.term = prevTerm := by
  have low := (getEntry_eq_some.mp found).1
  unfold Log.match
  rw [if_neg (by omega), getTerm_of_getEntry found]
  by_cases same : prevTerm = e.term
  · simp [same]
  · simp [same, Ne.symm same]

private theorem match_of_past (past : log.lastLogIndex < index) (prevTerm : Int) :
    log.match index prevTerm = true ↔ prevTerm = -1 := by
  have size : -1 ≤ log.lastLogIndex := by
    unfold lastLogIndex
    omega
  unfold Log.match
  rw [if_neg (by omega), getTerm_past past]
  by_cases same : prevTerm = -1 <;> simp [same]

/-- `match` is the consistency check, but for the term that `getTerm` has for a missing entry. -/
theorem match_exact (log : Log) (prevLogIndex prevTerm : Int) :
    (log.match prevLogIndex prevTerm = true ↔ log.HasTerm prevLogIndex prevTerm) ↔
      prevLogIndex ≤ log.lastLogIndex ∨ prevTerm ≠ -1 := by
  by_cases first : prevLogIndex < 0
  · have size : -1 ≤ log.lastLogIndex := by
      unfold lastLogIndex
      omega
    have passes : log.match prevLogIndex prevTerm = true := by
      unfold Log.match
      rw [if_pos first]
    constructor
    · intro _
      exact .inl (by omega)
    · intro _
      exact ⟨fun _ => .inl first, fun _ => passes⟩
  by_cases inside : prevLogIndex ≤ log.lastLogIndex
  · obtain ⟨e, found⟩ := Option.isSome_iff_exists.mp
      (getEntry_isSome.mpr ⟨Int.not_lt.mp first, inside⟩)
    simp [HasTerm, match_of_getEntry found, found, first, inside]
  · have none : log.getEntry prevLogIndex = none := by
      rw [← Option.not_isSome_iff_eq_none, getEntry_isSome]
      exact fun within => inside within.2
    simp [HasTerm, match_of_past (Int.not_le.mp inside), none, first, inside]

/-- An empty log is found to match a log of four entries, the last of them of the term that a leader
in term 0 states. -/
theorem match_past_end :
    (ofFile []).match 3 (-1) = true ∧ ¬ (ofFile []).HasTerm 3 (-1) := by
  refine ⟨by decide, ?_⟩
  rintro (first | ⟨e, found, -⟩)
  · exact absurd first (by decide)
  · simp [getEntry, ofFile] at found

end Log

section Receiver

variable {N W : Nat}

/-- One iteration of the loop of `Raft::logReceiver` at follower `f`: the log after it and the ack
that is sent; `none` where an assertion of `loggingWork` fails. -/
def logReceiver (curTerm : Fin N → Int) (f : Fin N) (log : Log) (arpc : AppendEntriesRpc N W)
    (time : Int) : Option (Log × ResponseAppendEntries N W) :=
  if 0 ≤ arpc.lsn ∧ 0 < arpc.szLog then
    some (log.addEntry (followerEntry arpc time), Cluster.raeByFields curTerm f arpc)
  else none

/-- The packet is not from an older term, and what it says about the entry before its own is true of
the follower's log. -/
def Consistent (curTerm : Int) (log : Log) (arpc : AppendEntriesRpc N W) : Prop :=
  curTerm ≤ arpc.term ∧ log.match arpc.prevLogIndex arpc.prevLogTerm = true

/-- The notifier that reads the ack goes on to its next one without a vote. -/
def Uncounted (rae : ResponseAppendEntries N W) : Prop :=
  ∀ (cfg : Config N) (s s' : Leader N W (Conn N W) cfg.consts) (n : Conn N W),
    Leader.step cfg s (.notifier n (.recv rae)) = some s' → s'.notifier n = .recv

/-- The follower takes only consistent packets, and the leader does not count the others. -/
structure Checked (curTerm : Fin N → Int) (f : Fin N) (log : Log) (arpc : AppendEntriesRpc N W)
    (time : Int) : Prop where
  accepted : ∀ log' rae, logReceiver curTerm f log arpc time = some (log', rae) →
    log' ≠ log ∨ rae.success = true → Consistent (curTerm f) log arpc
  refused : ¬ Consistent (curTerm f) log arpc → ∃ rae,
    logReceiver curTerm f log arpc time = some (log, rae) ∧ rae.success = false ∧ Uncounted rae

/-- The calls of a receiver thread on one packet are one iteration of its loop. -/
theorem logReceiver_steps {cfg : Config N} {curTerm : Fin N → Int} {c c' : Cluster N W cfg.consts}
    {n : Conn N W} {logId : Fin W} {e : Entry}
    (taken : Cluster.step cfg curTerm c (.loggingWork n logId e) = some c') :
    ∃ arpc rae, c.receiver n = .logging logId arpc ∧
      logReceiver curTerm n.1 (c.disk (n.1, logId)) arpc e.time =
        some (c'.disk (n.1, logId), rae) ∧
      ∀ c₁ c₂ rae', c₁.receiver n = c'.receiver n →
        Cluster.step cfg curTerm c₁ (.sendAck n rae') = some c₂ → rae' = rae := by
  cases here : c.receiver n with
  | logging id arpc =>
    simp only [Cluster.step, here, Option.ite_none_right_eq_some, Option.some.injEq] at taken
    obtain ⟨⟨rfl, nonneg, filled, content⟩, rfl⟩ := taken
    refine ⟨arpc, Cluster.raeByFields curTerm n.1 arpc, rfl, ?_, ?_⟩
    · rw [logReceiver, if_pos ⟨nonneg, filled⟩, ← content]
      simp
    · intro c₁ c₂ rae' same sends
      obtain ⟨id', arpc', acking, rfl, -⟩ := Cluster.step_sendAck sends
      rw [same] at acking
      obtain ⟨-, rfl⟩ : logId = id' ∧ arpc = arpc' := by simpa using acking
      rfl
  | _ => simp [Cluster.step, here] at taken

/-- The success test of the notifier. -/
theorem uncounted_of_refused {rae : ResponseAppendEntries N W} (refused : rae.success = false) :
    Uncounted rae := by
  intro cfg s s' n taken
  obtain ⟨-, rfl⟩ := Leader.notifierStep_recv taken
  simp [Leader.setNotifier, refused]

/-- `logReceiver` grants every packet, so it takes just the right ones where all are consistent. -/
theorem checked_iff_consistent (curTerm : Fin N → Int) (f : Fin N) (log : Log)
    (arpc : AppendEntriesRpc N W) (time : Int) :
    Checked curTerm f log arpc time ↔ Consistent (curTerm f) log arpc := by
  constructor
  · intro checked
    by_contra inconsistent
    obtain ⟨rae, done, refused, -⟩ := checked.refused inconsistent
    simp only [logReceiver, Option.ite_none_right_eq_some, Option.some.injEq, Prod.mk.injEq] at done
    obtain ⟨-, -, rfl⟩ := done
    simp [Cluster.raeByFields] at refused
  · intro consistent
    exact ⟨fun _ _ _ _ => consistent, fun inconsistent => absurd consistent inconsistent⟩

def stalePacket : AppendEntriesRpc 3 1 := ⟨1, 0, 3, 1, 0, 4, [Worker.firstLocked], 1, 0, 1⟩

/-- A follower in term 2 appends it to its empty log, and its ack is counted. -/
theorem stale_packet_granted :
    ¬ Checked (fun _ => 2) 1 (Log.ofFile []) stalePacket 5 ∧
      ∃ log rae, logReceiver (fun _ => 2) 1 (Log.ofFile []) stalePacket 5 = some (log, rae) ∧
        log.file.length = 1 ∧ rae.success = true ∧ ¬ Uncounted rae := by
  refine ⟨?_, _, _, rfl, rfl, rfl, ?_⟩
  · intro checked
    obtain ⟨rae, done, refused, -⟩ := checked.refused (fun fits => absurd fits.1 (by decide))
    obtain rfl : Cluster.raeByFields (fun _ => 2) 1 stalePacket = rae := by
      simpa [logReceiver, stalePacket] using (congrArg (Option.map Prod.snd) done)
    cases refused
  · intro uncounted
    have next := uncounted Cluster.threeConfig Cluster.threeNodes.leader _ (1, 0) rfl
    simp [Leader.setNotifier, Cluster.raeByFields] at next

end Receiver

section Position

variable {N W : Nat}

/-- What the packet that carries the last entry of a log says about the entry before it: where it
is, and of which term, so that a follower with the same entries up to there accepts the packet. -/
structure DescribesPosition (log : Log) (p : AppendEntriesRpc N W) : Prop where
  index : p.prevLogIndex + 1 = log.lastLogIndex
  term : log.getPrevTerm p.prevLogIndex = some p.prevLogTerm
  accepted : ∀ log' : Log, (∀ i ≤ p.prevLogIndex, log'.getEntry i = log.getEntry i) →
    log'.match p.prevLogIndex p.prevLogTerm = true

private theorem match_of_agree {log log' : Log} {index term : Int}
    (agree : ∀ i ≤ index, log'.getEntry i = log.getEntry i)
    (known : log.getPrevTerm index = some term) : log'.match index term = true := by
  unfold Log.getPrevTerm at known
  split at known
  · rename_i first
    unfold Log.match
    rw [if_pos (by omega)]
  · obtain ⟨e, found, same⟩ := Option.map_eq_some_iff.mp known
    exact (Log.match_of_getEntry ((agree index le_rfl).trans found) term).mpr same

private theorem getPrevTerm_append (old new file file' : List Entry) :
    (⟨old ++ new, file⟩ : Log).getPrevTerm (old.length - 1) =
      some (⟨old, file'⟩ : Log).lastLogTerm := by
  rcases List.eq_nil_or_concat old with rfl | ⟨rest, e, rfl⟩
  · rfl
  · have inside : (⟨rest.concat e, file'⟩ : Log).getEntry (rest.length : Int) = some e := by
      rw [Log.getEntry_eq_some]
      simp
    have before : (⟨rest.concat e ++ new, file⟩ : Log).getEntry (rest.length : Int) = some e := by
      rw [Log.getEntry_eq_some]
      simp
    have last : ((rest.concat e).length : Int) - 1 = rest.length := by simp
    rw [Log.lastLogTerm, Log.lastLogIndex, last, Log.getTerm_of_getEntry inside, Log.getPrevTerm,
      if_neg (by omega), before]
    rfl

namespace Worker

variable {cfg : Config N} {id : Fin W}

theorem nextIndex_run {w₀ w : Worker N W} {tr : List (WorkerAct N W)}
    (run : Run (Moves cfg id) w₀ tr w) : w.nextIndex = w₀.nextIndex := by
  refine run.invariant (I := fun _ w => w.nextIndex = w₀.nextIndex) rfl ?_
  rintro tr w a w' - inv ⟨x, x', taken⟩
  obtain ⟨-, after⟩ := step_eq_some.mp taken
  have same : ∀ u : Worker N W, (Worker.after cfg u a).nextIndex = u.nextIndex := by
    intro u
    cases a with
    | lockFrom got | lockTo got => cases got <;> rfl
    | xactDequeue =>
      simp only [Worker.after, fetch]
      split <;> rfl
    | _ => rfl
  rw [← inv]
  exact (congrArg Worker.nextIndex after).trans (same { w with xact := x })

private theorem carries_last {tr : List (WorkerAct N W)} {w : Worker N W} {p : AppendEntriesRpc N W}
    (inv : Batches cfg id tr w) (ready : w.Ready cfg id (.sendRPC p)) :
    ∃ before e, logged tr = before ++ [e] ∧ e.shared = p.shared := by
  obtain ⟨sending, next, content⟩ := ready
  have member : p.rNodeId ∈ w.followers := List.mem_of_mem_head? next
  have whole := inv.sent p.rNodeId ((inv.targets sending).2 _ member)
  have unsent : w.unsent cfg p.rNodeId = [p.shared] := by
    rw [content]
    simp [Worker.unsent, sending, member, AppendEntriesRpc.shared, packet]
  rw [unsent] at whole
  rcases List.eq_nil_or_concat (logged tr) with none | ⟨before, e, last⟩
  · simp [none] at whole
  · refine ⟨before, e, by simpa using last, ?_⟩
    rw [last, List.concat_eq_append, List.map_append] at whole
    obtain ⟨-, same⟩ := List.append_inj' whole rfl
    simpa using same.symm

end Worker

namespace Leader

variable {ν : Type} [DecidableEq ν] {cfg : Config N} {s₀ s s' : Leader N W ν cfg.consts}
  {tr : List (LeaderAct N W ν)}

def Indexed (s : Leader N W ν cfg.consts) : Prop :=
  ∀ w f, (s.worker w).nextIndex f = (s.worker w).log.entry.length

/-- A packet describes its position just when it is for the first batch of the run and the log that
the worker found ends with an entry of the term before the current one. -/
theorem describes_position_iff (fresh : Fresh cfg s₀) (indexed : s₀.Indexed)
    (run : Run (Steps (step cfg)) s₀ tr s) {w : Fin W} {p : AppendEntriesRpc N W}
    (sent : step cfg s (.worker w (.sendRPC p)) = some s') :
    (∃ e, (s.worker w).log.getEntry (s.worker w).log.lastLogIndex = some e ∧
      e.shared = p.shared) ∧
    (DescribesPosition (s.worker w).log p ↔ (logged (ofWorker w tr)).length = 1 ∧
      (s₀.worker w).log.lastLogTerm = cfg.currentTerm - 1) := by
  have own := worker_moves (moves_run run) w
  obtain ⟨-, w', kvs', nextLsn', moved, -, -, -⟩ := workerStep_some sent
  obtain ⟨ready, -⟩ := Worker.step_eq_some.mp moved
  have log := Worker.log_run own
  have batches := Worker.batches_run (fresh.worker w) own
  obtain ⟨before, e, last, same⟩ := Worker.carries_last batches ready
  have content := ready.2.2
  have prevIndex : p.prevLogIndex = (s₀.worker w).log.entry.length - 1 := by
    rw [content, Worker.packet, Worker.nextIndex_run own, indexed]
  have prevTerm : p.prevLogTerm = cfg.currentTerm - 1 := by
    rw [content, Worker.packet]
  have lastIndex : (s.worker w).log.lastLogIndex =
      (s₀.worker w).log.entry.length + (logged (ofWorker w tr)).length - 1 := by
    rw [log, Log.lastLogIndex]
    simp
  have term : (s.worker w).log.getPrevTerm p.prevLogIndex = some (s₀.worker w).log.lastLogTerm := by
    rw [log, prevIndex]
    exact getPrevTerm_append _ _ _ _
  refine ⟨⟨e, ?_, same⟩, ?_⟩
  · rw [Log.getEntry_eq_some, lastIndex, log, last]
    constructor
    · simp
      omega
    · have position : ((s₀.worker w).log.entry.length + (before ++ [e]).length - 1 : Int).toNat =
          ((s₀.worker w).log.entry ++ before).length := by
        simp
        omega
      rw [position, ← List.append_assoc]
      simp
  · constructor
    · intro describes
      have index := describes.index
      have known := describes.term
      rw [term, Option.some.injEq] at known
      rw [prevIndex, lastIndex] at index
      exact ⟨by omega, by omega⟩
    · rintro ⟨one, older⟩
      have known : (s.worker w).log.getPrevTerm p.prevLogIndex = some p.prevLogTerm := by
        rw [term, older, prevTerm]
      exact ⟨by omega, known, fun log' agree => match_of_agree agree known⟩

section Example

def startIndexed (cfg : Config N) (kvs : TwoPl.KVS cfg.consts) (file : Fin W → List Entry) :
    Leader N W ν cfg.consts :=
  { start cfg kvs file with
    worker := fun w =>
      { Worker.start (file w) with commitIndex := -1, nextIndex := fun _ => (file w).length } }

omit [DecidableEq ν] in
theorem startIndexed_fresh {kvs : TwoPl.KVS cfg.consts} (free : ∀ k, kvs.mutex k = false)
    (file : Fin W → List Entry) : Fresh cfg (startIndexed (ν := ν) cfg kvs file) where
  worker := fun _ => ⟨rfl, rfl, rfl, rfl, rfl, rfl⟩
  notifier := fun _ => rfl
  mutex := free
  votes := fun _ => rfl
  nextLsn := rfl
  clientNodes := rfl

omit [DecidableEq ν] in
private theorem startIndexed_indexed (kvs : TwoPl.KVS cfg.consts) (file : Fin W → List Entry) :
    (startIndexed (ν := ν) cfg kvs file).Indexed :=
  fun _ _ => rfl

def termConfig (term : Int) : Config 2 := ⟨0, term, TwoPl.smallConsts⟩

def indexedLeader (term : Int) (file : List Entry) :
    Leader 2 1 (Fin 1) (termConfig term).consts :=
  startIndexed (termConfig term) (.new _ (fun _ => 100)) (fun _ => file)

def logTrace (term : Int) : List (LeaderAct 2 1 (Fin 1)) :=
  [.worker 0 (.xactEnqueue Worker.firstXact), .worker 0 .xactDequeue, .worker 0 (.lockFrom true),
    .worker 0 (.lockTo true), .worker 0 .copyToBuffer, .worker 0 (.flushTest true),
    .worker 0 (.loggingWork ⟨0, term, 1, 0, [Worker.firstLocked]⟩)]

def logPacket (term prevLogIndex : Int) : AppendEntriesRpc 2 1 :=
  ⟨term, 0, prevLogIndex, term - 1, -1, 0, [Worker.firstLocked], 1, 0, 1⟩

/-- The first packet of a leader in term 0 on an empty log. -/
theorem describes_position_first :
    ∃ s : Leader 2 1 (Fin 1) (termConfig 0).consts,
      Run (Steps (step (termConfig 0))) (indexedLeader 0 []) (logTrace 0) s ∧
      DescribesPosition (s.worker 0).log (logPacket 0 (-1)) := by
  have done : (exec (step (termConfig 0)) (indexedLeader 0 []) (logTrace 0)).map
      (fun s => (step (termConfig 0) s (.worker 0 (.sendRPC (logPacket 0 (-1))))).isSome) =
      some true := by decide
  obtain ⟨s, run, enabled⟩ := exec_reaches done
  obtain ⟨s', sent⟩ := Option.isSome_iff_exists.mp enabled
  exact ⟨s, run, (describes_position_iff (startIndexed_fresh (fun _ => rfl) _)
    (startIndexed_indexed _ _) run sent).2.mpr ⟨by decide, by decide⟩⟩

/-- A leader in term 1 has an entry of term 1 from before. The packet for its next batch states term
0 for it, which is false of the leader's own log. -/
theorem packet_misstates_term :
    ∃ s s' : Leader 2 1 (Fin 1) (termConfig 1).consts,
      Run (Steps (step (termConfig 1)))
        (indexedLeader 1 [⟨0, 1, 1, 0, [Worker.firstLocked]⟩]) (logTrace 1) s ∧
      step (termConfig 1) s (.worker 0 (.sendRPC (logPacket 1 0))) = some s' ∧
      ¬ DescribesPosition (s.worker 0).log (logPacket 1 0) := by
  have done : (exec (step (termConfig 1))
      (indexedLeader 1 [⟨0, 1, 1, 0, [Worker.firstLocked]⟩]) (logTrace 1)).map
      (fun s => (step (termConfig 1) s (.worker 0 (.sendRPC (logPacket 1 0)))).isSome &&
        !(s.worker 0).log.match 0 0) = some true := by decide
  obtain ⟨s, run, holds⟩ := exec_reaches done
  obtain ⟨enabled, unmatched⟩ := Bool.and_eq_true_iff.mp holds
  obtain ⟨s', sent⟩ := Option.isSome_iff_exists.mp enabled
  refine ⟨s, s', run, sent, fun describes => ?_⟩
  have own : (s.worker 0).log.match 0 0 = true := describes.accepted _ (fun _ _ => rfl)
  simp [own] at unmatched

end Example

end Leader

end Position

end Raft2pl.Server
