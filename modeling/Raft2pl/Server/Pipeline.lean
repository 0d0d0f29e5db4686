/- The path of requests through one worker: queue, retry, buffer, batch, log. -/

import Raft2pl.Server.Worker
import Raft2pl.Lib.Run
import Mathlib.Data.List.Forall2

set_option autoImplicit false
set_option relaxedAutoImplicit false

namespace Raft2pl.Server

open Lib (Run Steps exec exec_reaches)

section History

variable {N W : Nat}

def WorkerAct.xact? : WorkerAct N W → Option TransReq
  | .xactEnqueue tx => some tx
  | _ => none

def WorkerAct.entry? : WorkerAct N W → Option Entry
  | .loggingWork e => some e
  | _ => none

def WorkerAct.packet? (f : Fin N) : WorkerAct N W → Option (AppendEntriesRpc N W)
  | .sendRPC p => if p.rNodeId = f then some p else none
  | _ => none

def WorkerAct.stored? : WorkerAct N W → Option (Task W)
  | .taskStore t => some t
  | _ => none

def WorkerAct.loaded? : WorkerAct N W → Option (Task W)
  | .taskLoad _ t => t
  | _ => none

def enqueued (tr : List (WorkerAct N W)) : List TransReq := tr.filterMap WorkerAct.xact?

def logged (tr : List (WorkerAct N W)) : List Entry := tr.filterMap WorkerAct.entry?

def sentTo (f : Fin N) (tr : List (WorkerAct N W)) : List (AppendEntriesRpc N W) :=
  tr.filterMap (WorkerAct.packet? f)

def stored (tr : List (WorkerAct N W)) : List (Task W) := tr.filterMap WorkerAct.stored?

def loaded (tr : List (WorkerAct N W)) : List (Task W) := tr.filterMap WorkerAct.loaded?

section Append

variable (tr tr' : List (WorkerAct N W))

@[simp] theorem enqueued_append : enqueued (tr ++ tr') = enqueued tr ++ enqueued tr' :=
  List.filterMap_append

@[simp] theorem logged_append : logged (tr ++ tr') = logged tr ++ logged tr' :=
  List.filterMap_append

@[simp] theorem sentTo_append (f : Fin N) : sentTo f (tr ++ tr') = sentTo f tr ++ sentTo f tr' :=
  List.filterMap_append

@[simp] theorem stored_append : stored (tr ++ tr') = stored tr ++ stored tr' :=
  List.filterMap_append

@[simp] theorem loaded_append : loaded (tr ++ tr') = loaded tr ++ loaded tr' :=
  List.filterMap_append

private theorem filterMap_one {β : Type} (g : WorkerAct N W → Option β) (a : WorkerAct N W) :
    [a].filterMap g = (g a).toList := by
  cases out : g a <;> simp [out]

variable (a : WorkerAct N W)

@[simp] theorem enqueued_one : enqueued [a] = a.xact?.toList := filterMap_one _ a

@[simp] theorem logged_one : logged [a] = a.entry?.toList := filterMap_one _ a

@[simp] theorem sentTo_one (f : Fin N) : sentTo f [a] = (a.packet? f).toList := filterMap_one _ a

@[simp] theorem stored_one : stored [a] = a.stored?.toList := filterMap_one _ a

@[simp] theorem loaded_one : loaded [a] = a.loaded?.toList := filterMap_one _ a

end Append

def BatchSize (nlog : Nat) : Prop := 1 ≤ nlog ∧ nlog ≤ maxGroupEntry

def WorkerAct.Sized : WorkerAct N W → Prop
  | .loggingWork e => BatchSize e.nlog
  | .sendRPC p => BatchSize p.szLog
  | .taskStore t => BatchSize t.nlog
  | _ => True

end History

/-- A copy of a request is the request itself or what `transferWork` made of it. -/
def Rewritten (copy orig : TransReq) : Prop :=
  copy = orig ∨ copy = { orig with req := orig.req.sorted }

theorem Rewritten.refl (x : TransReq) : Rewritten x x := .inl rfl

theorem Rewritten.trans {a b c : TransReq} (first : Rewritten a b) (second : Rewritten b c) :
    Rewritten a c := by
  rcases first with rfl | rfl
  · exact second
  · rcases second with rfl | rfl
    · exact .inr rfl
    · exact .inr (by simp)

private theorem rewritten_rfl (xs : List TransReq) : List.Forall₂ Rewritten xs xs :=
  List.forall₂_same.mpr (fun x _ => Rewritten.refl x)

private theorem rewritten_trans {as bs cs : List TransReq} (first : List.Forall₂ Rewritten as bs)
    (second : List.Forall₂ Rewritten bs cs) : List.Forall₂ Rewritten as cs := by
  induction first generalizing cs with
  | nil => exact second
  | cons head _ ih =>
    cases second with
    | cons head' tail' => exact .cons (head.trans head') (ih tail')

def WorkerPc.transferring : WorkerPc → Bool
  | .lockFrom | .lockTo | .unlockFrom | .locked => true
  | _ => false

namespace Worker

variable {N W : Nat} {cfg : Config N} {id : Fin W}

/-- The request that left the queue and is not in the buffer yet: the one being locked, or the
one whose last `transferWork` failed. -/
def inHand (w : Worker N W) : List TransReq :=
  if w.pc.transferring || !w.canDoXactDeq then [w.xact] else []

def buffered (w : Worker N W) : List TransReq := memcpy w.logBuffer w.buffid

theorem log_after (w : Worker N W) (a : WorkerAct N W) :
    (after cfg w a).log = a.entry?.elim w.log w.log.addEntry := by
  cases a with
  | lockFrom got | lockTo got => cases got <;> rfl
  | xactDequeue =>
    simp only [after, fetch, WorkerAct.entry?]
    split <;> rfl
  | _ => rfl

def Room (w : Worker N W) : Prop :=
  match w.pc with
  | .flushTest => w.buffid ≤ maxGroupEntry
  | .logging => BatchSize w.buffid
  | .sending => w.buffid = 0 ∧ BatchSize w.nlog
  | _ => w.buffid < maxGroupEntry

private theorem room_step {w w' : Worker N W} {a : WorkerAct N W} (room : w.Room)
    (taken : step cfg id w a = some w') : w'.Room := by
  obtain ⟨ready, rfl⟩ := step_eq_some.mp taken
  cases a with
  | xactEnqueue | taskLoad | setCommitIndex => exact room
  | xactDequeue =>
    have here : w.pc = .head := ready
    simp only [Room, here] at room
    have same : w.fetch.buffid = w.buffid := by
      unfold fetch
      split <;> rfl
    by_cases empty : w.fetch.xact.clientId = -1
    · simp only [after, empty, if_true, Room, same]
      exact Nat.le_of_lt room
    · simp only [after, empty, if_false, Room, same]
      exact room
  | lockFrom got =>
    have here : w.pc = .lockFrom := ready.1
    simp only [Room, here] at room
    cases got
    · exact Nat.le_of_lt room
    · exact room
  | lockTo got =>
    have here : w.pc = .lockTo := ready.1
    simp only [Room, here] at room
    cases got <;> exact room
  | unlockFrom =>
    have here : w.pc = .unlockFrom := ready.1
    simp only [Room, here] at room
    exact Nat.le_of_lt room
  | copyToBuffer =>
    have here : w.pc = .locked := ready
    simp only [Room, here] at room
    exact room
  | flushTest timeOut =>
    have here : w.pc = .flushTest := ready
    simp only [Room, here] at room
    cases due : w.flushDue timeOut with
    | true =>
      have some : 0 < w.buffid := by
        simp only [flushDue, Bool.or_eq_true, Bool.and_eq_true, decide_eq_true_eq] at due
        rcases due with ⟨-, pos⟩ | full
        · exact pos
        · rw [full]; decide
      simp only [after, due, if_true, Room]
      exact ⟨some, room⟩
    | false =>
      have notFull : w.buffid ≠ maxGroupEntry := by
        simp only [flushDue, Bool.or_eq_false_iff, decide_eq_false_iff_not] at due
        exact due.2
      simp only [after, due, Room]
      exact Nat.lt_of_le_of_ne room notFull
  | loggingWork e =>
    have here : w.pc = .logging := ready.1
    simp only [Room, here] at room
    exact ⟨rfl, room⟩
  | sendRPC p =>
    have here : w.pc = .sending := ready.1
    simp only [Room, here] at room
    simp only [after, Room, here]
    exact room
  | taskStore t =>
    have here : w.pc = .sending := ready.1
    simp only [Room, here] at room
    simp only [after, Room, room.1]
    decide

theorem sized_of_room {w w' : Worker N W} {a : WorkerAct N W} (room : w.Room)
    (taken : step cfg id w a = some w') : a.Sized := by
  obtain ⟨ready, -⟩ := step_eq_some.mp taken
  cases a with
  | loggingWork e =>
    have here : w.pc = .logging := ready.1
    simp only [Room, here] at room
    rw [ready.2.2]
    exact room
  | sendRPC p =>
    have here : w.pc = .sending := ready.1
    simp only [Room, here] at room
    rw [ready.2.2]
    exact room.2
  | taskStore t =>
    have here : w.pc = .sending := ready.1
    simp only [Room, here] at room
    rw [ready.2.2]
    exact room.2
  | _ => trivial

/-- The requests that are in the worker's memory and not in its log, in the order of their
progress. -/
def content (w : Worker N W) : List TransReq := w.buffered ++ w.inHand ++ w.xactQ

/-- Requests on their way carry real client ids, so the sentinel of the empty queue is not one
of them. -/
def Stamped (w : Worker N W) : Prop := ∀ tx ∈ w.content, 0 ≤ tx.clientId

theorem fetch_cases {w : Worker N W} (stamped : w.Stamped) :
    (w.canDoXactDeq = true ∧ w.xactQ = [] ∧ w.fetch = { w with xact := noXact }) ∨
    (0 ≤ w.xact.clientId ∧ w.canDoXactDeq = false ∧ w.fetch = w) ∨
    ∃ tx rest, 0 ≤ tx.clientId ∧ w.canDoXactDeq = true ∧ w.xactQ = tx :: rest ∧
      w.fetch = { w with xact := tx, xactQ := rest } := by
  by_cases flag : w.canDoXactDeq = true
  · cases queue : w.xactQ with
    | nil => exact .inl ⟨flag, rfl, by simp [fetch, flag, queue, Server.xactDequeue]⟩
    | cons tx rest =>
      refine .inr (.inr ⟨tx, rest, ?_, flag, rfl, ?_⟩)
      · exact stamped tx (by simp [content, queue])
      · simp [fetch, flag, queue, Server.xactDequeue]
  · refine .inr (.inl ⟨?_, by simpa using flag, by simp [fetch, flag]⟩)
    exact stamped _ (by simp [content, inHand, flag])

private theorem inHand_xactDequeue (cfg : Config N) {w : Worker N W} (here : w.pc = .head)
    (stamped : w.Stamped) :
    (after cfg w .xactDequeue).inHand ++ (after cfg w .xactDequeue).xactQ =
      w.inHand ++ w.xactQ := by
  rcases fetch_cases stamped with ⟨flag, empty, eq⟩ | ⟨some, flag, eq⟩ |
    ⟨tx, rest, some, flag, queue, eq⟩
  · simp [after, noXact, inHand, WorkerPc.transferring, here, flag, empty, eq]
  · have notNone : ¬ w.xact.clientId = -1 := by omega
    simp [after, notNone, inHand, WorkerPc.transferring, flag, eq]
  · have notNone : ¬ tx.clientId = -1 := by omega
    simp [after, notNone, inHand, WorkerPc.transferring, here, flag, queue, eq]

def Granted (w : Worker N W) : Prop := w.pc = .locked → w.canDoXactDeq = true

private theorem granted_step {w w' : Worker N W} {a : WorkerAct N W} (granted : w.Granted)
    (taken : step cfg id w a = some w') : w'.Granted := by
  obtain ⟨ready, rfl⟩ := step_eq_some.mp taken
  cases a with
  | xactEnqueue | taskLoad | setCommitIndex | sendRPC => exact granted
  | lockTo got => cases got <;> simp [after, Granted]
  | lockFrom got => cases got <;> simp [after, Granted]
  | xactDequeue => simp only [after, Granted]; split <;> simp
  | flushTest timeOut => simp only [after, Granted]; split <;> simp
  | _ => simp [after, Granted]

/-- One call takes requests from the front of the worker's memory to its log, adds requests at
the end, and may rewrite one in between: nothing is lost, duplicated or reordered. -/
theorem content_step {w w' : Worker N W} {a : WorkerAct N W} (stamped : w.Stamped)
    (granted : w.Granted) (taken : step cfg id w a = some w') :
    List.Forall₂ Rewritten ((logged [a]).flatMap Entry.xactSet ++ w'.content)
      (w.content ++ enqueued [a]) := by
  obtain ⟨ready, rfl⟩ := step_eq_some.mp taken
  suffices kept : (logged [a]).flatMap Entry.xactSet ++ (after cfg w a).content =
      w.content ++ enqueued [a] ∨ ∃ got, a = .lockFrom got by
    rcases kept with kept | ⟨got, rfl⟩
    · rw [kept]
      exact rewritten_rfl _
    · have hand : w.inHand = [w.xact] := by simp [inHand, WorkerPc.transferring, ready.1]
      have hand' : (after cfg w (.lockFrom got)).inHand =
          [{ w.xact with req := w.xact.req.sorted }] := by
        cases got <;> simp [after, inHand, WorkerPc.transferring, rewriteReq]
      have rest : (after cfg w (.lockFrom got)).buffered = w.buffered ∧
          (after cfg w (.lockFrom got)).xactQ = w.xactQ := by
        cases got <;> exact ⟨rfl, rfl⟩
      have pair : List.Forall₂ Rewritten [{ w.xact with req := w.xact.req.sorted }] [w.xact] :=
        .cons (.inr rfl) .nil
      simpa [WorkerAct.entry?, WorkerAct.xact?, content, hand, hand', rest] using
        List.rel_append (rewritten_rfl w.buffered) (List.rel_append pair (rewritten_rfl w.xactQ))
  cases a with
  | lockFrom got => exact .inr ⟨got, rfl⟩
  | xactEnqueue tx => exact .inl (by simp [WorkerAct.entry?, WorkerAct.xact?,
      after, content, buffered, inHand])
  | xactDequeue =>
    have moved := inHand_xactDequeue cfg ready stamped
    have buffer : (after cfg w .xactDequeue).buffered = w.buffered := by
      simp only [after, buffered, fetch]
      split <;> rfl
    refine .inl ?_
    simp only [content, List.append_assoc, moved, buffer]
    simp [WorkerAct.entry?, WorkerAct.xact?]
  | lockTo got =>
    refine .inl ?_
    cases got <;> simp [WorkerAct.entry?, WorkerAct.xact?, after, content,
      buffered, inHand, WorkerPc.transferring, ready.1]
  | copyToBuffer =>
    have here : w.pc = .locked := ready
    refine .inl ?_
    simp [WorkerAct.entry?, WorkerAct.xact?, after, content, buffered, inHand,
      WorkerPc.transferring, here, granted here]
  | flushTest timeOut =>
    have here : w.pc = .flushTest := ready
    have hand : (after cfg w (.flushTest timeOut)).inHand = w.inHand := by
      cases due : w.flushDue timeOut <;> simp [after, due, inHand, WorkerPc.transferring, here]
    refine .inl ?_
    simp only [content, hand]
    simp [WorkerAct.entry?, WorkerAct.xact?, after, buffered]
  | loggingWork e =>
    have batch : e.xactSet = w.buffered := by rw [ready.2.2]; rfl
    refine .inl ?_
    simp [WorkerAct.entry?, WorkerAct.xact?, after, content, buffered, inHand,
      WorkerPc.transferring, ready.1, batch]
  | unlockFrom | taskStore t =>
    refine .inl ?_
    simp [WorkerAct.entry?, WorkerAct.xact?, after, content, buffered, inHand,
      WorkerPc.transferring, ready.1]
  | sendRPC | taskLoad | setCommitIndex =>
    refine .inl ?_
    simp [WorkerAct.entry?, WorkerAct.xact?, after, content, buffered, inHand]

private theorem stamped_of_rewritten {as bs : List TransReq} (rel : List.Forall₂ Rewritten as bs)
    (ids : ∀ b ∈ bs, 0 ≤ b.clientId) : ∀ a ∈ as, 0 ≤ a.clientId := by
  induction rel with
  | nil => simp
  | cons head _ ih =>
    intro x hx
    rcases List.mem_cons.mp hx with rfl | hx
    · have orig := ids _ List.mem_cons_self
      rcases head with same | same <;> rw [same] <;> exact orig
    · exact ih (fun y hy => ids y (List.mem_cons_of_mem _ hy)) x hx

private theorem stamped_step {w w' : Worker N W} {a : WorkerAct N W} (stamped : w.Stamped)
    (granted : w.Granted) (taken : step cfg id w a = some w') : w'.Stamped := by
  have rel := content_step stamped granted taken
  obtain ⟨ready, -⟩ := step_eq_some.mp taken
  have new : ∀ b ∈ enqueued [a], 0 ≤ b.clientId := by
    cases a <;> simp [WorkerAct.xact?]
    exact ready
  have ids := stamped_of_rewritten rel (by
    intro b hb
    rcases List.mem_append.mp hb with old | fresh
    · exact stamped b old
    · exact new b fresh)
  exact fun x hx => ids x (List.mem_append_right _ hx)

structure Pipeline (w₀ : Worker N W) (tr : List (WorkerAct N W)) (w : Worker N W) : Prop where
  room : w.Room
  granted : w.Granted
  stamped : w.Stamped
  order : List.Forall₂ Rewritten ((logged tr).flatMap Entry.xactSet ++ w.content) (enqueued tr)
  file : w.log.file = w₀.log.file ++ logged tr
  entries : ∀ e ∈ logged tr, e.xactSet.length = e.nlog
  sized : ∀ a ∈ tr, a.Sized

private theorem pipeline_start {w₀ : Worker N W} (fresh : w₀.Fresh) : Pipeline w₀ [] w₀ where
  room := by simp only [Room, fresh.pc, fresh.buffid]; decide
  granted := by simp [Granted, fresh.pc]
  stamped := by
    simp [Stamped, content, buffered, inHand, WorkerPc.transferring, fresh.pc, fresh.buffid,
      fresh.canDoXactDeq, fresh.xactQ]
  order := by
    simp [logged, enqueued, content, buffered, inHand, WorkerPc.transferring, fresh.pc,
      fresh.buffid, fresh.canDoXactDeq, fresh.xactQ]
  file := by simp [logged]
  entries := by simp [logged]
  sized := by simp

private theorem pipeline_next {w₀ w w' : Worker N W} {tr : List (WorkerAct N W)} {a : WorkerAct N W}
    (inv : Pipeline w₀ tr w) (taken : step cfg id w a = some w') :
    Pipeline w₀ (tr ++ [a]) w' where
  room := room_step inv.room taken
  granted := granted_step inv.granted taken
  stamped := stamped_step inv.stamped inv.granted taken
  order := by
    have moved := content_step inv.stamped inv.granted taken
    have first := List.rel_append (rewritten_rfl ((logged tr).flatMap Entry.xactSet)) moved
    have second := List.rel_append inv.order (rewritten_rfl (enqueued [a]))
    simp only [List.append_assoc] at first second
    simpa only [logged_append, enqueued_append, List.flatMap_append, List.append_assoc] using
      rewritten_trans first second
  file := by
    obtain ⟨-, rfl⟩ := step_eq_some.mp taken
    have same : (after cfg w a).log.file = w.log.file ++ logged [a] := by
      rw [log_after, logged_one]
      cases a.entry? <;> simp
    rw [same, inv.file, logged_append, List.append_assoc]
  entries := by
    intro e he
    rw [logged_append, logged_one] at he
    rcases List.mem_append.mp he with old | new
    · exact inv.entries e old
    · obtain ⟨ready, -⟩ := step_eq_some.mp taken
      cases a <;> simp only [WorkerAct.entry?, Option.toList_none, Option.toList_some,
        List.not_mem_nil, List.mem_singleton] at new
      subst new
      rw [ready.2.2]
      exact length_memcpy _ _
  sized := by
    intro b hb
    rcases List.mem_append.mp hb with old | new
    · exact inv.sized b old
    · rw [List.mem_singleton.mp new]
      exact sized_of_room inv.room taken

theorem pipeline_run {w₀ w : Worker N W} {tr : List (WorkerAct N W)} (fresh : w₀.Fresh)
    (run : Run (Steps (step cfg id)) w₀ tr w) : Pipeline w₀ tr w :=
  run.invariant (pipeline_start fresh) (fun _ _ _ _ _ inv taken => pipeline_next inv taken)

/-- The worker loop loses, duplicates and reorders no request, whatever its calls to
`transferWork` and `timeOut` return and whenever producers enqueue. -/
theorem worker_keeps_requests {w₀ w : Worker N W} {tr : List (WorkerAct N W)} (fresh : w₀.Fresh)
    (run : Run (Steps (step cfg id)) w₀ tr w) :
    List.Forall₂ Rewritten
      ((logged tr).flatMap Entry.xactSet ++ memcpy w.logBuffer w.buffid ++ w.inHand ++ w.xactQ)
      (enqueued tr) ∧
    (w.pc = .head → w.inHand = (if w.canDoXactDeq then [] else [w.xact]) ∧
      w.buffid < maxGroupEntry) ∧
    w.log.file = w₀.log.file ++ logged tr ∧
    (∀ e ∈ logged tr, 1 ≤ e.nlog ∧ e.nlog ≤ maxGroupEntry ∧ e.xactSet.length = e.nlog) ∧
    (∀ f, ∀ p ∈ sentTo f tr, 1 ≤ p.szLog ∧ p.szLog ≤ maxGroupEntry) ∧
    ∀ t ∈ stored tr, 1 ≤ t.nlog ∧ t.nlog ≤ maxGroupEntry := by
  have inv := pipeline_run fresh run
  refine ⟨?_, ?_, inv.file, ?_, ?_, ?_⟩
  · have order := inv.order
    simp only [content, buffered] at order
    simpa only [List.append_assoc] using order
  · intro here
    have room := inv.room
    simp only [Room, here] at room
    refine ⟨?_, room⟩
    cases flag : w.canDoXactDeq <;> simp [inHand, here, WorkerPc.transferring, flag]
  · intro e he
    obtain ⟨a, member, label⟩ := List.mem_filterMap.mp he
    have sized := inv.sized a member
    cases a <;> simp only [WorkerAct.entry?, reduceCtorEq, Option.some.injEq] at label
    subst label
    exact ⟨sized.1, sized.2, inv.entries _ he⟩
  · intro f p hp
    obtain ⟨a, member, label⟩ := List.mem_filterMap.mp hp
    have sized := inv.sized a member
    cases a <;> simp only [WorkerAct.packet?, reduceCtorEq, Option.ite_none_right_eq_some,
      Option.some.injEq] at label
    rw [← label.2]
    exact sized
  · intro t ht
    obtain ⟨a, member, label⟩ := List.mem_filterMap.mp ht
    have sized := inv.sized a member
    cases a <;> simp only [WorkerAct.stored?, reduceCtorEq, Option.some.injEq] at label
    rw [← label]
    exact sized

section Example

def pairConfig : Config 2 := ⟨0, 1, TwoPl.shipped⟩

def firstXact : TransReq := ⟨0, 7, ⟨3, 1, 5, 0⟩⟩

def firstLocked : TransReq := ⟨0, 7, ⟨1, 3, 5, 0⟩⟩

/-- One request: its first `transferWork` fails, the second one succeeds, and the time-out flushes
it as a batch of one. -/
def retryTrace : List (WorkerAct 2 1) :=
  [.xactEnqueue firstXact, .xactDequeue, .lockFrom false, .flushTest true, .xactDequeue,
    .lockFrom true, .lockTo true, .copyToBuffer, .flushTest true,
    .loggingWork ⟨0, 1, 1, 0, [firstLocked]⟩,
    .sendRPC ⟨1, 0, -1, 0, 0, 0, [firstLocked], 1, 0, 1⟩, .taskStore ⟨0, 0, 1, [firstLocked]⟩]

theorem worker_keeps_requests_retry :
    ∃ w, Run (Steps (step pairConfig 0)) (start []) retryTrace w ∧
      List.Forall₂ Rewritten
        ((logged retryTrace).flatMap Entry.xactSet ++ memcpy w.logBuffer w.buffid ++ w.inHand ++
          w.xactQ) (enqueued retryTrace) := by
  have done : (exec (step pairConfig 0) (start []) retryTrace).map
      (fun w => decide (w.pc = .head)) = some true := by decide
  obtain ⟨w, run, -⟩ := exec_reaches done
  exact ⟨w, run, (worker_keeps_requests (start_fresh []) run).1⟩

end Example

end Worker

end Raft2pl.Server
