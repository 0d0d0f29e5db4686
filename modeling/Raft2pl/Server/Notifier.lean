/- Raft::notifier: the thread that counts the acks of one connection and commits what they decide. -/

import Raft2pl.Server.Worker
import Raft2pl.Lib.Run

set_option autoImplicit false
set_option relaxedAutoImplicit false

namespace Raft2pl

open TwoPl (CommitStage)

/-- Where a transaction stands in the logs: its worker, its batch and its index in the batch. -/
structure Place (W : Nat) where
  workerId : Fin W
  lsn : Int
  index : Nat
  deriving DecidableEq

/-- The transactions of a batch, each with its place. -/
def slots {W : Nat} (w : Fin W) (lsn : Int) (xacts : List TransReq) : List (Place W × TransReq) :=
  xacts.mapIdx (fun i x => (⟨w, lsn, i⟩, x))

def Entry.slots {W : Nat} (w : Fin W) (e : Entry) : List (Place W × TransReq) :=
  Raft2pl.slots w e.lsn (e.xactSet.take e.nlog)

def Task.slots {W : Nat} (w : Fin W) (t : Task W) : List (Place W × TransReq) :=
  Raft2pl.slots w t.lsn (t.xactSet.take t.nlog)

section Slots

variable {W : Nat}

theorem slots_snd (w : Fin W) (lsn : Int) (xs : List TransReq) :
    (slots w lsn xs).map Prod.snd = xs := by
  exact List.ext_getElem (by simp [slots]) (by simp [slots])

theorem mem_slots {w : Fin W} {lsn : Int} {xs : List TransReq} {p : Place W × TransReq} :
    p ∈ slots w lsn xs ↔ p.1.workerId = w ∧ p.1.lsn = lsn ∧ xs[p.1.index]? = some p.2 := by
  obtain ⟨⟨v, l, i⟩, x⟩ := p
  simp only [slots, List.mem_mapIdx, Prod.mk.injEq, Place.mk.injEq]
  constructor
  · rintro ⟨j, bound, ⟨rfl, rfl, rfl⟩, rfl⟩
    exact ⟨rfl, rfl, List.getElem?_eq_getElem bound⟩
  · rintro ⟨rfl, rfl, found⟩
    obtain ⟨bound, value⟩ := List.getElem?_eq_some_iff.mp found
    exact ⟨i, bound, ⟨rfl, rfl, rfl⟩, value⟩

theorem slots_places_nodup (w : Fin W) (lsn : Int) (xs : List TransReq) :
    ((slots w lsn xs).map Prod.fst).Nodup := by
  rw [List.nodup_iff_injective_getElem]
  intro i j same
  have index : (i : Nat) = j := by simpa [slots] using same
  exact Fin.ext index

end Slots

namespace Server

/-- The calls made for each transaction of a loaded task, in their order: the six of
`DB::commitWork`, then `setCommitIndex` and `sendRPC`. -/
inductive CommitOp
  | indexReadFrom | indexReadTo | indexUpdateFrom | indexUpdateTo | unlockFrom | unlockTo
  | setCommitIndex | sendRPC
  deriving DecidableEq

namespace CommitOp

def next : CommitOp → Option CommitOp
  | indexReadFrom => some indexReadTo
  | indexReadTo => some indexUpdateFrom
  | indexUpdateFrom => some indexUpdateTo
  | indexUpdateTo => some unlockFrom
  | unlockFrom => some unlockTo
  | unlockTo => some setCommitIndex
  | setCommitIndex => some sendRPC
  | sendRPC => none

def rank : CommitOp → Nat
  | indexReadFrom => 0
  | indexReadTo => 1
  | indexUpdateFrom => 2
  | indexUpdateTo => 3
  | unlockFrom => 4
  | unlockTo => 5
  | setCommitIndex => 6
  | sendRPC => 7

theorem rank_injective {a b : CommitOp} (same : a.rank = b.rank) : a = b := by
  cases a <;> cases b <;> simp [rank] at same <;> rfl

theorem rank_next {a b : CommitOp} (succ : a.next = some b) : b.rank = a.rank + 1 := by
  cases a <;> simp [next] at succ <;> subst succ <;> rfl

theorem rank_last {a : CommitOp} (last : a.next = none) (b : CommitOp) : b.rank ≤ a.rank := by
  cases a <;> simp [next] at last
  cases b <;> simp [rank]

end CommitOp

def opOf : CommitStage → CommitOp
  | .indexReadFrom => .indexReadFrom
  | .indexReadTo _ => .indexReadTo
  | .indexUpdateFrom _ _ => .indexUpdateFrom
  | .indexUpdateTo _ => .indexUpdateTo
  | .unlockFrom => .unlockFrom
  | .unlockTo => .unlockTo
  | .returned => .setCommitIndex

theorem opOf_commitStep {P : TwoPl.KvsConst} {req : ClientRequest} {kvs kvs' : TwoPl.KVS P}
    {stage stage' : CommitStage} (made : TwoPl.commitStep req kvs stage = some (kvs', stage')) :
    (opOf stage).next = some (opOf stage') := by
  cases stage <;>
    simp only [TwoPl.commitStep, Option.bind_eq_bind, Option.bind_eq_some_iff, Option.some.injEq,
      Prod.mk.injEq, reduceCtorEq] at made
  all_goals
    obtain ⟨_, -, -, rfl⟩ := made
    rfl

/-- The locals of the loop over a loaded task `t`. -/
structure Job (W : Nat) where
  workerId : Fin W
  nextIndex : Int
  t : Task W
  i : Nat

namespace Job

variable {W : Nat} (j : Job W)

def place : Place W := ⟨j.workerId, j.t.lsn, j.i⟩

def xact? : Option TransReq := if j.i < j.t.nlog then j.t.xactSet[j.i]? else none

def succ : Job W := { j with i := j.i + 1 }

def slots : List (Place W × TransReq) := (j.t.slots j.workerId).drop j.i

theorem slots_of_xact {j : Job W} {x : TransReq} (here : j.xact? = some x) :
    j.slots = (j.place, x) :: j.succ.slots := by
  have at_i : (j.t.xactSet.take j.t.nlog)[j.i]? = some x := by
    rw [List.getElem?_take]
    exact here
  obtain ⟨bound, value⟩ := List.getElem?_eq_some_iff.mp at_i
  have bound' : j.i < (j.t.slots j.workerId).length := by
    simpa [Task.slots, Raft2pl.slots] using bound
  unfold slots
  rw [List.drop_eq_getElem_cons bound']
  simp [Task.slots, Raft2pl.slots, place, succ, value]

private theorem slots_of_end {j : Job W} (done : ¬ j.i < j.t.nlog) : j.slots = [] := by
  apply List.drop_of_length_le
  simp only [Task.slots, Raft2pl.slots, List.length_mapIdx, List.length_take]
  omega

end Job

/-- The program points of a notifier thread, each before its next call on shared data. -/
inductive Notifier (N W : Nat)
  | recv
  | vote (ack : ResponseAppendEntries N W) (nextIndex : Int)
  | load (ack : ResponseAppendEntries N W) (nextIndex : Int)
  | commit (j : Job W) (stage : CommitStage)
  | reply (j : Job W)

/-- How the search for the client and the send to it ended. -/
inductive SendResult
  | noClient | sent | failed
  deriving DecidableEq

/-- The calls of a notifier, with the results they returned. -/
inductive NotifierAct (N W : Nat)
  | recv (ack : ResponseAppendEntries N W)
  | addVoteCount (lsn : Int) (count : Nat)
  | taskLoad (workerId : Fin W) (lsn : Int) (t : Option (Task W))
  | commitWork (op : CommitOp) (slot : Place W × TransReq)
  | setCommitIndex (slot : Place W × TransReq) (index : Int)
  | sendRPC (slot : Place W × TransReq) (result : SendResult)
  deriving DecidableEq

namespace NotifierAct

variable {N W : Nat}

def ack? : NotifierAct N W → Option (ResponseAppendEntries N W)
  | .recv ack => some ack
  | _ => none

def voted? : NotifierAct N W → Option Int
  | .addVoteCount lsn _ => some lsn
  | _ => none

def loaded? : NotifierAct N W → Option (Fin W × Task W)
  | .taskLoad w _ (some t) => some (w, t)
  | _ => none

/-- The call that is made for a transaction. -/
def call? : NotifierAct N W → Option (CommitOp × Place W × TransReq)
  | .commitWork op slot => some (op, slot)
  | .setCommitIndex slot _ => some (.setCommitIndex, slot)
  | .sendRPC slot _ => some (.sendRPC, slot)
  | _ => none

def callOf? (op : CommitOp) (b : NotifierAct N W) : Option (Place W × TransReq) :=
  match b.call? with
  | some (op', slot) => if op' = op then some slot else none
  | none => none

def message? : NotifierAct N W → Option (Place W × TransReq)
  | .sendRPC slot .sent => some slot
  | _ => none

end NotifierAct

namespace Notifier

variable {N W : Nat}

/-- The test of the loop over the transactions of a task. -/
def loop (j : Job W) : Notifier N W :=
  if j.i < j.t.nlog then .commit j .indexReadFrom else .recv

/-- `if (t.lsn != -1)`: where a notifier goes with the result of `taskLoad`. -/
def afterLoad (w : Fin W) (nextIndex : Int) : Option (Task W) → Notifier N W
  | some t => loop ⟨w, nextIndex, t, 0⟩
  | none => .recv

/-- What a notifier does at one call, whatever the shared data it calls on. -/
inductive Step : Notifier N W → NotifierAct N W → Notifier N W → Prop
  | recv (ack : ResponseAppendEntries N W) (nextIndex : Int) :
      Step .recv (.recv ack) (if ack.success then .vote ack nextIndex else .recv)
  | addVoteCount (ack : ResponseAppendEntries N W) (nextIndex : Int) (count : Nat) :
      Step (.vote ack nextIndex) (.addVoteCount ack.lsn count)
        (if N / 2 < count then .load ack nextIndex else .recv)
  | taskLoad (ack : ResponseAppendEntries N W) (nextIndex : Int) (t : Option (Task W)) :
      Step (.load ack nextIndex) (.taskLoad ack.workerId ack.lsn t)
        (afterLoad ack.workerId nextIndex t)
  | commitWork {j : Job W} {stage stage' : CommitStage} {x : TransReq} (here : j.xact? = some x)
      (follows : (opOf stage).next = some (opOf stage')) :
      Step (.commit j stage) (.commitWork (opOf stage) (j.place, x)) (.commit j stage')
  | setCommitIndex {j : Job W} {x : TransReq} (here : j.xact? = some x) :
      Step (.commit j .returned) (.setCommitIndex (j.place, x) j.nextIndex) (.reply j)
  | sendRPC {j : Job W} {x : TransReq} (result : SendResult) (here : j.xact? = some x) :
      Step (.reply j) (.sendRPC (j.place, x) result) (loop j.succ)

theorem Step.to_load {n : Notifier N W} {b : NotifierAct N W} {ack : ResponseAppendEntries N W}
    {nextIndex : Int} {n' : Notifier N W} (taken : Step n b n') (here : n' = .load ack nextIndex) :
    ∃ count, b = .addVoteCount ack.lsn count ∧ N / 2 < count := by
  cases taken with
  | recv ack' nextIndex' => cases granted : ack'.success <;> simp [granted] at here
  | addVoteCount ack' nextIndex' count =>
    by_cases quorum : N / 2 < count
    · obtain ⟨rfl, -⟩ : ack' = ack ∧ nextIndex' = nextIndex := by simpa [quorum] using here
      exact ⟨count, rfl, quorum⟩
    · simp [quorum] at here
  | taskLoad ack' nextIndex' t =>
    cases t with
    | none => simp [afterLoad] at here
    | some t =>
      simp only [afterLoad, loop] at here
      split at here <;> simp at here
  | commitWork | setCommitIndex => simp at here
  | sendRPC =>
    simp only [loop] at here
    split at here <;> simp at here

theorem Step.of_addVoteCount {n n' : Notifier N W} {lsn : Int} {count : Nat}
    (taken : Step n (.addVoteCount lsn count) n') :
    ∃ ack nextIndex, n = .vote ack nextIndex ∧ lsn = ack.lsn := by
  cases taken with
  | addVoteCount ack nextIndex count => exact ⟨ack, nextIndex, rfl, rfl⟩

theorem Step.of_taskLoad {n n' : Notifier N W} {w : Fin W} {lsn : Int} {t : Option (Task W)}
    (taken : Step n (.taskLoad w lsn t) n') :
    ∃ ack nextIndex, n = .load ack nextIndex ∧ w = ack.workerId ∧ lsn = ack.lsn := by
  cases taken with
  | taskLoad ack nextIndex t => exact ⟨ack, nextIndex, rfl, rfl, rfl⟩

def untouched (rest : List (Place W × TransReq)) : List (CommitOp × Place W × TransReq) :=
  rest.map (Prod.mk .indexReadFrom)

def attach (op : CommitOp) : List (Place W × TransReq) → List (CommitOp × Place W × TransReq)
  | [] => []
  | slot :: rest => (op, slot) :: untouched rest

def work : Notifier N W → List (CommitOp × Place W × TransReq)
  | .commit j stage => attach (opOf stage) j.slots
  | .reply j => attach .sendRPC j.slots
  | _ => []

private theorem attach_first (ss : List (Place W × TransReq)) :
    attach .indexReadFrom ss = untouched ss := by
  cases ss <;> rfl

private theorem work_loop (j : Job W) : (loop j : Notifier N W).work = untouched j.slots := by
  unfold loop
  split
  · exact attach_first _
  · rename_i done
    simp [work, untouched, Job.slots_of_end done]

theorem work_call {n n' : Notifier N W} {b : NotifierAct N W} {op : CommitOp}
    {slot : Place W × TransReq} (taken : Step n b n') (call : b.call? = some (op, slot)) :
    ∃ rest, n.work = (op, slot) :: untouched rest ∧
      n'.work = (op.next.map (·, slot)).toList ++ untouched rest := by
  cases taken with
  | recv | addVoteCount | taskLoad => simp [NotifierAct.call?] at call
  | @commitWork j stage stage' x here follows =>
    obtain ⟨rfl, rfl⟩ : opOf stage = op ∧ (j.place, x) = slot := by
      simpa [NotifierAct.call?] using call
    refine ⟨j.succ.slots, ?_, ?_⟩ <;> simp [work, Job.slots_of_xact here, attach, follows]
  | @setCommitIndex j x here =>
    obtain ⟨rfl, rfl⟩ : CommitOp.setCommitIndex = op ∧ (j.place, x) = slot := by
      simpa [NotifierAct.call?] using call
    refine ⟨j.succ.slots, ?_, ?_⟩ <;>
      simp [work, Job.slots_of_xact here, attach, opOf, CommitOp.next]
  | @sendRPC j x result here =>
    obtain ⟨rfl, rfl⟩ : CommitOp.sendRPC = op ∧ (j.place, x) = slot := by
      simpa [NotifierAct.call?] using call
    refine ⟨j.succ.slots, ?_, ?_⟩
    · simp [work, Job.slots_of_xact here, attach]
    · simp [work_loop, CommitOp.next]

theorem work_load {n n' : Notifier N W} {b : NotifierAct N W} {w : Fin W} {t : Task W}
    (taken : Step n b n') (load : b.loaded? = some (w, t)) :
    n.work = [] ∧ n'.work = untouched (t.slots w) := by
  cases taken with
  | taskLoad ack nextIndex u =>
    cases u with
    | none => simp [NotifierAct.loaded?] at load
    | some u =>
      obtain ⟨rfl, rfl⟩ : ack.workerId = w ∧ u = t := by simpa [NotifierAct.loaded?] using load
      exact ⟨rfl, by simp [afterLoad, work_loop, Job.slots]⟩
  | _ => simp [NotifierAct.loaded?] at load

theorem work_frame {n n' : Notifier N W} {b : NotifierAct N W} (taken : Step n b n')
    (call : b.call? = none) (load : b.loaded? = none) : n'.work = n.work := by
  cases taken with
  | recv ack nextIndex => cases ack.success <;> rfl
  | addVoteCount ack nextIndex count =>
    by_cases quorum : N / 2 < count <;> simp [quorum, work]
  | taskLoad ack nextIndex t =>
    cases t with
    | none => rfl
    | some t => simp [NotifierAct.loaded?] at load
  | _ => simp [NotifierAct.call?] at call

end Notifier

end Server

end Raft2pl
