/- A worker that nobody disturbs does, access by access, what transferWork does as one computation. -/

import Raft2pl.Silo.Workers
import Raft2pl.Silo.Transfer
import Raft2pl.Lib.Run
import Mathlib.Logic.Relation

set_option autoImplicit false
set_option relaxedAutoImplicit false

namespace Raft2pl.Silo.Process

open Relation (ReflTransGen)
open Lib (Run Steps)

variable {W : Nat} (s : Process W) (i : Fin W) (beyondFrom beyondTo : List Byte)

def put (table : Table) (w : Worker) : Process W := { s with table := table }.go i w

def Alone : Process W → Process W → Prop :=
  ReflTransGen (fun s t => s.access i beyondFrom beyondTo = some t)

theorem alone_run {s t : Process W} {i : Fin W} {beyondFrom beyondTo : List Byte}
    (alone : Alone i beyondFrom beyondTo s t) :
    ∃ tr, Run (Steps step) s tr t ∧ ∀ a ∈ tr, a = .access i beyondFrom beyondTo := by
  induction alone with
  | refl => exact ⟨[], .start, by simp⟩
  | tail _ taken ih =>
    obtain ⟨tr, run, same⟩ := ih
    have moved : Steps step _ (.access i beyondFrom beyondTo) _ := taken
    refine ⟨tr ++ [.access i beyondFrom beyondTo], .next run moved, fun a member => ?_⟩
    rcases List.mem_append.mp member with old | new
    · exact same a old
    · exact List.mem_singleton.mp new

section Put

variable (table table' : Table) (w w' : Worker)

@[simp] theorem put_worker : (s.put i table w).worker i = w := by
  simp [put, go]

@[simp] theorem put_table : (s.put i table w).table = table := rfl

@[simp] theorem put_go : (s.put i table w).go i w' = s.put i table w' := by
  simp [put, go]

@[simp] theorem put_store : go { s.put i table w with table := table' } i w' =
    s.put i table' w' := by
  simp [put, go]

end Put

variable {s i beyondFrom beyondTo} {table : Table} {x : TxnExecutor} {req : ClientRequest} {pc : Pc}

theorem unlock_alone (es : List WriteElement) :
    Alone i beyondFrom beyondTo (s.put i table (Worker.nextUnlock ⟨x, req, pc⟩ es))
      (s.put i (unlockWriteSet table es) ⟨x.abort, req, .idle⟩) := by
  induction es generalizing table pc with
  | nil => exact .refl
  | cons e rest ih =>
    let desired : Tidword := { (table e.key).tidword with lock := false }
    have load : (s.put i table ⟨x, req, .unlockLoad e rest⟩).access i beyondFrom beyondTo =
        some (s.put i table ⟨x, req, .unlockStore e rest desired⟩) := by
      simp [access, desired]
    have store : (s.put i table ⟨x, req, .unlockStore e rest desired⟩).access i beyondFrom beyondTo =
        some (s.put i (storeTid table e.key desired)
          (Worker.nextUnlock ⟨x, req, .unlockStore e rest desired⟩ rest)) := by
      simp [access]
    exact .head load (.head store ih)

private theorem read_some {key : BitVec 64} {x' : TxnExecutor} (unread : x.searchReadSet key = false)
    (unwritten : x.searchWriteSet key = false) (done : x.read table key = some x') :
    (table key).tidword.lock = false ∧
      x' = { x with readSet := x.readSet ++ [⟨key, (table key).val, (table key).tidword⟩] } := by
  simp only [TxnExecutor.read, unread, unwritten, Bool.or_self, Bool.false_eq_true, if_false] at done
  split at done
  · simp at done
  · next free => exact ⟨by simpa using free, (Option.some.inj done).symm⟩

private theorem read_alone {key : BitVec 64} {rest : List (BitVec 64)} {w : Worker} {x' : TxnExecutor}
    (unread : x.searchReadSet key = false) (unwritten : x.searchWriteSet key = false)
    (done : x.read table key = some x')
    (next : Worker.nextRead ⟨x', req, .readCheck key rest (table key).tidword (table key).val⟩
      beyondFrom beyondTo rest = some w) :
    Alone i beyondFrom beyondTo (s.put i table ⟨x, req, .readLoad key rest⟩) (s.put i table w) := by
  obtain ⟨free, rfl⟩ := read_some unread unwritten done
  have load : (s.put i table ⟨x, req, .readLoad key rest⟩).access i beyondFrom beyondTo =
      some (s.put i table ⟨x, req, .readCopy key rest (table key).tidword⟩) := by
    simp [access, free]
  have copy : (s.put i table ⟨x, req, .readCopy key rest (table key).tidword⟩).access i
      beyondFrom beyondTo = some (s.put i table
        ⟨x, req, .readCheck key rest (table key).tidword (table key).val⟩) := by
    simp [access]
  have check : (s.put i table ⟨x, req, .readCheck key rest (table key).tidword
      (table key).val⟩).access i beyondFrom beyondTo = some (s.put i table w) := by
    simp [access, next]
  exact .head load (.head copy (.single check))

theorem lock_alone (locked es : List WriteElement) (inFlight : x.status ≠ .aborted)
    {table' : Table} {x' : TxnExecutor}
    (done : TxnExecutor.lockWriteSet table x locked es = (table', x')) :
    Alone i beyondFrom beyondTo (s.put i table (Worker.nextLock ⟨x, req, pc⟩ locked es))
      (s.put i table' (if x'.status = .aborted then ⟨x'.abort, req, .idle⟩
        else ⟨x', req, .epochLoad⟩)) := by
  induction es generalizing table x locked pc with
  | nil =>
    obtain ⟨rfl, rfl⟩ := Prod.mk.inj done
    rw [if_neg inFlight]
    exact .refl
  | cons e rest ih =>
    rw [TxnExecutor.lockWriteSet] at done
    by_cases busy : (table e.key).tidword.lock = true
    · simp only [if_pos busy] at done
      obtain ⟨rfl, rfl⟩ := Prod.mk.inj done
      have load : (s.put i table ⟨x, req, .lockLoad locked e rest⟩).access i beyondFrom beyondTo =
          some (s.put i table (Worker.fail ⟨x, req, .lockLoad locked e rest⟩ locked)) := by
        simp [access, busy]
      rw [if_pos rfl]
      exact .head load (unlock_alone locked)
    · simp only [if_neg busy] at done
      have load : (s.put i table ⟨x, req, .lockLoad locked e rest⟩).access i beyondFrom beyondTo =
          some (s.put i table ⟨x, req, .lockCas locked e rest (table e.key).tidword⟩) := by
        simp [access, busy]
      have cas : (s.put i table ⟨x, req, .lockCas locked e rest (table e.key).tidword⟩).access i
          beyondFrom beyondTo = some (s.put i
            (storeTid table e.key { (table e.key).tidword with lock := true })
            (Worker.nextLock ⟨{ x with maxWset := .max x.maxWset (table e.key).tidword }, req,
              .lockCas locked e rest (table e.key).tidword⟩ (locked ++ [e]) rest)) := by
        simp [access]
      exact .head load (.head cas (ih (locked ++ [e]) inFlight done))

theorem validate_alone (rs : List ReadElement) {ok : Bool} {table' : Table} {x' : TxnExecutor}
    (done : TxnExecutor.validate table x rs = (ok, table', x')) :
    Alone i beyondFrom beyondTo (s.put i table (Worker.nextCheck ⟨x, req, pc⟩ rs))
      (s.put i table' (if ok then ⟨x', req, .commitTid⟩ else ⟨x'.abort, req, .idle⟩)) := by
  induction rs generalizing x pc with
  | nil =>
    obtain ⟨rfl, rest⟩ := Prod.mk.inj done
    obtain ⟨rfl, rfl⟩ := Prod.mk.inj rest
    exact .refl
  | cons r rest ih =>
    rw [TxnExecutor.validate] at done
    by_cases rejected : x.rejects r (table r.key).tidword = true
    · simp only [if_pos rejected] at done
      obtain ⟨rfl, rest'⟩ := Prod.mk.inj done
      obtain ⟨rfl, rfl⟩ := Prod.mk.inj rest'
      have check : (s.put i table ⟨x, req, .validate r rest⟩).access i beyondFrom beyondTo =
          some (s.put i table (Worker.fail ⟨x, req, .validate r rest⟩ x.writeSet)) := by
        simp [access, rejected]
      exact .head check (unlock_alone x.writeSet)
    · simp only [if_neg rejected] at done
      have check : (s.put i table ⟨x, req, .validate r rest⟩).access i beyondFrom beyondTo =
          some (s.put i table (Worker.nextCheck
            ⟨{ x with maxRset := .max x.maxRset (table r.key).tidword }, req, .validate r rest⟩
            rest)) := by
        simp [access, rejected]
      exact .head check (ih done)

theorem write_alone (maxtid : Tidword) (es : List WriteElement) :
    Alone i beyondFrom beyondTo (s.put i table (Worker.nextWrite ⟨x, req, pc⟩ maxtid es))
      (s.put i (TxnExecutor.writeBack i maxtid table es)
        ⟨{ x with readSet := [], writeSet := [] }, req, .idle⟩) := by
  induction es generalizing table pc with
  | nil => exact .refl
  | cons e rest ih =>
    let copied : Table := storeVal table e.key (e.copyTo i (table e.key).val)
    have copy : (s.put i table ⟨x, req, .writeCopy e rest maxtid⟩).access i beyondFrom beyondTo =
        some (s.put i copied ⟨x, req, .writeStore e rest maxtid⟩) := by
      simp [access, copied]
    have store : (s.put i copied ⟨x, req, .writeStore e rest maxtid⟩).access i beyondFrom beyondTo =
        some (s.put i (storeTid copied e.key maxtid)
          (Worker.nextWrite ⟨x, req, .writeStore e rest maxtid⟩ maxtid rest)) := by
      simp [access]
    exact .head copy (.head store ih)

theorem writePhase_alone :
    Alone i beyondFrom beyondTo (s.put i table ⟨x, req, .commitTid⟩)
      (s.put i (x.writePhase i (s.thLocalEpoch i) table).1
        ⟨(x.writePhase i (s.thLocalEpoch i) table).2, req, .idle⟩) := by
  have choose : (s.put i table ⟨x, req, .commitTid⟩).access i beyondFrom beyondTo =
      some (s.put i table (Worker.nextWrite
        ⟨{ x with mrctid := x.commitTid (s.thLocalEpoch i) }, req, .commitTid⟩
        (x.commitTid (s.thLocalEpoch i)) x.writeSet)) := by
    simp [access]
    rfl
  exact .head choose (write_alone _ x.writeSet)

theorem epoch_alone :
    Alone i beyondFrom beyondTo (s.put i table ⟨x, req, .epochLoad⟩)
      ({ s with thLocalEpoch := Function.update s.thLocalEpoch i s.globalEpoch }.put i table
        (Worker.nextCheck ⟨x, req, .epochStore s.globalEpoch⟩ x.readSet)) := by
  have load : (s.put i table ⟨x, req, .epochLoad⟩).access i beyondFrom beyondTo =
      some (s.put i table ⟨x, req, .epochStore s.globalEpoch⟩) := by
    simp [access]
    rfl
  refine .head load (.single ?_)
  simp [access, put, go]

theorem validationPhase_alone (inFlight : x.status ≠ .aborted) {ok : Bool} {table' : Table}
    {x' : TxnExecutor} (done : x.validationPhase table = (ok, table', x')) :
    ∃ epochs, (ok = true → epochs i = s.globalEpoch) ∧
      Alone i beyondFrom beyondTo
        (s.put i table (Worker.nextLock ⟨{ x with writeSet := sortWriteSet x.writeSet }, req, pc⟩ []
          (sortWriteSet x.writeSet)))
        ({ s with thLocalEpoch := epochs }.put i table'
          (if ok then ⟨x', req, .commitTid⟩ else ⟨x'.abort, req, .idle⟩)) := by
  rw [TxnExecutor.validationPhase] at done
  rcases locks : TxnExecutor.lockWriteSet table { x with writeSet := sortWriteSet x.writeSet } []
    (sortWriteSet x.writeSet) with ⟨table₁, x₁⟩
  have locking : Alone i beyondFrom beyondTo
      (s.put i table (Worker.nextLock ⟨{ x with writeSet := sortWriteSet x.writeSet }, req, pc⟩ []
        (sortWriteSet x.writeSet))) _ :=
    lock_alone [] (sortWriteSet x.writeSet) (by exact inFlight) locks
  simp only [locks] at done
  by_cases failed : x₁.status = .aborted
  · rw [if_pos failed] at done locking
    obtain ⟨rfl, rest⟩ := Prod.mk.inj done
    obtain ⟨rfl, rfl⟩ := Prod.mk.inj rest
    exact ⟨s.thLocalEpoch, by simp, locking⟩
  · rw [if_neg failed] at done locking
    refine ⟨Function.update s.thLocalEpoch i s.globalEpoch, by simp, ?_⟩
    exact (locking.trans epoch_alone).trans (validate_alone x₁.readSet done)

/-- Called on an idle worker and left alone, `transferWork` takes the accesses that lead to the end of
its `validationPhase`. -/
theorem validated_alone {ok : Bool} {table' : Table} {x' : TxnExecutor}
    (idle : (s.worker i).pc = .idle) (apart : req.fromKey ≠ req.toKey)
    (empty : (s.worker i).x.readSet = [] ∧ (s.worker i).x.writeSet = [])
    (done : validated beyondFrom beyondTo s.table (s.worker i).x (sorted req) =
      some (ok, table', x')) :
    ∃ t epochs, s.call i req = some t ∧ (ok = true → epochs i = s.globalEpoch) ∧
      Alone i beyondFrom beyondTo t ({ s with thLocalEpoch := epochs }.put i table'
        (if ok then ⟨x', sorted req, .commitTid⟩ else ⟨x'.abort, sorted req, .idle⟩)) := by
  obtain ⟨noReads, noWrites⟩ := empty
  simp only [validated, Option.bind_eq_bind, Option.bind_eq_some_iff, Option.some.injEq] at done
  obtain ⟨x₁, read₁, x₂, read₂, x₃, made, phase⟩ := done
  have ne : keyOf (sorted req).fromKey ≠ keyOf (sorted req).toKey :=
    fun same => sorted_ne apart (keyOf_injective same)
  have fresh : ∀ key, (s.worker i).x.begin.searchReadSet key = false ∧
      (s.worker i).x.begin.searchWriteSet key = false := by
    simp [TxnExecutor.searchReadSet, TxnExecutor.searchWriteSet, TxnExecutor.begin, noReads,
      noWrites]
  obtain ⟨unread, unwritten⟩ := fresh (keyOf (sorted req).fromKey)
  obtain ⟨-, first⟩ := read_some unread unwritten read₁
  have unread' : x₁.searchReadSet (keyOf (sorted req).toKey) = false := by
    rw [first]
    simpa [TxnExecutor.searchReadSet, ne] using (fresh (keyOf (sorted req).toKey)).1
  have unwritten' : x₁.searchWriteSet (keyOf (sorted req).toKey) = false := by
    rw [first]
    exact (fresh (keyOf (sorted req).toKey)).2
  obtain ⟨-, second⟩ := read_some unread' unwritten' read₂
  have inFlight : x₃.status ≠ .aborted := by
    rw [(transfer_frame made).1, second, first]
    simp [TxnExecutor.begin]
  have call : s.call i req = some (s.put i s.table ⟨(s.worker i).x.begin, sorted req,
      .readLoad (keyOf (sorted req).fromKey) [keyOf (sorted req).toKey]⟩) := by
    simp [call, idle, apart, Worker.nextRead, unread, unwritten, put]
  have onward : ∀ pc, Worker.nextRead ⟨x₁, sorted req, pc⟩ beyondFrom beyondTo
      [keyOf (sorted req).toKey] =
      some ⟨x₁, sorted req, .readLoad (keyOf (sorted req).toKey) []⟩ := by
    intro pc
    simp [Worker.nextRead, unread', unwritten']
  have locks : ∀ pc, Worker.nextRead ⟨x₂, sorted req, pc⟩ beyondFrom beyondTo [] =
      some (Worker.nextLock ⟨{ x₃ with writeSet := sortWriteSet x₃.writeSet }, sorted req, pc⟩ []
        (sortWriteSet x₃.writeSet)) := by
    intro pc
    simp [Worker.nextRead, made]
  have reads := (read_alone (s := s) (i := i) unread unwritten read₁ (onward _)).trans
    (read_alone unread' unwritten' read₂ (locks _))
  obtain ⟨epochs, epoch, validation⟩ := validationPhase_alone (s := s) (i := i) inFlight phase
  exact ⟨_, epochs, call, epoch, reads.trans validation⟩

/-- Called on an idle worker and left alone, `transferWork` takes the accesses that lead to its
outcome. -/
theorem transferWork_alone {out : Outcome} (idle : (s.worker i).pc = .idle)
    (empty : (s.worker i).x.readSet = [] ∧ (s.worker i).x.writeSet = [])
    (done : transferWork i s.globalEpoch beyondFrom beyondTo s.table (s.worker i).x req =
      some out) :
    ∃ t epochs, s.call i req = some t ∧ Alone i beyondFrom beyondTo t
      ({ s with thLocalEpoch := epochs }.put i out.table ⟨out.executor, sorted req, .idle⟩) := by
  by_cases same : req.fromKey = req.toKey
  · simp [transferWork, same] at done
  rw [transferWork_validated same, Option.map_eq_some_iff] at done
  obtain ⟨⟨ok, table', x'⟩, phase, rfl⟩ := done
  obtain ⟨t, epochs, call, epoch, reached⟩ := validated_alone idle same empty phase
  refine ⟨t, epochs, call, reached.trans ?_⟩
  cases ok with
  | false => exact .refl
  | true =>
    rw [← epoch rfl]
    exact writePhase_alone

end Raft2pl.Silo.Process
