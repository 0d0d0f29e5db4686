/- What a worker knows at each point of transferWork, and that the steps of others keep it. -/

import Raft2pl.Silo.Workers
import Raft2pl.Lib.Snapshot
import Mathlib.Data.Multiset.Basic

set_option autoImplicit false
set_option relaxedAutoImplicit false

namespace Raft2pl.Silo

open Lib (Cell)

namespace Worker

variable (w : Worker)

def holds : List WriteElement :=
  match w.pc with
  | .lockLoad locked _ _ | .lockCas locked _ _ _ => locked
  | .unlockLoad e rest | .unlockStore e rest _ => e :: rest
  | .epochLoad | .epochStore _ | .validate _ _ | .commitTid => w.x.writeSet
  | .writeCopy e rest _ | .writeStore e rest _ => e :: rest
  | .idle | .readLoad _ _ | .readCopy _ _ _ | .readCheck _ _ _ _ => []

def own : Multiset (BitVec 64) := (w.holds.map WriteElement.key : List (BitVec 64))

def dirtyKey : Option (BitVec 64) :=
  match w.pc with
  | .writeStore e _ _ => some e.key
  | _ => none

def Reading (keys : List (BitVec 64)) : Prop :=
  w.x.writeSet = [] ∧ w.x.readSet.map ReadElement.key ++ keys =
    [keyOf w.req.fromKey, keyOf w.req.toKey] ∧ w.req.fromKey ≠ w.req.toKey

def Locking : Prop :=
  (w.x.writeSet.map WriteElement.key).Perm (w.x.readSet.map ReadElement.key)

def UpTo (table : Table) (n : Nat) (es : List WriteElement) : Prop :=
  ∀ e ∈ es, (table e.key).tidword.ver ≤ n

def Unchanged (table : Table) (rs : List ReadElement) : Prop :=
  ∀ r ∈ rs, (table r.key).tidword.ver = r.tidword.ver

def UnchangedIn (table : Table) (es : List WriteElement) : Prop :=
  ∀ r ∈ w.x.readSet, r.key ∈ es.map WriteElement.key →
    (table r.key).tidword.ver = r.tidword.ver

def Knows (table : Table) (cell : BitVec 64 → Cell Nat Val) : Prop :=
  match w.pc with
  | .idle => w.x.readSet = [] ∧ w.x.writeSet = []
  | .readLoad key rest => w.Reading (key :: rest)
  | .readCopy key rest expected =>
      w.Reading (key :: rest) ∧ expected.lock = false ∧ expected.ver ≤ (cell key).ver
  | .readCheck key rest expected val =>
      w.Reading (key :: rest) ∧ expected.lock = false ∧ (cell key).Snapshot expected.ver val
  | .lockLoad locked e rest =>
      w.Locking ∧ locked ++ e :: rest = w.x.writeSet ∧ UpTo table w.x.maxWset.ver locked
  | .lockCas locked e rest expected =>
      w.Locking ∧ locked ++ e :: rest = w.x.writeSet ∧ UpTo table w.x.maxWset.ver locked ∧
        expected.lock = false
  | .unlockLoad _ _ => True
  | .unlockStore e _ desired => desired = { (table e.key).tidword with lock := false }
  | .epochLoad | .epochStore _ => w.Locking ∧ UpTo table w.x.maxWset.ver w.x.writeSet
  | .validate r rest =>
      w.Locking ∧ UpTo table w.x.maxWset.ver w.x.writeSet ∧
        ∃ passed, passed ++ r :: rest = w.x.readSet ∧ Unchanged table passed
  | .commitTid =>
      w.Locking ∧ UpTo table w.x.maxWset.ver w.x.writeSet ∧ Unchanged table w.x.readSet
  | .writeCopy e rest maxtid | .writeStore e rest maxtid =>
      w.Locking ∧ maxtid.lock = false ∧ (∀ d ∈ e :: rest, (table d.key).tidword.ver < maxtid.ver) ∧
        w.UnchangedIn table (e :: rest)

/-- A worker whose records are snapshots, at a point that it has reached rightly. -/
structure Good (table : Table) (cell : BitVec 64 → Cell Nat Val) : Prop where
  records : ∀ r ∈ w.x.readSet, (cell r.key).Snapshot r.tidword.ver r.val
  knows : w.Knows table cell

end Worker

section Frame

variable {table table' : Table} {cell cell' : BitVec 64 → Cell Nat Val} {w : Worker}

theorem mem_own {e : WriteElement} (member : e ∈ w.holds) : e.key ∈ w.own :=
  Multiset.mem_coe.mpr (List.mem_map_of_mem member)

theorem Worker.Locking.written (locking : w.Locking) {r : ReadElement}
    (member : r ∈ w.x.readSet) : ∃ e ∈ w.x.writeSet, e.key = r.key :=
  List.mem_map.mp (List.Perm.mem_iff locking |>.mpr (List.mem_map_of_mem member))

theorem Worker.Locking.congr {w' : Worker} (locking : w.Locking)
    (writes : w'.x.writeSet = w.x.writeSet) (reads : w'.x.readSet = w.x.readSet) : w'.Locking := by
  rw [Worker.Locking, writes, reads]
  exact locking

theorem Worker.UpTo.frame {n : Nat} {es : List WriteElement} (upTo : Worker.UpTo table n es)
    (same : ∀ e ∈ es, table' e.key = table e.key) : Worker.UpTo table' n es := by
  intro e member
  rw [same e member]
  exact upTo e member

theorem Worker.Unchanged.frame {rs : List ReadElement} (unchanged : Worker.Unchanged table rs)
    (same : ∀ r ∈ rs, table' r.key = table r.key) : Worker.Unchanged table' rs := by
  intro r member
  rw [same r member]
  exact unchanged r member

theorem Worker.UnchangedIn.frame {es : List WriteElement} (unchanged : w.UnchangedIn table es)
    (same : ∀ e ∈ es, table' e.key = table e.key) : w.UnchangedIn table' es := by
  intro r member inside
  obtain ⟨e, entry, key⟩ := List.mem_map.mp inside
  rw [← key, same e entry, key]
  exact unchanged r member inside

/-- What a worker knows survives the steps of others: versions grow, and nobody touches the tuples
that it has locked. -/
theorem Worker.Good.frame (good : w.Good table cell)
    (moved : ∀ k, (cell k).Advances (cell' k)) (kept : ∀ k ∈ w.own, table' k = table k) :
    w.Good table' cell' := by
  refine ⟨fun r member => (good.records r member).advance (moved r.key), ?_⟩
  have knows := good.knows
  have same : ∀ e ∈ w.holds, table' e.key = table e.key := fun e member => kept _ (mem_own member)
  unfold Worker.Knows at knows ⊢
  unfold Worker.holds at same
  cases here : w.pc with
  | unlockLoad => trivial
  | idle | readLoad =>
    simp only [here] at knows ⊢
    exact knows
  | readCopy key rest expected =>
    simp only [here] at knows ⊢
    exact ⟨knows.1, knows.2.1, le_trans knows.2.2 (moved key).1⟩
  | readCheck key rest expected val =>
    simp only [here] at knows ⊢
    exact ⟨knows.1, knows.2.1, knows.2.2.advance (moved key)⟩
  | lockLoad locked e rest =>
    simp only [here] at knows same ⊢
    obtain ⟨locking, split, upTo⟩ := knows
    exact ⟨locking, split, upTo.frame same⟩
  | lockCas locked e rest expected =>
    simp only [here] at knows same ⊢
    obtain ⟨locking, split, upTo, free⟩ := knows
    exact ⟨locking, split, upTo.frame same, free⟩
  | unlockStore e rest desired =>
    simp only [here] at knows same ⊢
    rw [same e List.mem_cons_self]
    exact knows
  | epochLoad | epochStore =>
    simp only [here] at knows same ⊢
    exact ⟨knows.1, knows.2.frame same⟩
  | validate r rest =>
    simp only [here] at knows same ⊢
    obtain ⟨locking, upTo, passed, split, unchanged⟩ := knows
    refine ⟨locking, upTo.frame same, passed, split, unchanged.frame (fun q member => ?_)⟩
    obtain ⟨e, entry, key⟩ := locking.written (r := q) (split ▸ List.mem_append_left _ member)
    rw [← key, same e entry]
  | commitTid =>
    simp only [here] at knows same ⊢
    obtain ⟨locking, upTo, unchanged⟩ := knows
    refine ⟨locking, upTo.frame same, unchanged.frame (fun q member => ?_)⟩
    obtain ⟨e, entry, key⟩ := locking.written member
    rw [← key, same e entry]
  | writeCopy e rest maxtid | writeStore e rest maxtid =>
    simp only [here] at knows same ⊢
    obtain ⟨locking, free, newer, unchanged⟩ := knows
    refine ⟨locking, free, fun d member => ?_, unchanged.frame same⟩
    rw [same d member]
    exact newer d member

end Frame

section Control

variable (table : Table) (cell : BitVec 64 → Cell Nat Val) {w w' : Worker}

def Recorded (rs : List ReadElement) : Prop :=
  ∀ r ∈ rs, (cell r.key).Snapshot r.tidword.ver r.val

theorem nextUnlock_good (records : Recorded cell w.x.readSet) (es : List WriteElement) :
    (w.nextUnlock es).Good table cell ∧ (w.nextUnlock es).holds = es ∧
      (w.nextUnlock es).dirtyKey = none := by
  cases es with
  | nil => exact ⟨⟨by simp [Worker.nextUnlock, TxnExecutor.abort], ⟨rfl, rfl⟩⟩, rfl, rfl⟩
  | cons e rest => exact ⟨⟨records, trivial⟩, rfl, rfl⟩

theorem fail_good (records : Recorded cell w.x.readSet) (es : List WriteElement) :
    (w.fail es).Good table cell ∧ (w.fail es).holds = es ∧ (w.fail es).dirtyKey = none :=
  nextUnlock_good table cell (w := { w with x := { w.x with status := .aborted } }) records es

private theorem nextLock_good (records : Recorded cell w.x.readSet) (locking : w.Locking)
    {locked rest : List WriteElement} (split : locked ++ rest = w.x.writeSet)
    (upTo : Worker.UpTo table w.x.maxWset.ver locked) :
    (w.nextLock locked rest).Good table cell ∧ (w.nextLock locked rest).holds = locked ∧
      (w.nextLock locked rest).dirtyKey = none := by
  cases rest with
  | nil =>
    rw [List.append_nil] at split
    refine ⟨⟨records, ⟨locking, ?_⟩⟩, split.symm, rfl⟩
    change Worker.UpTo table w.x.maxWset.ver w.x.writeSet
    rw [← split]
    exact upTo
  | cons e rest => exact ⟨⟨records, ⟨locking, split, upTo⟩⟩, rfl, rfl⟩

theorem nextLock_locked (records : Recorded cell w.x.readSet) (locking : w.Locking)
    {before : Table} {locked rest : List WriteElement} {e : WriteElement} {m : Tidword}
    (split : locked ++ e :: rest = w.x.writeSet) (upTo : Worker.UpTo before w.x.maxWset.ver locked)
    (version : ∀ k, (table k).tidword.ver = (before k).tidword.ver)
    (left : w.x.maxWset.ver ≤ m.ver) (right : (before e.key).tidword.ver ≤ m.ver) :
    ({ w with x := { w.x with maxWset := m } }.nextLock (locked ++ [e]) rest).Good table cell ∧
      ({ w with x := { w.x with maxWset := m } }.nextLock (locked ++ [e]) rest).holds =
        locked ++ [e] := by
  have upTo' : Worker.UpTo table m.ver (locked ++ [e]) := by
    intro d member
    rw [version]
    rcases List.mem_append.mp member with old | new
    · exact le_trans (upTo d old) left
    · obtain rfl : d = e := List.mem_singleton.mp new
      exact right
  have split' : locked ++ [e] ++ rest = w.x.writeSet := by simpa using split
  obtain ⟨good, holds, -⟩ := nextLock_good table cell (w := { w with x := { w.x with maxWset := m } })
    records locking split' upTo'
  exact ⟨good, holds⟩

theorem nextCheck_good (records : Recorded cell w.x.readSet) (locking : w.Locking)
    (upTo : Worker.UpTo table w.x.maxWset.ver w.x.writeSet) {passed rest : List ReadElement}
    (split : passed ++ rest = w.x.readSet) (unchanged : Worker.Unchanged table passed) :
    (w.nextCheck rest).Good table cell ∧ (w.nextCheck rest).holds = w.x.writeSet ∧
      (w.nextCheck rest).dirtyKey = none := by
  cases rest with
  | nil =>
    rw [List.append_nil] at split
    refine ⟨⟨records, ⟨locking, upTo, ?_⟩⟩, rfl, rfl⟩
    change Worker.Unchanged table w.x.readSet
    rw [← split]
    exact unchanged
  | cons r rest => exact ⟨⟨records, ⟨locking, upTo, passed, split, unchanged⟩⟩, rfl, rfl⟩

theorem nextCheck_passed (records : Recorded cell w.x.readSet) (locking : w.Locking)
    (upTo : Worker.UpTo table w.x.maxWset.ver w.x.writeSet) {passed rest : List ReadElement}
    {r : ReadElement} {m : Tidword} (split : passed ++ r :: rest = w.x.readSet)
    (unchanged : Worker.Unchanged table passed) (same : (table r.key).tidword.ver = r.tidword.ver) :
    ({ w with x := { w.x with maxRset := m } }.nextCheck rest).Good table cell ∧
      ({ w with x := { w.x with maxRset := m } }.nextCheck rest).holds = w.x.writeSet ∧
      ({ w with x := { w.x with maxRset := m } }.nextCheck rest).dirtyKey = none := by
  have split' : passed ++ [r] ++ rest = w.x.readSet := by simpa using split
  refine nextCheck_good table cell (w := { w with x := { w.x with maxRset := m } }) records locking
    upTo split' ?_
  intro q member
  rcases List.mem_append.mp member with old | new
  · exact unchanged q old
  · obtain rfl : q = r := List.mem_singleton.mp new
    exact same

theorem nextWrite_good (records : Recorded cell w.x.readSet) (locking : w.Locking)
    {maxtid : Tidword} (free : maxtid.lock = false) {es : List WriteElement}
    (newer : ∀ e ∈ es, (table e.key).tidword.ver < maxtid.ver) (unchanged : w.UnchangedIn table es) :
    (w.nextWrite maxtid es).Good table cell ∧ (w.nextWrite maxtid es).holds = es ∧
      (w.nextWrite maxtid es).dirtyKey = none := by
  cases es with
  | nil => exact ⟨⟨by simp [Worker.nextWrite], ⟨rfl, rfl⟩⟩, rfl, rfl⟩
  | cons e rest => exact ⟨⟨records, ⟨locking, free, newer, unchanged⟩⟩, rfl, rfl⟩

theorem transfer_locking {beyondFrom beyondTo : List Byte} {x : TxnExecutor}
    (reading : w.Reading []) (made : w.x.transfer w.req beyondFrom beyondTo = some x) :
    x.readSet = w.x.readSet ∧
      x.writeSet.map WriteElement.key = x.readSet.map ReadElement.key := by
  obtain ⟨empty, keys, apart⟩ := reading
  have ne : keyOf w.req.fromKey ≠ keyOf w.req.toKey := fun same => apart (keyOf_injective same)
  simp only [TxnExecutor.transfer, Option.bind_eq_bind, Option.bind_eq_some_iff,
    Option.some.injEq] at made
  obtain ⟨rFrom, -, rTo, -, rfl⟩ := made
  rw [List.append_nil] at keys
  simp [TxnExecutor.write, TxnExecutor.searchWriteSet, empty, ne, keys]

theorem nextRead_good {beyondFrom beyondTo : List Byte} {keys : List (BitVec 64)}
    (records : Recorded cell w.x.readSet) (reading : w.Reading keys)
    (next : w.nextRead beyondFrom beyondTo keys = some w') :
    w'.Good table cell ∧ w'.holds = [] ∧ w'.dirtyKey = none := by
  cases keys with
  | nil =>
    simp only [Worker.nextRead, Option.bind_eq_bind, Option.bind_eq_some_iff,
      Option.some.injEq] at next
    obtain ⟨x, made, rfl⟩ := next
    obtain ⟨same, keys⟩ := transfer_locking reading made
    have perm : (sortWriteSet x.writeSet).Perm x.writeSet := List.perm_insertionSort _ _
    let y : TxnExecutor := { x with writeSet := sortWriteSet x.writeSet }
    have locking : Worker.Locking { w with x := y } := by
      show ((sortWriteSet x.writeSet).map WriteElement.key).Perm (x.readSet.map ReadElement.key)
      rw [← keys]
      exact perm.map _
    refine nextLock_good table cell (w := { w with x := y }) ?_ locking (List.nil_append _) ?_
    · show Recorded cell x.readSet
      rw [same]
      exact records
    · intro e member
      simp at member
  | cons key rest =>
    obtain ⟨empty, keys, apart⟩ := reading
    -- the key was not read before, since the two keys differ
    have unread : w.x.searchReadSet key = false := by
      have distinct : (w.x.readSet.map ReadElement.key ++ key :: rest).Nodup := by
        rw [keys]
        simpa using fun same => apart (keyOf_injective same)
      have fresh := (List.nodup_append.mp distinct).2.2
      rw [TxnExecutor.searchReadSet, List.any_eq_false]
      intro r member same
      exact fresh r.key (List.mem_map_of_mem member) key List.mem_cons_self (of_decide_eq_true same)
    simp only [Worker.nextRead, unread, TxnExecutor.searchWriteSet, empty, List.any_nil,
      Bool.or_self, Bool.false_eq_true, if_false, Option.some.injEq] at next
    subst next
    exact ⟨⟨records, ⟨empty, keys, apart⟩⟩, rfl, rfl⟩

end Control

end Raft2pl.Silo
