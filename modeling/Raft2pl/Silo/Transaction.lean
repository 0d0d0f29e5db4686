/- transaction.cc of the SILO build: TxnExecutor, as it runs while nobody else does. -/

import Raft2pl.Silo.Tuple
import Mathlib.Data.List.Sort

set_option autoImplicit false
set_option relaxedAutoImplicit false

namespace Raft2pl.Silo

open Lib (cString strlen copyOver)

/-- `TransactionStatus`. -/
inductive TransactionStatus
  | inFlight | committed | aborted
  deriving DecidableEq

/-- `TxnExecutor`, without the thread's number and the constant `write_val_`. -/
structure TxnExecutor where
  readSet : List ReadElement
  writeSet : List WriteElement
  status : TransactionStatus
  mrctid : Tidword
  maxRset : Tidword
  maxWset : Tidword
  deriving DecidableEq

section Memory

variable (table : Table)

/-- `tidword_.store`. -/
def storeTid (k : BitVec 64) (t : Tidword) : Table :=
  Function.update table k { table k with tidword := t }

/-- A `memcpy` to the `val_` of a tuple. -/
def storeVal (k : BitVec 64) (v : Val) : Table :=
  Function.update table k { table k with val := v }

@[simp] theorem storeTid_val (k q : BitVec 64) (t : Tidword) :
    (storeTid table k t q).val = (table q).val := by
  by_cases eq : q = k
  · subst eq
    simp [storeTid]
  · simp [storeTid, eq]

@[simp] theorem storeVal_tidword (k q : BitVec 64) (v : Val) :
    (storeVal table k v q).tidword = (table q).tidword := by
  by_cases eq : q = k
  · subst eq
    simp [storeVal]
  · simp [storeVal, eq]

@[simp] theorem storeTid_self (k : BitVec 64) (t : Tidword) :
    (storeTid table k t k).tidword = t := by
  simp [storeTid]

@[simp] theorem storeVal_self (k : BitVec 64) (v : Val) : (storeVal table k v k).val = v := by
  simp [storeVal]

variable {table}

theorem storeTid_of_ne {k q : BitVec 64} (apart : q ≠ k) (t : Tidword) :
    storeTid table k t q = table q :=
  Function.update_of_ne apart _ _

theorem storeVal_of_ne {k q : BitVec 64} (apart : q ≠ k) (v : Val) :
    storeVal table k v q = table q :=
  Function.update_of_ne apart _ _

end Memory

/-- The keys in locking order and the amount that goes with that order: what `transferWork` makes
of its request before it reads. -/
def sorted (req : ClientRequest) : ClientRequest :=
  if req.toKey.slt req.fromKey then
    { req with fromKey := req.toKey, toKey := req.fromKey, diff := -req.diff }
  else req

/-- `sort(write_set_.begin(), write_set_.end())`. -/
def sortWriteSet (es : List WriteElement) : List WriteElement :=
  es.insertionSort (fun a b => a.key.toNat ≤ b.key.toNat)

theorem mem_sortWriteSet_keys {es : List WriteElement} {k : BitVec 64} :
    k ∈ (sortWriteSet es).map WriteElement.key ↔ k ∈ es.map WriteElement.key := by
  have perm : (sortWriteSet es).Perm es := List.perm_insertionSort _ es
  exact (perm.map WriteElement.key).mem_iff

/-- `unlockWriteSet`, on a part of the write set. -/
def unlockWriteSet (table : Table) : List WriteElement → Table
  | [] => table
  | e :: rest =>
      unlockWriteSet (storeTid table e.key { (table e.key).tidword with lock := false }) rest

namespace TxnExecutor

/-- `TxnExecutor::TxnExecutor`. -/
def new : TxnExecutor := ⟨[], [], .inFlight, .zero, .zero, .zero⟩

variable (x : TxnExecutor)

/-- `abort`. -/
def abort : TxnExecutor := { x with readSet := [], writeSet := [] }

/-- `begin`. -/
def begin : TxnExecutor := { x with status := .inFlight, maxRset := .zero, maxWset := .zero }

/-- `searchReadSet(key) != nullptr`. -/
def searchReadSet (key : BitVec 64) : Bool := x.readSet.any (fun r => r.key = key)

/-- `searchWriteSet(key) != nullptr`. -/
def searchWriteSet (key : BitVec 64) : Bool := x.writeSet.any (fun e => e.key = key)

/-- `read`. On a locked tuple it spins, and while nobody unlocks the tuple it does not return. -/
def read (table : Table) (key : BitVec 64) : Option TxnExecutor :=
  if x.searchReadSet key || x.searchWriteSet key then some x
  else if (table key).tidword.lock then none
  else some { x with readSet := x.readSet ++ [⟨key, (table key).val, (table key).tidword⟩] }

/-- `write`. -/
def write (key : BitVec 64) (val : List Byte) : TxnExecutor :=
  if x.searchWriteSet key then x else { x with writeSet := x.writeSet ++ [⟨key, val⟩] }

/-- The part of `transferWork` from its two reads to its two writes. `from.val` and `to.val` are
arrays, passed as strings; `beyondFrom` and `beyondTo` is what lies behind them in memory. -/
def transfer (req : ClientRequest) (beyondFrom beyondTo : List Byte) : Option TxnExecutor := do
  let rFrom ← x.readSet[0]?
  let rTo ← x.readSet[1]?
  let fromVal := bytes (amount rFrom.val - req.diff)
  let toVal := bytes (amount rTo.val + req.diff)
  let x := x.write (keyOf req.fromKey) (cString fromVal beyondFrom)
  some (x.write (keyOf req.toKey) (cString toVal beyondTo))

/-- The loop of `lockWriteSet`: `locked` are the elements before the iterator. -/
def lockWriteSet (table : Table) (x : TxnExecutor) (locked : List WriteElement) :
    List WriteElement → Table × TxnExecutor
  | [] => (table, x)
  | e :: rest =>
      let expected := (table e.key).tidword
      if expected.lock then (unlockWriteSet table locked, { x with status := .aborted })
      else lockWriteSet (storeTid table e.key { expected with lock := true })
        { x with maxWset := .max x.maxWset expected } (locked ++ [e]) rest

/-- The test of `validationPhase` on a tuple that was read, with the word found there now. -/
def rejects (r : ReadElement) (check : Tidword) : Bool :=
  r.tidword.epoch != check.epoch || r.tidword.tid != check.tid ||
    (check.lock && !x.searchWriteSet r.key)

/-- The loop of `validationPhase` over the read set. -/
def validate (table : Table) (x : TxnExecutor) : List ReadElement → Bool × Table × TxnExecutor
  | [] => (true, table, { x with status := .committed })
  | r :: rest =>
      let check := (table r.key).tidword
      if x.rejects r check then
        (false, unlockWriteSet table x.writeSet, { x with status := .aborted })
      else validate table { x with maxRset := .max x.maxRset check } rest

/-- `validationPhase`. -/
def validationPhase (table : Table) (x : TxnExecutor) : Bool × Table × TxnExecutor :=
  let x := { x with writeSet := sortWriteSet x.writeSet }
  let (table, x) := lockWriteSet table x [] x.writeSet
  if x.status = .aborted then (false, table, x) else validate table x x.readSet

/-- The tid that `writePhase` chooses, with the epoch that it loads from `ThLocalEpoch`. -/
def commitTid (epoch : BitVec 64) : Tidword :=
  let tidA := (Tidword.max x.maxWset x.maxRset).incTid
  let tidB := x.mrctid.incTid
  let tidC := { Tidword.zero with epoch := epoch.setWidth 32 }
  { Tidword.max (Tidword.max tidA tidB) tidC with lock := false, latest := true }

def roomy : Bool := (Tidword.max x.maxWset x.maxRset).roomy && x.mrctid.roomy

/-- The loop of `writePhase`. -/
def writeBack (thid : Nat) (maxtid : Tidword) (table : Table) : List WriteElement → Table
  | [] => table
  | e :: rest =>
      let table := storeVal table e.key (e.copyTo thid (table e.key).val)
      writeBack thid maxtid (storeTid table e.key maxtid) rest

/-- `writePhase`. -/
def writePhase (thid : Nat) (epoch : BitVec 64) (table : Table) : Table × TxnExecutor :=
  let maxtid := x.commitTid epoch
  (writeBack thid maxtid table x.writeSet, { x with mrctid := maxtid, readSet := [], writeSet := [] })

variable {x}

theorem searchWriteSet_iff {k : BitVec 64} :
    x.searchWriteSet k = true ↔ k ∈ x.writeSet.map WriteElement.key := by
  simp [searchWriteSet]

@[simp] theorem writePhase_table (thid : Nat) (epoch : BitVec 64) (table : Table) :
    (x.writePhase thid epoch table).1 = writeBack thid (x.commitTid epoch) table x.writeSet := rfl

@[simp] theorem writePhase_mrctid (thid : Nat) (epoch : BitVec 64) (table : Table) :
    (x.writePhase thid epoch table).2.mrctid = x.commitTid epoch := rfl

end TxnExecutor

/-- What a call of `transferWork` returns and leaves behind, and whether a `memcpy` of it went
beyond the `val_` of a tuple. -/
structure Outcome where
  ok : Bool
  overrun : Bool
  table : Table
  executor : TxnExecutor

/-- `transferWork`, alone on the table while `GlobalEpoch` is `epoch`; `none` where it does not
return. -/
def transferWork (thid : Nat) (epoch : BitVec 64) (beyondFrom beyondTo : List Byte) (table : Table)
    (x : TxnExecutor) (req : ClientRequest) : Option Outcome :=
  if req.fromKey = req.toKey then none
  else do
    let req := sorted req
    let x ← x.begin.read table (keyOf req.fromKey)
    let x ← x.read table (keyOf req.toKey)
    let x ← x.transfer req beyondFrom beyondTo
    match x.validationPhase table with
    | (true, table, x) =>
        let (table', x') := x.writePhase thid epoch table
        some ⟨true, x.writeSet.any WriteElement.overruns, table', x'⟩
    | (false, table, x) => some ⟨false, false, table, x.abort⟩

theorem transfer_frame {x x' : TxnExecutor} {req : ClientRequest} {beyondFrom beyondTo : List Byte}
    (made : x.transfer req beyondFrom beyondTo = some x') :
    x'.status = x.status ∧ x'.mrctid = x.mrctid := by
  have kept : ∀ (y : TxnExecutor) (key : BitVec 64) (val : List Byte),
      (y.write key val).status = y.status ∧ (y.write key val).mrctid = y.mrctid := by
    intro y key val
    unfold TxnExecutor.write
    split <;> exact ⟨rfl, rfl⟩
  simp only [TxnExecutor.transfer, Option.bind_eq_bind, Option.bind_eq_some_iff,
    Option.some.injEq] at made
  obtain ⟨rFrom, -, rTo, -, rfl⟩ := made
  constructor
  · rw [(kept _ _ _).1, (kept _ _ _).1]
  · rw [(kept _ _ _).2, (kept _ _ _).2]

section Loops

variable {table : Table} {x : TxnExecutor}

def Free (table : Table) (es : List WriteElement) : Prop :=
  (es.map WriteElement.key).Nodup ∧ ∀ e ∈ es, (table e.key).tidword.lock = false

def lockAll (table : Table) : List WriteElement → Table
  | [] => table
  | e :: rest =>
      lockAll (storeTid table e.key { (table e.key).tidword with lock := true }) rest

theorem lockAll_val (table : Table) (es : List WriteElement) (k : BitVec 64) :
    (lockAll table es k).val = (table k).val := by
  induction es generalizing table with
  | nil => rfl
  | cons e rest ih => rw [lockAll, ih, storeTid_val]

theorem lockAll_ver (table : Table) (es : List WriteElement) (k : BitVec 64) :
    (lockAll table es k).tidword.epoch = (table k).tidword.epoch ∧
      (lockAll table es k).tidword.tid = (table k).tidword.tid := by
  induction es generalizing table with
  | nil => exact ⟨rfl, rfl⟩
  | cons e rest ih =>
    obtain ⟨epoch, tid⟩ := ih (storeTid table e.key { (table e.key).tidword with lock := true })
    rw [lockAll, epoch, tid]
    by_cases eq : k = e.key
    · subst eq
      simp
    · rw [storeTid_of_ne eq]
      exact ⟨rfl, rfl⟩

theorem lockAll_lock {es : List WriteElement} {k : BitVec 64}
    (set : (lockAll table es k).tidword.lock = true) :
    (table k).tidword.lock = true ∨ k ∈ es.map WriteElement.key := by
  induction es generalizing table with
  | nil => exact .inl set
  | cons e rest ih =>
    rcases ih set with here | later
    · by_cases eq : k = e.key
      · exact .inr (by simp [eq])
      · rw [storeTid_of_ne eq] at here
        exact .inl here
    · exact .inr (List.mem_cons_of_mem _ later)

theorem lockWriteSet_free (locked : List WriteElement) {es : List WriteElement}
    (free : Free table es) :
    ∃ w, TxnExecutor.lockWriteSet table x locked es = (lockAll table es, { x with maxWset := w }) ∧
      ∀ n, w.ver ≤ n ↔ x.maxWset.ver ≤ n ∧ ∀ e ∈ es, (table e.key).tidword.ver ≤ n := by
  induction es generalizing table x locked with
  | nil => exact ⟨x.maxWset, rfl, by simp⟩
  | cons e rest ih =>
    obtain ⟨nodup, open'⟩ := free
    obtain ⟨first, distinct⟩ := List.nodup_cons.mp nodup
    have free' : Free (storeTid table e.key { (table e.key).tidword with lock := true }) rest := by
      refine ⟨distinct, fun f member => ?_⟩
      have apart : f.key ≠ e.key := fun same => first (same ▸ List.mem_map_of_mem member)
      rw [storeTid_of_ne apart]
      exact open' f (List.mem_cons_of_mem e member)
    obtain ⟨w, done, least⟩ := ih (x := { x with maxWset := .max x.maxWset (table e.key).tidword })
      (locked ++ [e]) free'
    refine ⟨w, ?_, fun n => ?_⟩
    · simp only [TxnExecutor.lockWriteSet, open' e List.mem_cons_self, Bool.false_eq_true, if_false]
      rw [done, lockAll]
    · have others : (∀ f ∈ rest, (storeTid table e.key
          { (table e.key).tidword with lock := true } f.key).tidword.ver ≤ n) ↔
          ∀ f ∈ rest, (table f.key).tidword.ver ≤ n := by
        refine forall₂_congr (fun f member => ?_)
        have apart : f.key ≠ e.key := fun same => first (same ▸ List.mem_map_of_mem member)
        rw [storeTid_of_ne apart]
      rw [least n, others, Tidword.ver_max, List.forall_mem_cons, ← and_assoc]
      exact and_congr_left' Nat.max_le

@[simp] theorem searchWriteSet_maxRset (m : Tidword) (k : BitVec 64) :
    TxnExecutor.searchWriteSet { x with maxRset := m } k = x.searchWriteSet k := by
  simp only [TxnExecutor.searchWriteSet]

/-- Tuples that are as they were read, and in the write set if locked, pass validation, and the
maximum of the read set takes in their versions. -/
theorem validate_accepts (rs : List ReadElement)
    (same : ∀ r ∈ rs, r.tidword.epoch = (table r.key).tidword.epoch ∧
      r.tidword.tid = (table r.key).tidword.tid)
    (own : ∀ r ∈ rs, (table r.key).tidword.lock = true → x.searchWriteSet r.key = true) :
    ∃ m, TxnExecutor.validate table x rs =
        (true, table, { x with status := .committed, maxRset := m }) ∧
      ∀ n, m.ver ≤ n ↔ x.maxRset.ver ≤ n ∧ ∀ r ∈ rs, (table r.key).tidword.ver ≤ n := by
  induction rs generalizing x with
  | nil => exact ⟨x.maxRset, rfl, by simp⟩
  | cons r rest ih =>
    obtain ⟨epoch, tid⟩ := same r List.mem_cons_self
    have accepted : x.rejects r (table r.key).tidword = false := by
      simpa [TxnExecutor.rejects, epoch, tid] using own r List.mem_cons_self
    obtain ⟨m, done, least⟩ := ih (x := { x with maxRset := .max x.maxRset (table r.key).tidword })
      (fun r' member => same r' (List.mem_cons_of_mem r member))
      (fun r' member => by simpa using own r' (List.mem_cons_of_mem r member))
    refine ⟨m, ?_, fun n => ?_⟩
    · simp only [TxnExecutor.validate, accepted, Bool.false_eq_true, if_false]
      rw [done]
    · rw [least n, Tidword.ver_max, List.forall_mem_cons, ← and_assoc]
      exact and_congr_left' Nat.max_le

theorem writeBack_tidword (thid : Nat) (maxtid : Tidword) {es : List WriteElement} {k : BitVec 64}
    (member : k ∈ es.map WriteElement.key) :
    (TxnExecutor.writeBack thid maxtid table es k).tidword = maxtid := by
  have done : ∀ (es : List WriteElement) (table : Table), (table k).tidword = maxtid →
      (TxnExecutor.writeBack thid maxtid table es k).tidword = maxtid := by
    intro es
    induction es with
    | nil => exact fun _ stored => stored
    | cons e rest ih =>
      intro table stored
      apply ih
      by_cases eq : k = e.key
      · rw [eq, storeTid_self]
      · rw [storeTid_of_ne eq, storeVal_of_ne eq]
        exact stored
  induction es generalizing table with
  | nil => simp at member
  | cons e rest ih =>
    rw [TxnExecutor.writeBack]
    rcases List.mem_cons.mp member with rfl | later
    · exact done rest _ (storeTid_self _ _ _)
    · exact ih later

theorem writeBack_of_absent (thid : Nat) (maxtid : Tidword) (es : List WriteElement) {k : BitVec 64}
    (absent : k ∉ es.map WriteElement.key) :
    TxnExecutor.writeBack thid maxtid table es k = table k := by
  induction es generalizing table with
  | nil => rfl
  | cons e rest ih =>
    obtain ⟨apart, absent'⟩ : k ≠ e.key ∧ k ∉ rest.map WriteElement.key := by
      simpa only [List.map_cons, List.mem_cons, not_or] using absent
    rw [TxnExecutor.writeBack, ih absent', storeTid_of_ne apart, storeVal_of_ne apart]

theorem writeBack_val (thid : Nat) (maxtid : Tidword) (es : List WriteElement)
    (distinct : (es.map WriteElement.key).Nodup) {e : WriteElement} (member : e ∈ es) :
    (TxnExecutor.writeBack thid maxtid table es e.key).val = e.copyTo thid (table e.key).val := by
  induction es generalizing table with
  | nil => simp at member
  | cons f rest ih =>
    obtain ⟨first, distinct'⟩ := List.nodup_cons.mp distinct
    rw [TxnExecutor.writeBack]
    rcases List.mem_cons.mp member with rfl | later
    · rw [writeBack_of_absent thid maxtid rest first]
      simp
    · have apart : e.key ≠ f.key := fun same => first (same ▸ List.mem_map_of_mem later)
      rw [ih distinct' later, storeTid_of_ne apart, storeVal_of_ne apart]

end Loops

end Raft2pl.Silo
