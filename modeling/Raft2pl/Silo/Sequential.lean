/- A transaction that nobody disturbs, as the sequence of its reads and writes: which of the values
reach the table. -/

import Raft2pl.Silo.Transfer
import Raft2pl.Lib.Run

set_option autoImplicit false
set_option relaxedAutoImplicit false

namespace Raft2pl.Silo

open Lib (Run Steps exec copyOver)

/-- What a transaction does between `begin` and `validationPhase`: a call of `read`, or one of
`write` with a string of `VAL_SIZE` bytes. -/
inductive Op
  | read (key : BitVec 64)
  | write (key : BitVec 64) (val : Val)
  deriving DecidableEq

namespace Op

def valueFor (k : BitVec 64) : Op → Option Val
  | read _ => none
  | write key val => if key = k then some val else none

/-- The values that a sequence of operations writes to a key, in their order. -/
def written (k : BitVec 64) (ops : List Op) : List Val := ops.filterMap (valueFor k)

@[simp] theorem written_read (k key : BitVec 64) (ops : List Op) :
    written k (ops ++ [read key]) = written k ops := by
  simp [written, List.filterMap_append, valueFor]

private theorem written_write (k key : BitVec 64) (val : Val) (ops : List Op) :
    written k (ops ++ [write key val]) =
      written k ops ++ if key = k then [val] else [] := by
  by_cases eq : key = k <;> simp [written, List.filterMap_append, valueFor, eq]

end Op

open Op (written written_read written_write)

namespace TxnExecutor

def perform (table : Table) (x : TxnExecutor) : Op → Option TxnExecutor
  | .read key => x.read table key
  | .write key val => some (x.write key (List.ofFn val))

/-- What the two sets hold after the operations `ops`: for each key that was written its first
value, and for each key in the read set the value of its tuple. -/
structure Collected (table : Table) (ops : List Op) (x : TxnExecutor) : Prop where
  distinct : (x.writeSet.map WriteElement.key).Nodup
  first : ∀ e ∈ x.writeSet, ∃ v, (written e.key ops).head? = some v ∧ e.val = List.ofFn v
  complete : ∀ k, written k ops ≠ [] → k ∈ x.writeSet.map WriteElement.key
  current : ∀ r ∈ x.readSet, r.val = (table r.key).val ∧ r.tidword = (table r.key).tidword
  status : x.status = .inFlight

variable {table table' : Table} {x x' : TxnExecutor} {ops : List Op}

private theorem collected_begin (noReads : x.readSet = []) (noWrites : x.writeSet = []) :
    Collected table [] x.begin where
  distinct := by simp [begin, noWrites]
  first := by simp [begin, noWrites]
  complete := by simp [written]
  current := by simp [begin, noReads]
  status := rfl

private theorem collected_read {key : BitVec 64} (before : Collected table ops x)
    (done : x.read table key = some x') : Collected table (ops ++ [.read key]) x' := by
  unfold read at done
  split at done
  · obtain rfl := Option.some.inj done
    exact ⟨before.distinct, by simpa using before.first, by simpa using before.complete,
      before.current, before.status⟩
  · split at done
    · cases done
    · obtain rfl := Option.some.inj done
      refine ⟨before.distinct, by simpa using before.first, by simpa using before.complete, ?_,
        before.status⟩
      intro r member
      rcases List.mem_append.mp member with old | new
      · exact before.current r old
      · obtain rfl := List.mem_singleton.mp new
        exact ⟨rfl, rfl⟩

private theorem collected_write {key : BitVec 64} {val : Val} (before : Collected table ops x) :
    Collected table (ops ++ [.write key val]) (x.write key (List.ofFn val)) := by
  -- what is in the write set already keeps its first value
  have kept : ∀ e ∈ x.writeSet, ∃ v,
      (written e.key (ops ++ [.write key val])).head? = some v ∧ e.val = List.ofFn v := by
    intro e member
    obtain ⟨v, head, bytes⟩ := before.first e member
    refine ⟨v, ?_, bytes⟩
    rw [written_write, List.head?_append, head]
    rfl
  cases found : x.searchWriteSet key with
  | true =>
    have skipped : x.write key (List.ofFn val) = x := by simp [write, found]
    rw [skipped]
    refine ⟨before.distinct, kept, fun k some => ?_, before.current, before.status⟩
    by_cases eq : key = k
    · exact eq ▸ searchWriteSet_iff.mp found
    · exact before.complete k (by simpa [written_write, eq] using some)
  | false =>
    have added : x.write key (List.ofFn val) =
        { x with writeSet := x.writeSet ++ [⟨key, List.ofFn val⟩] } := by simp [write, found]
    have absent : key ∉ x.writeSet.map WriteElement.key := fun member =>
      Bool.false_ne_true (found ▸ searchWriteSet_iff.mpr member)
    rw [added]
    refine ⟨?_, ?_, fun k some => ?_, before.current, before.status⟩
    · rw [List.map_append]
      refine List.nodup_append.mpr ⟨before.distinct, by simp, ?_⟩
      intro k member l single same
      obtain rfl := List.mem_singleton.mp single
      exact absent (same ▸ member)
    · intro e member
      rcases List.mem_append.mp member with old | new
      · exact kept e old
      · obtain rfl := List.mem_singleton.mp new
        have unwritten : written key ops = [] := by
          by_contra some
          exact absent (before.complete key some)
        refine ⟨val, ?_, rfl⟩
        simp [written_write, unwritten]
    · rw [List.map_append, List.mem_append]
      by_cases eq : key = k
      · exact .inr (by simp [eq])
      · exact .inl (before.complete k (by simpa [written_write, eq] using some))

private theorem collected_run {x₀ : TxnExecutor} (noReads : x₀.readSet = [])
    (noWrites : x₀.writeSet = [])
    (run : Run (Steps (perform table)) x₀.begin ops x) : Collected table ops x := by
  refine run.invariant (collected_begin noReads noWrites) ?_
  intro ops x op x' _ before taken
  cases op with
  | read key => exact collected_read before taken
  | write key val =>
    obtain rfl := Option.some.inj taken
    exact collected_write before

end TxnExecutor

section Phases

variable {table table' : Table} {x x' : TxnExecutor} {es : List WriteElement}

private theorem unlockWriteSet_val (k : BitVec 64) :
    (unlockWriteSet table es k).val = (table k).val := by
  induction es generalizing table with
  | nil => rfl
  | cons e rest ih => rw [unlockWriteSet, ih, storeTid_val]

private theorem lockWriteSet_frame {locked : List WriteElement}
    (done : TxnExecutor.lockWriteSet table x locked es = (table', x')) :
    (∀ k, (table' k).val = (table k).val) ∧ x'.readSet = x.readSet ∧ x'.writeSet = x.writeSet := by
  induction es generalizing table x locked with
  | nil =>
    obtain ⟨rfl, rfl⟩ := Prod.mk.inj done
    exact ⟨fun _ => rfl, rfl, rfl⟩
  | cons e rest ih =>
    simp only [TxnExecutor.lockWriteSet] at done
    split at done
    · obtain ⟨rfl, rfl⟩ := Prod.mk.inj done
      exact ⟨fun k => unlockWriteSet_val k, rfl, rfl⟩
    · obtain ⟨vals, reads, writes⟩ := ih done
      refine ⟨fun k => ?_, reads, writes⟩
      rw [vals k, storeTid_val]

private theorem validate_frame {rs : List ReadElement} {ok : Bool}
    (done : TxnExecutor.validate table x rs = (ok, table', x')) :
    (∀ k, (table' k).val = (table k).val) ∧ x'.readSet = x.readSet ∧ x'.writeSet = x.writeSet := by
  induction rs generalizing x with
  | nil =>
    obtain ⟨-, rest⟩ := Prod.mk.inj done
    obtain ⟨rfl, rfl⟩ := Prod.mk.inj rest
    exact ⟨fun _ => rfl, rfl, rfl⟩
  | cons r rest ih =>
    simp only [TxnExecutor.validate] at done
    split at done
    · obtain ⟨-, rest⟩ := Prod.mk.inj done
      obtain ⟨rfl, rfl⟩ := Prod.mk.inj rest
      exact ⟨fun k => unlockWriteSet_val k, rfl, rfl⟩
    · obtain ⟨vals, reads, writes⟩ := ih done
      exact ⟨vals, reads, writes⟩

private theorem validationPhase_frame {ok : Bool}
    (done : x.validationPhase table = (ok, table', x')) :
    (∀ k, (table' k).val = (table k).val) ∧ x'.readSet = x.readSet ∧
      x'.writeSet = sortWriteSet x.writeSet := by
  unfold TxnExecutor.validationPhase at done
  cases locking : TxnExecutor.lockWriteSet table { x with writeSet := sortWriteSet x.writeSet } []
      (sortWriteSet x.writeSet) with
  | mk lockedTable y =>
    obtain ⟨vals, reads, writes⟩ := lockWriteSet_frame locking
    simp only [locking] at done
    split at done
    · obtain ⟨-, rest⟩ := Prod.mk.inj done
      obtain ⟨rfl, rfl⟩ := Prod.mk.inj rest
      exact ⟨vals, reads, writes⟩
    · obtain ⟨vals', reads', writes'⟩ := validate_frame done
      exact ⟨fun k => (vals' k).trans (vals k), reads'.trans reads, writes'.trans writes⟩

private theorem copyTo_ofFn (thid : Nat) (k : BitVec 64) (v old : Val) :
    WriteElement.copyTo thid ⟨k, List.ofFn v⟩ old = v := by
  have full : (List.ofFn v).length ≠ 0 := by simp
  rw [WriteElement.copyTo, if_neg full]
  funext i
  rw [copyOver, List.getElem?_ofFn]
  simp

end Phases

namespace TxnExecutor

variable {table table₁ : Table} {x₀ x₁ x₂ : TxnExecutor} {ops : List Op}

private theorem runs_unlocked (unlocked : ∀ k, (table k).tidword.lock = false) (ops : List Op) :
    ∃ x₁, Run (Steps (perform table)) x₀ ops x₁ := by
  induction ops using List.reverseRecOn with
  | nil => exact ⟨_, .start⟩
  | append_singleton ops op ih =>
    obtain ⟨x, run⟩ := ih
    cases op with
    | write key val => exact ⟨_, .next run rfl⟩
    | read key =>
      have returns : ∃ y, x.read table key = some y := by
        unfold read
        split
        · exact ⟨_, rfl⟩
        · simp [unlocked key]
      obtain ⟨y, done⟩ := returns
      exact ⟨y, .next run done⟩

private theorem validates_unlocked (unlocked : ∀ k, (table k).tidword.lock = false)
    (collected : Collected table ops x₁) :
    ∃ table₁ x₂, x₁.validationPhase table = (true, table₁, x₂) := by
  have perm : (sortWriteSet x₁.writeSet).Perm x₁.writeSet := List.perm_insertionSort _ _
  have free : Free table (sortWriteSet x₁.writeSet) :=
    ⟨(perm.map WriteElement.key).nodup_iff.mpr collected.distinct, fun e _ => unlocked e.key⟩
  obtain ⟨x₂, valid, -⟩ := validationPhase_alone free
    (fun r member => (collected.current r member).2)
    (fun r _ locked => by simp [unlocked r.key] at locked) collected.status
  exact ⟨_, x₂, valid⟩

theorem commits_unlocked (unlocked : ∀ k, (table k).tidword.lock = false)
    (noReads : x₀.readSet = []) (noWrites : x₀.writeSet = []) (ops : List Op) :
    ∃ x₁ table₁ x₂, Run (Steps (perform table)) x₀.begin ops x₁ ∧
      x₁.validationPhase table = (true, table₁, x₂) := by
  obtain ⟨x₁, run⟩ := runs_unlocked unlocked ops
  obtain ⟨table₁, x₂, valid⟩ :=
    validates_unlocked unlocked (collected_run noReads noWrites run)
  exact ⟨x₁, table₁, x₂, run, valid⟩

/-- Each key keeps the first of the values that the transaction writes to it: the write set is
searched by its key alone, and a second `write` returns at once. So the last value reaches the table
just where it is the first one as well. -/
theorem first_write_wins (thid : Nat) (epoch : BitVec 64) (noReads : x₀.readSet = [])
    (noWrites : x₀.writeSet = [])
    (run : Run (Steps (perform table)) x₀.begin ops x₁)
    (valid : x₁.validationPhase table = (true, table₁, x₂)) :
    (∀ k v, (written k ops).head? = some v →
      ((x₂.writePhase thid epoch table₁).1 k).val = v) ∧
    (∀ k v, (written k ops).getLast? = some v →
      (((x₂.writePhase thid epoch table₁).1 k).val = v ↔ (written k ops).head? = some v)) ∧
    (∀ k, written k ops = [] →
      ((x₂.writePhase thid epoch table₁).1 k).val = (table k).val) ∧
    ∀ r ∈ x₂.readSet, r.val = (table r.key).val := by
  have collected := collected_run noReads noWrites run
  obtain ⟨vals, reads, writes⟩ := validationPhase_frame valid
  have perm : (sortWriteSet x₁.writeSet).Perm x₁.writeSet := List.perm_insertionSort _ _
  have distinct : (x₂.writeSet.map WriteElement.key).Nodup := by
    rw [writes]
    exact (perm.map WriteElement.key).nodup_iff.mpr collected.distinct
  have head : ∀ k v, (written k ops).head? = some v →
      ((x₂.writePhase thid epoch table₁).1 k).val = v := by
    intro k v first
    have some : written k ops ≠ [] := fun none => by simp [none] at first
    obtain ⟨e, member, rfl⟩ := List.mem_map.mp (collected.complete k some)
    obtain ⟨w, first', bytes⟩ := collected.first e member
    obtain rfl : w = v := Option.some.inj (first'.symm.trans first)
    have member' : e ∈ x₂.writeSet := writes ▸ perm.mem_iff.mpr member
    rw [writePhase_table, writeBack_val _ _ _ distinct member']
    obtain ⟨key, val⟩ := e
    obtain rfl : val = List.ofFn w := bytes
    exact copyTo_ofFn _ _ _ _
  refine ⟨head, fun k v last => ?_, fun k none => ?_, fun r member => ?_⟩
  · cases first : (written k ops).head? with
    | none =>
      rw [List.head?_eq_none_iff] at first
      simp [first] at last
    | some w =>
      rw [head k w first]
      exact Option.some_inj.symm
  · have absent : k ∉ x₂.writeSet.map WriteElement.key := by
      rw [writes, mem_sortWriteSet_keys]
      intro member
      obtain ⟨e, entry, rfl⟩ := List.mem_map.mp member
      obtain ⟨v, first, -⟩ := collected.first e entry
      simp [none] at first
    rw [writePhase_table, writeBack_of_absent _ _ _ absent]
    exact vals k
  · exact (collected.current r (reads ▸ member)).1

section Example

def rewriteOps : List Op :=
  [.read 1, .write 1 (bytes 7), .write 2 (bytes 8), .read 2, .write 1 (bytes 9)]

theorem first_write_wins_rewrite :
    ∃ x₁ table₁ x₂, Run (Steps (perform (tableOf 5))) new.begin rewriteOps x₁ ∧
      x₁.validationPhase (tableOf 5) = (true, table₁, x₂) ∧
      ((x₂.writePhase 0 1 table₁).1 1).val = bytes 7 ∧
      ((x₂.writePhase 0 1 table₁).1 3).val = bytes 5 := by
  have commits : ∃ x₁ table₁ x₂, Run (Steps (perform (tableOf 5))) new.begin rewriteOps x₁ ∧
      x₁.validationPhase (tableOf 5) = (true, table₁, x₂) :=
    commits_unlocked (fun _ => rfl) rfl rfl rewriteOps
  obtain ⟨x₁, table₁, x₂, run, valid⟩ := commits
  obtain ⟨head, -, rest, -⟩ := first_write_wins 0 1 rfl rfl run valid
  exact ⟨x₁, table₁, x₂, run, valid, head 1 (bytes 7) (by decide), rest 3 (by decide)⟩

/-- The last write of account 1 does not reach the table. -/
theorem last_write_lost :
    ∃ x₁ table₁ x₂, Run (Steps (perform (tableOf 5))) new.begin rewriteOps x₁ ∧
      x₁.validationPhase (tableOf 5) = (true, table₁, x₂) ∧
      (written 1 rewriteOps).getLast? = some (bytes 9) ∧
      ((x₂.writePhase 0 1 table₁).1 1).val ≠ bytes 9 := by
  have done : (exec (perform (tableOf 5)) new.begin rewriteOps).map (fun x =>
      decide ((x.validationPhase (tableOf 5)).1 = true ∧
        (((x.validationPhase (tableOf 5)).2.2.writePhase 0 1
          (x.validationPhase (tableOf 5)).2.1).1 1).val ≠ bytes 9)) = some true := by decide
  obtain ⟨x₁, run, holds⟩ := Lib.exec_reaches done
  obtain ⟨valid, lost⟩ := of_decide_eq_true holds
  exact ⟨x₁, _, _, run, Prod.ext valid rfl, by decide, lost⟩

end Example

end TxnExecutor

end Raft2pl.Silo
