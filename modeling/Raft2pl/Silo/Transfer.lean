/- Which amounts survive their way through a string to the tuples of a transfer. -/

import Raft2pl.Silo.Transaction

set_option autoImplicit false
set_option relaxedAutoImplicit false

namespace Raft2pl.Silo

open Lib (cString strlen copyOver)

/-- The bytes of `new` arrive in a tuple that holds `old`: they start a string that ends inside
the four bytes, and from its end on the tuple holds the right bytes already. -/
def Arrives (old new : Val) : Prop :=
  0 < strlen new ∧ strlen new < 4 ∧ ∀ i : Fin 4, strlen new ≤ i.val → old i = new i

instance (old new : Val) : Decidable (Arrives old new) :=
  inferInstanceAs (Decidable (_ ∧ _ ∧ _))

private theorem arrives_iff (thid : Nat) (k : BitVec 64) (old new : Val) : Arrives old new ↔
    ∀ beyond, WriteElement.overruns ⟨k, cString new beyond⟩ = false ∧
      WriteElement.copyTo thid ⟨k, cString new beyond⟩ old = new := by
  have bound := Lib.strlen_le new
  constructor
  · rintro ⟨some, inside, rest⟩ beyond
    have size := Lib.length_cString beyond inside
    refine ⟨by simp [WriteElement.overruns, size, bound], ?_⟩
    have nonempty : (cString new beyond).length ≠ 0 := by omega
    rw [WriteElement.copyTo, if_neg nonempty]
    exact (Lib.copyOver_cString_eq inside).mpr rest
  · intro all
    -- an unlucky byte behind a full array makes the string too long
    have inside : strlen new < 4 := by
      by_contra full
      have whole := Lib.cString_of_full [1] (show strlen new = 4 by omega)
      have short := (all [1]).1
      rw [WriteElement.overruns, whole] at short
      simp at short
    have some : 0 < strlen new := by
      by_contra none
      have empty : strlen new = 0 := by omega
      have copied := (all []).2
      rw [WriteElement.copyTo, if_pos (by rw [Lib.length_cString [] inside, empty])] at copied
      have first := Lib.strlen_eq_zero.mp empty
      rw [← copied] at first
      exact writeVal_first thid first
    have copied := (all []).2
    have nonempty : (cString new []).length ≠ 0 := by
      rw [Lib.length_cString [] inside]
      omega
    rw [WriteElement.copyTo, if_neg nonempty] at copied
    exact ⟨some, inside, (Lib.copyOver_cString_eq inside).mp copied⟩

/-- The transfer that the client asked for, on the values of the tuples. -/
def Moved (req : ClientRequest) (table table' : Table) : Prop :=
  amount (table' (keyOf req.fromKey)).val =
      amount (table (keyOf req.fromKey)).val - req.diff ∧
    amount (table' (keyOf req.toKey)).val = amount (table (keyOf req.toKey)).val + req.diff ∧
    ∀ k, k ≠ keyOf req.fromKey → k ≠ keyOf req.toKey → (table' k).val = (table k).val

theorem sorted_of_slt {req : ClientRequest} (swap : req.toKey.slt req.fromKey = true) :
    sorted req = { req with fromKey := req.toKey, toKey := req.fromKey, diff := -req.diff } := by
  simp [sorted, swap]

theorem sorted_of_not_slt {req : ClientRequest} (keep : req.toKey.slt req.fromKey = false) :
    sorted req = req := by
  simp [sorted, keep]

theorem sorted_ne {req : ClientRequest} (apart : req.fromKey ≠ req.toKey) :
    (sorted req).fromKey ≠ (sorted req).toKey := by
  cases swap : req.toKey.slt req.fromKey with
  | false => rwa [sorted_of_not_slt swap]
  | true =>
    rw [sorted_of_slt swap]
    exact apart.symm

private theorem moved_sorted (req : ClientRequest) (table table' : Table) :
    Moved (sorted req) table table' ↔ Moved req table table' := by
  cases swap : req.toKey.slt req.fromKey with
  | false => rw [sorted_of_not_slt swap]
  | true =>
    rw [sorted_of_slt swap]
    unfold Moved
    simp only [sub_neg_eq_add, ← sub_eq_add_neg]
    constructor
    · rintro ⟨dst, src, rest⟩
      exact ⟨src, dst, fun k ne ne' => rest k ne' ne⟩
    · rintro ⟨src, dst, rest⟩
      exact ⟨dst, src, fun k ne ne' => rest k ne' ne⟩

section Alone

variable {thid : Nat} {epoch : BitVec 64} {beyondFrom beyondTo : List Byte} {table : Table}
  {x : TxnExecutor} {req : ClientRequest}

def newFrom (table : Table) (req : ClientRequest) : Val :=
  bytes (amount (table (keyOf req.fromKey)).val - req.diff)

def newTo (table : Table) (req : ClientRequest) : Val :=
  bytes (amount (table (keyOf req.toKey)).val + req.diff)

private theorem moved_iff {table' : Table} : Moved req table table' ↔
    (table' (keyOf req.fromKey)).val = newFrom table req ∧
      (table' (keyOf req.toKey)).val = newTo table req ∧
      ∀ k, k ≠ keyOf req.fromKey → k ≠ keyOf req.toKey → (table' k).val = (table k).val := by
  rw [Moved, amount_eq_iff, amount_eq_iff]
  rfl

theorem validationPhase_alone (free : Free table (sortWriteSet x.writeSet))
    (current : ∀ r ∈ x.readSet, r.tidword = (table r.key).tidword)
    (own : ∀ r ∈ x.readSet, (table r.key).tidword.lock = true → x.searchWriteSet r.key = true)
    (running : x.status = .inFlight) :
    ∃ y, x.validationPhase table = (true, lockAll table (sortWriteSet x.writeSet), y) ∧
      y.writeSet = sortWriteSet x.writeSet ∧ y.mrctid = x.mrctid ∧
      (∀ n, y.maxWset.ver ≤ n ↔
        x.maxWset.ver ≤ n ∧ ∀ e ∈ x.writeSet, (table e.key).tidword.ver ≤ n) ∧
      ∀ n, y.maxRset.ver ≤ n ↔
        x.maxRset.ver ≤ n ∧ ∀ r ∈ x.readSet, (table r.key).tidword.ver ≤ n := by
  obtain ⟨w, locked, leastWrite⟩ := lockWriteSet_free
    (x := { x with writeSet := sortWriteSet x.writeSet }) [] free
  have perm : (sortWriteSet x.writeSet).Perm x.writeSet := List.perm_insertionSort _ _
  have same : ∀ r ∈ x.readSet,
      r.tidword.epoch = (lockAll table (sortWriteSet x.writeSet) r.key).tidword.epoch ∧
        r.tidword.tid = (lockAll table (sortWriteSet x.writeSet) r.key).tidword.tid := by
    intro r member
    rw [current r member]
    exact ⟨(lockAll_ver _ _ _).1.symm, (lockAll_ver _ _ _).2.symm⟩
  have mine : ∀ r ∈ x.readSet,
      (lockAll table (sortWriteSet x.writeSet) r.key).tidword.lock = true →
        TxnExecutor.searchWriteSet
          { x with writeSet := sortWriteSet x.writeSet, maxWset := w } r.key = true := by
    intro r member set
    rw [TxnExecutor.searchWriteSet_iff]
    rcases lockAll_lock set with before | locked
    · exact mem_sortWriteSet_keys.mpr (TxnExecutor.searchWriteSet_iff.mp (own r member before))
    · exact locked
  obtain ⟨m, accepted, leastRead⟩ := validate_accepts x.readSet same mine
  refine ⟨{ x with
    writeSet := sortWriteSet x.writeSet
    maxWset := w
    status := .committed
    maxRset := m }, ?_, rfl, rfl, fun n => ?_, fun n => ?_⟩
  · simp only [TxnExecutor.validationPhase, locked]
    rw [if_neg (by simp [running])]
    exact accepted
  · rw [leastWrite n]
    exact and_congr_right' (forall_congr' (fun e => by rw [perm.mem_iff]))
  · rw [leastRead n]
    refine and_congr_right' (forall₂_congr (fun r _ => ?_))
    rw [Tidword.ver_eq_iff.mpr (lockAll_ver table (sortWriteSet x.writeSet) r.key)]

/-- `transferWork` up to the end of `validationPhase`, for a request in locking order. -/
def validated (beyondFrom beyondTo : List Byte) (table : Table) (x : TxnExecutor)
    (req : ClientRequest) : Option (Bool × Table × TxnExecutor) := do
  let x ← x.begin.read table (keyOf req.fromKey)
  let x ← x.read table (keyOf req.toKey)
  let x ← x.transfer req beyondFrom beyondTo
  some (x.validationPhase table)

theorem transferWork_validated (apart : req.fromKey ≠ req.toKey) :
    transferWork thid epoch beyondFrom beyondTo table x req =
      (validated beyondFrom beyondTo table x (sorted req)).map (fun phase =>
        if phase.1 then
          ⟨true, phase.2.2.writeSet.any WriteElement.overruns,
            (phase.2.2.writePhase thid epoch phase.2.1).1,
            (phase.2.2.writePhase thid epoch phase.2.1).2⟩
        else ⟨false, false, phase.2.1, phase.2.2.abort⟩) := by
  simp only [transferWork, if_neg apart, validated, Option.bind_eq_bind]
  rw [Option.map_bind]
  refine Option.bind_congr (fun x₁ _ => ?_)
  rw [Function.comp_apply, Option.map_bind]
  refine Option.bind_congr (fun x₂ _ => ?_)
  rw [Function.comp_apply, Option.map_bind]
  refine Option.bind_congr (fun x₃ _ => ?_)
  rw [Function.comp_apply, Option.map_some]
  rcases x₃.validationPhase table with ⟨ok, table', x₄⟩
  cases ok <;> rfl

theorem validated_free (beyondFrom beyondTo : List Byte) (idle : x.readSet = [] ∧ x.writeSet = [])
    (apart : req.fromKey ≠ req.toKey)
    (freeFrom : (table (keyOf req.fromKey)).tidword.lock = false)
    (freeTo : (table (keyOf req.toKey)).tidword.lock = false) :
    let eFrom : WriteElement := ⟨keyOf req.fromKey, cString (newFrom table req) beyondFrom⟩
    let eTo : WriteElement := ⟨keyOf req.toKey, cString (newTo table req) beyondTo⟩
    ∃ y, validated beyondFrom beyondTo table x req =
        some (true, lockAll table (sortWriteSet [eFrom, eTo]), y) ∧
      y.writeSet = sortWriteSet [eFrom, eTo] ∧ y.mrctid = x.mrctid ∧
      (∀ n, y.maxWset.ver ≤ n ↔
        (table eFrom.key).tidword.ver ≤ n ∧ (table eTo.key).tidword.ver ≤ n) ∧
      ∀ n, y.maxRset.ver ≤ n ↔
        (table eFrom.key).tidword.ver ≤ n ∧ (table eTo.key).tidword.ver ≤ n := by
  intro eFrom eTo
  have keys : eFrom.key ≠ eTo.key := fun same => apart (keyOf_injective same)
  let rFrom : ReadElement := ⟨eFrom.key, (table eFrom.key).val, (table eFrom.key).tidword⟩
  let rTo : ReadElement := ⟨eTo.key, (table eTo.key).val, (table eTo.key).tidword⟩
  let y : TxnExecutor := { x.begin with readSet := [rFrom, rTo], writeSet := [eFrom, eTo] }
  have perm : (sortWriteSet [eFrom, eTo]).Perm [eFrom, eTo] := List.perm_insertionSort _ _
  have free : Free table (sortWriteSet [eFrom, eTo]) := by
    refine ⟨?_, fun e member => ?_⟩
    · rw [(perm.map WriteElement.key).nodup_iff]
      simpa using keys
    · rcases List.mem_pair.mp (perm.mem_iff.mp member) with rfl | rfl
      · exact freeFrom
      · exact freeTo
  have prepared : (x.begin.read table eFrom.key >>= fun x => x.read table eTo.key >>=
      fun x => x.transfer req beyondFrom beyondTo) = some y := by
    simp [TxnExecutor.read, TxnExecutor.searchReadSet, TxnExecutor.searchWriteSet,
      TxnExecutor.begin, TxnExecutor.transfer, TxnExecutor.write, idle.1, idle.2, keys, freeFrom,
      freeTo, y, rFrom, rTo, eFrom, eTo, newFrom, newTo]
  obtain ⟨z, passed, written, mrctid, leastWrite, leastRead⟩ := validationPhase_alone (x := y) free
    (by simp [y, rFrom, rTo]) (by simp [y, rFrom, rTo, TxnExecutor.searchWriteSet]) rfl
  simp only [Option.bind_eq_bind, Option.bind_eq_some_iff] at prepared
  obtain ⟨x₁, first, x₂, second, written'⟩ := prepared
  refine ⟨z, ?_, written, mrctid, fun n => ?_, fun n => ?_⟩
  · simp only [validated, Option.bind_eq_bind]
    rw [first, Option.bind_some, second, Option.bind_some, written', Option.bind_some, passed]
  · rw [leastWrite n]
    simp [y, TxnExecutor.begin, Tidword.ver, Tidword.zero]
  · rw [leastRead n]
    simp [y, rFrom, rTo, TxnExecutor.begin, Tidword.ver, Tidword.zero]

theorem transferWork_free (thid : Nat) (epoch : BitVec 64) (beyondFrom beyondTo : List Byte)
    (idle : x.readSet = [] ∧ x.writeSet = [])
    (apart : req.fromKey ≠ req.toKey)
    (freeFrom : (table (keyOf (sorted req).fromKey)).tidword.lock = false)
    (freeTo : (table (keyOf (sorted req).toKey)).tidword.lock = false) :
    let eFrom : WriteElement := ⟨keyOf (sorted req).fromKey,
      cString (newFrom table (sorted req)) beyondFrom⟩
    let eTo : WriteElement := ⟨keyOf (sorted req).toKey,
      cString (newTo table (sorted req)) beyondTo⟩
    ∃ out, transferWork thid epoch beyondFrom beyondTo table x req = some out ∧ out.ok = true ∧
      out.overrun = (eFrom.overruns || eTo.overruns) ∧
      (out.table eFrom.key).val = eFrom.copyTo thid (table eFrom.key).val ∧
      (out.table eTo.key).val = eTo.copyTo thid (table eTo.key).val ∧
      ∀ k, k ≠ eFrom.key → k ≠ eTo.key → (out.table k).val = (table k).val := by
  intro eFrom eTo
  have keys : eFrom.key ≠ eTo.key := fun same => sorted_ne apart (keyOf_injective same)
  have perm : (sortWriteSet [eFrom, eTo]).Perm [eFrom, eTo] := List.perm_insertionSort _ _
  have distinct : ((sortWriteSet [eFrom, eTo]).map WriteElement.key).Nodup := by
    rw [(perm.map WriteElement.key).nodup_iff]
    simpa using keys
  obtain ⟨z, passed, written, -⟩ := validated_free beyondFrom beyondTo idle (sorted_ne apart)
    freeFrom freeTo
  have done : transferWork thid epoch beyondFrom beyondTo table x req = _ :=
    transferWork_validated apart
  rw [passed] at done
  have value : ∀ e ∈ [eFrom, eTo],
      (TxnExecutor.writeBack thid (z.commitTid epoch) (lockAll table (sortWriteSet [eFrom, eTo]))
        z.writeSet e.key).val = e.copyTo thid (table e.key).val := by
    intro e member
    rw [written, writeBack_val thid _ _ distinct (perm.mem_iff.mpr member), lockAll_val]
  refine ⟨_, done, rfl, ?_, value eFrom (by simp), value eTo (by simp), fun k ne ne' => ?_⟩
  · change z.writeSet.any WriteElement.overruns = _
    rw [written, perm.any_eq]
    simp
  · change (TxnExecutor.writeBack thid (z.commitTid epoch)
      (lockAll table (sortWriteSet [eFrom, eTo])) z.writeSet k).val = _
    rw [written, writeBack_of_absent, lockAll_val]
    rw [(perm.map WriteElement.key).mem_iff]
    simp [ne, ne']

/-- Every call that returns leaves both sets empty for the next one. -/
theorem transferWork_idle {out : Outcome}
    (returned : transferWork thid epoch beyondFrom beyondTo table x req = some out) :
    out.executor.readSet = [] ∧ out.executor.writeSet = [] := by
  simp only [transferWork, Option.bind_eq_bind, Option.ite_none_left_eq_some,
    Option.bind_eq_some_iff] at returned
  obtain ⟨-, x₁, -, x₂, -, x₃, -, last⟩ := returned
  split at last <;> obtain rfl := Option.some.inj last
  · exact ⟨rfl, rfl⟩
  · exact ⟨rfl, rfl⟩

private theorem transferWork_locked (thid : Nat) (epoch : BitVec 64) (beyondFrom beyondTo : List Byte)
    (idle : x.readSet = [] ∧ x.writeSet = [])
    (apart : req.fromKey ≠ req.toKey)
    (locked : (table (keyOf (sorted req).fromKey)).tidword.lock = true ∨
      (table (keyOf (sorted req).toKey)).tidword.lock = true) :
    transferWork thid epoch beyondFrom beyondTo table x req = none := by
  have keys : keyOf (sorted req).fromKey ≠ keyOf (sorted req).toKey :=
    fun same => sorted_ne apart (keyOf_injective same)
  simp only [transferWork, if_neg apart, Option.bind_eq_bind, Option.bind_eq_none_iff]
  cases here : (table (keyOf (sorted req).fromKey)).tidword.lock with
  | true =>
    simp [TxnExecutor.read, TxnExecutor.searchReadSet, TxnExecutor.searchWriteSet,
      TxnExecutor.begin, idle.1, idle.2, here]
  | false =>
    have there := locked.resolve_left (by simp [here])
    simp [TxnExecutor.read, TxnExecutor.searchReadSet, TxnExecutor.searchWriteSet,
      TxnExecutor.begin, idle.1, idle.2, here, there, keys]

theorem transfer_sorted (thid : Nat) (epoch : BitVec 64) (table : Table) {x : TxnExecutor}
    {req : ClientRequest} (idle : x.readSet = [] ∧ x.writeSet = [])
    (apart : req.fromKey ≠ req.toKey) :
    (∀ beyondFrom beyondTo out,
      transferWork thid epoch beyondFrom beyondTo table x req = some out → out.ok = true →
        out.overrun = false ∧ Moved (sorted req) table out.table) ↔
    (table (keyOf (sorted req).fromKey)).tidword.lock = true ∨
      (table (keyOf (sorted req).toKey)).tidword.lock = true ∨
      Arrives (table (keyOf (sorted req).fromKey)).val (newFrom table (sorted req)) ∧
      Arrives (table (keyOf (sorted req).toKey)).val (newTo table (sorted req)) := by
  by_cases locked : (table (keyOf (sorted req).fromKey)).tidword.lock = true ∨
      (table (keyOf (sorted req).toKey)).tidword.lock = true
  · have stuck := fun beyondFrom beyondTo => transferWork_locked thid epoch beyondFrom beyondTo
      idle apart locked
    refine iff_of_true (fun beyondFrom beyondTo out returned => ?_)
      (locked.elim .inl (fun there => .inr (.inl there)))
    rw [stuck] at returned
    simp at returned
  · have freeFrom : (table (keyOf (sorted req).fromKey)).tidword.lock = false := by
      simpa using fun here => locked (.inl here)
    have freeTo : (table (keyOf (sorted req).toKey)).tidword.lock = false := by
      simpa using fun there => locked (.inr there)
    have free := fun beyondFrom beyondTo => transferWork_free thid epoch beyondFrom beyondTo
      idle apart freeFrom freeTo
    simp only [freeFrom, freeTo, Bool.false_eq_true, false_or]
    constructor
    · intro right
      constructor
      · refine (arrives_iff thid (keyOf (sorted req).fromKey) _ _).mpr (fun beyond => ?_)
        obtain ⟨out, returned, ok, spill, copied, -, -⟩ := free beyond []
        obtain ⟨inside, moved⟩ := right beyond [] out returned ok
        rw [inside] at spill
        exact ⟨(Bool.or_eq_false_iff.mp spill.symm).1, copied.symm.trans (moved_iff.mp moved).1⟩
      · refine (arrives_iff thid (keyOf (sorted req).toKey) _ _).mpr (fun beyond => ?_)
        obtain ⟨out, returned, ok, spill, -, copied, -⟩ := free [] beyond
        obtain ⟨inside, moved⟩ := right [] beyond out returned ok
        rw [inside] at spill
        exact ⟨(Bool.or_eq_false_iff.mp spill.symm).2, copied.symm.trans (moved_iff.mp moved).2.1⟩
    · rintro ⟨arriveFrom, arriveTo⟩ beyondFrom beyondTo out returned -
      obtain ⟨out', returned', -, spill, copyFrom, copyTo, rest⟩ := free beyondFrom beyondTo
      obtain rfl : out' = out := Option.some.inj (returned'.symm.trans returned)
      obtain ⟨insideFrom, valueFrom⟩ := (arrives_iff thid _ _ _).mp arriveFrom beyondFrom
      obtain ⟨insideTo, valueTo⟩ := (arrives_iff thid _ _ _).mp arriveTo beyondTo
      refine ⟨?_, moved_iff.mpr ⟨copyFrom.trans valueFrom, copyTo.trans valueTo, rest⟩⟩
      rw [spill, insideFrom, insideTo]
      rfl

/-- A transfer that returns is right for every memory behind its two arrays, exactly if both of
its new amounts arrive, or if it cannot return. -/
theorem transfer_exact (thid : Nat) (epoch : BitVec 64) (table : Table) {x : TxnExecutor}
    (req : ClientRequest) (idle : x.readSet = [] ∧ x.writeSet = [])
    (apart : req.fromKey ≠ req.toKey) :
    (∀ beyondFrom beyondTo out,
      transferWork thid epoch beyondFrom beyondTo table x req = some out → out.ok = true →
        out.overrun = false ∧ Moved req table out.table) ↔
    (table (keyOf req.fromKey)).tidword.lock = true ∨
      (table (keyOf req.toKey)).tidword.lock = true ∨
      Arrives (table (keyOf req.fromKey)).val
        (bytes (amount (table (keyOf req.fromKey)).val - req.diff)) ∧
      Arrives (table (keyOf req.toKey)).val
        (bytes (amount (table (keyOf req.toKey)).val + req.diff)) := by
  have ordered := transfer_sorted thid epoch table idle apart
  simp only [moved_sorted] at ordered
  rw [ordered]
  cases swap : req.toKey.slt req.fromKey with
  | false =>
    rw [sorted_of_not_slt swap]
    rfl
  | true =>
    rw [sorted_of_slt swap]
    simp only [newFrom, newTo, sub_neg_eq_add, ← sub_eq_add_neg]
    exact or_left_comm.trans (or_congr_right (or_congr_right and_comm))

end Alone

section Example

def tableOf (a : CInt) : Table := fun _ => ⟨⟨false, true, false, 0, 1⟩, bytes a⟩

/-- From 5 take 3: the bytes above the lowest one are 0 before and after. -/
theorem transfer_exact_small :
    ∃ out, transferWork 0 1 [7] [] (tableOf 5) .new ⟨2, 1, 3, 0⟩ = some out ∧
      Moved ⟨2, 1, 3, 0⟩ (tableOf 5) out.table := by
  have done : (transferWork 0 1 [7] [] (tableOf 5) .new ⟨2, 1, 3, 0⟩).map (fun out => out.ok) =
      some true := by decide
  obtain ⟨out, returned, ok⟩ := Option.map_eq_some_iff.mp done
  have right := (transfer_exact 0 1 (tableOf 5) (x := .new) ⟨2, 1, 3, 0⟩ ⟨rfl, rfl⟩
    (by decide)).mpr (by decide)
  exact ⟨out, returned, (right [7] [] out returned ok).2⟩

/-- 100 taken from 356 leave 256, whose lowest byte is 0: the digit of thread 0 is stored. -/
theorem amount_256_lost :
    ∃ out, transferWork 0 1 [] [] (tableOf 356) .new ⟨1, 2, 100, 0⟩ = some out ∧ out.ok = true ∧
      amount (out.table 1).val = 48 ∧ ¬ Moved ⟨1, 2, 100, 0⟩ (tableOf 356) out.table := by
  have done : (transferWork 0 1 [] [] (tableOf 356) .new ⟨1, 2, 100, 0⟩).map
      (fun out => decide (out.ok = true ∧ amount (out.table 1).val = 48)) = some true := by decide
  obtain ⟨out, returned, holds⟩ := Option.map_eq_some_iff.mp done
  obtain ⟨ok, stored⟩ := of_decide_eq_true holds
  refine ⟨out, returned, ok, stored, fun moved => ?_⟩
  have right : amount (out.table 1).val = 256 := moved.1
  rw [stored] at right
  exact absurd right (by decide)

end Example

end Raft2pl.Silo
