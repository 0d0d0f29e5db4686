/- What a successful validation guarantees while the worker holds its locks. -/

import Raft2pl.Silo.Knowledge
import Raft2pl.Silo.Transfer
import Raft2pl.Lib.Run
import Raft2pl.Lib.Ownership

set_option autoImplicit false
set_option relaxedAutoImplicit false

namespace Raft2pl.Silo

open Lib (Run Steps exec exec_reaches Exclusive OnlyAt Cell)

namespace Process

variable {W : Nat}

def cell (s : Process W) (k : BitVec 64) : Cell Nat Val where
  ver := (s.table k).tidword.ver
  dirty := ∃ i, (s.worker i).dirtyKey = some k
  val := (s.table k).val

/-- Every locked tuple is held by one worker, and every worker is good. -/
structure Inv (s : Process W) : Prop where
  exclusive : Exclusive (fun i => (s.worker i).own) (fun k => (s.table k).tidword.lock)
  good : ∀ i, (s.worker i).Good s.table s.cell

end Process

theorem commitTid_lock (x : TxnExecutor) (epoch : BitVec 64) : (x.commitTid epoch).lock = false := by
  simp only [TxnExecutor.commitTid]

private theorem commitTid_newer {x : TxnExecutor} (roomy : x.roomy = true) (epoch : BitVec 64) :
    x.maxWset.ver < (x.commitTid epoch).ver := by
  obtain ⟨room, -⟩ := Bool.and_eq_true_iff.mp roomy
  have marks : ∀ t : Tidword, Tidword.ver { t with lock := false, latest := true } = t.ver :=
    fun _ => rfl
  have left := Tidword.ver_le_max_left x.maxWset x.maxRset
  have next := Tidword.ver_incTid room
  rw [TxnExecutor.commitTid, marks]
  calc x.maxWset.ver < (Tidword.max x.maxWset x.maxRset).incTid.ver := by omega
    _ ≤ _ := Tidword.ver_le_max_left _ x.mrctid.incTid
    _ ≤ _ := Tidword.ver_le_max_left _ _

namespace Process

variable {W : Nat} {s s' : Process W} {i : Fin W} {w' : Worker}

private theorem mem_own_of_dirty {w : Worker} {k : BitVec 64} (dirty : w.dirtyKey = some k) :
    k ∈ w.own := by
  cases here : w.pc with
  | writeStore e rest maxtid =>
    obtain rfl : e.key = k := by simpa [Worker.dirtyKey, here] using dirty
    simp [Worker.own, Worker.holds, here]
  | _ => simp [Worker.dirtyKey, here] at dirty

section Move

variable (workers : s'.worker = Function.update s.worker i w')

include workers

private theorem dirty_mine {k : BitVec 64} (dirty : w'.dirtyKey = some k) : (s'.cell k).dirty :=
  ⟨i, by rw [workers, Function.update_self]; exact dirty⟩

private theorem dirty_kept {k : BitVec 64} (mine : (s.worker i).dirtyKey ≠ some k)
    (dirty : (s.cell k).dirty) : (s'.cell k).dirty := by
  obtain ⟨j, here⟩ := dirty
  refine ⟨j, ?_⟩
  have apart : j ≠ i := by
    rintro rfl
    exact mine here
  rw [workers, Function.update_of_ne apart]
  exact here

theorem onlyAt : OnlyAt i (fun j => (s.worker j).own) (fun j => (s'.worker j).own) := by
  intro j apart
  show (s'.worker j).own = (s.worker j).own
  rw [workers, Function.update_of_ne apart]

/-- A step keeps the invariant if it keeps locks and owners in step, moves cells forward, leaves
tuples alone that others have locked, and brings its own worker to a good point. -/
theorem inv_move (inv : Inv s)
    (exclusive : Exclusive (fun j => (s'.worker j).own) (fun k => (s'.table k).tidword.lock))
    (moved : ∀ k, (s.cell k).Advances (s'.cell k))
    (kept : ∀ k, k ∉ (s.worker i).own → (s.table k).tidword.lock = true → s'.table k = s.table k)
    (good : w'.Good s'.table s'.cell) : Inv s' := by
  refine ⟨exclusive, fun j => ?_⟩
  by_cases eq : j = i
  · subst eq
    rw [workers, Function.update_self]
    exact good
  · rw [workers, Function.update_of_ne eq]
    refine (inv.good j).frame moved (fun k member => ?_)
    exact kept k (inv.exclusive.disjoint eq member) (inv.exclusive.held_of_mem member)

private theorem inv_quiet (inv : Inv s) (table : s'.table = s.table)
    (clean : (s.worker i).dirtyKey = none)
    (good : w'.Good s.table s.cell ∧ w'.holds = (s.worker i).holds ∧ w'.dirtyKey = none) :
    Inv s' := by
  obtain ⟨good, holds, clean'⟩ := good
  have back : s.worker = Function.update s'.worker i (s.worker i) := by
    rw [workers, Function.update_idem, Function.update_eq_self]
  have cells : s'.cell = s.cell := by
    funext k
    have dirty : (s'.cell k).dirty = (s.cell k).dirty := propext
      ⟨dirty_kept back (by rw [workers, Function.update_self, clean']; simp),
        dirty_kept workers (by rw [clean]; simp)⟩
    show Cell.mk (s'.table k).tidword.ver (s'.cell k).dirty (s'.table k).val = _
    rw [table, dirty]
    rfl
  refine inv_move workers inv ?_ (fun k => ?_) (fun k _ _ => by rw [table]) ?_
  · refine inv.exclusive.rearrange i (onlyAt workers) ?_ (by rw [table])
    show (s'.worker i).own = (s.worker i).own
    rw [workers, Function.update_self, Worker.own, Worker.own, holds]
  · rw [cells]
    exact .refl _
  · rw [table, cells]
    exact good

private theorem inv_acquire (inv : Inv s) {k : BitVec 64}
    (table : s'.table = storeTid s.table k { (s.table k).tidword with lock := true })
    (free : (s.table k).tidword.lock = false) (clean : (s.worker i).dirtyKey = none)
    (gain : w'.own = (s.worker i).own + {k})
    (good : Recorded s'.cell (s.worker i).x.readSet → w'.Good s'.table s'.cell) : Inv s' := by
  have moved : ∀ q, (s.cell q).Advances (s'.cell q) := by
    intro q
    refine .keep ?_ (dirty_kept workers (by rw [clean]; simp)) ?_
    · show (s'.table q).tidword.ver = (s.table q).tidword.ver
      rw [table]
      by_cases eq : q = k
      · rw [eq, storeTid_self]
        rfl
      · rw [storeTid_of_ne eq]
    · show (s'.table q).val = (s.table q).val
      rw [table, storeTid_val]
  refine inv_move workers inv ?_ moved ?_ ?_
  · refine inv.exclusive.acquire free (onlyAt workers) ?_ ?_
    · show (s'.worker i).own = _
      rw [workers, Function.update_self]
      exact gain
    · funext q
      rw [table]
      by_cases eq : q = k
      · rw [eq, storeTid_self, Function.update_self]
      · rw [storeTid_of_ne eq, Function.update_of_ne eq]
  · intro q _ locked
    have apart : q ≠ k := by
      rintro rfl
      rw [free] at locked
      exact Bool.false_ne_true locked
    rw [table, storeTid_of_ne apart]
  · exact good (fun r member => ((inv.good i).records r member).advance (moved r.key))

private theorem inv_release (inv : Inv s) {k : BitVec 64} {t : Tidword}
    (table : s'.table = storeTid s.table k t) (free : t.lock = false)
    (loss : (s.worker i).own = w'.own + {k})
    (version : (s.worker i).dirtyKey = none ∧ t.ver = (s.table k).tidword.ver ∨
      (s.worker i).dirtyKey = some k ∧ (s.table k).tidword.ver < t.ver)
    (good : Recorded s'.cell (s.worker i).x.readSet → w'.Good s'.table s'.cell) : Inv s' := by
  have moved : ∀ q, (s.cell q).Advances (s'.cell q) := by
    intro q
    have value : (s'.cell q).val = (s.cell q).val := by
      show (s'.table q).val = (s.table q).val
      rw [table, storeTid_val]
    by_cases eq : q = k
    · subst eq
      have word : (s'.cell q).ver = t.ver := by
        show (s'.table q).tidword.ver = t.ver
        rw [table, storeTid_self]
      rcases version with ⟨clean, same⟩ | ⟨-, newer⟩
      · exact .keep (word.trans same) (dirty_kept workers (by rw [clean]; simp)) value
      · refine .publish ?_
        rw [word]
        exact newer
    · have word : (s'.cell q).ver = (s.cell q).ver := by
        show (s'.table q).tidword.ver = (s.table q).tidword.ver
        rw [table, storeTid_of_ne eq]
      refine .keep word (dirty_kept workers ?_) value
      rcases version with ⟨clean, -⟩ | ⟨mine, -⟩
      · rw [clean]
        simp
      · rw [mine]
        simpa using Ne.symm eq
  refine inv_move workers inv ?_ moved ?_ ?_
  · refine inv.exclusive.release (k := k) (onlyAt workers) ?_ ?_
    · show (s.worker i).own = (s'.worker i).own + {k}
      rw [workers, Function.update_self]
      exact loss
    · funext q
      rw [table]
      by_cases eq : q = k
      · rw [eq, storeTid_self, Function.update_self, free]
      · rw [storeTid_of_ne eq, Function.update_of_ne eq]
  · intro q outside _
    have apart : q ≠ k := by
      rintro rfl
      exact outside (by rw [loss]; simp)
    rw [table, storeTid_of_ne apart]
  · exact good (fun r member => ((inv.good i).records r member).advance (moved r.key))

theorem inv_write (inv : Inv s) {k : BitVec 64} {v : Val} (table : s'.table = storeVal s.table k v)
    (mine : k ∈ (s.worker i).own) (clean : (s.worker i).dirtyKey = none)
    (same : w'.own = (s.worker i).own) (dirty : w'.dirtyKey = some k)
    (good : Recorded s'.cell (s.worker i).x.readSet → w'.Good s'.table s'.cell) : Inv s' := by
  have word : ∀ q, (s'.table q).tidword = (s.table q).tidword := by
    intro q
    rw [table, storeVal_tidword]
  have moved : ∀ q, (s.cell q).Advances (s'.cell q) := by
    intro q
    have version : (s'.cell q).ver = (s.cell q).ver := congrArg Tidword.ver (word q)
    by_cases eq : q = k
    · subst eq
      exact .write version (dirty_mine workers dirty)
    · refine .keep version (dirty_kept workers (by rw [clean]; simp)) ?_
      show (s'.table q).val = (s.table q).val
      rw [table, storeVal_of_ne eq]
  refine inv_move workers inv ?_ moved ?_ ?_
  · refine inv.exclusive.rearrange i (onlyAt workers) ?_ (by funext q; rw [word])
    show (s'.worker i).own = (s.worker i).own
    rw [workers, Function.update_self]
    exact same
  · intro q outside _
    have apart : q ≠ k := by
      rintro rfl
      exact outside mine
    rw [table, storeVal_of_ne apart]
  · exact good (fun r member => ((inv.good i).records r member).advance (moved r.key))

end Move

theorem inv_start (fresh : Fresh s) : Inv s := by
  refine ⟨.nothing fresh.free ?_, fun i => ⟨?_, ?_⟩⟩
  · intro i
    simp [Worker.own, Worker.holds, fresh.idle i]
  · simp [fresh.readSet i]
  · rw [Worker.Knows, fresh.idle i]
    exact ⟨fresh.readSet i, fresh.writeSet i⟩

theorem inv_call {req : ClientRequest} (inv : Inv s) (taken : s.call i req = some s') : Inv s' := by
  simp only [call, Option.bind_eq_bind, Option.ite_none_right_eq_some, Option.bind_eq_some_iff,
    Option.some.injEq] at taken
  obtain ⟨⟨here, apart⟩, w', next, rfl⟩ := taken
  have knows := (inv.good i).knows
  rw [Worker.Knows, here] at knows
  obtain ⟨noReads, noWrites⟩ := knows
  obtain ⟨good, holds, clean⟩ := nextRead_good s.table s.cell
    (w := { s.worker i with x := (s.worker i).x.begin, req := sorted req })
    (by simp [Recorded, TxnExecutor.begin, noReads])
    ⟨noWrites, by simp [TxnExecutor.begin, noReads], sorted_ne apart⟩ next
  refine inv_quiet rfl inv rfl (by simp [Worker.dirtyKey, here]) ⟨good, ?_, clean⟩
  rw [holds]
  simp [Worker.holds, here]

section Access

variable {beyondFrom beyondTo : List Byte} (inv : Inv s)
  (taken : s.access i beyondFrom beyondTo = some s')

include inv taken

private theorem inv_readLoad {key : BitVec 64} {rest : List (BitVec 64)}
    (here : (s.worker i).pc = .readLoad key rest) : Inv s' := by
  obtain ⟨records, knows⟩ := inv.good i
  simp only [access, here, Worker.Knows, Option.some.injEq] at taken knows
  have quiet : (s.worker i).dirtyKey = none := by simp [Worker.dirtyKey, here]
  have held : (s.worker i).holds = [] := by simp [Worker.holds, here]
  by_cases busy : (s.table key).tidword.lock = true
  · rw [if_pos busy] at taken
    subst taken
    exact inv_quiet rfl inv rfl quiet ⟨⟨records, knows⟩, held.symm, rfl⟩
  · rw [if_neg busy] at taken
    subst taken
    exact inv_quiet rfl inv rfl quiet
      ⟨⟨records, knows, by simpa using busy, le_refl _⟩, held.symm, rfl⟩

private theorem inv_readCopy {key : BitVec 64} {rest : List (BitVec 64)} {expected : Tidword}
    (here : (s.worker i).pc = .readCopy key rest expected) : Inv s' := by
  obtain ⟨records, knows⟩ := inv.good i
  simp only [access, here, Worker.Knows, Option.some.injEq] at taken knows
  obtain ⟨reading, free, seen⟩ := knows
  subst taken
  exact inv_quiet rfl inv rfl (by simp [Worker.dirtyKey, here])
    ⟨⟨records, reading, free, .take seen⟩, by simp [Worker.holds, here], rfl⟩

private theorem inv_readCheck {key : BitVec 64} {rest : List (BitVec 64)} {expected : Tidword}
    {val : Val}
    (here : (s.worker i).pc = .readCheck key rest expected val) : Inv s' := by
  obtain ⟨records, knows⟩ := inv.good i
  simp only [access, here, Worker.Knows] at taken knows
  obtain ⟨⟨empty, keys, apart⟩, free, snapshot⟩ := knows
  have quiet : (s.worker i).dirtyKey = none := by simp [Worker.dirtyKey, here]
  have held : (s.worker i).holds = [] := by simp [Worker.holds, here]
  by_cases same : expected = (s.table key).tidword
  · simp only [if_pos same, Option.bind_eq_bind, Option.bind_eq_some_iff,
      Option.some.injEq] at taken
    obtain ⟨w', next, rfl⟩ := taken
    have records' : Recorded s.cell ((s.worker i).x.readSet ++ [⟨key, val, expected⟩]) := by
      intro r member
      rcases List.mem_append.mp member with old | new
      · exact records r old
      · obtain rfl := List.mem_singleton.mp new
        exact snapshot
    let x : TxnExecutor :=
      { (s.worker i).x with readSet := (s.worker i).x.readSet ++ [⟨key, val, expected⟩] }
    obtain ⟨good, holds, clean⟩ := nextRead_good s.table s.cell
      (w := ⟨x, (s.worker i).req, .readCheck key rest expected val⟩) records'
      ⟨empty, by simpa [x] using keys, apart⟩ next
    exact inv_quiet rfl inv rfl quiet ⟨good, holds.trans held.symm, clean⟩
  · rw [if_neg same, Option.some.injEq] at taken
    by_cases busy : (s.table key).tidword.lock = true
    · rw [if_pos busy] at taken
      subst taken
      exact inv_quiet rfl inv rfl quiet ⟨⟨records, empty, keys, apart⟩, held.symm, rfl⟩
    · rw [if_neg busy] at taken
      subst taken
      exact inv_quiet rfl inv rfl quiet
        ⟨⟨records, ⟨empty, keys, apart⟩, by simpa using busy, le_refl _⟩, held.symm, rfl⟩

private theorem inv_lockLoad {locked rest : List WriteElement} {e : WriteElement}
    (here : (s.worker i).pc = .lockLoad locked e rest) : Inv s' := by
  obtain ⟨records, knows⟩ := inv.good i
  simp only [access, here, Worker.Knows, Option.some.injEq] at taken knows
  obtain ⟨locking, split, upTo⟩ := knows
  have quiet : (s.worker i).dirtyKey = none := by simp [Worker.dirtyKey, here]
  have held : (s.worker i).holds = locked := by simp [Worker.holds, here]
  by_cases busy : (s.table e.key).tidword.lock = true
  · rw [if_pos busy] at taken
    subst taken
    obtain ⟨good, holds, clean⟩ := fail_good s.table s.cell records locked
    exact inv_quiet rfl inv rfl quiet ⟨good, holds.trans held.symm, clean⟩
  · rw [if_neg busy] at taken
    subst taken
    exact inv_quiet rfl inv rfl quiet
      ⟨⟨records, locking, split, upTo, by simpa using busy⟩, held.symm, rfl⟩

private theorem inv_lockCas {locked rest : List WriteElement} {e : WriteElement} {expected : Tidword}
    (here : (s.worker i).pc = .lockCas locked e rest expected) : Inv s' := by
  obtain ⟨records, knows⟩ := inv.good i
  simp only [access, here, Worker.Knows] at taken knows
  obtain ⟨locking, split, upTo, free⟩ := knows
  have quiet : (s.worker i).dirtyKey = none := by simp [Worker.dirtyKey, here]
  have held : (s.worker i).holds = locked := by simp [Worker.holds, here]
  by_cases same : (s.table e.key).tidword = expected
  · rw [if_pos same, Option.some.injEq] at taken
    subst same
    subst taken
    have version : ∀ k, (storeTid s.table e.key { (s.table e.key).tidword with lock := true }
        k).tidword.ver = (s.table k).tidword.ver := by
      intro k
      by_cases eq : k = e.key
      · rw [eq, storeTid_self]
        rfl
      · rw [storeTid_of_ne eq]
    have next := fun cell (records : Recorded cell (s.worker i).x.readSet) => nextLock_locked _ cell
      (w := ⟨(s.worker i).x, (s.worker i).req, .lockCas locked e rest (s.table e.key).tidword⟩)
      records (locking.congr rfl rfl) split upTo version
      (Tidword.ver_le_max_left (s.worker i).x.maxWset (s.table e.key).tidword)
      (Tidword.ver_le_max_right (s.worker i).x.maxWset (s.table e.key).tidword)
    refine inv_acquire (s := s) (k := e.key) rfl inv rfl free quiet ?_
      (fun records' => (next _ records').1)
    rw [Worker.own, (next s.cell records).2, Worker.own, held, List.map_append]
    rfl
  · rw [if_neg same, Option.some.injEq] at taken
    by_cases busy : (s.table e.key).tidword.lock = true
    · rw [if_pos busy] at taken
      subst taken
      obtain ⟨good, holds, clean⟩ := fail_good s.table s.cell records locked
      exact inv_quiet rfl inv rfl quiet ⟨good, holds.trans held.symm, clean⟩
    · rw [if_neg busy] at taken
      subst taken
      exact inv_quiet rfl inv rfl quiet
        ⟨⟨records, locking, split, upTo, by simpa using busy⟩, held.symm, rfl⟩

private theorem inv_unlockLoad {rest : List WriteElement} {e : WriteElement}
    (here : (s.worker i).pc = .unlockLoad e rest) : Inv s' := by
  obtain ⟨records, -⟩ := inv.good i
  simp only [access, here, Option.some.injEq] at taken
  subst taken
  exact inv_quiet rfl inv rfl (by simp [Worker.dirtyKey, here])
    ⟨⟨records, rfl⟩, by simp [Worker.holds, here], rfl⟩

private theorem inv_unlockStore {rest : List WriteElement} {e : WriteElement} {desired : Tidword}
    (here : (s.worker i).pc = .unlockStore e rest desired) : Inv s' := by
  obtain ⟨records, knows⟩ := inv.good i
  simp only [access, here, Worker.Knows, Option.some.injEq] at taken knows
  subst taken
  have next := fun cell (records : Recorded cell (s.worker i).x.readSet) => nextUnlock_good
    (storeTid s.table e.key desired) cell (w := s.worker i) records rest
  have holds := (next s.cell records).2.1
  refine inv_release (s := s) rfl inv rfl (by rw [knows]) ?_
    (.inl ⟨by simp [Worker.dirtyKey, here], by rw [knows]; rfl⟩)
    (fun records' => (next _ records').1)
  rw [Worker.own, Worker.own, holds, Worker.holds, here, add_comm]
  rfl

private theorem inv_epochLoad (here : (s.worker i).pc = .epochLoad) : Inv s' := by
  obtain ⟨records, knows⟩ := inv.good i
  simp only [access, here, Worker.Knows, Option.some.injEq] at taken knows
  subst taken
  exact inv_quiet rfl inv rfl (by simp [Worker.dirtyKey, here])
    ⟨⟨records, knows⟩, by simp [Worker.holds, here], rfl⟩

private theorem inv_epochStore {epoch : BitVec 64} (here : (s.worker i).pc = .epochStore epoch) :
    Inv s' := by
  obtain ⟨records, knows⟩ := inv.good i
  simp only [access, here, Worker.Knows, Option.some.injEq] at taken knows
  obtain ⟨locking, upTo⟩ := knows
  subst taken
  obtain ⟨good, holds, clean⟩ := nextCheck_good s.table s.cell records locking upTo
    (List.nil_append _) (by simp [Worker.Unchanged])
  have held : (s.worker i).holds = (s.worker i).x.writeSet := by simp [Worker.holds, here]
  exact inv_quiet (s := s) rfl inv rfl (by simp [Worker.dirtyKey, here])
    ⟨good, holds.trans held.symm, clean⟩

private theorem inv_validate {r : ReadElement} {rest : List ReadElement}
    (here : (s.worker i).pc = .validate r rest) : Inv s' := by
  obtain ⟨records, knows⟩ := inv.good i
  simp only [access, here, Worker.Knows, Option.some.injEq] at taken knows
  obtain ⟨locking, upTo, passed, split, unchanged⟩ := knows
  have quiet : (s.worker i).dirtyKey = none := by simp [Worker.dirtyKey, here]
  have held : (s.worker i).holds = (s.worker i).x.writeSet := by simp [Worker.holds, here]
  by_cases rejected : (s.worker i).x.rejects r (s.table r.key).tidword = true
  · rw [if_pos rejected] at taken
    subst taken
    obtain ⟨good, holds, clean⟩ := fail_good s.table s.cell records (s.worker i).x.writeSet
    exact inv_quiet rfl inv rfl quiet ⟨good, holds.trans held.symm, clean⟩
  · rw [if_neg rejected] at taken
    subst taken
    have version : (s.table r.key).tidword.ver = r.tidword.ver := by
      rw [Tidword.ver_eq_iff]
      simp only [TxnExecutor.rejects, Bool.or_eq_true, bne_iff_ne, not_or, ne_eq,
        not_not] at rejected
      exact ⟨rejected.1.1.symm, rejected.1.2.symm⟩
    obtain ⟨good, holds, clean⟩ := nextCheck_passed s.table s.cell
      (w := ⟨(s.worker i).x, (s.worker i).req, .validate r rest⟩)
      (m := Tidword.max (s.worker i).x.maxRset (s.table r.key).tidword)
      records (locking.congr rfl rfl) upTo split unchanged version
    exact inv_quiet rfl inv rfl quiet ⟨good, holds.trans held.symm, clean⟩

private theorem inv_commitTid
    (newer : (s.worker i).x.maxWset.ver < ((s.worker i).x.commitTid (s.thLocalEpoch i)).ver)
    (here : (s.worker i).pc = .commitTid) : Inv s' := by
  obtain ⟨records, knows⟩ := inv.good i
  simp only [access, here, Worker.Knows, Option.some.injEq] at taken knows
  obtain ⟨locking, upTo, unchanged⟩ := knows
  have free := commitTid_lock (s.worker i).x (s.thLocalEpoch i)
  generalize (s.worker i).x.commitTid (s.thLocalEpoch i) = m at taken newer free
  subst taken
  have held : (s.worker i).holds = (s.worker i).x.writeSet := by simp [Worker.holds, here]
  let x : TxnExecutor := { (s.worker i).x with mrctid := m }
  obtain ⟨good, holds, clean⟩ := nextWrite_good s.table s.cell
    (w := ⟨x, (s.worker i).req, .commitTid⟩) records (locking.congr rfl rfl) free
    (fun e member => lt_of_le_of_lt (upTo e member) newer) (fun r member _ => unchanged r member)
  exact inv_quiet rfl inv rfl (by simp [Worker.dirtyKey, here])
    ⟨good, holds.trans held.symm, clean⟩

private theorem inv_writeCopy {rest : List WriteElement} {e : WriteElement} {maxtid : Tidword}
    (here : (s.worker i).pc = .writeCopy e rest maxtid) : Inv s' := by
  obtain ⟨records, knows⟩ := inv.good i
  simp only [access, here, Worker.Knows, Option.some.injEq] at taken knows
  obtain ⟨locking, free, newer, unchanged⟩ := knows
  subst taken
  have same : (s.worker i).own = Worker.own { s.worker i with pc := .writeStore e rest maxtid } := by
    simp [Worker.own, Worker.holds, here]
  refine inv_write (s := s) rfl inv rfl ?_ (by simp [Worker.dirtyKey, here]) same.symm rfl
    (fun records' => ⟨records', locking, free, fun d member => ?_, fun r member inside => ?_⟩)
  · simp [Worker.own, Worker.holds, here]
  · show (storeVal s.table e.key _ d.key).tidword.ver < _
    rw [storeVal_tidword]
    exact newer d member
  · show (storeVal s.table e.key _ r.key).tidword.ver = _
    rw [storeVal_tidword]
    exact unchanged r member inside

private theorem inv_writeStore {rest : List WriteElement} {e : WriteElement} {maxtid : Tidword}
    (here : (s.worker i).pc = .writeStore e rest maxtid) : Inv s' := by
  obtain ⟨records, knows⟩ := inv.good i
  simp only [access, here, Worker.Knows, Option.some.injEq] at taken knows
  obtain ⟨locking, free, newer, unchanged⟩ := knows
  subst taken
  -- the keys that the worker still holds are distinct from the one that it releases
  have distinct : ((e :: rest).map WriteElement.key).Nodup := by
    have own := inv.exclusive.own_nodup i
    rwa [Worker.own, Worker.holds, here, Multiset.coe_nodup] at own
  have apart : ∀ d ∈ rest, d.key ≠ e.key := fun d member same =>
    (List.nodup_cons.mp distinct).1 (same ▸ List.mem_map_of_mem member)
  have same : ∀ d ∈ rest, storeTid s.table e.key maxtid d.key = s.table d.key :=
    fun d member => storeTid_of_ne (apart d member) _
  have newer' : ∀ d ∈ rest,
      (storeTid s.table e.key maxtid d.key).tidword.ver < maxtid.ver := by
    intro d member
    rw [same d member]
    exact newer d (List.mem_cons_of_mem e member)
  have unchanged' : (s.worker i).UnchangedIn s.table rest :=
    fun r member inside => unchanged r member (List.mem_cons_of_mem _ inside)
  have next := fun cell (records : Recorded cell (s.worker i).x.readSet) => nextWrite_good _ cell
    records locking free newer' (unchanged'.frame same)
  have holds := (next s.cell records).2.1
  refine inv_release (s := s) rfl inv rfl free ?_
    (.inr ⟨by simp [Worker.dirtyKey, here], newer e List.mem_cons_self⟩)
    (fun records' => (next _ records').1)
  rw [Worker.own, Worker.own, holds, Worker.holds, here, add_comm]
  rfl

end Access

theorem inv_access {beyondFrom beyondTo : List Byte} (inv : Inv s)
    (newer : (s.worker i).pc = .commitTid →
      (s.worker i).x.maxWset.ver < ((s.worker i).x.commitTid (s.thLocalEpoch i)).ver)
    (taken : s.access i beyondFrom beyondTo = some s') : Inv s' := by
  cases here : (s.worker i).pc with
  | idle => simp [access, here] at taken
  | readLoad => exact inv_readLoad inv taken here
  | readCopy => exact inv_readCopy inv taken here
  | readCheck => exact inv_readCheck inv taken here
  | lockLoad => exact inv_lockLoad inv taken here
  | lockCas => exact inv_lockCas inv taken here
  | unlockLoad => exact inv_unlockLoad inv taken here
  | unlockStore => exact inv_unlockStore inv taken here
  | epochLoad => exact inv_epochLoad inv taken here
  | epochStore => exact inv_epochStore inv taken here
  | validate => exact inv_validate inv taken here
  | commitTid => exact inv_commitTid inv taken (newer here) here
  | writeCopy => exact inv_writeCopy inv taken here
  | writeStore => exact inv_writeStore inv taken here

theorem inv_step {a : ProcessAct W} (inv : Inv s) (taken : s.stepRoomy a = some s') : Inv s' := by
  obtain ⟨roomy, moved⟩ := stepRoomy_some.mp taken
  cases a with
  | transferWork i req => exact inv_call inv moved
  | access i beyondFrom beyondTo =>
    refine inv_access inv (fun here => commitTid_newer ?_ _) moved
    simpa [Process.roomy, here] using roomy
  | advanceEpoch =>
    obtain rfl := Option.some.inj moved
    exact ⟨inv.exclusive, inv.good⟩

theorem inv_run {s₀ s : Process W} {tr : List (ProcessAct W)} (fresh : Fresh s₀)
    (run : Run (Steps stepRoomy) s₀ tr s) : Inv s :=
  run.invariant (I := fun _ s => Inv s) (inv_start fresh)
    (fun _ _ _ _ _ inv taken => inv_step inv taken)

end Process

/-- The tuple still has the value and the version of the record. -/
def ReadElement.Current (table : Table) (r : ReadElement) : Prop :=
  (table r.key).val = r.val ∧ (table r.key).tidword.epoch = r.tidword.epoch ∧
    (table r.key).tidword.tid = r.tidword.tid

namespace Worker

variable (w : Worker)

/-- `validationPhase` has returned true, and `writePhase` has not returned. -/
def committing : Bool :=
  match w.pc with
  | .commitTid | .writeCopy _ _ _ | .writeStore _ _ _ => true
  | _ => false

def uncopied : List WriteElement :=
  match w.pc with
  | .commitTid => w.x.writeSet
  | .writeCopy e rest _ => e :: rest
  | .writeStore _ rest _ => rest
  | _ => []

/-- `validationPhase` has returned true, and `writePhase` has not copied a value yet. -/
def validated : Bool := w.committing && decide (w.uncopied = w.x.writeSet)

/-- The tuples whose new words `writePhase` has still to store. -/
def unreleased : List WriteElement := if w.committing then w.holds else []

end Worker

namespace Process

variable {W : Nat} {s : Process W} {i j : Fin W}

private theorem clean_of_own (inv : Inv s) {k : BitVec 64} (own : k ∈ (s.worker i).own)
    (mine : (s.worker i).dirtyKey ≠ some k) : ¬ (s.cell k).dirty := by
  rintro ⟨j, dirty⟩
  by_cases eq : j = i
  · subst eq
    exact mine dirty
  · exact inv.exclusive.disjoint (Ne.symm eq) own (mem_own_of_dirty dirty)

private theorem record_current (inv : Inv s) {r : ReadElement} (member : r ∈ (s.worker i).x.readSet)
    (own : r.key ∈ (s.worker i).own) (mine : (s.worker i).dirtyKey ≠ some r.key)
    (version : (s.table r.key).tidword.ver = r.tidword.ver) : r.Current s.table := by
  have value := ((inv.good i).records r member).current version (clean_of_own inv own mine)
  exact ⟨value, (Tidword.ver_eq_iff).mp version⟩

theorem uncopied_current (inv : Inv s) {r : ReadElement} (member : r ∈ (s.worker i).x.readSet)
    (inside : r.key ∈ (s.worker i).uncopied.map WriteElement.key) : r.Current s.table := by
  have knows := (inv.good i).knows
  have distinct := inv.exclusive.own_nodup i
  cases here : (s.worker i).pc with
  | commitTid =>
    simp only [Worker.Knows, Worker.uncopied, here] at knows inside
    refine record_current inv member ?_ (by simp [Worker.dirtyKey, here]) (knows.2.2 r member)
    simpa [Worker.own, Worker.holds, here] using inside
  | writeCopy e rest maxtid =>
    simp only [Worker.Knows, Worker.uncopied, here] at knows inside
    refine record_current inv member ?_ (by simp [Worker.dirtyKey, here])
      (knows.2.2.2 r member inside)
    simpa [Worker.own, Worker.holds, here] using inside
  | writeStore e rest maxtid =>
    simp only [Worker.Knows, Worker.uncopied, here] at knows inside
    simp only [Worker.own, Worker.holds, here, Multiset.coe_nodup, List.map_cons] at distinct
    have apart : e.key ≠ r.key := by
      intro same
      exact (List.nodup_cons.mp distinct).1 (same ▸ inside)
    refine record_current inv member ?_ (by simpa [Worker.dirtyKey, here] using apart)
      (knows.2.2.2 r member (List.mem_cons_of_mem _ inside))
    rw [Worker.own, Worker.holds, here, Multiset.mem_coe]
    exact List.mem_cons_of_mem _ inside
  | _ => simp [Worker.uncopied, here] at inside

theorem committing_locking (inv : Inv s) (busy : (s.worker i).committing = true) :
    (s.worker i).Locking := by
  have knows := (inv.good i).knows
  cases here : (s.worker i).pc with
  | commitTid | writeCopy | writeStore =>
    simp only [Worker.Knows, here] at knows
    exact knows.1
  | _ => simp [Worker.committing, here] at busy

/-- From a successful validation to its first copy, all that a worker has read is current; and no
two workers are between validation and the release of the same tuple. -/
theorem validation_protects {s₀ : Process W} {tr : List (ProcessAct W)} (fresh : Fresh s₀)
    (run : Run (Steps stepRoomy) s₀ tr s) :
    (∀ i, (s.worker i).validated = true → ∀ r ∈ (s.worker i).x.readSet, r.Current s.table) ∧
    (∀ i j, i ≠ j → ∀ e ∈ (s.worker i).unreleased, ∀ d ∈ (s.worker j).unreleased,
      e.key ≠ d.key) := by
  have inv := inv_run fresh run
  refine ⟨fun i validated r member => ?_, fun i j apart e mine d theirs same => ?_⟩
  · obtain ⟨busy, all⟩ := Bool.and_eq_true_iff.mp validated
    obtain ⟨e, entry, key⟩ := (committing_locking inv busy).written member
    refine uncopied_current inv member ?_
    rw [of_decide_eq_true all, ← key]
    exact List.mem_map_of_mem entry
  · have own : ∀ {w : Worker} {e : WriteElement}, e ∈ w.unreleased → e.key ∈ w.own := by
      intro w e member
      refine mem_own ?_
      rw [Worker.unreleased] at member
      split at member
      · exact member
      · simp at member
    have theirs' := own theirs
    rw [← same] at theirs'
    exact inv.exclusive.disjoint apart (own mine) theirs'

section Example

/-- Worker 0 moves 3 from account 1 to account 2, and stops where it has released account 1. Then
worker 1 moves 3 from account 1 to account 3, up to its validation. -/
def overlapTrace : List (ProcessAct 2) :=
  .transferWork 0 ⟨1, 2, 3, 0⟩ :: List.replicate 17 (.access 0 [] []) ++
    .transferWork 1 ⟨1, 3, 3, 0⟩ :: List.replicate 14 (.access 1 [] [])

theorem validation_protects_overlap :
    ∃ s, Run (Steps stepRoomy) (start (tableOf 5)) overlapTrace s ∧
      (s.worker 1).validated = true ∧ (s.worker 1).x.readSet ≠ [] ∧
      (∀ r ∈ (s.worker 1).x.readSet, r.Current s.table) ∧
      ∀ e ∈ (s.worker 0).unreleased, ∀ d ∈ (s.worker 1).unreleased, e.key ≠ d.key := by
  have done : (exec stepRoomy (start (tableOf 5)) overlapTrace).map (fun s => decide
      ((s.worker 1).validated = true ∧ (s.worker 1).x.readSet ≠ [])) = some true := by decide
  obtain ⟨s, run, holds⟩ := exec_reaches done
  obtain ⟨validated, some⟩ := of_decide_eq_true holds
  have protected' := validation_protects (start_fresh (fun _ => rfl)) run
  exact ⟨s, run, validated, some, protected'.1 1 validated, protected'.2 0 1 (by decide)⟩

/-- Both workers are between a successful validation and the end of `writePhase`, and both have
account 1 in their read and write sets. -/
theorem overlap_after_release :
    ∃ s, Run (Steps stepRoomy) (start (tableOf 5)) overlapTrace s ∧
      ∀ i, (s.worker i).committing = true ∧
        1 ∈ (s.worker i).x.readSet.map ReadElement.key ∧
        1 ∈ (s.worker i).x.writeSet.map WriteElement.key := by
  have done : (exec stepRoomy (start (tableOf 5)) overlapTrace).map (fun s => decide
      (∀ i, (s.worker i).committing = true ∧ 1 ∈ (s.worker i).x.readSet.map ReadElement.key ∧
        1 ∈ (s.worker i).x.writeSet.map WriteElement.key)) = some true := by decide
  obtain ⟨s, run, holds⟩ := exec_reaches done
  exact ⟨s, run, of_decide_eq_true holds⟩

end Example

end Process

end Raft2pl.Silo
