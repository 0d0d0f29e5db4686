/- What one step of a worker may do to the table and to the locks, also where tids wrap. -/

import Raft2pl.Silo.Knowledge
import Raft2pl.Lib.Run
import Raft2pl.Lib.Ownership

set_option autoImplicit false
set_option relaxedAutoImplicit false

namespace Raft2pl.Silo

open Lib (Run Steps Exclusive OnlyAt)

namespace Worker

variable (w : Worker)

def Sound (table : Table) : Prop :=
  match w.pc with
  | .idle => w.x.readSet = [] ∧ w.x.writeSet = []
  | .readLoad _ _ | .readCopy _ _ _ | .readCheck _ _ _ _ => w.x.status = .inFlight
  | .lockLoad locked e rest => w.x.status = .inFlight ∧ locked ++ e :: rest = w.x.writeSet
  | .lockCas locked e rest expected =>
      w.x.status = .inFlight ∧ locked ++ e :: rest = w.x.writeSet ∧ expected.lock = false
  | .epochLoad | .epochStore _ | .validate _ _ => w.x.status = .inFlight
  | .unlockLoad _ _ => w.x.status = .aborted
  | .unlockStore e _ desired =>
      w.x.status = .aborted ∧ desired = { (table e.key).tidword with lock := false }
  | .commitTid => w.x.status = .committed
  | .writeCopy _ _ maxtid | .writeStore _ _ maxtid =>
      w.x.status = .committed ∧ maxtid.lock = false

/-- A point that is reached with the given elements locked and the given last tid. -/
structure At (table : Table) (es : List WriteElement) (mrctid : Tidword) : Prop where
  sound : w.Sound table
  holds : w.holds = es
  mrctid : w.x.mrctid = mrctid
  returned : w.pc = .idle → w.x.status ≠ .inFlight

inductive Change (w w' : Worker) (table : Table) : Table → Prop
  | quiet (same : w'.own = w.own) : Change w w' table table
  | acquire {k : BitVec 64} (free : (table k).tidword.lock = false) (gain : w'.own = w.own + {k}) :
      Change w w' table (storeTid table k { (table k).tidword with lock := true })
  | release {k : BitVec 64} {t : Tidword} (free : t.lock = false) (loss : w.own = w'.own + {k})
      (plain : (∃ e rest, w.pc = .writeStore e rest t ∧ e.key = k) ∨
        t = { (table k).tidword with lock := false }) :
      Change w w' table (storeTid table k t)
  | write {k : BitVec 64} {v : Val} (mine : k ∈ w.own) (same : w'.own = w.own)
      (committing : ∃ e rest maxtid, w.pc = .writeCopy e rest maxtid) :
      Change w w' table (storeVal table k v)

structure Moves (w w' : Worker) (table table' : Table) : Prop where
  sound : w'.Sound table'
  change : Change w w' table table'
  mrctid : w.pc ≠ .commitTid → w'.x.mrctid = w.x.mrctid
  returned : w'.pc = .idle → w'.x.status ≠ .inFlight

section Control

variable {w} {w' : Worker} (table : Table)

private theorem nextUnlock_at (aborted : w.x.status = .aborted) (es : List WriteElement) :
    (w.nextUnlock es).At table es w.x.mrctid := by
  cases es with
  | nil =>
    refine ⟨⟨rfl, rfl⟩, rfl, rfl, fun _ => ?_⟩
    show w.x.status ≠ .inFlight
    rw [aborted]
    decide
  | cons e rest => exact ⟨aborted, rfl, rfl, fun idle => by cases idle⟩

private theorem fail_at (es : List WriteElement) : (w.fail es).At table es w.x.mrctid :=
  nextUnlock_at (w := { w with x := { w.x with status := .aborted } }) table rfl es

private theorem nextLock_at (inFlight : w.x.status = .inFlight) {locked rest : List WriteElement}
    (split : locked ++ rest = w.x.writeSet) :
    (w.nextLock locked rest).At table locked w.x.mrctid := by
  cases rest with
  | nil =>
    rw [List.append_nil] at split
    exact ⟨inFlight, split.symm, rfl, fun idle => by cases idle⟩
  | cons e rest => exact ⟨⟨inFlight, split⟩, rfl, rfl, fun idle => by cases idle⟩

private theorem nextLock_locked_at (inFlight : w.x.status = .inFlight)
    {locked rest : List WriteElement}
    {e : WriteElement} (split : locked ++ e :: rest = w.x.writeSet) (m : Tidword) :
    ({ w with x := { w.x with maxWset := m } }.nextLock (locked ++ [e]) rest).At table
      (locked ++ [e]) w.x.mrctid :=
  nextLock_at table (w := { w with x := { w.x with maxWset := m } }) inFlight (by simpa using split)

private theorem nextCheck_at (inFlight : w.x.status = .inFlight) (rest : List ReadElement) :
    (w.nextCheck rest).At table w.x.writeSet w.x.mrctid := by
  cases rest with
  | nil => exact ⟨rfl, rfl, rfl, fun idle => by cases idle⟩
  | cons r rest => exact ⟨inFlight, rfl, rfl, fun idle => by cases idle⟩

private theorem nextCheck_passed_at (inFlight : w.x.status = .inFlight) (rest : List ReadElement)
    (m : Tidword) :
    ({ w with x := { w.x with maxRset := m } }.nextCheck rest).At table w.x.writeSet w.x.mrctid :=
  nextCheck_at table (w := { w with x := { w.x with maxRset := m } }) inFlight rest

private theorem nextWrite_at (committed : w.x.status = .committed) {maxtid : Tidword}
    (free : maxtid.lock = false) (es : List WriteElement) :
    (w.nextWrite maxtid es).At table es w.x.mrctid := by
  cases es with
  | nil =>
    refine ⟨⟨rfl, rfl⟩, rfl, rfl, fun _ => ?_⟩
    show w.x.status ≠ .inFlight
    rw [committed]
    decide
  | cons e rest => exact ⟨⟨committed, free⟩, rfl, rfl, fun idle => by cases idle⟩

private theorem nextWrite_status (w : Worker) (maxtid : Tidword) (es : List WriteElement) :
    (w.nextWrite maxtid es).x.status = w.x.status := by
  cases es <;> rfl

private theorem nextRead_at (inFlight : w.x.status = .inFlight) {beyondFrom beyondTo : List Byte}
    {keys : List (BitVec 64)} (next : w.nextRead beyondFrom beyondTo keys = some w') :
    w'.At table [] w.x.mrctid := by
  induction keys with
  | nil =>
    simp only [nextRead, Option.bind_eq_bind, Option.bind_eq_some_iff, Option.some.injEq] at next
    obtain ⟨x, made, rfl⟩ := next
    obtain ⟨status, mrctid⟩ := transfer_frame made
    rw [← mrctid]
    exact nextLock_at (w := { w with x := { x with writeSet := sortWriteSet x.writeSet } }) table
      (status.trans inFlight) (List.nil_append _)
  | cons key rest ih =>
    rw [nextRead] at next
    split at next
    · exact ih next
    · obtain rfl := Option.some.inj next
      exact ⟨inFlight, rfl, rfl, fun idle => by cases idle⟩

variable {table}

theorem Sound.frame {table' : Table} (sound : w.Sound table)
    (kept : ∀ k ∈ w.own, table' k = table k) : w.Sound table' := by
  cases here : w.pc with
  | unlockStore e rest desired =>
    simp only [Sound, here] at sound ⊢
    rw [kept e.key (by simp [own, holds, here])]
    exact sound
  | _ =>
    simp only [Sound, here] at sound ⊢
    exact sound

end Control

end Worker

namespace Process

open Worker (At Change Moves)

variable {W : Nat} {s s' : Process W} {i : Fin W} {table table' : Table} {w w' : Worker}

private theorem moves_quiet (there : w'.At table w.holds w.x.mrctid) : Moves w w' table table := by
  refine ⟨there.sound, .quiet ?_, fun _ => there.mrctid, there.returned⟩
  rw [Worker.own, Worker.own, there.holds]

@[simp] theorem go_self (s : Process W) (i : Fin W) (w : Worker) : (s.go i w).worker i = w := by
  simp [go]

theorem go_of_ne (s : Process W) {i j : Fin W} (apart : j ≠ i) (w : Worker) :
    (s.go i w).worker j = s.worker j := by
  simp [go, apart]

private theorem goes {es : List WriteElement} (held : (s.worker i).holds = es)
    (there : w'.At s.table es (s.worker i).x.mrctid) :
    ∃ w'', (s.go i w').worker = Function.update s.worker i w'' ∧
      Moves (s.worker i) w'' s.table (s.go i w').table :=
  ⟨w', rfl, moves_quiet (held ▸ there)⟩

private theorem own_of_holds {es : List WriteElement} (holds : w.holds = es) :
    w.own = (es.map WriteElement.key : List (BitVec 64)) := by
  rw [Worker.own, holds]

theorem call_moves {req : ClientRequest} (taken : s.call i req = some s') :
    ∃ w', s'.worker = Function.update s.worker i w' ∧ s'.table = s.table ∧
      Moves (s.worker i) w' s.table s'.table ∧ w'.x.mrctid = (s.worker i).x.mrctid := by
  simp only [call, Option.bind_eq_bind, Option.ite_none_right_eq_some, Option.bind_eq_some_iff,
    Option.some.injEq] at taken
  obtain ⟨⟨here, -⟩, w', next, rfl⟩ := taken
  have there := Worker.nextRead_at s.table
    (w := { s.worker i with x := (s.worker i).x.begin, req := sorted req }) rfl next
  have held : (s.worker i).holds = [] := by simp [Worker.holds, here]
  exact ⟨w', rfl, rfl, moves_quiet (held ▸ there), there.mrctid⟩

section Access

variable {beyondFrom beyondTo : List Byte} (sound : (s.worker i).Sound s.table)
  (taken : s.access i beyondFrom beyondTo = some s')

include sound taken

private theorem moves_readLoad {key : BitVec 64} {rest : List (BitVec 64)}
    (here : (s.worker i).pc = .readLoad key rest) :
    ∃ w', s'.worker = Function.update s.worker i w' ∧
      Moves (s.worker i) w' s.table s'.table := by
  simp only [access, here, Worker.Sound, Option.some.injEq] at taken sound
  subst taken
  have held : (s.worker i).holds = [] := by simp [Worker.holds, here]
  apply goes held
  split
  · exact ⟨sound, rfl, rfl, fun idle => by cases idle⟩
  · exact ⟨sound, rfl, rfl, fun idle => by cases idle⟩

private theorem moves_readCopy {key : BitVec 64} {rest : List (BitVec 64)} {expected : Tidword}
    (here : (s.worker i).pc = .readCopy key rest expected) :
    ∃ w', s'.worker = Function.update s.worker i w' ∧
      Moves (s.worker i) w' s.table s'.table := by
  simp only [access, here, Worker.Sound, Option.some.injEq] at taken sound
  subst taken
  have held : (s.worker i).holds = [] := by simp [Worker.holds, here]
  exact goes held ⟨sound, rfl, rfl, fun idle => by cases idle⟩

private theorem moves_readCheck {key : BitVec 64} {rest : List (BitVec 64)} {expected : Tidword}
    {val : Val} (here : (s.worker i).pc = .readCheck key rest expected val) :
    ∃ w', s'.worker = Function.update s.worker i w' ∧
      Moves (s.worker i) w' s.table s'.table := by
  simp only [access, here, Worker.Sound] at taken sound
  have held : (s.worker i).holds = [] := by simp [Worker.holds, here]
  by_cases same : expected = (s.table key).tidword
  · simp only [if_pos same, Option.bind_eq_bind, Option.bind_eq_some_iff,
      Option.some.injEq] at taken
    obtain ⟨w', next, rfl⟩ := taken
    let x : TxnExecutor :=
      { (s.worker i).x with readSet := (s.worker i).x.readSet ++ [⟨key, val, expected⟩] }
    exact goes held (Worker.nextRead_at (w := ⟨x, (s.worker i).req, .readCheck key rest expected val⟩)
      s.table sound next)
  · rw [if_neg same, Option.some.injEq] at taken
    subst taken
    apply goes held
    split
    · exact ⟨sound, rfl, rfl, fun idle => by cases idle⟩
    · exact ⟨sound, rfl, rfl, fun idle => by cases idle⟩

private theorem moves_lockLoad {locked rest : List WriteElement} {e : WriteElement}
    (here : (s.worker i).pc = .lockLoad locked e rest) :
    ∃ w', s'.worker = Function.update s.worker i w' ∧
      Moves (s.worker i) w' s.table s'.table := by
  simp only [access, here, Worker.Sound, Option.some.injEq] at taken sound
  obtain ⟨inFlight, split⟩ := sound
  subst taken
  have held : (s.worker i).holds = locked := by simp [Worker.holds, here]
  apply goes held
  by_cases busy : (s.table e.key).tidword.lock = true
  · rw [if_pos busy]
    exact Worker.fail_at s.table locked
  · rw [if_neg busy]
    exact ⟨⟨inFlight, split, by simpa using busy⟩, rfl, rfl, fun idle => by cases idle⟩

private theorem moves_lockCas {locked rest : List WriteElement} {e : WriteElement}
    {expected : Tidword}
    (here : (s.worker i).pc = .lockCas locked e rest expected) :
    ∃ w', s'.worker = Function.update s.worker i w' ∧
      Moves (s.worker i) w' s.table s'.table := by
  simp only [access, here, Worker.Sound] at taken sound
  obtain ⟨inFlight, split, free⟩ := sound
  have held : (s.worker i).holds = locked := by simp [Worker.holds, here]
  by_cases same : (s.table e.key).tidword = expected
  · subst same
    rw [if_pos rfl, Option.some.injEq] at taken
    subst taken
    have there := Worker.nextLock_locked_at
      (storeTid s.table e.key { (s.table e.key).tidword with lock := true })
      (w := ⟨(s.worker i).x, (s.worker i).req, .lockCas locked e rest (s.table e.key).tidword⟩)
      inFlight split (.max (s.worker i).x.maxWset (s.table e.key).tidword)
    refine ⟨_, rfl, there.sound, .acquire free ?_, fun _ => there.mrctid, there.returned⟩
    rw [own_of_holds there.holds, own_of_holds held, List.map_append, ← Multiset.coe_add]
    rfl
  · rw [if_neg same, Option.some.injEq] at taken
    subst taken
    apply goes held
    by_cases busy : (s.table e.key).tidword.lock = true
    · rw [if_pos busy]
      exact Worker.fail_at s.table locked
    · rw [if_neg busy]
      exact ⟨⟨inFlight, split, by simpa using busy⟩, rfl, rfl, fun idle => by cases idle⟩

private theorem moves_unlockLoad {rest : List WriteElement} {e : WriteElement}
    (here : (s.worker i).pc = .unlockLoad e rest) :
    ∃ w', s'.worker = Function.update s.worker i w' ∧
      Moves (s.worker i) w' s.table s'.table := by
  simp only [access, here, Worker.Sound, Option.some.injEq] at taken sound
  subst taken
  have held : (s.worker i).holds = e :: rest := by simp [Worker.holds, here]
  exact goes held ⟨⟨sound, rfl⟩, rfl, rfl, fun idle => by cases idle⟩

private theorem moves_unlockStore {rest : List WriteElement} {e : WriteElement} {desired : Tidword}
    (here : (s.worker i).pc = .unlockStore e rest desired) :
    ∃ w', s'.worker = Function.update s.worker i w' ∧
      Moves (s.worker i) w' s.table s'.table := by
  simp only [access, here, Worker.Sound, Option.some.injEq] at taken sound
  obtain ⟨aborted, plain⟩ := sound
  subst taken
  have held : (s.worker i).holds = e :: rest := by simp [Worker.holds, here]
  have there := Worker.nextUnlock_at (storeTid s.table e.key desired) aborted rest
  refine ⟨_, rfl, there.sound, .release (by rw [plain]) ?_ (.inr plain), fun _ => there.mrctid,
    there.returned⟩
  rw [own_of_holds there.holds, own_of_holds held, add_comm]
  rfl

private theorem moves_epochStore {epoch : BitVec 64} (here : (s.worker i).pc = .epochStore epoch) :
    ∃ w', s'.worker = Function.update s.worker i w' ∧
      Moves (s.worker i) w' s.table s'.table := by
  simp only [access, here, Worker.Sound, Option.some.injEq] at taken sound
  subst taken
  have held : (s.worker i).holds = (s.worker i).x.writeSet := by simp [Worker.holds, here]
  exact goes held (Worker.nextCheck_at s.table sound _)

private theorem moves_validate {r : ReadElement} {rest : List ReadElement}
    (here : (s.worker i).pc = .validate r rest) :
    ∃ w', s'.worker = Function.update s.worker i w' ∧
      Moves (s.worker i) w' s.table s'.table := by
  simp only [access, here, Worker.Sound, Option.some.injEq] at taken sound
  subst taken
  have held : (s.worker i).holds = (s.worker i).x.writeSet := by simp [Worker.holds, here]
  apply goes held
  split
  · exact Worker.fail_at s.table _
  · exact Worker.nextCheck_passed_at (w := ⟨(s.worker i).x, (s.worker i).req, .validate r rest⟩)
      s.table sound rest (.max (s.worker i).x.maxRset (s.table r.key).tidword)

private theorem moves_commitTid (here : (s.worker i).pc = .commitTid) :
    ∃ w', s'.worker = Function.update s.worker i w' ∧
      Moves (s.worker i) w' s.table s'.table := by
  simp only [access, here, Worker.Sound, Option.some.injEq] at taken sound
  have free : ((s.worker i).x.commitTid (s.thLocalEpoch i)).lock = false := by
    simp only [TxnExecutor.commitTid]
  generalize (s.worker i).x.commitTid (s.thLocalEpoch i) = m at taken free
  subst taken
  have held : (s.worker i).holds = (s.worker i).x.writeSet := by simp [Worker.holds, here]
  let x : TxnExecutor := { (s.worker i).x with mrctid := m }
  have there := Worker.nextWrite_at (w := ⟨x, (s.worker i).req, .commitTid⟩) s.table sound free
    (s.worker i).x.writeSet
  refine ⟨_, rfl, there.sound, .quiet ?_, fun elsewhere => absurd here elsewhere, there.returned⟩
  rw [own_of_holds there.holds, own_of_holds held]

private theorem moves_writeCopy {rest : List WriteElement} {e : WriteElement} {maxtid : Tidword}
    (here : (s.worker i).pc = .writeCopy e rest maxtid) :
    ∃ w', s'.worker = Function.update s.worker i w' ∧
      Moves (s.worker i) w' s.table s'.table := by
  simp only [access, here, Worker.Sound, Option.some.injEq] at taken sound
  subst taken
  have held : (s.worker i).holds = e :: rest := by simp [Worker.holds, here]
  refine ⟨_, rfl, sound, .write ?_ ?_ ⟨e, rest, maxtid, here⟩, fun _ => rfl,
    fun idle => by cases idle⟩
  · rw [own_of_holds held]
    exact List.mem_cons_self
  · rw [own_of_holds held]
    rfl

private theorem moves_writeStore {rest : List WriteElement} {e : WriteElement} {maxtid : Tidword}
    (here : (s.worker i).pc = .writeStore e rest maxtid) :
    ∃ w', s'.worker = Function.update s.worker i w' ∧
      Moves (s.worker i) w' s.table s'.table := by
  simp only [access, here, Worker.Sound, Option.some.injEq] at taken sound
  obtain ⟨committed, free⟩ := sound
  subst taken
  have held : (s.worker i).holds = e :: rest := by simp [Worker.holds, here]
  have there := Worker.nextWrite_at (storeTid s.table e.key maxtid) committed free rest
  refine ⟨_, rfl, there.sound, .release free ?_ (.inl ⟨e, rest, here, rfl⟩), fun _ => there.mrctid,
    there.returned⟩
  rw [own_of_holds there.holds, own_of_holds held, add_comm]
  rfl

theorem access_moves : ∃ w', s'.worker = Function.update s.worker i w' ∧
    Moves (s.worker i) w' s.table s'.table := by
  cases here : (s.worker i).pc with
  | idle => simp [access, here] at taken
  | readLoad => exact moves_readLoad sound taken here
  | readCopy => exact moves_readCopy sound taken here
  | readCheck => exact moves_readCheck sound taken here
  | lockLoad => exact moves_lockLoad sound taken here
  | lockCas => exact moves_lockCas sound taken here
  | unlockLoad => exact moves_unlockLoad sound taken here
  | unlockStore => exact moves_unlockStore sound taken here
  | epochLoad =>
    simp only [access, here, Worker.Sound, Option.some.injEq] at taken sound
    subst taken
    have held : (s.worker i).holds = (s.worker i).x.writeSet := by simp [Worker.holds, here]
    exact goes held ⟨sound, rfl, rfl, fun idle => by cases idle⟩
  | epochStore => exact moves_epochStore sound taken here
  | validate => exact moves_validate sound taken here
  | commitTid => exact moves_commitTid sound taken here
  | writeCopy => exact moves_writeCopy sound taken here
  | writeStore => exact moves_writeStore sound taken here

theorem access_committed (committed : (s.worker i).x.status = .committed) :
    (s'.worker i).x.status = .committed := by
  cases here : (s.worker i).pc with
  | commitTid =>
    simp only [access, here, Option.some.injEq] at taken
    subst taken
    rw [go_self, Worker.nextWrite_status]
    exact committed
  | writeCopy e rest maxtid =>
    simp only [access, here, Option.some.injEq] at taken
    subst taken
    rw [go_self]
    exact committed
  | writeStore e rest maxtid =>
    simp only [access, here, Option.some.injEq] at taken
    subst taken
    rw [go_self, Worker.nextWrite_status]
    exact committed
  | idle => simp [access, here] at taken
  | _ => simp [Worker.Sound, here, committed] at sound

end Access

theorem ver_of_change (change : Change w w' table table')
    (elsewhere : ∀ e rest maxtid, w.pc ≠ .writeStore e rest maxtid) (k : BitVec 64) :
    (table' k).tidword.epoch = (table k).tidword.epoch ∧
      (table' k).tidword.tid = (table k).tidword.tid := by
  cases change with
  | quiet => exact ⟨rfl, rfl⟩
  | @acquire q =>
    by_cases eq : k = q
    · rw [eq, storeTid_self]
      exact ⟨rfl, rfl⟩
    · rw [storeTid_of_ne eq]
      exact ⟨rfl, rfl⟩
  | @release q t _ _ plain =>
    rcases plain with ⟨e, rest, here, -⟩ | rfl
    · exact absurd here (elsewhere e rest t)
    · by_cases eq : k = q
      · rw [eq, storeTid_self]
        exact ⟨rfl, rfl⟩
      · rw [storeTid_of_ne eq]
        exact ⟨rfl, rfl⟩
  | write =>
    rw [storeVal_tidword]
    exact ⟨rfl, rfl⟩

theorem plain_of_change (sound : w.Sound table) (change : Change w w' table table')
    (running : w.x.status ≠ .committed) (k : BitVec 64) :
    (table' k).val = (table k).val ∧ (table' k).tidword.epoch = (table k).tidword.epoch ∧
      (table' k).tidword.tid = (table k).tidword.tid := by
  have elsewhere : ∀ e rest maxtid, w.pc ≠ .writeStore e rest maxtid := by
    intro e rest maxtid here
    rw [Worker.Sound, here] at sound
    exact running sound.1
  refine ⟨?_, ver_of_change change elsewhere k⟩
  cases change with
  | quiet => rfl
  | acquire => exact storeTid_val _ _ _ _
  | release => exact storeTid_val _ _ _ _
  | write _ _ committing =>
    obtain ⟨e, rest, maxtid, here⟩ := committing
    rw [Worker.Sound, here] at sound
    exact absurd sound.1 running

/-- Every locked tuple is held by one worker, and all workers are at points that they have reached
rightly. -/
structure Held (s : Process W) : Prop where
  sound : ∀ i, (s.worker i).Sound s.table
  exclusive : Exclusive (fun i => (s.worker i).own) (fun k => (s.table k).tidword.lock)

theorem held_start (fresh : s.Fresh) : s.Held where
  sound := fun i => by
    rw [Worker.Sound, fresh.idle i]
    exact ⟨fresh.readSet i, fresh.writeSet i⟩
  exclusive := .nothing fresh.free (fun i => by simp [Worker.own, Worker.holds, fresh.idle i])

theorem kept_of_change {j : Fin W} {k : BitVec 64} (held : s.Held)
    (change : Change (s.worker i) w' s.table table') (apart : j ≠ i)
    (theirs : k ∈ (s.worker j).own) : table' k = s.table k := by
  have locked : (s.table k).tidword.lock = true := held.exclusive.held_of_mem theirs
  have notMine : k ∉ (s.worker i).own := held.exclusive.disjoint apart theirs
  cases change with
  | quiet => rfl
  | acquire free gain =>
    apply storeTid_of_ne
    rintro rfl
    rw [free] at locked
    exact Bool.false_ne_true locked
  | release free loss =>
    apply storeTid_of_ne
    rintro rfl
    exact notMine (by rw [loss]; simp)
  | write mine =>
    apply storeVal_of_ne
    rintro rfl
    exact notMine mine

section Move

variable (held : s.Held) (workers : s'.worker = Function.update s.worker i w')
  (moves : Moves (s.worker i) w' s.table s'.table)

include held workers moves

private theorem exclusive_moves : Exclusive (fun j => (s'.worker j).own)
    (fun k => (s'.table k).tidword.lock) := by
  have others : OnlyAt i (fun j => (s.worker j).own) (fun j => (s'.worker j).own) := by
    intro j apart
    show (s'.worker j).own = (s.worker j).own
    rw [workers, Function.update_of_ne apart]
  have mine : (s'.worker i).own = w'.own := by rw [workers, Function.update_self]
  have change := moves.change
  generalize s'.table = table' at change
  cases change with
  | quiet same => exact held.exclusive.rearrange i others (mine.trans same) rfl
  | @acquire k free gain =>
    refine held.exclusive.acquire free others (mine.trans gain) ?_
    funext q
    by_cases eq : q = k
    · rw [eq, storeTid_self, Function.update_self]
    · rw [storeTid_of_ne eq, Function.update_of_ne eq]
  | @release k t free loss =>
    refine held.exclusive.release (k := k) others (loss.trans (by rw [mine])) ?_
    funext q
    by_cases eq : q = k
    · rw [eq, storeTid_self, Function.update_self, free]
    · rw [storeTid_of_ne eq, Function.update_of_ne eq]
  | write _ same =>
    refine held.exclusive.rearrange i others (mine.trans same) ?_
    funext q
    rw [storeVal_tidword]

theorem held_moves : s'.Held where
  sound := by
    intro j
    by_cases eq : j = i
    · subst eq
      show (s'.worker j).Sound s'.table
      rw [workers, Function.update_self]
      exact moves.sound
    · show (s'.worker j).Sound s'.table
      rw [workers, Function.update_of_ne eq]
      exact (held.sound j).frame (fun k theirs => kept_of_change held moves.change eq theirs)
  exclusive := exclusive_moves held workers moves

end Move

theorem held_step {a : ProcessAct W} (held : s.Held) (taken : s.step a = some s') : s'.Held := by
  cases a with
  | transferWork i req =>
    obtain ⟨w', workers, -, moves, -⟩ := call_moves taken
    exact held_moves held workers moves
  | access i beyondFrom beyondTo =>
    obtain ⟨w', workers, moves⟩ := access_moves (held.sound i) taken
    exact held_moves held workers moves
  | advanceEpoch =>
    obtain rfl := Option.some.inj taken
    exact ⟨held.sound, held.exclusive⟩

theorem held_run {s₀ : Process W} {tr : List (ProcessAct W)} (fresh : s₀.Fresh)
    (run : Run (Steps step) s₀ tr s) : s.Held :=
  run.invariant (I := fun _ s => s.Held) (held_start fresh)
    (fun _ _ _ _ _ held taken => held_step held taken)

end Process

end Raft2pl.Silo
