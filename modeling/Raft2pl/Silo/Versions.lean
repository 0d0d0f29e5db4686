/- The tids that writePhase chooses, and how far they grow: commit tids over a whole run. -/

import Raft2pl.Silo.Validation
import Raft2pl.Silo.Steps
import Raft2pl.Silo.Memory
import Raft2pl.Silo.Solo

set_option autoImplicit false
set_option relaxedAutoImplicit false

namespace Raft2pl.Silo

open Lib (Run Steps Ascends exec exec_reaches)

namespace Tidword

private theorem roomy_congr {a b : Tidword} (same : a.ver = b.ver) : a.roomy = b.roomy := by
  rw [roomy, roomy, (ver_eq_iff.mp same).2]

private theorem ver_incTid_full {a : Tidword} (full : a.roomy = false) :
    a.incTid.ver = a.epoch.toNat * 2 ^ 29 := by
  have bound := a.tid.isLt
  have last : a.tid.toNat + 1 = 2 ^ 29 := by
    have reached : ¬ a.tid.toNat + 1 < 2 ^ 29 := of_decide_eq_false full
    omega
  have next : (a.tid + 1).toNat = 0 := by
    have one : (1 : BitVec 29).toNat = 1 := rfl
    rw [BitVec.toNat_add, one, last, Nat.mod_self]
  rw [ver, incTid, next]
  exact Nat.add_zero _

private theorem ver_incTid_le (a : Tidword) : a.incTid.ver ≤ a.ver + 1 := by
  cases room : a.roomy with
  | true => exact le_of_eq (ver_incTid room)
  | false =>
    rw [ver_incTid_full room, ver]
    omega

private theorem roomy_of_lt {a : Tidword} (newer : a.ver < a.incTid.ver) : a.roomy = true := by
  cases room : a.roomy with
  | true => rfl
  | false =>
    rw [ver_incTid_full room, ver] at newer
    omega

end Tidword

namespace TxnExecutor

variable (x : TxnExecutor)

def top : Tidword := .max (.max x.maxWset x.maxRset) x.mrctid

def rises (epoch : BitVec 64) : Bool :=
  x.top.roomy || decide (x.top.epoch.toNat < (epoch.setWidth 32).toNat)

private theorem ver_top : x.top.ver = max (max x.maxWset.ver x.maxRset.ver) x.mrctid.ver := by
  rw [top, Tidword.ver_max, Tidword.ver_max]

private theorem ver_commitTid (epoch : BitVec 64) :
    (x.commitTid epoch).ver = max (max (Tidword.max x.maxWset x.maxRset).incTid.ver
      x.mrctid.incTid.ver) ((epoch.setWidth 32).toNat * 2 ^ 29) := by
  have marks : ∀ t : Tidword, Tidword.ver { t with lock := false, latest := true } = t.ver :=
    fun _ => rfl
  have third : Tidword.ver { Tidword.zero with epoch := epoch.setWidth 32 } =
      (epoch.setWidth 32).toNat * 2 ^ 29 := by
    simp [Tidword.ver, Tidword.zero]
  rw [commitTid, marks, Tidword.ver_max, Tidword.ver_max, third]

private theorem commitTid_cases (epoch : BitVec 64) :
    (x.commitTid epoch).ver = (Tidword.max x.maxWset x.maxRset).incTid.ver ∨
      (x.commitTid epoch).ver = x.mrctid.incTid.ver ∨
      (x.commitTid epoch).ver = (epoch.setWidth 32).toNat * 2 ^ 29 := by
  have largest := ver_commitTid x epoch
  omega

variable {x}

/-- The chosen tid is newer than all that `writePhase` looks at exactly if the newest of these words
has a tid that can be incremented or an earlier epoch. -/
theorem top_lt_commitTid {epoch : BitVec 64} :
    x.top.ver < (x.commitTid epoch).ver ↔ x.rises epoch = true := by
  have sets : (Tidword.max x.maxWset x.maxRset).ver ≤ x.top.ver := Tidword.ver_le_max_left _ _
  have own : x.mrctid.ver ≤ x.top.ver := Tidword.ver_le_max_right _ _
  -- an increment reaches beyond the newest word only from the newest word, without wrapping
  have grown : ∀ t : Tidword, t.ver ≤ x.top.ver → x.top.ver < t.incTid.ver → x.top.roomy = true := by
    intro t below newer
    have small := Tidword.ver_incTid_le t
    have same : t.ver = x.top.ver := by omega
    rw [← Tidword.roomy_congr same]
    rw [← same] at newer
    exact Tidword.roomy_of_lt newer
  rw [rises, Bool.or_eq_true, decide_eq_true_eq]
  constructor
  · intro newer
    rcases commitTid_cases x epoch with eq | eq | eq
    · rw [eq] at newer
      exact .inl (grown _ sets newer)
    · rw [eq] at newer
      exact .inl (grown _ own newer)
    · right
      rw [eq, Tidword.ver] at newer
      omega
  · have largest := ver_commitTid x epoch
    rintro (room | early)
    · have next := Tidword.ver_incTid room
      rcases Tidword.max_choice (Tidword.max x.maxWset x.maxRset) x.mrctid with eq | eq
      · rw [top, eq] at next ⊢
        omega
      · rw [top, eq] at next ⊢
        omega
    · have bound := x.top.tid.isLt
      rw [Tidword.ver]
      omega

private theorem commitTid_newer_iff {epoch : BitVec 64} :
    (x.maxWset.ver < (x.commitTid epoch).ver ∧ x.maxRset.ver < (x.commitTid epoch).ver ∧
      x.mrctid.ver < (x.commitTid epoch).ver) ↔ x.rises epoch = true := by
  rw [← top_lt_commitTid, ver_top]
  constructor
  · rintro ⟨written, read, last⟩
    exact Nat.max_lt.mpr ⟨Nat.max_lt.mpr ⟨written, read⟩, last⟩
  · intro newer
    obtain ⟨sets, last⟩ := Nat.max_lt.mp newer
    exact ⟨(Nat.max_lt.mp sets).1, (Nat.max_lt.mp sets).2, last⟩

private theorem ver_commitTid_next {epoch : BitVec 64} (room : x.top.roomy = true)
    (late : (epoch.setWidth 32).toNat * 2 ^ 29 ≤ x.top.ver) :
    (x.commitTid epoch).ver = x.top.ver + 1 := by
  have newer := top_lt_commitTid.mpr (show x.rises epoch = true by rw [rises, room, Bool.true_or])
  have sets : (Tidword.max x.maxWset x.maxRset).ver ≤ x.top.ver := Tidword.ver_le_max_left _ _
  have own : x.mrctid.ver ≤ x.top.ver := Tidword.ver_le_max_right _ _
  rcases commitTid_cases x epoch with eq | eq | eq
  · have step := Tidword.ver_incTid_le (Tidword.max x.maxWset x.maxRset)
    omega
  · have step := Tidword.ver_incTid_le x.mrctid
    omega
  · omega

end TxnExecutor

/-- A commit: the worker, the tid that `writePhase` has chosen, the words in the read set, and the
words of the tuples in the write set at that time. -/
structure Commit (W : Nat) where
  worker : Fin W
  tid : Tidword
  read : List (BitVec 64 × Tidword)
  written : List (BitVec 64 × Tidword)

/-- The process, its commits, and the words that `writePhase` has stored in each tuple. -/
structure Chronicle (W : Nat) where
  process : Process W
  commits : List (Commit W)
  stored : BitVec 64 → List Tidword

def Process.rises {W : Nat} (s : Process W) : ProcessAct W → Bool
  | .access i _ _ => (s.worker i).pc != .commitTid || (s.worker i).x.rises (s.thLocalEpoch i)
  | _ => true

namespace Chronicle

variable {W : Nat}

def note (g : Chronicle W) (i : Fin W) (s : Process W) : Chronicle W :=
  let w := g.process.worker i
  match w.pc with
  | .commitTid =>
      let c : Commit W := ⟨i, (s.worker i).x.mrctid,
        w.x.readSet.map (fun r => (r.key, r.tidword)),
        w.x.writeSet.map (fun e => (e.key, (g.process.table e.key).tidword))⟩
      { g with process := s, commits := g.commits ++ [c] }
  | .writeStore e _ maxtid =>
      { g with
        process := s
        stored := Function.update g.stored e.key (g.stored e.key ++ [maxtid]) }
  | _ => { g with process := s }

def step (g : Chronicle W) (a : ProcessAct W) : Option (Chronicle W) :=
  (g.process.stepWhole a).map (fun s => match a with
    | .access i _ _ => g.note i s
    | _ => { g with process := s })

/-- The steps that rise, of calls whose strings fit. -/
def stepRising (g : Chronicle W) (a : ProcessAct W) : Option (Chronicle W) :=
  if g.process.fits a && g.process.rises a then g.step a else none

@[simp] theorem note_process (g : Chronicle W) (i : Fin W) (s : Process W) :
    (g.note i s).process = s := by
  cases here : (g.process.worker i).pc <;> simp only [note, here]

private theorem stepRising_some {g g' : Chronicle W} {a : ProcessAct W} :
    g.stepRising a = some g' ↔
      (g.process.fits a = true ∧ g.process.rises a = true) ∧ g.step a = some g' := by
  rw [stepRising, Option.ite_none_right_eq_some, Bool.and_eq_true]

/-- Nothing has happened yet. -/
structure Fresh (g : Chronicle W) : Prop where
  process : g.process.Fresh
  commits : g.commits = []
  stored : ∀ k, g.stored k = []

def chosen (g : Chronicle W) (i : Fin W) : List Nat :=
  (g.commits.filter (fun c => c.worker = i)).map (fun c => c.tid.ver)

end Chronicle

namespace Worker

def writing (w : Worker) : Option (List WriteElement × Tidword) :=
  match w.pc with
  | .writeCopy e rest maxtid | .writeStore e rest maxtid => some (e :: rest, maxtid)
  | _ => none

section Control

variable {w w' : Worker}

private theorem nextUnlock_writing (es : List WriteElement) : (w.nextUnlock es).writing = none := by
  cases es <;> rfl

private theorem nextLock_writing (locked es : List WriteElement) :
    (w.nextLock locked es).writing = none := by
  cases es <;> rfl

private theorem nextCheck_writing (rs : List ReadElement) : (w.nextCheck rs).writing = none := by
  cases rs <;> rfl

private theorem nextRead_writing {beyondFrom beyondTo : List Byte} {keys : List (BitVec 64)}
    (next : w.nextRead beyondFrom beyondTo keys = some w') : w'.writing = none := by
  induction keys with
  | nil =>
    simp only [nextRead, Option.bind_eq_bind, Option.bind_eq_some_iff, Option.some.injEq] at next
    obtain ⟨x, -, rfl⟩ := next
    exact nextLock_writing [] _
  | cons key rest ih =>
    rw [nextRead] at next
    split at next
    · exact ih next
    · obtain rfl := Option.some.inj next
      rfl

private theorem nextWrite_mrctid (maxtid : Tidword) (es : List WriteElement) :
    (w.nextWrite maxtid es).x.mrctid = w.x.mrctid := by
  cases es <;> rfl

private theorem nextWrite_writing {maxtid : Tidword} {es fs : List WriteElement} {t : Tidword}
    (here : (w.nextWrite maxtid es).writing = some (fs, t)) : fs = es ∧ t = maxtid := by
  cases es with
  | nil => cases here
  | cons e rest =>
    obtain ⟨rfl, rfl⟩ := Prod.mk.inj (Option.some.inj here)
    exact ⟨rfl, rfl⟩

end Control

end Worker

namespace Process

variable {W : Nat} {s s' : Process W} {i : Fin W} {beyondFrom beyondTo : List Byte}

private theorem access_writing (taken : s.access i beyondFrom beyondTo = some s')
    (before : (s.worker i).writing = none) (elsewhere : (s.worker i).pc ≠ .commitTid) :
    (s'.worker i).writing = none := by
  cases here : (s.worker i).pc with
  | idle => simp [access, here] at taken
  | commitTid => exact absurd here elsewhere
  | writeCopy | writeStore => simp [Worker.writing, here] at before
  | readLoad key rest =>
    simp only [access, here, Option.some.injEq] at taken
    subst taken
    rw [go_self]
    split <;> rfl
  | readCheck key rest expected val =>
    simp only [access, here] at taken
    split at taken
    · simp only [Option.bind_eq_bind, Option.bind_eq_some_iff, Option.some.injEq] at taken
      obtain ⟨w', next, rfl⟩ := taken
      rw [go_self]
      exact Worker.nextRead_writing next
    · obtain rfl := Option.some.inj taken
      rw [go_self]
      split <;> rfl
  | lockLoad locked e rest =>
    simp only [access, here, Option.some.injEq] at taken
    subst taken
    rw [go_self]
    split
    · exact Worker.nextUnlock_writing locked
    · rfl
  | lockCas locked e rest expected =>
    simp only [access, here] at taken
    split at taken
    · obtain rfl := Option.some.inj taken
      rw [go_self]
      exact Worker.nextLock_writing _ rest
    · obtain rfl := Option.some.inj taken
      rw [go_self]
      split
      · exact Worker.nextUnlock_writing locked
      · rfl
  | unlockStore e rest desired =>
    simp only [access, here, Option.some.injEq] at taken
    subst taken
    rw [go_self]
    exact Worker.nextUnlock_writing rest
  | epochStore epoch =>
    simp only [access, here, Option.some.injEq] at taken
    subst taken
    rw [go_self]
    exact Worker.nextCheck_writing _
  | validate r rest =>
    simp only [access, here, Option.some.injEq] at taken
    subst taken
    rw [go_self]
    split
    · exact Worker.nextUnlock_writing _
    · exact Worker.nextCheck_writing rest
  | _ =>
    simp only [access, here, Option.some.injEq] at taken
    subst taken
    rw [go_self]
    rfl

end Process

namespace Chronicle

variable {W : Nat}

structure Rising (g₀ g : Chronicle W) : Prop where
  inv : g.process.Inv
  held : g.process.Held
  commits : ∀ c ∈ g.commits, ∀ p ∈ c.read ++ c.written, p.2.ver < c.tid.ver
  chosen : ∀ i, Ascends (g₀.process.worker i).x.mrctid.ver (g.chosen i)
    (g.process.worker i).x.mrctid.ver
  stored : ∀ k, Ascends (g₀.process.table k).tidword.ver ((g.stored k).map Tidword.ver)
    (g.process.table k).tidword.ver
  writing : ∀ i es maxtid, (g.process.worker i).writing = some (es, maxtid) →
    ∃ c ∈ g.commits, c.tid = maxtid ∧ ∀ e ∈ es, e.key ∈ c.written.map Prod.fst
  origin : ∀ k, ∀ t ∈ g.stored k, ∃ c ∈ g.commits, c.tid = t ∧ k ∈ c.written.map Prod.fst

section Step

open Process

variable {g₀ g g' : Chronicle W} {s' : Process W} {i : Fin W}

private theorem rising_start (fresh : g.Fresh) : Rising g g where
  inv := inv_start fresh.process
  held := held_start fresh.process
  commits := by simp [fresh.commits]
  chosen := fun i => by
    rw [chosen, fresh.commits]
    exact .nil _
  stored := fun k => by
    rw [fresh.stored k]
    exact .nil _
  writing := fun i es maxtid here => by simp [Worker.writing, fresh.process.idle i] at here
  origin := fun k t member => by simp [fresh.stored k] at member

private theorem rising_frame (rising : Rising g₀ g) (inv : s'.Inv) (held : s'.Held)
    (version : ∀ k, (s'.table k).tidword.ver = (g.process.table k).tidword.ver)
    (last : ∀ i, (s'.worker i).x.mrctid = (g.process.worker i).x.mrctid)
    (writing : ∀ i, (s'.worker i).writing = none ∨
      (s'.worker i).writing = (g.process.worker i).writing) :
    Rising g₀ { g with process := s' } where
  inv := inv
  held := held
  commits := rising.commits
  chosen := fun i => by
    show Ascends _ (g.chosen i) (s'.worker i).x.mrctid.ver
    rw [last i]
    exact rising.chosen i
  stored := fun k => by
    show Ascends _ _ (s'.table k).tidword.ver
    rw [version k]
    exact rising.stored k
  writing := fun i es maxtid here => by
    rcases writing i with none | same
    · rw [none] at here
      cases here
    · rw [same] at here
      exact rising.writing i es maxtid here
  origin := rising.origin

private theorem rising_call {req : ClientRequest} (rising : Rising g₀ g)
    (taken : g.process.call i req = some s') : Rising g₀ { g with process := s' } := by
  obtain ⟨w', workers, table, moves, mrctid⟩ := call_moves taken
  have mine : s'.worker i = w' := by rw [workers, Function.update_self]
  have others : ∀ j, j ≠ i → s'.worker j = g.process.worker j := by
    intro j apart
    rw [workers, Function.update_of_ne apart]
  refine rising_frame rising (inv_call rising.inv taken)
    (held_moves rising.held workers moves) (fun k => by rw [table]) (fun j => ?_) (fun j => ?_)
  · by_cases eq : j = i
    · rw [eq, mine, mrctid]
    · rw [others j eq]
  · by_cases eq : j = i
    · left
      subst eq
      simp only [call, Option.bind_eq_bind, Option.ite_none_right_eq_some, Option.bind_eq_some_iff,
        Option.some.injEq] at taken
      obtain ⟨-, w', next, rfl⟩ := taken
      rw [go_self]
      exact Worker.nextRead_writing next
    · exact .inr (by rw [others j eq])

section Chosen

variable (g) (s') {c : Commit W}

private theorem chosen_mine (mine : c.worker = i) :
    chosen { g with process := s', commits := g.commits ++ [c] } i = g.chosen i ++ [c.tid.ver] := by
  simp [chosen, mine]

private theorem chosen_other (other : c.worker ≠ i) :
    chosen { g with process := s', commits := g.commits ++ [c] } i = g.chosen i := by
  simp [chosen, other]

end Chosen

private theorem commit_newest {s : Process W} {n : Nat} (inv : s.Inv)
    (here : (s.worker i).pc = .commitTid) (newer : (s.worker i).x.maxWset.ver < n) :
    ∀ p ∈ (s.worker i).x.readSet.map (fun r => (r.key, r.tidword)) ++
      (s.worker i).x.writeSet.map (fun e => (e.key, (s.table e.key).tidword)), p.2.ver < n := by
  have knows := (inv.good i).knows
  simp only [Worker.Knows, here] at knows
  obtain ⟨locking, upTo, unchanged⟩ := knows
  intro p member
  rcases List.mem_append.mp member with read | wrote
  · obtain ⟨r, record, rfl⟩ := List.mem_map.mp read
    obtain ⟨e, entry, key⟩ := locking.written record
    calc r.tidword.ver = (s.table e.key).tidword.ver := by rw [key, unchanged r record]
      _ ≤ (s.worker i).x.maxWset.ver := upTo e entry
      _ < n := newer
  · obtain ⟨e, entry, rfl⟩ := List.mem_map.mp wrote
    exact lt_of_le_of_lt (upTo e entry) newer

section Access

variable {beyondFrom beyondTo : List Byte} (rising : Rising g₀ g)
  (rises : g.process.rises (.access i beyondFrom beyondTo) = true)
  (taken : g.process.access i beyondFrom beyondTo = some s')

include rising rises taken

private theorem inv_rising : s'.Inv := by
  refine inv_access rising.inv (fun here => ?_) taken
  have rises' : (g.process.worker i).x.rises (g.process.thLocalEpoch i) = true := by
    simpa [Process.rises, here] using rises
  exact (TxnExecutor.commitTid_newer_iff.mpr rises').1

omit rising in
private theorem access_commit (here : (g.process.worker i).pc = .commitTid) :
    ∃ m : Tidword, (g.process.worker i).x.maxWset.ver < m.ver ∧
      (g.process.worker i).x.mrctid.ver < m.ver ∧
      s' = g.process.go i (Worker.nextWrite
        ⟨{ (g.process.worker i).x with mrctid := m }, (g.process.worker i).req, .commitTid⟩ m
        (g.process.worker i).x.writeSet) := by
  have rises' : (g.process.worker i).x.rises (g.process.thLocalEpoch i) = true := by
    simpa [Process.rises, here] using rises
  obtain ⟨written, -, last⟩ := TxnExecutor.commitTid_newer_iff.mpr rises'
  simp only [access, here, Option.some.injEq] at taken
  exact ⟨_, written, last, taken.symm⟩

private theorem rising_commit (here : (g.process.worker i).pc = .commitTid) :
    Rising g₀ (g.note i s') := by
  have inv := inv_rising rising rises taken
  have held : s'.Held := held_step rising.held (a := .access i beyondFrom beyondTo) taken
  obtain ⟨m, written, last, shape⟩ := access_commit rises taken here
  have mrctid : (s'.worker i).x.mrctid = m := by rw [shape, go_self, Worker.nextWrite_mrctid]
  have others : ∀ j, j ≠ i → s'.worker j = g.process.worker j := by
    intro j apart
    rw [shape, go_of_ne _ apart]
  have table : s'.table = g.process.table := by rw [shape]; rfl
  let c : Commit W := ⟨i, m, (g.process.worker i).x.readSet.map (fun r => (r.key, r.tidword)),
    (g.process.worker i).x.writeSet.map (fun e => (e.key, (g.process.table e.key).tidword))⟩
  have noted : g.note i s' = { g with process := s', commits := g.commits ++ [c] } := by
    simp only [note, here, mrctid, c]
  rw [noted]
  refine ⟨inv, held, ?_, fun j => ?_, fun k => ?_, fun j es maxtid now => ?_, fun k t member => ?_⟩
  · intro d member
    rcases List.mem_append.mp member with old | new
    · exact rising.commits d old
    · rw [List.mem_singleton.mp new]
      exact commit_newest rising.inv here written
  · show Ascends _ _ (s'.worker j).x.mrctid.ver
    by_cases eq : j = i
    · subst eq
      rw [chosen_mine g s' rfl, mrctid]
      exact (rising.chosen j).push last
    · rw [chosen_other g s' (Ne.symm eq), others j eq]
      exact rising.chosen j
  · show Ascends _ _ (s'.table k).tidword.ver
    rw [table]
    exact rising.stored k
  · by_cases eq : j = i
    · subst eq
      rw [shape, go_self] at now
      obtain ⟨rfl, rfl⟩ := Worker.nextWrite_writing now
      refine ⟨c, by simp, rfl, fun e entry => ?_⟩
      exact List.mem_map_of_mem (List.mem_map_of_mem entry)
    · rw [others j eq] at now
      obtain ⟨d, member, rest⟩ := rising.writing j es maxtid now
      exact ⟨d, List.mem_append_left _ member, rest⟩
  · obtain ⟨d, old, rest⟩ := rising.origin k t member
    exact ⟨d, List.mem_append_left _ old, rest⟩

private theorem rising_store {e : WriteElement} {rest : List WriteElement} {maxtid : Tidword}
    (here : (g.process.worker i).pc = .writeStore e rest maxtid) : Rising g₀ (g.note i s') := by
  have inv := inv_rising rising rises taken
  have held : s'.Held := held_step rising.held (a := .access i beyondFrom beyondTo) taken
  have knows := (rising.inv.good i).knows
  simp only [Worker.Knows, here] at knows
  obtain ⟨-, -, newer, -⟩ := knows
  have before : (g.process.worker i).writing = some (e :: rest, maxtid) := by
    simp [Worker.writing, here]
  obtain ⟨c, member, tid, inside⟩ := rising.writing i _ maxtid before
  have shape : s' = { g.process with table := storeTid g.process.table e.key maxtid }.go i
      ((g.process.worker i).nextWrite maxtid rest) := by
    simp only [access, here, Option.some.injEq] at taken
    exact taken.symm
  have others : ∀ j, j ≠ i → s'.worker j = g.process.worker j := by
    intro j apart
    rw [shape, go_of_ne _ apart]
  have table : s'.table = storeTid g.process.table e.key maxtid := by rw [shape]; rfl
  have noted : g.note i s' = { g with
      process := s'
      stored := Function.update g.stored e.key (g.stored e.key ++ [maxtid]) } := by
    simp only [note, here]
  rw [noted]
  refine ⟨inv, held, rising.commits, fun j => ?_, fun k => ?_, fun j es t now => ?_,
    fun k t entry => ?_⟩
  · show Ascends _ (g.chosen j) (s'.worker j).x.mrctid.ver
    by_cases eq : j = i
    · rw [eq, shape, go_self, Worker.nextWrite_mrctid]
      exact rising.chosen i
    · rw [others j eq]
      exact rising.chosen j
  · show Ascends _ ((Function.update g.stored _ _ k).map _) (s'.table k).tidword.ver
    rw [table]
    by_cases eq : k = e.key
    · subst eq
      rw [Function.update_self, storeTid_self, List.map_append]
      exact (rising.stored e.key).push (newer e List.mem_cons_self)
    · rw [Function.update_of_ne eq, storeTid_of_ne eq]
      exact rising.stored k
  · by_cases eq : j = i
    · subst eq
      rw [shape, go_self] at now
      obtain ⟨rfl, rfl⟩ := Worker.nextWrite_writing now
      exact ⟨c, member, tid, fun d later => inside d (List.mem_cons_of_mem e later)⟩
    · rw [others j eq] at now
      exact rising.writing j es t now
  · change t ∈ Function.update g.stored _ _ k at entry
    by_cases eq : k = e.key
    · subst eq
      rw [Function.update_self] at entry
      rcases List.mem_append.mp entry with old | new
      · exact rising.origin e.key t old
      · rw [List.mem_singleton.mp new]
        exact ⟨c, member, tid, inside e List.mem_cons_self⟩
    · rw [Function.update_of_ne eq] at entry
      exact rising.origin k t entry

private theorem rising_access : Rising g₀ (g.note i s') := by
  by_cases commit : (g.process.worker i).pc = .commitTid
  · exact rising_commit rising rises taken commit
  by_cases store : ∃ e rest maxtid, (g.process.worker i).pc = .writeStore e rest maxtid
  · obtain ⟨e, rest, maxtid, here⟩ := store
    exact rising_store rising rises taken here
  have elsewhere : ∀ e rest maxtid, (g.process.worker i).pc ≠ .writeStore e rest maxtid :=
    fun e rest maxtid here => store ⟨e, rest, maxtid, here⟩
  have noted : g.note i s' = { g with process := s' } := by
    cases here : (g.process.worker i).pc with
    | commitTid => exact absurd here commit
    | writeStore e rest maxtid => exact absurd here (elsewhere e rest maxtid)
    | _ => simp only [note, here]
  obtain ⟨w', workers, moves⟩ := access_moves (rising.held.sound i) taken
  have mine : s'.worker i = w' := by rw [workers, Function.update_self]
  have others : ∀ j, j ≠ i → s'.worker j = g.process.worker j := by
    intro j apart
    rw [workers, Function.update_of_ne apart]
  rw [noted]
  refine rising_frame rising (inv_rising rising rises taken)
    (held_moves rising.held workers moves) (fun k => ?_) (fun j => ?_) (fun j => ?_)
  · exact Tidword.ver_eq_iff.mpr (ver_of_change moves.change elsewhere k)
  · by_cases eq : j = i
    · rw [eq, mine, moves.mrctid commit]
    · rw [others j eq]
  · by_cases eq : j = i
    · subst eq
      cases here : (g.process.worker j).pc with
      | writeCopy e rest maxtid =>
        right
        simp only [access, here, Option.some.injEq] at taken
        subst taken
        rw [go_self]
        simp [Worker.writing, here]
      | writeStore e rest maxtid => exact absurd here (elsewhere e rest maxtid)
      | _ => exact .inl (access_writing taken (by simp [Worker.writing, here]) commit)
    · exact .inr (by rw [others j eq])

end Access

private theorem rising_step {a : ProcessAct W} (rising : Rising g₀ g)
    (taken : g.stepRising a = some g') :
    Rising g₀ g' := by
  obtain ⟨⟨fits, rises⟩, made⟩ := stepRising_some.mp taken
  obtain ⟨s', moved, rfl⟩ := Option.map_eq_some_iff.mp made
  rw [stepWhole_eq fits] at moved
  cases a with
  | transferWork i req => exact rising_call rising moved
  | access i beyondFrom beyondTo => exact rising_access rising rises moved
  | advanceEpoch =>
    obtain rfl := Option.some.inj moved
    exact rising_frame rising ⟨rising.inv.exclusive, rising.inv.good⟩
      ⟨rising.held.sound, rising.held.exclusive⟩ (fun _ => rfl) (fun _ => rfl) (fun _ => .inr rfl)

private theorem rising_run {tr : List (ProcessAct W)} (fresh : g₀.Fresh)
    (run : Run (Steps stepRising) g₀ tr g) : Rising g₀ g :=
  run.invariant (I := fun _ g => Rising g₀ g) (rising_start fresh)
    (fun _ _ _ _ _ rising taken => rising_step rising taken)

/-- Where no commit starts from the last tid of the current epoch, and no string goes on into the next
tuple, each commit has a tid that is newer than all words that it has read or replaced, the tids of
each worker rise, and so do the words of each tuple, all of which are the tids of commits that have
written it. -/
theorem commit_tids_rise {g₀ g : Chronicle W} {tr : List (ProcessAct W)} (fresh : g₀.Fresh)
    (run : Run (Steps stepRising) g₀ tr g) :
    (∀ c ∈ g.commits, ∀ p ∈ c.read ++ c.written, p.2.ver < c.tid.ver) ∧
    (∀ i, ((g₀.process.worker i).x.mrctid.ver :: g.chosen i).Pairwise (· < ·)) ∧
    (∀ k, ((g₀.process.table k).tidword.ver :: (g.stored k).map Tidword.ver).Pairwise (· < ·)) ∧
    ∀ k, ∀ t ∈ g.stored k, ∃ c ∈ g.commits, c.tid = t ∧ k ∈ c.written.map Prod.fst := by
  have rising := rising_run fresh run
  exact ⟨rising.commits, fun i => (rising.chosen i).rises, fun k => (rising.stored k).rises,
    rising.origin⟩

end Step

section Example

/-- Worker 0 moves 3 from account 1 to account 2, and worker 1 moves 3 from account 1 to account 3. -/
def twiceTrace : List (ProcessAct 2) :=
  .transferWork 0 ⟨1, 2, 3, 0⟩ :: List.replicate 19 (.access 0 [] []) ++
    .transferWork 1 ⟨1, 3, 3, 0⟩ :: List.replicate 19 (.access 1 [] [])

theorem commit_tids_rise_twice :
    ∃ g, Run (Steps stepRising) ⟨.start (tableOf 5), [], fun _ => []⟩ twiceTrace g ∧
      g.commits.length = 2 ∧ (∀ c ∈ g.commits, ∀ p ∈ c.read ++ c.written, p.2.ver < c.tid.ver) ∧
      (g.stored 1).length = 2 ∧
      (((tableOf 5) 1).tidword.ver :: (g.stored 1).map Tidword.ver).Pairwise (· < ·) := by
  have done : (exec stepRising (⟨.start (tableOf 5), [], fun _ => []⟩ : Chronicle 2) twiceTrace).map
      (fun g => decide (g.commits.length = 2 ∧ (g.stored 1).length = 2)) = some true := by decide
  obtain ⟨g, run, holds⟩ := exec_reaches done
  obtain ⟨two, twice⟩ := of_decide_eq_true holds
  have fresh : Fresh (⟨.start (tableOf 5), [], fun _ => []⟩ : Chronicle 2) :=
    ⟨Process.start_fresh (fun _ => rfl), rfl, fun _ => rfl⟩
  obtain ⟨newer, -, rises, -⟩ := commit_tids_rise fresh run
  exact ⟨g, run, two, newer, twice, rises 1⟩

end Example

section Wrap

open Process

/-- Worker 0 is idle, and accounts 1 and 2 are free and have the version `n`, which is not less than
the last tid of the worker. -/
structure Counted (n : Nat) (s : Process 1) : Prop where
  idle : (s.worker 0).pc = .idle
  empty : (s.worker 0).x.readSet = [] ∧ (s.worker 0).x.writeSet = []
  epoch : s.globalEpoch = 1
  free : ∀ k ∈ [(1 : BitVec 64), 2], (s.table k).tidword.lock = false
  version : ∀ k ∈ [(1 : BitVec 64), 2], (s.table k).tidword.ver = n
  last : (s.worker 0).x.mrctid.ver ≤ n

variable {n : Nat} {s : Process 1}

private theorem counted_ready (counted : Counted n s) :
    ∃ tr epochs table y, Run (Steps Process.step) s tr
        ({ s with thLocalEpoch := epochs }.put 0 table ⟨y, ⟨1, 2, 0, 0⟩, .commitTid⟩) ∧
      (∀ a ∈ tr, briefLabel a = true) ∧
      epochs 0 = 1 ∧ y.top.ver = n ∧
      (∀ k, k ∈ y.writeSet.map WriteElement.key ↔ k ∈ [(1 : BitVec 64), 2]) ∧
      ∀ k ∈ [(1 : BitVec 64), 2], (table k).tidword.ver = n := by
  have one : keyOf (1 : CInt) = 1 := by decide
  have two : keyOf (2 : CInt) = 2 := by decide
  have order : sorted ⟨1, 2, 0, 0⟩ = ⟨1, 2, 0, 0⟩ := by decide
  obtain ⟨y, passed, written, mrctid, leastWrite, leastRead⟩ :=
    @validated_free s.table (s.worker 0).x ⟨1, 2, 0, 0⟩ [] [] counted.empty (by decide)
      (by rw [one]; exact counted.free 1 (by simp)) (by rw [two]; exact counted.free 2 (by simp))
  rw [← order] at passed
  obtain ⟨t, epochs, call, epoch, alone⟩ := validated_alone counted.idle (by decide) counted.empty
    passed
  rw [order, if_pos rfl] at alone
  obtain ⟨tr, run, labels⟩ := alone_run alone
  have started : Run (Steps Process.step) s [.transferWork 0 ⟨1, 2, 0, 0⟩] t := .next .start call
  refine ⟨_, epochs, _, y, started.trans run, ?_, (epoch rfl).trans counted.epoch, ?_, fun k => ?_,
    fun k member => ?_⟩
  · intro a member
    rcases List.mem_append.mp member with first | later
    · rw [List.mem_singleton.mp first]
      rfl
    · rw [labels a later]
      rfl
  · have write := leastWrite y.maxWset.ver
    have write' := leastWrite n
    have read := leastRead n
    simp only [one, two, counted.version 1 (by simp), counted.version 2 (by simp), and_self]
      at write write' read
    have last := counted.last
    rw [TxnExecutor.ver_top, mrctid]
    omega
  · rw [written, mem_sortWriteSet_keys]
    show k ∈ [keyOf 1, keyOf 2] ↔ _
    rw [one, two]
  · rw [Tidword.ver_eq_iff.mpr (lockAll_ver s.table _ k)]
    exact counted.version k member

private theorem counted_next (counted : Counted n s) (low : 2 ^ 29 ≤ n) (high : n + 1 < 2 ^ 30) :
    ∃ tr s', Run (Steps Process.step) s tr s' ∧ (∀ a ∈ tr, briefLabel a = true) ∧
      Counted (n + 1) s' := by
  obtain ⟨tr, epochs, table, y, run, brief, epoch, top, keys, version⟩ := counted_ready counted
  have room : y.top.roomy = true := by
    have small : y.top.tid.toNat + 1 < 2 ^ 29 := by
      have bound := y.top.tid.isLt
      rw [Tidword.ver] at top
      omega
    exact decide_eq_true small
  have chosen : (y.commitTid (epochs 0)).ver = n + 1 := by
    have late : ((epochs 0).setWidth 32).toNat * 2 ^ 29 ≤ y.top.ver := by
      rw [epoch, show ((1 : BitVec 64).setWidth 32).toNat = 1 by decide, top]
      omega
    rw [TxnExecutor.ver_commitTid_next room late, top]
  have committed : Alone 0 [] [] ({ s with thLocalEpoch := epochs }.put 0 table
      ⟨y, ⟨1, 2, 0, 0⟩, .commitTid⟩) _ := writePhase_alone
  obtain ⟨tr', run', labels⟩ := alone_run committed
  refine ⟨_, _, run.trans run', fun a member => ?_, ?_⟩
  · rcases List.mem_append.mp member with first | later
    · exact brief a first
    · rw [labels a later]
      rfl
  have word : ∀ k ∈ [(1 : BitVec 64), 2],
      ((y.writePhase (0 : Fin 1) (epochs 0) table).1 k).tidword = y.commitTid (epochs 0) := by
    intro k member
    rw [TxnExecutor.writePhase_table]
    exact writeBack_tidword _ _ ((keys k).mpr member)
  refine ⟨?_, ?_, counted.epoch, fun k member => ?_, fun k member => ?_, ?_⟩
  · rw [put_worker]
  · rw [put_worker]
    exact ⟨rfl, rfl⟩
  · rw [put_table, word k member, commitTid_lock]
  · rw [put_table, word k member, chosen]
  · rw [put_worker, TxnExecutor.writePhase_mrctid]
    exact le_of_eq chosen

private theorem counted_last :
    ∀ j, j < 2 ^ 29 → ∃ tr s', Run (Steps Process.step) (start (tableOf 5)) tr s' ∧
    (∀ a ∈ tr, briefLabel a = true) ∧ Counted (2 ^ 29 + j) s' := by
  intro j
  induction j with
  | zero =>
    intro _
    refine ⟨[], _, .start, by simp, rfl, ⟨rfl, rfl⟩, rfl, fun _ _ => rfl, fun k _ => ?_, ?_⟩
    · show Tidword.ver ⟨false, true, false, 0, 1⟩ = _
      simp [Tidword.ver]
    · show Tidword.ver .zero ≤ _
      simp [Tidword.ver, Tidword.zero]
  | succ j ih =>
    intro high
    obtain ⟨tr, s', run, brief, counted⟩ := ih (by omega)
    obtain ⟨tr', t, run', brief', counted'⟩ := counted_next counted (by omega) (by omega)
    refine ⟨_, t, run.trans run', fun a member => ?_, counted'⟩
    exact (List.mem_append.mp member).elim (brief a) (brief' a)

private theorem run_noted {W : Nat} {s t : Process W} {tr : List (ProcessAct W)}
    (run : Run (Steps stepWhole) s tr t) (g : Chronicle W) (here : g.process = s) :
    ∃ g', Run (Steps step) g tr g' ∧ g'.process = t := by
  induction run with
  | start => exact ⟨g, .start, here⟩
  | @next tr u v a _ taken ih =>
    obtain ⟨g', run', rfl⟩ := ih
    have moved : g'.process.stepWhole a = some v := taken
    refine ⟨_, .next run' (Option.map_eq_some_iff.mpr ⟨v, moved, rfl⟩), ?_⟩
    cases a with
    | transferWork | advanceEpoch => rfl
    | access i beyondFrom beyondTo => exact note_process g' i v

private theorem step_noted {W : Nat} {g : Chronicle W} {i : Fin W}
    (here : (g.process.worker i).pc = .commitTid) :
    ∃ g' c, g.step (.access i [] []) = some g' ∧ c ∈ g'.commits ∧
      c.tid = (g.process.worker i).x.commitTid (g.process.thLocalEpoch i) ∧
      c.written = (g.process.worker i).x.writeSet.map
        (fun e => (e.key, (g.process.table e.key).tidword)) := by
  let m : Tidword := (g.process.worker i).x.commitTid (g.process.thLocalEpoch i)
  let s' : Process W := g.process.go i (Worker.nextWrite
    ⟨{ (g.process.worker i).x with mrctid := m }, (g.process.worker i).req, .commitTid⟩ m
    (g.process.worker i).x.writeSet)
  have taken : g.process.stepWhole (.access i [] []) = some s' := by
    simp only [stepWhole, accessWhole, access, here, s', m]
  have mrctid : (s'.worker i).x.mrctid = m := by
    rw [go_self, Worker.nextWrite_mrctid]
  let c : Commit W := ⟨i, m, (g.process.worker i).x.readSet.map (fun r => (r.key, r.tidword)),
    (g.process.worker i).x.writeSet.map (fun e => (e.key, (g.process.table e.key).tidword))⟩
  have noted : g.note i s' = { g with process := s', commits := g.commits ++ [c] } := by
    simp only [note, here, mrctid, c]
  refine ⟨_, c, Option.map_eq_some_iff.mpr ⟨s', taken, noted⟩, ?_, rfl, rfl⟩
  exact List.mem_append_right _ List.mem_cons_self

def wrapStart : Chronicle 1 := ⟨.start (tableOf 5), [], fun _ => []⟩

private theorem wrapStart_fresh : wrapStart.Fresh := ⟨start_fresh (fun _ => rfl), rfl, fun _ => rfl⟩

/-- After 2 ^ 29 - 1 transfers within the first epoch the next one commits with a tid that is not
newer than the word of the account that it has locked. -/
theorem commit_tid_wraps :
    ∃ tr g, Run (Steps step) wrapStart tr g ∧
      ∃ c ∈ g.commits, ∃ p ∈ c.written, c.tid.ver ≤ p.2.ver := by
  obtain ⟨tr, s, run, brief, counted⟩ := counted_last (2 ^ 29 - 1) (by omega)
  generalize full : 2 ^ 29 + (2 ^ 29 - 1) = n at counted
  obtain ⟨tr', epochs, table, y, run', brief', epoch, top, keys, version⟩ := counted_ready counted
  -- the strings of these calls fit, so the run is one with the whole of each memcpy
  obtain ⟨fitting, -⟩ := whole_run (short_start wrapStart_fresh.process) (run.trans run')
    (fun a member => (List.mem_append.mp member).elim (brief a) (brief' a))
  have whole := fitting.mono (fun _ _ _ taken => stepWhole_of_fitting taken)
  obtain ⟨g, noted, here⟩ := run_noted whole wrapStart rfl
  have pc : (g.process.worker 0).pc = .commitTid := by rw [here, put_worker]
  obtain ⟨g', c, taken, member, tid, written⟩ := step_noted pc
  obtain ⟨e, entry, key⟩ := List.mem_map.mp ((keys 1).mpr (by simp))
  -- the newest word is the last one of epoch 1, and so is the loaded epoch
  have stuck : ¬ y.top.ver < (y.commitTid (epochs 0)).ver := by
    have bound := y.top.tid.isLt
    have word := top
    rw [Tidword.ver] at word
    rw [TxnExecutor.top_lt_commitTid, TxnExecutor.rises, Bool.or_eq_true, decide_eq_true_eq, epoch,
      show ((1 : BitVec 64).setWidth 32).toNat = 1 by decide, Tidword.roomy, decide_eq_true_eq]
    omega
  refine ⟨_, g', .next noted taken, c, member, (e.key, (table e.key).tidword), ?_, ?_⟩
  · rw [written, here, put_worker]
    exact List.mem_map_of_mem entry
  · rw [key, version 1 (by simp), tid, here, put_worker]
    rw [top] at stuck
    exact Nat.le_of_not_lt stuck

end Wrap

end Chronicle

end Raft2pl.Silo
