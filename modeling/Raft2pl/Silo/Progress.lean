/- The workers block each other nowhere: they can always finish their calls. -/

import Raft2pl.Silo.Memory
import Raft2pl.Silo.Solo
import Raft2pl.Silo.Prepared

set_option autoImplicit false
set_option relaxedAutoImplicit false

namespace Raft2pl.Silo

open Lib (Run Steps exec exec_reaches)

namespace Worker

variable (w : Worker)

/-- The keys that a worker has still to read, the one at hand included. -/
def toRead : List (BitVec 64) :=
  match w.pc with
  | .readLoad key rest | .readCopy key rest _ | .readCheck key rest _ _ => key :: rest
  | _ => []

def Reads : Prop := w.toRead ≠ [] → w.Reading w.toRead

end Worker

namespace Process

variable {W : Nat} {s s' s₀ t : Process W} {i : Fin W} {beyondFrom beyondTo : List Byte}

def Returns (i : Fin W) (beyondFrom beyondTo : List Byte) (s : Process W) : Prop :=
  ∃ t, Alone i beyondFrom beyondTo s t ∧ (t.worker i).pc = .idle

theorem Returns.after (rest : Returns i beyondFrom beyondTo t)
    (alone : Alone i beyondFrom beyondTo s t) : Returns i beyondFrom beyondTo s := by
  obtain ⟨u, more, idle⟩ := rest
  exact ⟨u, alone.trans more, idle⟩

section Phases

variable {table : Table} {x : TxnExecutor} {req : ClientRequest} {pc : Pc}

private theorem put_at (here : (s.worker i).pc = pc) :
    s.put i s.table ⟨(s.worker i).x, (s.worker i).req, pc⟩ = s := by
  subst here
  simp [put, go]

private theorem returns_unlock (es : List WriteElement) :
    Returns i beyondFrom beyondTo (s.put i table (Worker.nextUnlock ⟨x, req, pc⟩ es)) :=
  ⟨_, unlock_alone es, by simp⟩

private theorem returns_fail (es : List WriteElement) :
    Returns i beyondFrom beyondTo (s.put i table (Worker.fail ⟨x, req, pc⟩ es)) :=
  returns_unlock es

private theorem returns_write (maxtid : Tidword) (es : List WriteElement) :
    Returns i beyondFrom beyondTo (s.put i table (Worker.nextWrite ⟨x, req, pc⟩ maxtid es)) :=
  ⟨_, write_alone maxtid es, by simp⟩

private theorem returns_check (rs : List ReadElement) :
    Returns i beyondFrom beyondTo (s.put i table (Worker.nextCheck ⟨x, req, pc⟩ rs)) := by
  rcases done : TxnExecutor.validate table x rs with ⟨ok, table', x'⟩
  have checked : Alone i beyondFrom beyondTo (s.put i table (Worker.nextCheck ⟨x, req, pc⟩ rs))
      (s.put i table' (if ok then ⟨x', req, .commitTid⟩ else ⟨x'.abort, req, .idle⟩)) :=
    validate_alone rs done
  cases ok with
  | false => exact ⟨_, checked, by simp⟩
  | true => exact Returns.after ⟨_, writePhase_alone, by simp⟩ checked

private theorem returns_epoch :
    Returns i beyondFrom beyondTo (s.put i table ⟨x, req, .epochLoad⟩) :=
  (returns_check x.readSet).after epoch_alone

private theorem returns_lock (locked es : List WriteElement) (inFlight : x.status ≠ .aborted) :
    Returns i beyondFrom beyondTo (s.put i table (Worker.nextLock ⟨x, req, pc⟩ locked es)) := by
  rcases done : TxnExecutor.lockWriteSet table x locked es with ⟨table', x'⟩
  have locking : Alone i beyondFrom beyondTo
      (s.put i table (Worker.nextLock ⟨x, req, pc⟩ locked es))
      (s.put i table' (if x'.status = .aborted then ⟨x'.abort, req, .idle⟩
        else ⟨x', req, .epochLoad⟩)) :=
    lock_alone locked es inFlight done
  split at locking
  · exact ⟨_, locking, by simp⟩
  · exact returns_epoch.after locking

end Phases

private theorem returns_access (taken : s.access i beyondFrom beyondTo = some t)
    (rest : Returns i beyondFrom beyondTo t) : Returns i beyondFrom beyondTo s :=
  rest.after (.single taken)

private theorem returns_cas {table : Table} {x : TxnExecutor} {req : ClientRequest}
    {locked rest : List WriteElement} {e : WriteElement} (expected : Tidword)
    (inFlight : x.status ≠ .aborted) :
    Returns i beyondFrom beyondTo (s.put i table ⟨x, req, .lockCas locked e rest expected⟩) := by
  have cas : (s.put i table ⟨x, req, .lockCas locked e rest (table e.key).tidword⟩).access i
      beyondFrom beyondTo = some (s.put i
        (storeTid table e.key { (table e.key).tidword with lock := true })
        (Worker.nextLock ⟨{ x with maxWset := .max x.maxWset (table e.key).tidword }, req,
          .lockCas locked e rest (table e.key).tidword⟩ (locked ++ [e]) rest)) := by
    simp [access]
  have fresh := returns_access cas (returns_lock (locked ++ [e]) rest inFlight)
  by_cases same : (table e.key).tidword = expected
  · rw [← same]
    exact fresh
  · by_cases busy : (table e.key).tidword.lock = true
    · have failed : (s.put i table ⟨x, req, .lockCas locked e rest expected⟩).access i beyondFrom
          beyondTo = some (s.put i table
            (Worker.fail ⟨x, req, .lockCas locked e rest expected⟩ locked)) := by
        simp [access, same, busy]
      exact returns_access failed (returns_fail locked)
    · have again : (s.put i table ⟨x, req, .lockCas locked e rest expected⟩).access i beyondFrom
          beyondTo = some (s.put i table
            ⟨x, req, .lockCas locked e rest (table e.key).tidword⟩) := by
        simp [access, same, busy]
      exact returns_access again fresh

private theorem returns_reading (sound : (s.worker i).Sound s.table)
    (past : (s.worker i).toRead = []) :
    Returns i beyondFrom beyondTo s := by
  cases here : (s.worker i).pc with
  | idle => exact ⟨s, .refl, here⟩
  | readLoad | readCopy | readCheck => simp [Worker.toRead, here] at past
  | lockLoad locked e rest =>
    rw [Worker.Sound, here] at sound
    rw [← put_at here]
    exact returns_lock locked (e :: rest) (by simp [sound.1])
  | lockCas locked e rest expected =>
    rw [Worker.Sound, here] at sound
    rw [← put_at here]
    exact returns_cas expected (by simp [sound.1])
  | unlockLoad e rest =>
    rw [← put_at here]
    exact returns_unlock (e :: rest)
  | unlockStore e rest desired =>
    have store : s.access i beyondFrom beyondTo = some (s.put i (storeTid s.table e.key desired)
        (Worker.nextUnlock (s.worker i) rest)) := by
      simp [access, here, put]
    exact returns_access store (returns_unlock rest)
  | epochLoad =>
    rw [← put_at here]
    exact returns_epoch
  | epochStore epoch =>
    have store : s.access i beyondFrom beyondTo = some
        ({ s with thLocalEpoch := Function.update s.thLocalEpoch i epoch }.put i s.table
          (Worker.nextCheck (s.worker i) (s.worker i).x.readSet)) := by
      simp [access, here, put]
    exact returns_access store (returns_check _)
  | validate r rest =>
    rw [← put_at here]
    exact returns_check (r :: rest)
  | commitTid =>
    rw [← put_at here]
    exact ⟨_, writePhase_alone, by simp⟩
  | writeCopy e rest maxtid =>
    rw [← put_at here]
    exact returns_write maxtid (e :: rest)
  | writeStore e rest maxtid =>
    have store : s.access i beyondFrom beyondTo = some (s.put i (storeTid s.table e.key maxtid)
        (Worker.nextWrite (s.worker i) maxtid rest)) := by
      simp [access, here, put]
    exact returns_access store (returns_write maxtid rest)

section Reading

private theorem nextRead_toRead {w : Worker} {keys : List (BitVec 64)} (reading : w.Reading keys) :
    ∃ w', w.nextRead beyondFrom beyondTo keys = some w' ∧ w'.toRead = keys := by
  cases keys with
  | nil =>
    obtain ⟨rFrom, rTo, reads, -⟩ := reading_nil reading
    obtain ⟨x, made⟩ : ∃ x, w.x.transfer w.req beyondFrom beyondTo = some x := by
      rw [← Option.isSome_iff_exists]
      simp [TxnExecutor.transfer, reads]
    refine ⟨Worker.nextLock { w with x := { x with writeSet := sortWriteSet x.writeSet } } []
      (sortWriteSet x.writeSet), by simp [Worker.nextRead, made], ?_⟩
    cases sortWriteSet x.writeSet <;> rfl
  | cons key rest => exact ⟨_, nextRead_cons reading, rfl⟩

variable {x : TxnExecutor} {req : ClientRequest} {key : BitVec 64} {rest : List (BitVec 64)}

private theorem reads_check (val : Val)
    (reading : Worker.Reading ⟨x, req, .readLoad key rest⟩ (key :: rest)) :
    ∃ w', Alone i beyondFrom beyondTo
        (s.put i s.table ⟨x, req, .readCheck key rest (s.table key).tidword val⟩)
        (s.put i s.table w') ∧ w'.toRead = rest := by
  obtain ⟨empty, keys, apart⟩ := reading
  let x' : TxnExecutor := { x with readSet := x.readSet ++ [⟨key, val, (s.table key).tidword⟩] }
  have reading' : Worker.Reading ⟨x', req, .readCheck key rest (s.table key).tidword val⟩ rest :=
    ⟨empty, by simpa [x'] using keys, apart⟩
  obtain ⟨w', next, toRead⟩ : ∃ w', Worker.nextRead _ beyondFrom beyondTo rest = some w' ∧
      w'.toRead = rest :=
    nextRead_toRead reading'
  have check : (s.put i s.table ⟨x, req, .readCheck key rest (s.table key).tidword val⟩).access i
      beyondFrom beyondTo = some (s.put i s.table w') := by
    simp [access, x', next]
  exact ⟨w', .single check, toRead⟩

private theorem reads_free (here : (s.worker i).toRead = key :: rest)
    (reading : (s.worker i).Reading (key :: rest)) (free : (s.table key).tidword.lock = false) :
    ∃ w', Alone i beyondFrom beyondTo s (s.put i s.table w') ∧ w'.toRead = rest := by
  let x := (s.worker i).x
  let req := (s.worker i).req
  -- from a copy on, with the present word
  have copy : ∃ w', Alone i beyondFrom beyondTo
      (s.put i s.table ⟨x, req, .readCopy key rest (s.table key).tidword⟩)
      (s.put i s.table w') ∧ w'.toRead = rest := by
    have check : ∃ w', Alone i beyondFrom beyondTo
        (s.put i s.table ⟨x, req, .readCheck key rest (s.table key).tidword (s.table key).val⟩)
        (s.put i s.table w') ∧ w'.toRead = rest := reads_check (s.table key).val reading
    obtain ⟨w', alone, toRead⟩ := check
    exact ⟨w', .head (by simp [access]) alone, toRead⟩
  have check : ∀ expected val, ∃ w', Alone i beyondFrom beyondTo
      (s.put i s.table ⟨x, req, .readCheck key rest expected val⟩)
      (s.put i s.table w') ∧ w'.toRead = rest := by
    intro expected val
    by_cases same : expected = (s.table key).tidword
    · subst same
      exact reads_check val reading
    · obtain ⟨w', alone, toRead⟩ := copy
      exact ⟨w', .head (by simp [access, same, free]) alone, toRead⟩
  cases pc : (s.worker i).pc with
  | readLoad key' rest' =>
    obtain ⟨rfl, rfl⟩ : key' = key ∧ rest' = rest := by simpa [Worker.toRead, pc] using here
    obtain ⟨w', alone, toRead⟩ := copy
    refine ⟨w', ?_, toRead⟩
    nth_rewrite 1 [← put_at pc]
    exact .head (by simp [access, free, x, req]) alone
  | readCopy key' rest' expected =>
    obtain ⟨rfl, rfl⟩ : key' = key ∧ rest' = rest := by simpa [Worker.toRead, pc] using here
    obtain ⟨w', alone, toRead⟩ := check expected (s.table key').val
    refine ⟨w', ?_, toRead⟩
    nth_rewrite 1 [← put_at pc]
    exact .head (by simp [access, x, req]) alone
  | readCheck key' rest' expected val =>
    obtain ⟨rfl, rfl⟩ : key' = key ∧ rest' = rest := by simpa [Worker.toRead, pc] using here
    have := check expected val
    rwa [put_at pc] at this
  | _ => simp [Worker.toRead, pc] at here

end Reading

section Invariant

variable {w : Worker}

private theorem reads_none (none : w.toRead = []) : w.Reads := fun some => absurd none some

private theorem nextUnlock_reads (es : List WriteElement) : (w.nextUnlock es).Reads := by
  cases es <;> exact reads_none rfl

private theorem nextLock_reads (locked es : List WriteElement) : (w.nextLock locked es).Reads := by
  cases es <;> exact reads_none rfl

private theorem nextCheck_reads (rs : List ReadElement) : (w.nextCheck rs).Reads := by
  cases rs <;> exact reads_none rfl

private theorem nextWrite_reads (maxtid : Tidword) (es : List WriteElement) :
    (w.nextWrite maxtid es).Reads := by
  cases es <;> exact reads_none rfl

private theorem nextRead_reads {w' : Worker} {keys : List (BitVec 64)} (reading : w.Reading keys)
    (next : w.nextRead beyondFrom beyondTo keys = some w') : w'.Reads := by
  cases keys with
  | nil =>
    simp only [Worker.nextRead, Option.bind_eq_bind, Option.bind_eq_some_iff,
      Option.some.injEq] at next
    obtain ⟨x, -, rfl⟩ := next
    exact nextLock_reads _ _
  | cons key rest =>
    rw [nextRead_cons reading, Option.some.injEq] at next
    subst next
    exact fun _ => reading

private theorem reads_call {req : ClientRequest} (held : s.Held) (taken : s.call i req = some s') :
    (s'.worker i).Reads := by
  simp only [call, Option.bind_eq_bind, Option.ite_none_right_eq_some, Option.bind_eq_some_iff,
    Option.some.injEq] at taken
  obtain ⟨⟨here, apart⟩, w', next, rfl⟩ := taken
  have sound := held.sound i
  rw [Worker.Sound, here] at sound
  rw [go_self]
  exact nextRead_reads (w := { s.worker i with x := (s.worker i).x.begin, req := sorted req })
    ⟨sound.2, by simp [TxnExecutor.begin, sound.1], sorted_ne apart⟩ next

private theorem reads_access (reads : (s.worker i).Reads)
    (taken : s.access i beyondFrom beyondTo = some s') : (s'.worker i).Reads := by
  cases here : (s.worker i).pc with
  | idle => simp [access, here] at taken
  | readLoad key rest =>
    have reading : (s.worker i).Reading (key :: rest) := by
      simpa [Worker.Reads, Worker.toRead, here] using reads
    simp only [access, here, Option.some.injEq] at taken
    subst taken
    rw [go_self]
    split <;> exact fun _ => reading
  | readCopy key rest expected =>
    have reading : (s.worker i).Reading (key :: rest) := by
      simpa [Worker.Reads, Worker.toRead, here] using reads
    simp only [access, here, Option.some.injEq] at taken
    subst taken
    rw [go_self]
    exact fun _ => reading
  | readCheck key rest expected val =>
    have reading : (s.worker i).Reading (key :: rest) := by
      simpa [Worker.Reads, Worker.toRead, here] using reads
    simp only [access, here] at taken
    split at taken
    · simp only [Option.bind_eq_bind, Option.bind_eq_some_iff, Option.some.injEq] at taken
      obtain ⟨w', next, rfl⟩ := taken
      rw [go_self]
      obtain ⟨empty, keys, apart⟩ := reading
      let x : TxnExecutor :=
        { (s.worker i).x with readSet := (s.worker i).x.readSet ++ [⟨key, val, expected⟩] }
      exact nextRead_reads (w := ⟨x, (s.worker i).req, .readCheck key rest expected val⟩)
        ⟨empty, by simpa [x] using keys, apart⟩ next
    · obtain rfl := Option.some.inj taken
      rw [go_self]
      split <;> exact fun _ => reading
  | lockLoad locked e rest =>
    simp only [access, here, Option.some.injEq] at taken
    subst taken
    rw [go_self]
    split
    · exact nextUnlock_reads locked
    · exact reads_none rfl
  | lockCas locked e rest expected =>
    simp only [access, here] at taken
    split at taken
    · obtain rfl := Option.some.inj taken
      rw [go_self]
      exact nextLock_reads _ rest
    · obtain rfl := Option.some.inj taken
      rw [go_self]
      split
      · exact nextUnlock_reads locked
      · exact reads_none rfl
  | validate r rest =>
    simp only [access, here, Option.some.injEq] at taken
    subst taken
    rw [go_self]
    split
    · exact nextUnlock_reads _
    · exact nextCheck_reads rest
  | unlockStore e rest desired =>
    simp only [access, here, Option.some.injEq] at taken
    subst taken
    rw [go_self]
    exact nextUnlock_reads rest
  | epochStore epoch =>
    simp only [access, here, Option.some.injEq] at taken
    subst taken
    rw [go_self]
    exact nextCheck_reads _
  | commitTid | writeStore =>
    simp only [access, here, Option.some.injEq] at taken
    subst taken
    rw [go_self]
    exact nextWrite_reads _ _
  | unlockLoad | epochLoad | writeCopy =>
    simp only [access, here, Option.some.injEq] at taken
    subst taken
    rw [go_self]
    exact reads_none rfl

/-- Locks and owners agree, and those who read do so for their requests. -/
structure Running (s : Process W) : Prop where
  held : s.Held
  reads : ∀ i, (s.worker i).Reads

private theorem running_start (fresh : s.Fresh) : s.Running where
  held := held_start fresh
  reads := fun i => reads_none (by simp [Worker.toRead, fresh.idle i])

private theorem running_step {a : ProcessAct W} (running : s.Running) (taken : s.step a = some s') :
    s'.Running := by
  refine ⟨held_step running.held taken, fun j => ?_⟩
  cases a with
  | transferWork i req =>
    obtain ⟨w', workers, -⟩ := call_moves taken
    by_cases eq : j = i
    · subst eq
      exact reads_call running.held taken
    · rw [workers, Function.update_of_ne eq]
      exact running.reads j
  | access i beyondFrom beyondTo =>
    obtain ⟨w', workers, -⟩ := access_moves (running.held.sound i) taken
    by_cases eq : j = i
    · subst eq
      exact reads_access (running.reads j) taken
    · rw [workers, Function.update_of_ne eq]
      exact running.reads j
  | advanceEpoch =>
    obtain rfl := Option.some.inj taken
    exact running.reads j

private theorem running_run {tr : List (ProcessAct W)} (fresh : s₀.Fresh)
    (run : Run (Steps step) s₀ tr s) : s.Running :=
  run.invariant (I := fun _ s => s.Running) (running_start fresh)
    (fun _ _ _ _ _ running taken => running_step running taken)

private theorem running_alone (running : s.Running) (alone : Alone i beyondFrom beyondTo s t) :
    t.Running ∧ ∀ j, j ≠ i → t.worker j = s.worker j := by
  induction alone with
  | refl => exact ⟨running, fun _ _ => rfl⟩
  | @tail u t _ taken ih =>
    obtain ⟨running', same⟩ := ih
    obtain ⟨w', workers, -⟩ := access_moves (running'.held.sound i) taken
    refine ⟨running_step (a := .access i beyondFrom beyondTo) running' taken, fun j apart => ?_⟩
    rw [workers, Function.update_of_ne apart]
    exact same j apart

end Invariant

section Completion

private theorem returns_free (running : s.Running) (free : ∀ k, (s.table k).tidword.lock = false) :
    Returns i beyondFrom beyondTo s := by
  induction left : (s.worker i).toRead generalizing s with
  | nil => exact returns_reading (running.held.sound i) left
  | cons key rest ih =>
    have reading := running.reads i (by simp [left])
    rw [left] at reading
    obtain ⟨w', alone, toRead⟩ := reads_free left reading (free key)
    exact (ih (running_alone running alone).1 free (by rw [put_worker, toRead])).after alone

private theorem free_of_reading (running : s.Running)
    (reading : ∀ i, (s.worker i).toRead = [] → (s.worker i).pc = .idle) (k : BitVec 64) :
    (s.table k).tidword.lock = false := by
  rw [← Bool.not_eq_true, ← running.held.exclusive.mem_iff k, Lib.mem_pool]
  rintro ⟨i, own⟩
  cases here : (s.worker i).pc with
  | idle | readLoad | readCopy | readCheck => simp [Worker.own, Worker.holds, here] at own
  | _ => exact absurd (reading i (by simp [Worker.toRead, here])) (by simp [here])

def busy (s : Process W) : Finset (Fin W) :=
  Finset.univ.filter (fun i => (s.worker i).pc ≠ .idle)

private theorem someone_returns (running : s.Running) (calls : 0 < s.busy.card) :
    ∃ i ∈ s.busy, Returns i beyondFrom beyondTo s := by
  by_cases past : ∃ i ∈ s.busy, (s.worker i).toRead = []
  · obtain ⟨i, member, none⟩ := past
    exact ⟨i, member, returns_reading (running.held.sound i) none⟩
  · obtain ⟨i, member⟩ := Finset.card_pos.mp calls
    refine ⟨i, member, returns_free running (free_of_reading running (fun j none => ?_))⟩
    by_contra call
    exact past ⟨j, by simpa [busy] using call, none⟩

private theorem busy_less (same : ∀ j, j ≠ i → t.worker j = s.worker j) (member : i ∈ s.busy)
    (idle : (t.worker i).pc = .idle) : t.busy.card < s.busy.card := by
  refine Finset.card_lt_card ((Finset.ssubset_iff_of_subset (fun j call => ?_)).mpr
    ⟨i, member, by simp [busy, idle]⟩)
  by_cases eq : j = i
  · subst eq
    simp [busy, idle] at call
  · simpa [busy, same j eq] using call

private theorem all_return (running : s.Running) :
    ∃ tr t, Run (Steps step) s tr t ∧ (∀ a ∈ tr, ∃ i, a = .access i [] []) ∧
      (∀ i, (t.worker i).pc = .idle) ∧ ∀ k, (t.table k).tidword.lock = false := by
  -- as long as some worker is in a call, one of them can return
  have one : ∀ s : Process W, Running s → 0 < s.busy.card → ∃ tr t, Run (Steps step) s tr t ∧
      (∀ a ∈ tr, ∃ i : Fin W, a = .access i [] []) ∧ Running t ∧ t.busy.card < s.busy.card := by
    intro s running calls
    obtain ⟨i, member, t, alone, idle⟩ : ∃ i ∈ s.busy, Returns i [] [] s :=
      someone_returns running calls
    obtain ⟨running', same⟩ := running_alone running alone
    obtain ⟨tr, run, labels⟩ := alone_run alone
    exact ⟨tr, t, run, fun a inside => ⟨i, labels a inside⟩, running', busy_less same member idle⟩
  obtain ⟨tr, t, more, accesses, running', rest⟩ := Run.exhaust (fun s => s.busy.card) one running
  have idle : ∀ i, (t.worker i).pc = .idle := by
    intro i
    by_contra call
    have member : i ∈ t.busy := by simpa [busy] using call
    rw [Finset.card_eq_zero.mp rest] at member
    simp at member
  exact ⟨tr, t, more, accesses, idle, free_of_reading running' (fun i _ => idle i)⟩

private theorem past_access (past : (s.worker i).toRead = [])
    (taken : s.access i beyondFrom beyondTo = some t) : (t.worker i).toRead = [] := by
  have lock : ∀ (w : Worker) locked es, (w.nextLock locked es).toRead = [] := by
    intro w locked es
    cases es <;> rfl
  have unlock : ∀ (w : Worker) es, (w.nextUnlock es).toRead = [] := by
    intro w es
    cases es <;> rfl
  have check : ∀ (w : Worker) rs, (w.nextCheck rs).toRead = [] := by
    intro w rs
    cases rs <;> rfl
  have write : ∀ (w : Worker) maxtid es, (w.nextWrite maxtid es).toRead = [] := by
    intro w maxtid es
    cases es <;> rfl
  cases here : (s.worker i).pc with
  | idle => simp [access, here] at taken
  | readLoad | readCopy | readCheck => simp [Worker.toRead, here] at past
  | lockLoad | validate =>
    simp only [access, here, Option.some.injEq] at taken
    subst taken
    rw [go_self]
    split
    · exact unlock _ _
    · first | rfl | exact check _ _
  | lockCas =>
    simp only [access, here] at taken
    split at taken
    · obtain rfl := Option.some.inj taken
      rw [go_self]
      exact lock _ _ _
    · obtain rfl := Option.some.inj taken
      rw [go_self]
      split
      · exact unlock _ _
      · rfl
  | unlockLoad | epochLoad | writeCopy =>
    simp only [access, here, Option.some.injEq] at taken
    subst taken
    rw [go_self]
    rfl
  | unlockStore =>
    simp only [access, here, Option.some.injEq] at taken
    subst taken
    rw [go_self]
    exact unlock _ _
  | epochStore =>
    simp only [access, here, Option.some.injEq] at taken
    subst taken
    rw [go_self]
    exact check _ _
  | commitTid | writeStore =>
    simp only [access, here, Option.some.injEq] at taken
    subst taken
    rw [go_self]
    exact write _ _ _

private theorem fitting_alone (short : s.Short) (past : (s.worker i).toRead = [])
    (alone : Alone i beyondFrom beyondTo s t) : t.Short ∧ (t.worker i).toRead = [] ∧
      ∃ tr, Run (Steps stepFitting) s tr t ∧ ∀ a ∈ tr, a = .access i beyondFrom beyondTo := by
  induction alone with
  | refl => exact ⟨short, past, [], .start, by simp⟩
  | @tail u t _ taken ih =>
    obtain ⟨short', past', tr, run, same⟩ := ih
    have brief : u.Brief (.access i beyondFrom beyondTo) := by
      intro key rest expected val here
      simp [Worker.toRead, here] at past'
    have moved : Steps stepFitting u (.access i beyondFrom beyondTo) t :=
      stepFitting_some.mpr ⟨short'.fits _, taken⟩
    refine ⟨short_access short' brief taken, past_access past' taken,
      tr ++ [.access i beyondFrom beyondTo], .next run moved, fun a member => ?_⟩
    rcases List.mem_append.mp member with old | new
    · exact same a old
    · exact List.mem_singleton.mp new

/-- As long as the strings fit, nothing that the workers have locked keeps them from returning: a
worker past its reads returns whatever the others do not do, and from wherever they are all of them
can return. -/
theorem workers_return {tr : List (ProcessAct W)} (fresh : s₀.Fresh)
    (run : Run (Steps stepFitting) s₀ tr s) (short : s.Short) :
    (∀ i beyondFrom beyondTo, (s.worker i).toRead = [] →
      ∃ tr' t, Run (Steps stepFitting) s tr' t ∧ (∀ a ∈ tr', a = .access i beyondFrom beyondTo) ∧
        (t.worker i).pc = .idle) ∧
    ∃ tr' t, Run (Steps stepFitting) s tr' t ∧ (∀ a ∈ tr', ∃ i, a = .access i [] []) ∧
      (∀ i, (t.worker i).pc = .idle) ∧ ∀ k, (t.table k).tidword.lock = false := by
  have running := running_run fresh (run.mono (fun _ _ _ taken => (stepFitting_some.mp taken).2))
  constructor
  · intro i beyondFrom beyondTo past
    obtain ⟨t, alone, idle⟩ : Returns i beyondFrom beyondTo s :=
      returns_reading (running.held.sound i) past
    obtain ⟨-, -, tr', run', same⟩ := fitting_alone short past alone
    exact ⟨tr', t, run', same, idle⟩
  · obtain ⟨tr', t, more, accesses, idle, free⟩ := all_return running
    refine ⟨tr', t, (whole_run short more ?_).1, accesses, idle, free⟩
    intro a member
    obtain ⟨i, rfl⟩ := accesses a member
    rfl

section Example

/-- In the middle of two calls on account 1. -/
theorem workers_return_overlap :
    ∃ s tr' t, Run (Steps stepFitting) (start (tableOf 5)) overlapTrace s ∧
      (s.worker 0).pc ≠ .idle ∧ (s.worker 1).pc ≠ .idle ∧ Run (Steps stepFitting) s tr' t ∧
      ∀ i, (t.worker i).pc = .idle := by
  have done : (exec step (start (tableOf 5)) overlapTrace).map (fun s => decide
      ((s.worker 0).pc ≠ .idle ∧ (s.worker 1).pc ≠ .idle)) = some true := by decide
  obtain ⟨s, cut, holds⟩ := exec_reaches done
  have fresh : (start (tableOf 5) : Process 2).Fresh := start_fresh (fun _ => rfl)
  obtain ⟨run, short⟩ := whole_run (short_start fresh) cut (by decide)
  obtain ⟨tr', t, more, -, idle, -⟩ := (workers_return fresh run short).2
  exact ⟨s, tr', t, run, (of_decide_eq_true holds).1, (of_decide_eq_true holds).2, more, idle⟩

end Example

end Completion

end Process

end Raft2pl.Silo
