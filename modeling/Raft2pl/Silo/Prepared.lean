/- What the elements of a write set are, from the reads of a transfer on. -/

import Raft2pl.Silo.Validation
import Raft2pl.Silo.Steps

set_option autoImplicit false
set_option relaxedAutoImplicit false

namespace Raft2pl.Silo

open Lib (Run Steps cString)

namespace Worker

def outstanding (w : Worker) : List WriteElement :=
  match w.pc with
  | .writeCopy e rest _ => e :: rest
  | .writeStore _ rest _ => rest
  | _ => []

/-- The tid of the call is chosen, and the call has not returned. -/
def published (w : Worker) : Bool :=
  match w.pc with
  | .writeCopy _ _ _ | .writeStore _ _ _ => true
  | _ => false

def Transfers (w : Worker) : Prop :=
  ∃ beyondFrom beyondTo rFrom rTo,
    w.x.readSet = [rFrom, rTo] ∧ rFrom.key = keyOf w.req.fromKey ∧ rTo.key = keyOf w.req.toKey ∧
    w.req.fromKey ≠ w.req.toKey ∧ sorted w.req = w.req ∧
    w.x.writeSet = sortWriteSet [
      ⟨keyOf w.req.fromKey, cString (bytes (amount rFrom.val - w.req.diff)) beyondFrom⟩,
      ⟨keyOf w.req.toKey, cString (bytes (amount rTo.val + w.req.diff)) beyondTo⟩]

def Prepared (w : Worker) : Prop :=
  match w.pc with
  | .readLoad _ _ | .readCopy _ _ _ | .readCheck _ _ _ _ => sorted w.req = w.req
  | .lockLoad _ _ _ | .lockCas _ _ _ _ | .epochLoad | .epochStore _ | .validate _ _ | .commitTid =>
      w.Transfers
  | _ => True

structure Early (req : ClientRequest) (w : Worker) : Prop where
  prepared : w.Prepared
  outstanding : w.outstanding = []
  published : w.published = false
  req : w.req = req

end Worker

section Control

open Worker (Early)

variable {w w' : Worker}

theorem Worker.Transfers.congr (transfers : w.Transfers) (writes : w'.x.writeSet = w.x.writeSet)
    (reads : w'.x.readSet = w.x.readSet) (req : w'.req = w.req) : w'.Transfers := by
  unfold Worker.Transfers at transfers ⊢
  rw [writes, reads, req]
  exact transfers

private theorem nextUnlock_early (es : List WriteElement) : (w.nextUnlock es).Early w.req := by
  cases es <;> exact ⟨trivial, rfl, rfl, rfl⟩

private theorem fail_early (es : List WriteElement) : (w.fail es).Early w.req :=
  nextUnlock_early (w := { w with x := { w.x with status := .aborted } }) es

private theorem nextLock_early (transfers : w.Transfers) (locked rest : List WriteElement) :
    (w.nextLock locked rest).Early w.req := by
  cases rest <;> exact ⟨transfers, rfl, rfl, rfl⟩

private theorem nextLock_locked_early (transfers : w.Transfers) (m : Tidword)
    (locked rest : List WriteElement) :
    ({ w with x := { w.x with maxWset := m } }.nextLock locked rest).Early w.req :=
  nextLock_early (w := { w with x := { w.x with maxWset := m } })
    (transfers.congr rfl rfl rfl) locked rest

private theorem nextCheck_early (transfers : w.Transfers) (rest : List ReadElement) :
    (w.nextCheck rest).Early w.req := by
  cases rest <;> exact ⟨transfers, rfl, rfl, rfl⟩

private theorem nextCheck_passed_early (transfers : w.Transfers) (m : Tidword)
    (rest : List ReadElement) :
    ({ w with x := { w.x with maxRset := m } }.nextCheck rest).Early w.req :=
  nextCheck_early (w := { w with x := { w.x with maxRset := m } })
    (transfers.congr rfl rfl rfl) rest

theorem nextWrite_outstanding (maxtid : Tidword) (es : List WriteElement) :
    (w.nextWrite maxtid es).outstanding = es := by
  cases es <;> rfl

theorem nextRead_cons {beyondFrom beyondTo : List Byte} {key : BitVec 64} {rest : List (BitVec 64)}
    (reading : w.Reading (key :: rest)) :
    w.nextRead beyondFrom beyondTo (key :: rest) = some { w with pc := .readLoad key rest } := by
  obtain ⟨empty, keys, apart⟩ := reading
  have distinct : (w.x.readSet.map ReadElement.key ++ key :: rest).Nodup := by
    rw [keys]
    simpa using fun same => apart (keyOf_injective same)
  have unread : w.x.searchReadSet key = false := by
    have fresh := (List.nodup_append.mp distinct).2.2
    rw [TxnExecutor.searchReadSet, List.any_eq_false]
    intro r member same
    exact fresh r.key (List.mem_map_of_mem member) key List.mem_cons_self (of_decide_eq_true same)
  simp only [Worker.nextRead, unread, TxnExecutor.searchWriteSet, empty, List.any_nil,
    Bool.or_self, Bool.false_eq_true, if_false]

theorem reading_nil (reading : w.Reading []) : ∃ rFrom rTo, w.x.readSet = [rFrom, rTo] ∧
    rFrom.key = keyOf w.req.fromKey ∧ rTo.key = keyOf w.req.toKey := by
  obtain ⟨-, keys, -⟩ := reading
  obtain ⟨rFrom, rTo, reads⟩ : ∃ rFrom rTo, w.x.readSet = [rFrom, rTo] := by
    have two := congrArg List.length keys
    simp only [List.append_nil, List.length_map, List.length_cons, List.length_nil] at two
    exact List.length_eq_two.mp two
  simp only [reads, List.append_nil, List.map_cons, List.map_nil, List.cons.injEq,
    and_true] at keys
  exact ⟨rFrom, rTo, reads, keys⟩

private theorem nextRead_early {beyondFrom beyondTo : List Byte} {keys : List (BitVec 64)}
    (reading : w.Reading keys) (ordered : sorted w.req = w.req)
    (next : w.nextRead beyondFrom beyondTo keys = some w') : w'.Early w.req := by
  cases keys with
  | nil =>
    have ⟨empty, _, apart⟩ := reading
    have ne : keyOf w.req.fromKey ≠ keyOf w.req.toKey := fun same => apart (keyOf_injective same)
    obtain ⟨rFrom, rTo, reads, keyFrom, keyTo⟩ := reading_nil reading
    simp only [Worker.nextRead, Option.bind_eq_bind, Option.bind_eq_some_iff,
      Option.some.injEq] at next
    obtain ⟨x, made, rfl⟩ := next
    have readSet : x.readSet = [rFrom, rTo] := (transfer_locking reading made).1.trans reads
    have writeSet : x.writeSet = [
        ⟨keyOf w.req.fromKey, cString (bytes (amount rFrom.val - w.req.diff)) beyondFrom⟩,
        ⟨keyOf w.req.toKey, cString (bytes (amount rTo.val + w.req.diff)) beyondTo⟩] := by
      simp only [TxnExecutor.transfer, reads, List.getElem?_cons_zero, List.getElem?_cons_succ,
        Option.bind_eq_bind, Option.bind_some, Option.some.injEq] at made
      subst made
      simp [TxnExecutor.write, TxnExecutor.searchWriteSet, empty, ne]
    refine nextLock_early (w := { w with x := { x with writeSet := sortWriteSet x.writeSet } })
      ⟨beyondFrom, beyondTo, rFrom, rTo, readSet, keyFrom, keyTo, apart, ordered, ?_⟩ [] _
    rw [writeSet]
  | cons key rest =>
    rw [nextRead_cons reading, Option.some.injEq] at next
    subst next
    exact ⟨ordered, rfl, rfl, rfl⟩

end Control

namespace Process

open Worker (Early)

variable {W : Nat} {s s' : Process W} {i : Fin W} {v : BitVec 64 → Val}

section Access

variable {beyondFrom beyondTo : List Byte} (prepared : (s.worker i).Prepared)
  (taken : s.access i beyondFrom beyondTo = some s')

include prepared taken

private theorem early_readLoad {key : BitVec 64} {rest : List (BitVec 64)}
    (here : (s.worker i).pc = .readLoad key rest) : (s'.worker i).Early (s.worker i).req := by
  simp only [access, here, Worker.Prepared, Option.some.injEq] at taken prepared
  subst taken
  rw [go_self]
  split <;> exact ⟨prepared, rfl, rfl, rfl⟩

private theorem early_readCheck {key : BitVec 64} {rest : List (BitVec 64)} {expected : Tidword}
    {val : Val}
    (knows : (s.worker i).Knows s.table s.cell)
    (here : (s.worker i).pc = .readCheck key rest expected val) :
    (s'.worker i).Early (s.worker i).req := by
  simp only [Worker.Knows, Worker.Prepared, here] at knows prepared
  obtain ⟨⟨empty, keys, apart⟩, -, -⟩ := knows
  simp only [access, here] at taken
  split at taken
  · simp only [Option.bind_eq_bind, Option.bind_eq_some_iff, Option.some.injEq] at taken
    obtain ⟨w', next, rfl⟩ := taken
    rw [go_self]
    let x : TxnExecutor :=
      { (s.worker i).x with readSet := (s.worker i).x.readSet ++ [⟨key, val, expected⟩] }
    exact nextRead_early (w := ⟨x, (s.worker i).req, .readCheck key rest expected val⟩)
      ⟨empty, by simpa [x] using keys, apart⟩ prepared next
  · obtain rfl := Option.some.inj taken
    rw [go_self]
    split <;> exact ⟨prepared, rfl, rfl, rfl⟩

private theorem early_lockLoad {locked rest : List WriteElement} {e : WriteElement}
    (here : (s.worker i).pc = .lockLoad locked e rest) :
    (s'.worker i).Early (s.worker i).req := by
  simp only [access, here, Worker.Prepared, Option.some.injEq] at taken prepared
  subst taken
  rw [go_self]
  split
  · exact fail_early locked
  · exact ⟨prepared, rfl, rfl, rfl⟩

private theorem early_lockCas {locked rest : List WriteElement} {e : WriteElement}
    {expected : Tidword}
    (here : (s.worker i).pc = .lockCas locked e rest expected) :
    (s'.worker i).Early (s.worker i).req := by
  simp only [access, here, Worker.Prepared] at taken prepared
  split at taken
  · obtain rfl := Option.some.inj taken
    rw [go_self]
    exact nextLock_locked_early (w := ⟨(s.worker i).x, (s.worker i).req, _⟩) prepared _ _ rest
  · obtain rfl := Option.some.inj taken
    rw [go_self]
    split
    · exact fail_early locked
    · exact ⟨prepared, rfl, rfl, rfl⟩

private theorem early_validate {r : ReadElement} {rest : List ReadElement}
    (here : (s.worker i).pc = .validate r rest) : (s'.worker i).Early (s.worker i).req := by
  simp only [access, here, Worker.Prepared, Option.some.injEq] at taken prepared
  subst taken
  rw [go_self]
  split
  · exact fail_early _
  · exact nextCheck_passed_early (w := ⟨(s.worker i).x, (s.worker i).req, _⟩) prepared _ rest

theorem access_early (knows : (s.worker i).Knows s.table s.cell)
    (early : (s.worker i).committing = false) : (s'.worker i).Early (s.worker i).req := by
  cases here : (s.worker i).pc with
  | idle => simp [access, here] at taken
  | commitTid | writeCopy | writeStore => simp [Worker.committing, here] at early
  | readLoad => exact early_readLoad prepared taken here
  | readCheck => exact early_readCheck prepared taken knows here
  | lockLoad => exact early_lockLoad prepared taken here
  | lockCas => exact early_lockCas prepared taken here
  | validate => exact early_validate prepared taken here
  | readCopy key rest expected =>
    simp only [access, here, Worker.Prepared, Option.some.injEq] at taken prepared
    subst taken
    rw [go_self]
    exact ⟨prepared, rfl, rfl, rfl⟩
  | unlockLoad e rest =>
    simp only [access, here, Option.some.injEq] at taken
    subst taken
    rw [go_self]
    exact ⟨trivial, rfl, rfl, rfl⟩
  | unlockStore e rest desired =>
    simp only [access, here, Option.some.injEq] at taken
    subst taken
    rw [go_self]
    exact nextUnlock_early rest
  | epochLoad =>
    simp only [access, here, Worker.Prepared, Option.some.injEq] at taken prepared
    subst taken
    rw [go_self]
    exact ⟨prepared, rfl, rfl, rfl⟩
  | epochStore epoch =>
    simp only [access, here, Worker.Prepared, Option.some.injEq] at taken prepared
    subst taken
    rw [go_self]
    exact nextCheck_early prepared _

end Access

theorem sorted_sorted (req : ClientRequest) : sorted (sorted req) = sorted req := by
  cases swap : req.toKey.slt req.fromKey with
  | false => rw [sorted_of_not_slt swap, sorted_of_not_slt swap]
  | true =>
    rw [sorted_of_slt swap]
    refine sorted_of_not_slt ?_
    simp only [BitVec.slt, decide_eq_true_eq, decide_eq_false_iff_not] at swap ⊢
    omega

theorem call_early {req : ClientRequest} (inv : Inv s) (taken : s.call i req = some s') :
    (s'.worker i).Early (sorted req) := by
  simp only [call, Option.bind_eq_bind, Option.ite_none_right_eq_some, Option.bind_eq_some_iff,
    Option.some.injEq] at taken
  obtain ⟨⟨here, apart⟩, w', next, rfl⟩ := taken
  have knows := (inv.good i).knows
  rw [Worker.Knows, here] at knows
  obtain ⟨noReads, noWrites⟩ := knows
  rw [go_self]
  exact nextRead_early (w := { s.worker i with x := (s.worker i).x.begin, req := sorted req })
    ⟨noWrites, by simp [TxnExecutor.begin, noReads], sorted_ne apart⟩ (sorted_sorted req) next

private theorem prepared_late {beyondFrom beyondTo : List Byte}
    (late : (s.worker i).committing = true)
    (taken : s.access i beyondFrom beyondTo = some s') : (s'.worker i).Prepared := by
  have next : ∀ (w : Worker) maxtid es, (w.nextWrite maxtid es).Prepared := by
    intro w maxtid es
    cases es <;> trivial
  cases here : (s.worker i).pc with
  | commitTid | writeStore =>
    simp only [access, here, Option.some.injEq] at taken
    rw [← taken, go_self]
    exact next _ _ _
  | writeCopy =>
    simp only [access, here, Option.some.injEq] at taken
    rw [← taken, go_self]
    trivial
  | _ => simp [Worker.committing, here] at late

private theorem prepared_step {a : ProcessAct W} (inv : Inv s) (prepared : ∀ i, (s.worker i).Prepared)
    (taken : s.step a = some s') (held : s.Held) : ∀ i, (s'.worker i).Prepared := by
  intro j
  cases a with
  | transferWork i req =>
    obtain ⟨w', workers, -⟩ := call_moves taken
    by_cases eq : j = i
    · subst eq
      exact (call_early inv taken).prepared
    · rw [workers, Function.update_of_ne eq]
      exact prepared j
  | access i beyondFrom beyondTo =>
    obtain ⟨w', workers, -⟩ := access_moves (held.sound i) taken
    by_cases eq : j = i
    · subst eq
      cases late : (s.worker j).committing with
      | true => exact prepared_late late taken
      | false => exact (access_early (prepared j) taken (inv.good j).knows late).prepared
    · rw [workers, Function.update_of_ne eq]
      exact prepared j
  | advanceEpoch =>
    obtain rfl := Option.some.inj taken
    exact prepared j

variable {s₀ : Process W} {tr : List (ProcessAct W)}

theorem held_roomy (fresh : s₀.Fresh) (run : Run (Steps stepRoomy) s₀ tr s) : s.Held :=
  held_run fresh (run.mono (fun _ _ _ taken => (stepRoomy_some.mp taken).2))

theorem prepared_run (fresh : s₀.Fresh) (run : Run (Steps stepRoomy) s₀ tr s) :
    ∀ i, (s.worker i).Prepared := by
  refine run.invariant (I := fun _ s => ∀ i, (s.worker i).Prepared) (fun i => ?_)
    (fun tr s a t before prepared taken => ?_)
  · rw [Worker.Prepared, fresh.idle i]
    trivial
  · exact prepared_step (inv_run fresh before) prepared (stepRoomy_some.mp taken).2
      (held_roomy fresh before)

end Process

end Raft2pl.Silo
