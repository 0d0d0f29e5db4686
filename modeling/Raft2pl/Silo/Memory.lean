/- writePhase in memory: a memcpy of a long string goes on behind the val_ of its tuple, into the
tuples that follow it in the table. -/

import Raft2pl.Silo.Steps
import Raft2pl.Lib.Records

set_option autoImplicit false
set_option relaxedAutoImplicit false

namespace Raft2pl.Silo

open Lib (Run Steps Layout copyOver cString)

namespace Tidword

/-- `obj_`, whose lowest bit is `lock`. -/
def word (t : Tidword) : BitVec 64 :=
  t.epoch ++ (t.tid ++ (BitVec.ofBool t.absent ++ (BitVec.ofBool t.latest ++ BitVec.ofBool t.lock)))

/-- The bit fields of an `obj_`. -/
def ofWord (w : BitVec 64) : Tidword :=
  ⟨w.getLsbD 0, w.getLsbD 1, w.getLsbD 2, w.extractLsb' 3 29, w.extractLsb' 32 32⟩

private theorem ofWord_word (t : Tidword) : ofWord t.word = t := by
  obtain ⟨lock, latest, absent, tid, epoch⟩ := t
  generalize bits : word ⟨lock, latest, absent, tid, epoch⟩ = w
  have lockBit : w.getLsbD 0 = lock := by
    rw [← bits]
    simp (disch := decide) only [word, BitVec.getLsbD_append, if_pos]
    cases lock <;> rfl
  have latestBit : w.getLsbD 1 = latest := by
    rw [← bits]
    simp (disch := decide) only [word, BitVec.getLsbD_append, if_pos, if_neg]
    cases latest <;> rfl
  have absentBit : w.getLsbD 2 = absent := by
    rw [← bits]
    simp (disch := decide) only [word, BitVec.getLsbD_append, if_pos, if_neg]
    cases absent <;> rfl
  have tidField : w.extractLsb' 3 29 = tid := by
    apply BitVec.eq_of_getLsbD_eq
    intro j small
    rw [BitVec.getLsbD_extractLsb', decide_eq_true small, Bool.true_and, ← bits]
    simp (disch := omega) only [word, BitVec.getLsbD_append, if_pos, if_neg]
    exact congrArg _ (by omega)
  have epochField : w.extractLsb' 32 32 = epoch := by
    apply BitVec.eq_of_getLsbD_eq
    intro j small
    rw [BitVec.getLsbD_extractLsb', decide_eq_true small, Bool.true_and, ← bits]
    simp (disch := omega) only [word, BitVec.getLsbD_append, if_neg]
    exact congrArg _ (by omega)
  rw [ofWord, lockBit, latestBit, absentBit, tidField, epochField]

end Tidword

namespace Tuple

/-- The bytes of a tuple: `tidword_`, `val_`, and the padding up to the next tuple, which nothing
reads. -/
def image (t : Tuple) : Fin 16 → Byte := fun o =>
  if low : o.val < 8 then Layout.word 8 t.tidword.word ⟨o, low⟩
  else if mid : o.val < 12 then t.val ⟨o - 8, by omega⟩
  else 0

def ofImage (f : Fin 16 → Byte) : Tuple where
  tidword := .ofWord ((Layout.word 8).symm (fun i => f ⟨i, by omega⟩))
  val := fun i => f ⟨8 + i, by omega⟩

private theorem tidword_ofImage {t : Tuple} {f : Fin 16 → Byte}
    (same : ∀ o, o.val < 8 → f o = t.image o) :
    (ofImage f).tidword = t.tidword := by
  have bytes : (fun i : Fin 8 => f ⟨i, by omega⟩) = Layout.word 8 t.tidword.word := by
    funext i
    rw [same _ i.isLt, image, dif_pos i.isLt]
  show Tidword.ofWord _ = _
  rw [bytes, Equiv.symm_apply_apply, Tidword.ofWord_word]

end Tuple

/-- A `memcpy` of a string to the `val_` of tuple `k`: byte `j` of it goes to the address 8 + `j`
behind the beginning of the tuple, and the tuples follow each other every 16 bytes. Those from its end
on are left as they are. -/
def storeString (table : Table) (k : BitVec 64) (s : List Byte) : Table := fun q =>
  if 8 + s.length ≤ 16 * (q - k).toNat then table q
  else Tuple.ofImage (fun o =>
    let address := 16 * (q - k).toNat + o.val
    if 8 ≤ address then (s[address - 8]?).getD ((table q).image o) else (table q).image o)

/-- The `memcpy` of `writePhase`. -/
def WriteElement.memcpy (thid : Nat) (e : WriteElement) (table : Table) : Table :=
  if e.val.length = 0 then storeVal table e.key (writeVal thid) else storeString table e.key e.val

def WriteElement.fits (e : WriteElement) : Bool := decide (e.val.length ≤ 8)

private theorem storeString_fits (table : Table) (k : BitVec 64) {s : List Byte}
    (fits : s.length ≤ 8) :
    storeString table k s = storeVal table k (copyOver s (table k).val) := by
  funext q
  by_cases eq : q = k
  · subst eq
    have near : ¬ 8 + s.length ≤ 16 * (q - q).toNat := by simp
    have tidword : (storeString table q s q).tidword = (table q).tidword := by
      rw [storeString, if_neg near]
      refine Tuple.tidword_ofImage (fun o low => ?_)
      have before : ¬ 8 ≤ 16 * (q - q).toNat + o.val := by simpa using low
      simp only [before, if_false]
    have val : (storeString table q s q).val = copyOver s (table q).val := by
      funext i
      have mid : 8 + i.val < 12 := by omega
      simp [storeString, Tuple.ofImage, Tuple.image, copyOver, mid]
    have other : storeVal table q (copyOver s (table q).val) q =
        ⟨(table q).tidword, copyOver s (table q).val⟩ := by simp [storeVal]
    rw [other, ← tidword, ← val]
  · have far : 0 < (q - k).toNat := by
      rw [Nat.pos_iff_ne_zero]
      intro zero
      exact eq (sub_eq_zero.mp (BitVec.eq_of_toNat_eq zero))
    rw [storeVal_of_ne eq, storeString, if_pos (by omega)]

private theorem memcpy_fits (thid : Nat) {e : WriteElement} (table : Table) (fits : e.fits = true) :
    e.memcpy thid table = storeVal table e.key (e.copyTo thid (table e.key).val) := by
  rw [WriteElement.memcpy, WriteElement.copyTo]
  split
  · rfl
  · exact storeString_fits table e.key (of_decide_eq_true fits)

def Worker.toCopy (w : Worker) : List WriteElement :=
  match w.pc with
  | .commitTid => w.x.writeSet
  | .writeCopy e rest _ => e :: rest
  | .writeStore _ rest _ => rest
  | _ => []

namespace Process

variable {W : Nat} (s : Process W)

/-- The next access of worker `i`, with all that it copies. -/
def accessWhole (i : Fin W) (beyondFrom beyondTo : List Byte) : Option (Process W) :=
  match (s.worker i).pc with
  | .writeCopy e rest maxtid =>
      some ({ s with table := e.memcpy i s.table }.go i
        { s.worker i with pc := .writeStore e rest maxtid })
  | _ => s.access i beyondFrom beyondTo

/-- One step, with the whole of each `memcpy`. -/
def stepWhole : ProcessAct W → Option (Process W)
  | .access i beyondFrom beyondTo => s.accessWhole i beyondFrom beyondTo
  | a => s.step a

def fits : ProcessAct W → Bool
  | .access i _ _ => (s.worker i).toCopy.all WriteElement.fits
  | _ => true

/-- The steps of calls whose strings fit. -/
def stepFitting (a : ProcessAct W) : Option (Process W) := if s.fits a then s.stepWhole a else none

variable {s} {s' : Process W} {a : ProcessAct W}

theorem stepWhole_eq (fits : s.fits a = true) : s.stepWhole a = s.step a := by
  cases a with
  | access i beyondFrom beyondTo =>
    show s.accessWhole i beyondFrom beyondTo = s.access i beyondFrom beyondTo
    cases here : (s.worker i).pc with
    | writeCopy e rest maxtid =>
      have first : e.fits = true := by
        simp only [Process.fits, Worker.toCopy, here, List.all_cons, Bool.and_eq_true] at fits
        exact fits.1
      simp only [accessWhole, access, here, memcpy_fits i s.table first]
    | _ => simp only [accessWhole, here]
  | _ => rfl

theorem stepFitting_some :
    s.stepFitting a = some s' ↔ s.fits a = true ∧ s.step a = some s' := by
  rw [stepFitting, Option.ite_none_right_eq_some]
  exact and_congr_right (fun fits => by rw [stepWhole_eq fits])

theorem stepWhole_of_fitting (taken : s.stepFitting a = some s') : s.stepWhole a = some s' :=
  (Option.ite_none_right_eq_some.mp taken).2

/-- The steps of calls whose strings fit, and that wrap no tid field. -/
def stepSound (s : Process W) (a : ProcessAct W) : Option (Process W) :=
  if s.roomy a then s.stepFitting a else none

theorem stepSound_some :
    s.stepSound a = some s' ↔ s.fits a = true ∧ s.stepRoomy a = some s' := by
  rw [stepSound, Option.ite_none_right_eq_some, stepFitting_some, stepRoomy_some]
  exact and_left_comm

end Process

section Short

namespace Worker

structure Short (w : Worker) : Prop where
  writeSet : ∀ e ∈ w.x.writeSet, e.fits = true
  toCopy : ∀ e ∈ w.toCopy, e.fits = true

variable {w w' : Worker}

private theorem nextLock_short (short : ∀ e ∈ w.x.writeSet, e.fits = true)
    (locked es : List WriteElement) :
    (w.nextLock locked es).Short := by
  cases es <;> exact ⟨short, by simp [nextLock, toCopy]⟩

private theorem nextLock_locked_short (short : ∀ e ∈ w.x.writeSet, e.fits = true) (m : Tidword)
    (locked es : List WriteElement) :
    ({ w with x := { w.x with maxWset := m } }.nextLock locked es).Short :=
  nextLock_short (w := { w with x := { w.x with maxWset := m } }) short locked es

private theorem nextUnlock_short (short : ∀ e ∈ w.x.writeSet, e.fits = true)
    (es : List WriteElement) :
    (w.nextUnlock es).Short := by
  cases es with
  | nil => exact ⟨by simp [nextUnlock, TxnExecutor.abort], by simp [nextUnlock, toCopy]⟩
  | cons e rest => exact ⟨short, by simp [nextUnlock, toCopy]⟩

private theorem fail_short (short : ∀ e ∈ w.x.writeSet, e.fits = true) (es : List WriteElement) :
    (w.fail es).Short :=
  nextUnlock_short (w := { w with x := { w.x with status := .aborted } }) short es

private theorem nextCheck_short (short : ∀ e ∈ w.x.writeSet, e.fits = true) (rs : List ReadElement) :
    (w.nextCheck rs).Short := by
  cases rs with
  | nil => exact ⟨short, short⟩
  | cons r rest => exact ⟨short, by simp [nextCheck, toCopy]⟩

private theorem nextCheck_passed_short (short : ∀ e ∈ w.x.writeSet, e.fits = true) (m : Tidword)
    (rs : List ReadElement) : ({ w with x := { w.x with maxRset := m } }.nextCheck rs).Short :=
  nextCheck_short (w := { w with x := { w.x with maxRset := m } }) short rs

private theorem nextWrite_short (short : ∀ e ∈ w.x.writeSet, e.fits = true) (maxtid : Tidword)
    {es : List WriteElement} (rest : ∀ e ∈ es, e.fits = true) : (w.nextWrite maxtid es).Short := by
  cases es with
  | nil => exact ⟨by simp [nextWrite], by simp [nextWrite, toCopy]⟩
  | cons e es => exact ⟨short, rest⟩

private theorem length_cString_le (val : Val) {beyond : List Byte} (brief : beyond.length ≤ 4) :
    (cString val beyond).length ≤ 8 := by
  have bound := (List.takeWhile_prefix (fun b : Byte => decide (b ≠ 0))
    (l := List.ofFn val ++ beyond)).length_le
  rw [List.length_append, List.length_ofFn] at bound
  rw [cString]
  omega

private theorem transfer_short {x x' : TxnExecutor} {req : ClientRequest}
    {beyondFrom beyondTo : List Byte}
    (short : ∀ e ∈ x.writeSet, e.fits = true) (from' : beyondFrom.length ≤ 4)
    (to' : beyondTo.length ≤ 4) (made : x.transfer req beyondFrom beyondTo = some x') :
    ∀ e ∈ x'.writeSet, e.fits = true := by
  have write : ∀ (y : TxnExecutor) (key : BitVec 64) (s : List Byte), s.length ≤ 8 →
      (∀ e ∈ y.writeSet, e.fits = true) → ∀ e ∈ (y.write key s).writeSet, e.fits = true := by
    intro y key s brief old e member
    rw [TxnExecutor.write] at member
    split at member
    · exact old e member
    · rcases List.mem_append.mp member with before | new
      · exact old e before
      · rw [List.mem_singleton.mp new]
        exact decide_eq_true brief
  simp only [TxnExecutor.transfer, Option.bind_eq_bind, Option.bind_eq_some_iff,
    Option.some.injEq] at made
  obtain ⟨rFrom, -, rTo, -, rfl⟩ := made
  exact write _ _ _ (length_cString_le _ to') (write _ _ _ (length_cString_le _ from') short)

private theorem nextRead_short (short : ∀ e ∈ w.x.writeSet, e.fits = true)
    {beyondFrom beyondTo : List Byte}
    (from' : beyondFrom.length ≤ 4) (to' : beyondTo.length ≤ 4) {keys : List (BitVec 64)}
    (next : w.nextRead beyondFrom beyondTo keys = some w') : w'.Short := by
  induction keys with
  | nil =>
    simp only [nextRead, Option.bind_eq_bind, Option.bind_eq_some_iff, Option.some.injEq] at next
    obtain ⟨x, made, rfl⟩ := next
    refine nextLock_short (w := { w with x := { x with writeSet := sortWriteSet x.writeSet } })
      (fun e member => ?_) [] _
    have inside : e ∈ x.writeSet := (List.perm_insertionSort _ x.writeSet).mem_iff.mp member
    exact transfer_short short from' to' made e inside
  | cons key rest ih =>
    rw [nextRead] at next
    split at next
    · exact ih next
    · obtain rfl := Option.some.inj next
      exact ⟨short, by simp [toCopy]⟩

end Worker

namespace Process

open Worker

variable {W : Nat} {s s' t : Process W} {i : Fin W} {beyondFrom beyondTo : List Byte}
  {a : ProcessAct W} {tr : List (ProcessAct W)}

/-- All strings of the workers fit. -/
def Short (s : Process W) : Prop := ∀ i, (s.worker i).Short

/-- Where an access may end the reads, at most four bytes lie behind each array up to the next zero. -/
def Brief (s : Process W) : ProcessAct W → Prop
  | .access i beyondFrom beyondTo => ∀ key rest expected val,
      (s.worker i).pc = .readCheck key rest expected val →
        beyondFrom.length ≤ 4 ∧ beyondTo.length ≤ 4
  | _ => True

private theorem short_put (short : s.Short) {w : Worker}
    (workers : s'.worker = Function.update s.worker i w)
    (mine : w.Short) : s'.Short := by
  intro j
  rw [workers]
  by_cases eq : j = i
  · subst eq
    rw [Function.update_self]
    exact mine
  · rw [Function.update_of_ne eq]
    exact short j

private theorem same_short (mine : (s.worker i).Short) {pc : Pc}
    (none : ∀ x req, Worker.toCopy ⟨x, req, pc⟩ = []) :
    Worker.Short { s.worker i with pc := pc } :=
  ⟨mine.writeSet, fun e member => by rw [none] at member; cases member⟩

private theorem short_readCheck (short : s.Short)
    (taken : s.access i beyondFrom beyondTo = some s') {key : BitVec 64} {rest : List (BitVec 64)}
    {expected : Tidword} {val : Val} (here : (s.worker i).pc = .readCheck key rest expected val)
    (from' : beyondFrom.length ≤ 4) (to' : beyondTo.length ≤ 4) : s'.Short := by
  simp only [access, here] at taken
  split at taken
  · simp only [Option.bind_eq_bind, Option.bind_eq_some_iff, Option.some.injEq] at taken
    obtain ⟨w', next, rfl⟩ := taken
    refine short_put short rfl (nextRead_short ?_ from' to' next)
    exact (short i).writeSet
  · obtain rfl := Option.some.inj taken
    refine short_put short rfl (same_short (short i) fun _ _ => ?_)
    split <;> rfl

private theorem short_lockLoad (short : s.Short) (taken : s.access i beyondFrom beyondTo = some s')
    {locked rest : List WriteElement} {e : WriteElement}
    (here : (s.worker i).pc = .lockLoad locked e rest) : s'.Short := by
  simp only [access, here, Option.some.injEq] at taken
  subst taken
  refine short_put short rfl ?_
  split
  · exact fail_short (short i).writeSet _
  · exact same_short (short i) fun _ _ => rfl

private theorem short_lockCas (short : s.Short) (taken : s.access i beyondFrom beyondTo = some s')
    {locked rest : List WriteElement} {e : WriteElement} {expected : Tidword}
    (here : (s.worker i).pc = .lockCas locked e rest expected) : s'.Short := by
  simp only [access, here] at taken
  split at taken
  · obtain rfl := Option.some.inj taken
    exact short_put short rfl (nextLock_locked_short (short i).writeSet _ _ _)
  · obtain rfl := Option.some.inj taken
    refine short_put short rfl ?_
    split
    · exact fail_short (short i).writeSet _
    · exact same_short (short i) fun _ _ => rfl

private theorem short_validate (short : s.Short) (taken : s.access i beyondFrom beyondTo = some s')
    {r : ReadElement} {rest : List ReadElement} (here : (s.worker i).pc = .validate r rest) :
    s'.Short := by
  simp only [access, here, Option.some.injEq] at taken
  subst taken
  refine short_put short rfl ?_
  split
  · exact fail_short (short i).writeSet _
  · exact nextCheck_passed_short (short i).writeSet _ _

-- from here on only strings that the worker has still to copy go on
private theorem short_writing (short : s.Short) (taken : s.access i beyondFrom beyondTo = some s')
    {e : WriteElement} {rest : List WriteElement} {maxtid : Tidword}
    (here : (s.worker i).pc = .writeCopy e rest maxtid ∨
      (s.worker i).pc = .writeStore e rest maxtid) : s'.Short := by
  have toCopy := (short i).toCopy
  rcases here with here | here
  · simp only [access, here, Option.some.injEq] at taken
    subst taken
    refine short_put short rfl ⟨(short i).writeSet, fun d member => toCopy d ?_⟩
    rw [Worker.toCopy, here]
    exact List.mem_cons_of_mem e member
  · simp only [access, here, Option.some.injEq] at taken
    subst taken
    refine short_put short rfl (nextWrite_short (short i).writeSet _ (fun d member => toCopy d ?_))
    rwa [Worker.toCopy, here]

theorem short_access (short : s.Short) (brief : s.Brief (.access i beyondFrom beyondTo))
    (taken : s.access i beyondFrom beyondTo = some s') : s'.Short := by
  have mine := short i
  cases here : (s.worker i).pc with
  | idle => simp [access, here] at taken
  | readLoad key rest =>
    simp only [access, here, Option.some.injEq] at taken
    subst taken
    refine short_put short rfl (same_short mine fun _ _ => ?_)
    split <;> rfl
  | readCheck key rest expected val =>
    obtain ⟨from', to'⟩ := brief key rest expected val here
    exact short_readCheck short taken here from' to'
  | lockLoad => exact short_lockLoad short taken here
  | lockCas => exact short_lockCas short taken here
  | readCopy | unlockLoad | epochLoad =>
    simp only [access, here, Option.some.injEq] at taken
    subst taken
    exact short_put short rfl (same_short mine fun _ _ => rfl)
  | unlockStore e rest desired =>
    simp only [access, here, Option.some.injEq] at taken
    subst taken
    exact short_put short rfl (nextUnlock_short mine.writeSet _)
  | epochStore epoch =>
    simp only [access, here, Option.some.injEq] at taken
    subst taken
    exact short_put short rfl (nextCheck_short mine.writeSet _)
  | validate => exact short_validate short taken here
  | commitTid =>
    simp only [access, here, Option.some.injEq] at taken
    subst taken
    refine short_put short rfl (nextWrite_short ?_ _ mine.writeSet)
    exact mine.writeSet
  | writeCopy => exact short_writing short taken (.inl here)
  | writeStore => exact short_writing short taken (.inr here)

private theorem short_step (short : s.Short) (brief : s.Brief a) (taken : s.step a = some s') :
    s'.Short := by
  cases a with
  | transferWork i req =>
    simp only [step, call, Option.bind_eq_bind, Option.ite_none_right_eq_some,
      Option.bind_eq_some_iff, Option.some.injEq] at taken
    obtain ⟨-, w', next, rfl⟩ := taken
    refine short_put short rfl (nextRead_short ?_ (by simp) (by simp) next)
    exact (short i).writeSet
  | access i beyondFrom beyondTo => exact short_access short brief taken
  | advanceEpoch =>
    obtain rfl := Option.some.inj taken
    exact short

theorem Short.fits (short : s.Short) (a : ProcessAct W) : s.fits a = true := by
  cases a with
  | access i beyondFrom beyondTo => exact List.all_eq_true.mpr (short i).toCopy
  | _ => rfl

theorem short_start (fresh : s.Fresh) : s.Short := by
  intro i
  refine ⟨by simp [fresh.writeSet i], ?_⟩
  simp [Worker.toCopy, fresh.idle i]

def briefLabel : ProcessAct W → Bool
  | .access _ beyondFrom beyondTo => beyondFrom.length ≤ 4 && beyondTo.length ≤ 4
  | _ => true

private theorem brief_label (brief : briefLabel a = true) : s.Brief a := by
  cases a with
  | access i beyondFrom beyondTo =>
    intro key rest expected val here
    simpa [briefLabel] using brief
  | _ => trivial

theorem whole_run (short : s.Short) (run : Run (Steps step) s tr t)
    (brief : ∀ a ∈ tr, briefLabel a = true) : Run (Steps stepFitting) s tr t ∧ t.Short := by
  induction run with
  | start => exact ⟨.start, short⟩
  | @next tr u v a _ taken ih =>
    obtain ⟨run', short'⟩ := ih (fun b member => brief b (List.mem_append_left _ member))
    refine ⟨.next run' (stepFitting_some.mpr ⟨short'.fits a, taken⟩), ?_⟩
    exact short_step short' (brief_label (brief a (by simp))) taken

end Process

end Short

end Raft2pl.Silo
