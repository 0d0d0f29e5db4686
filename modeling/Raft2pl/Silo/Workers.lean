/- Any number of executors on one table: every access of transferWork to shared data is one step. -/

import Raft2pl.Silo.Transaction

set_option autoImplicit false
set_option relaxedAutoImplicit false

namespace Raft2pl.Silo

/-- The next access to shared data in a call of `transferWork`, with the local variables of the
loop it is in: `rest` is what the loop has still to do after the element at hand. -/
inductive Pc
  | idle
  | readLoad (key : BitVec 64) (rest : List (BitVec 64))
  | readCopy (key : BitVec 64) (rest : List (BitVec 64)) (expected : Tidword)
  | readCheck (key : BitVec 64) (rest : List (BitVec 64)) (expected : Tidword) (val : Val)
  | lockLoad (locked : List WriteElement) (itr : WriteElement) (rest : List WriteElement)
  | lockCas (locked : List WriteElement) (itr : WriteElement) (rest : List WriteElement)
      (expected : Tidword)
  | unlockLoad (itr : WriteElement) (rest : List WriteElement)
  | unlockStore (itr : WriteElement) (rest : List WriteElement) (desired : Tidword)
  | epochLoad
  | epochStore (epoch : BitVec 64)
  | validate (itr : ReadElement) (rest : List ReadElement)
  | commitTid
  | writeCopy (itr : WriteElement) (rest : List WriteElement) (maxtid : Tidword)
  | writeStore (itr : WriteElement) (rest : List WriteElement) (maxtid : Tidword)
  deriving DecidableEq

/-- A worker thread: its executor, the request it works on, and where it is. -/
structure Worker where
  x : TxnExecutor
  req : ClientRequest
  pc : Pc
  deriving DecidableEq

/-- The shared data and the workers. -/
structure Process (W : Nat) where
  table : Table
  globalEpoch : BitVec 64
  thLocalEpoch : Fin W → BitVec 64
  worker : Fin W → Worker

/-- A worker calls `transferWork`, or makes its next access; what lies behind the arrays of
`transferWork` in memory only matters for the access that ends its reads. -/
inductive ProcessAct (W : Nat)
  | transferWork (i : Fin W) (req : ClientRequest)
  | access (i : Fin W) (beyondFrom beyondTo : List Byte)
  | advanceEpoch
  deriving DecidableEq

namespace Worker

variable (w : Worker)

/-- `lockWriteSet`, from an element of the write set on. -/
def nextLock (locked : List WriteElement) : List WriteElement → Worker
  | [] => { w with pc := .epochLoad }
  | e :: rest => { w with pc := .lockLoad locked e rest }

/-- `read` for the remaining keys; after the last one `transfer` and the start of
`validationPhase`. -/
def nextRead (beyondFrom beyondTo : List Byte) : List (BitVec 64) → Option Worker
  | [] => do
      let x ← w.x.transfer w.req beyondFrom beyondTo
      let x := { x with writeSet := sortWriteSet x.writeSet }
      some (nextLock { w with x := x } [] x.writeSet)
  | key :: rest =>
      if w.x.searchReadSet key || w.x.searchWriteSet key then
        nextRead beyondFrom beyondTo rest
      else some { w with pc := .readLoad key rest }

/-- `unlockWriteSet`, from an element on; then `transferWork` aborts and returns false. -/
def nextUnlock : List WriteElement → Worker
  | [] => { w with x := w.x.abort, pc := .idle }
  | e :: rest => { w with pc := .unlockLoad e rest }

/-- The end of a `transferWork` that fails with the given elements locked. -/
def fail (locked : List WriteElement) : Worker :=
  nextUnlock { w with x := { w.x with status := .aborted } } locked

/-- The loop of `validationPhase`, from an element of the read set on. -/
def nextCheck : List ReadElement → Worker
  | [] => { w with x := { w.x with status := .committed }, pc := .commitTid }
  | r :: rest => { w with pc := .validate r rest }

/-- The loop of `writePhase`, from an element on; then `transferWork` returns true. -/
def nextWrite (maxtid : Tidword) : List WriteElement → Worker
  | [] => { w with x := { w.x with readSet := [], writeSet := [] }, pc := .idle }
  | e :: rest => { w with pc := .writeCopy e rest maxtid }

end Worker

namespace Process

variable {W : Nat} (s : Process W)

def go (i : Fin W) (w : Worker) : Process W := { s with worker := Function.update s.worker i w }

/-- `transferWork`, up to its first access. -/
def call (i : Fin W) (req : ClientRequest) : Option (Process W) :=
  if (s.worker i).pc = .idle ∧ req.fromKey ≠ req.toKey then do
    let w : Worker := { s.worker i with x := (s.worker i).x.begin, req := sorted req }
    let w ← w.nextRead [] [] [keyOf (sorted req).fromKey, keyOf (sorted req).toKey]
    some (s.go i w)
  else none

/-- The next access of worker `i`. The copy in `writePhase` ends with the `val_` of its tuple here;
`accessWhole` makes all of it. -/
def access (i : Fin W) (beyondFrom beyondTo : List Byte) : Option (Process W) :=
  let w := s.worker i
  match w.pc with
  | .idle => none
  | .readLoad key rest =>
      let expected := (s.table key).tidword
      some (s.go i { w with
        pc := if expected.lock then .readLoad key rest else .readCopy key rest expected })
  | .readCopy key rest expected =>
      some (s.go i { w with pc := .readCheck key rest expected (s.table key).val })
  | .readCheck key rest expected val =>
      let check := (s.table key).tidword
      if expected = check then do
        let x := { w.x with readSet := w.x.readSet ++ [⟨key, val, expected⟩] }
        let w' ← { w with x := x }.nextRead beyondFrom beyondTo rest
        some (s.go i w')
      else some (s.go i { w with
        pc := if check.lock then .readLoad key rest else .readCopy key rest check })
  | .lockLoad locked e rest =>
      let expected := (s.table e.key).tidword
      some (s.go i (if expected.lock then w.fail locked
        else { w with pc := .lockCas locked e rest expected }))
  | .lockCas locked e rest expected =>
      let current := (s.table e.key).tidword
      if current = expected then
        let x := { w.x with maxWset := .max w.x.maxWset expected }
        some ({ s with table := storeTid s.table e.key { expected with lock := true } }.go i
          ({ w with x := x }.nextLock (locked ++ [e]) rest))
      else some (s.go i (if current.lock then w.fail locked
        else { w with pc := .lockCas locked e rest current }))
  | .unlockLoad e rest =>
      let expected := (s.table e.key).tidword
      some (s.go i { w with pc := .unlockStore e rest { expected with lock := false } })
  | .unlockStore e rest desired =>
      some ({ s with table := storeTid s.table e.key desired }.go i (w.nextUnlock rest))
  | .epochLoad => some (s.go i { w with pc := .epochStore s.globalEpoch })
  | .epochStore epoch =>
      some ({ s with thLocalEpoch := Function.update s.thLocalEpoch i epoch }.go i
        (w.nextCheck w.x.readSet))
  | .validate r rest =>
      let check := (s.table r.key).tidword
      some (s.go i (if w.x.rejects r check then w.fail w.x.writeSet
        else { w with x := { w.x with maxRset := .max w.x.maxRset check } }.nextCheck rest))
  | .commitTid =>
      let maxtid := w.x.commitTid (s.thLocalEpoch i)
      some (s.go i ({ w with x := { w.x with mrctid := maxtid } }.nextWrite maxtid w.x.writeSet))
  | .writeCopy e rest maxtid =>
      some ({ s with table := storeVal s.table e.key (e.copyTo i (s.table e.key).val) }.go i
        { w with pc := .writeStore e rest maxtid })
  | .writeStore e rest maxtid =>
      some ({ s with table := storeTid s.table e.key maxtid }.go i (w.nextWrite maxtid rest))

/-- One step; `advanceEpoch` is the increment of `GlobalEpoch` in `leaderWork`. -/
def step : ProcessAct W → Option (Process W)
  | .transferWork i req => s.call i req
  | .access i beyondFrom beyondTo => s.access i beyondFrom beyondTo
  | .advanceEpoch => some { s with globalEpoch := s.globalEpoch + 1 }

def roomy : ProcessAct W → Bool
  | .access i _ _ => (s.worker i).pc != .commitTid || (s.worker i).x.roomy
  | _ => true

/-- The steps that wrap no tid field. -/
def stepRoomy (a : ProcessAct W) : Option (Process W) := if s.roomy a then s.step a else none

theorem stepRoomy_some {s s' : Process W} {a : ProcessAct W} :
    s.stepRoomy a = some s' ↔ s.roomy a = true ∧ s.step a = some s' := by
  simp [stepRoomy]

/-- Workers that have not made a call yet, on a table without locked tuples. -/
structure Fresh (s : Process W) : Prop where
  free : ∀ k, (s.table k).tidword.lock = false
  idle : ∀ i, (s.worker i).pc = .idle
  readSet : ∀ i, (s.worker i).x.readSet = []
  writeSet : ∀ i, (s.worker i).x.writeSet = []

def start (table : Table) : Process W where
  table := table
  globalEpoch := 1
  thLocalEpoch := fun _ => 0
  worker := fun _ => ⟨.new, ⟨0, 0, 0, 0⟩, .idle⟩

theorem start_fresh {table : Table} (free : ∀ k, (table k).tidword.lock = false) :
    (start table : Process W).Fresh where
  free := free
  idle := fun _ => rfl
  readSet := fun _ => rfl
  writeSet := fun _ => rfl

end Process

end Raft2pl.Silo
