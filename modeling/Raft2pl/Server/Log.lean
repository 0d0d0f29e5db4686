/- log.cc and logging.cc: the log file of one worker on one node, and the entries put into it. -/

import Raft2pl.Header

set_option autoImplicit false
set_option relaxedAutoImplicit false

namespace Raft2pl.Server

/-- `Log`: the entries in memory and the records of the file. -/
structure Log where
  entry : List Entry
  file : List Entry
  deriving DecidableEq

namespace Log

/-- `Log::Log` on a file of complete records. -/
def ofFile (file : List Entry) : Log := ⟨file, file⟩

/-- `Log::addEntry`. -/
def addEntry (log : Log) (e : Entry) : Log := ⟨log.entry ++ [e], log.file ++ [e]⟩

/-- `Log::lastLogIndex`. -/
def lastLogIndex (log : Log) : Int := log.entry.length - 1

/-- `Log::getEntry`; `none` where it reads outside of the vector. -/
def getEntry (log : Log) (index : Int) : Option Entry :=
  if index < 0 then none else log.entry[index.toNat]?

/-- `Log::getTerm`, where `getEntry` is only called inside of the vector. -/
def getTerm (log : Log) (index : Int) : Int :=
  if index < 0 then -1
  else if index > log.lastLogIndex then -1
  else (log.getEntry index).elim (-1) Entry.term

/-- `Log::lastLogTerm`. -/
def lastLogTerm (log : Log) : Int := log.getTerm log.lastLogIndex

def «match» (log : Log) (prevLogIndex prevTerm : Int) : Bool :=
  if prevLogIndex < 0 then true
  else if prevTerm = log.getTerm prevLogIndex then true
  else false

/-- `Log::getPrevTerm`; `none` where `getEntry` reads outside of the vector. -/
def getPrevTerm (log : Log) (prevLogIndex : Int) : Option Int :=
  if prevLogIndex = -1 then some (-1) else (log.getEntry prevLogIndex).map Entry.term

@[simp] theorem file_ofFile (file : List Entry) : (ofFile file).file = file := rfl

@[simp] theorem file_addEntry (log : Log) (e : Entry) : (log.addEntry e).file = log.file ++ [e] :=
  rfl

end Log

/-- The narrowing of the counter behind `getLogSequenceNumber` to the `int lsn`. -/
def narrowLsn (counter : BitVec 64) : Int := (counter.setWidth 32).toInt

theorem narrowLsn_of_nonneg {counter : BitVec 64} (small : counter.toNat < 2 ^ 32)
    (ok : 0 ≤ narrowLsn counter) :
    narrowLsn counter = counter.toNat ∧ counter.toNat < 2 ^ 31 := by
  unfold narrowLsn at *
  rw [BitVec.toInt_eq_toNat_cond, BitVec.toNat_setWidth] at *
  split at ok <;> split <;> omega

/-- The entry that the leader's `loggingWork` writes. -/
def leaderEntry (logBuffer : Nat → TransReq) (nlog : Nat) (term lsn time : Int) : Entry where
  lsn := lsn
  term := term
  nlog := nlog
  time := time
  xactSet := memcpy logBuffer nlog

/-- The entry that the follower's `loggingWork` writes. -/
def followerEntry {N W : Nat} (arpc : AppendEntriesRpc N W) (time : Int) : Entry where
  lsn := arpc.lsn
  term := arpc.term
  nlog := arpc.szLog
  time := time
  xactSet := arpc.log.take arpc.szLog

end Raft2pl.Server
