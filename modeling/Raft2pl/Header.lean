/- The records of header.h, entry.h, worker.h and rpc.h that the two builds exchange. -/

import Mathlib.Data.BitVec

set_option autoImplicit false
set_option relaxedAutoImplicit false

namespace Raft2pl

section Index

-- The proofs that the index literals of small groups and their comparisons carry have one name in
-- all modules.
instance (priority := high) neZero_one : NeZero 1 := ⟨by decide⟩

instance (priority := high) neZero_two : NeZero 2 := ⟨by decide⟩

instance (priority := high) neZero_three : NeZero 3 := ⟨by decide⟩

instance (priority := high) lawfulBEq_fin (n : Nat) : LawfulBEq (Fin n) := inferInstance

end Index

/-- The 32-bit `int` of requests and balances: arithmetic wraps, `slt` and `toInt` are signed. -/
abbrev CInt := BitVec 32

/-- `MAX_GROUP_ENTRY`: the capacity of a log buffer, an entry, a task and a packet. -/
def maxGroupEntry : Nat := 100

/-- `client_request`. -/
structure ClientRequest where
  fromKey : CInt
  toKey : CInt
  diff : CInt
  txId : CInt
  deriving DecidableEq

/-- `MAX_CLI_REQ`: the requests of one command of a client. -/
def maxCliReq : Nat := 100

/-- `client_command`, without the fields that the server does not read. -/
structure ClientCommand where
  commandId : CInt
  req : Fin maxCliReq → ClientRequest

/-- `trans_req`: a request stamped with the client and command it came from. -/
structure TransReq where
  clientId : Int
  commandId : CInt
  req : ClientRequest
  deriving DecidableEq

/-- `entry`. The array beyond `nlog`, which nothing initialises, is left out of `xactSet`. -/
structure Entry where
  lsn : Int
  term : Int
  nlog : Nat
  time : Int
  xactSet : List TransReq
  deriving DecidableEq

/-- `task`: a logged batch that waits for its votes. -/
structure Task (W : Nat) where
  workerId : Fin W
  lsn : Int
  nlog : Nat
  xactSet : List TransReq
  deriving DecidableEq

/-- `append_entries_rpc`. -/
structure AppendEntriesRpc (N W : Nat) where
  term : Int
  leaderId : Fin N
  prevLogIndex : Int
  prevLogTerm : Int
  leaderCommit : Int
  lsn : Int
  log : List TransReq
  szLog : Nat
  workerId : Fin W
  rNodeId : Fin N
  deriving DecidableEq

/-- `response_append_entries`. -/
structure ResponseAppendEntries (N W : Nat) where
  term : Int
  success : Bool
  lsn : Int
  workerId : Fin W
  rNodeId : Fin N
  deriving DecidableEq

/-- `memcpy` of the first `n` requests of a buffer. -/
def memcpy (buf : Nat → TransReq) (n : Nat) : List TransReq := (List.range n).map buf

@[simp] theorem memcpy_zero (buf : Nat → TransReq) : memcpy buf 0 = [] := rfl

@[simp] theorem length_memcpy (buf : Nat → TransReq) (n : Nat) : (memcpy buf n).length = n := by
  simp [memcpy]

@[simp] theorem memcpy_append_one (buf : Nat → TransReq) (n : Nat) (x : TransReq) :
    memcpy (Function.update buf n x) (n + 1) = memcpy buf n ++ [x] := by
  have old : (List.range n).map (Function.update buf n x) = (List.range n).map buf := by
    apply List.map_congr_left
    intro i hi
    exact Function.update_of_ne (Nat.ne_of_lt (List.mem_range.mp hi)) _ _
  simp [memcpy, List.range_succ, old]

@[simp] theorem take_memcpy (buf : Nat → TransReq) (n : Nat) :
    (memcpy buf n).take n = memcpy buf n := by
  simp [memcpy]

theorem getElem?_memcpy (buf : Nat → TransReq) {n i : Nat} (hi : i < n) :
    (memcpy buf n)[i]? = some (buf i) := by
  simp [memcpy, hi]

/-- The part of an entry that leader and follower build from the same data: no time stamp, and
only the first `nlog` transactions. -/
def Entry.shared (e : Entry) : Int × Int × Nat × List TransReq :=
  (e.lsn, e.term, e.nlog, e.xactSet.take e.nlog)

end Raft2pl
