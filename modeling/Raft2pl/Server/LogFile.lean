/- log.cc on bytes: entries as they lie in the file, reading them back, and a torn last entry. -/

import Raft2pl.Lib.Records
import Raft2pl.Server.Log

set_option autoImplicit false
set_option relaxedAutoImplicit false

namespace Raft2pl.Server

open Lib (Layout readRecords readRecords_records readRecords_part readRecords_nil
  length_readRecords)

abbrev Byte := BitVec 8

/-- `trans_req` as it lies in memory. -/
structure TransReqImage where
  clientId : CInt
  commandId : CInt
  req : ClientRequest
  deriving DecidableEq

/-- `entry` as it lies in memory: the whole array, and the padding in front of `time`. -/
structure EntryImage where
  lsn : CInt
  term : CInt
  nlog : CInt
  padding : CInt
  tvSec : BitVec 64
  tvUsec : BitVec 64
  xactSet : Fin maxGroupEntry → TransReqImage
  deriving DecidableEq

section Layouts

def sizeofClientRequest : Nat := 4 + (4 + (4 + 4))

def sizeofTransReq : Nat := 4 + (4 + sizeofClientRequest)

/-- `sizeof(entry)`. -/
def sizeofEntry : Nat := 4 + (4 + (4 + (4 + (8 + (8 + maxGroupEntry * sizeofTransReq)))))

instance neZero_sizeofEntry : NeZero sizeofEntry := ⟨by decide⟩

def intLayout : Layout Byte CInt 4 := Layout.word 4

def longLayout : Layout Byte (BitVec 64) 8 := Layout.word 8

def clientRequestLayout : Layout Byte ClientRequest sizeofClientRequest :=
  Equiv.trans ⟨fun r => (r.fromKey, r.toKey, r.diff, r.txId), fun t => ⟨t.1, t.2.1, t.2.2.1, t.2.2.2⟩,
      fun _ => rfl, fun _ => rfl⟩
    (Layout.pair intLayout (Layout.pair intLayout (Layout.pair intLayout intLayout)))

def transReqLayout : Layout Byte TransReqImage sizeofTransReq :=
  Equiv.trans ⟨fun r => (r.clientId, r.commandId, r.req), fun t => ⟨t.1, t.2.1, t.2.2⟩,
      fun _ => rfl, fun _ => rfl⟩
    (Layout.pair intLayout (Layout.pair intLayout clientRequestLayout))

def entryLayout : Layout Byte EntryImage sizeofEntry :=
  Equiv.trans ⟨fun e => (e.lsn, e.term, e.nlog, e.padding, e.tvSec, e.tvUsec, e.xactSet),
      fun t => ⟨t.1, t.2.1, t.2.2.1, t.2.2.2.1, t.2.2.2.2.1, t.2.2.2.2.2.1, t.2.2.2.2.2.2⟩,
      fun _ => rfl, fun _ => rfl⟩
    (Layout.pair intLayout (Layout.pair intLayout (Layout.pair intLayout (Layout.pair intLayout
      (Layout.pair longLayout (Layout.pair longLayout
        (Layout.array maxGroupEntry transReqLayout)))))))

end Layouts

namespace EntryImage

def encode (e : EntryImage) : List Byte := List.ofFn (entryLayout e)

def encodeAll (es : List EntryImage) : List Byte := es.flatMap encode

@[simp] theorem length_encode (e : EntryImage) : e.encode.length = sizeofEntry := List.length_ofFn

@[simp] theorem encodeAll_nil : encodeAll [] = [] := rfl

private theorem encodeAll_append (es fs : List EntryImage) :
    encodeAll (es ++ fs) = encodeAll es ++ encodeAll fs := List.flatMap_append

private theorem encodeAll_eq (es : List EntryImage) :
    encodeAll es = (es.map entryLayout).flatMap List.ofFn := by
  rw [List.flatMap_map]
  rfl

private theorem length_encodeAll (es : List EntryImage) :
    (encodeAll es).length = es.length * sizeofEntry := by
  induction es with
  | nil => simp
  | cons e es ih =>
    have head : encodeAll (e :: es) = e.encode ++ encodeAll es := rfl
    rw [head, List.length_append, length_encode, ih, List.length_cons, Nat.succ_mul, Nat.add_comm]

/-- The entry that the rest of the program sees. -/
def entry (e : EntryImage) : Entry where
  lsn := e.lsn.toInt
  term := e.term.toInt
  nlog := e.nlog.toNat
  time := e.tvSec.toInt * 1000000 + e.tvUsec.toInt
  xactSet := (List.ofFn e.xactSet).take e.nlog.toNat |>.map fun r =>
    ⟨r.clientId.toInt, r.commandId, r.req⟩

end EntryImage

/-- `Log` with the bytes of its file. -/
structure LogFile where
  entry : List EntryImage
  bytes : List Byte

namespace LogFile

/-- `Log::Log`; in round `i` of its loop the uninitialised `entry e` holds `stack i`. -/
def ofBytes (stack : Nat → Fin sizeofEntry → Byte) (bytes : List Byte) : LogFile where
  entry := (readRecords stack 0 bytes).map entryLayout.symm
  bytes := bytes

/-- `Log::addEntry`. -/
def addEntry (log : LogFile) (e : EntryImage) : LogFile where
  entry := log.entry ++ [e]
  bytes := log.bytes ++ e.encode

variable {stack : Nat → Fin sizeofEntry → Byte} {es fs : List EntryImage} {rest : List Byte}

@[simp] theorem bytes_ofBytes (bytes : List Byte) : (ofBytes stack bytes).bytes = bytes := rfl

private theorem foldl_addEntry (log : LogFile) (fs : List EntryImage) :
    fs.foldl addEntry log = ⟨log.entry ++ fs, log.bytes ++ EntryImage.encodeAll fs⟩ := by
  induction fs generalizing log with
  | nil => simp
  | cons f fs ih =>
    rw [List.foldl_cons, ih]
    simp [addEntry, EntryImage.encodeAll]

private theorem entry_ofBytes (es : List EntryImage) (rest : List Byte) :
    (ofBytes stack (EntryImage.encodeAll es ++ rest)).entry =
      es ++ (readRecords stack es.length rest).map entryLayout.symm := by
  rw [ofBytes, EntryImage.encodeAll_eq, readRecords_records, List.map_append, List.map_map]
  simp

theorem entry_ofBytes_whole (es : List EntryImage) :
    (ofBytes stack (EntryImage.encodeAll es)).entry = es := by
  have all := @entry_ofBytes stack es []
  simpa using all

structure Represents (f : LogFile) (log : Log) : Prop where
  entry : f.entry.map EntryImage.entry = log.entry
  file : ∃ es, f.bytes = EntryImage.encodeAll es ∧ es.map EntryImage.entry = log.file

/-- On files of whole entries, opening and appending are those of the logs of records. -/
theorem represents_ofBytes (es : List EntryImage) :
    Represents (ofBytes stack (EntryImage.encodeAll es)) (Log.ofFile (es.map EntryImage.entry)) where
  entry := by
    rw [entry_ofBytes_whole]
    rfl
  file := ⟨es, rfl, rfl⟩

theorem represents_addEntry {f : LogFile} {log : Log} (same : Represents f log) (e : EntryImage) :
    Represents (f.addEntry e) (log.addEntry e.entry) := by
  obtain ⟨entry, es, bytes, file⟩ := same
  refine ⟨?_, es ++ [e], ?_, ?_⟩
  · simp [addEntry, Log.addEntry, entry]
  · simp [addEntry, bytes, EntryImage.encodeAll]
  · simp [file]

private theorem entry_ofBytes_torn (es : List EntryImage) (torn : rest ≠ [])
    (short : rest.length < sizeofEntry) :
    ∃ e, (ofBytes stack (EntryImage.encodeAll es ++ rest)).entry = es ++ [e] := by
  refine ⟨entryLayout.symm (Lib.copyOver rest (stack es.length)), ?_⟩
  rw [entry_ofBytes, readRecords_part torn (Nat.le_of_lt short)]
  rfl

/-- The bytes of a torn entry stay in front of what is appended, and the next reading ends with one
entry too many. -/
theorem length_reopen_torn (torn : rest ≠ []) (short : rest.length < sizeofEntry) :
    (ofBytes stack (EntryImage.encodeAll es ++ rest ++ EntryImage.encodeAll fs)).entry.length =
      es.length + fs.length + 1 := by
  have left : 0 < rest.length := List.length_pos_iff.mpr torn
  have positive : 0 < sizeofEntry := Nat.pos_of_neZero sizeofEntry
  have shift : rest.length + fs.length * sizeofEntry + sizeofEntry - 1 =
      rest.length - 1 + (fs.length + 1) * sizeofEntry := by
    rw [Nat.succ_mul]
    omega
  have rounds : (rest.length + fs.length * sizeofEntry + sizeofEntry - 1) / sizeofEntry =
      fs.length + 1 := by
    rw [shift, Nat.add_mul_div_right _ _ positive, Nat.div_eq_of_lt (by omega), Nat.zero_add]
  rw [List.append_assoc, entry_ofBytes, List.length_append, List.length_map, length_readRecords,
    List.length_append, EntryImage.length_encodeAll, rounds, Nat.add_assoc]

/-- Opening the log on what an interrupted append left brings back the entries, now and after any
further appends, just when the append left nothing. -/
theorem recovers_iff (stack stack' : Nat → Fin sizeofEntry → Byte) (es : List EntryImage)
    (e : EntryImage) {part : List Byte} (cut : part <+: e.encode) (proper : part ≠ e.encode) :
    ((ofBytes stack (EntryImage.encodeAll es ++ part)).entry = es ∧
      ∀ fs, (ofBytes stack' (fs.foldl addEntry
        (ofBytes stack (EntryImage.encodeAll es ++ part))).bytes).entry = es ++ fs) ↔ part = [] := by
  have short : part.length < sizeofEntry := by
    have bound := cut.length_le
    have other : part.length ≠ e.encode.length := fun same => proper (cut.eq_of_length same)
    rw [EntryImage.length_encode] at bound other
    omega
  constructor
  · rintro ⟨loaded, -⟩
    by_contra torn
    obtain ⟨x, more⟩ := @entry_ofBytes_torn stack part es torn short
    rw [loaded] at more
    simpa using congrArg List.length more
  · rintro rfl
    rw [List.append_nil]
    refine ⟨entry_ofBytes_whole es, fun fs => ?_⟩
    rw [foldl_addEntry, bytes_ofBytes, ← EntryImage.encodeAll_append, entry_ofBytes_whole]

section Example

def blankEntry : EntryImage := ⟨0, 0, 0, 0, 0, 0, fun _ => ⟨0, 0, 0, 0, 0, 0⟩⟩

theorem recovers_iff_whole : (ofBytes (fun _ _ => 0) (EntryImage.encodeAll [blankEntry])).entry =
    [blankEntry] := by
  have none : ([] : List Byte) ≠ blankEntry.encode := by
    intro same
    have length := congrArg List.length same
    rw [EntryImage.length_encode] at length
    exact absurd length (by decide)
  have all := (recovers_iff (fun _ _ => 0) (fun _ _ => 0) [blankEntry] blankEntry List.nil_prefix
    none).mpr rfl
  simpa using all.1

/-- The first byte of the first entry is left: an entry is loaded, and after one append two are. -/
theorem torn_entry_loaded :
    blankEntry.encode.take 1 <+: blankEntry.encode ∧
      blankEntry.encode.take 1 ≠ blankEntry.encode ∧
      (∃ e, (ofBytes (fun _ _ => 0)
        (EntryImage.encodeAll [] ++ blankEntry.encode.take 1)).entry = [e]) ∧
      (ofBytes (fun _ _ => 0) ((ofBytes (fun _ _ => 0)
        (EntryImage.encodeAll [] ++ blankEntry.encode.take 1)).addEntry blankEntry).bytes).entry.length
        = 2 := by
  have size : sizeofEntry = 2432 := rfl
  have one : (blankEntry.encode.take 1).length = 1 := by
    rw [List.length_take, EntryImage.length_encode, size]
    rfl
  have short : (blankEntry.encode.take 1).length < sizeofEntry := by omega
  have torn : blankEntry.encode.take 1 ≠ [] := List.length_pos_iff.mp (by omega)
  refine ⟨List.take_prefix _ _, ?_, entry_ofBytes_torn [] torn short, ?_⟩
  · intro same
    rw [same, EntryImage.length_encode] at short
    exact lt_irrefl _ short
  · have reopened := @length_reopen_torn (fun _ _ => 0) [] [blankEntry] _ torn short
    simpa [addEntry, EntryImage.encodeAll] using reopened

end Example

end LogFile

end Raft2pl.Server
