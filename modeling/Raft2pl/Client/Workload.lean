/- client.cc: getCC, which reads the requests of a file into commands. -/

import Raft2pl.Header
import Raft2pl.Lib.Text
import Mathlib.Data.List.Forall2

set_option autoImplicit false
set_option relaxedAutoImplicit false

namespace Raft2pl.Client

open Lib (lines readLines readLines_eq scanInts)
open List (Forall₂)

def newline : BitVec 8 := 10

/-- The `int` that `sscanf` stores for a number; `overflow` is what it does with one that is out of
range, which the language leaves open. -/
def toCInt (overflow : Int → CInt) (value : Int) : CInt :=
  if -2 ^ 31 ≤ value ∧ value < 2 ^ 31 then .ofInt 32 value else overflow value

section Line

variable (overflow : Int → CInt)

def scanned (line : List (BitVec 8)) : List CInt :=
  (scanInts 3 (line.takeWhile (fun c => decide (c ≠ 0)))).map (toCInt overflow)

/-- The `sscanf` of `getCC`: what it does not find it leaves as it was. -/
def sscanf (line : List (BitVec 8)) (req : ClientRequest) : ClientRequest :=
  { req with
    fromKey := ((scanned overflow line)[0]?).getD req.fromKey
    toKey := ((scanned overflow line)[1]?).getD req.toKey
    diff := ((scanned overflow line)[2]?).getD req.diff }

def parse (line : List (BitVec 8)) : Option (CInt × CInt × CInt) :=
  match scanned overflow line with
  | [fromKey, toKey, diff] => some (fromKey, toKey, diff)
  | _ => none

/-- The variables of `getCC`, with the part of the buffer that it fills. -/
structure Reader where
  cc : ClientCommand
  counter : Nat
  vec : List ClientCommand

def Reader.scan (r : Reader) (line : List (BitVec 8)) : ClientCommand :=
  { r.cc with
    req := fun i => if i.val = r.counter then sscanf overflow line (r.cc.req i) else r.cc.req i }

/-- The body of the loop of `getCC`. -/
def Reader.read (r : Reader) (line : List (BitVec 8)) : Reader :=
  let cc := r.scan overflow line
  if r.counter + 1 = maxCliReq then { cc := cc, counter := 0, vec := r.vec ++ [cc] }
  else { r with cc := cc, counter := r.counter + 1 }

/-- `getCC`, where `cc` is what its buffer holds before and `bufsiz` is `BUFSIZ`. -/
def getCC (bufsiz : Nat) (cc : ClientCommand) (file : List (BitVec 8)) : List ClientCommand :=
  ((readLines newline bufsiz (file.length + 1) file).foldl (Reader.read overflow) ⟨cc, 0, []⟩).vec

end Line

def triple (req : ClientRequest) : CInt × CInt × CInt := (req.fromKey, req.toKey, req.diff)

def triples (cc : ClientCommand) : List (CInt × CInt × CInt) :=
  List.ofFn (fun i => triple (cc.req i))

/-- The commands hold the transfers of the lines that parse, in their order; and each of their slots
belongs to such a line. -/
structure ReadExactly (overflow : Int → CInt) (ls : List (List (BitVec 8)))
    (vec : List ClientCommand) : Prop where
  requests : vec.flatMap triples = ls.filterMap (parse overflow)
  slots : ∀ i l, i < (vec.flatMap triples).length → ls[i]? = some l → (parse overflow l).isSome

variable {overflow : Int → CInt} {line : List (BitVec 8)} {ls : List (List (BitVec 8))}

private theorem triple_sscanf {t : CInt × CInt × CInt} (parsed : parse overflow line = some t)
    (req : ClientRequest) : triple (sscanf overflow line req) = t := by
  unfold parse at parsed
  split at parsed
  · next found =>
    obtain rfl := Option.some.inj parsed
    simp [triple, sscanf, found]
  · cases parsed

def Matches (overflow : Int → CInt) (line : List (BitVec 8)) (t : CInt × CInt × CInt) : Prop :=
  ∀ t', parse overflow line = some t' → t = t'

theorem filterMap_of_matches {ts : List (CInt × CInt × CInt)}
    (same : Forall₂ (Matches overflow) ls ts) (all : ∀ l ∈ ls, (parse overflow l).isSome) :
    ls.filterMap (parse overflow) = ts := by
  induction same with
  | nil => rfl
  | @cons l t ls ts first _ ih =>
    obtain ⟨t', parsed⟩ := Option.isSome_iff_exists.mp (all l List.mem_cons_self)
    have rest := ih (fun l' member => all l' (List.mem_cons_of_mem l member))
    rw [List.filterMap_cons_some parsed, rest, first t' parsed]

/-- How the lines read so far are spread over the returned commands and the one being filled. -/
structure Filled (overflow : Int → CInt) (ls : List (List (BitVec 8))) (r : Reader)
    (done pending : List (List (BitVec 8))) : Prop where
  lines : ls = done ++ pending
  returned : Forall₂ (Matches overflow) done (r.vec.flatMap triples)
  filling : Forall₂ (Matches overflow) pending ((triples r.cc).take r.counter)
  counter : r.counter < maxCliReq

section Reading

variable {r : Reader} {done pending : List (List (BitVec 8))}

private theorem maxCliReq_pos : 0 < maxCliReq := by decide

private theorem filled_start (overflow : Int → CInt) (cc : ClientCommand) :
    Filled overflow [] ⟨cc, 0, []⟩ [] [] :=
  ⟨rfl, .nil, .nil, maxCliReq_pos⟩

private theorem take_scan (line : List (BitVec 8)) (small : r.counter < maxCliReq) :
    (triples (r.scan overflow line)).take (r.counter + 1) = (triples r.cc).take r.counter ++
      [triple (sscanf overflow line (r.cc.req ⟨r.counter, small⟩))] := by
  apply List.ext_getElem
  · simp [triples]
    omega
  · intro i inside _
    have le : i < r.counter + 1 := by
      simp at inside
      omega
    by_cases last : i = r.counter
    · subst last
      simp [triples, Reader.scan]
    · have before : i < r.counter := by omega
      have inArray : ¬ maxCliReq ≤ i := by omega
      simp [triples, Reader.scan, last, List.getElem_append, before, inArray]

private theorem filled_read (filled : Filled overflow ls r done pending) (line : List (BitVec 8)) :
    ∃ done' pending', Filled overflow (ls ++ [line]) (r.read overflow line) done' pending' := by
  obtain ⟨rfl, returned, filling, small⟩ := filled
  have here : Matches overflow line (triple (sscanf overflow line (r.cc.req ⟨r.counter, small⟩))) :=
    fun t' parsed => triple_sscanf parsed _
  have longer : Forall₂ (Matches overflow) (pending ++ [line])
      ((triples (r.scan overflow line)).take (r.counter + 1)) := by
    rw [take_scan line small]
    exact List.rel_append filling (Forall₂.cons here .nil)
  by_cases full : r.counter + 1 = maxCliReq
  · have step : r.read overflow line =
        ⟨r.scan overflow line, 0, r.vec ++ [r.scan overflow line]⟩ := by
      simp only [Reader.read, full, if_true]
    have whole : (triples (r.scan overflow line)).take (r.counter + 1) =
        triples (r.scan overflow line) := by
      rw [List.take_of_length_le]
      simp [triples, full]
    rw [step]
    refine ⟨done ++ (pending ++ [line]), [], by simp, ?_, by simp, maxCliReq_pos⟩
    rw [List.flatMap_append, List.flatMap_singleton, ← whole]
    exact List.rel_append returned longer
  · have step : r.read overflow line = { r with
        cc := r.scan overflow line, counter := r.counter + 1 } := by
      simp only [Reader.read, full, if_false]
    rw [step]
    exact ⟨done, pending ++ [line], by simp, returned, longer, by
      show r.counter + 1 < maxCliReq
      omega⟩

theorem filled_foldl (overflow : Int → CInt) (cc : ClientCommand) (ls : List (List (BitVec 8))) :
    ∃ done pending,
      Filled overflow ls (ls.foldl (Reader.read overflow) ⟨cc, 0, []⟩) done pending := by
  induction ls using List.reverseRecOn with
  | nil => exact ⟨[], [], filled_start overflow cc⟩
  | append_singleton ls line ih =>
    obtain ⟨done, pending, filled⟩ := ih
    rw [List.foldl_append]
    exact filled_read filled line

private theorem length_triples (vec : List ClientCommand) :
    (vec.flatMap triples).length = maxCliReq * vec.length := by
  simp [List.length_flatMap, triples, Nat.mul_comm]

theorem length_done (filled : Filled overflow ls r done pending) :
    done.length = maxCliReq * (ls.length / maxCliReq) := by
  have returned := filled.returned.length_eq
  have filling := filled.filling.length_eq
  have small := filled.counter
  have size : (triples r.cc).length = maxCliReq := by simp [triples]
  rw [length_triples] at returned
  rw [List.length_take, size] at filling
  rw [filled.lines, List.length_append, returned, Nat.mul_add_div maxCliReq_pos,
    Nat.div_eq_of_lt (show pending.length < maxCliReq by omega), Nat.add_zero]

end Reading

private theorem length_getCC (cc : ClientCommand) {bufsiz : Nat} {file : List (BitVec 8)}
    (short : ∀ l ∈ lines newline file, l.length < bufsiz) :
    (getCC overflow bufsiz cc file).length = (lines newline file).length / maxCliReq := by
  rw [getCC, readLines_eq (Nat.lt_succ_self file.length) short]
  obtain ⟨done, pending, filled⟩ := filled_foldl overflow cc (lines newline file)
  have size := filled.returned.length_eq
  rw [length_done filled, length_triples] at size
  exact (Nat.eq_of_mul_eq_mul_left maxCliReq_pos size).symm

/-- The exact condition: all lines of the full commands parse, and none of the rest. -/
def WholeCommands (overflow : Int → CInt) (ls : List (List (BitVec 8))) : Prop :=
  ∀ i l, ls[i]? = some l →
    ((parse overflow l).isSome ↔ i < maxCliReq * (ls.length / maxCliReq))

/-- A last command that is not full is never returned, and a line that does not parse keeps its slot
as the lines before it left it. So the file is read exactly just when its lines that parse are all
the lines of the full commands. -/
theorem getCC_reads_iff (cc : ClientCommand) {bufsiz : Nat} {file : List (BitVec 8)}
    (short : ∀ l ∈ lines newline file, l.length < bufsiz) :
    ReadExactly overflow (lines newline file) (getCC overflow bufsiz cc file) ↔
      WholeCommands overflow (lines newline file) := by
  rw [getCC, readLines_eq (Nat.lt_succ_self file.length) short]
  generalize lines newline file = ls at short
  obtain ⟨done, pending, filled⟩ := filled_foldl overflow cc ls
  have size := length_done filled
  have count := filled.returned.length_eq
  obtain rfl := filled.lines
  constructor
  · intro exact'
    have parsed : ∀ l ∈ done, (parse overflow l).isSome := by
      intro l member
      obtain ⟨i, inside, rfl⟩ := List.getElem_of_mem member
      refine exact'.slots i done[i] (by omega) ?_
      rw [List.getElem?_append_left inside, List.getElem?_eq_getElem inside]
    have requests := exact'.requests
    rw [List.filterMap_append, filterMap_of_matches filled.returned parsed] at requests
    have none : pending.filterMap (parse overflow) = [] := by simpa using requests
    intro i l here
    rw [← size]
    by_cases inside : i < done.length
    · rw [List.getElem?_append_left inside] at here
      simp [inside, parsed l (List.mem_of_getElem? here)]
    · rw [List.getElem?_append_right (by omega)] at here
      have unparsed := List.filterMap_eq_nil_iff.mp none l (List.mem_of_getElem? here)
      simp [inside, unparsed]
  · intro whole
    have parsed : ∀ l ∈ done, (parse overflow l).isSome := by
      intro l member
      obtain ⟨i, inside, rfl⟩ := List.getElem_of_mem member
      refine (whole i done[i] ?_).mpr (by omega)
      rw [List.getElem?_append_left inside, List.getElem?_eq_getElem inside]
    have none : pending.filterMap (parse overflow) = [] := by
      rw [List.filterMap_eq_nil_iff]
      intro l member
      obtain ⟨i, inside, rfl⟩ := List.getElem_of_mem member
      have unparsed := (whole (done.length + i) pending[i] (by
        rw [List.getElem?_append_right (by omega)]
        simp [inside])).not.mpr (by omega)
      simpa using unparsed
    refine ⟨?_, fun i l inside here => ?_⟩
    · rw [List.filterMap_append, filterMap_of_matches filled.returned parsed, none,
        List.append_nil]
    · exact (whole i l here).mpr (by omega)

section Example

def chars (text : String) : List (BitVec 8) := text.toList.map (fun c => .ofNat 8 c.toNat)

def repeated (n : Nat) : List (BitVec 8) := (List.replicate n (chars "1 2 5\n")).flatten

private theorem lines_repeated (n : Nat) :
    lines newline (repeated n) = List.replicate n (chars "1 2 5") := by
  induction n with
  | zero => rfl
  | succ n ih =>
    rw [List.replicate_succ, ← ih, repeated, List.replicate_succ, List.flatten_cons]
    rfl

private theorem short_repeated (n : Nat) : ∀ l ∈ lines newline (repeated n), l.length < 8192 := by
  rw [lines_repeated]
  intro l member
  rw [List.eq_of_mem_replicate member]
  decide

private theorem parse_repeated : (parse (fun _ => 0) (chars "1 2 5")).isSome := by decide

def zeroes : ClientCommand := ⟨0, fun _ => ⟨0, 0, 0, 0⟩⟩

theorem getCC_reads_iff_full : ReadExactly (fun _ => 0) (List.replicate maxCliReq (chars "1 2 5"))
    (getCC (fun _ => 0) 8192 zeroes (repeated maxCliReq)) := by
  have whole : WholeCommands (fun _ => 0) (lines newline (repeated maxCliReq)) := by
    rw [lines_repeated]
    intro i l here
    obtain ⟨inside, rfl⟩ := List.getElem?_eq_some_iff.mp here
    rw [List.length_replicate] at inside
    rw [List.getElem_replicate, List.length_replicate, Nat.div_self maxCliReq_pos]
    exact ⟨fun _ => by simpa using inside, fun _ => parse_repeated⟩
  have reads := (getCC_reads_iff zeroes (short_repeated maxCliReq)).mpr whole
  rwa [lines_repeated] at reads

/-- The one line of the file makes no command. -/
theorem short_file_lost : getCC (fun _ => 0) 8192 zeroes (repeated 1) = [] ∧
    (lines newline (repeated 1)).filterMap (parse (fun _ => 0)) = [(1, 2, 5)] ∧
    ¬ ReadExactly (fun _ => 0) (lines newline (repeated 1))
      (getCC (fun _ => 0) 8192 zeroes (repeated 1)) := by
  have none : getCC (fun _ => 0) 8192 zeroes (repeated 1) = [] := by
    apply List.eq_nil_of_length_eq_zero
    rw [length_getCC zeroes (short_repeated 1), lines_repeated]
    rfl
  have one : (lines newline (repeated 1)).filterMap (parse (fun _ => 0)) = [(1, 2, 5)] := by
    rw [lines_repeated]
    decide
  refine ⟨none, one, fun read => ?_⟩
  have requests := read.requests
  rw [none, one] at requests
  cases requests

end Example

end Raft2pl.Client
