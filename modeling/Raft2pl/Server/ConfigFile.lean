/- config.cc: the constructor of Config, which reads the directory of the logs and the nodes of the
cluster from a file. -/

import Raft2pl.Header
import Raft2pl.Lib.Loop
import Raft2pl.Lib.Text
import Mathlib.Data.List.Forall2

set_option autoImplicit false
set_option relaxedAutoImplicit false

namespace Raft2pl.Server

open Lib (IStream lines splitOn isSpace isDigit decimal scanSign scanInt Ends)
open List (Forall₂)

def newline : BitVec 8 := 10

def colon : BitVec 8 := 58

/-- `node_conf`. -/
structure NodeConf where
  hostname : List (BitVec 8)
  port : CInt
  deriving DecidableEq

/-- `Config`, without the name of the file, which is only printed. -/
structure ConfigFile where
  storageDirectoryName : List (BitVec 8)
  nNodes : CInt
  nodes : List NodeConf
  deriving DecidableEq

namespace ConfigFile

/-- How the constructor ends, if it does: `error` is an `ERR` or an exception that nobody catches, and
`undefined` stands for what the language leaves open. -/
inductive Outcome
  | loaded (conf : ConfigFile)
  | error
  | undefined
  deriving DecidableEq

/-- `split`. -/
def split (s : List (BitVec 8)) (delim : BitVec 8) : List (List (BitVec 8)) := splitOn delim s

/-- `std::stoi`; `none` where it throws, because there is no number or it is out of range. -/
def stoi (s : List (BitVec 8)) : Option CInt :=
  match scanInt s with
  | none => none
  | some (value, _) => if -2 ^ 31 ≤ value ∧ value < 2 ^ 31 then some (.ofInt 32 value) else none

inductive Parsed
  | node (h : NodeConf)
  | throws
  | outOfBounds
  deriving DecidableEq

/-- The node of a line, `strs[0]` and `stoi(strs[1])`. -/
def parseNode (str : List (BitVec 8)) : Parsed :=
  match split str colon with
  | host :: port :: _ => match stoi port with
    | some p => .node ⟨host, p⟩
    | none => .throws
  | _ => .outOfBounds

/-- The program points of the constructor, with its variables. -/
inductive Loader
  | directory (ifs : IStream (BitVec 8)) (str : List (BitVec 8))
  | nodes (dir : List (BitVec 8)) (ifs : IStream (BitVec 8)) (str : List (BitVec 8))
      (nodes : List NodeConf) (cnt : CInt)

/-- One round of the loop that the constructor is in. The first loop looks at the line only, the
second one at the stream. -/
def body : Loader → Loader ⊕ Outcome
  | .directory ifs str =>
      let (ifs, str) := ifs.getline newline str
      if str = [] then .inl (.directory ifs str) else .inl (.nodes str ifs str [] 0)
  | .nodes dir ifs str nodes cnt =>
      let (ifs, str) := ifs.getline newline str
      if ifs.fail then .inr (.loaded ⟨dir, cnt, nodes⟩)
      else if str = [] then .inl (.nodes dir ifs str nodes cnt)
      else match parseNode str with
        | .outOfBounds => .inr .undefined
        | .throws => .inr .error
        | .node h =>
            -- `cnt++` on the largest `int`
            if cnt = .intMax 32 then .inr .undefined
            else .inl (.nodes dir ifs str (nodes ++ [h]) (cnt + 1))

/-- `Config::Config` ends so on a file with the given text, or on one that cannot be opened. -/
def Constructs : Option (List (BitVec 8)) → Outcome → Prop
  | none, out => out = .error
  | some text, out => Ends body (.directory (.opened text) []) out

def entries (text : List (BitVec 8)) : List (List (BitVec 8)) :=
  (lines newline text).filter (fun l => decide (l ≠ []))

structure DecimalInt (number : List (BitVec 8)) (value : CInt) : Prop where
  written : ∃ sign digits, number = sign ++ digits ∧ digits ≠ [] ∧ (∀ c ∈ digits, isDigit c) ∧
    ((sign = [] ∨ sign = [43]) ∧ value.toInt = decimal digits ∨
      sign = [45] ∧ value.toInt = -decimal digits)

structure HostPort (line : List (BitVec 8)) (h : NodeConf) : Prop where
  named : h.hostname ≠ []
  free : colon ∉ h.hostname
  written : ∃ number, line = h.hostname ++ colon :: number ∧ DecimalInt number h.port

/-- The text has a line with the directory and then a line for each of the nodes, and its other lines
are empty. -/
structure Describes (text dir : List (BitVec 8)) (nodes : List NodeConf) : Prop where
  written : ∃ ls, entries text = dir :: ls ∧ Forall₂ HostPort ls nodes

/-- The constructor ends, with a configuration or an error; and it returns what a text describes. -/
structure Faithful (file : Option (List (BitVec 8))) : Prop where
  terminates : ∃ out, Constructs file out ∧ out ≠ .undefined
  returns : ∀ text dir nodes, file = some text → Describes text dir nodes →
    ∃ conf, Constructs file (.loaded conf) ∧ conf.storageDirectoryName = dir ∧
      conf.nodes = nodes ∧ conf.nNodes.toInt = nodes.length

def isNode (line : List (BitVec 8)) : Bool :=
  match parseNode line with
  | .node _ => true
  | _ => false

/-- The exact condition on a text: it has a line that is not empty; of the lines behind it that give a
node without a break, there are no more than an `int` counts; and the line that breaks them off, if
there is one, has two parts. -/
structure Readable (text : List (BitVec 8)) : Prop where
  nonempty : entries text ≠ []
  counted : ((entries text).tail.takeWhile isNode).length < 2 ^ 31
  parts : ∀ l, ((entries text).tail.dropWhile isNode).head? = some l → 2 ≤ (split l colon).length

section Parsing

variable {line number : List (BitVec 8)} {value : CInt} {h : NodeConf}

private theorem isNode_iff : isNode line = true ↔ ∃ h, parseNode line = .node h := by
  unfold isNode
  cases parseNode line <;> simp

private theorem parseNode_outOfBounds :
    parseNode line = .outOfBounds ↔ (split line colon).length < 2 := by
  unfold parseNode
  split
  · next host port rest two =>
    cases stoi port <;> simp [two]
  · next few =>
    rcases parts : split line colon with _ | ⟨host, _ | ⟨port, rest⟩⟩
    · simp
    · simp
    · exact absurd parts (few host port rest)

private theorem stoi_decimal (written : DecimalInt number value) : stoi number = some value := by
  obtain ⟨sign, digits, rfl, some', all, meaning⟩ := written.written
  have inRange : -2 ^ 31 ≤ value.toInt ∧ value.toInt < 2 ^ 31 :=
    ⟨BitVec.le_toInt value, BitVec.toInt_lt⟩
  have scanned : ∃ rest, scanInt (sign ++ digits) = some (value.toInt, rest) := by
    rcases meaning with ⟨rfl | rfl, eq⟩ | ⟨rfl, eq⟩
    · exact ⟨[], by rw [eq]; exact Lib.scanInt_digits some' all⟩
    · exact ⟨[], by rw [eq]; exact Lib.scanInt_plus some' all⟩
    · exact ⟨[], by rw [eq]; exact Lib.scanInt_minus some' all⟩
  obtain ⟨rest, eq⟩ := scanned
  rw [stoi, eq]
  simp only [inRange, and_self, if_true, BitVec.ofInt_toInt]

private theorem decimalInt_chars (written : DecimalInt number value) :
    number ≠ [] ∧ colon ∉ number := by
  obtain ⟨sign, digits, rfl, some', all, meaning⟩ := written.written
  have noColon : colon ∉ digits := fun member => by
    have digit := all colon member
    simp [isDigit, colon] at digit
  refine ⟨by simp [some'], ?_⟩
  have signs : sign = [] ∨ sign = [43] ∨ sign = [45] := by
    rcases meaning with ⟨unsigned | unsigned, -⟩ | ⟨signed, -⟩
    · exact .inl unsigned
    · exact .inr (.inl unsigned)
    · exact .inr (.inr signed)
  rcases signs with rfl | rfl | rfl <;> simp [noColon] <;> decide

private theorem parseNode_hostPort (written : HostPort line h) : parseNode line = .node h := by
  obtain ⟨number, rfl, decimal⟩ := written.written
  obtain ⟨some', free⟩ := decimalInt_chars decimal
  have parts : split (h.hostname ++ colon :: number) colon = [h.hostname, number] := by
    rw [split, Lib.splitOn_eq, Lib.lines_append written.free, Lib.lines_of_not_mem free some']
    simp [written.named, some']
  rw [parseNode, parts]
  simp only [stoi_decimal decimal]

end Parsing

section Loading

variable {dir : List (BitVec 8)} {is : IStream (BitVec 8)} {str text : List (BitVec 8)}
  {nodes : List NodeConf} {ls : List (List (BitVec 8))} {out : Outcome}

/-- What the second loop makes of the lines that are not empty. -/
def readNodes (dir : List (BitVec 8)) : List (List (BitVec 8)) → List NodeConf → Outcome
  | [], nodes => .loaded ⟨dir, .ofNat 32 nodes.length, nodes⟩
  | l :: ls, nodes => match parseNode l with
    | .outOfBounds => .undefined
    | .throws => .error
    | .node h => if nodes.length + 1 = 2 ^ 31 then .undefined else readNodes dir ls (nodes ++ [h])

private theorem intMax_iff {n : Nat} (small : n < 2 ^ 31) :
    BitVec.ofNat 32 n = .intMax 32 ↔ n + 1 = 2 ^ 31 := by
  rw [← BitVec.toNat_inj, BitVec.toNat_ofNat, Nat.mod_eq_of_lt (by omega)]
  have max : (BitVec.intMax 32).toNat = 2 ^ 31 - 1 := by decide
  rw [max]
  omega

private theorem nodes_ends (dir str : List (BitVec 8)) (is : IStream (BitVec 8))
    (few : nodes.length < 2 ^ 31) :
    Ends body (.nodes dir is str nodes (.ofNat 32 nodes.length)) out ↔
      out = readNodes dir ((is.linesLeft newline).filter (fun l => decide (l ≠ []))) nodes := by
  induction all : is.linesLeft newline generalizing is str nodes with
  | nil =>
    obtain ⟨failed, -, -⟩ := IStream.getline_nil str all
    have leave : body (.nodes dir is str nodes (.ofNat 32 nodes.length)) =
        .inr (.loaded ⟨dir, .ofNat 32 nodes.length, nodes⟩) := by simp [body, failed]
    rw [Lib.ends_inr leave]
    rfl
  | cons l ls ih =>
    obtain ⟨line, read, behind⟩ := IStream.getline_cons str all
    by_cases empty : l = []
    · have goOn : body (.nodes dir is str nodes (.ofNat 32 nodes.length)) =
          .inl (.nodes dir (is.getline newline str).1 l nodes (.ofNat 32 nodes.length)) := by
        simp [body, line, read, empty]
      rw [Lib.ends_inl goOn, ih l _ few behind]
      simp [empty]
    · rw [List.filter_cons_of_pos (by simpa using empty), readNodes]
      cases parsed : parseNode l with
      | outOfBounds =>
        have leave : body (.nodes dir is str nodes (.ofNat 32 nodes.length)) = .inr .undefined := by
          simp [body, line, read, empty, parsed]
        rw [Lib.ends_inr leave]
      | throws =>
        have leave : body (.nodes dir is str nodes (.ofNat 32 nodes.length)) = .inr .error := by
          simp [body, line, read, empty, parsed]
        rw [Lib.ends_inr leave]
      | node h =>
        by_cases last : nodes.length + 1 = 2 ^ 31
        · have leave : body (.nodes dir is str nodes (.ofNat 32 nodes.length)) =
              .inr .undefined := by
            simp [body, line, read, empty, parsed, (intMax_iff few).mpr last]
          rw [Lib.ends_inr leave]
          simp only [last, if_true]
        · have room : ¬ BitVec.ofNat 32 nodes.length = .intMax 32 := fun full =>
            last ((intMax_iff few).mp full)
          have counted : BitVec.ofNat 32 nodes.length + 1 = .ofNat 32 (nodes ++ [h]).length := by
            rw [List.length_append, BitVec.ofNat_add]
            rfl
          have longer : (nodes ++ [h]).length < 2 ^ 31 := by
            rw [List.length_append, List.length_singleton]
            omega
          have goOn : body (.nodes dir is str nodes (.ofNat 32 nodes.length)) =
              .inl (.nodes dir (is.getline newline str).1 l (nodes ++ [h])
                (.ofNat 32 (nodes ++ [h]).length)) := by
            rw [← counted]
            simp [body, line, read, empty, parsed, room]
          rw [Lib.ends_inl goOn, ih l _ longer behind]
          simp only [last, if_false]

private theorem directory_ends (is : IStream (BitVec 8)) : Ends body (.directory is []) out ↔
    ∃ dir ls, (is.linesLeft newline).filter (fun l => decide (l ≠ [])) = dir :: ls ∧
      out = readNodes dir ls [] := by
  induction all : is.linesLeft newline generalizing is with
  | nil =>
    constructor
    · intro ends
      have stuck : ∀ s, (∃ is, s = .directory is [] ∧ is.linesLeft newline = []) →
          ∃ s', body s = .inl s' ∧ ∃ is, s' = .directory is [] ∧ is.linesLeft newline = [] := by
        rintro s ⟨is, rfl, none⟩
        obtain ⟨-, none', kept⟩ := IStream.getline_nil [] none
        exact ⟨.directory (is.getline newline []).1 [], by simp [body, kept rfl], _, rfl, none'⟩
      exact absurd ends (Lib.not_ends_of_invariant stuck ⟨is, rfl, all⟩)
    · rintro ⟨dir, ls, cut, -⟩
      simp at cut
  | cons l ls ih =>
    obtain ⟨line, read, behind⟩ := IStream.getline_cons [] all
    by_cases empty : l = []
    · have goOn : body (.directory is []) = .inl (.directory (is.getline newline []).1 []) := by
        simp [body, line, empty]
      rw [Lib.ends_inl goOn, ih _ behind]
      simp [empty]
    · have goOn : body (.directory is []) =
          .inl (.nodes l (is.getline newline []).1 l [] (.ofNat 32 0)) := by
        simp [body, line, empty]
      have none : ([] : List NodeConf).length < 2 ^ 31 := by decide
      have second : Ends body (.nodes l (is.getline newline []).1 l [] (.ofNat 32 0)) out ↔ _ :=
        nodes_ends l l _ none
      rw [behind] at second
      rw [Lib.ends_inl goOn, List.filter_cons_of_pos (by simpa using empty)]
      constructor
      · intro ends
        exact ⟨l, _, rfl, second.mp ends⟩
      · rintro ⟨dir, rest, cut, eq⟩
        obtain ⟨rfl, rfl⟩ := List.cons.inj cut
        exact second.mpr eq

private theorem constructs_iff : Constructs (some text) out ↔
    ∃ dir ls, entries text = dir :: ls ∧ out = readNodes dir ls [] := directory_ends _

theorem constructs_unique {file : Option (List (BitVec 8))} {out' : Outcome}
    (one : Constructs file out) (other : Constructs file out') : out = out' := by
  cases file with
  | none => exact Eq.trans one (Eq.symm other)
  | some text => exact Ends.unique one other

private theorem readNodes_defined (few : nodes.length < 2 ^ 31) :
    readNodes dir ls nodes ≠ .undefined ↔
    nodes.length + (ls.takeWhile isNode).length < 2 ^ 31 ∧
      ∀ l, (ls.dropWhile isNode).head? = some l → 2 ≤ (split l colon).length := by
  induction ls generalizing nodes with
  | nil => simpa [readNodes] using few
  | cons l ls ih =>
    cases parsed : parseNode l with
    | outOfBounds =>
      have stop : isNode l = false := by simp [isNode, parsed]
      have short := parseNode_outOfBounds.mp parsed
      simp only [readNodes, parsed, stop, ne_eq, not_true_eq_false, List.takeWhile_cons,
        List.dropWhile_cons, Bool.false_eq_true, if_false, List.head?_cons, Option.some.injEq,
        forall_eq', false_iff, not_and]
      omega
    | throws =>
      have stop : isNode l = false := by simp [isNode, parsed]
      have two : 2 ≤ (split l colon).length := by
        by_contra short
        rw [parseNode_outOfBounds.mpr (by omega)] at parsed
        cases parsed
      simpa [readNodes, parsed, stop, two] using few
    | node h =>
      have go : isNode l = true := by simp [isNode, parsed]
      simp only [readNodes, parsed, go, List.takeWhile_cons, List.dropWhile_cons, if_true,
        List.length_cons]
      by_cases last : nodes.length + 1 = 2 ^ 31
      · simp only [last, if_true, ne_eq, not_true_eq_false, false_iff, not_and]
        omega
      · have longer : (nodes ++ [h]).length < 2 ^ 31 := by
          rw [List.length_append, List.length_singleton]
          omega
        rw [if_neg last, ih longer, List.length_append, List.length_singleton, Nat.add_right_comm,
          Nat.add_assoc]

private theorem readNodes_described {confs : List NodeConf} (written : Forall₂ HostPort ls confs)
    (few : nodes.length + confs.length < 2 ^ 31) : readNodes dir ls nodes =
      .loaded ⟨dir, .ofNat 32 (nodes ++ confs).length, nodes ++ confs⟩ := by
  induction written generalizing nodes with
  | nil => simp [readNodes]
  | @cons l h ls confs first _ ih =>
    rw [List.length_cons] at few
    have room : ¬ nodes.length + 1 = 2 ^ 31 := by omega
    simp only [readNodes, parseNode_hostPort first, room, if_false]
    rw [ih (by rw [List.length_append, List.length_singleton]; omega), List.append_assoc,
      List.singleton_append]

private theorem takeWhile_described {confs : List NodeConf} (written : Forall₂ HostPort ls confs) :
    (ls.takeWhile isNode).length = confs.length := by
  rw [List.takeWhile_eq_self_iff.mpr, written.length_eq]
  induction written with
  | nil => simp
  | @cons l h ls confs first _ ih =>
    exact List.forall_mem_cons.mpr ⟨isNode_iff.mpr ⟨h, parseNode_hostPort first⟩, ih⟩

private theorem returns_iff : (∃ out, Constructs (some text) out) ↔ entries text ≠ [] := by
  constructor
  · rintro ⟨out, ends⟩ none
    obtain ⟨dir, ls, cut, -⟩ := constructs_iff.mp ends
    simp [none] at cut
  · intro more
    obtain ⟨dir, ls, cut⟩ := List.exists_cons_of_ne_nil more
    exact ⟨_, constructs_iff.mpr ⟨dir, ls, cut, rfl⟩⟩

theorem returns_described (describes : Describes text dir nodes) (few : nodes.length < 2 ^ 31) :
    Constructs (some text) (.loaded ⟨dir, .ofNat 32 nodes.length, nodes⟩) := by
  obtain ⟨ls, cut, written⟩ := describes.written
  have read : readNodes dir ls [] = .loaded ⟨dir, .ofNat 32 nodes.length, nodes⟩ :=
    readNodes_described written (by simpa using few)
  exact constructs_iff.mpr ⟨dir, ls, cut, read.symm⟩

end Loading

/-- The loop for the directory never looks at the stream, so on a text with empty lines only it goes
on forever; and the second loop takes the port from behind the vector where a line has one part only.
Where neither happens, and an `int` counts the nodes, the constructor does what it should. -/
theorem faithful_iff (file : Option (List (BitVec 8))) :
    Faithful file ↔ ∀ text, file = some text → Readable text := by
  constructor
  · rintro ⟨⟨out, ends, defined⟩, -⟩ text rfl
    obtain ⟨dir, ls, cut, rfl⟩ := constructs_iff.mp ends
    have few : ([] : List NodeConf).length < 2 ^ 31 := by decide
    obtain ⟨counted, parts⟩ := (readNodes_defined few).mp defined
    refine ⟨by simp [cut], ?_, ?_⟩
    · simpa [cut] using counted
    · simpa [cut] using parts
  · intro readable
    cases file with
    | none => exact ⟨⟨.error, rfl, by simp⟩, fun text _ _ opened => by simp at opened⟩
    | some text =>
      obtain ⟨nonempty, counted, parts⟩ := readable text rfl
      obtain ⟨dir, ls, cut⟩ := List.exists_cons_of_ne_nil nonempty
      rw [cut, List.tail_cons] at counted parts
      have few : ([] : List NodeConf).length < 2 ^ 31 := by decide
      have defined : readNodes dir ls [] ≠ .undefined :=
        (readNodes_defined few).mpr ⟨by simpa using counted, parts⟩
      refine ⟨⟨_, constructs_iff.mpr ⟨dir, ls, cut, rfl⟩, defined⟩, ?_⟩
      rintro _ dir' nodes ⟨⟩ describes
      obtain ⟨ls', cut', written⟩ := describes.written
      rw [cut] at cut'
      obtain ⟨rfl, rfl⟩ := List.cons.inj cut'
      rw [takeWhile_described written] at counted
      refine ⟨_, returns_described describes counted, rfl, rfl, ?_⟩
      simp only [BitVec.toInt_ofNat', Nat.reducePow]
      rw [Int.bmod_eq_of_le] <;> omega

/-- An empty file is read forever. -/
theorem empty_file_loops : (∀ out, ¬ Constructs (some []) out) ∧ ¬ Faithful (some []) := by
  have loops : ∀ out, ¬ Constructs (some []) out := by
    intro out ends
    exact returns_iff.mp ⟨out, ends⟩ rfl
  exact ⟨loops, fun faithful => by
    obtain ⟨out, ends, -⟩ := faithful.terminates
    exact loops out ends⟩

end ConfigFile

end Raft2pl.Server
