/- client.cc: the loop of main, which sends the commands of the workload as often as it is told. -/

import Raft2pl.Header
import Mathlib.Data.List.GetD
import Mathlib.Tactic.Common

set_option autoImplicit false
set_option relaxedAutoImplicit false

namespace Raft2pl.Client

/-- The inner loop of `main`, on the numbers of the commit messages that arrive. It ends with the
one that makes `MAX_CLI_REQ` messages of its command, and leaves those behind it in the socket.
`none` stands for waiting forever. -/
def receive (commandId : CInt) : Nat → List CInt → Option (List CInt)
  | _, [] => none
  | commitCount, m :: rest =>
      let commitCount := if m = commandId then commitCount + 1 else commitCount
      if commitCount = maxCliReq then some rest else receive commandId commitCount rest

/-- The variables of `main` where its loop begins a round, the iterator as an index, what is left in
the socket, and what was sent so far. -/
structure MainLoop where
  itr : Nat
  commandId : CInt
  inbox : List CInt
  sent : List ClientCommand

namespace MainLoop

variable (vec : List ClientCommand) (txCount : CInt) (replies : Nat → List CInt)

/-- The body of the loop, and whether it ends with the `break`. `replies k` are the messages that
arrive after the command sent in round `k`. -/
def body (s : MainLoop) : Option (Bool × MainLoop) := do
  let cc ← vec[s.itr]?
  let inbox ← receive s.commandId 0 (s.inbox ++ replies s.sent.length)
  let commandId := s.commandId + 1
  let itr := if s.itr = vec.length - 1 then 0 else s.itr
  some (commandId == txCount,
    ⟨itr, commandId, inbox, s.sent ++ [{ cc with commandId := s.commandId }]⟩)

/-- The loop: all that was sent when it is left. -/
def run : Nat → MainLoop → Option (List ClientCommand)
  | 0, _ => none
  | fuel + 1, s =>
      if s.itr = vec.length then some s.sent
      else do
        let (last, s) ← s.body vec txCount replies
        if last then some s.sent else run fuel { s with itr := s.itr + 1 }

def start : MainLoop := ⟨0, 0, [], []⟩

/-- A command of the workload as it is sent in round `k`. -/
def stamp (k : Nat) (cc : ClientCommand) : ClientCommand := { cc with commandId := .ofNat 32 k }

/-- The replay that is wanted: `txCount` commands, in round `k` the one at `k` modulo the length of
the workload. -/
structure Replayed (sent : List ClientCommand) : Prop where
  length : sent.length = txCount.toNat
  command : ∀ k < txCount.toNat, sent[k]? = (vec[k % vec.length]?).map (stamp k)

/-- The index of the command that round `k` sends: after its last command the loop goes on with the
one at index 1. -/
def position (n k : Nat) : Nat := if k < n then k else 1 + (k - n) % (n - 1)

def sentUpTo (k : Nat) : List ClientCommand :=
  (List.range k).filterMap (fun j => (vec[position vec.length j]?).map (stamp j))

end MainLoop

private theorem receive_some {commandId : CInt} {count : Nat} {inbox : List CInt}
    (below : count < maxCliReq) (enough : maxCliReq ≤ count + inbox.count commandId) :
    ∃ rest, receive commandId count inbox = some rest := by
  induction inbox generalizing count with
  | nil => simp only [List.count_nil] at enough; omega
  | cons m rest ih =>
    obtain ⟨c, here, step, total⟩ : ∃ c, (if m = commandId then count + 1 else count) = c ∧
        c ≤ count + 1 ∧ c + rest.count commandId = count + (m :: rest).count commandId := by
      refine ⟨_, rfl, ?_⟩
      rw [List.count_cons]
      by_cases same : m = commandId
      · simp [same]
        omega
      · simp [same]
    simp only [receive, here]
    by_cases full : c = maxCliReq
    · exact ⟨rest, if_pos full⟩
    · rw [if_neg full]
      exact ih (by omega) (by omega)

namespace MainLoop

variable {vec : List ClientCommand} {txCount : CInt} {replies : Nat → List CInt} {n k : Nat}

private theorem position_lt (two : 2 ≤ n) (k : Nat) : position n k < n := by
  unfold position
  split
  · assumption
  · have := Nat.mod_lt (k - n) (show 0 < n - 1 by omega)
    omega

private theorem position_succ (two : 2 ≤ n) (k : Nat) :
    (if position n k = n - 1 then 0 else position n k) + 1 = position n (k + 1) := by
  unfold position
  by_cases first : k < n
  · by_cases last : k + 1 < n
    · simp only [first, last, if_true]
      rw [if_neg (by omega)]
    · obtain rfl : n = k + 1 := by omega
      simp
  · rw [if_neg first, if_neg (show ¬ k + 1 < n by omega)]
    have wrap : (k + 1 - n) % (n - 1) =
        if (k - n) % (n - 1) = n - 2 then 0 else (k - n) % (n - 1) + 1 := by
      have next : k + 1 - n = (k - n) + 1 := by omega
      rw [next, Nat.add_mod_eq_ite]
      have small := Nat.mod_lt (k - n) (show 0 < n - 1 by omega)
      by_cases one : n = 2
      · subst one
        simp [Nat.mod_one]
      · rw [Nat.mod_eq_of_lt (show 1 < n - 1 by omega)]
        split <;> split <;> omega
    rw [wrap]
    split <;> split <;> omega

private theorem sentUpTo_succ (inside : position vec.length k < vec.length) :
    sentUpTo vec (k + 1) = sentUpTo vec k ++ [stamp k vec[position vec.length k]] := by
  rw [sentUpTo, List.range_succ, List.filterMap_append]
  simp [sentUpTo, inside]

private theorem length_sentUpTo (inside : ∀ j < k, position vec.length j < vec.length) :
    (sentUpTo vec k).length = k := by
  induction k with
  | zero => rfl
  | succ k ih =>
    have here := inside k (Nat.lt_succ_self k)
    rw [sentUpTo_succ here, List.length_append, ih (fun j before => inside j (by omega))]
    rfl

private theorem getElem?_sentUpTo (inside : ∀ j < k, position vec.length j < vec.length) {j : Nat}
    (before : j < k) : (sentUpTo vec k)[j]? = (vec[position vec.length j]?).map (stamp j) := by
  induction k with
  | zero => omega
  | succ k ih =>
    have inside' : ∀ j < k, position vec.length j < vec.length := fun j le => inside j (by omega)
    have here := inside k (Nat.lt_succ_self k)
    have size := length_sentUpTo inside'
    rw [sentUpTo_succ here]
    by_cases last : j = k
    · subst last
      rw [List.getElem?_append_right (by omega), size]
      simp [here]
    · rw [List.getElem?_append_left (by omega)]
      exact ih inside' (by omega)

section Rounds

def atRound (vec : List ClientCommand) (k : Nat) (inbox : List CInt) : MainLoop :=
  ⟨position vec.length k, .ofNat 32 k, inbox, sentUpTo vec k⟩

private theorem body_atRound (answered : maxCliReq ≤ (replies k).count (.ofNat 32 k))
    (inside : ∀ j < k + 1, position vec.length j < vec.length) (inbox : List CInt) :
    ∃ rest, (atRound vec k inbox).body vec txCount replies =
      some (BitVec.ofNat 32 (k + 1) == txCount,
        ⟨if position vec.length k = vec.length - 1 then 0 else position vec.length k,
          .ofNat 32 (k + 1), rest, sentUpTo vec (k + 1)⟩) := by
  have here := inside k (Nat.lt_succ_self k)
  have size : (sentUpTo vec k).length = k :=
    length_sentUpTo (fun j before => inside j (by omega))
  have enough : maxCliReq ≤ 0 + (inbox ++ replies k).count (BitVec.ofNat 32 k) := by
    rw [List.count_append]
    omega
  obtain ⟨rest, received⟩ := receive_some (by decide) enough
  refine ⟨rest, ?_⟩
  have next : BitVec.ofNat 32 k + 1#32 = BitVec.ofNat 32 (k + 1) := by
    rw [BitVec.ofNat_add]
  simp [body, atRound, size, received, here, next, sentUpTo_succ here, stamp]
  rfl

variable (answered : ∀ k < txCount.toNat, maxCliReq ≤ (replies k).count (.ofNat 32 k))
include answered

private theorem run_long (two : 2 ≤ vec.length) {fuel : Nat} (inbox : List CInt)
    (before : k < txCount.toNat) (enough : txCount.toNat ≤ fuel + k) :
    (atRound vec k inbox).run vec txCount replies fuel = some (sentUpTo vec txCount.toNat) := by
  induction fuel generalizing k inbox with
  | zero => omega
  | succ fuel ih =>
    have inside : ∀ j < k + 1, position vec.length j < vec.length := fun j _ => position_lt two j
    obtain ⟨rest, taken⟩ := body_atRound (answered k before) inside inbox
    have more : ¬ (atRound vec k inbox).itr = vec.length := (inside k (Nat.lt_succ_self k)).ne
    rw [run, if_neg more, taken]
    by_cases last : k + 1 = txCount.toNat
    · have same : BitVec.ofNat 32 (k + 1) = txCount := by
        rw [last]
        simp
      simp [last]
    · have apart : ¬ BitVec.ofNat 32 (k + 1) = txCount := by
        intro same
        have value := congrArg BitVec.toNat same
        have small := txCount.isLt
        rw [BitVec.toNat_ofNat, Nat.mod_eq_of_lt (by omega)] at value
        omega
      have again := ih rest (show k + 1 < txCount.toNat by omega) (by omega)
      simp only [Option.bind_eq_bind, Option.bind_some, beq_iff_eq, apart, if_false,
        position_succ two k]
      exact again

private theorem run_single (one : vec.length = 1) (positive : 0 < txCount.toNat) (fuel : Nat) :
    start.run vec txCount replies (fuel + 2) = some (sentUpTo vec 1) := by
  have inside : ∀ j < 0 + 1, position vec.length j < vec.length := by
    intro j before
    obtain rfl : j = 0 := by omega
    simp [position, one]
  obtain ⟨rest, taken⟩ := body_atRound (answered 0 positive) inside []
  have begin : atRound vec 0 [] = start := by simp [atRound, start, position, one, sentUpTo]
  rw [begin] at taken
  have more : ¬ start.itr = vec.length := by simp [start, one]
  rw [run, if_neg more, taken]
  simp [run, one, position]

def rounds (n t : Nat) : Nat := if n = 1 then 1 else t

private theorem run_start (nonempty : vec ≠ []) (positive : 0 < txCount.toNat) :
    start.run vec txCount replies (txCount.toNat + 1) =
      some (sentUpTo vec (rounds vec.length txCount.toNat)) := by
  have some := List.length_pos_of_ne_nil nonempty
  by_cases one : vec.length = 1
  · obtain ⟨t, next⟩ : ∃ t, txCount.toNat = t + 1 := ⟨txCount.toNat - 1, by omega⟩
    rw [rounds, if_pos one, next]
    exact run_single answered one positive t
  · have begin : atRound vec 0 [] = start := by simp [atRound, start, position, some, sentUpTo]
    rw [rounds, if_neg one, ← begin]
    exact run_long answered (by omega) [] positive (by omega)

end Rounds

private theorem run_mono {s : MainLoop} {fuel : Nat} {sent : List ClientCommand}
    (done : s.run vec txCount replies fuel = some sent) (more : Nat) :
    s.run vec txCount replies (fuel + more) = some sent := by
  induction fuel generalizing s with
  | zero => simp [run] at done
  | succ fuel ih =>
    rw [Nat.add_right_comm]
    unfold run at done ⊢
    by_cases ended : s.itr = vec.length
    · rwa [if_pos ended] at done ⊢
    · rw [if_neg ended] at done ⊢
      obtain ⟨⟨last, s'⟩, taken, rest⟩ := Option.bind_eq_some_iff.mp done
      rw [taken]
      cases last with
      | true => exact rest
      | false => exact ih rest

/-- The first commands carry the same requests as the first one: so many of them as the rounds after
the first pass through the workload need, and one more. -/
def SameRequests (vec : List ClientCommand) (t : Nat) : Prop :=
  ∀ j < vec.length, j + vec.length ≤ t →
    (vec[j]?).map ClientCommand.req = (vec[0]?).map ClientCommand.req

private theorem stamp_eq_iff {a b : Option ClientCommand} (k : Nat) :
    a.map (stamp k) = b.map (stamp k) ↔ a.map ClientCommand.req = b.map ClientCommand.req := by
  cases a <;> cases b <;> simp [stamp]

/-- The rounds after the first pass through the workload send what they should just when the
commands are the same there. -/
theorem sameRequests_iff (two : 2 ≤ vec.length) (t : Nat) : SameRequests vec t ↔
    ∀ k < t, (vec[position vec.length k]?).map ClientCommand.req =
      (vec[k % vec.length]?).map ClientCommand.req := by
  constructor
  · intro same k before
    by_cases first : k < vec.length
    · rw [position, if_pos first, Nat.mod_eq_of_lt first]
    · -- both indices are among the first ones
      have less : position vec.length k + vec.length ≤ k + 1 := by
        rw [position, if_neg first]
        have := Nat.mod_le (k - vec.length) (vec.length - 1)
        omega
      have less' : k % vec.length + vec.length ≤ k := by
        rw [Nat.mod_eq_sub_mod (by omega)]
        have := Nat.mod_le (k - vec.length) vec.length
        omega
      rw [same _ (position_lt two k) (by omega), same _ (Nat.mod_lt _ (by omega)) (by omega)]
  · intro all j inside enough
    induction j with
    | zero => rfl
    | succ j ih =>
      have round := all (vec.length + j) (by omega)
      have sent : position vec.length (vec.length + j) = j + 1 := by
        rw [position, if_neg (by omega), Nat.add_sub_cancel_left, Nat.mod_eq_of_lt (by omega)]
        omega
      rw [sent, Nat.add_mod_left, Nat.mod_eq_of_lt (by omega)] at round
      rw [round]
      exact ih (by omega) (by omega)

private theorem replayed_sentUpTo_iff (nonempty : vec ≠ []) (positive : 0 < txCount.toNat) :
    Replayed vec txCount (sentUpTo vec (rounds vec.length txCount.toNat)) ↔
      txCount.toNat ≤ vec.length ∨ 2 ≤ vec.length ∧ SameRequests vec txCount.toNat := by
  have some := List.length_pos_of_ne_nil nonempty
  by_cases one : vec.length = 1
  · have inside : ∀ j < 1, position vec.length j < vec.length := by
      intro j before
      obtain rfl : j = 0 := by omega
      simp [position, some]
    rw [rounds, if_pos one]
    constructor
    · intro replayed
      have size := replayed.length
      rw [length_sentUpTo inside] at size
      exact .inl (by omega)
    · intro short
      have single : txCount.toNat = 1 := by
        rcases short with few | ⟨two, -⟩ <;> omega
      refine ⟨by rw [length_sentUpTo inside, single], fun k before => ?_⟩
      obtain rfl : k = 0 := by omega
      rw [getElem?_sentUpTo inside (by omega)]
      simp [position, some]
  · have two : 2 ≤ vec.length := by omega
    have inside : ∀ j < txCount.toNat, position vec.length j < vec.length :=
      fun j _ => position_lt two j
    have all : Replayed vec txCount (sentUpTo vec txCount.toNat) ↔
        SameRequests vec txCount.toNat := by
      rw [sameRequests_iff two]
      constructor
      · intro replayed k before
        have here := replayed.command k before
        rwa [getElem?_sentUpTo inside before, stamp_eq_iff] at here
      · intro same
        refine ⟨length_sentUpTo inside, fun k before => ?_⟩
        rw [getElem?_sentUpTo inside before, stamp_eq_iff]
        exact same k before
    rw [rounds, if_neg one, all]
    constructor
    · exact fun same => .inr ⟨two, same⟩
    · rintro (few | ⟨-, same⟩)
      · intro j inside enough
        obtain rfl : j = 0 := by omega
        rfl
      · exact same

private theorem run_iff (nonempty : vec ≠ []) (positive : 0 < txCount.toNat)
    (answered : ∀ k < txCount.toNat, maxCliReq ≤ (replies k).count (.ofNat 32 k)) :
    (∃ fuel sent, start.run vec txCount replies fuel = some sent ∧ Replayed vec txCount sent) ↔
      Replayed vec txCount (sentUpTo vec (rounds vec.length txCount.toNat)) := by
  have result := run_start answered nonempty positive
  constructor
  · rintro ⟨fuel, sent, done, replayed⟩
    have here := run_mono done (txCount.toNat + 1)
    have there := run_mono result fuel
    rw [Nat.add_comm fuel] at here
    obtain rfl := Option.some.inj (here.symm.trans there)
    exact replayed
  · exact fun replayed => ⟨_, _, result, replayed⟩

/-- After a wrap-around the loop goes on behind the first command, and a workload of one command is
sent once. So the replay is the wanted one just when the workload is not used up before, or when the
commands that change places are the same. -/
theorem replays_iff (nonempty : vec ≠ []) (positive : 0 < txCount.toInt)
    (answered : ∀ k < txCount.toNat, maxCliReq ≤ (replies k).count (.ofNat 32 k)) :
    (∃ fuel sent, start.run vec txCount replies fuel = some sent ∧ Replayed vec txCount sent) ↔
      txCount.toNat ≤ vec.length ∨ 2 ≤ vec.length ∧ SameRequests vec txCount.toNat := by
  have positive' : 0 < txCount.toNat := by
    rcases Nat.eq_zero_or_pos txCount.toNat with zero | pos
    · rw [BitVec.toInt_eq_toNat_cond, zero] at positive
      simp at positive
    · exact pos
  rw [run_iff nonempty positive' answered, replayed_sentUpTo_iff nonempty positive']

section Example

def twoCommands : List ClientCommand :=
  [⟨0, fun _ => ⟨1, 2, 5, 0⟩⟩, ⟨0, fun _ => ⟨1, 3, 5, 0⟩⟩]

def answers (k : Nat) : List CInt := List.replicate maxCliReq (.ofNat 32 k)

private theorem answers_enough (k : Nat) : maxCliReq ≤ (answers k).count (.ofNat 32 k) := by
  simp [answers]

theorem replays_iff_once : ∃ fuel sent, start.run twoCommands 2 answers fuel = some sent ∧
    Replayed twoCommands 2 sent :=
  (replays_iff (by simp [twoCommands]) (by decide) (fun k _ => answers_enough k)).mpr
    (.inl (by decide))

/-- The third command that is sent is the second one of the workload again. -/
theorem wrap_skips_first :
    (∃ fuel sent, start.run twoCommands 3 answers fuel = some sent ∧
      sent[2]? = (twoCommands[1]?).map (stamp 2)) ∧
    ¬ ∃ fuel sent, start.run twoCommands 3 answers fuel = some sent ∧
      Replayed twoCommands 3 sent := by
  have nonempty : twoCommands ≠ [] := by simp [twoCommands]
  constructor
  · exact ⟨_, _, run_start (fun k _ => answers_enough k) nonempty (by decide), rfl⟩
  · rw [run_iff nonempty (by decide) (fun k _ => answers_enough k)]
    intro replayed
    have third := replayed.command 2 (by decide)
    have keys := congrArg (Option.map (fun cc => (cc.req ⟨0, by decide⟩).toKey)) third
    revert keys
    decide

end Example

end MainLoop

end Raft2pl.Client
