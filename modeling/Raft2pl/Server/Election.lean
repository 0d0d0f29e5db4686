/- Raft::setupLeader, the vote requests it sends, and the status that a node loads at start. -/

import Raft2pl.Header
import Raft2pl.Lib.Run
import Mathlib.Data.Fintype.Pi

set_option autoImplicit false
set_option relaxedAutoImplicit false

namespace Raft2pl.Server

open Lib (Run Steps exec exec_run)

/-- `State`. -/
inductive State
  | follower
  | candidate
  | leader
  deriving DecidableEq

/-- The files `currentTerm` and `votedFor`: what `atoi` makes of the first line, if there is one. -/
structure Storage where
  currentTerm : Option Int
  votedFor : Option Int
  deriving DecidableEq

/-- `Status`, without the votes for batches. -/
structure Status where
  state : State
  currentTerm : Int
  votedFor : Int
  deriving DecidableEq

namespace Status

def initCurrentTerm (file : Option Int) : Int := file.getD 0

def initVotedFor (file : Option Int) : Int := file.getD (-1)

/-- `Status::Status`, and the `setState` that follows it in the constructor of `Raft`. -/
def ofStorage (files : Storage) : Status where
  state := .follower
  currentTerm := initCurrentTerm files.currentTerm
  votedFor := initVotedFor files.votedFor

def becomeLeader (s : Status) : Status := { s with state := .leader }

def setVotedFor (s : Status) (nodeId : Int) : Status := { s with votedFor := nodeId }

end Status

/-- The program points of `Raft::transmitter`; `requesting rest` is the loop of `setupLeader` with
the nodes it still has to call. -/
inductive Transmitter (N : Nat)
  | ready
  | requesting (rest : List (Fin N))
  | sleeping
  deriving DecidableEq

/-- What a running process has. -/
structure Node (N : Nat) where
  status : Status
  transmitter : Transmitter N
  deriving DecidableEq

/-- The cluster before any client: the running processes, and the `REQUEST_VOTE` calls that have
arrived at a node and wait for its `receiver`, by their senders. -/
structure Election (N : Nat) where
  node : Fin N → Option (Node N)
  requests : Fin N → List (Fin N)

/-- The next call at a node. -/
inductive ElectionAct (N : Nat)
  | start (f : Fin N)
  | stop (f : Fin N)
  | voteForMe (f : Fin N)
  | requestVote (f g : Fin N)
  | becomeLeader (f : Fin N)
  | setVotedFor (f c : Fin N)
  deriving DecidableEq

/-- How the nodes were built, and what their storage directories hold. The program never writes
the two files. -/
structure Build (N : Nat) where
  canBeCandidacy : Fin N → Bool
  storage : Fin N → Storage

namespace Election

section Step

variable {N : Nat} (build : Build N)

def others (f : Fin N) : List (Fin N) := (List.finRange N).filter (fun g => decide (g ≠ f))

def setNode (s : Election N) (f : Fin N) (n : Node N) : Election N :=
  { s with node := Function.update s.node f (some n) }

def step (s : Election N) : ElectionAct N → Option (Election N)
  | .start f => match s.node f with
      | none => some (s.setNode f ⟨.ofStorage (build.storage f), .ready⟩)
      | some _ => none
  -- the connections of a process end with it
  | .stop f => match s.node f with
      | none => none
      | some _ => some {
          node := Function.update s.node f none
          requests := Function.update s.requests f [] }
  | .voteForMe f => match s.node f with
      | some ⟨status, .ready⟩ =>
          if build.canBeCandidacy f then
            some (s.setNode f ⟨status.setVotedFor f.val, .requesting (others f)⟩)
          else some (s.setNode f ⟨status, .sleeping⟩)
      | _ => none
  -- connect2raftnode tries until the other node accepts
  | .requestVote f g => match s.node f, s.node g with
      | some ⟨status, .requesting (g' :: rest)⟩, some _ =>
          if g' = g then
            some { s.setNode f ⟨status, .requesting rest⟩ with
              requests := Function.update s.requests g (s.requests g ++ [f]) }
          else none
      | _, _ => none
  | .becomeLeader f => match s.node f with
      | some ⟨status, .requesting []⟩ => some (s.setNode f ⟨status.becomeLeader, .sleeping⟩)
      | _ => none
  | .setVotedFor f c => match s.node f with
      | some n =>
          if c ∈ s.requests f then
            some { s.setNode f { n with status := n.status.setVotedFor c.val } with
              requests := Function.update s.requests f ((s.requests f).erase c) }
          else none
      | none => none

def down : Election N := ⟨fun _ => none, fun _ => []⟩

end Step

variable {N : Nat} {build : Build N} {s s' : Election N} {tr : List (ElectionAct N)}

def Designates (build : Build N) (f : Fin N) (v : Int) : Prop :=
  v ≠ Status.initVotedFor (build.storage f).votedFor →
    ∃ c : Fin N, build.canBeCandidacy c = true ∧ v = c.val

/-- What a running process shows of the votes: only candidates request, lead and are voted for, and
the term is the one in the files. -/
structure Node.Sound (build : Build N) (f : Fin N) (n : Node N) : Prop where
  leader : n.status.state = .leader → build.canBeCandidacy f = true
  requesting : ∀ rest, n.transmitter = .requesting rest → build.canBeCandidacy f = true
  vote : Designates build f n.status.votedFor
  term : n.status.currentTerm = Status.initCurrentTerm (build.storage f).currentTerm

structure Sound (build : Build N) (s : Election N) : Prop where
  node : ∀ f n, s.node f = some n → Node.Sound build f n
  requests : ∀ f, ∀ c ∈ s.requests f, build.canBeCandidacy c = true

private theorem sound_setNode {f : Fin N} {n : Node N} (sound : Sound build s)
    (here : Node.Sound build f n) : Sound build (s.setNode f n) where
  node := by
    intro g m at_g
    by_cases eq : g = f
    · subst eq
      obtain rfl : n = m := by simpa [setNode] using at_g
      exact here
    · exact sound.node g m (by simpa [setNode, eq] using at_g)
  requests := sound.requests

private theorem sound_requests {f : Fin N} {list : List (Fin N)} (sound : Sound build s)
    (candidates : ∀ c ∈ list, build.canBeCandidacy c = true) :
    Sound build { s with requests := Function.update s.requests f list } where
  node := sound.node
  requests := by
    intro g c member
    by_cases eq : g = f
    · subst eq
      exact candidates c (by simpa using member)
    · exact sound.requests g c (by simpa [eq] using member)

theorem sound_step {a : ElectionAct N} (sound : Sound build s)
    (taken : step build s a = some s') : Sound build s' := by
  cases a with
  | start f =>
    simp only [step] at taken
    split at taken
    · obtain rfl := Option.some.inj taken
      exact sound_setNode sound ⟨by simp [Status.ofStorage], by simp, fun other => absurd rfl other, rfl⟩
    · simp at taken
  | stop f =>
    simp only [step] at taken
    split at taken
    · simp at taken
    · obtain rfl := Option.some.inj taken
      refine ⟨?_, (sound_requests sound (by simp)).requests⟩
      intro g m at_g
      by_cases eq : g = f
      · simp [eq] at at_g
      · exact sound.node g m (by simpa [eq] using at_g)
  | voteForMe f =>
    simp only [step] at taken
    split at taken
    · rename_i status here
      have old := sound.node f _ here
      split at taken
      · rename_i able
        obtain rfl := Option.some.inj taken
        exact sound_setNode sound ⟨fun _ => able, fun _ _ => able, fun _ => ⟨f, able, rfl⟩, old.term⟩
      · obtain rfl := Option.some.inj taken
        exact sound_setNode sound ⟨old.leader, by simp, old.vote, old.term⟩
    · simp at taken
  | requestVote f g =>
    simp only [step] at taken
    split at taken
    · rename_i status g' rest m here there
      split at taken
      · obtain rfl := Option.some.inj taken
        have old := sound.node f _ here
        have able := old.requesting _ rfl
        refine sound_requests (sound_setNode sound ⟨old.leader, fun _ _ => able, old.vote, old.term⟩) ?_
        intro c member
        rcases List.mem_append.mp member with before | last
        · exact sound.requests g c before
        · obtain rfl := List.mem_singleton.mp last
          exact able
      · simp at taken
    · simp at taken
  | becomeLeader f =>
    simp only [step] at taken
    split at taken
    · rename_i status here
      obtain rfl := Option.some.inj taken
      have old := sound.node f _ here
      exact sound_setNode sound ⟨fun _ => old.requesting _ rfl, by simp, old.vote, old.term⟩
    · simp at taken
  | setVotedFor f c =>
    simp only [step] at taken
    split at taken
    · rename_i n here
      split at taken
      · rename_i arrived
        obtain rfl := Option.some.inj taken
        have old := sound.node f n here
        have able := sound.requests f c arrived
        exact sound_requests (sound_setNode sound ⟨old.leader, old.requesting,
          fun _ => ⟨c, able, rfl⟩, old.term⟩)
          (fun x member => sound.requests f x (List.mem_of_mem_erase member))
      · simp at taken
    · simp at taken

theorem sound_run {s₀ : Election N} (start : Sound build s₀)
    (run : Run (Steps (step build)) s₀ tr s) : Sound build s :=
  run.invariant (I := fun _ s => Sound build s) start
    (fun _ _ _ _ _ sound taken => sound_step sound taken)

private theorem down_sound : Sound build down := ⟨by simp [down], by simp [down]⟩

/-- Where at most one node can be a candidate, it alone ever leads, and no vote that a node casts
after it has loaded its files is for another one. -/
theorem one_leader
    (single : ∀ f g, build.canBeCandidacy f = true → build.canBeCandidacy g = true → f = g)
    (run : Run (Steps (step build)) down tr s) :
    (∀ f g n m, s.node f = some n → s.node g = some m → n.status.state = .leader →
      m.status.state = .leader → f = g) ∧
    ∀ tr' s', Run (Steps (step build)) s tr' s' → ∀ f n m, s.node f = some n →
      s'.node f = some m → n.status.votedFor ≠ Status.initVotedFor (build.storage f).votedFor →
      m.status.votedFor ≠ Status.initVotedFor (build.storage f).votedFor →
      n.status.votedFor = m.status.votedFor ∧
        ∃ c : Fin N, build.canBeCandidacy c = true ∧ n.status.votedFor = c.val := by
  have sound := sound_run down_sound run
  constructor
  · intro f g n m at_f at_g leader leader'
    exact single f g ((sound.node f n at_f).leader leader) ((sound.node g m at_g).leader leader')
  · intro tr' s' run' f n m before after voted voted'
    have sound' := sound_run sound run'
    obtain ⟨c, able, vote⟩ := (sound.node f n before).vote voted
    obtain ⟨d, able', vote'⟩ := (sound'.node f m after).vote voted'
    refine ⟨?_, c, able, vote⟩
    rw [vote, vote', single c d able able']

section Example

def threeBuild (able : Fin 3 → Bool) : Build 3 := ⟨able, fun _ => ⟨none, none⟩⟩

def startAll : List (ElectionAct 3) := [.start 0, .start 1, .start 2]

def firstLeads : List (ElectionAct 3) :=
  [.voteForMe 0, .requestVote 0 1, .requestVote 0 2, .becomeLeader 0, .setVotedFor 1 0,
    .setVotedFor 2 0]

def secondLeads : List (ElectionAct 3) :=
  [.voteForMe 1, .requestVote 1 0, .requestVote 1 2, .becomeLeader 1, .setVotedFor 2 1]

theorem one_leader_first :
    ∃ s, Run (Steps (step (threeBuild (fun f => decide (f = 0))))) down (startAll ++ firstLeads) s ∧
      ∀ f n, s.node f = some n → n.status.state = .leader → f = 0 := by
  have done : (exec (step (threeBuild (fun f => decide (f = 0)))) down
      (startAll ++ firstLeads)).map (fun s => decide ((s.node 0).map (·.status.state) = some .leader)) =
      some true := by decide
  obtain ⟨s, run, holds⟩ := Lib.exec_reaches done
  have leads := of_decide_eq_true holds
  obtain ⟨n₀, here, leader₀⟩ := Option.map_eq_some_iff.mp leads
  have all := one_leader (by decide) run
  exact ⟨s, run, fun f n at_f leader => all.1 f 0 n n₀ at_f here leader leader₀⟩

/-- With two candidates, node 2 votes for both in its term, and both lead in theirs, which is the
same. -/
theorem two_leaders :
    ∃ s s', Run (Steps (step (threeBuild (fun _ => true)))) down (startAll ++ firstLeads) s ∧
      Run (Steps (step (threeBuild (fun _ => true)))) s secondLeads s' ∧
      s.node 2 = some ⟨⟨.follower, 0, 0⟩, .ready⟩ ∧ s'.node 2 = some ⟨⟨.follower, 0, 1⟩, .ready⟩ ∧
      s'.node 0 = some ⟨⟨.leader, 0, 0⟩, .sleeping⟩ ∧
      s'.node 1 = some ⟨⟨.leader, 0, 1⟩, .sleeping⟩ := by
  have done : ((exec (step (threeBuild (fun _ => true))) down (startAll ++ firstLeads)).bind
      (fun s => (exec (step (threeBuild (fun _ => true))) s secondLeads).map (fun s' =>
        decide (s.node 2 = some ⟨⟨.follower, 0, 0⟩, .ready⟩ ∧
          s'.node 2 = some ⟨⟨.follower, 0, 1⟩, .ready⟩ ∧
          s'.node 0 = some ⟨⟨.leader, 0, 0⟩, .sleeping⟩ ∧
          s'.node 1 = some ⟨⟨.leader, 0, 1⟩, .sleeping⟩)))) = some true := by decide
  obtain ⟨s, first, rest⟩ := Option.bind_eq_some_iff.mp done
  obtain ⟨s', second, holds⟩ := Option.map_eq_some_iff.mp rest
  exact ⟨s, s', exec_run first, exec_run second, of_decide_eq_true holds⟩

end Example

end Election

end Raft2pl.Server
