/- From a config file to connected nodes: setRaftNodesByConfig, and whom a receiver takes for the
sender of a connection. -/

import Raft2pl.Server.ConfigFile
import Raft2pl.Server.Framing
import Raft2pl.Server.Startup

set_option autoImplicit false
set_option relaxedAutoImplicit false

namespace Raft2pl.Server

open Lib (Run Steps exec exec_reaches)

/-- What a process is started with: the number of its node, or what stands for none, and the
addresses of its interfaces as `inet_ntop` writes them. -/
structure Host where
  me : CInt
  addresses : List (List (BitVec 8))

section Me

variable (nodes : List NodeConf)

/-- The first node with the given address. `strcmp` reads a name up to its first zero. -/
def nodeAt (addr : List (BitVec 8)) : Option Nat :=
  nodes.findIdx? (fun h => decide (h.hostname.takeWhile (fun c => decide (c ≠ 0)) = addr))

/-- The `getMe` that `setRaftNodesByConfig` ends with; `none` where no interface has the address of a
node. -/
def Host.getMe (host : Host) : Option Nat :=
  if 0 ≤ host.me.toInt ∧ host.me.toInt < nodes.length then some host.me.toInt.toNat
  else host.addresses.findSome? (nodeAt nodes)

variable {nodes} {i : Nat} {host : Host}

/-- A process is node `i`: it was given its number, or it was given none and has the address of the
node, and of no other one. -/
inductive Host.Is (nodes : List NodeConf) (i : Nat) (host : Host) : Prop
  | given (number : host.me.toInt = i)
  | found (none : ¬ (0 ≤ host.me.toInt ∧ host.me.toInt < nodes.length))
      (mine : ∃ addr ∈ host.addresses, nodeAt nodes addr = some i)
      (only : ∀ addr ∈ host.addresses, ∀ j, nodeAt nodes addr = some j → j = i)

private theorem Host.Is.getMe (is : host.Is nodes i) (inside : i < nodes.length) :
    host.getMe nodes = some i := by
  cases is with
  | given number =>
    rw [Host.getMe, if_pos (by omega), number, Int.toNat_natCast]
  | found none mine only =>
    rw [Host.getMe, if_neg none]
    obtain ⟨addr, member, here⟩ := mine
    cases first : host.addresses.findSome? (nodeAt nodes) with
    | none =>
      have away := List.findSome?_eq_none_iff.mp first addr member
      rw [here] at away
      cases away
    | some j =>
      obtain ⟨addr', member', here'⟩ := List.exists_of_findSome?_eq_some first
      rw [only addr' member' j here']

end Me

/-- The node whose number the loops of `Raft::receiver` find for a connection from an address after
`NOTIFY_PORT` with a port. -/
def sender (raftNodes : List RaftNode) (addr : List (BitVec 8)) (port : CInt) : Option Nat :=
  raftNodes.findIdx? (fun n => !n.isMe && addr == n.hostname && port == n.listenPort)

section Sender

variable {nodes : List NodeConf} {f g : Nat}

private theorem sender_of_nodup (distinct : nodes.Nodup) (inside : g < nodes.length) (apart : f ≠ g) :
    sender (setRaftNodesByConfig nodes f) nodes[g].hostname nodes[g].port = some g := by
  rw [sender, List.findIdx?_eq_some_iff_getElem]
  refine ⟨by simpa [setRaftNodesByConfig] using inside, ?_, ?_⟩
  · simp [setRaftNodesByConfig, apart.symm]
  · intro j before
    have away : nodes[j] ≠ nodes[g] := by
      intro same
      have := (List.Nodup.getElem_inj_iff distinct).mp same
      omega
    simp only [setRaftNodesByConfig, List.getElem_mapIdx, Bool.and_eq_true, beq_iff_eq, not_and]
    rintro ⟨-, name⟩ port
    apply away
    cases first : nodes[j]
    cases second : nodes[g]
    simp_all

end Sender

section Cluster

variable {nodes : List NodeConf}

/-- Whom the receiver of node `f` takes for the sender of a connection that node `g` has made, where
`addr f g` is its address as `inet_ntoa` writes it at node `f`. -/
def rNode (nodes : List NodeConf) (hosts : Fin nodes.length → Host)
    (addr : Fin nodes.length → Fin nodes.length → List (BitVec 8)) (f g : Fin nodes.length) :
    Option (Fin nodes.length) := do
  let me ← (hosts f).getMe nodes
  let you ← (hosts g).getMe nodes
  let conf ← nodes[you]?
  let i ← sender (setRaftNodesByConfig nodes me) (addr f g) conf.port
  if h : i < nodes.length then some ⟨i, h⟩ else none

private theorem rNode_eq {hosts : Fin nodes.length → Host}
    {addr : Fin nodes.length → Fin nodes.length → List (BitVec 8)} (distinct : nodes.Nodup)
    (started : ∀ i, (hosts i).Is nodes i) (named : ∀ f g, f ≠ g → addr f g = nodes[g].hostname)
    (f g : Fin nodes.length) (apart : f ≠ g) : rNode nodes hosts addr f g = some g := by
  have found := sender_of_nodup distinct g.isLt (fun same => apart (Fin.ext same))
  have name : addr f g = nodes[g.val].hostname := named f g apart
  simp only [rNode, (started f).getMe f.isLt, (started g).getMe g.isLt, List.getElem?_eq_getElem,
    g.isLt, name, found, Option.bind_eq_bind, Option.bind_some, dif_pos]

/-- All nodes read the same nodes from a text that describes them. Where no two of these are the same,
each process knows which one it is, and the receivers see the addresses that stand in the text, the
nodes come to be connected, however their calls are ordered and whatever votes they loaded: a log
receiver finds the leader when it asks for it, each pair of connections between a worker and a
follower is made once, to the leader's notifiers and no others, and after boundedly many calls all of
them are there. -/
theorem cluster_connects {W : Nat} {text dir : List (BitVec 8)}
    (describes : ConfigFile.Describes text dir nodes) (few : nodes.length < 2 ^ 31)
    (distinct : nodes.Nodup) {hosts : Fin nodes.length → Host}
    (started : ∀ i, (hosts i).Is nodes i)
    {addr : Fin nodes.length → Fin nodes.length → List (BitVec 8)}
    (named : ∀ f g, f ≠ g → addr f g = nodes[g].hostname) {me : Fin nodes.length}
    {votedFor : Fin nodes.length → Int} {tr : List (StartupAct nodes.length W)}
    {s : Startup nodes.length W}
    (run : Run (Steps (Startup.step me (rNode nodes hosts addr))) (Startup.start me votedFor) tr s) :
    (∀ out, ConfigFile.Constructs (some text) out ↔
      out = .loaded ⟨dir, .ofNat 32 nodes.length, nodes⟩) ∧
    (∀ f, ∀ w ∈ s.logReceivers f, Startup.getLeader (s.votedFor f) = some me) ∧
    (∀ f, f ≠ me → s.notifiers f = [] ∧ ∀ w, s.wires me f w = 1) ∧
    tr.length ≤ (Startup.start me votedFor : Startup nodes.length W).remaining me ∧
    ((∀ a, Startup.step me (rNode nodes hosts addr) s a = none) → ∀ f, f ≠ me →
      s.votedFor f = me.val ∧ ∀ w, (s.notifiers me).count (f, w) = 1) := by
  have loaded := ConfigFile.returns_described describes few
  refine ⟨fun out => ⟨fun ends => ConfigFile.constructs_unique ends loaded, ?_⟩,
    Startup.connects_of_known (rNode_eq distinct started named) run⟩
  rintro rfl
  exact loaded

end Cluster

section Example

def asciiOf (text : String) : List (BitVec 8) := text.toList.map (fun c => .ofNat 8 c.toNat)

def threeConfs : List NodeConf :=
  [⟨asciiOf "10.0.0.1", 50000⟩, ⟨asciiOf "10.0.0.2", 50000⟩, ⟨asciiOf "10.0.0.2", 50001⟩]

def threeText : List (BitVec 8) :=
  asciiOf "/tmp/raft\n10.0.0.1:50000\n10.0.0.2:50000\n10.0.0.2:50001\n"

private theorem threeText_describes :
    ConfigFile.Describes threeText (asciiOf "/tmp/raft") threeConfs where
  written := by
    refine ⟨[asciiOf "10.0.0.1:50000", asciiOf "10.0.0.2:50000", asciiOf "10.0.0.2:50001"],
      by decide, .cons ?_ (.cons ?_ (.cons ?_ .nil))⟩
    · exact ⟨by decide, by decide, asciiOf "50000", by decide, [], asciiOf "50000", by decide,
        by decide, by decide, .inl ⟨.inl rfl, by decide⟩⟩
    · exact ⟨by decide, by decide, asciiOf "50000", by decide, [], asciiOf "50000", by decide,
        by decide, by decide, .inl ⟨.inl rfl, by decide⟩⟩
    · exact ⟨by decide, by decide, asciiOf "50001", by decide, [], asciiOf "50001", by decide,
        by decide, by decide, .inl ⟨.inl rfl, by decide⟩⟩

def threeHosts (i : Fin threeConfs.length) : Host :=
  if i.val = 0 then ⟨-1, [asciiOf "127.0.0.1", asciiOf "10.0.0.1"]⟩ else ⟨.ofNat 32 i.val, []⟩

/-- The first node has asked both others for their votes, and its worker has connected to them. -/
def dialedTrace : List (StartupAct threeConfs.length 1) :=
  [.setVotedFor, .requestVote, .requestVote, .becomeLeader, .pushWorkerInfo, .connect2raftnode 0,
    .accept ⟨1, by decide⟩, .connect2raftnode 0, .accept ⟨1, by decide⟩]

theorem cluster_connects_dialed :
    ∃ s : Startup threeConfs.length 1, Run (Steps (Startup.step ⟨0, by decide⟩
        (rNode threeConfs threeHosts (fun _ g => threeConfs[g].hostname))))
        (Startup.start ⟨0, by decide⟩ (fun _ => -1)) dialedTrace s ∧
      s.votedFor ⟨2, by decide⟩ = -1 ∧ s.logReceivers ⟨1, by decide⟩ = [0] ∧
      Startup.getLeader (s.votedFor ⟨1, by decide⟩) =
        some (⟨0, by decide⟩ : Fin threeConfs.length) ∧
      s.wires ⟨0, by decide⟩ ⟨2, by decide⟩ 0 = 1 := by
  have done : (exec (Startup.step ⟨0, by decide⟩
      (rNode threeConfs threeHosts (fun _ g => threeConfs[g].hostname)))
      (Startup.start ⟨0, by decide⟩ (fun _ => -1) : Startup threeConfs.length 1) dialedTrace).map
      (fun s => decide (s.votedFor ⟨2, by decide⟩ = -1 ∧ s.logReceivers ⟨1, by decide⟩ = [0])) =
      some true := by decide
  obtain ⟨s, run, holds⟩ := exec_reaches done
  obtain ⟨unasked, waits⟩ := of_decide_eq_true holds
  have started : ∀ i, (threeHosts i).Is threeConfs i := by
    intro i
    by_cases first : i.val = 0
    · rw [threeHosts, if_pos first, first]
      exact .found (by decide) ⟨asciiOf "10.0.0.1", by decide, by decide⟩ (by decide)
    · rw [threeHosts, if_neg first]
      have number : ∀ i : Fin threeConfs.length, (BitVec.ofNat 32 i.val).toInt = i.val := by decide
      exact .given (number i)
  obtain ⟨-, leader, wired, -⟩ := cluster_connects threeText_describes (by decide) (by decide)
    started (fun _ _ _ => rfl) run
  exact ⟨s, run, unasked, waits, leader ⟨1, by decide⟩ 0 (by simp [waits]),
    (wired ⟨2, by decide⟩ (by decide)).2 0⟩

end Example

end Raft2pl.Server
