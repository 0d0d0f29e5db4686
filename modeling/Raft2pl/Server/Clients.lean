/- The clients of the leader: accepted, registered, served, closed, and told of their commits. -/

import Raft2pl.Server.Leader
import Mathlib.Data.List.Nodup

set_option autoImplicit false
set_option relaxedAutoImplicit false

namespace Raft2pl.Server

open Lib (Run Steps exec exec_reaches)

/-- Where the producer thread of a client is. A `ClientNode` is open until it is freed. -/
inductive ClientPhase
  | connected | serving | closing | freed
  deriving DecidableEq

structure ClientNode where
  id : Int
  phase : ClientPhase

/-- The client side of the leader. Connections are numbered as they are accepted, so a number
stands for a `ClientNode` and its socket. `queued` are the stamped requests that no notifier has
come to, each with the connection it arrived on, and `replying` are those for which a notifier
found a `ClientNode` and has still to send. -/
structure Clients where
  node : Nat → ClientNode
  accepted : Nat
  clientNodes : List Nat
  queued : List (Nat × TransReq)
  replying : List (Nat × Nat × TransReq)

/-- The next event; `ok` tells whether a send succeeded. -/
inductive ClientsAct
  | accept
  | respondLocation (c : Nat) (ok : Bool)
  | xactEnqueue (c : Nat) (tx : TransReq)
  | bye (c : Nat) (ok : Bool)
  | closeRecvSock (c : Nat)
  | findClient (x : Nat × TransReq) (found : Option Nat)
  | sendRPC (c : Nat) (x : Nat × TransReq) (ok : Bool)
  deriving DecidableEq

namespace Clients

def getID (s : Clients) (c : Nat) : Int := (s.node c).id

def phase (s : Clients) (c : Nat) : ClientPhase := (s.node c).phase

/-- `addClientNode` of a node whose id is the length of the list. -/
def addClientNode (s : Clients) : Clients :=
  { s with
    node := Function.update s.node s.accepted ⟨s.clientNodes.length, .connected⟩
    accepted := s.accepted + 1
    clientNodes := s.clientNodes ++ [s.accepted] }

/-- `sendRPC` to a client: where the send fails, the node is taken out of the list. -/
def sendTo (s : Clients) (c : Nat) (ok : Bool) : Clients :=
  { s with clientNodes := if ok then s.clientNodes else s.clientNodes.erase c }

def setPhase (s : Clients) (c : Nat) (next : ClientPhase) : Clients :=
  { s with node := Function.update s.node c { s.node c with phase := next } }

/-- `cNode->getID() == xact.clientId`; what is read from a node that was freed is not known. -/
def mayMatch (s : Clients) (clientId : Int) (c : Nat) : Bool :=
  decide (s.phase c = .freed ∨ s.getID c = clientId)

def mustMatch (s : Clients) (clientId : Int) (c : Nat) : Bool :=
  decide (s.phase c ≠ .freed ∧ s.getID c = clientId)

def Finds (s : Clients) (clientId : Int) : Option Nat → Bool
  | none => s.clientNodes.all (fun c => !s.mustMatch clientId c)
  | some c => decide (c ∈ s.clientNodes) && s.mayMatch clientId c &&
      (s.clientNodes.takeWhile (· ≠ c)).all (fun c => !s.mustMatch clientId c)

def step (s : Clients) : ClientsAct → Option Clients
  | .accept => some s.addClientNode
  | .respondLocation c ok =>
      if c < s.accepted ∧ s.phase c = .connected then some ((s.setPhase c .serving).sendTo c ok)
      else none
  | .xactEnqueue c tx =>
      if c < s.accepted ∧ s.phase c = .serving ∧ tx.clientId = s.getID c then
        some { s with queued := s.queued ++ [(c, tx)] }
      else none
  | .bye c ok =>
      if c < s.accepted ∧ s.phase c = .serving then some ((s.setPhase c .closing).sendTo c ok)
      else none
  | .closeRecvSock c =>
      if c < s.accepted ∧ s.phase c = .closing then some (s.setPhase c .freed) else none
  | .findClient x found =>
      if x ∈ s.queued ∧ s.Finds x.2.clientId found then
        some { s with
          queued := s.queued.erase x
          replying := found.toList.map (fun c => (c, x)) ++ s.replying }
      else none
  | .sendRPC c x ok =>
      if (c, x) ∈ s.replying then
        some ({ s with replying := s.replying.erase (c, x) }.sendTo c ok)
      else none

def start : Clients := ⟨fun _ => ⟨0, .freed⟩, 0, [], [], []⟩

def Live (s : Clients) (c : Nat) : Prop :=
  c < s.accepted ∧ (s.phase c ≠ .freed ∨ ∃ x ∈ s.queued, x.1 = c)

/-- The id that a new client would get is not that of an open client, nor on a request of any
client; a node that is freed is not in the list and is not in use by a notifier. -/
def tidy (s : Clients) : ClientsAct → Bool
  | .accept => decide (∀ c, c < s.accepted → s.getID c = s.clientNodes.length →
      s.phase c = .freed ∧ ∀ x ∈ s.queued, x.1 ≠ c)
  | .closeRecvSock c => decide (c ∉ s.clientNodes ∧ ∀ r ∈ s.replying, r.1 ≠ c)
  | _ => true

def stepTidy (s : Clients) (a : ClientsAct) : Option Clients :=
  if tidy s a then step s a else none

structure Routed (s : Clients) : Prop where
  registered : ∀ c ∈ s.clientNodes, c < s.accepted ∧ s.phase c ≠ .freed
  once : s.clientNodes.Nodup
  arrived : ∀ x ∈ s.queued, x.1 < s.accepted ∧ x.2.clientId = s.getID x.1
  distinct : ∀ c c', s.Live c → s.Live c' → s.getID c = s.getID c' → c = c'
  found : ∀ r ∈ s.replying, r.1 = r.2.1 ∧ r.1 < s.accepted ∧ s.phase r.1 ≠ .freed

variable {s s' : Clients}

private theorem routed_start : start.Routed where
  registered := by simp [start]
  once := by simp [start]
  arrived := by simp [start]
  distinct := by simp [start, Live]
  found := by simp [start]

@[simp] theorem getID_setPhase (c d : Nat) (next : ClientPhase) :
    (s.setPhase c next).getID d = s.getID d := by
  by_cases eq : d = c <;> simp [setPhase, getID, eq]

private theorem phase_setPhase (c d : Nat) (next : ClientPhase) :
    (s.setPhase c next).phase d = if d = c then next else s.phase d := by
  by_cases eq : d = c <;> simp [setPhase, phase, eq]

private theorem routed_sendTo (inv : s.Routed) (c : Nat) (ok : Bool) : (s.sendTo c ok).Routed := by
  have part : (s.sendTo c ok).clientNodes.Sublist s.clientNodes := by
    cases ok
    · exact List.erase_sublist
    · exact List.Sublist.refl _
  exact ⟨fun d member => inv.registered d (part.subset member), inv.once.sublist part, inv.arrived,
    inv.distinct, inv.found⟩

private theorem routed_setPhase (inv : s.Routed) {c : Nat} {next : ClientPhase}
    (opened : s.phase c ≠ .freed)
    (unused : next = .freed → c ∉ s.clientNodes ∧ ∀ r ∈ s.replying, r.1 ≠ c) :
    (s.setPhase c next).Routed := by
  have still : ∀ d, s.phase d ≠ .freed → (d = c → next ≠ .freed) →
      (s.setPhase c next).phase d ≠ .freed := by
    intro d before after
    rw [phase_setPhase]
    split
    · exact after ‹_›
    · exact before
  have live : ∀ d, (s.setPhase c next).Live d → s.Live d := by
    rintro d ⟨low, use⟩
    refine ⟨low, use.imp (fun now => ?_) (fun request => request)⟩
    rw [phase_setPhase] at now
    split at now
    · rwa [‹d = c›]
    · exact now
  refine ⟨?_, inv.once, ?_, ?_, ?_⟩
  · intro d member
    obtain ⟨low, before⟩ := inv.registered d member
    refine ⟨low, still d before ?_⟩
    rintro rfl freed
    exact (unused freed).1 member
  · intro x member
    rw [getID_setPhase]
    exact inv.arrived x member
  · intro d d' here there same
    rw [getID_setPhase, getID_setPhase] at same
    exact inv.distinct d d' (live d here) (live d' there) same
  · intro r member
    obtain ⟨origin, low, before⟩ := inv.found r member
    refine ⟨origin, low, still r.1 before ?_⟩
    intro same freed
    exact (unused freed).2 r member same

private theorem routed_accept (inv : s.Routed) (unused : s.tidy .accept = true) :
    s.addClientNode.Routed := by
  simp only [tidy, decide_eq_true_eq] at unused
  have old : ∀ d, d < s.accepted → s.addClientNode.node d = s.node d := by
    intro d low
    exact Function.update_of_ne (Nat.ne_of_lt low) _ _
  have oldId : ∀ d, d < s.accepted → s.addClientNode.getID d = s.getID d := by
    intro d low
    rw [getID, old d low, getID]
  have oldPhase : ∀ d, d < s.accepted → s.addClientNode.phase d = s.phase d := by
    intro d low
    rw [phase, old d low, phase]
  have newId : s.addClientNode.getID s.accepted = s.clientNodes.length := by simp [addClientNode, getID]
  have newPhase : s.addClientNode.phase s.accepted = .connected := by simp [addClientNode, phase]
  have live : ∀ d, s.addClientNode.Live d → d = s.accepted ∨ s.Live d := by
    rintro d ⟨low, use⟩
    have low' : d < s.accepted + 1 := low
    by_cases new : d = s.accepted
    · exact .inl new
    · have low : d < s.accepted := by omega
      rw [oldPhase d low] at use
      exact .inr ⟨low, use⟩
  have apart : ∀ d, s.Live d → s.addClientNode.getID d ≠ s.addClientNode.getID s.accepted := by
    rintro d ⟨low, use⟩ same
    rw [oldId d low, newId] at same
    obtain ⟨freed, none⟩ := unused d low same
    rcases use with opened | ⟨x, member, origin⟩
    · exact opened freed
    · exact none x member origin
  refine ⟨?_, ?_, ?_, ?_, ?_⟩
  · intro c member
    rcases List.mem_append.mp member with before | new
    · obtain ⟨low, opened⟩ := inv.registered c before
      exact ⟨Nat.lt_succ_of_lt low, by rwa [oldPhase c low]⟩
    · obtain rfl := List.mem_singleton.mp new
      exact ⟨Nat.lt_succ_self _, by simp [newPhase]⟩
  · refine List.Nodup.append inv.once (List.nodup_singleton _) ?_
    intro c before new
    obtain rfl := List.mem_singleton.mp new
    exact Nat.lt_irrefl _ (inv.registered _ before).1
  · intro x member
    obtain ⟨low, stamp⟩ := inv.arrived x member
    exact ⟨Nat.lt_succ_of_lt low, by rwa [oldId _ low]⟩
  · intro d d' here there same
    rcases live d here with rfl | before <;> rcases live d' there with rfl | before'
    · rfl
    · exact absurd same.symm (apart d' before')
    · exact absurd same (apart d before)
    · rw [oldId d before.1, oldId d' before'.1] at same
      exact inv.distinct d d' before before' same
  · intro r member
    obtain ⟨origin, low, opened⟩ := inv.found r member
    exact ⟨origin, Nat.lt_succ_of_lt low, by rwa [oldPhase _ low]⟩

private theorem found_origin (inv : s.Routed) {x : Nat × TransReq} {c : Nat} (queued : x ∈ s.queued)
    (finds : s.Finds x.2.clientId (some c) = true) :
    c = x.1 ∧ c < s.accepted ∧ s.phase c ≠ .freed := by
  simp only [Finds, mayMatch, Bool.and_eq_true, decide_eq_true_eq] at finds
  obtain ⟨⟨member, matched⟩, -⟩ := finds
  obtain ⟨low, opened⟩ := inv.registered c member
  obtain ⟨low', stamp⟩ := inv.arrived x queued
  have same : s.getID c = s.getID x.1 := by
    rw [← stamp]
    exact matched.resolve_left opened
  exact ⟨inv.distinct c x.1 ⟨low, .inl opened⟩ ⟨low', .inr ⟨x, queued, rfl⟩⟩ same, low, opened⟩

private theorem routed_step {a : ClientsAct} (inv : s.Routed) (taken : stepTidy s a = some s') :
    s'.Routed := by
  obtain ⟨fits, moved⟩ := Option.ite_none_right_eq_some.mp taken
  cases a with
  | accept =>
    obtain rfl := Option.some.inj moved
    exact routed_accept inv fits
  | respondLocation c ok =>
    obtain ⟨⟨-, here⟩, moved⟩ := Option.ite_none_right_eq_some.mp moved
    obtain rfl := Option.some.inj moved
    exact routed_sendTo (routed_setPhase inv (by simp [here]) (by simp)) c ok
  | xactEnqueue c tx =>
    obtain ⟨⟨low, here, stamp⟩, moved⟩ := Option.ite_none_right_eq_some.mp moved
    obtain rfl := Option.some.inj moved
    have live : ∀ d, Live { s with queued := s.queued ++ [(c, tx)] } d → s.Live d := by
      rintro d ⟨low', use⟩
      refine ⟨low', ?_⟩
      rcases use with opened | ⟨x, member, rfl⟩
      · exact .inl opened
      · rcases List.mem_append.mp member with before | new
        · exact .inr ⟨x, before, rfl⟩
        · obtain rfl := List.mem_singleton.mp new
          exact .inl (by simp [here])
    refine { inv with
      arrived := fun x member => ?_
      distinct := fun d d' first second => inv.distinct d d' (live d first) (live d' second) }
    rcases List.mem_append.mp member with before | new
    · exact inv.arrived x before
    · obtain rfl := List.mem_singleton.mp new
      exact ⟨low, stamp⟩
  | bye c ok =>
    obtain ⟨⟨-, here⟩, moved⟩ := Option.ite_none_right_eq_some.mp moved
    obtain rfl := Option.some.inj moved
    exact routed_sendTo (routed_setPhase inv (by simp [here]) (by simp)) c ok
  | closeRecvSock c =>
    obtain ⟨⟨-, here⟩, moved⟩ := Option.ite_none_right_eq_some.mp moved
    obtain rfl := Option.some.inj moved
    exact routed_setPhase inv (by simp [here]) (fun _ => of_decide_eq_true fits)
  | findClient x found =>
    obtain ⟨⟨queued, finds⟩, moved⟩ := Option.ite_none_right_eq_some.mp moved
    obtain rfl := Option.some.inj moved
    have part : ∀ y ∈ s.queued.erase x, y ∈ s.queued := fun y => List.mem_of_mem_erase
    have live : ∀ d, Live { s with
        queued := s.queued.erase x
        replying := found.toList.map (fun c => (c, x)) ++ s.replying } d → s.Live d := by
      rintro d ⟨low, use⟩
      exact ⟨low, use.imp_right (fun ⟨y, member, origin⟩ => ⟨y, part y member, origin⟩)⟩
    refine { inv with
      arrived := fun y member => inv.arrived y (part y member)
      distinct := fun d d' first second => inv.distinct d d' (live d first) (live d' second)
      found := fun r member => ?_ }
    rcases List.mem_append.mp member with new | before
    · obtain ⟨c, here, rfl⟩ := List.mem_map.mp new
      obtain rfl := Option.mem_toList.mp here
      exact found_origin inv queued finds
    · exact inv.found r before
  | sendRPC c x ok =>
    obtain ⟨-, moved⟩ := Option.ite_none_right_eq_some.mp moved
    obtain rfl := Option.some.inj moved
    have rest : Routed { s with replying := s.replying.erase (c, x) } :=
      { inv with found := fun r member => inv.found r (List.mem_of_mem_erase member) }
    exact routed_sendTo rest c ok

/-- Where ids are not given twice and clients are erased before they are freed, a COMMIT_MESSAGE
is only written to the open connection on which its request arrived. -/
theorem commits_reach_client {tr : List ClientsAct} (run : Run (Steps stepTidy) start tr s) :
    (s.clientNodes.map s.getID).Nodup ∧ (∀ c ∈ s.clientNodes, s.phase c ≠ .freed) ∧
      ∀ c x ok, (step s (.sendRPC c x ok)).isSome → c = x.1 ∧ s.phase c ≠ .freed := by
  have inv : s.Routed := run.invariant (I := fun _ s => s.Routed) routed_start
    (fun _ _ _ _ _ before taken => routed_step before taken)
  refine ⟨?_, fun c member => (inv.registered c member).2, ?_⟩
  · refine List.Nodup.map_on ?_ inv.once
    intro c member c' member' same
    obtain ⟨low, opened⟩ := inv.registered c member
    obtain ⟨low', opened'⟩ := inv.registered c' member'
    exact inv.distinct c c' ⟨low, .inl opened⟩ ⟨low', .inl opened'⟩ same
  · intro c x ok enabled
    have waiting : (c, x) ∈ s.replying := by
      by_contra absent
      simp [step, absent] at enabled
    obtain ⟨origin, -, opened⟩ := inv.found (c, x) waiting
    exact ⟨origin, opened⟩

def ids (s : Clients) : List Int := s.clientNodes.map s.getID

private theorem map_erase_on {α β : Type} [DecidableEq α] [DecidableEq β] (f : α → β) {a : α}
    {l : List α} (only : ∀ x ∈ l, f x = f a → x = a) : (l.erase a).map f = (l.map f).erase (f a) := by
  induction l with
  | nil => rfl
  | cons x l ih =>
    by_cases eq : x = a
    · subst eq
      simp
    · have apart : f x ≠ f a := fun same => eq (only x List.mem_cons_self same)
      rw [List.erase_cons_tail (by simpa using eq), List.map_cons, List.map_cons,
        List.erase_cons_tail (by simpa using apart), ih (fun y member => only y (.tail x member))]

private theorem ids_sendTo (inv : s.Routed) {c : Nat} (low : c < s.accepted)
    (opened : s.phase c ≠ .freed) :
    (s.sendTo c false).ids = s.ids.erase (s.getID c) := by
  refine map_erase_on s.getID (fun d member same => ?_)
  obtain ⟨low', opened'⟩ := inv.registered d member
  exact inv.distinct d c ⟨low', .inl opened'⟩ ⟨low, .inl opened⟩ same

private theorem ids_addClientNode (inv : s.Routed) :
    s.addClientNode.ids = s.ids ++ [(s.ids.length : Int)] := by
  have old : s.clientNodes.map s.addClientNode.getID = s.ids := by
    refine List.map_congr_left (fun c member => ?_)
    have low := (inv.registered c member).1
    simp [addClientNode, getID, Nat.ne_of_lt low]
  have new : s.addClientNode.getID s.accepted = s.clientNodes.length := by
    simp [addClientNode, getID]
  calc s.addClientNode.ids
      = s.clientNodes.map s.addClientNode.getID ++ [s.addClientNode.getID s.accepted] :=
        List.map_append
    _ = s.ids ++ [(s.ids.length : Int)] := by rw [old, new, ids, List.length_map]

private theorem finds_none (inv : s.Routed) (clientId : Int) :
    s.Finds clientId none = true ↔ clientId ∉ s.ids := by
  simp only [Finds, mustMatch, ids, List.all_eq_true, Bool.not_eq_true', decide_eq_false_iff_not,
    List.mem_map, not_exists, not_and]
  constructor
  · exact fun none c member => none c member (inv.registered c member).2
  · exact fun none c member _ => none c member

/-- The list of ids of the leader process changes with the list of its clients: at an accepted
connection, and at the message for a request that arrived. -/
theorem leader_clientNodes {N W : Nat} {ν : Type} [DecidableEq ν] {cfg : Config N}
    {l l' : Leader N W ν cfg.consts} (inv : s.Routed) (same : l.clientNodes = s.ids) :
    (Leader.step cfg l .acceptClient = some l' → l'.clientNodes = s.addClientNode.ids) ∧
      ∀ n place x result, x ∈ s.queued →
        Leader.step cfg l (.notifier n (.sendRPC (place, x.2) result)) = some l' →
        (result = .noClient ↔ s.Finds x.2.clientId none = true) ∧
        ∀ c, s.Finds x.2.clientId (some c) = true →
          l'.clientNodes = (s.sendTo c (decide (result ≠ .failed))).ids := by
  constructor
  · intro taken
    simp only [Leader.step, Option.some.injEq] at taken
    rw [← taken, ids_addClientNode inv, same]
  · intro n place x result queued taken
    have taken' : Leader.notifierStep cfg l n (.sendRPC (place, x.2) result) = some l' := taken
    unfold Leader.notifierStep at taken'
    cases here : l.notifier n with
    | reply j =>
      simp only [here, Option.ite_none_right_eq_some, Option.some.injEq] at taken'
      obtain ⟨⟨-, -, search⟩, rfl⟩ := taken'
      refine ⟨by rw [search, same, finds_none inv], fun c finds => ?_⟩
      obtain ⟨origin, low, opened⟩ := found_origin inv queued finds
      have stamp : x.2.clientId = s.getID c := by
        rw [origin]
        exact (inv.arrived x queued).2
      by_cases failed : result = .failed
      · simp [Leader.setNotifier, failed, same, stamp, ids_sendTo inv low opened]
      · simp [Leader.setNotifier, failed, same, sendTo, ids]
    | _ => simp [here] at taken'

section Example

def requestOf (clientId : Int) : TransReq := ⟨clientId, 7, ⟨1, 3, 5, 0⟩⟩

def visitTrace : List ClientsAct :=
  [.accept, .respondLocation 0 true, .accept, .respondLocation 1 true,
    .xactEnqueue 0 (requestOf 0), .xactEnqueue 1 (requestOf 1),
    .findClient (1, requestOf 1) (some 1), .findClient (0, requestOf 0) (some 0)]

theorem commits_reach_client_visit :
    ∃ s, Run (Steps stepTidy) start visitTrace s ∧ s.clientNodes = [0, 1] ∧
      (s.clientNodes.map s.getID).Nodup ∧
      ∀ c ∈ [0, 1], (step s (.sendRPC c (c, requestOf c) true)).isSome ∧ s.phase c ≠ .freed ∧
        ∀ d, d ≠ c → ¬ (step s (.sendRPC d (c, requestOf c) true)).isSome := by
  have done : (exec stepTidy start visitTrace).map (fun s =>
      decide (s.clientNodes = [0, 1] ∧
        ∀ c ∈ [0, 1], (step s (.sendRPC c (c, requestOf c) true)).isSome)) = some true := by decide
  obtain ⟨s, run, holds⟩ := exec_reaches done
  obtain ⟨both, sends⟩ := of_decide_eq_true holds
  obtain ⟨distinct, -, reach⟩ := commits_reach_client run
  refine ⟨s, run, both, distinct, fun c member => ⟨sends c member, ?_, fun d apart other => ?_⟩⟩
  · exact (reach c _ true (sends c member)).2
  · exact apart (reach d _ true other).1

/-- Two clients are accepted, the first send to one of them fails, and a third client gets the id
of the other one, whose connection the message for its request is sent to. When the third client
disconnects, its node stays in the list. -/
def clashTrace : List ClientsAct :=
  [.accept, .accept, .respondLocation 0 false, .accept, .respondLocation 2 true,
    .xactEnqueue 2 (requestOf 1), .findClient (2, requestOf 1) (some 1), .bye 2 true,
    .closeRecvSock 2]

theorem commit_misrouted :
    ∃ s, Run (Steps step) start clashTrace s ∧ ¬ (s.clientNodes.map s.getID).Nodup ∧
      (∃ c ∈ s.clientNodes, s.phase c = .freed) ∧
      (step s (.sendRPC 1 (2, requestOf 1) true)).isSome := by
  have done : (exec step start clashTrace).map (fun s =>
      decide (¬ (s.clientNodes.map s.getID).Nodup ∧ ∃ c ∈ s.clientNodes, s.phase c = .freed) &&
        (step s (.sendRPC 1 (2, requestOf 1) true)).isSome) = some true := by decide
  obtain ⟨s, run, holds⟩ := exec_reaches done
  obtain ⟨state, sends⟩ := Bool.and_eq_true_iff.mp holds
  obtain ⟨clash, left⟩ := of_decide_eq_true state
  exact ⟨s, run, clash, left, sends⟩

end Example

end Clients

end Raft2pl.Server
