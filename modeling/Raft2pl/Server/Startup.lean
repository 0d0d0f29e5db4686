/- How the nodes come to be connected: setupLeader, the workers' first sends, and the receivers. -/

import Raft2pl.Server.Election
import Mathlib.Algebra.BigOperators.Group.Finset.Basic
import Mathlib.Algebra.Order.BigOperators.Group.Finset

set_option autoImplicit false
set_option relaxedAutoImplicit false

namespace Raft2pl.Server

open Lib (Run Steps exec exec_reaches)

/-- A connection, by the first message on it after `NOTIFY_PORT` and the node that made it; `w` is
the worker whose packets or acks it is for. -/
inductive Call (N W : Nat)
  | requestVote (g : Fin N)
  | appendEntries (g : Fin N) (w : Fin W)
  | responseAppendEntries (g : Fin N) (w : Fin W)
  deriving DecidableEq

/-- The nodes while they connect. `dialing w` are the followers whose `sockfd` is still -1 at worker
`w` of the leader, in the order in which the worker connects to them; `backlog f` are the connections
that wait for `accept` at a node; `logReceivers f` are its log receiver threads that have not
connected back yet, and `notifiers f` its notifier threads. -/
structure Startup (N W : Nat) where
  votedFor : Fin N → Int
  transmitter : Transmitter N
  workerInfos : Nat
  dialing : Fin W → List (Fin N)
  backlog : Fin N → List (Call N W)
  logReceivers : Fin N → List (Fin W)
  notifiers : Fin N → List (Fin N × Fin W)

/-- The next call: of the leader's transmitter, of one of its workers, of a receiver, or of a log
receiver. -/
inductive StartupAct (N W : Nat)
  | setVotedFor
  | requestVote
  | becomeLeader
  | pushWorkerInfo
  | connect2raftnode (w : Fin W)
  | accept (f : Fin N)
  | getLeader (f : Fin N) (w : Fin W)
  deriving DecidableEq

namespace Startup

section Step

variable {N W : Nat} (me : Fin N) (rNode : Fin N → Fin N → Option (Fin N))

/-- `Raft::getLeader`, where its assertion holds. -/
def getLeader (votedFor : Int) : Option (Fin N) :=
  if bound : 0 ≤ votedFor ∧ votedFor.toNat < N then some ⟨votedFor.toNat, bound.2⟩ else none

def connect (s : Startup N W) (f : Fin N) (call : Call N W) : Startup N W :=
  { s with backlog := Function.update s.backlog f (s.backlog f ++ [call]) }

/-- What the receiver of node `f` does with a connection; `rNode f g` is the node that it takes for
the sender, if it finds one. -/
def receive (s : Startup N W) (f : Fin N) : Call N W → Startup N W
  | .requestVote g => match rNode f g with
      | some g' => { s with votedFor := Function.update s.votedFor f g'.val }
      | none => s
  | .appendEntries g w => match rNode f g with
      | some _ => { s with logReceivers := Function.update s.logReceivers f (w :: s.logReceivers f) }
      | none => s
  | .responseAppendEntries g w => match rNode f g with
      | some g' => { s with notifiers := Function.update s.notifiers f ((g', w) :: s.notifiers f) }
      | none => s

def step (s : Startup N W) : StartupAct N W → Option (Startup N W)
  | .setVotedFor => match s.transmitter with
      | .ready => some { s with
          votedFor := Function.update s.votedFor me me.val
          transmitter := .requesting (Election.others me) }
      | _ => none
  | .requestVote => match s.transmitter with
      | .requesting (g :: rest) =>
          some ({ s with transmitter := .requesting rest }.connect g (.requestVote me))
      | _ => none
  | .becomeLeader => match s.transmitter with
      | .requesting [] => some { s with transmitter := .sleeping }
      | _ => none
  | .pushWorkerInfo =>
      if s.transmitter = .sleeping ∧ s.workerInfos < W then
        some { s with workerInfos := s.workerInfos + 1 }
      else none
  | .connect2raftnode w => match s.dialing w with
      | f :: rest =>
          if w.val < s.workerInfos then
            some ({ s with dialing := Function.update s.dialing w rest }.connect f
              (.appendEntries me w))
          else none
      | [] => none
  | .accept f => match s.backlog f with
      | call :: rest =>
          some ({ s with backlog := Function.update s.backlog f rest }.receive rNode f call)
      | [] => none
  | .getLeader f w =>
      if w ∈ s.logReceivers f then do
        let leader ← getLeader (s.votedFor f)
        some ({ s with
          logReceivers := Function.update s.logReceivers f ((s.logReceivers f).erase w) }.connect
            leader (.responseAppendEntries f w))
      else none

/-- All nodes have started, with the votes that they loaded; the transmitter of `me` is the only one
that was built to set up a leader. -/
def start (votedFor : Fin N → Int) : Startup N W where
  votedFor := votedFor
  transmitter := .ready
  workerInfos := 0
  dialing := fun _ => Election.others me
  backlog := fun _ => []
  logReceivers := fun _ => []
  notifiers := fun _ => []

end Step

section Invariant

variable {N W : Nat} {me : Fin N} {rNode : Fin N → Fin N → Option (Fin N)}
  {s₀ s s' : Startup N W} {tr : List (StartupAct N W)}

def unasked (me : Fin N) : Transmitter N → List (Fin N)
  | .ready => Election.others me
  | .requesting rest => rest
  | .sleeping => []

inductive Follower (me : Fin N) (unasked : List (Fin N)) (f : Fin N) :
    Int → List (Call N W) → List (Fin W) → Prop
  | unasked {v : Int} (waits : f ∈ unasked) : Follower me unasked f v [] []
  | asked {v : Int} (done : f ∉ unasked) (ws : List (Fin W)) :
      Follower me unasked f v (.requestVote me :: ws.map (.appendEntries me)) []
  | voted (done : f ∉ unasked) (ws threads : List (Fin W)) :
      Follower me unasked f me.val (ws.map (.appendEntries me)) threads

/-- Where the pair of connections of follower `f` for worker `w` is. -/
def wires (me : Fin N) (s : Startup N W) (f : Fin N) (w : Fin W) : Nat :=
  (s.dialing w).count f + (s.backlog f).count (.appendEntries me w) + (s.logReceivers f).count w +
    (s.backlog me).count (.responseAppendEntries f w) + (s.notifiers me).count (f, w)

structure Wiring (me : Fin N) (s : Startup N W) : Prop where
  follower : ∀ f, f ≠ me → Follower me (unasked me s.transmitter) f (s.votedFor f) (s.backlog f)
    (s.logReceivers f)
  asks : (unasked me s.transmitter).Nodup ∧ me ∉ unasked me s.transmitter
  early : s.transmitter ≠ .sleeping → s.workerInfos = 0
  workers : s.workerInfos ≤ W
  dialing : ∀ w, me ∉ s.dialing w
  replies : (∃ ps : List (Fin N × Fin W), (∀ p ∈ ps, p.1 ≠ me) ∧
    s.backlog me = ps.map (fun p => .responseAppendEntries p.1 p.2)) ∧ s.logReceivers me = []
  elsewhere : ∀ f, f ≠ me → s.notifiers f = []
  wired : ∀ f, f ≠ me → ∀ w, s.wires me f w = 1

private theorem count_others {f : Fin N} (apart : f ≠ me) : (Election.others me).count f = 1 := by
  have once : (Election.others me).Nodup := (List.nodup_finRange N).filter _
  exact List.count_eq_one_of_mem once (by simp [Election.others, apart])

private theorem wiring_start (votedFor : Fin N → Int) :
    Wiring me (start me votedFor : Startup N W) where
  follower := by
    intro f apart
    exact .unasked (by simp [start, unasked, Election.others, apart])
  asks := ⟨(List.nodup_finRange N).filter _, by simp [start, unasked, Election.others]⟩
  early := fun _ => rfl
  workers := Nat.zero_le _
  dialing := by simp [start, Election.others]
  replies := ⟨⟨[], by simp, rfl⟩, rfl⟩
  elsewhere := fun _ _ => rfl
  wired := by
    intro f apart w
    simp [wires, start, count_others apart]

theorem Follower.congr {u u' : List (Fin N)} {f : Fin N} {v : Int} {calls : List (Call N W)}
    {threads : List (Fin W)} (inv : Follower me u f v calls threads) (same : f ∈ u ↔ f ∈ u') :
    Follower me u' f v calls threads := by
  cases inv with
  | unasked waits => exact .unasked (same.mp waits)
  | asked done ws => exact .asked (fun waits => done (same.mpr waits)) ws
  | voted done ws threads => exact .voted (fun waits => done (same.mpr waits)) ws threads

private theorem Follower.of_waits {u : List (Fin N)} {f : Fin N} {v : Int} {calls : List (Call N W)}
    {threads : List (Fin W)} (inv : Follower me u f v calls threads) (waits : f ∈ u) :
    calls = [] ∧ threads = [] := by
  cases inv with
  | unasked => exact ⟨rfl, rfl⟩
  | asked done | voted done => exact absurd waits done

private theorem Follower.of_done {u : List (Fin N)} {f : Fin N} {v : Int} {calls : List (Call N W)}
    {threads : List (Fin W)} (inv : Follower me u f v calls threads) (done : f ∉ u) :
    ∃ ws : List (Fin W), calls = .requestVote me :: ws.map (.appendEntries me) ∧ threads = [] ∨
      v = me.val ∧ calls = ws.map (.appendEntries me) := by
  cases inv with
  | unasked waits => exact absurd waits done
  | asked _ ws => exact ⟨ws, .inl ⟨rfl, rfl⟩⟩
  | voted _ ws => exact ⟨ws, .inr ⟨rfl, rfl⟩⟩

private theorem Follower.of_thread {u : List (Fin N)} {f : Fin N} {v : Int} {calls : List (Call N W)}
    {threads : List (Fin W)} (inv : Follower me u f v calls threads) {w : Fin W}
    (member : w ∈ threads) :
    v = me.val ∧ f ∉ u ∧ ∃ ws : List (Fin W), calls = ws.map (.appendEntries me) := by
  cases inv with
  | unasked | asked => cases member
  | voted done ws => exact ⟨rfl, done, ws, rfl⟩

private theorem getLeader_val (f : Fin N) : getLeader (f.val : Int) = some f := by
  simp [getLeader]

theorem Follower.append {u : List (Fin N)} {f : Fin N} {v : Int} {calls : List (Call N W)}
    {threads : List (Fin W)} (inv : Follower me u f v calls threads) (done : f ∉ u) (w : Fin W) :
    Follower me u f v (calls ++ [.appendEntries me w]) threads := by
  cases inv with
  | unasked waits => exact absurd waits done
  | asked _ ws => simpa using Follower.asked (v := v) done (ws ++ [w])
  | voted _ ws threads => simpa using Follower.voted done (ws ++ [w]) threads

private theorem wiring_setVotedFor (inv : Wiring me s)
    (taken : step me rNode s .setVotedFor = some s') : Wiring me s' := by
  cases here : s.transmitter with
  | ready =>
    simp only [step, here, Option.some.injEq] at taken
    subst taken
    have asks := inv.asks
    rw [here] at asks
    refine ⟨fun f apart => ?_, asks, fun _ => inv.early (by simp [here]), inv.workers, inv.dialing,
      inv.replies, inv.elsewhere, inv.wired⟩
    have follower := inv.follower f apart
    rw [here] at follower
    simpa [unasked, apart] using follower
  | _ => simp [step, here] at taken

private theorem wiring_requestVote (inv : Wiring me s)
    (taken : step me rNode s .requestVote = some s') : Wiring me s' := by
  cases here : s.transmitter with
  | requesting all =>
    cases all with
    | nil => simp [step, here] at taken
    | cons g rest =>
      simp only [step, here, Option.some.injEq] at taken
      subst taken
      have asks := inv.asks
      simp only [here, unasked, List.nodup_cons, List.mem_cons, not_or] at asks
      obtain ⟨⟨once, nodup⟩, apart, others⟩ := asks
      refine ⟨fun f follower => ?_, ⟨nodup, others⟩, fun _ => inv.early (by simp [here]),
        inv.workers, inv.dialing, ?_, inv.elsewhere, fun f follower w => ?_⟩
      · have before := inv.follower f follower
        simp only [here, unasked] at before
        by_cases same : f = g
        · subst same
          obtain ⟨calls, threads⟩ := before.of_waits List.mem_cons_self
          have asked : Follower me rest f (s.votedFor f) (.requestVote me ::
            ([] : List (Fin W)).map (.appendEntries me)) [] := .asked once []
          simpa [connect, unasked, calls, threads] using asked
        · have frame : Follower me rest f _ _ _ := before.congr (by simp [same])
          simpa [connect, unasked, same] using frame
      · simpa [connect, apart] using inv.replies
      · have before := inv.wired f follower w
        by_cases same : f = g
        · subst same
          simpa [wires, connect, follower.symm] using before
        · simpa [wires, connect, apart, same] using before
  | _ => simp [step, here] at taken

private theorem wiring_becomeLeader (inv : Wiring me s)
    (taken : step me rNode s .becomeLeader = some s') : Wiring me s' := by
  cases here : s.transmitter with
  | requesting all =>
    cases all with
    | nil =>
      simp only [step, here, Option.some.injEq] at taken
      subst taken
      refine ⟨fun f apart => ?_, by simp [unasked], fun other => absurd rfl other, inv.workers,
        inv.dialing, inv.replies, inv.elsewhere, inv.wired⟩
      have follower := inv.follower f apart
      rw [here] at follower
      exact follower
    | cons g rest => simp [step, here] at taken
  | _ => simp [step, here] at taken

private theorem wiring_pushWorkerInfo (inv : Wiring me s)
    (taken : step me rNode s .pushWorkerInfo = some s') : Wiring me s' := by
  simp only [step, Option.ite_none_right_eq_some, Option.some.injEq] at taken
  obtain ⟨⟨sleeping, room⟩, rfl⟩ := taken
  exact ⟨inv.follower, inv.asks, fun other => absurd sleeping other, room, inv.dialing, inv.replies,
    inv.elsewhere, inv.wired⟩

private theorem wiring_connect {w : Fin W} (inv : Wiring me s)
    (taken : step me rNode s (.connect2raftnode w) = some s') : Wiring me s' := by
  cases here : s.dialing w with
  | nil => simp [step, here] at taken
  | cons f rest =>
    simp only [step, here, Option.ite_none_right_eq_some, Option.some.injEq] at taken
    obtain ⟨runs, rfl⟩ := taken
    have mine : f ≠ me := by
      rintro rfl
      exact inv.dialing w (by simp [here])
    -- workers run only after all nodes were asked
    have sleeping : s.transmitter = .sleeping := by
      by_contra other
      have none := inv.early other
      omega
    refine ⟨fun g apart => ?_, inv.asks, inv.early, inv.workers, fun v => ?_, ?_, inv.elsewhere,
      fun g apart v => ?_⟩
    · have before := inv.follower g apart
      by_cases same : g = f
      · subst same
        have later := before.append (by simp [sleeping, unasked]) w
        simpa [connect] using later
      · simpa [connect, same] using before
    · by_cases same : v = w
      · subst same
        have absent := inv.dialing v
        rw [here] at absent
        simpa [connect] using fun member => absent (List.mem_cons_of_mem f member)
      · simpa [connect, same] using inv.dialing v
    · simpa [connect, mine.symm] using inv.replies
    · have before := inv.wired g apart v
      by_cases other : v = w
      · subst other
        by_cases same : g = f
        · subst same
          simp [wires, here] at before
          simp [wires, connect, apart.symm]
          omega
        · simpa [wires, connect, here, same, Ne.symm same, mine.symm] using before
      · by_cases same : g = f
        · subst same
          simpa [wires, connect, other, Ne.symm other, apart.symm] using before
        · simpa [wires, connect, other, same, mine.symm] using before

private theorem wiring_accept_leader (known : ∀ f g, f ≠ g → rNode f g = some g) (inv : Wiring me s)
    (taken : step me rNode s (.accept me) = some s') : Wiring me s' := by
  obtain ⟨⟨ps, others, calls⟩, threads⟩ := inv.replies
  cases ps with
  | nil => simp [step, calls] at taken
  | cons p ps =>
    obtain ⟨g, w⟩ := p
    have mine : g ≠ me := others (g, w) List.mem_cons_self
    rw [List.map_cons] at calls
    simp only [step, calls, receive, known me g mine.symm, Option.some.injEq] at taken
    subst taken
    refine ⟨fun f apart => ?_, inv.asks, inv.early, inv.workers, inv.dialing,
      ⟨⟨ps, ?_, ?_⟩, threads⟩, fun f apart => ?_, fun f apart v => ?_⟩
    · simpa [apart] using inv.follower f apart
    · exact fun p member => others p (List.mem_cons_of_mem _ member)
    · simp
    · simpa [apart] using inv.elsewhere f apart
    · have before := inv.wired f apart v
      simp only [wires, calls, List.count_cons] at before
      simp only [wires, Function.update_self, Function.update_of_ne apart, List.count_cons]
      by_cases same : g = f ∧ w = v
      · obtain ⟨rfl, rfl⟩ := same
        simp at before ⊢
        omega
      · have call : ¬ (Call.responseAppendEntries g w : Call N W) = .responseAppendEntries f v := by
          simpa using same
        have pair : ¬ (g, w) = (f, v) := by simpa using same
        simpa [same, pair] using before

private theorem wiring_accept_follower {f : Fin N} (known : ∀ f g, f ≠ g → rNode f g = some g)
    (mine : f ≠ me) (inv : Wiring me s) (taken : step me rNode s (.accept f) = some s') :
    Wiring me s' := by
  have before := inv.follower f mine
  by_cases done : f ∈ unasked me s.transmitter
  · simp [step, (before.of_waits done).1] at taken
  · obtain ⟨ws, ⟨calls, threads⟩ | ⟨vote, calls⟩⟩ := before.of_done done
    · simp only [step, calls, receive, known f me mine, Option.some.injEq] at taken
      subst taken
      refine ⟨fun g apart => ?_, inv.asks, inv.early, inv.workers, inv.dialing, ?_, inv.elsewhere,
        fun g apart w => ?_⟩
      · by_cases same : g = f
        · subst same
          simpa [threads] using Follower.voted done ws []
        · simpa [same] using inv.follower g apart
      · simpa [mine.symm] using inv.replies
      · have wired := inv.wired g apart w
        by_cases same : g = f
        · subst same
          simpa [wires, calls, mine.symm] using wired
        · simpa [wires, same, mine.symm] using wired
    · cases ws with
      | nil => simp [step, calls] at taken
      | cons w ws =>
        rw [List.map_cons] at calls
        simp only [step, calls, receive, known f me mine, Option.some.injEq] at taken
        subst taken
        refine ⟨fun g apart => ?_, inv.asks, inv.early, inv.workers, inv.dialing, ?_,
          inv.elsewhere, fun g apart v => ?_⟩
        · by_cases same : g = f
          · subst same
            have later : Follower me (unasked me s.transmitter) g me.val (ws.map (.appendEntries me))
              (w :: s.logReceivers g) := .voted done ws _
            simpa [vote] using later
          · simpa [same] using inv.follower g apart
        · simpa [mine.symm] using inv.replies
        · have wired := inv.wired g apart v
          by_cases same : g = f
          · subst same
            by_cases other : w = v
            · subst other
              simp [wires, calls] at wired
              simp [wires, mine.symm]
              omega
            · simpa [wires, calls, mine.symm, other] using wired
          · simpa [wires, same, mine.symm] using wired

private theorem wiring_getLeader {f : Fin N} {w : Fin W} (inv : Wiring me s)
    (taken : step me rNode s (.getLeader f w) = some s') : Wiring me s' := by
  simp only [step, Option.ite_none_right_eq_some, Option.bind_eq_bind, Option.bind_eq_some_iff,
    Option.some.injEq] at taken
  obtain ⟨waits, leader, found, rfl⟩ := taken
  have mine : f ≠ me := by
    rintro rfl
    simp [inv.replies.2] at waits
  obtain ⟨vote, done, ws, calls⟩ := (inv.follower f mine).of_thread waits
  obtain rfl : me = leader := by
    rw [vote, getLeader_val] at found
    exact Option.some.inj found
  refine ⟨fun g apart => ?_, inv.asks, inv.early, inv.workers, inv.dialing, ?_, inv.elsewhere,
    fun g apart v => ?_⟩
  · by_cases same : g = f
    · subst same
      have later : Follower me (unasked me s.transmitter) g me.val (ws.map (.appendEntries me))
        ((s.logReceivers g).erase w) := .voted done ws _
      simpa [connect, apart, calls, vote] using later
    · simpa [connect, apart, same] using inv.follower g apart
  · obtain ⟨⟨ps, others, replies⟩, threads⟩ := inv.replies
    refine ⟨⟨ps ++ [(f, w)], ?_, ?_⟩, ?_⟩
    · intro p member
      rcases List.mem_append.mp member with old | new
      · exact others p old
      · rw [List.mem_singleton.mp new]
        exact mine
    · simp [connect, replies]
    · simpa [connect, mine.symm] using threads
  · have wired := inv.wired g apart v
    by_cases same : g = f
    · subst same
      by_cases other : v = w
      · subst other
        have some := List.count_pos_iff.mpr waits
        simp only [wires] at wired
        simp [wires, connect, apart, List.count_erase_self]
        omega
      · simpa [wires, connect, apart, other, Ne.symm other, List.count_erase_of_ne other] using wired
    · simpa [wires, connect, apart, same, Ne.symm same] using wired

private theorem wiring_step (known : ∀ f g, f ≠ g → rNode f g = some g) {a : StartupAct N W}
    (inv : Wiring me s) (taken : step me rNode s a = some s') : Wiring me s' := by
  cases a with
  | setVotedFor => exact wiring_setVotedFor inv taken
  | requestVote => exact wiring_requestVote inv taken
  | becomeLeader => exact wiring_becomeLeader inv taken
  | pushWorkerInfo => exact wiring_pushWorkerInfo inv taken
  | connect2raftnode w => exact wiring_connect inv taken
  | accept f =>
    by_cases mine : f = me
    · subst mine
      exact wiring_accept_leader known inv taken
    · exact wiring_accept_follower known mine inv taken
  | getLeader f w => exact wiring_getLeader inv taken

private theorem wiring_run (known : ∀ f g, f ≠ g → rNode f g = some g) {votedFor : Fin N → Int}
    (run : Run (Steps (step me rNode)) (start me votedFor) tr s) : Wiring me s :=
  run.invariant (I := fun _ s => Wiring me s) (wiring_start votedFor)
    (fun _ _ _ _ _ inv taken => wiring_step known inv taken)

end Invariant

section Ending

variable {N W : Nat} {me : Fin N} {rNode : Fin N → Fin N → Option (Fin N)}
  {s₀ s s' : Startup N W} {tr : List (StartupAct N W)}

def callCost : Call N W → Nat
  | .requestVote _ => 1
  | .appendEntries _ _ => 3
  | .responseAppendEntries _ _ => 1

def cost (me : Fin N) : Transmitter N → Nat
  | .ready => 2 * (Election.others me).length + 2
  | .requesting rest => 2 * rest.length + 1
  | .sleeping => 0

/-- At least the calls that are still to come. -/
def remaining (me : Fin N) (s : Startup N W) : Nat :=
  cost me s.transmitter + (W - s.workerInfos) + ∑ w, 4 * (s.dialing w).length +
    ∑ f, ((s.backlog f).map callCost).sum + ∑ f, 2 * (s.logReceivers f).length

private theorem sum_update {ι β : Type} [Fintype ι] [DecidableEq ι] (F : ι → β) (g : β → Nat) (i : ι)
    (x : β) : ∑ j, g (Function.update F i x j) + g (F i) = ∑ j, g (F j) + g x := by
  have parts : ∀ G : ι → Nat, ∑ j, G j = G i + ∑ j ∈ Finset.univ.erase i, G j := fun G =>
    (Finset.add_sum_erase _ G (Finset.mem_univ i)).symm
  rw [parts (fun j => g (Function.update F i x j)), parts (fun j => g (F j)),
    Function.update_self]
  have rest : ∑ j ∈ Finset.univ.erase i, g (Function.update F i x j) =
      ∑ j ∈ Finset.univ.erase i, g (F j) :=
    Finset.sum_congr rfl (fun j apart => by rw [Function.update_of_ne (Finset.ne_of_mem_erase apart)])
  rw [rest]
  omega

private theorem remaining_connect (s : Startup N W) (f : Fin N) (call : Call N W) :
    (s.connect f call).remaining me = s.remaining me + callCost call := by
  have calls := sum_update s.backlog (fun cs => (cs.map callCost).sum) f (s.backlog f ++ [call])
  simp only [List.map_append, List.sum_append, List.map_singleton, List.sum_singleton] at calls
  simp only [remaining, connect]
  omega

private theorem remaining_receive (s : Startup N W) (f : Fin N) (call : Call N W) :
    (s.receive rNode f call).remaining me < s.remaining me + callCost call := by
  cases call with
  | requestVote g | responseAppendEntries g w =>
    simp only [receive]
    split <;> simp [remaining, callCost]
  | appendEntries g w =>
    have threads := sum_update s.logReceivers (fun ws => 2 * ws.length) f (w :: s.logReceivers f)
    simp only [List.length_cons] at threads
    simp only [receive]
    split
    · simp only [remaining, callCost]
      omega
    · simp [callCost]

private theorem remaining_step {a : StartupAct N W} (taken : step me rNode s a = some s') :
    s'.remaining me < s.remaining me := by
  cases a with
  | setVotedFor =>
    cases here : s.transmitter with
    | ready =>
      simp only [step, here, Option.some.injEq] at taken
      subst taken
      simp [remaining, here, cost]
    | _ => simp [step, here] at taken
  | requestVote =>
    cases here : s.transmitter with
    | requesting all =>
      cases all with
      | nil => simp [step, here] at taken
      | cons g rest =>
        simp only [step, here, Option.some.injEq] at taken
        subst taken
        rw [remaining_connect]
        simp only [remaining, here, cost, callCost, List.length_cons]
        omega
    | _ => simp [step, here] at taken
  | becomeLeader =>
    cases here : s.transmitter with
    | requesting all =>
      cases all with
      | nil =>
        simp only [step, here, Option.some.injEq] at taken
        subst taken
        simp [remaining, here, cost]
      | cons g rest => simp [step, here] at taken
    | _ => simp [step, here] at taken
  | pushWorkerInfo =>
    simp only [step, Option.ite_none_right_eq_some, Option.some.injEq] at taken
    obtain ⟨⟨-, room⟩, rfl⟩ := taken
    simp only [remaining]
    omega
  | connect2raftnode w =>
    cases here : s.dialing w with
    | nil => simp [step, here] at taken
    | cons f rest =>
      simp only [step, here, Option.ite_none_right_eq_some, Option.some.injEq] at taken
      obtain ⟨-, rfl⟩ := taken
      have dialed := sum_update s.dialing (fun fs => 4 * fs.length) w rest
      simp only [here, List.length_cons] at dialed
      rw [remaining_connect]
      simp only [remaining, callCost]
      omega
  | accept f =>
    cases here : s.backlog f with
    | nil => simp [step, here] at taken
    | cons call rest =>
      simp only [step, here, Option.some.injEq] at taken
      subst taken
      have calls := sum_update s.backlog (fun cs => (cs.map callCost).sum) f rest
      simp only [here, List.map_cons, List.sum_cons] at calls
      refine lt_of_lt_of_le (remaining_receive _ f call) ?_
      simp only [remaining]
      omega
  | getLeader f w =>
    simp only [step, Option.ite_none_right_eq_some, Option.bind_eq_bind, Option.bind_eq_some_iff,
      Option.some.injEq] at taken
    obtain ⟨waits, leader, -, rfl⟩ := taken
    have threads := sum_update s.logReceivers (fun ws => 2 * ws.length) f ((s.logReceivers f).erase w)
    have some : 0 < (s.logReceivers f).length := List.length_pos_of_mem waits
    simp only [List.length_erase_of_mem waits] at threads
    rw [remaining_connect]
    simp only [remaining, callCost]
    omega

/-- Where no call is left, every follower has voted for the leader, and the leader has a notifier for
each pair of a follower and a worker. -/
theorem wiring_complete (inv : Wiring me s) (ended : ∀ a, step me rNode s a = none) {f : Fin N}
    (apart : f ≠ me) : s.votedFor f = me.val ∧ ∀ w, (s.notifiers me).count (f, w) = 1 := by
  have sleeping : s.transmitter = .sleeping := by
    cases here : s.transmitter with
    | ready =>
      have := ended .setVotedFor
      simp [step, here] at this
    | requesting all =>
      cases all with
      | nil =>
        have := ended .becomeLeader
        simp [step, here] at this
      | cons g rest =>
        have := ended .requestVote
        simp [step, here] at this
    | sleeping => rfl
  have workers : s.workerInfos = W := by
    have all := ended .pushWorkerInfo
    simp only [step, sleeping, true_and, ite_eq_right_iff, reduceCtorEq, imp_false] at all
    have most := inv.workers
    omega
  have dialed : ∀ w, s.dialing w = [] := by
    intro w
    cases here : s.dialing w with
    | nil => rfl
    | cons g rest =>
      have := ended (.connect2raftnode w)
      simp [step, here, workers] at this
  have accepted : ∀ g, s.backlog g = [] := by
    intro g
    cases here : s.backlog g with
    | nil => rfl
    | cons call rest =>
      have := ended (.accept g)
      simp [step, here] at this
  have connected : s.logReceivers f = [] := by
    rw [List.eq_nil_iff_forall_not_mem]
    intro w waits
    have := ended (.getLeader f w)
    simp [step, waits, ((inv.follower f apart).of_thread waits).1, getLeader_val] at this
  refine ⟨?_, fun w => ?_⟩
  · obtain ⟨ws, ⟨calls, -⟩ | ⟨vote, -⟩⟩ :=
      (inv.follower f apart).of_done (by simp [sleeping, unasked])
    · simp [accepted] at calls
    · exact vote
  · simpa [wires, dialed, accepted, connected] using inv.wired f apart w

theorem connects_of_known (known : ∀ f g, f ≠ g → rNode f g = some g) {votedFor : Fin N → Int}
    (run : Run (Steps (step me rNode)) (start me votedFor) tr s) :
    (∀ f, ∀ w ∈ s.logReceivers f, getLeader (s.votedFor f) = some me) ∧
    (∀ f, f ≠ me → s.notifiers f = [] ∧ ∀ w, s.wires me f w = 1) ∧
    tr.length ≤ (start me votedFor : Startup N W).remaining me ∧
    ((∀ a, step me rNode s a = none) → ∀ f, f ≠ me →
      s.votedFor f = me.val ∧ ∀ w, (s.notifiers me).count (f, w) = 1) := by
  have inv := wiring_run known run
  refine ⟨fun f w waits => ?_, fun f apart => ⟨inv.elsewhere f apart, inv.wired f apart⟩, ?_,
    fun ended f apart => wiring_complete inv ended apart⟩
  · have mine : f ≠ me := by
      rintro rfl
      simp [inv.replies.2] at waits
    rw [((inv.follower f mine).of_thread waits).1, getLeader_val]
  · have bounded := run.bounded (fun s => s.remaining me) (fun _ _ _ _ _ taken =>
      remaining_step taken)
    omega

end Ending

end Startup

end Raft2pl.Server
