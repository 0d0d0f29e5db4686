/- The service as its clients see it: what a client that has counted its commit messages may rely on. -/

import Raft2pl.Server.Accounting
import Raft2pl.Server.Durability

set_option autoImplicit false
set_option relaxedAutoImplicit false

namespace Raft2pl.Server

open Lib (Run Steps exec exec_reaches)

instance : DecidableEq ClientCommand := fun a b =>
  decidable_of_iff (a.commandId = b.commandId ∧ ∀ i, a.req i = b.req i) <| by
    cases a
    cases b
    simp [funext_iff]

/-- `main` of a client while it waits for its commands: how many were answered, whether one more
was sent, and `commitCount`. -/
structure Session where
  answered : Nat
  waiting : Bool
  commitCount : Nat

def Session.read (x : Session) (commandId m : CInt) : Session :=
  let commitCount := if m = commandId then x.commitCount + 1 else x.commitCount
  if commitCount = maxCliReq then ⟨x.answered + 1, false, 0⟩ else { x with commitCount }

/-- The cluster with the leader's producers and its clients. On connection `c`, `toServer c` are the
commands that the producer has not read, and `toClient c` the numbers of the commit messages that the
client has not read. -/
structure Dialogue (N W : Nat) (κ : Type) (P : TwoPl.KvsConst) where
  cluster : Cluster N W P
  pending : κ → List TransReq
  session : κ → Session
  toServer : κ → List ClientCommand
  toClient : κ → List CInt

/-- A client sends its next command or reads a commit message, a producer reads a command or enqueues
a request, or some other thread makes a call. -/
inductive DialogueAct (N W : Nat) (κ : Type)
  | send (c : κ)
  | commitMessage (c : κ) (commandId : CInt)
  | recv (c : κ) (cc : ClientCommand)
  | xactEnqueue (c : κ) (tx : TransReq)
  | cluster (b : ClusterAct N W)

def ClusterAct.ofProducer {N W : Nat} : ClusterAct N W → Bool
  | .leader a => a.ofProducer
  | _ => false

section Histories

variable {N W : Nat} {κ : Type}

def messagesTo (clientId : Int) (tr : List (ClusterAct N W)) : List (Place W × TransReq) :=
  (messages (ofLeader tr)).filter (fun p => decide (p.2.clientId = clientId))

def answersTo (clientId : Int) (cc : ClientCommand) (tr : List (ClusterAct N W)) :
    List (Place W × TransReq) :=
  (messagesTo clientId tr).filter (fun p => decide (p.2.commandId = cc.commandId))

private theorem messagesTo_append (clientId : Int) (tr tr' : List (ClusterAct N W)) :
    messagesTo clientId (tr ++ tr') = messagesTo clientId tr ++ messagesTo clientId tr' := by
  simp [messagesTo, messages, ofLeader]

end Histories

namespace Dialogue

section Step

variable {N W : Nat} {κ : Type} [DecidableEq κ] (cfg : Config N) (curTerm : Fin N → Int)
  (bound : κ → Binding W) (script : κ → List ClientCommand)

def step (s : Dialogue N W κ cfg.consts) : DialogueAct N W κ → Option (Dialogue N W κ cfg.consts)
  | .send c => do
      let cc ← (script c)[(s.session c).answered]?
      if (s.session c).waiting then none
      else some { s with
        session := Function.update s.session c ⟨(s.session c).answered, true, 0⟩
        toServer := Function.update s.toServer c (s.toServer c ++ [cc]) }
  | .commitMessage c m => do
      let cc ← (script c)[(s.session c).answered]?
      if (s.session c).waiting ∧ (s.toClient c).head? = some m then
        some { s with
          session := Function.update s.session c ((s.session c).read cc.commandId m)
          toClient := Function.update s.toClient c (s.toClient c).tail }
      else none
  | .recv c cc =>
      if s.pending c = [] ∧ (s.toServer c).head? = some cc then
        some { s with
          pending := Function.update s.pending c (producer (bound c).clientId cc)
          toServer := Function.update s.toServer c (s.toServer c).tail }
      else none
  | .xactEnqueue c tx =>
      if (s.pending c).head? = some tx then do
        let cluster' ← Cluster.step cfg curTerm s.cluster
          (.leader (.worker (bound c).workerId (.xactEnqueue tx)))
        some { s with
          cluster := cluster'
          pending := Function.update s.pending c (s.pending c).tail }
      else none
  | .cluster b =>
      if b.ofProducer then none
      else do
        let cluster' ← Cluster.step cfg curTerm s.cluster b
        some { s with
          cluster := cluster'
          toClient := fun c => s.toClient c ++
            (messagesTo (bound c).clientId [b]).map (·.2.commandId) }

/-- Clients that have sent nothing, on a cluster that has just started. -/
structure Fresh (s : Dialogue N W κ cfg.consts) : Prop where
  cluster : Cluster.Fresh cfg s.cluster
  pending : ∀ c, s.pending c = []
  session : ∀ c, s.session c = ⟨0, false, 0⟩
  toServer : ∀ c, s.toServer c = []
  toClient : ∀ c, s.toClient c = []

def start (cluster : Cluster N W cfg.consts) : Dialogue N W κ cfg.consts where
  cluster := cluster
  pending := fun _ => []
  session := fun _ => ⟨0, false, 0⟩
  toServer := fun _ => []
  toClient := fun _ => []

omit [DecidableEq κ] in
theorem start_fresh {cluster : Cluster N W cfg.consts} (fresh : Cluster.Fresh cfg cluster) :
    Fresh cfg (start (κ := κ) cfg cluster) :=
  ⟨fresh, fun _ => rfl, fun _ => rfl, fun _ => rfl, fun _ => rfl⟩

end Step

section Histories

variable {N W : Nat} {κ : Type} (bound : κ → Binding W)

def toCluster : DialogueAct N W κ → Option (ClusterAct N W)
  | .xactEnqueue c tx => some (.leader (.worker (bound c).workerId (.xactEnqueue tx)))
  | .cluster b => some b
  | _ => none

def toIntake : DialogueAct N W κ → Option (IntakeAct N W (Conn N W) κ)
  | .recv c cc => some (.recv c cc)
  | .xactEnqueue c tx => some (.xactEnqueue c tx)
  | .cluster b => b.leader?.map .leader
  | _ => none

def ofCluster (tr : List (DialogueAct N W κ)) : List (ClusterAct N W) := tr.filterMap (toCluster bound)

def arrived [DecidableEq κ] (c : κ) (tr : List (DialogueAct N W κ)) : List ClientCommand :=
  tr.filterMap fun
    | .recv d cc => if d = c then some cc else none
    | _ => none

def heard [DecidableEq κ] (c : κ) (tr : List (DialogueAct N W κ)) : List CInt :=
  tr.filterMap fun
    | .commitMessage d m => if d = c then some m else none
    | _ => none

end Histories

section Runs

variable {N W : Nat} {κ : Type} [DecidableEq κ] {cfg : Config N} {curTerm : Fin N → Int}
  {bound : κ → Binding W} {script : κ → List ClientCommand}
  {s₀ s s' : Dialogue N W κ cfg.consts} {tr : List (DialogueAct N W κ)}

private theorem step_send {c : κ} (taken : step cfg curTerm bound script s (.send c) = some s') :
    ∃ cc, (script c)[(s.session c).answered]? = some cc ∧ (s.session c).waiting = false ∧
      s' = { s with
        session := Function.update s.session c ⟨(s.session c).answered, true, 0⟩
        toServer := Function.update s.toServer c (s.toServer c ++ [cc]) } := by
  simp only [step, Option.bind_eq_bind, Option.bind_eq_some_iff, Option.ite_none_left_eq_some,
    Option.some.injEq] at taken
  obtain ⟨cc, next, ready, done⟩ := taken
  exact ⟨cc, next, by simpa using ready, done.symm⟩

private theorem step_commitMessage {c : κ} {m : CInt}
    (taken : step cfg curTerm bound script s (.commitMessage c m) = some s') :
    ∃ cc, (script c)[(s.session c).answered]? = some cc ∧ (s.session c).waiting = true ∧
      (s.toClient c).head? = some m ∧
      s' = { s with
        session := Function.update s.session c ((s.session c).read cc.commandId m)
        toClient := Function.update s.toClient c (s.toClient c).tail } := by
  simp only [step, Option.bind_eq_bind, Option.bind_eq_some_iff, Option.ite_none_right_eq_some,
    Option.some.injEq] at taken
  obtain ⟨cc, next, ⟨ready, first⟩, done⟩ := taken
  exact ⟨cc, next, ready, first, done.symm⟩

theorem step_recv {c : κ} {cc : ClientCommand}
    (taken : step cfg curTerm bound script s (.recv c cc) = some s') :
    s.pending c = [] ∧ (s.toServer c).head? = some cc ∧
      s' = { s with
        pending := Function.update s.pending c (producer (bound c).clientId cc)
        toServer := Function.update s.toServer c (s.toServer c).tail } := by
  simp only [step, Option.ite_none_right_eq_some, Option.some.injEq] at taken
  obtain ⟨⟨ready, first⟩, done⟩ := taken
  exact ⟨ready, first, done.symm⟩

private theorem step_xactEnqueue {c : κ} {tx : TransReq}
    (taken : step cfg curTerm bound script s (.xactEnqueue c tx) = some s') :
    (s.pending c).head? = some tx ∧ ∃ cluster', Cluster.step cfg curTerm s.cluster
        (.leader (.worker (bound c).workerId (.xactEnqueue tx))) = some cluster' ∧
      s' = { s with
        cluster := cluster'
        pending := Function.update s.pending c (s.pending c).tail } := by
  simp only [step, Option.bind_eq_bind, Option.bind_eq_some_iff, Option.ite_none_right_eq_some,
    Option.some.injEq] at taken
  obtain ⟨first, cluster', moved, done⟩ := taken
  exact ⟨first, cluster', moved, done.symm⟩

private theorem step_cluster {b : ClusterAct N W}
    (taken : step cfg curTerm bound script s (.cluster b) = some s') :
    b.ofProducer = false ∧ ∃ cluster', Cluster.step cfg curTerm s.cluster b = some cluster' ∧
      s' = { s with
        cluster := cluster'
        toClient := fun c => s.toClient c ++
          (messagesTo (bound c).clientId [b]).map (·.2.commandId) } := by
  simp only [step, Option.bind_eq_bind, Option.bind_eq_some_iff, Option.ite_none_left_eq_some,
    Option.some.injEq] at taken
  obtain ⟨other, cluster', moved, done⟩ := taken
  exact ⟨by simpa using other, cluster', moved, done.symm⟩

theorem cluster_run (run : Run (Steps (step cfg curTerm bound script)) s₀ tr s) :
    Run (Steps (Cluster.step cfg curTerm)) s₀.cluster (ofCluster bound tr) s.cluster := by
  refine run.project (fun s => s.cluster) (toCluster bound) ?_ ?_
  · intro s a s' taken none
    cases a with
    | send c =>
      obtain ⟨cc, -, -, rfl⟩ := step_send taken
      rfl
    | commitMessage c m =>
      obtain ⟨cc, -, -, -, rfl⟩ := step_commitMessage taken
      rfl
    | recv c cc =>
      obtain ⟨-, -, rfl⟩ := step_recv taken
      rfl
    | _ => cases none
  · intro s a s' b taken label
    cases a with
    | xactEnqueue c tx =>
      obtain rfl := Option.some.inj label
      obtain ⟨-, cluster', moved, rfl⟩ := step_xactEnqueue taken
      exact moved
    | cluster b =>
      obtain rfl := Option.some.inj label
      obtain ⟨-, cluster', moved, rfl⟩ := step_cluster taken
      exact moved
    | _ => cases label

private theorem intake_run (run : Run (Steps (step cfg curTerm bound script)) s₀ tr s) :
    Run (Steps (Intake.step cfg bound)) ⟨s₀.cluster.leader, s₀.pending⟩ (tr.filterMap toIntake)
      ⟨s.cluster.leader, s.pending⟩ := by
  refine run.project (fun s => (⟨s.cluster.leader, s.pending⟩ :
    Intake N W (Conn N W) κ cfg.consts)) toIntake ?_ ?_
  · intro s a s' taken none
    cases a with
    | send c =>
      obtain ⟨cc, -, -, rfl⟩ := step_send taken
      rfl
    | commitMessage c m =>
      obtain ⟨cc, -, -, -, rfl⟩ := step_commitMessage taken
      rfl
    | cluster b =>
      obtain ⟨-, cluster', moved, rfl⟩ := step_cluster taken
      have elsewhere : b.leader? = Option.none := by simpa [toIntake] using none
      have same := (Cluster.moves_follower (Cluster.moves_step moved) elsewhere).2
      simp only [same]
    | _ => cases none
  · intro s a s' b taken label
    cases a with
    | recv c cc =>
      obtain rfl := Option.some.inj label
      obtain ⟨ready, -, rfl⟩ := step_recv taken
      simp [Steps, Intake.step, ready]
    | xactEnqueue c tx =>
      obtain rfl := Option.some.inj label
      obtain ⟨first, cluster', moved, rfl⟩ := step_xactEnqueue taken
      have made := (Cluster.step_leader moved).1
      simp [Steps, Intake.step, first, made]
    | cluster b' =>
      obtain ⟨other, cluster', moved, rfl⟩ := step_cluster taken
      cases b' with
      | leader a =>
        obtain rfl := Option.some.inj label
        have made := (Cluster.step_leader moved).1
        have free : a.ofProducer = false := other
        simp [Steps, Intake.step, free, made]
      | _ => simp [toIntake, ClusterAct.leader?] at label
    | _ => cases label

omit [DecidableEq κ] in
private theorem ofLeader_ofCluster (tr : List (DialogueAct N W κ)) :
    (tr.filterMap toIntake).filterMap (Intake.toLeader bound) = ofLeader (ofCluster bound tr) := by
  rw [ofLeader, ofCluster, List.filterMap_filterMap, List.filterMap_filterMap]
  congr 1
  funext a
  cases a with
  | cluster b => cases b <;> rfl
  | _ => rfl

end Runs

end Dialogue

namespace Notifier

variable {N W : Nat}

private theorem callOf?_eq_some {op : CommitOp} {b : NotifierAct N W} {p : Place W × TransReq} :
    b.callOf? op = some p ↔ b.call? = some (op, p) := by
  cases call : b.call? with
  | none => simp [NotifierAct.callOf?, call]
  | some q =>
    obtain ⟨op', slot⟩ := q
    simp [NotifierAct.callOf?, call]

private theorem todo_suffix (op : CommitOp) (n : Notifier N W) : n.todo op <:+ n.todo .sendRPC := by
  have last : ∀ p : CommitOp × Place W × TransReq, p.1.rank ≤ CommitOp.sendRPC.rank :=
    fun p => CommitOp.rank_last rfl p.1
  have attached : ∀ (next : CommitOp) (ss : List (Place W × TransReq)),
      (attach next ss).filterMap (fun p => if p.1.rank ≤ op.rank then some p.2 else none) <:+
        (attach next ss).filterMap (fun p => some p.2) := by
    intro next ss
    cases ss with
    | nil => exact List.suffix_rfl
    | cons slot rest =>
      have later : (untouched rest).filterMap (fun p => some p.2) = rest := by
        simp [untouched, List.filterMap_map]
      simp only [attach, List.filterMap_cons, todo_untouched, later]
      split
      · exact List.suffix_cons _ _
      · rename_i found
        rw [Option.ite_none_right_eq_some] at found
        rw [Option.some.inj found.2]
  unfold todo
  simp only [last, if_true]
  cases n with
  | commit j stage => exact attached _ _
  | reply j => exact attached _ _
  | _ => exact List.suffix_rfl

private theorem callsOf_prefix {tr : List (NotifierAct N W)} {n : Notifier N W}
    (run : Run Step .recv tr n)
    (op : CommitOp) : callsOf .sendRPC tr <+: callsOf op tr := by
  obtain ⟨more, rest⟩ := todo_suffix op n
  have same := (callsOf_todo run .sendRPC).trans (callsOf_todo run op).symm
  rw [← rest, ← List.append_assoc] at same
  exact ⟨more, List.append_cancel_right same⟩

end Notifier

namespace Leader

variable {N W : Nat} {ν : Type} [DecidableEq ν] {cfg : Config N}
  {s₀ s : Leader N W ν cfg.consts} {tr : List (LeaderAct N W ν)}

private theorem mem_calls {op : CommitOp} {p : Place W × TransReq} :
    p ∈ calls op tr ↔ ∃ n, p ∈ Notifier.callsOf op (ofNotifier n tr) := by
  simp only [calls, Notifier.callsOf, ofNotifier, List.mem_filterMap]
  constructor
  · rintro ⟨a, label, call⟩
    cases a with
    | notifier n b => exact ⟨n, b, ⟨_, label, by simp [LeaderAct.toNotifier]⟩, call⟩
    | _ => cases call
  · rintro ⟨n, b, ⟨a, label, mine⟩, call⟩
    cases a with
    | notifier m c =>
      obtain ⟨-, rfl⟩ := by
        simpa only [LeaderAct.toNotifier, Option.ite_none_right_eq_some, Option.some.injEq] using mine
      exact ⟨_, label, call⟩
    | _ => cases mine

private theorem calls_of_answered (fresh : Fresh cfg s₀) (run : Run (Moves cfg) s₀ tr s)
    {p : Place W × TransReq} (answered : p ∈ calls .sendRPC tr) (op : CommitOp) :
    p ∈ calls op tr := by
  obtain ⟨n, made⟩ := mem_calls.mp answered
  have own := notifier_run run n
  rw [fresh.notifier n] at own
  exact mem_calls.mpr ⟨n, (Notifier.callsOf_prefix own op).subset made⟩

end Leader

namespace Cluster

variable {N W : Nat} {cfg : Config N} {curTerm : Fin N → Int}
  {c₀ c c' : Cluster N W cfg.consts} {tr : List (ClusterAct N W)}

/-- The transaction's batch is in the leader's log file, and in the log files of followers that are
more than half of all nodes. -/
def Durable (c : Cluster N W cfg.consts) (p : Place W × TransReq) : Prop :=
  ∃ e ∈ (c.leader.worker p.1.workerId).log.file, p ∈ e.slots p.1.workerId ∧
    ∃ followers : Finset (Fin N), N < 2 * followers.card ∧ ∀ f ∈ followers, f ≠ cfg.me ∧
      ∃ e' ∈ (c.disk (f, p.1.workerId)).file, e'.shared = e.shared

theorem Durable.grows {p : Place W × TransReq} (durable : c.Durable p)
    (leader : ∀ v, (c.leader.worker v).log.file ⊆ (c'.leader.worker v).log.file)
    (disks : ∀ n, (c.disk n).file ⊆ (c'.disk n).file) : c'.Durable p := by
  obtain ⟨e, entry, slot, followers, quorum, each⟩ := durable
  refine ⟨e, leader _ entry, slot, followers, quorum, fun f member => ?_⟩
  obtain ⟨follower, e', entry', same⟩ := each f member
  exact ⟨follower, e', disks _ entry', same⟩

theorem files_grow {b : ClusterAct N W} (moved : Moves cfg curTerm c b c') :
    (∀ v, (c.leader.worker v).log.file <+: (c'.leader.worker v).log.file) ∧
      ∀ n, (c.disk n).file <+: (c'.disk n).file := by
  have one : Run (Moves cfg curTerm) c [b] c' := .next .start moved
  refine ⟨fun v => ⟨_, (Worker.file_run (Leader.worker_moves (leader_run one) v)).symm⟩, ?_⟩
  intro n
  cases b with
  | leader a => rw [(moves_leader moved).2.2.1]
  | recv m arpc =>
    obtain ⟨logId, -, -, rfl⟩ := step_recv (moves_follower moved rfl).1
    exact List.prefix_rfl
  | loggingWork m logId e =>
    obtain ⟨arpc, -, -, -, rfl⟩ := step_loggingWork (moves_follower moved rfl).1
    by_cases here : n = (m.1, logId)
    · subst here
      simp only [Function.update_self, Log.file_addEntry]
      exact List.prefix_append _ _
    · simp only [Function.update_of_ne here]
      exact List.prefix_rfl
  | sendAck m rae =>
    obtain ⟨logId, arpc, -, -, rfl⟩ := step_sendAck (moves_follower moved rfl).1
    exact List.prefix_rfl

theorem Durable.moves {b : ClusterAct N W} {p : Place W × TransReq} (durable : c.Durable p)
    (moved : Moves cfg curTerm c b c') : c'.Durable p :=
  durable.grows (fun v => ((files_grow moved).1 v).subset) (fun n => ((files_grow moved).2 n).subset)

theorem calls_durable (fresh : Fresh cfg c₀) (run : Run (Moves cfg curTerm) c₀ tr c)
    (op : CommitOp) : ∀ p ∈ calls op (ofLeader tr), c.Durable p := by
  refine run.invariant (I := fun tr c => ∀ p ∈ calls op (ofLeader tr), c.Durable p) (by
    simp [calls, ofLeader]) ?_
  intro tr c b c' before inv moved p made
  have parts : calls op (ofLeader (tr ++ [b])) = calls op (ofLeader tr) ++ calls op (ofLeader [b]) := by
    simp [calls, ofLeader]
  rcases List.mem_append.mp (parts ▸ made) with old | new
  · exact (inv p old).moves moved
  · cases b with
    | leader a =>
      cases a with
      | notifier n d =>
        have call : d.call? = some (op, p) := by
          simpa [calls, ofLeader, ClusterAct.leader?, LeaderAct.byNotifier,
            Notifier.callOf?_eq_some] using new
        obtain ⟨e, logged, number, -, entry, followers, quorum, each⟩ :=
          call_durable fresh before call moved
        -- the entry is the one of the log that the transaction is in
        have after := leader_run (Run.next before moved)
        have place := (Leader.calls_subperm fresh.leader after op).subset made
        obtain ⟨e₁, logged₁, slot⟩ := List.mem_flatMap.mp (mem_loggedSlots.mp place)
        have logged' : e ∈ leaderLogged p.1.workerId (tr ++ [.leader (.notifier n d)]) := by
          rw [leaderLogged_append]
          exact List.mem_append_left _ logged
        obtain ⟨-, rfl⟩ := Leader.entry_unique fresh.leader after logged₁ logged'
          ((mem_slots.mp slot).2.1.symm.trans number.symm)
        refine Durable.moves ⟨e₁, entry, slot, followers, quorum, fun f member => ?_⟩ moved
        obtain ⟨follower, e', -, same, entry'⟩ := each f member
        exact ⟨follower, e', entry', same⟩
      | _ => simp [calls, ofLeader, ClusterAct.leader?, LeaderAct.byNotifier] at new
    | _ => simp [calls, ofLeader, ClusterAct.leader?] at new

end Cluster



section Commands

def ofCommand (clientId : Int) (cc : ClientCommand) (x : TransReq) : Bool :=
  decide (x.clientId = clientId ∧ x.commandId = cc.commandId)

@[simp] theorem ofCommand_normal (clientId : Int) (cc : ClientCommand) (x : TransReq) :
    ofCommand clientId cc (normal x) = ofCommand clientId cc x := rfl

private theorem filter_producer (clientId clientId' : Int) (cc cc' : ClientCommand) :
    (producer clientId' cc').filter (ofCommand clientId cc) =
      if clientId' = clientId ∧ cc'.commandId = cc.commandId then producer clientId' cc' else [] := by
  split
  · rename_i same
    rw [List.filter_eq_self]
    intro x member
    obtain ⟨i, rfl⟩ := List.mem_ofFn.mp member
    simpa [ofCommand] using same
  · rename_i apart
    rw [List.filter_eq_nil_iff]
    intro x member
    obtain ⟨i, rfl⟩ := List.mem_ofFn.mp member
    simpa [ofCommand] using apart

private theorem filter_commandId {ccs : List ClientCommand} {cc : ClientCommand}
    (distinct : (ccs.map (·.commandId)).Nodup) (member : cc ∈ ccs) :
    ccs.filter (fun d => decide (d.commandId = cc.commandId)) = [cc] := by
  induction ccs with
  | nil => simp at member
  | cons d ccs ih =>
    rw [List.map_cons, List.nodup_cons] at distinct
    rcases List.mem_cons.mp member with rfl | later
    · have none : ccs.filter (fun d => decide (d.commandId = cc.commandId)) = [] := by
        rw [List.filter_eq_nil_iff]
        intro d inside same
        exact distinct.1 (List.mem_map.mpr ⟨d, inside, by simpa using same⟩)
      simp [none]
    · have apart : d.commandId ≠ cc.commandId := fun same =>
        distinct.1 (same ▸ List.mem_map_of_mem later)
      simp [apart, ih distinct.2 later]

variable {N W : Nat} {κ : Type} [DecidableEq κ] {bound : κ → Binding W}

private theorem filter_arrivals (distinct : Function.Injective (fun c => (bound c).clientId)) (c : κ)
    (cc : ClientCommand) (ms : List (κ × ClientCommand)) :
    (ms.flatMap (fun m => producer (bound m.1).clientId m.2)).filter
        (ofCommand (bound c).clientId cc) =
      ((ms.filterMap (fun m => if m.1 = c then some m.2 else none)).filter
        (fun d => decide (d.commandId = cc.commandId))).flatMap (producer (bound c).clientId) := by
  induction ms with
  | nil => rfl
  | cons m ms ih =>
    obtain ⟨d, cc'⟩ := m
    rw [List.flatMap_cons, List.filter_append, filter_producer, ih]
    by_cases here : d = c
    · subst here
      by_cases same : cc'.commandId = cc.commandId <;> simp [same]
    · have apart : ¬ ((bound d).clientId : Int) = (bound c).clientId := fun same =>
        here (distinct (by exact_mod_cast same))
      simp [here, apart]

end Commands

namespace Dialogue

section Sessions

variable {N W : Nat} {κ : Type} [DecidableEq κ] {cfg : Config N} {curTerm : Fin N → Int}
  {bound : κ → Binding W} {script : κ → List ClientCommand}
  {s₀ s s' : Dialogue N W κ cfg.consts} {tr : List (DialogueAct N W κ)}

omit [DecidableEq κ] in
private theorem ofCluster_append (tr : List (DialogueAct N W κ)) (a : DialogueAct N W κ) :
    ofCluster bound (tr ++ [a]) = ofCluster bound tr ++ (toCluster bound a).toList := by
  cases out : toCluster bound a <;> simp [ofCluster, out]

def Counted (script : List ClientCommand) (x : Session) (heard : List CInt) : Prop :=
  ∀ (k : Nat) (cc : ClientCommand), script[k]? = some cc →
    (k < x.answered → maxCliReq ≤ heard.count cc.commandId) ∧
    (k = x.answered → x.waiting = true → x.commitCount ≤ heard.count cc.commandId)

theorem Counted.read {script : List ClientCommand} {x : Session} {heard : List CInt}
    {cc : ClientCommand} (counted : Counted script x heard) (waiting : x.waiting = true)
    (next : script[x.answered]? = some cc) (m : CInt) :
    Counted script (x.read cc.commandId m) (heard ++ [m]) := by
  have more : ∀ id : CInt, heard.count id ≤ (heard ++ [m]).count id := fun id => by
    rw [List.count_append]
    omega
  have here := (counted x.answered cc next).2 rfl waiting
  have reads : (if m = cc.commandId then x.commitCount + 1 else x.commitCount) ≤
      (heard ++ [m]).count cc.commandId := by
    by_cases same : m = cc.commandId
    · simp [same]
      omega
    · simp [same]
      omega
  simp only [Session.read]
  generalize (if m = cc.commandId then x.commitCount + 1 else x.commitCount) = count at reads ⊢
  intro k cc' at_k
  obtain ⟨before, -⟩ := counted k cc' at_k
  by_cases full : count = maxCliReq
  · rw [if_pos full]
    refine ⟨fun low => ?_, fun _ none => by simp at none⟩
    by_cases last : k = x.answered
    · subst last
      obtain rfl : cc = cc' := Option.some.inj (next.symm.trans at_k)
      omega
    · exact (before (by simp only at low; omega)).trans (more _)
  · rw [if_neg full]
    refine ⟨fun low => (before low).trans (more _), fun same _ => ?_⟩
    obtain rfl : k = x.answered := same
    obtain rfl : cc = cc' := Option.some.inj (next.symm.trans at_k)
    exact reads

private theorem sent_read {x : Session} (waiting : x.waiting = true) (commandId m : CInt) :
    (x.read commandId m).answered + (if (x.read commandId m).waiting then 1 else 0) =
      x.answered + 1 := by
  simp only [Session.read]
  by_cases full : (if m = commandId then x.commitCount + 1 else x.commitCount) = maxCliReq <;>
    simp [full, waiting]

/-- What connection `c` has carried in both directions, and what its client has counted. -/
structure Served (bound : κ → Binding W) (script : κ → List ClientCommand)
    (tr : List (DialogueAct N W κ)) (s : Dialogue N W κ cfg.consts) (c : κ) : Prop where
  sent : arrived c tr ++ s.toServer c =
    (script c).take ((s.session c).answered + if (s.session c).waiting then 1 else 0)
  told : (messagesTo (bound c).clientId (ofCluster bound tr)).map (·.2.commandId) =
    heard c tr ++ s.toClient c
  counted : Counted (script c) (s.session c) (heard c tr)

private theorem served_start (fresh : Fresh cfg s₀) (c : κ) : Served bound script [] s₀ c := by
  refine ⟨?_, ?_, ?_⟩
  · simp [arrived, fresh.toServer, fresh.session]
  · simp [messagesTo, messages, ofLeader, ofCluster, heard, fresh.toClient]
  · simp [Counted, fresh.session]

private theorem arrived_append (c : κ) (tr : List (DialogueAct N W κ)) (a : DialogueAct N W κ) :
    arrived c (tr ++ [a]) = arrived c tr ++ arrived c [a] :=
  List.filterMap_append

private theorem heard_append (c : κ) (tr : List (DialogueAct N W κ)) (a : DialogueAct N W κ) :
    heard c (tr ++ [a]) = heard c tr ++ heard c [a] :=
  List.filterMap_append

private theorem served_frame {a : DialogueAct N W κ} {c : κ} (inv : Served bound script tr s c)
    (unread : arrived c [a] = [] ∧ heard c [a] = [])
    (untold : messagesTo (bound c).clientId (toCluster bound a).toList = [])
    (same : s'.session c = s.session c ∧ s'.toServer c = s.toServer c ∧
      s'.toClient c = s.toClient c) : Served bound script (tr ++ [a]) s' c := by
  obtain ⟨session, toServer, toClient⟩ := same
  refine ⟨?_, ?_, ?_⟩
  · rw [arrived_append, unread.1, List.append_nil, toServer, session]
    exact inv.sent
  · rw [ofCluster_append, messagesTo_append, untold, List.append_nil, heard_append, unread.2,
      List.append_nil, toClient]
    exact inv.told
  · rw [heard_append, unread.2, List.append_nil, session]
    exact inv.counted

private theorem served_step {a : DialogueAct N W κ} (inv : ∀ c, Served bound script tr s c)
    (taken : step cfg curTerm bound script s a = some s') (c : κ) :
    Served bound script (tr ++ [a]) s' c := by
  have silent : messagesTo (N := N) (W := W) (bound c).clientId [] = [] := rfl
  cases a with
  | send d =>
    obtain ⟨cc, next, ready, rfl⟩ := step_send taken
    by_cases here : c = d
    · subst here
      obtain ⟨sent, told, counted⟩ := inv c
      simp only [ready, Bool.false_eq_true, if_false, Nat.add_zero] at sent
      refine ⟨?_, ?_, ?_⟩
      · simp only [arrived_append, Function.update_self, if_true]
        rw [List.take_add_one, next, ← sent]
        simp [arrived]
      · rw [ofCluster_append, heard_append]
        simpa [toCluster, heard] using told
      · intro k cc' at_k
        obtain ⟨before, -⟩ := counted k cc' at_k
        rw [heard_append]
        simp only [Function.update_self]
        exact ⟨fun low => (before low).trans (by rw [List.count_append]; omega),
          fun _ _ => Nat.zero_le _⟩
    · exact served_frame (inv c) ⟨rfl, rfl⟩ silent ⟨by simp [here], by simp [here], rfl⟩
  | commitMessage d m =>
    obtain ⟨cc, next, ready, first, rfl⟩ := step_commitMessage taken
    by_cases here : c = d
    · subst here
      obtain ⟨sent, told, counted⟩ := inv c
      obtain ⟨rest, queue⟩ := List.head?_eq_some_iff.mp first
      refine ⟨?_, ?_, ?_⟩
      · rw [arrived_append]
        simpa [arrived, sent_read ready, ready] using sent
      · rw [ofCluster_append, heard_append]
        simpa [toCluster, heard, queue] using told
      · rw [heard_append]
        simpa [heard] using counted.read ready next m
    · exact served_frame (inv c) ⟨rfl, by simp [heard, Ne.symm here]⟩ silent
        ⟨by simp [here], rfl, by simp [here]⟩
  | recv d cc =>
    obtain ⟨ready, first, rfl⟩ := step_recv taken
    by_cases here : c = d
    · subst here
      obtain ⟨sent, told, counted⟩ := inv c
      obtain ⟨rest, queue⟩ := List.head?_eq_some_iff.mp first
      refine ⟨?_, ?_, ?_⟩
      · rw [arrived_append]
        simpa [arrived, queue] using sent
      · rw [ofCluster_append, heard_append]
        simpa [toCluster, heard] using told
      · rw [heard_append]
        simpa [heard] using counted
    · exact served_frame (inv c) ⟨by simp [arrived, Ne.symm here], rfl⟩ silent
        ⟨rfl, by simp [here], rfl⟩
  | xactEnqueue d tx =>
    obtain ⟨first, cluster', moved, rfl⟩ := step_xactEnqueue taken
    exact served_frame (inv c) ⟨rfl, rfl⟩ rfl ⟨rfl, rfl, rfl⟩
  | cluster b =>
    obtain ⟨other, cluster', moved, rfl⟩ := step_cluster taken
    obtain ⟨sent, told, counted⟩ := inv c
    refine ⟨?_, ?_, ?_⟩
    · simpa [arrived_append, arrived] using sent
    · rw [ofCluster_append, messagesTo_append, List.map_append, told, heard_append]
      simp [toCluster, heard]
    · simpa [heard_append, heard] using counted

private theorem served_run (fresh : Fresh cfg s₀)
    (run : Run (Steps (step cfg curTerm bound script)) s₀ tr s) :
    ∀ c, Served bound script tr s c :=
  run.invariant (I := fun tr s => ∀ c, Served bound script tr s c) (served_start fresh)
    (fun _ _ _ _ _ inv taken => served_step inv taken)

/-- What is known of the transactions that a client was answered for a command. -/
structure Kept (c : Cluster N W cfg.consts) (tr : List (ClusterAct N W)) (clientId : Int)
    (cc : ClientCommand) (done : List (Place W × TransReq)) : Prop where
  once : (done.map Prod.fst).Nodup
  own : (done.map Prod.snd : Multiset TransReq).map normal ≤
    (producer clientId cc : Multiset TransReq).map normal
  committed : ∀ op, ∀ p ∈ done, p ∈ calls op (ofLeader tr)
  durable : ∀ p ∈ done, c.Durable p

private theorem commands_toIntake (c : κ) (tr : List (DialogueAct N W κ)) :
    (Intake.commands (tr.filterMap toIntake)).filterMap
      (fun m => if m.1 = c then some m.2 else none) = arrived c tr := by
  rw [Intake.commands, List.filterMap_filterMap, List.filterMap_filterMap, arrived]
  congr 1
  funext a
  cases a with
  | cluster b => cases b <;> rfl
  | _ => rfl

variable [Fintype κ]

private theorem calls_arrived (fresh : Fresh cfg s₀)
    (run : Run (Steps (step cfg curTerm bound script)) s₀ tr s) (op : CommitOp) :
    ((calls op (ofLeader (ofCluster bound tr)) : Multiset (Place W × TransReq)).map Prod.snd).map
        normal ≤
      (Intake.arrivals bound (tr.filterMap toIntake) : Multiset TransReq).map normal := by
  have intake := intake_run run
  have leader : Leader.Fresh cfg s₀.cluster.leader := fresh.cluster.leader
  have whole := Intake.arrivals_logged leader (fun c => fresh.pending c) intake
  have made := Leader.calls_subperm leader (Leader.moves_run (Intake.leader_run intake)) op
  rw [ofLeader_ofCluster] at whole made
  rw [whole]
  exact (Multiset.map_le_map (Multiset.map_le_map (Multiset.coe_le.mpr made))).trans
    (Multiset.le_add_left _ _)

private theorem answers_own (fresh : Fresh cfg s₀)
    (distinct : Function.Injective (fun c => (bound c).clientId))
    (numbered : ∀ c, ((script c).map (·.commandId)).Nodup)
    (run : Run (Steps (step cfg curTerm bound script)) s₀ tr s) {c : κ} {cc : ClientCommand}
    (member : cc ∈ script c) :
    ((answersTo (bound c).clientId cc (ofCluster bound tr)).map Prod.snd : Multiset TransReq).map
        normal ≤ (producer (bound c).clientId cc : Multiset TransReq).map normal := by
  let mine := ofCommand (bound c).clientId cc
  have rename : ∀ xs : Multiset TransReq,
      (xs.map normal).filter (fun x => mine x = true) =
        (xs.filter (fun x => mine x = true)).map normal := fun xs => by
    rw [Multiset.filter_map]
    rfl
  have answers : (answersTo (bound c).clientId cc (ofCluster bound tr)).map Prod.snd =
      ((messages (ofLeader (ofCluster bound tr))).map Prod.snd).filter mine := by
    rw [answersTo, messagesTo, List.filter_filter, List.filter_map]
    congr 2
    funext p
    simp [mine, ofCommand, Bool.and_comm]
  have sent := (Leader.messages_sublist (ofLeader (ofCluster bound tr))).map Prod.snd
  -- the commands that arrived on the connection are the first ones of its script
  have came : (((Intake.commands (tr.filterMap toIntake)).filterMap
      (fun m => if m.1 = c then some m.2 else none)).filter
        (fun d => decide (d.commandId = cc.commandId))).Sublist [cc] := by
    have first : (arrived c tr).Sublist (script c) :=
      (List.sublist_append_left _ _).trans
        ((served_run fresh run c).sent ▸ List.take_sublist _ _)
    rw [← filter_commandId (numbered c) member, commands_toIntake]
    exact first.filter _
  calc ((answersTo (bound c).clientId cc (ofCluster bound tr)).map Prod.snd : Multiset TransReq).map
        normal
      = (((messages (ofLeader (ofCluster bound tr))).map Prod.snd : Multiset TransReq).map
          normal).filter (fun x => mine x = true) := by
        simp only [rename, answers, Multiset.filter_coe, Bool.decide_eq_true]
    _ ≤ (((calls .sendRPC (ofLeader (ofCluster bound tr))).map Prod.snd : Multiset TransReq).map
          normal).filter (fun x => mine x = true) :=
        Multiset.filter_le_filter _ (Multiset.map_le_map (Multiset.coe_le.mpr sent.subperm))
    _ ≤ ((Intake.arrivals bound (tr.filterMap toIntake) : Multiset TransReq).map
          normal).filter (fun x => mine x = true) :=
        Multiset.filter_le_filter _ (calls_arrived fresh run .sendRPC)
    _ = ((Intake.arrivals bound (tr.filterMap toIntake)).filter mine : Multiset TransReq).map
          normal := by
        simp only [rename, Multiset.filter_coe, Bool.decide_eq_true]
    _ ≤ (producer (bound c).clientId cc : Multiset TransReq).map normal := by
        refine Multiset.map_le_map (Multiset.coe_le.mpr ?_)
        rw [Intake.arrivals, filter_arrivals distinct]
        have parts := came.flatMap (producer (bound c).clientId)
        rw [List.flatMap_singleton] at parts
        exact parts.subperm

/-- What a client may rely on, whatever the order of all threads and of what arrives: the transactions
that it is answered for a command are requests of the command, each once, committed, and in the log
files of more than half of the nodes besides the leader; when it goes on to its next command these are
all of them. -/
theorem answers_keep (fresh : Fresh cfg s₀)
    (distinct : Function.Injective (fun c => (bound c).clientId))
    (numbered : ∀ c, ((script c).map (·.commandId)).Nodup)
    (run : Run (Steps (step cfg curTerm bound script)) s₀ tr s) {c : κ} {k : Nat}
    {cc : ClientCommand} (sent : (script c)[k]? = some cc) :
    let done := answersTo (bound c).clientId cc (ofCluster bound tr)
    Kept s.cluster (ofCluster bound tr) (bound c).clientId cc done ∧
      (k = (s.session c).answered → (s.session c).waiting = true →
        (s.session c).commitCount ≤ done.length) ∧
      (k < (s.session c).answered → (done.map Prod.snd : Multiset TransReq).map normal =
        (producer (bound c).clientId cc : Multiset TransReq).map normal) := by
  intro done
  have cluster := Cluster.moves_run (cluster_run run)
  have leader := Cluster.leader_run cluster
  have freshLeader : Leader.Fresh cfg s₀.cluster.leader := fresh.cluster.leader
  have part : done.Sublist (calls .sendRPC (ofLeader (ofCluster bound tr))) :=
    (List.filter_sublist.trans List.filter_sublist).trans (Leader.messages_sublist _)
  have own := answers_own fresh distinct numbered run (List.mem_of_getElem? sent)
  have places := loggedSlots_nodup (Leader.lsn_nodup freshLeader leader)
  have kept : Kept s.cluster (ofCluster bound tr) (bound c).clientId cc done :=
    { once := places_nodup places
        (part.subperm.trans (Leader.calls_subperm freshLeader leader .sendRPC))
      own := own
      committed := fun op p member =>
        Leader.calls_of_answered freshLeader leader (part.subset member) op
      durable := fun p member => Cluster.calls_durable fresh.cluster cluster .sendRPC p
        (part.subset member) }
  -- every message that the client counted is among the ones sent to it
  have counted : (heard c tr).count cc.commandId ≤ done.length := by
    have served := served_run fresh run c
    calc (heard c tr).count cc.commandId
        ≤ (heard c tr ++ s.toClient c).count cc.commandId := by
          rw [List.count_append]
          omega
      _ = done.length := by
          rw [← served.told, List.count, List.countP_map, List.countP_eq_length_filter]
          rfl
  have served := (served_run fresh run c).counted k cc sent
  refine ⟨kept, fun now waiting => (served.2 now waiting).trans counted, fun past => ?_⟩
  refine Multiset.eq_of_le_of_card_le own ?_
  have all := (served.1 past).trans counted
  simpa using all

end Sessions

section Example

open Cluster (threeConfig threeNodes threeNodes_fresh quorumTrace)
open Intake (onlyWorker repeated)

def firstCalls : List (ClusterAct 3 1) :=
  let slot : Place 1 × TransReq := (⟨0, 0, 0⟩, Worker.firstLocked)
  [.commitWork .indexReadFrom slot, .commitWork .indexReadTo slot, .commitWork .indexUpdateFrom slot,
    .commitWork .indexUpdateTo slot, .commitWork .unlockFrom slot, .commitWork .unlockTo slot,
    .setCommitIndex slot 1, .sendRPC slot .sent].map (fun b => .leader (.notifier (2, 0) b))

def answeredTrace : List (DialogueAct 3 1 (Fin 1)) :=
  [.send 0, .recv 0 (repeated 3 1), .xactEnqueue 0 Worker.firstXact,
      .cluster (.leader .acceptClient)] ++
    (quorumTrace.tail ++ firstCalls).map .cluster ++ [.commitMessage 0 7]

theorem answers_keep_first :
    ∃ s, Run (Steps (step threeConfig (fun _ => 1) onlyWorker (fun _ => [repeated 3 1])))
        (start threeConfig threeNodes) answeredTrace s ∧ (s.session 0).commitCount = 1 ∧
      ∃ p ∈ answersTo 0 (repeated 3 1) (ofCluster onlyWorker answeredTrace),
        s.cluster.Durable p := by
  have done : (exec (step threeConfig (fun _ => 1) onlyWorker (fun _ => [repeated 3 1]))
      (start threeConfig threeNodes) answeredTrace).map (fun s => decide
        ((s.session 0).answered = 0 ∧ (s.session 0).waiting = true ∧
          (s.session 0).commitCount = 1)) = some true := by decide
  obtain ⟨s, run, holds⟩ := exec_reaches done
  obtain ⟨none, waiting, one⟩ := of_decide_eq_true holds
  have injective : Function.Injective (fun c => (onlyWorker c).clientId) :=
    fun c d _ => Subsingleton.elim c d
  obtain ⟨kept, count, -⟩ := answers_keep (start_fresh _ threeNodes_fresh) injective
    (fun _ => by simp) run (c := 0) (k := 0) rfl
  have some : 0 < (answersTo 0 (repeated 3 1) (ofCluster onlyWorker answeredTrace)).length := by
    have := count none.symm waiting
    rw [one] at this
    exact this
  obtain ⟨p, member⟩ := List.exists_mem_of_length_pos some
  exact ⟨s, run, one, p, member, kept.durable p member⟩

end Example

end Dialogue

end Raft2pl.Server
