/- What a client's requests can do to the leader: the way from producer to commitWork. -/

import Raft2pl.Server.Balance

set_option autoImplicit false
set_option relaxedAutoImplicit false

namespace Raft2pl.Server

open Lib (Run Steps exec exec_reaches)
open TwoPl (KVS CommitStage commitStep Valid)

/-- The requests of a command as `Raft::producer` enqueues them. -/
def producer (clientId : Int) (cc : ClientCommand) : List TransReq :=
  List.ofFn (fun i => ⟨clientId, cc.commandId, cc.req i⟩)

namespace Leader

variable {N W : Nat} {ν : Type} {cfg : Config N}

/-- A thread stands at a call that does not return: at an assertion that fails, or at a probe loop
that never ends. -/
inductive Aborts (s : Leader N W ν cfg.consts) : Prop
  | transferWork (w : Fin W) (here : (s.worker w).pc = .lockFrom)
      (failed : (s.worker w).xact.req.fromKey = (s.worker w).xact.req.toKey)
  | lockFrom (w : Fin W) (here : (s.worker w).pc = .lockFrom)
      (failed : s.kvs.lock (s.worker w).xact.req.sorted.fromKey = none)
  | lockTo (w : Fin W) (here : (s.worker w).pc = .lockTo)
      (failed : s.kvs.lock (s.worker w).xact.req.toKey = none)
  | unlockFrom (w : Fin W) (here : (s.worker w).pc = .unlockFrom)
      (failed : s.kvs.unlock (s.worker w).xact.req.fromKey = none)
  | commitWork (n : ν) {j : Job W} {stage : CommitStage} {x : TransReq}
      (here : s.notifier n = .commit j stage) (xact : j.xact? = some x) (running : stage ≠ .returned)
      (failed : commitStep x.req s.kvs stage = none)

end Leader

/-- The leader with its producer threads. `pending c` are the requests of the last command on
connection `c` that are not enqueued yet. -/
structure Intake (N W : Nat) (ν κ : Type) (P : TwoPl.KvsConst) where
  leader : Leader N W ν P
  pending : κ → List TransReq

/-- A command arrives, a producer enqueues its next request, or some other thread makes a call. -/
inductive IntakeAct (N W : Nat) (ν κ : Type)
  | recv (c : κ) (cc : ClientCommand)
  | xactEnqueue (c : κ) (tx : TransReq)
  | leader (a : LeaderAct N W ν)

/-- The worker and the client id that a connection got when it was accepted. -/
structure Binding (W : Nat) where
  workerId : Fin W
  clientId : Nat

def LeaderAct.ofProducer {N W : Nat} {ν : Type} : LeaderAct N W ν → Bool
  | .worker _ (.xactEnqueue _) => true
  | _ => false

namespace Intake

section Step

variable {N W : Nat} {ν κ : Type} [DecidableEq ν] [DecidableEq κ] (cfg : Config N)
  (bound : κ → Binding W)

def step (s : Intake N W ν κ cfg.consts) : IntakeAct N W ν κ → Option (Intake N W ν κ cfg.consts)
  | .recv c cc =>
      if s.pending c = [] then
        some { s with pending := Function.update s.pending c (producer (bound c).clientId cc) }
      else none
  | .xactEnqueue c tx =>
      if (s.pending c).head? = some tx then do
        let leader' ← Leader.step cfg s.leader (.worker (bound c).workerId (.xactEnqueue tx))
        some ⟨leader', Function.update s.pending c (s.pending c).tail⟩
      else none
  | .leader a =>
      if a.ofProducer then none
      else do
        let leader' ← Leader.step cfg s.leader a
        some { s with leader := leader' }

/-- Producers that wait for commands. -/
def Idle (s : Intake N W ν κ cfg.consts) : Prop := ∀ c, s.pending c = []

end Step

section Histories

variable {N W : Nat} {ν κ : Type}

def commands (tr : List (IntakeAct N W ν κ)) : List (κ × ClientCommand) :=
  tr.filterMap fun
    | .recv c cc => some (c, cc)
    | _ => none

/-- What happens in the leader. -/
def toLeader (bound : κ → Binding W) : IntakeAct N W ν κ → Option (LeaderAct N W ν)
  | .recv _ _ => none
  | .xactEnqueue c tx => some (.worker (bound c).workerId (.xactEnqueue tx))
  | .leader a => some a

end Histories

end Intake

namespace Leader

section Safe

variable {N W : Nat} {ν : Type} [DecidableEq ν] [Fintype ν] {cfg : Config N}
  {s₀ s : Leader N W ν cfg.consts} {tr : List (LeaderAct N W ν)}

omit [DecidableEq ν] [Fintype ν] in
private theorem commitStep_isSome (kvs : KVS cfg.consts) {req : ClientRequest} {stage : CommitStage}
    (running : stage ≠ .returned)
    (ok : ∀ k ∈ (opOf stage).keysLeft req, cfg.consts.inRange k) :
    (commitStep req kvs stage).isSome := by
  cases stage with
  | returned => exact absurd rfl running
  | unlockTo => simp [commitStep, KVS.unlock, ok req.toKey (by simp [opOf, CommitOp.keysLeft])]
  | _ =>
    have okFrom := ok req.fromKey (by simp [opOf, CommitOp.keysLeft, ClientRequest.keys])
    have okTo := ok req.toKey (by simp [opOf, CommitOp.keysLeft, ClientRequest.keys])
    simp [commitStep, KVS.indexRead_eq _ okFrom, KVS.indexRead_eq _ okTo,
      KVS.indexUpdate_eq _ _ okFrom, KVS.indexUpdate_eq _ _ okTo, KVS.unlock, okFrom]

omit [DecidableEq ν] [Fintype ν] in
private theorem lock_isSome (kvs : KVS cfg.consts) {k : CInt} (ok : cfg.consts.inRange k) :
    kvs.lock k ≠ none := by
  unfold KVS.lock
  rw [if_pos ok]
  split <;> simp

omit [DecidableEq ν] [Fintype ν] in
private theorem valid_rewritten {copies origs : List TransReq}
    (copied : List.Forall₂ Rewritten copies origs)
    (valid : ∀ x ∈ origs, Valid cfg.consts x.req) : ∀ x ∈ copies, Valid cfg.consts x.req := by
  induction copied with
  | nil => simp
  | @cons copy orig copies origs head _ ih =>
    have first := valid orig List.mem_cons_self
    intro x member
    rcases List.mem_cons.mp member with rfl | later
    · rcases head with rfl | rfl
      · exact first
      · exact TwoPl.valid_sorted first
    · exact ih (fun y member' => valid y (List.mem_cons_of_mem _ member')) x later

omit [Fintype ν] in
private theorem valid_content (fresh : Fresh cfg s₀) (run : Run (Steps (step cfg)) s₀ tr s)
    (w : Fin W)
    (valid : ∀ x ∈ enqueued (ofWorker w tr), Valid cfg.consts x.req) :
    ∀ x ∈ (s.worker w).inHand ++ (s.worker w).xactQ, Valid cfg.consts x.req := by
  have order := (Worker.pipeline_run (fresh.worker w) (worker_run run w)).order
  intro x member
  refine valid_rewritten order valid x ?_
  rw [Worker.content]
  simp only [List.mem_append] at member ⊢
  tauto

theorem not_aborts (fresh : Fresh cfg s₀) (run : Run (Steps (step cfg)) s₀ tr s)
    (valid : ∀ w, ∀ x ∈ enqueued (ofWorker w tr), Valid cfg.consts x.req) : ¬ s.Aborts := by
  have hand : ∀ w, (s.worker w).pc.transferring = true →
      Valid cfg.consts (s.worker w).xact.req := by
    intro w here
    refine valid_content fresh run w (valid w) _ (List.mem_append_left _ ?_)
    simp [Worker.inHand, here]
  intro aborts
  cases aborts with
  | transferWork w here failed => exact (hand w (by rw [here]; rfl)).1 failed
  | lockFrom w here failed =>
    exact lock_isSome _ (TwoPl.valid_sorted (hand w (by rw [here]; rfl))).2.1 failed
  | lockTo w here failed => exact lock_isSome _ (hand w (by rw [here]; rfl)).2.2 failed
  | unlockFrom w here failed =>
    have ok := (hand w (by rw [here]; rfl)).2.1
    simp [KVS.unlock, ok] at failed
  | commitWork n here xact running failed =>
    -- the keys are still locked, and only keys of the database are
    have ledger := ledger_run fresh run
    have ends := commitStep_isSome s.kvs running (fun k member => ledger.inRange k
      (ledger.exclusive.held_of_mem (i := .inr n) (by
        rw [owned, here]
        exact Notifier.mem_owned_commit xact member)))
    rw [failed] at ends
    cases ends

end Safe

end Leader

namespace Intake

section Runs

variable {N W : Nat} {ν κ : Type} [DecidableEq ν] [DecidableEq κ] {cfg : Config N}
  {bound : κ → Binding W} {s₀ s s' : Intake N W ν κ cfg.consts} {tr : List (IntakeAct N W ν κ)}

/-- Whatever order the threads run in while these commands arrive, no thread comes to a stop, and no
invalid request gets into a queue. -/
def Withstands (bound : κ → Binding W) (s₀ : Intake N W ν κ cfg.consts)
    (messages : List (κ × ClientCommand)) : Prop :=
  ∀ tr s, Run (Steps (step cfg bound)) s₀ tr s → commands tr <+: messages →
    ¬ s.leader.Aborts ∧ ∀ w, ∀ x ∈ (s.leader.worker w).xactQ, Valid cfg.consts x.req

omit [DecidableEq ν] [DecidableEq κ] in
@[simp] theorem commands_append (as bs : List (IntakeAct N W ν κ)) :
    commands (as ++ bs) = commands as ++ commands bs :=
  List.filterMap_append

theorem leader_run (run : Run (Steps (step cfg bound)) s₀ tr s) :
    Run (Steps (Leader.step cfg)) s₀.leader (tr.filterMap (toLeader bound)) s.leader := by
  refine run.project (fun s => s.leader) (toLeader bound) ?_ ?_
  · intro s a s' taken none
    cases a with
    | recv c cc =>
      obtain ⟨-, rfl⟩ := by
        simpa only [Steps, step, Option.ite_none_right_eq_some, Option.some.injEq] using taken
      rfl
    | _ => cases none
  · intro s a s' b taken label
    cases a with
    | recv => cases label
    | xactEnqueue c tx =>
      obtain rfl := Option.some.inj label
      simp only [Steps, step, Option.ite_none_right_eq_some, Option.bind_eq_bind,
        Option.bind_eq_some_iff, Option.some.injEq] at taken
      obtain ⟨-, leader', moved, rfl⟩ := taken
      exact moved
    | leader a =>
      obtain rfl := Option.some.inj label
      simp only [Steps, step, Option.ite_none_left_eq_some, Option.bind_eq_bind,
        Option.bind_eq_some_iff, Option.some.injEq] at taken
      obtain ⟨-, leader', moved, rfl⟩ := taken
      exact moved

/-- Every request in the hands of a producer or given to a worker came in a command. -/
structure Arrived (bound : κ → Binding W) (tr : List (IntakeAct N W ν κ))
    (s : Intake N W ν κ cfg.consts) : Prop where
  pending : ∀ c, ∀ x ∈ s.pending c, ∃ m ∈ commands tr, ∃ i, x.req = m.2.req i
  enqueued : ∀ w, ∀ x ∈ enqueued (ofWorker w (tr.filterMap (toLeader bound))),
    ∃ m ∈ commands tr, ∃ i, x.req = m.2.req i

omit [DecidableEq ν] [DecidableEq κ] in
private theorem commands_more (tr : List (IntakeAct N W ν κ)) (a : IntakeAct N W ν κ) {x : TransReq}
    (came : ∃ m ∈ commands tr, ∃ i, x.req = m.2.req i) :
    ∃ m ∈ commands (tr ++ [a]), ∃ i, x.req = m.2.req i := by
  obtain ⟨m, member, content⟩ := came
  exact ⟨m, by simp [member], content⟩

omit [DecidableEq ν] [DecidableEq κ] in
theorem enqueued_next (tr : List (IntakeAct N W ν κ)) (a : IntakeAct N W ν κ) (w : Fin W) :
    enqueued (ofWorker w ((tr ++ [a]).filterMap (toLeader bound))) =
      enqueued (ofWorker w (tr.filterMap (toLeader bound))) ++
        enqueued (ofWorker w ([a].filterMap (toLeader bound))) := by
  rw [List.filterMap_append, ofWorker, List.filterMap_append, ← ofWorker, ← ofWorker,
    enqueued_append]

theorem enqueued_one {a : IntakeAct N W ν κ} (taken : step cfg bound s a = some s') {w : Fin W}
    {x : TransReq} (member : x ∈ enqueued (ofWorker w ([a].filterMap (toLeader bound)))) :
    ∃ c, x ∈ s.pending c := by
  cases a with
  | recv c cc => cases member
  | xactEnqueue c tx =>
    simp only [step, Option.ite_none_right_eq_some, Option.bind_eq_bind, Option.bind_eq_some_iff,
      Option.some.injEq] at taken
    refine ⟨c, List.mem_of_mem_head? ?_⟩
    rw [taken.1]
    by_cases own : (bound c).workerId = w
    · simp [toLeader, ofWorker, LeaderAct.toWorker, WorkerAct.direct, WorkerAct.xact?, own] at member
      simp [member]
    · simp [toLeader, ofWorker, LeaderAct.toWorker, own, Server.enqueued] at member
  | leader b =>
    simp only [step, Option.ite_none_left_eq_some] at taken
    have quiet : (LeaderAct.toWorker w b).bind WorkerAct.xact? = none := by
      cases b with
      | worker v a =>
        by_cases own : v = w <;> cases a <;>
          simp [LeaderAct.ofProducer, LeaderAct.toWorker, WorkerAct.direct, WorkerAct.xact?,
            own] at taken ⊢
      | notifier n c =>
        cases c <;> simp only [LeaderAct.toWorker] <;> first | rfl | (split <;> rfl)
      | acceptClient => rfl
    cases mine : LeaderAct.toWorker w b with
    | none => simp [toLeader, ofWorker, mine, Server.enqueued] at member
    | some a =>
      rw [mine] at quiet
      have none : a.xact? = none := quiet
      simp [toLeader, ofWorker, mine, none] at member

private theorem arrived_run (idle : Idle cfg s₀) (run : Run (Steps (step cfg bound)) s₀ tr s) :
    Arrived bound tr s := by
  refine run.invariant (I := Arrived bound) ⟨?_, ?_⟩ ?_
  · intro c x member
    rw [idle c] at member
    cases member
  · intro w x member
    cases member
  · intro tr s a s' _ inv taken
    refine ⟨fun c x member => ?_, fun w x member => ?_⟩
    · cases a with
      | recv d cc =>
        obtain ⟨-, rfl⟩ := by
          simpa only [Steps, step, Option.ite_none_right_eq_some, Option.some.injEq] using taken
        by_cases eq : c = d
        · subst eq
          simp only [Function.update_self, producer, List.mem_ofFn] at member
          obtain ⟨i, rfl⟩ := member
          exact ⟨(c, cc), by simp [commands], i, rfl⟩
        · simp only [Function.update_of_ne eq] at member
          exact commands_more tr _ (inv.pending c x member)
      | xactEnqueue d tx =>
        simp only [Steps, step, Option.ite_none_right_eq_some, Option.bind_eq_bind,
          Option.bind_eq_some_iff, Option.some.injEq] at taken
        obtain ⟨-, leader', -, rfl⟩ := taken
        refine commands_more tr _ (inv.pending c x ?_)
        by_cases eq : c = d
        · subst eq
          simp only [Function.update_self] at member
          exact List.mem_of_mem_tail member
        · simpa only [Function.update_of_ne eq] using member
      | leader b =>
        simp only [Steps, step, Option.ite_none_left_eq_some, Option.bind_eq_bind,
          Option.bind_eq_some_iff, Option.some.injEq] at taken
        obtain ⟨-, leader', -, rfl⟩ := taken
        exact commands_more tr _ (inv.pending c x member)
    · rw [enqueued_next] at member
      rcases List.mem_append.mp member with old | new
      · exact commands_more tr a (inv.enqueued w x old)
      · obtain ⟨c, waiting⟩ := enqueued_one taken new
        exact commands_more tr a (inv.pending c x waiting)

private theorem enqueue_step (bound : κ → Binding W) {c : κ} {tx : TransReq} {rest : List TransReq}
    {s : Intake N W ν κ cfg.consts} (waiting : s.pending c = tx :: rest)
    (stamped : 0 ≤ tx.clientId) :
    ∃ s', step cfg bound s (.xactEnqueue c tx) = some s' ∧
      s'.pending = Function.update s.pending c rest ∧ ∀ w, (s'.leader.worker w).xactQ =
        (s.leader.worker w).xactQ ++ if w = (bound c).workerId then [tx] else [] := by
  let leader' : Leader N W ν cfg.consts :=
    { s.leader with
      worker := Function.update s.leader.worker (bound c).workerId
        ((s.leader.worker (bound c).workerId).after cfg (.xactEnqueue tx)) }
  refine ⟨⟨leader', Function.update s.pending c rest⟩, ?_, rfl, fun w => ?_⟩
  · simp [step, waiting, Leader.step, Leader.workerStep, WorkerAct.direct, Worker.step,
      Worker.Ready, stamped, Leader.lockCall, Leader.lsnCall, leader']
  · by_cases own : w = (bound c).workerId
    · subst own
      simp [Worker.after, leader']
    · simp [own, leader']

private theorem enqueue_all (bound : κ → Binding W) (c : κ) (txs : List TransReq)
    (s : Intake N W ν κ cfg.consts) (waiting : s.pending c = txs)
    (stamped : ∀ x ∈ txs, 0 ≤ x.clientId) :
    ∃ tr s', Run (Steps (step cfg bound)) s tr s' ∧ commands tr = [] ∧
      s'.pending = Function.update s.pending c [] ∧
      (∀ w, ∀ x ∈ (s.leader.worker w).xactQ, x ∈ (s'.leader.worker w).xactQ) ∧
      ∀ x ∈ txs, x ∈ (s'.leader.worker (bound c).workerId).xactQ := by
  induction txs generalizing s with
  | nil =>
    refine ⟨[], s, .start, rfl, ?_, fun _ _ member => member, fun x member => by cases member⟩
    rw [← waiting, Function.update_eq_self]
  | cons tx rest ih =>
    obtain ⟨s₁, taken, pending, queue⟩ := enqueue_step bound waiting (stamped tx List.mem_cons_self)
    obtain ⟨tr, s', run, none, pending', kept, all⟩ := ih s₁ (by simp [pending])
      (fun x member => stamped x (List.mem_cons_of_mem tx member))
    have here : tx ∈ (s₁.leader.worker (bound c).workerId).xactQ := by simp [queue]
    refine ⟨[] ++ [.xactEnqueue c tx] ++ tr, s', (Run.next .start taken).trans run, ?_, ?_, ?_, ?_⟩
    · rw [commands_append, none]
      rfl
    · rw [pending', pending, Function.update_idem]
    · intro w x member
      exact kept w x (by simp [queue, member])
    · intro x member
      rcases List.mem_cons.mp member with rfl | later
      · exact kept _ x here
      · exact all x later

theorem deliver (bound : κ → Binding W) (messages : List (κ × ClientCommand))
    (s : Intake N W ν κ cfg.consts) (idle : Idle cfg s) :
    ∃ tr s', Run (Steps (step cfg bound)) s tr s' ∧ commands tr = messages ∧
      (∀ w, ∀ x ∈ (s.leader.worker w).xactQ, x ∈ (s'.leader.worker w).xactQ) ∧
      ∀ m ∈ messages, ∀ i, ∃ x ∈ (s'.leader.worker (bound m.1).workerId).xactQ,
        x.req = m.2.req i := by
  induction messages generalizing s with
  | nil => exact ⟨[], s, .start, rfl, fun _ _ member => member, fun m member => by cases member⟩
  | cons m rest ih =>
    obtain ⟨c, cc⟩ := m
    have taken : step cfg bound s (.recv c cc) = some { s with
        pending := Function.update s.pending c (producer (bound c).clientId cc) } := by
      simp [step, idle c]
    have stamped : ∀ x ∈ producer (bound c).clientId cc, 0 ≤ x.clientId := by
      intro x member
      obtain ⟨i, rfl⟩ := List.mem_ofFn.mp member
      exact Int.natCast_nonneg _
    obtain ⟨tr₁, s₁, run₁, none, pending, kept₁, all₁⟩ :=
      enqueue_all bound c _ { s with
        pending := Function.update s.pending c (producer (bound c).clientId cc) } (by simp) stamped
    have idle₁ : Idle cfg s₁ := by
      intro d
      rw [pending]
      by_cases eq : d = c
      · simp [eq]
      · simp [eq, idle d]
    obtain ⟨tr₂, s₂, run₂, rest', kept₂, all₂⟩ := ih s₁ idle₁
    refine ⟨[] ++ [.recv c cc] ++ tr₁ ++ tr₂, s₂,
      ((Run.next .start taken).trans run₁).trans run₂, ?_, ?_, ?_⟩
    · rw [commands_append, commands_append, none, rest']
      rfl
    · exact fun w x member => kept₂ w x (kept₁ w x member)
    · intro m member i
      rcases List.mem_cons.mp member with rfl | later
      · refine ⟨⟨(bound c).clientId, cc.commandId, cc.req i⟩, kept₂ _ _ (all₁ _ ?_), rfl⟩
        exact List.mem_ofFn.mpr ⟨i, rfl⟩
      · exact all₂ m later i

/-- The server withstands just the commands whose requests are all valid. -/
theorem withstands_iff [Fintype ν] (fresh : Leader.Fresh cfg s₀.leader) (idle : Idle cfg s₀)
    (messages : List (κ × ClientCommand)) : Withstands bound s₀ messages ↔
      ∀ m ∈ messages, ∀ i, Valid cfg.consts (m.2.req i) := by
  constructor
  · intro withstands m member i
    obtain ⟨tr, s, run, all, -, queued⟩ := deliver bound messages s₀ idle
    obtain ⟨x, queue, content⟩ := queued m member i
    rw [← content]
    exact (withstands tr s run (by rw [all])).2 _ x queue
  · intro valid tr s run came
    have arrived := arrived_run idle run
    have enqueued : ∀ w, ∀ x ∈ enqueued (ofWorker w (tr.filterMap (toLeader bound))),
        Valid cfg.consts x.req := by
      intro w x member
      obtain ⟨m, sent, i, content⟩ := arrived.enqueued w x member
      rw [content]
      exact valid m (came.subset sent) i
    exact ⟨Leader.not_aborts fresh (leader_run run) enqueued, fun w x member =>
      Leader.valid_content fresh (leader_run run) w (enqueued w) x (List.mem_append_right _ member)⟩

end Runs

section Example

open Leader (smallConfig smallLeader smallLeader_fresh)

def oneConnection : Intake 2 1 (Fin 2) (Fin 1) smallConfig.consts := ⟨smallLeader, fun _ => []⟩

def onlyWorker : Fin 1 → Binding 1 := fun _ => ⟨0, 0⟩

def repeated (fromKey toKey : CInt) : ClientCommand := ⟨7, fun _ => ⟨fromKey, toKey, 5, 0⟩⟩

theorem withstands_valid :
    Withstands onlyWorker oneConnection [((0 : Fin 1), repeated 1 3), (0, repeated 3 0)] := by
  refine (withstands_iff smallLeader_fresh (fun _ => rfl) _).mpr ?_
  intro m member i
  simp only [List.mem_cons, List.not_mem_nil, or_false] at member
  rcases member with rfl | rfl
  · exact (by decide : Valid TwoPl.smallConsts ⟨1, 3, 5, 0⟩)
  · exact (by decide : Valid TwoPl.smallConsts ⟨3, 0, 5, 0⟩)

/-- The worker takes the first request of a transfer from an account to itself, and the assertion of
`transferWork` fails. -/
def sameAccountTrace : List (IntakeAct 2 1 (Fin 2) (Fin 1)) :=
  [.recv 0 (repeated 1 1), .xactEnqueue 0 ⟨0, 7, ⟨1, 1, 5, 0⟩⟩, .leader (.worker 0 .xactDequeue)]

theorem same_account_aborts :
    ∃ s, Run (Steps (step smallConfig onlyWorker)) oneConnection sameAccountTrace s ∧
      commands sameAccountTrace = [(0, repeated 1 1)] ∧ s.leader.Aborts := by
  have done : (exec (step smallConfig onlyWorker) oneConnection sameAccountTrace).map
      (fun s => decide ((s.leader.worker 0).pc = .lockFrom ∧
        (s.leader.worker 0).xact.req.fromKey = (s.leader.worker 0).xact.req.toKey)) = some true := by
    decide
  obtain ⟨s, run, holds⟩ := exec_reaches done
  obtain ⟨here, same⟩ := of_decide_eq_true holds
  exact ⟨s, run, rfl, .transferWork 0 here same⟩

end Example

end Intake

end Raft2pl.Server
