/- The commit index of a worker, which notifiers set and packets carry to the followers. -/

import Raft2pl.Server.Matching
import Raft2pl.Server.Durability

set_option autoImplicit false
set_option relaxedAutoImplicit false

namespace Raft2pl.Server

open Lib (Run Steps Throughout exec exec_reaches)

section Histories

variable {N W : Nat} {ν : Type}

def LeaderAct.committed? : LeaderAct N W ν → Option (Place W × TransReq)
  | .notifier _ (.setCommitIndex slot _) => some slot
  | _ => none

def commits (tr : List (LeaderAct N W ν)) : List (Place W) :=
  tr.filterMap (fun a => a.committed?.map Prod.fst)

def CommitMade (tr : List (LeaderAct N W ν)) (w : Fin W) : Prop :=
  ∃ p ∈ commits tr, p.workerId = w

def Committed (tr : List (LeaderAct N W ν)) (w : Fin W) (lsn : Int) : Prop :=
  ∃ p ∈ commits tr, p.workerId = w ∧ p.lsn = lsn

instance (tr : List (LeaderAct N W ν)) (w : Fin W) : Decidable (CommitMade tr w) :=
  inferInstanceAs (Decidable (∃ p ∈ commits tr, _))

instance (tr : List (LeaderAct N W ν)) (w : Fin W) (lsn : Int) : Decidable (Committed tr w lsn) :=
  inferInstanceAs (Decidable (∃ p ∈ commits tr, _))

variable {tr : List (LeaderAct N W ν)}

private theorem commits_append (as bs : List (LeaderAct N W ν)) :
    commits (as ++ bs) = commits as ++ commits bs :=
  List.filterMap_append

private theorem commits_one (a : LeaderAct N W ν) :
    commits [a] = (a.committed?.map Prod.fst).toList := by
  cases out : a.committed?.map Prod.fst <;> simp [commits, out]

private theorem mem_commits {p : Place W} : p ∈ commits tr ↔
    ∃ n x index, .notifier n (.setCommitIndex (p, x) index) ∈ tr := by
  simp only [commits, List.mem_filterMap, Option.map_eq_some_iff]
  constructor
  · rintro ⟨a, member, ⟨q, x⟩, label, rfl⟩
    cases a with
    | notifier n b =>
      cases b with
      | setCommitIndex slot index =>
        obtain rfl : slot = (q, x) := Option.some.inj label
        exact ⟨n, x, index, member⟩
      | _ => cases label
    | _ => cases label
  · rintro ⟨n, x, index, member⟩
    exact ⟨_, member, (p, x), rfl, rfl⟩

end Histories

namespace Notifier

variable {N W : Nat}

def nextIndex? : Notifier N W → Option Int
  | .vote _ nextIndex | .load _ nextIndex => some nextIndex
  | .commit j _ | .reply j => some j.nextIndex
  | .recv => none

private theorem nextIndex_loop {j : Job W} {i : Int}
    (here : (loop j : Notifier N W).nextIndex? = some i) :
    i = j.nextIndex := by
  unfold loop at here
  split at here
  · exact (Option.some.inj here).symm
  · cases here

private theorem nextIndex_step {n n' : Notifier N W} {b : NotifierAct N W} {i : Int}
    (taken : Step n b n')
    (unread : b.ack? = none) (here : n'.nextIndex? = some i) : n.nextIndex? = some i := by
  cases taken with
  | recv => cases unread
  | addVoteCount ack nextIndex count =>
    by_cases quorum : N / 2 < count
    · simpa [quorum, nextIndex?] using here
    · simp [quorum, nextIndex?] at here
  | taskLoad ack nextIndex t =>
    cases t with
    | none => cases here
    | some t =>
      rw [nextIndex_loop here]
      rfl
  | commitWork | setCommitIndex => exact here
  | sendRPC =>
    rw [nextIndex_loop here]
    rfl

end Notifier

namespace Leader

variable {N W : Nat} {ν : Type} [DecidableEq ν] {cfg : Config N}
  {s₀ s s' : Leader N W ν cfg.consts} {tr : List (LeaderAct N W ν)} {a : LeaderAct N W ν}
  {w : Fin W}

/-- The indices of every worker are those of an empty log. -/
structure Unset (s : Leader N W ν cfg.consts) : Prop where
  empty : ∀ w, (s.worker w).log.entry = []
  nextIndex : ∀ w f, (s.worker w).nextIndex f = 0
  commitIndex : ∀ w, (s.worker w).commitIndex = -1

structure OneIndex (tr : List (LeaderAct N W ν)) (s : Leader N W ν cfg.consts) : Prop where
  nextIndex : ∀ n i, (s.notifier n).nextIndex? = some i → i = 1
  before : ∀ w, ¬ CommitMade tr w → (s.worker w).commitIndex = -1
  after : ∀ w, CommitMade tr w → (s.worker w).commitIndex = 1

private theorem setCommitIndex_step {n : ν} {slot : Place W × TransReq} {index : Int}
    (taken : step cfg s (.notifier n (.setCommitIndex slot index)) = some s') :
    (s.notifier n).nextIndex? = some index ∧ ∀ w, (s'.worker w).log = (s.worker w).log ∧
      (s'.worker w).commitIndex =
        if slot.1.workerId = w then index else (s.worker w).commitIndex := by
  obtain ⟨j, here, place, -, rfl, rfl⟩ := notifierStep_setCommitIndex taken
  refine ⟨by rw [here]; rfl, fun w => ?_⟩
  have owner : slot.1.workerId = j.workerId := by rw [place]; rfl
  rw [owner]
  by_cases eq : j.workerId = w
  · subst eq
    simp [setNotifier, onWorker, Worker.after]
  · simp [setNotifier, onWorker, eq, Ne.symm eq]

private theorem commitIndex_step (taken : step cfg s a = some s') (other : a.committed? = none)
    (w : Fin W) :
    (s'.worker w).commitIndex = (s.worker w).commitIndex := by
  obtain ⟨frame, moved⟩ := worker_step taken w
  cases mine : a.toWorker w with
  | none => rw [frame mine]
  | some b =>
    obtain ⟨-, after⟩ := Worker.step_eq_some.mp (moved b mine)
    rw [after]
    cases b with
    | setCommitIndex index =>
      -- only a notifier makes this call
      cases a with
      | notifier n c => cases c <;> simp [LeaderAct.toWorker, LeaderAct.committed?] at mine other
      | worker v c =>
        cases c <;> simp [LeaderAct.toWorker, WorkerAct.direct] at mine
      | acceptClient => cases mine
    | lockFrom got | lockTo got => cases got <;> rfl
    | xactDequeue =>
      simp only [Worker.after, Worker.fetch]
      split <;> rfl
    | _ => rfl

omit [DecidableEq ν] in
private theorem oneIndex_start (fresh : Fresh cfg s₀) (unset : s₀.Unset) : OneIndex [] s₀ where
  nextIndex := by
    intro n i here
    rw [fresh.notifier n] at here
    cases here
  before := fun w _ => unset.commitIndex w
  after := by
    rintro w ⟨p, member, -⟩
    cases member

private theorem oneIndex_notifier (unset : s₀.Unset) (run : Run (Steps (step cfg)) s₀ tr s)
    (inv : OneIndex tr s) (taken : step cfg s a = some s') {n : ν} {i : Int}
    (here : (s'.notifier n).nextIndex? = some i) : i = 1 := by
  obtain ⟨frame, moved⟩ := notifier_step taken n
  cases mine : a.toNotifier n with
  | none => exact inv.nextIndex n i (by rwa [frame mine] at here)
  | some b =>
    cases read : b.ack? with
    | none => exact inv.nextIndex n i (Notifier.nextIndex_step (moved b mine) read here)
    | some ack =>
      obtain ⟨rfl, rfl⟩ : a = .notifier n (.recv ack) ∧ b = .recv ack := by
        cases a with
        | notifier m c =>
          obtain ⟨rfl, rfl⟩ : m = n ∧ c = b := by simpa [LeaderAct.toNotifier] using mine
          cases c <;> simp [NotifierAct.ack?] at read
          simp [read]
        | _ => cases mine
      obtain ⟨-, rfl⟩ := notifierStep_recv taken
      have own := worker_moves (moves_run run) ack.workerId
      rw [Worker.nextIndex_run own, unset.nextIndex] at here
      cases granted : ack.success with
      | false => simp [setNotifier, granted, Notifier.nextIndex?] at here
      | true =>
        simp only [setNotifier, granted, Function.update_self, if_true, Notifier.nextIndex?,
          Option.some.injEq] at here
        exact here.symm

private theorem oneIndex_next (unset : s₀.Unset) (run : Run (Steps (step cfg)) s₀ tr s)
    (inv : OneIndex tr s) (taken : step cfg s a = some s') : OneIndex (tr ++ [a]) s' := by
  have nextIndex : ∀ n i, (s'.notifier n).nextIndex? = some i → i = 1 :=
    fun n i here => oneIndex_notifier unset run inv taken here
  cases label : a.committed? with
  | none =>
    have same : commits (tr ++ [a]) = commits tr := by
      rw [commits_append, commits_one, label]
      simp
    refine ⟨nextIndex, fun w => ?_, fun w => ?_⟩ <;>
      rw [commitIndex_step taken label w, CommitMade, same]
    · exact inv.before w
    · exact inv.after w
  | some slot =>
    cases a with
    | notifier n b =>
      cases b with
      | setCommitIndex slot' index =>
        obtain rfl : slot' = slot := Option.some.inj label
        obtain ⟨index', moved⟩ := setCommitIndex_step taken
        obtain rfl := inv.nextIndex n index index'
        have longer : commits (tr ++ [.notifier n (.setCommitIndex slot' 1)]) =
            commits tr ++ [slot'.1] := by
          rw [commits_append, commits_one]
          rfl
        refine ⟨nextIndex, fun w none => ?_, fun w made => ?_⟩
        · have apart : slot'.1.workerId ≠ w := fun eq => none ⟨slot'.1, by simp [longer], eq⟩
          rw [(moved w).2, if_neg apart]
          refine inv.before w ?_
          rintro ⟨p, member, owner⟩
          refine none ⟨p, ?_, owner⟩
          rw [longer]
          exact List.mem_append_left _ member
        · rw [(moved w).2]
          split
          · rfl
          · rename_i apart
            obtain ⟨p, member, owner⟩ := made
            rw [longer] at member
            rcases List.mem_append.mp member with old | new
            · exact inv.after w ⟨p, old, owner⟩
            · obtain rfl := List.mem_singleton.mp new
              exact absurd owner apart
      | _ => cases label
    | _ => cases label

private theorem oneIndex_run (fresh : Fresh cfg s₀) (unset : s₀.Unset)
    (run : Run (Steps (step cfg)) s₀ tr s) : OneIndex tr s :=
  run.invariant (oneIndex_start fresh unset)
    (fun _ _ _ _ before inv taken => oneIndex_next unset before inv taken)

private theorem log_grows (run : Run (Steps (step cfg)) s tr s') (w : Fin W) :
    (s.worker w).log.entry <+: (s'.worker w).log.entry := by
  rw [Worker.log_run (worker_moves (moves_run run) w)]
  exact List.prefix_append _ _

private theorem getEntry_grows {log log' : Log} (grows : log.entry <+: log'.entry) {i : Int}
    {e : Entry}
    (found : log.getEntry i = some e) : log'.getEntry i = some e := by
  obtain ⟨low, content⟩ := Log.getEntry_eq_some.mp found
  obtain ⟨rest, longer⟩ := grows
  obtain ⟨bound, -⟩ := List.getElem?_eq_some_iff.mp content
  rw [Log.getEntry_eq_some, ← longer, List.getElem?_append_left bound]
  exact ⟨low, content⟩

private theorem index_unique (fresh : Fresh cfg s₀) (unset : s₀.Unset)
    (run : Run (Steps (step cfg)) s₀ tr s) {i j : Int} {e e' : Entry}
    (here : (s.worker w).log.getEntry i = some e) (there : (s.worker w).log.getEntry j = some e')
    (same : e.lsn = e'.lsn) : i = j := by
  have log := Worker.log_run (worker_moves (moves_run run) w)
  rw [unset.empty, List.nil_append] at log
  rw [log, Log.getEntry_eq_some] at here there
  have bound := (List.getElem?_eq_some_iff.mp here.2).1
  have eq : i.toNat = j.toNat := by
    refine (List.getElem?_inj (by simpa using bound) (logged_nodup fresh (moves_run run) w)).mp ?_
    simp [here.2, there.2, same]
  omega

/-- A commit index only rises, names an entry, is not behind the batches that were committed, and is
shipped as the index of one of them. -/
structure TracksCommits (pre : List (LeaderAct N W ν)) (s : Leader N W ν cfg.consts)
    (a : LeaderAct N W ν) (s' : Leader N W ν cfg.consts) : Prop where
  rises : ∀ w, (s.worker w).commitIndex ≤ (s'.worker w).commitIndex
  inside : ∀ w, (s'.worker w).commitIndex ≤ (s'.worker w).log.lastLogIndex
  reached : ∀ w i e, (s'.worker w).log.getEntry i = some e → Committed (pre ++ [a]) w e.lsn →
    i ≤ (s'.worker w).commitIndex
  shipped : ∀ w p, a = .worker w (.sendRPC p) → p.leaderCommit = -1 ∨
    ∃ e, (s.worker w).log.getEntry p.leaderCommit = some e ∧ Committed pre w e.lsn

/-- A batch is committed when its worker has logged two, and it is one of these; and after its first
commit a worker sends only when the second batch is committed. -/
def InTime (pre : List (LeaderAct N W ν)) (s : Leader N W ν cfg.consts) : LeaderAct N W ν → Prop
  | .notifier _ (.setCommitIndex slot _) =>
      1 ≤ (s.worker slot.1.workerId).log.lastLogIndex ∧
        ∀ e ∈ (s.worker slot.1.workerId).log.entry.drop 2, e.lsn ≠ slot.1.lsn
  | .worker w (.sendRPC _) =>
      ¬ CommitMade pre w ∨ ∃ e ∈ (s.worker w).log.entry[1]?, Committed pre w e.lsn
  | _ => True

instance decidableInTime (pre : List (LeaderAct N W ν)) (s : Leader N W ν cfg.consts) :
    (a : LeaderAct N W ν) → Decidable (InTime pre s a)
  | .notifier _ (.setCommitIndex _ _) => inferInstanceAs (Decidable (_ ∧ _))
  | .worker _ (.sendRPC _) => inferInstanceAs (Decidable (_ ∨ _))
  | .notifier _ (.recv _) | .notifier _ (.addVoteCount _ _) | .notifier _ (.taskLoad _ _ _)
  | .notifier _ (.commitWork _ _) | .notifier _ (.sendRPC _ _) | .acceptClient
  | .worker _ (.xactEnqueue _) | .worker _ .xactDequeue | .worker _ (.lockFrom _)
  | .worker _ (.lockTo _) | .worker _ .unlockFrom | .worker _ .copyToBuffer
  | .worker _ (.flushTest _) | .worker _ (.loggingWork _) | .worker _ (.taskStore _)
  | .worker _ (.taskLoad _ _) | .worker _ (.setCommitIndex _) => inferInstanceAs (Decidable True)

omit [DecidableEq ν] in
private theorem inTime_index {pre : List (LeaderAct N W ν)} {n : ν} {slot : Place W × TransReq}
    {index : Int} : InTime pre s (.notifier n (.setCommitIndex slot index)) ↔
      1 ≤ (s.worker slot.1.workerId).log.lastLogIndex ∧
        ∀ i e, (s.worker slot.1.workerId).log.getEntry i = some e → e.lsn = slot.1.lsn → i ≤ 1 := by
  refine and_congr_right (fun _ => ?_)
  constructor
  · intro late i e found same
    obtain ⟨low, content⟩ := Log.getEntry_eq_some.mp found
    by_contra high
    refine late e (List.mem_of_getElem? (i := i.toNat - 2) ?_) same
    rw [List.getElem?_drop, ← content]
    congr 1
    omega
  · intro early e member same
    obtain ⟨i, content⟩ := List.mem_iff_getElem?.mp member
    rw [List.getElem?_drop] at content
    have bound := early (2 + i : Nat) e (Log.getEntry_eq_some.mpr ⟨by omega, content⟩) same
    omega

private theorem leaderCommit_step {p : AppendEntriesRpc N W}
    (taken : step cfg s (.worker w (.sendRPC p)) = some s') :
    p.leaderCommit = (s.worker w).commitIndex := by
  obtain ⟨-, w', kvs', nextLsn', moved, -, -, -⟩ := workerStep_some taken
  obtain ⟨ready, -⟩ := Worker.step_eq_some.mp moved
  rw [ready.2.2]
  rfl

private theorem commit_point (run : Run (Steps (step cfg)) s₀ tr s) {p : Place W}
    (made : p ∈ commits tr) :
    ∃ pre n x index post s₁ s₂, tr = pre ++ .notifier n (.setCommitIndex (p, x) index) :: post ∧
      Run (Steps (step cfg)) s₀ pre s₁ ∧
      step cfg s₁ (.notifier n (.setCommitIndex (p, x) index)) = some s₂ ∧
      Run (Steps (step cfg)) s₂ post s := by
  obtain ⟨n, x, index, member⟩ := mem_commits.mp made
  obtain ⟨pre, post, cut⟩ := List.append_of_mem member
  obtain ⟨s₁, s₂, before, taken, rest⟩ := run.split cut
  exact ⟨pre, n, x, index, post, s₁, s₂, cut, before, taken, rest⟩

private theorem committed_early [Fintype ν] (fresh : Fresh cfg s₀) (unset : s₀.Unset)
    (run : Run (Steps (step cfg)) s₀ tr s)
    (inTime : Throughout (step cfg) s₀ tr (fun pre s a _ => InTime pre s a))
    {p : Place W} (made : p ∈ commits tr) :
    1 ≤ (s.worker p.workerId).log.lastLogIndex ∧
      ∀ i e, (s.worker p.workerId).log.getEntry i = some e → e.lsn = p.lsn → i ≤ 1 := by
  obtain ⟨pre, n, x, index, post, s₁, s₂, cut, before, taken, rest⟩ := commit_point run made
  obtain ⟨size, early⟩ := inTime_index.mp (inTime pre _ post cut s₁ s₂ before taken)
  have same := ((setCommitIndex_step taken).2 p.workerId).1
  have grows := log_grows rest p.workerId
  rw [same] at grows
  refine ⟨?_, fun i e found number => ?_⟩
  · have longer := grows.length_le
    have two : 1 ≤ (s₁.worker p.workerId).log.lastLogIndex := size
    unfold Log.lastLogIndex at *
    omega
  · obtain ⟨e₁, entry, number₁, -⟩ := call_logged fresh (moves_run before)
      (b := .setCommitIndex (p, x) index) rfl (moves_step taken)
    have log := Worker.log_run (worker_moves (moves_run before) p.workerId)
    rw [unset.empty, List.nil_append] at log
    obtain ⟨j, content⟩ := List.mem_iff_getElem?.mp entry
    have found₁ : (s₁.worker p.workerId).log.getEntry j = some e₁ := by
      rw [Log.getEntry_eq_some, log]
      exact ⟨by omega, content⟩
    have position := early j e₁ found₁ number₁
    have unique := index_unique fresh unset run found (getEntry_grows grows found₁)
      (number.trans number₁.symm)
    omega

private theorem inTime_of_tracks (inv : OneIndex tr s) (taken : step cfg s a = some s')
    (now : TracksCommits tr s a s') : InTime tr s a := by
  cases a with
  | notifier n b =>
    cases b with
    | setCommitIndex slot index =>
      obtain ⟨known, moved⟩ := setCommitIndex_step taken
      obtain rfl := inv.nextIndex n index known
      obtain ⟨log, set⟩ := moved slot.1.workerId
      rw [if_pos rfl] at set
      have inside := now.inside slot.1.workerId
      rw [set, log] at inside
      refine inTime_index.mpr ⟨inside, fun i e found same => ?_⟩
      have made : Committed (tr ++ [.notifier n (.setCommitIndex slot 1)]) slot.1.workerId e.lsn :=
        ⟨slot.1, by simp [commits, LeaderAct.committed?], rfl, same.symm⟩
      have reached := now.reached slot.1.workerId i e (by rwa [log]) made
      rwa [set] at reached
    | _ => trivial
  | worker w b =>
    cases b with
    | sendRPC p =>
      by_cases made : CommitMade tr w
      · have index := leaderCommit_step taken
        rw [inv.after w made] at index
        rcases now.shipped w p rfl with unset | ⟨e, found, known⟩
        · omega
        · rw [index] at found
          exact .inr ⟨e, (Log.getEntry_eq_some.mp found).2, known⟩
      · exact .inl made
    | _ => trivial
  | acceptClient => trivial

private theorem tracks_of_inTime (inv : OneIndex tr s) (inv' : OneIndex (tr ++ [a]) s')
    (early : ∀ p ∈ commits (tr ++ [a]), 1 ≤ (s'.worker p.workerId).log.lastLogIndex ∧
      ∀ i e, (s'.worker p.workerId).log.getEntry i = some e → e.lsn = p.lsn → i ≤ 1)
    (taken : step cfg s a = some s') (inTime : InTime tr s a) : TracksCommits tr s a s' where
  rises := by
    intro w
    by_cases made : CommitMade tr w
    · obtain ⟨p, member, owner⟩ := made
      have later : CommitMade (tr ++ [a]) w := ⟨p, by simp [commits_append, member], owner⟩
      rw [inv.after w ⟨p, member, owner⟩, inv'.after w later]
    · rw [inv.before w made]
      by_cases later : CommitMade (tr ++ [a]) w
      · rw [inv'.after w later]
        omega
      · rw [inv'.before w later]
  inside := by
    intro w
    by_cases made : CommitMade (tr ++ [a]) w
    · rw [inv'.after w made]
      obtain ⟨p, member, rfl⟩ := made
      exact (early p member).1
    · rw [inv'.before w made]
      unfold Log.lastLogIndex
      omega
  reached := by
    rintro w i e found ⟨p, member, rfl, same⟩
    rw [inv'.after p.workerId ⟨p, member, rfl⟩]
    exact (early p member).2 i e found same.symm
  shipped := by
    rintro w p rfl
    have index := leaderCommit_step taken
    rcases inTime with none | ⟨e, second, known⟩
    · rw [inv.before w none] at index
      exact .inl index
    · have made : CommitMade tr w := known.imp (fun _ batch => ⟨batch.1, batch.2.1⟩)
      rw [inv.after w made] at index
      refine .inr ⟨e, ?_, known⟩
      rw [index, Log.getEntry_eq_some]
      exact ⟨by omega, second⟩

/-- The commit index tracks what is committed just in the runs whose commits and packets are in
time. -/
theorem tracks_commits_iff [Fintype ν] (fresh : Fresh cfg s₀) (unset : s₀.Unset)
    (tr : List (LeaderAct N W ν)) :
    Throughout (step cfg) s₀ tr TracksCommits ↔
      Throughout (step cfg) s₀ tr (fun pre s a _ => InTime pre s a) := by
  constructor
  · intro tracks pre a post cut s s' run taken
    have inv := oneIndex_run fresh unset run
    exact inTime_of_tracks inv taken (tracks pre a post cut s s' run taken)
  · intro inTime pre a post cut s s' run taken
    have after : Run (Steps (step cfg)) s₀ (pre ++ [a]) s' := .next run taken
    have cut' : tr = (pre ++ [a]) ++ post := by simpa using cut
    have early := fun p (made : p ∈ commits (pre ++ [a])) =>
      committed_early fresh unset after (cut' ▸ inTime).part made
    apply tracks_of_inTime (oneIndex_run fresh unset run) (oneIndex_run fresh unset after) early taken
    exact inTime pre a post cut s s' run taken

section Example

def threeTerm : Config 3 := ⟨0, 1, TwoPl.smallConsts⟩

def threeLeader : Leader 3 1 (Fin 2) threeTerm.consts :=
  startIndexed threeTerm (.new _ (fun _ => 100)) (fun _ => [])

def batchTrace (lsn : Int) (x y : TransReq) : List (LeaderAct 3 1 (Fin 2)) :=
  [.worker 0 (.xactEnqueue x), .worker 0 .xactDequeue, .worker 0 (.lockFrom true),
    .worker 0 (.lockTo true), .worker 0 .copyToBuffer, .worker 0 (.flushTest true),
    .worker 0 (.loggingWork ⟨lsn, 1, 1, 0, [y]⟩),
    .worker 0 (.sendRPC ⟨1, 0, -1, 0, -1, lsn, [y], 1, 0, 1⟩),
    .worker 0 (.sendRPC ⟨1, 0, -1, 0, -1, lsn, [y], 1, 0, 2⟩),
    .worker 0 (.taskStore ⟨0, lsn, 1, [y]⟩)]

def quorumTrace (lsn : Int) (y : TransReq) : List (LeaderAct 3 1 (Fin 2)) :=
  [.recv ⟨1, true, lsn, 0, 1⟩, .addVoteCount lsn 1].map (LeaderAct.notifier 0) ++
  [.recv ⟨1, true, lsn, 0, 2⟩, .addVoteCount lsn 2, .taskLoad 0 lsn (some ⟨0, lsn, 1, [y]⟩),
    .commitWork .indexReadFrom (⟨0, lsn, 0⟩, y), .commitWork .indexReadTo (⟨0, lsn, 0⟩, y),
    .commitWork .indexUpdateFrom (⟨0, lsn, 0⟩, y), .commitWork .indexUpdateTo (⟨0, lsn, 0⟩, y),
    .commitWork .unlockFrom (⟨0, lsn, 0⟩, y), .commitWork .unlockTo (⟨0, lsn, 0⟩, y),
    .setCommitIndex (⟨0, lsn, 0⟩, y) 1,
    .sendRPC (⟨0, lsn, 0⟩, y) .noClient].map (LeaderAct.notifier 1)

def otherXact : TransReq := ⟨0, 8, ⟨0, 2, 5, 0⟩⟩

def inTimeTrace : List (LeaderAct 3 1 (Fin 2)) :=
  batchTrace 0 Worker.firstXact Worker.firstLocked ++ batchTrace 1 otherXact otherXact ++
    quorumTrace 0 Worker.firstLocked ++ quorumTrace 1 otherXact

def soleTrace : List (LeaderAct 3 1 (Fin 2)) :=
  batchTrace 0 Worker.firstXact Worker.firstLocked ++ quorumTrace 0 Worker.firstLocked

private theorem threeLeader_unset : threeLeader.Unset where
  empty := fun _ => rfl
  nextIndex := fun _ _ => rfl
  commitIndex := fun _ => rfl

theorem tracks_commits_in_time :
    Throughout (step threeTerm) threeLeader inTimeTrace TracksCommits ∧
      ∃ s, Run (Steps (step threeTerm)) threeLeader inTimeTrace s := by
  have checked : Lib.check (step threeTerm) (fun pre s a => decide (InTime pre s a)) []
      threeLeader inTimeTrace = true := by decide
  have done : (exec (step threeTerm) threeLeader inTimeTrace).isSome = true := by
    decide
  obtain ⟨s, run⟩ := Option.isSome_iff_exists.mp done
  refine ⟨(tracks_commits_iff (startIndexed_fresh (fun _ => rfl) _) threeLeader_unset _).mpr ?_,
    s, Lib.exec_run run⟩
  intro pre a post cut s t run taken
  exact of_decide_eq_true (Lib.throughout_of_check checked pre a post cut s t run taken)

/-- The commit index is 1, and the log has one entry, at index 0. -/
theorem commit_index_past_end :
    ∃ s, Run (Steps (step threeTerm)) threeLeader soleTrace s ∧
      (s.worker 0).log.lastLogIndex < (s.worker 0).commitIndex := by
  have done : (exec (step threeTerm) threeLeader soleTrace).map
      (fun s => decide ((s.worker 0).log.lastLogIndex < (s.worker 0).commitIndex)) = some true := by
    decide
  obtain ⟨s, run, holds⟩ := exec_reaches done
  exact ⟨s, run, of_decide_eq_true holds⟩

end Example

end Leader

end Raft2pl.Server
