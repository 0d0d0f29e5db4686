/- A transferWork that returns false leaves the table as it found it, whatever the others do. -/

import Raft2pl.Silo.Steps
import Raft2pl.Silo.Transfer
import Raft2pl.Silo.Memory

set_option autoImplicit false
set_option relaxedAutoImplicit false

namespace Raft2pl.Silo

open Lib (Run Steps exec exec_reaches OnlyAt Tracks track)

def ProcessAct.worker? {W : Nat} : ProcessAct W → Option (Fin W)
  | .transferWork i _ => some i
  | .access i _ _ => some i
  | .advanceEpoch => none

/-- The process, and for each lock bit that is set the worker that has set it. -/
structure Watched (W : Nat) where
  process : Process W
  owner : BitVec 64 → Option (Fin W)

namespace Watched

variable {W : Nat}

def mark (g : Watched W) (i : Option (Fin W)) (s : Process W) : Watched W where
  process := s
  owner := track (fun k => (g.process.table k).tidword.lock) (fun k => (s.table k).tidword.lock) i
    g.owner

def step (g : Watched W) (a : ProcessAct W) : Option (Watched W) :=
  (g.process.step a).map (g.mark a.worker?)

def stepWhole (g : Watched W) (a : ProcessAct W) : Option (Watched W) :=
  (g.process.stepWhole a).map (g.mark a.worker?)

/-- The steps of calls whose strings fit. -/
def stepFitting (g : Watched W) (a : ProcessAct W) : Option (Watched W) :=
  if g.process.fits a then g.stepWhole a else none

theorem stepFitting_some {g g' : Watched W} {a : ProcessAct W}
    (taken : g.stepFitting a = some g') : g.step a = some g' ∧ g.stepWhole a = some g' := by
  rw [stepFitting, Option.ite_none_right_eq_some] at taken
  obtain ⟨fits, taken⟩ := taken
  refine ⟨?_, taken⟩
  rwa [step, ← Process.stepWhole_eq fits]

/-- Workers that have not made a call yet, on a table without locked tuples. -/
structure Fresh (g : Watched W) : Prop where
  process : g.process.Fresh
  owner : ∀ k, g.owner k = none

/-- The step changes no value, no epoch and no tid, and takes no lock from its owner, if it is one
of worker `i`. -/
def Sparing (i : Fin W) (g : Watched W) (a : ProcessAct W) (g' : Watched W) : Prop :=
  g.stepWhole a = some g' ∧ (a.worker? = some i → ∀ k,
    (g'.process.table k).val = (g.process.table k).val ∧
    (g'.process.table k).tidword.epoch = (g.process.table k).tidword.epoch ∧
    (g'.process.table k).tidword.tid = (g.process.table k).tidword.tid ∧
    ∀ j, j ≠ i → g.owner k = some j → (g'.process.table k).tidword.lock = true)

/-- The owners of the lock bits are the workers that hold the elements. -/
structure Held (g : Watched W) : Prop where
  process : g.process.Held
  owner : Tracks (fun i => (g.process.worker i).own) g.owner

section Step

open Process Worker

variable {g g' : Watched W} {s' : Process W} {i j : Fin W} {w' : Worker} {k : BitVec 64}

theorem held_start (fresh : g.Fresh) : g.Held where
  process := Process.held_start fresh.process
  owner := fun k i => by simp [fresh.owner k, own, holds, fresh.process.idle i]

theorem onlyAt (workers : s'.worker = Function.update g.process.worker i w') :
    OnlyAt i (fun j => (g.process.worker j).own) (fun j => (s'.worker j).own) := by
  intro j apart
  show (s'.worker j).own = (g.process.worker j).own
  rw [workers, Function.update_of_ne apart]

theorem held_step {a : ProcessAct W} (held : g.Held) (taken : g.step a = some g') : g'.Held := by
  obtain ⟨s', moved, rfl⟩ := Option.map_eq_some_iff.mp taken
  have after : s'.Held := Process.held_step held.process moved
  refine ⟨after, ?_⟩
  cases a with
  | transferWork i req =>
    obtain ⟨w', workers, -⟩ := call_moves moved
    exact held.owner.step held.process.exclusive after.exclusive (onlyAt workers)
  | access i beyondFrom beyondTo =>
    obtain ⟨w', workers, -⟩ := access_moves (held.process.sound i) moved
    exact held.owner.step held.process.exclusive after.exclusive (onlyAt workers)
  | advanceEpoch =>
    obtain rfl := Option.some.inj moved
    exact held.owner.idle held.process.exclusive none

theorem held_run {g₀ : Watched W} {tr : List (ProcessAct W)} (fresh : g₀.Fresh)
    (run : Run (Steps stepFitting) g₀ tr g) : g.Held :=
  run.invariant (I := fun _ g => g.Held) (held_start fresh)
    (fun _ _ _ _ _ held taken => held_step held (stepFitting_some taken).1)

/-- The course of a call of worker `i`, from the state `g` before it: until it commits, all its
steps are sparing. -/
structure InCall (i : Fin W) (g : Watched W) (tr : List (ProcessAct W)) (t : Watched W) : Prop where
  held : t.Held
  spared : (t.process.worker i).x.status ≠ .committed →
    Run (Sparing i) g tr t ∧ (t.process.worker i).x.mrctid = (g.process.worker i).x.mrctid
  returned : (t.process.worker i).pc = .idle → (t.process.worker i).x.status ≠ .inFlight

private theorem inCall_start {req : ClientRequest} (held : g.Held)
    (called : g.stepFitting (.transferWork i req) = some g') : InCall i g [.transferWork i req] g' := by
  obtain ⟨taken, whole⟩ := stepFitting_some called
  have held' := held_step held taken
  obtain ⟨s', moved, rfl⟩ := Option.map_eq_some_iff.mp taken
  obtain ⟨w', workers, table, moves, mrctid⟩ := call_moves moved
  have mine : ((g.mark (some i) s').process.worker i) = w' := by
    show s'.worker i = w'
    rw [workers, Function.update_self]
  refine ⟨held', fun _ => ⟨.next .start ⟨whole, fun _ k => ?_⟩, ?_⟩, ?_⟩
  · show (s'.table k).val = _ ∧ (s'.table k).tidword.epoch = _ ∧ (s'.table k).tidword.tid = _ ∧ _
    rw [table]
    refine ⟨rfl, rfl, rfl, fun j _ theirs => ?_⟩
    show (s'.table k).tidword.lock = true
    rw [table]
    exact held.process.exclusive.held_of_mem ((held.owner k j).mp theirs)
  · exact (congrArg (fun w => w.x.mrctid) mine).trans mrctid
  · intro idle
    exact mine ▸ moves.returned (mine ▸ idle)

private theorem inCall_step {t t' : Watched W} {tr : List (ProcessAct W)} {a : ProcessAct W}
    (call : InCall i g tr t) (made : t.stepFitting a = some t') (later : ∀ r, a ≠ .transferWork i r) :
    InCall i g (tr ++ [a]) t' := by
  obtain ⟨taken, whole⟩ := stepFitting_some made
  have held' := held_step call.held taken
  by_cases mine : a.worker? = some i
  · obtain ⟨s', moved, rfl⟩ := Option.map_eq_some_iff.mp taken
    cases a with
    | transferWork j req =>
      obtain rfl : j = i := Option.some.inj mine
      exact absurd rfl (later req)
    | advanceEpoch => cases mine
    | access j beyondFrom beyondTo =>
      obtain rfl : j = i := Option.some.inj mine
      obtain ⟨w', workers, moves⟩ := access_moves (call.held.process.sound j) moved
      have here : ((t.mark (some j) s').process.worker j) = w' := by
        show s'.worker j = w'
        rw [workers, Function.update_self]
      refine ⟨held', fun running => ?_, fun idle => here ▸ moves.returned (here ▸ idle)⟩
      have before : (t.process.worker j).x.status ≠ .committed := fun committed =>
        running (access_committed (call.held.process.sound j) moved committed)
      obtain ⟨run, mrctid⟩ := call.spared before
      refine ⟨.next run ⟨whole, fun _ k => ?_⟩, ?_⟩
      · obtain ⟨val, epoch, tid⟩ := plain_of_change (call.held.process.sound j) moves.change before k
        refine ⟨val, epoch, tid, fun l apart theirs => ?_⟩
        have own := (call.held.owner k l).mp theirs
        show (s'.table k).tidword.lock = true
        rw [kept_of_change call.held.process moves.change apart own]
        exact call.held.process.exclusive.held_of_mem own
      · have kept := moves.mrctid (fun commit => before (by
          have sound := call.held.process.sound j
          rw [Worker.Sound, commit] at sound
          exact sound))
        exact (congrArg (fun w => w.x.mrctid) here).trans (kept.trans mrctid)
  · have same : t'.process.worker i = t.process.worker i := by
      obtain ⟨s', moved, rfl⟩ := Option.map_eq_some_iff.mp taken
      show s'.worker i = _
      cases a with
      | transferWork j req =>
        obtain ⟨w', workers, -⟩ := call_moves moved
        rw [workers, Function.update_of_ne (fun eq => mine (by rw [eq]; rfl))]
      | access j beyondFrom beyondTo =>
        obtain ⟨w', workers, -⟩ := access_moves (call.held.process.sound j) moved
        rw [workers, Function.update_of_ne (fun eq => mine (by rw [eq]; rfl))]
      | advanceEpoch =>
        obtain rfl := Option.some.inj moved
        rfl
    refine ⟨held', fun running => ?_, fun idle => ?_⟩
    · obtain ⟨run, mrctid⟩ := call.spared (by rwa [← same])
      refine ⟨.next run ⟨whole, fun theirs => absurd theirs mine⟩, ?_⟩
      rw [same]
      exact mrctid
    · rw [same] at idle ⊢
      exact call.returned idle

/-- As long as no string of a committing call goes on into the next tuple, a call that has returned
false has changed no value, no epoch, no tid and no lock of another worker; and whatever it has
returned, it leaves no tuple locked and nothing in its sets. `validationPhase` returns, and
`transferWork` after it, whether `status_` is `kCommitted`. -/
theorem transferWork_atomic {g₀ g t : Watched W} {pre mid : List (ProcessAct W)} {i : Fin W}
    {req : ClientRequest} (fresh : g₀.Fresh) (before : Run (Steps stepFitting) g₀ pre g)
    (during : Run (Steps stepFitting) g (.transferWork i req :: mid) t)
    (once : ∀ r, .transferWork i r ∉ mid) (idle : (t.process.worker i).pc = .idle) :
    ((t.process.worker i).x.status = .committed ∨
      (t.process.worker i).x.status = .aborted ∧
      (t.process.worker i).x.mrctid = (g.process.worker i).x.mrctid ∧
      Run (Sparing i) g (.transferWork i req :: mid) t) ∧
    (∀ k, t.owner k ≠ some i) ∧
    (t.process.worker i).x.readSet = [] ∧ (t.process.worker i).x.writeSet = [] := by
  obtain ⟨v, called, rest⟩ := during.uncons
  have course : ∀ {tr : List (ProcessAct W)} {t : Watched W}, Run (Steps stepFitting) v tr t →
      (∀ r, .transferWork i r ∉ tr) → InCall i g (.transferWork i req :: tr) t := by
    intro tr t run
    refine run.invariant (I := fun tr t => (∀ r, .transferWork i r ∉ tr) →
      InCall i g (.transferWork i req :: tr) t) (fun _ => ?_) (fun tr _ a _ _ ih taken once => ?_)
    · exact inCall_start (held_run fresh before) called
    · refine inCall_step (ih (fun r member => once r (List.mem_append_left _ member))) taken ?_
      rintro r rfl
      exact once r (by simp)
  obtain ⟨held, spared, returned⟩ := course rest once
  have sound := held.process.sound i
  rw [Worker.Sound, idle] at sound
  refine ⟨?_, fun k mine => ?_, sound⟩
  · cases status : (t.process.worker i).x.status with
    | committed => exact .inl rfl
    | aborted =>
      obtain ⟨run, mrctid⟩ := spared (by rw [status]; decide)
      exact .inr ⟨rfl, mrctid, run⟩
    | inFlight => exact absurd status (returned idle)
  · have own := (held.owner k i).mp mine
    simp [Worker.own, Worker.holds, idle] at own

section Example

def watchedStart : Watched 2 := ⟨.start (tableOf 5), fun _ => none⟩

private theorem watchedStart_fresh : watchedStart.Fresh := ⟨start_fresh (fun _ => rfl), fun _ => rfl⟩

def overtakenTrace : List (ProcessAct 2) :=
  List.replicate 6 (.access 1 [] []) ++ .transferWork 0 ⟨1, 2, 3, 0⟩ ::
    List.replicate 19 (.access 0 [] []) ++ List.replicate 11 (.access 1 [] [])

private theorem overtakenTrace_once (r : ClientRequest) : .transferWork 1 r ∉ overtakenTrace := by
  simp [overtakenTrace]

/-- Worker 1 locks both of its accounts, finds that account 1 has a new tid, and unlocks them. -/
theorem transferWork_atomic_overtaken :
    ∃ t, Run (Steps stepFitting) watchedStart (.transferWork 1 ⟨1, 3, 3, 0⟩ :: overtakenTrace) t ∧
      (t.process.worker 1).x.status = .aborted ∧
      (t.process.worker 1).x.mrctid = (watchedStart.process.worker 1).x.mrctid ∧
      Run (Sparing 1) watchedStart (.transferWork 1 ⟨1, 3, 3, 0⟩ :: overtakenTrace) t ∧
      (∀ k, t.owner k ≠ some 1) ∧ (t.process.worker 1).x.readSet = [] := by
  have done : (exec stepFitting watchedStart (.transferWork 1 ⟨1, 3, 3, 0⟩ :: overtakenTrace)).map
      (fun t => decide ((t.process.worker 1).pc = .idle ∧
        (t.process.worker 1).x.status = .aborted)) = some true := by decide
  obtain ⟨t, run, holds⟩ := exec_reaches done
  obtain ⟨idle, aborted⟩ := of_decide_eq_true holds
  obtain ⟨outcome, unlocked, empty, -⟩ :=
    transferWork_atomic watchedStart_fresh .start run overtakenTrace_once idle
  rcases outcome with committed | ⟨-, mrctid, spared⟩
  · rw [aborted] at committed
    cases committed
  · exact ⟨t, run, aborted, mrctid, spared, unlocked, empty⟩

def overrunStart : Watched 3 := ⟨.start (tableOf 33686018), fun _ => none⟩

/-- Worker 0 has locked its accounts 2 and 9. The string that worker 1 writes to account 1 is nine bytes
long and ends in the word of account 2, which it unlocks and gives another tid. Worker 2 locks account
2. Worker 0 finds the other tid and is about to unlock account 2. -/
def overrunBefore : List (ProcessAct 3) :=
  List.replicate 10 (.access 0 [] []) ++ .transferWork 1 ⟨1, 5, 1, 0⟩ ::
    List.replicate 16 (.access 1 [2, 2, 2, 2, 10] []) ++ List.replicate 3 (.access 1 [] []) ++
    .transferWork 2 ⟨2, 7, 1, 0⟩ :: List.replicate 8 (.access 2 [] []) ++
    List.replicate 4 (.access 0 [] [])

def overrunAfter : List (ProcessAct 3) := List.replicate 2 (.access 0 [] [])

/-- Worker 0 returns false and has taken the lock of worker 2. -/
theorem abort_takes_lock :
    ∃ u u' t, Run (Steps stepWhole) overrunStart (.transferWork 0 ⟨2, 9, 1, 0⟩ :: overrunBefore) u ∧
      u.stepWhole (.access 0 [] []) = some u' ∧ Run (Steps stepWhole) u' overrunAfter t ∧
      u.owner 2 = some 2 ∧ (u'.process.table 2).tidword.lock = false ∧
      (∀ r, .transferWork 0 r ∉ overrunBefore ++ .access 0 [] [] :: overrunAfter) ∧
      (t.process.worker 0).pc = .idle ∧ (t.process.worker 0).x.status = .aborted ∧
      ¬ Run (Sparing 0) overrunStart
        (.transferWork 0 ⟨2, 9, 1, 0⟩ :: overrunBefore ++ .access 0 [] [] :: overrunAfter) t := by
  have done : (exec stepWhole overrunStart (.transferWork 0 ⟨2, 9, 1, 0⟩ :: overrunBefore)).map
      (fun u => decide (u.owner 2 = some 2 ∧ (u.stepWhole (.access 0 [] [])).map (fun u' =>
        decide ((u'.process.table 2).tidword.lock = false ∧
          (exec stepWhole u' overrunAfter).map (fun t => decide ((t.process.worker 0).pc = .idle ∧
            (t.process.worker 0).x.status = .aborted)) = some true)) = some true)) = some true := by
    decide +kernel
  obtain ⟨u, before, holds⟩ := exec_reaches done
  obtain ⟨theirs, next⟩ := of_decide_eq_true holds
  obtain ⟨u', taken, holds'⟩ := Option.map_eq_some_iff.mp next
  obtain ⟨unlocked, rest⟩ := of_decide_eq_true holds'
  obtain ⟨t, after, ended⟩ := exec_reaches rest
  obtain ⟨idle, aborted⟩ := of_decide_eq_true ended
  refine ⟨u, u', t, before, taken, after, theirs, unlocked, ?_, idle, aborted, fun spared => ?_⟩
  · simp [overrunBefore, overrunAfter]
  · obtain ⟨v, v', reached, ⟨made, sparing⟩, -⟩ := spared.split rfl
    have same : v = u := by
      have run : Run (Steps stepWhole) overrunStart _ v := reached.mono (fun _ _ _ step => step.1)
      exact Option.some.inj ((Lib.run_exec run).symm.trans (Lib.run_exec before))
    subst same
    obtain rfl : v' = u' := Option.some.inj (made.symm.trans taken)
    obtain ⟨-, -, -, kept⟩ := sparing rfl 2
    rw [kept 2 (by decide) theirs] at unlocked
    cases unlocked

end Example

end Step

end Watched

end Raft2pl.Silo
