/- The worker that a new client gets: Raft::receiver while setupLeader fills the list of workers. -/

import Raft2pl.Lib.Run

set_option autoImplicit false
set_option relaxedAutoImplicit false

namespace Raft2pl.Server

open Lib (Run Steps Throughout exec exec_reaches)

/-- `WORKER_NUM`. -/
def workerNum : Nat := 9

/-- What the receiver and `setupLeader` share. `connecting` counts the followers that `setupLeader`
still waits for, `workerInfos` lists the ids of the `WorkerInfo`s as they were pushed, `workerId` is
the receiver's counter, and `handed` what each producer thread was given. -/
structure Reception where
  connecting : Nat
  workerInfos : List Int
  workerId : Int
  handed : List Int

inductive ReceptionAct
  | connect2raftnode
  | pushWorkerInfo
  | accept
  | getWorkerInfoById (client : Nat) (found : Option Int)
  deriving DecidableEq

/-- `Raft::getWorkerInfoById`: the last one with the id. Where there is none, what it returns is not
initialised. -/
def getWorkerInfoById (workerInfos : List Int) (id : Int) : Option Int :=
  (workerInfos.filter (fun w => decide (w = id))).getLast?

private theorem getWorkerInfoById_eq {workerInfos : List Int} {id : Int} :
    getWorkerInfoById workerInfos id = some id ↔ id ∈ workerInfos := by
  constructor
  · intro found
    exact List.mem_of_mem_filter (List.mem_of_getLast? found)
  · intro member
    have here : id ∈ workerInfos.filter (fun w => decide (w = id)) := by simp [member]
    have found := List.getLast?_eq_some_getLast (List.ne_nil_of_mem here)
    have same := List.of_mem_filter (List.getLast_mem (List.ne_nil_of_mem here))
    rwa [of_decide_eq_true same] at found

namespace Reception

def start (followers : Nat) : Reception := ⟨followers, [], 0, []⟩

section Step

variable (W : Nat)

def step (s : Reception) : ReceptionAct → Option Reception
  | .connect2raftnode =>
      if 0 < s.connecting then some { s with connecting := s.connecting - 1 } else none
  | .pushWorkerInfo =>
      if s.connecting = 0 ∧ s.workerInfos.length < W then
        some { s with workerInfos := s.workerInfos ++ [(s.workerInfos.length : Int)] }
      else none
  | .accept =>
      some { s with
        workerId := if s.workerId = (s.workerInfos.length : Int) - 1 then 0 else s.workerId + 1
        handed := s.handed ++ [s.workerId] }
  | .getWorkerInfoById client found =>
      if s.handed[client]?.map (Server.getWorkerInfoById s.workerInfos) = some found then some s
      else none

def accepted (tr : List ReceptionAct) : Nat := tr.count .accept

/-- Every producer finds its worker, whenever it looks for it; and once all workers are there, the
next clients get them in turn. -/
structure Bound (s : Reception) : Prop where
  found : ∀ id ∈ s.handed, Server.getWorkerInfoById s.workerInfos id = some id
  cyclic : s.workerInfos.length = W → ∀ tr t, Run (Steps (step W)) s tr t →
    t.handed = s.handed ++
      (List.range (accepted tr)).map (fun (i : Nat) => (s.workerId + i) % (W : Int))

end Step

variable {W followers : Nat} {s t : Reception} {tr : List ReceptionAct} {a : ReceptionAct}

structure Filled (W : Nat) (s : Reception) : Prop where
  workerInfos : s.workerInfos = (List.range s.workerInfos.length).map Int.ofNat
  size : s.workerInfos.length ≤ W

private theorem mem_of_filled (filled : Filled W s) {id : Int} (low : 0 ≤ id)
    (high : id < s.workerInfos.length) : id ∈ s.workerInfos := by
  rw [filled.workerInfos, List.mem_map]
  exact ⟨id.toNat, List.mem_range.mpr (by omega), Int.toNat_of_nonneg low⟩

private theorem filled_step (filled : Filled W s) (taken : step W s a = some t) :
    Filled W t ∧ s.workerInfos.length ≤ t.workerInfos.length := by
  cases a with
  | connect2raftnode =>
    obtain ⟨-, moved⟩ := Option.ite_none_right_eq_some.mp taken
    obtain rfl := Option.some.inj moved
    exact ⟨⟨filled.workerInfos, filled.size⟩, le_rfl⟩
  | pushWorkerInfo =>
    obtain ⟨⟨-, room⟩, moved⟩ := Option.ite_none_right_eq_some.mp taken
    obtain rfl := Option.some.inj moved
    refine ⟨⟨?_, ?_⟩, ?_⟩
    · rw [List.length_append, List.length_singleton, List.range_succ, List.map_append,
        ← filled.workerInfos]
      rfl
    · rw [List.length_append, List.length_singleton]
      exact room
    · simp
  | accept =>
    obtain rfl := Option.some.inj taken
    exact ⟨⟨filled.workerInfos, filled.size⟩, le_rfl⟩
  | getWorkerInfoById client found =>
    obtain ⟨-, moved⟩ := Option.ite_none_right_eq_some.mp taken
    obtain rfl := Option.some.inj moved
    exact ⟨filled, le_rfl⟩

private theorem filled_run (run : Run (Steps (step W)) (start followers) tr s) :
    Filled W s :=
  run.invariant (I := fun _ s => Filled W s) ⟨rfl, Nat.zero_le _⟩
    (fun _ _ _ _ _ inv taken => (filled_step inv taken).1)

private theorem counter_step (taken : step W s a = some t) :
    if a = .accept then t.handed = s.handed ++ [s.workerId] ∧ t.workerInfos = s.workerInfos ∧
      t.workerId = if s.workerId = (s.workerInfos.length : Int) - 1 then 0 else s.workerId + 1
    else t.handed = s.handed ∧ t.workerId = s.workerId := by
  cases a with
  | accept =>
    obtain rfl := Option.some.inj taken
    exact ⟨rfl, rfl, rfl⟩
  | _ =>
    obtain ⟨-, moved⟩ := Option.ite_none_right_eq_some.mp taken
    obtain rfl := Option.some.inj moved
    exact ⟨rfl, rfl⟩

/-- The counter names a worker that is there, or nothing has happened. -/
structure InList (s : Reception) : Prop where
  handed : ∀ id ∈ s.handed, 0 ≤ id ∧ id < s.workerInfos.length
  counter : 0 ≤ s.workerId ∧ (s.workerId < s.workerInfos.length ∨ s.workerId = 0)

private theorem inList_step (filled : Filled W s) (inv : s.InList)
    (taken : step W s a = some t) (served : a = .accept → s.workerInfos ≠ []) :
    t.InList := by
  have grows := (filled_step filled taken).2
  have moved := counter_step taken
  obtain ⟨handed, low, high⟩ := inv
  by_cases new : a = .accept
  · rw [if_pos new] at moved
    obtain ⟨longer, same, next⟩ := moved
    have nonempty := List.length_pos_iff.mpr (served new)
    refine ⟨fun id member => ?_, ?_⟩
    · rw [longer] at member
      rw [same]
      rcases List.mem_append.mp member with old | last
      · exact handed id old
      · obtain rfl := List.mem_singleton.mp last
        omega
    · rw [next, same]
      split <;> omega
  · rw [if_neg new] at moved
    obtain ⟨same, still⟩ := moved
    refine ⟨fun id member => ?_, ?_⟩
    · rw [same] at member
      have := handed id member
      omega
    · omega

private theorem inList_run (served : Throughout (step W) (start followers) tr
      (fun _ s a _ => a = .accept → s.workerInfos ≠ []))
    (run : Run (Steps (step W)) (start followers) tr s) : s.InList := by
  have all : ∀ pre post, tr = pre ++ post → ∀ s,
      Run (Steps (step W)) (start followers) pre s → s.InList := by
    intro pre post cut s run
    induction run generalizing post with
    | start => exact ⟨by simp [start], by simp [start], .inr rfl⟩
    | @next pre s t a before taken ih =>
      have cut' : tr = pre ++ a :: post := by simpa using cut
      exact inList_step (filled_run before) (ih _ cut') taken
        (served pre a post cut' s t before taken)
  exact all tr [] (List.append_nil tr).symm s run

private theorem next_mod {k : Int} (n m : Nat) (low : 0 ≤ k) :
    (if (k + n) % m = (m : Int) - 1 then 0 else (k + n) % m + 1) = (k + (n + 1 : Nat)) % m := by
  have shift : k + (n + 1 : Nat) = k + n + 1 := by omega
  rcases Nat.eq_zero_or_pos m with rfl | pos
  · simp
    omega
  · have nonneg : 0 ≤ (k + n) % (m : Int) := Int.emod_nonneg _ (by omega)
    have small : (k + n) % (m : Int) < m := Int.emod_lt_of_pos _ (by omega)
    have carry : (k + n + 1) % (m : Int) = ((k + n) % m + 1) % m := (Int.emod_add_emod _ _ _).symm
    rw [shift, carry]
    split
    · rename_i last
      rw [last, Int.sub_add_cancel, Int.emod_self]
    · exact (Int.emod_eq_of_lt (by omega) (by omega)).symm

private theorem cyclic_run (filled : Filled W s) (all : s.workerInfos.length = W)
    (low : 0 ≤ s.workerId) (high : s.workerId < W ∨ s.workerId = 0)
    (run : Run (Steps (step W)) s tr t) :
    t.workerId = (s.workerId + accepted tr) % W ∧ t.handed = s.handed ++
      (List.range (accepted tr)).map (fun (i : Nat) => (s.workerId + i) % (W : Int)) := by
  have whole : Filled W t ∧ t.workerInfos.length = W ∧
      t.workerId = (s.workerId + accepted tr) % W ∧ t.handed = s.handed ++
      (List.range (accepted tr)).map (fun (i : Nat) => (s.workerId + i) % (W : Int)) := by
    induction run with
    | start =>
      refine ⟨filled, all, ?_, by simp [accepted]⟩
      rcases high with small | zero
      · simp [accepted, Int.emod_eq_of_lt low small]
      · simp [accepted, zero]
    | @next tr t u a before taken ih =>
      obtain ⟨filled', all', counter, handed⟩ := ih
      obtain ⟨filled'', grows⟩ := filled_step filled' taken
      have size := filled''.size
      have moved := counter_step taken
      refine ⟨filled'', by omega, ?_⟩
      by_cases new : a = .accept
      · rw [if_pos new] at moved
        have more : accepted (tr ++ [a]) = accepted tr + 1 := by simp [accepted, new]
        rw [more, moved.2.2, moved.1, all', List.range_succ, List.map_append, ← List.append_assoc,
          ← handed, counter]
        exact ⟨next_mod _ _ low, rfl⟩
      · rw [if_neg new] at moved
        have same : accepted (tr ++ [a]) = accepted tr := by simp [accepted, new]
        rw [same, moved.1, moved.2]
        exact ⟨counter, handed⟩
  exact whole.2.2

/-- The clients are bound to workers just in the histories in which none is accepted before the
first worker is there. -/
theorem bound_iff (W followers : Nat) (tr : List ReceptionAct) :
    Throughout (step W) (start followers) tr (fun _ _ _ t => Bound W t) ↔
      Throughout (step W) (start followers) tr
        (fun _ s a _ => a = .accept → s.workerInfos ≠ []) := by
  constructor
  · rintro bound pre a post cut s t run taken rfl none
    obtain rfl := Option.some.inj taken
    have found := (bound pre _ post cut s _ run taken).found s.workerId (by simp)
    simp [none, Server.getWorkerInfoById] at found
  · intro served pre a post cut s t run taken
    have after : Run (Steps (step W)) (start followers) (pre ++ [a]) t := .next run taken
    have filled := filled_run after
    have cut' : tr = (pre ++ [a]) ++ post := by simpa using cut
    have inv : t.InList := inList_run (cut' ▸ served).part after
    refine ⟨fun id member => ?_, fun all tr' u more => ?_⟩
    · obtain ⟨low, high⟩ := inv.handed id member
      exact getWorkerInfoById_eq.mpr (mem_of_filled filled low high)
    · obtain ⟨low, high⟩ := inv.counter
      exact (cyclic_run filled all low (by rwa [all] at high) more).2

section Example

/-- A client is accepted before the first worker is there, and looks for its worker at once. -/
def earlyTrace : List ReceptionAct := [.accept, .getWorkerInfoById 0 none]

theorem early_client_unbound :
    ∃ s, Run (Steps (step workerNum)) (start 2) earlyTrace s ∧ ¬ Bound workerNum s := by
  refine ⟨_, Lib.exec_run rfl, fun bound => ?_⟩
  exact absurd (bound.found 0 (by decide)) (by decide)

end Example

end Reception

end Raft2pl.Server
