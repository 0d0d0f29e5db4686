/- The numbers of batches over several lifetimes of the leader process, on one set of log files. -/

import Raft2pl.Server.Pipeline
import Raft2pl.Server.Threads
import Mathlib.Data.Fintype.Card
import Mathlib.Data.Fintype.Pi

set_option autoImplicit false
set_option relaxedAutoImplicit false

namespace Raft2pl.Server

open Lib (Run Steps exec exec_reaches)

/-- The leader process as far as numbers go: the static counter of `getLogSequenceNumber`, the logs
of the workers, and the numbers that workers have drawn and not logged yet. -/
structure NumberingProcess (W : Nat) where
  counter : BitVec 64
  log : Fin W → Log
  drawn : Fin W → Option (BitVec 64)

/-- The leader over its lifetimes: stopped, with the log files it left, or running. -/
inductive Numbering (W : Nat)
  | down (file : Fin W → List Entry)
  | up (p : NumberingProcess W)

/-- What happens to the leader and its files: `resetFiles` is reset.sh, and `stop` may come before and
after each call, also by the assertion on the number. -/
inductive NumberingAct (W : Nat)
  | start
  | stop
  | resetFiles
  | getLogSequenceNumber (w : Fin W)
  | addEntry (w : Fin W) (e : Entry)
  deriving DecidableEq

namespace NumberingProcess

variable {W : Nat}

def start (file : Fin W → List Entry) : NumberingProcess W where
  counter := 0
  log := fun w => Log.ofFile (file w)
  drawn := fun _ => none

def file (p : NumberingProcess W) (w : Fin W) : List Entry := (p.log w).file

/-- `_lsn.fetch_add(1)`, called by worker `w`. -/
def fetchAdd (p : NumberingProcess W) (w : Fin W) : NumberingProcess W where
  counter := p.counter + 1
  log := p.log
  drawn := Function.update p.drawn w (some p.counter)

/-- The end of `loggingWork` in worker `w`. -/
def addEntry (p : NumberingProcess W) (w : Fin W) (e : Entry) : NumberingProcess W where
  counter := p.counter
  log := Function.update p.log w ((p.log w).addEntry e)
  drawn := Function.update p.drawn w none

def stuck (p : NumberingProcess W) : Finset (Fin W) :=
  Finset.univ.filter (fun w => (p.drawn w).any (fun c => decide (2 ^ 31 ≤ c.toNat)) = true)

end NumberingProcess

namespace Numbering

variable {W : Nat}

def file : Numbering W → Fin W → List Entry
  | .down file => file
  | .up p => p.file

def step (s : Numbering W) (a : NumberingAct W) : Option (Numbering W) :=
  match s, a with
  | .down file, .start => some (.up (.start file))
  | .down _, .resetFiles => some (.down (fun _ => []))
  | .up p, .stop => some (.down p.file)
  | .up p, .getLogSequenceNumber w =>
      if p.drawn w = none then some (.up (p.fetchAdd w)) else none
  | .up p, .addEntry w e => match p.drawn w with
      | some c => if 0 ≤ narrowLsn c ∧ e.lsn = narrowLsn c then some (.up (p.addEntry w e)) else none
      | none => none
  | _, _ => none

def ahead : Numbering W → NumberingAct W → Bool
  | .up p, .getLogSequenceNumber _ =>
      decide (∀ v, ∀ e ∈ p.file v, e.lsn < p.counter.toNat)
  | _, _ => true

/-- The steps of the leader in which numbers are drawn from such counters only. -/
def stepAhead (s : Numbering W) (a : NumberingAct W) : Option (Numbering W) :=
  if s.ahead a then step s a else none

/-- All numbers of the logs identify their batches. -/
structure Numbered (file : Fin W → List Entry) : Prop where
  nonneg : ∀ w, ∀ e ∈ file w, 0 ≤ e.lsn
  apart : ∀ w v, w ≠ v → ∀ e ∈ file w, ∀ e' ∈ file v, e.lsn ≠ e'.lsn
  increasing : ∀ w, (file w).Pairwise (fun e e' => e.lsn < e'.lsn)

end Numbering

/-- What holds of a process that has drawn its numbers from counters ahead of the logs. -/
structure NumberingProcess.Sound {W : Nat} (p : NumberingProcess W) : Prop where
  memory : ∀ w, p.log w = Log.ofFile (p.file w)
  numbered : Numbering.Numbered p.file
  below : ∀ w c, p.drawn w = some c → c.toNat < p.counter.toNat
  apart : ∀ w v c, p.drawn w = some c → p.drawn v = some c → w = v
  own : ∀ w c, p.drawn w = some c → ∀ e ∈ p.file w, e.lsn < c.toNat
  unused : ∀ w v c, p.drawn w = some c → ∀ e ∈ p.file v, e.lsn ≠ c.toNat
  counted : p.counter.toNat ≤ 2 ^ 31 + p.stuck.card

namespace NumberingProcess

variable {W : Nat} {p : NumberingProcess W}

private theorem mem_stuck {w : Fin W} : w ∈ p.stuck ↔ ∃ c, p.drawn w = some c ∧ 2 ^ 31 ≤ c.toNat := by
  simp [stuck, Option.any_eq_true]

private theorem stuck_le (p : NumberingProcess W) : p.stuck.card ≤ W := by
  simpa using Finset.card_le_univ p.stuck

private theorem start_sound {file : Fin W → List Entry} (numbered : Numbering.Numbered file) :
    (start file).Sound where
  memory := fun _ => rfl
  numbered := numbered
  below := by simp [start]
  apart := by simp [start]
  own := by simp [start]
  unused := by simp [start]
  counted := by simp [start]

private theorem counter_fetchAdd (few : W ≤ 2 ^ 31) (sound : p.Sound) (w : Fin W) :
    (p.fetchAdd w).counter.toNat = p.counter.toNat + 1 := by
  have bound := p.stuck_le
  have counted := sound.counted
  have one : (1 : BitVec 64).toNat = 1 := rfl
  rw [fetchAdd, BitVec.toNat_add, one, Nat.mod_eq_of_lt (by omega)]

private theorem fetchAdd_sound (few : W ≤ 2 ^ 31) (sound : p.Sound) {w : Fin W}
    (idle : p.drawn w = none)
    (ahead : ∀ v, ∀ e ∈ p.file v, e.lsn < p.counter.toNat) : (p.fetchAdd w).Sound := by
  have counted := sound.counted
  have counter := counter_fetchAdd few sound w
  -- a number is the one just drawn, or one that was drawn before
  have drawn : ∀ v c, (p.fetchAdd w).drawn v = some c →
      (v = w ∧ c = p.counter) ∨ (v ≠ w ∧ p.drawn v = some c) := by
    intro v c has
    by_cases eq : v = w
    · subst eq
      exact .inl ⟨rfl, by simpa [fetchAdd] using has.symm⟩
    · exact .inr ⟨eq, by simpa [fetchAdd, eq] using has⟩
  refine ⟨sound.memory, sound.numbered, ?_, ?_, ?_, ?_, ?_⟩
  · intro v c has
    rw [counter]
    rcases drawn v c has with ⟨-, rfl⟩ | ⟨-, old⟩
    · exact Nat.lt_succ_self _
    · exact Nat.lt_succ_of_lt (sound.below v c old)
  · intro v u c has has'
    rcases drawn v c has with ⟨rfl, rfl⟩ | ⟨-, old⟩ <;>
      rcases drawn u _ has' with ⟨rfl, same⟩ | ⟨-, old'⟩
    · rfl
    · exact absurd (sound.below u _ old') (lt_irrefl _)
    · rw [same] at old
      exact absurd (sound.below v _ old) (lt_irrefl _)
    · exact sound.apart v u c old old'
  · intro v c has e entry
    rcases drawn v c has with ⟨rfl, rfl⟩ | ⟨-, old⟩
    · exact ahead v e entry
    · exact sound.own v c old e entry
  · intro v u c has e entry
    rcases drawn v c has with ⟨-, rfl⟩ | ⟨-, old⟩
    · exact (ahead u e entry).ne
    · exact sound.unused v u c old e entry
  · have other : ∀ v, v ∈ p.stuck → v ∈ (p.fetchAdd w).stuck := by
      intro v member
      obtain ⟨c, has, large⟩ := mem_stuck.mp member
      have apart : v ≠ w := by
        rintro rfl
        simp [idle] at has
      exact mem_stuck.mpr ⟨c, by simpa [fetchAdd, apart] using has, large⟩
    by_cases large : 2 ^ 31 ≤ p.counter.toNat
    · have absent : w ∉ p.stuck := fun member => by
        obtain ⟨c, has, -⟩ := mem_stuck.mp member
        simp [idle] at has
      have grown : insert w p.stuck ⊆ (p.fetchAdd w).stuck := by
        intro v member
        rcases Finset.mem_insert.mp member with rfl | old
        · exact mem_stuck.mpr ⟨p.counter, by simp [fetchAdd], large⟩
        · exact other v old
      have more := Finset.card_le_card grown
      rw [Finset.card_insert_of_notMem absent] at more
      omega
    · omega

private theorem lsn_drawn (few : W ≤ 2 ^ 31) (sound : p.Sound) {w : Fin W} {c : BitVec 64} {e : Entry}
    (has : p.drawn w = some c) (ok : 0 ≤ narrowLsn c) (number : e.lsn = narrowLsn c) :
    e.lsn = c.toNat := by
  have bound := p.stuck_le
  have counted := sound.counted
  have below := sound.below w c has
  exact number.trans (@narrowLsn_of_nonneg c (by omega) ok).1

theorem file_addEntry (p : NumberingProcess W) (w v : Fin W) (e : Entry) :
    (p.addEntry w e).file v = p.file v ++ (if v = w then [e] else []) := by
  by_cases eq : v = w
  · subst eq
    simp [file, addEntry]
  · simp [file, addEntry, eq]

private theorem mem_addEntry {w v : Fin W} {e e' : Entry} (entry : e' ∈ (p.addEntry w e).file v) :
    e' ∈ p.file v ∨ (v = w ∧ e' = e) := by
  rw [file_addEntry] at entry
  rcases List.mem_append.mp entry with old | last
  · exact .inl old
  · by_cases eq : v = w
    · rw [if_pos eq] at last
      exact .inr ⟨eq, List.mem_singleton.mp last⟩
    · simp [eq] at last

-- the entry has a number that no file holds, and that is greater than those in its own file
private theorem numbered_addEntry (few : W ≤ 2 ^ 31) (sound : p.Sound) {w : Fin W} {c : BitVec 64}
    {e : Entry}
    (has : p.drawn w = some c) (ok : 0 ≤ narrowLsn c) (number : e.lsn = narrowLsn c) :
    Numbering.Numbered (p.addEntry w e).file := by
  have lsn := lsn_drawn few sound has ok number
  refine ⟨?_, ?_, ?_⟩
  · intro v e' entry
    rcases mem_addEntry entry with old | ⟨-, rfl⟩
    · exact sound.numbered.nonneg v e' old
    · omega
  · intro v u apart e' entry e'' entry'
    rcases mem_addEntry entry with old | ⟨rfl, rfl⟩ <;>
      rcases mem_addEntry entry' with old' | ⟨rfl, rfl⟩
    · exact sound.numbered.apart v u apart e' old e'' old'
    · rw [lsn]
      exact sound.unused u v c has e' old
    · rw [lsn]
      exact (sound.unused v u c has e'' old').symm
    · exact absurd rfl apart
  · intro v
    rw [file_addEntry]
    by_cases eq : v = w
    · subst eq
      rw [if_pos rfl, List.pairwise_append]
      refine ⟨sound.numbered.increasing v, List.pairwise_singleton _ _, ?_⟩
      intro e' old e'' last
      obtain rfl := List.mem_singleton.mp last
      rw [lsn]
      exact sound.own v c has e' old
    · rw [if_neg eq, List.append_nil]
      exact sound.numbered.increasing v

private theorem drawn_addEntry {w v : Fin W} {e : Entry} {d : BitVec 64}
    (has : (p.addEntry w e).drawn v = some d) : v ≠ w ∧ p.drawn v = some d := by
  by_cases eq : v = w
  · simp [addEntry, eq] at has
  · exact ⟨eq, by simpa [addEntry, eq] using has⟩

private theorem stuck_addEntry {w : Fin W} {c : BitVec 64} {e : Entry} (has : p.drawn w = some c)
    (small : c.toNat < 2 ^ 31) : p.stuck ⊆ (p.addEntry w e).stuck := by
  intro v member
  obtain ⟨d, has', large⟩ := mem_stuck.mp member
  have apart : v ≠ w := by
    rintro rfl
    rw [has] at has'
    obtain rfl := Option.some.inj has'
    omega
  exact mem_stuck.mpr ⟨d, by simpa [addEntry, apart] using has', large⟩

private theorem addEntry_sound (few : W ≤ 2 ^ 31) (sound : p.Sound) {w : Fin W} {c : BitVec 64}
    {e : Entry}
    (has : p.drawn w = some c) (ok : 0 ≤ narrowLsn c) (number : e.lsn = narrowLsn c) :
    (p.addEntry w e).Sound := by
  have counted := sound.counted
  have lsn := lsn_drawn few sound has ok number
  have small := (@narrowLsn_of_nonneg c (by
    have bound := p.stuck_le
    have below := sound.below w c has
    omega) ok).2
  -- a number that another worker has drawn is another number
  have other : ∀ v d, v ≠ w → p.drawn v = some d → d.toNat ≠ c.toNat := by
    intro v d apart has' same
    obtain rfl : d = c := BitVec.eq_of_toNat_eq same
    exact apart (sound.apart v w d has' has)
  refine ⟨?_, numbered_addEntry few sound has ok number, ?_, ?_, ?_, ?_, ?_⟩
  · intro v
    have old := sound.memory v
    by_cases eq : v = w
    · subst eq
      simp only [addEntry, NumberingProcess.file, Function.update_self]
      rw [old]
      rfl
    · simpa [addEntry, NumberingProcess.file, eq] using old
  · intro v d has'
    exact sound.below v d (drawn_addEntry has').2
  · intro v u d has' has''
    exact sound.apart v u d (drawn_addEntry has').2 (drawn_addEntry has'').2
  · intro v d has' e' entry
    obtain ⟨apart, old⟩ := drawn_addEntry has'
    rcases mem_addEntry entry with before | ⟨rfl, -⟩
    · exact sound.own v d old e' before
    · exact absurd rfl apart
  · intro v u d has' e' entry
    obtain ⟨apart, old⟩ := drawn_addEntry has'
    rcases mem_addEntry entry with before | ⟨-, rfl⟩
    · exact sound.unused v u d old e' before
    · rw [lsn]
      exact fun same => other v d apart old (by omega)
  · have more := Finset.card_le_card (stuck_addEntry (e := e) has small)
    have counter : (p.addEntry w e).counter = p.counter := rfl
    rw [counter]
    omega

end NumberingProcess

namespace Numbering

variable {W : Nat} {s s' : Numbering W} {tr : List (NumberingAct W)}

def Sound : Numbering W → Prop
  | .down file => Numbered file
  | .up p => p.Sound

theorem sound_step (few : W ≤ 2 ^ 31) {a : NumberingAct W} (sound : s.Sound)
    (taken : stepAhead s a = some s') : s'.Sound := by
  simp only [stepAhead, Option.ite_none_right_eq_some] at taken
  obtain ⟨first, moved⟩ := taken
  cases s with
  | down file =>
    cases a with
    | start =>
      obtain rfl := Option.some.inj moved
      exact NumberingProcess.start_sound sound
    | resetFiles =>
      obtain rfl := Option.some.inj moved
      exact ⟨by simp, by simp, by simp⟩
    | _ => simp [step] at moved
  | up p =>
    cases a with
    | stop =>
      obtain rfl := Option.some.inj moved
      exact NumberingProcess.Sound.numbered sound
    | getLogSequenceNumber w =>
      simp only [step, Option.ite_none_right_eq_some, Option.some.injEq] at moved
      obtain ⟨idle, rfl⟩ := moved
      exact NumberingProcess.fetchAdd_sound few sound idle (of_decide_eq_true first)
    | addEntry w e =>
      cases has : p.drawn w with
      | none => simp [step, has] at moved
      | some c =>
        simp only [step, has, Option.ite_none_right_eq_some, Option.some.injEq] at moved
        obtain ⟨⟨ok, number⟩, rfl⟩ := moved
        exact NumberingProcess.addEntry_sound few sound has ok number
    | _ => simp [step] at moved

def empty : Numbering W := .down (fun _ => [])

private theorem empty_sound : (empty : Numbering W).Sound := ⟨by simp, by simp, by simp⟩

theorem sound_run (few : W ≤ 2 ^ 31) (run : Run (Steps stepAhead) empty tr s) : s.Sound :=
  run.invariant (I := fun _ s => s.Sound) empty_sound
    (fun _ _ _ _ _ sound taken => sound_step few sound taken)

/-- The steps of a leader that is started on empty log files only. -/
def stepOnEmpty (s : Numbering W) (a : NumberingAct W) : Option (Numbering W) :=
  if a = .start ∧ ¬ ∀ w, s.file w = [] then none else step s a

private theorem ahead_run (few : W ≤ 2 ^ 31) (run : Run (Steps stepOnEmpty) empty tr s) :
    Run (Steps stepAhead) empty tr s ∧
      ∀ p, s = .up p → ∀ v, ∀ e ∈ p.file v, e.lsn < p.counter.toNat := by
  refine run.invariant (I := fun tr s => Run (Steps stepAhead) empty tr s ∧
    ∀ p, s = .up p → ∀ v, ∀ e ∈ p.file v, e.lsn < p.counter.toNat) ⟨.start, by simp [empty]⟩ ?_
  clear run
  rintro tr s a s' - ⟨before, below⟩ taken
  simp only [Steps, stepOnEmpty, Option.ite_none_left_eq_some, not_and, not_not] at taken
  obtain ⟨onEmpty, moved⟩ := taken
  have first : s.ahead a = true := by
    cases s with
    | down file => rfl
    | up p =>
      cases a with
      | getLogSequenceNumber w => exact decide_eq_true (below p rfl)
      | _ => rfl
  refine ⟨.next before (by simp [Steps, stepAhead, first, moved]), ?_⟩
  have sound := sound_run few before
  rintro q rfl v e entry
  cases s with
  | down file =>
    cases a with
    | start =>
      obtain rfl : NumberingProcess.start file = q := by simpa [step] using moved
      have none := onEmpty rfl v
      simp only [Numbering.file] at none
      simp [NumberingProcess.file, NumberingProcess.start, none] at entry
    | _ => simp [step] at moved
  | up p =>
    have old := below p rfl
    cases a with
    | getLogSequenceNumber w =>
      simp only [step, Option.ite_none_right_eq_some, Option.some.injEq, Numbering.up.injEq] at moved
      obtain ⟨idle, rfl⟩ := moved
      have later := NumberingProcess.counter_fetchAdd few sound w
      have less := old v e entry
      rw [later]
      omega
    | addEntry w e' =>
      cases has : p.drawn w with
      | none => simp [step, has] at moved
      | some c =>
        simp only [step, has, Option.ite_none_right_eq_some, Option.some.injEq,
          Numbering.up.injEq] at moved
        obtain ⟨⟨ok, number⟩, rfl⟩ := moved
        have drawn := NumberingProcess.Sound.below sound w c has
        have lsn := NumberingProcess.lsn_drawn few sound has ok number
        rcases NumberingProcess.mem_addEntry entry with before | ⟨-, rfl⟩
        · exact old v e before
        · have same : (p.addEntry w e).counter = p.counter := rfl
          rw [same, lsn]
          omega
    | _ => simp [step] at moved

/-- A leader that is started on empty log files only meets the guard; and as long as numbers are drawn
from counters ahead of the logs, numbers identify batches, in memory and on disk, over all lifetimes of
the leader. -/
theorem lsn_identifies (few : W ≤ 2 ^ 31) :
    (∀ tr (s : Numbering W), Run (Steps stepOnEmpty) empty tr s → Run (Steps stepAhead) empty tr s) ∧
    ∀ tr (s : Numbering W), Run (Steps stepAhead) empty tr s →
      Numbered s.file ∧ ∀ p, s = .up p → ∀ w, (p.log w).entry = p.file w := by
  refine ⟨fun tr s run => (ahead_run few run).1, fun tr s run => ?_⟩
  have sound := sound_run few run
  cases s with
  | down file => exact ⟨sound, by simp⟩
  | up p =>
    refine ⟨NumberingProcess.Sound.numbered sound, ?_⟩
    rintro q same w
    obtain rfl : p = q := by simpa using same
    have memory := congrArg Log.entry (NumberingProcess.Sound.memory sound w)
    exact memory

section Leader

variable {N : Nat} {ν : Type} [DecidableEq ν] {cfg : Config N}
  {l₀ l l' : Leader N W ν cfg.consts} {labels : List (LeaderAct N W ν)}

def ofLeader (l : Leader N W ν cfg.consts) : Numbering W :=
  .up ⟨l.nextLsn, fun w => (l.worker w).log, fun _ => none⟩

def ofAct : LeaderAct N W ν → List (NumberingAct W)
  | .worker w (.loggingWork e) => [.getLogSequenceNumber w, .addEntry w e]
  | _ => []

private theorem answer_step {a : LeaderAct N W ν} (taken : Leader.step cfg l a = some l') :
    Run (Steps stepOnEmpty) (ofLeader l) (ofAct a) (ofLeader l') := by
  have logs := Leader.log_step taken
  rcases Leader.next_lsn taken with ⟨none, counter⟩ | ⟨w, e, label, nonneg, number, next⟩
  · have quiet : ofAct a = [] := by
      cases a with
      | worker w b => cases b <;> simp [LeaderAct.entry?, WorkerAct.entry?] at none <;> rfl
      | _ => rfl
    have same : ofLeader l' = ofLeader l := by
      simp only [ofLeader, counter, logs, LeaderAct.entryAt, none, Option.elim_none,
        Option.bind_none]
    rw [quiet, same]
    exact .start
  · obtain rfl := LeaderAct.eq_loggingWork label
    have done : exec stepOnEmpty (ofLeader l)
        (ofAct (LeaderAct.worker w (WorkerAct.loggingWork e) : LeaderAct N W ν)) =
        some (.up ⟨l.nextLsn + 1, Function.update (fun w => (l.worker w).log) w
          ((l.worker w).log.addEntry e), fun _ => none⟩) := by
      simp [exec, ofAct, ofLeader, stepOnEmpty, step, NumberingProcess.fetchAdd,
        NumberingProcess.addEntry, ← number, nonneg]
    have same : (fun v => (l'.worker v).log) =
        Function.update (fun w => (l.worker w).log) w ((l.worker w).log.addEntry e) := by
      funext v
      rw [logs v, LeaderAct.entryAt, label]
      by_cases eq : v = w
      · subst eq
        simp
      · simp [eq, Ne.symm eq]
    have final := Lib.exec_run done
    rw [← same, ← next] at final
    exact final

/-- In the leader's first lifetime on empty logs, numbers identify batches. -/
theorem leader_numbered (few : W ≤ 2 ^ 31) (fresh : Leader.Fresh cfg l₀)
    (unused : ∀ w, (l₀.worker w).log.file = [])
    (run : Run (Steps (Leader.step cfg)) l₀ labels l) :
    Numbered (fun w => (l.worker w).log.file) := by
  have first : Run (Steps stepOnEmpty) empty [.start] (ofLeader l₀) := by
    have log : (fun w => (l₀.worker w).log) = fun _ => Log.ofFile [] := by
      funext w
      rw [(fresh.worker w).log, unused w]
    have state : ofLeader l₀ = .up (.start (fun _ => [])) := by
      simp only [ofLeader, log, fresh.nextLsn]
      rfl
    rw [state]
    exact .next .start (by simp [Steps, stepOnEmpty, step, empty, Numbering.file])
  have all := first.trans (run.simulate ofLeader ofAct (fun _ _ _ taken => answer_step taken))
  have sound := sound_run few (ahead_run few all).1
  exact NumberingProcess.Sound.numbered sound

end Leader

section Example

def entryOf (lsn : Int) (x : TransReq) : Entry := ⟨lsn, 1, 1, 0, [x]⟩

def firstLife : List (NumberingAct 1) :=
  [.start, .getLogSequenceNumber 0, .addEntry 0 (entryOf 0 Worker.firstXact), .stop]

theorem lsn_identifies_once :
    ∃ s, Run (Steps stepOnEmpty) (empty : Numbering 1) firstLife s ∧
      (s.file 0).Pairwise (fun e e' => e.lsn < e'.lsn) := by
  have done : (exec stepOnEmpty (empty : Numbering 1) firstLife).isSome = true := by decide
  obtain ⟨s, made⟩ := Option.isSome_iff_exists.mp done
  obtain ⟨guarded, identifies⟩ := lsn_identifies (W := 1) (by decide)
  have run := guarded _ s (Lib.exec_run made)
  exact ⟨s, Lib.exec_run made, (identifies _ s run).1.increasing 0⟩

/-- A second lifetime on the same files numbers its first batch 0 again. -/
theorem lsn_reused :
    ∃ s, Run (Steps step) (empty : Numbering 1) (firstLife ++ [.start, .getLogSequenceNumber 0,
        .addEntry 0 (entryOf 0 Worker.firstLocked)]) s ∧
      s.file 0 = [entryOf 0 Worker.firstXact, entryOf 0 Worker.firstLocked] := by
  have done : (exec step (empty : Numbering 1) (firstLife ++ [.start, .getLogSequenceNumber 0,
      .addEntry 0 (entryOf 0 Worker.firstLocked)])).map (fun s => decide (s.file 0 =
        [entryOf 0 Worker.firstXact, entryOf 0 Worker.firstLocked])) = some true := by decide
  obtain ⟨s, run, holds⟩ := exec_reaches done
  exact ⟨s, run, of_decide_eq_true holds⟩

end Example

end Numbering

end Raft2pl.Server
