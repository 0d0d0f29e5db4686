/- The order of the log is the order in which transactions lock what they share. -/

import Raft2pl.Server.Balance

set_option autoImplicit false
set_option relaxedAutoImplicit false

namespace Raft2pl.Server

open Lib (Run Steps exec exec_reaches Exclusive Move pool)
open TwoPl (KvsConst KVS CommitStage commitStep)

/-- The times of the lock calls of one worker: of the last `lockFrom` that succeeded, and of both
calls of each `transferWork` that returned true. -/
structure LockTimes where
  now : Nat
  first : Nat
  both : List (Nat × Nat)

def LockTimes.next {N W : Nat} (x : LockTimes) : Option (WorkerAct N W) → LockTimes
  | some (.lockFrom true) => ⟨x.now + 1, x.now, x.both⟩
  | some (.lockTo true) => ⟨x.now + 1, x.first, x.both ++ [(x.first, x.now)]⟩
  | _ => ⟨x.now + 1, x.first, x.both⟩

section Times

variable {N W : Nat} {ν : Type}

def lockTimes (w : Fin W) (tr : List (LeaderAct N W ν)) : LockTimes :=
  tr.foldl (fun x a => x.next (a.toWorker w)) ⟨0, 0, []⟩

@[simp] theorem lockTimes_append (w : Fin W) (tr : List (LeaderAct N W ν)) (a : LeaderAct N W ν) :
    lockTimes w (tr ++ [a]) = (lockTimes w tr).next (a.toWorker w) := by
  simp [lockTimes]

/-- When a logged transaction obtained the lock on `k`: its place among the logged transactions of
its worker is that of its `transferWork` among those that returned true. -/
def acquiredAt (tr : List (LeaderAct N W ν)) (p : Place W × TransReq) (k : CInt) : Option Nat :=
  ((lockTimes p.1.workerId tr).both[(slotsOf p.1.workerId tr).idxOf p]?).map
    (fun t => if p.2.req.fromKey = k then t.1 else t.2)

def Updated (tr : List (LeaderAct N W ν)) (p : Place W × TransReq) (k : CInt) : Prop :=
  (p.2.req.fromKey = k → p ∈ calls .indexUpdateFrom tr) ∧
    (p.2.req.toKey = k → p ∈ calls .indexUpdateTo tr)

end Times

namespace Worker

variable {N W : Nat} {cfg : Config N} {id : Fin W}

def granted (w : Worker N W) : List TransReq :=
  w.buffered ++ if w.pc = .locked then [w.xact] else []

def grants (w : Worker N W) : WorkerAct N W → List TransReq
  | .lockTo true => [w.xact]
  | _ => []

private theorem grants_step {w w' : Worker N W} {a : WorkerAct N W}
    (taken : step cfg id w a = some w') :
    (logged [a]).flatMap (fun e => e.xactSet.take e.nlog) ++ w'.granted =
      w.granted ++ w.grants a := by
  obtain ⟨ready, rfl⟩ := step_eq_some.mp taken
  cases a with
  | xactDequeue =>
    have here : w.pc = .head := ready
    have buffer : w.fetch.buffered = w.buffered := by
      unfold fetch
      split <;> rfl
    have after' : (after cfg w .xactDequeue).buffered = w.buffered := buffer
    by_cases empty : w.fetch.xact.clientId = -1 <;>
      simp [granted, grants, after', WorkerAct.entry?, here] <;> simp [after, empty]
  | lockFrom got =>
    cases got <;> simp [granted, grants, after, WorkerAct.entry?, ready.1, buffered, rewriteReq]
  | lockTo got =>
    cases got <;> simp [granted, grants, after, WorkerAct.entry?, ready.1, buffered]
  | copyToBuffer =>
    have here : w.pc = .locked := ready
    simp [granted, grants, after, WorkerAct.entry?, here, buffered]
  | flushTest timeOut =>
    have here : w.pc = .flushTest := ready
    cases due : w.flushDue timeOut <;>
      simp [granted, grants, after, due, WorkerAct.entry?, here, buffered]
  | loggingWork e =>
    obtain ⟨here, -, content⟩ := ready
    rw [content]
    simp [granted, grants, after, WorkerAct.entry?, here, buffered, leaderEntry]
  | xactEnqueue | taskLoad | setCommitIndex =>
    simp [granted, grants, after, WorkerAct.entry?, buffered]
    rfl
  | unlockFrom | sendRPC | taskStore =>
    simp [granted, grants, after, WorkerAct.entry?, ready.1, buffered]

theorem hand_step {w w' : Worker N W} {a : WorkerAct N W} (taken : step cfg id w a = some w')
    (other : a ≠ .lockFrom true) (here : w'.pc = .lockTo) :
    w.pc = .lockTo ∧ w'.xact = w.xact := by
  obtain ⟨ready, rfl⟩ := step_eq_some.mp taken
  cases a with
  | xactDequeue => by_cases empty : w.fetch.xact.clientId = -1 <;> simp [after, empty] at here
  | lockFrom got =>
    cases got
    · simp [after] at here
    · exact absurd rfl other
  | lockTo got => cases got <;> simp [after] at here
  | flushTest timeOut => cases due : w.flushDue timeOut <;> simp [after, due] at here
  | xactEnqueue | taskLoad | setCommitIndex | sendRPC => exact ⟨here, rfl⟩
  | _ => simp [after] at here

end Worker

namespace Leader

variable {N W : Nat} {ν : Type} [DecidableEq ν] {cfg : Config N}
  {s₀ s s' : Leader N W ν cfg.consts} {tr : List (LeaderAct N W ν)}

def requests (w : Fin W) (tr : List (LeaderAct N W ν)) (s : Leader N W ν cfg.consts) :
    List TransReq :=
  (slotsOf w tr).map Prod.snd ++ (s.worker w).granted

omit [DecidableEq ν] in
private theorem slotsOf_append (w : Fin W) (tr : List (LeaderAct N W ν)) (a : LeaderAct N W ν) :
    slotsOf w (tr ++ [a]) = slotsOf w tr ++ (a.entryAt w).toList.flatMap (Entry.slots w) := by
  have more : logged (ofWorker w (tr ++ [a])) = logged (ofWorker w tr) ++ (a.entryAt w).toList := by
    rw [← toWorker_entry]
    cases mine : a.toWorker w <;> simp [ofWorker, mine]
  rw [slotsOf, more, List.flatMap_append, slotsOf]

private theorem requests_step {a : LeaderAct N W ν} (taken : step cfg s a = some s') (w : Fin W) :
    requests w (tr ++ [a]) s' =
      requests w tr s ++ (a.toWorker w).elim [] (s.worker w).grants := by
  obtain ⟨frame, moved⟩ := worker_step taken w
  have new : ((a.entryAt w).toList.flatMap (Entry.slots w)).map Prod.snd =
      (a.entryAt w).toList.flatMap (fun e => e.xactSet.take e.nlog) := by
    rw [List.map_flatMap]
    exact List.flatMap_congr (fun e _ => slots_snd _ _ _)
  rw [requests, slotsOf_append, List.map_append, new, List.append_assoc, requests,
    List.append_assoc, ← toWorker_entry]
  congr 1
  cases mine : a.toWorker w with
  | none => simp [frame mine]
  | some b =>
    have granted := Worker.grants_step (moved b mine)
    rw [logged_one] at granted
    exact granted

/-- A lock on `k` that was obtained at a time: by the `n`-th request that got both keys at worker
`w`, or by the request that has only the first one yet. -/
inductive Acquired (tr : List (LeaderAct N W ν)) (s : Leader N W ν cfg.consts) (w : Fin W) (n : Nat)
    (k : CInt) : Nat → Prop
  | fromKey {x : TransReq} {i j : Nat} : (requests w tr s)[n]? = some x →
      (lockTimes w tr).both[n]? = some (i, j) → x.req.fromKey = k → Acquired tr s w n k i
  | toKey {x : TransReq} {i j : Nat} : (requests w tr s)[n]? = some x →
      (lockTimes w tr).both[n]? = some (i, j) → x.req.toKey = k → Acquired tr s w n k j
  | hand : n = (requests w tr s).length → (s.worker w).pc = .lockTo →
      (s.worker w).xact.req.fromKey = k → Acquired tr s w n k (lockTimes w tr).first

private theorem lock_free {w : Fin W} {a : WorkerAct N W}
    (taken : step cfg s (.worker w a) = some s') :
    (a = .lockFrom true → s.kvs.mutex (s.worker w).xact.req.sorted.fromKey = false) ∧
      (a = .lockTo true → s.kvs.mutex (s.worker w).xact.req.toKey = false) := by
  obtain ⟨-, w', kvs', nextLsn', -, called, -, -⟩ := workerStep_some taken
  have free : ∀ k, (s.kvs.lock k >>= fun r => if r.1 = true then some r.2 else none) = some kvs' →
      s.kvs.mutex k = false := by
    intro k locked
    simp only [Option.bind_eq_bind, Option.bind_eq_some_iff, Option.ite_none_right_eq_some,
      Option.some.injEq] at locked
    obtain ⟨⟨ok, kvs₁⟩, taken, rfl, -⟩ := locked
    obtain ⟨-, result, -⟩ := KVS.lock_eq_some.mp taken
    simpa using result
  constructor
  · rintro rfl
    exact free _ called
  · rintro rfl
    exact free _ called

omit [DecidableEq ν] in
private theorem eq_worker_of_lock {a : LeaderAct N W ν} {w : Fin W} {b : WorkerAct N W}
    (mine : a.toWorker w = some b) (lock : b = .lockFrom true ∨ b = .lockTo true) :
    a = .worker w b := by
  cases a with
  | acceptClient => cases mine
  | worker v c =>
    simp only [LeaderAct.toWorker, Option.ite_none_right_eq_some, Option.some.injEq] at mine
    obtain ⟨⟨rfl, -⟩, rfl⟩ := mine
    rfl
  | notifier n c =>
    cases c <;> simp only [LeaderAct.toWorker, reduceCtorEq, Option.ite_none_right_eq_some,
      Option.some.injEq] at mine
    all_goals
      obtain ⟨-, rfl⟩ := mine
      simp at lock

omit [DecidableEq ν] in
private theorem acquired_frame {tr' : List (LeaderAct N W ν)} {w : Fin W} {n : Nat} {k : CInt}
    {t : Nat}
    (asked : requests w tr' s' = requests w tr s)
    (times : (lockTimes w tr').both = (lockTimes w tr).both) (here : Acquired tr' s' w n k t) :
    Acquired tr s w n k t ∨ (t = (lockTimes w tr').first ∧ n = (requests w tr s).length ∧
      (s'.worker w).pc = .lockTo ∧ (s'.worker w).xact.req.fromKey = k) := by
  cases here with
  | fromKey request both key =>
    rw [asked] at request
    rw [times] at both
    exact .inl (.fromKey request both key)
  | toKey request both key =>
    rw [asked] at request
    rw [times] at both
    exact .inl (.toKey request both key)
  | hand last pc key =>
    rw [asked] at last
    exact .inr ⟨rfl, last, pc, key⟩

omit [DecidableEq ν] in
private theorem acquired_grant {tr' : List (LeaderAct N W ν)} {w : Fin W} {n : Nat} {k : CInt}
    {t : Nat}
    (synced : (lockTimes w tr).both.length = (requests w tr s).length)
    (asked : requests w tr' s' = requests w tr s ++ [(s.worker w).xact])
    (times : (lockTimes w tr').both =
      (lockTimes w tr).both ++ [((lockTimes w tr).first, (lockTimes w tr).now)])
    (before : (s.worker w).pc = .lockTo) (after : (s'.worker w).pc ≠ .lockTo)
    (here : Acquired tr' s' w n k t) :
    Acquired tr s w n k t ∨ (t = (lockTimes w tr).now ∧ n = (requests w tr s).length ∧
      (s.worker w).xact.req.toKey = k) := by
  have last : ∀ {x i j}, (requests w tr' s')[n]? = some x →
      (lockTimes w tr').both[n]? = some (i, j) →
      (requests w tr s)[n]? = some x ∧ (lockTimes w tr).both[n]? = some (i, j) ∨
        n = (requests w tr s).length ∧ x = (s.worker w).xact ∧
          i = (lockTimes w tr).first ∧ j = (lockTimes w tr).now := by
    intro x i j request pair
    rw [asked] at request
    rw [times] at pair
    rcases Nat.lt_trichotomy n (requests w tr s).length with low | rfl | high
    · rw [List.getElem?_append_left low] at request
      rw [List.getElem?_append_left (synced ▸ low)] at pair
      exact .inl ⟨request, pair⟩
    · rw [List.getElem?_concat_length] at request
      rw [← synced, List.getElem?_concat_length] at pair
      obtain ⟨rfl, rfl⟩ := Prod.mk.inj (Option.some.inj pair)
      exact .inr ⟨rfl, (Option.some.inj request).symm, rfl, rfl⟩
    · rw [List.getElem?_eq_none (by rw [List.length_append]; exact high)] at request
      cases request
  cases here with
  | fromKey request pair key =>
    rcases last request pair with ⟨request, pair⟩ | ⟨latest, rfl, rfl, -⟩
    · exact .inl (.fromKey request pair key)
    · exact .inl (.hand latest before key)
  | toKey request pair key =>
    rcases last request pair with ⟨request, pair⟩ | ⟨latest, rfl, -, rfl⟩
    · exact .inl (.toKey request pair key)
    · exact .inr ⟨rfl, latest, key⟩
  | hand _ pc _ => exact absurd pc after

private theorem acquired_step {a : LeaderAct N W ν} (taken : step cfg s a = some s') {w : Fin W}
    {n : Nat}
    {k : CInt} {t : Nat} (synced : (lockTimes w tr).both.length = (requests w tr s).length)
    (here : Acquired (tr ++ [a]) s' w n k t) :
    Acquired tr s w n k t ∨ (t = (lockTimes w tr).now ∧ s.kvs.mutex k = false ∧
      n = (requests w tr s).length ∧ ∃ b, a = .worker w b ∧ b.entry? = none) := by
  obtain ⟨frame, moved⟩ := worker_step taken w
  have asked : requests w (tr ++ [a]) s' = _ := requests_step taken w
  have times : lockTimes w (tr ++ [a]) = (lockTimes w tr).next (a.toWorker w) :=
    lockTimes_append w tr a
  cases mine : a.toWorker w with
  | none =>
    rw [mine] at asked times
    have both : (lockTimes w (tr ++ [a])).both = (lockTimes w tr).both := by rw [times]; rfl
    have first : (lockTimes w (tr ++ [a])).first = (lockTimes w tr).first := by rw [times]; rfl
    rcases acquired_frame (by simpa using asked) both here with old | ⟨rfl, last, pc, key⟩
    · exact .inl old
    · rw [frame mine] at pc key
      rw [first]
      exact .inl (.hand last pc key)
  | some b =>
    rw [mine] at asked times
    have called := moved b mine
    obtain ⟨ready, after⟩ := Worker.step_eq_some.mp called
    by_cases lockTo : b = .lockTo true
    · subst lockTo
      obtain rfl := eq_worker_of_lock mine (.inr rfl)
      have left : (s'.worker w).pc ≠ .lockTo := by simp [after, Worker.after]
      rcases acquired_grant synced asked (by rw [times]; rfl) ready.1 left here with
        old | ⟨now, last, key⟩
      · exact .inl old
      · exact .inr ⟨now, key ▸ (lock_free taken).2 rfl, last, _, rfl, rfl⟩
    · have nothing : (s.worker w).grants b = [] := by
        cases b with
        | lockTo got => cases got <;> simp [Worker.grants] at lockTo ⊢
        | _ => rfl
      have both : (lockTimes w (tr ++ [a])).both = (lockTimes w tr).both := by
        rw [times]
        cases b with
        | lockFrom got => cases got <;> rfl
        | lockTo got => cases got <;> simp [LockTimes.next] at lockTo ⊢
        | _ => rfl
      rcases acquired_frame (by simpa [nothing] using asked) both here with
        old | ⟨rfl, last, pc, key⟩
      · exact .inl old
      · by_cases lockFrom : b = .lockFrom true
        · subst lockFrom
          obtain rfl := eq_worker_of_lock mine (.inl rfl)
          rw [after] at key
          exact .inr ⟨by rw [times]; rfl, key ▸ (lock_free taken).1 rfl, last, _, rfl, rfl⟩
        · have first : (lockTimes w (tr ++ [a])).first = (lockTimes w tr).first := by
            rw [times]
            cases b with
            | lockFrom got => cases got <;> simp [LockTimes.next] at lockFrom ⊢
            | lockTo got => cases got <;> simp [LockTimes.next] at lockTo ⊢
            | _ => rfl
          obtain ⟨before, same⟩ := Worker.hand_step called lockFrom pc
          rw [same] at key
          rw [first]
          exact .inl (.hand last before key)

omit [DecidableEq ν] in
private theorem now_lockTimes (w : Fin W) (tr : List (LeaderAct N W ν)) :
    (lockTimes w tr).now = tr.length := by
  induction tr using List.reverseRecOn with
  | nil => rfl
  | append_singleton tr a ih =>
    rw [lockTimes_append, List.length_append, List.length_singleton, ← ih]
    cases a.toWorker w with
    | none => rfl
    | some b =>
      cases b with
      | lockFrom got => cases got <;> rfl
      | lockTo got => cases got <;> rfl
      | _ => rfl

private theorem times_synced (fresh : Fresh cfg s₀) (run : Run (Steps (step cfg)) s₀ tr s)
    (w : Fin W) :
    (lockTimes w tr).both.length = (requests w tr s).length := by
  refine run.invariant (I := fun tr s => (lockTimes w tr).both.length =
    (requests w tr s).length) ?_ ?_
  · simp [lockTimes, requests, slotsOf, logged, ofWorker, Worker.granted, Worker.buffered,
      (fresh.worker w).pc, (fresh.worker w).buffid]
  · intro tr s a s' _ inv taken
    rw [lockTimes_append, requests_step taken, List.length_append, ← inv]
    cases a.toWorker w with
    | none => rfl
    | some b =>
      cases b with
      | lockFrom got => cases got <;> rfl
      | lockTo got => cases got <;> simp [LockTimes.next, Worker.grants]
      | _ => rfl

section Free

variable [Fintype ν]

omit [DecidableEq ν] [Fintype ν] in
private theorem owned_of_granted {w : Fin W} {x : TransReq} {k : CInt}
    (member : x ∈ (s.worker w).granted)
    (key : k ∈ x.req.keys) : k ∈ s.owned (.inl w) := by
  simp only [owned, Worker.owned, Multiset.mem_add, Multiset.mem_coe]
  rcases List.mem_append.mp member with buffered | hand
  · exact .inl (.inl (.inr (List.mem_flatMap.mpr ⟨x, buffered, key⟩)))
  · by_cases here : (s.worker w).pc = .locked
    · rw [if_pos here] at hand
      obtain rfl := List.mem_singleton.mp hand
      exact .inl (.inl (.inl (by simpa [Worker.handKeys, here] using key)))
    · rw [if_neg here] at hand
      cases hand

omit [DecidableEq ν] in
private theorem logged_of_free (ex : Exclusive s.owned s.kvs.mutex) {w : Fin W} {n : Nat} {k : CInt}
    {t : Nat} (free : s.kvs.mutex k = false) (here : Acquired tr s w n k t) :
    ∃ p, (slotsOf w tr)[n]? = some p ∧ k ∈ p.2.req.keys := by
  have unowned : k ∉ s.owned (.inl w) := by
    intro mine
    rw [ex.held_of_mem mine] at free
    cases free
  have slot : ∀ x, (requests w tr s)[n]? = some x → k ∈ x.req.keys →
      ∃ p, (slotsOf w tr)[n]? = some p ∧ k ∈ p.2.req.keys := by
    intro x request key
    by_cases low : n < (slotsOf w tr).length
    · rw [requests, List.getElem?_append_left (by simpa using low), List.getElem?_map,
        Option.map_eq_some_iff] at request
      obtain ⟨p, here, rfl⟩ := request
      exact ⟨p, here, key⟩
    · rw [requests, List.getElem?_append_right (by simpa using low)] at request
      exact absurd (owned_of_granted (List.mem_of_getElem? request) key) unowned
  cases here with
  | fromKey request _ key => exact slot _ request (by simp [ClientRequest.keys, key])
  | toKey request _ key => exact slot _ request (by simp [ClientRequest.keys, key])
  | hand _ pc key =>
    refine absurd ?_ unowned
    simp [owned, Worker.owned, Worker.handKeys, pc, key]

omit [DecidableEq ν] [Fintype ν] in
private theorem owned_of_todo {n : ν} {op : CommitOp} (inside : op.rank ≤ 4) {p : Place W × TransReq}
    (member : p ∈ (s.notifier n).todo op) {k : CInt} (key : k ∈ p.2.req.keys) :
    k ∈ s.owned (.inr n) := by
  obtain ⟨⟨op', q⟩, work, rank⟩ := List.mem_filterMap.mp member
  simp only [Option.ite_none_right_eq_some, Option.some.injEq] at rank
  obtain ⟨low, rfl⟩ := rank
  refine Multiset.mem_coe.mpr (List.mem_flatMap.mpr ⟨_, work, ?_⟩)
  have early : op'.rank ≤ 4 := Nat.le_trans low inside
  have all : op'.keysLeft q.2.req = q.2.req.keys := by
    cases op' <;> first | rfl | simp [CommitOp.rank] at early
  rw [all]
  exact key

/-- The calls for a logged transaction that come before its unlocking have all been made, if one
of its keys is free. -/
theorem called_of_free (fresh : Fresh cfg s₀) (run : Run (Steps (step cfg)) s₀ tr s) {k : CInt}
    (free : s.kvs.mutex k = false) {p : Place W × TransReq} (logged : p ∈ loggedSlots tr)
    (key : k ∈ p.2.req.keys) {op : CommitOp} (inside : op.rank ≤ 4) : p ∈ calls op tr := by
  have ex := exclusive_run fresh run
  have unowned : ∀ i, k ∉ s.owned i := by
    intro i mine
    rw [ex.held_of_mem mine] at free
    cases free
  have account : p ∈ (loggedSlots tr : Multiset (Place W × TransReq)) := logged
  rw [← accounting fresh (moves_run run) op, Multiset.mem_add, Multiset.mem_add, Multiset.mem_sum,
    Multiset.mem_sum] at account
  rcases account with (made | ⟨n, -, todo⟩) | ⟨w, -, waiting⟩
  · exact made
  · exact absurd (owned_of_todo inside todo key) (unowned (.inr n))
  · refine absurd ?_ (unowned (.inl w))
    obtain ⟨t, task, slot⟩ := List.mem_flatMap.mp (Multiset.mem_coe.mp waiting)
    have keys : ∀ ts : List (Task W), t ∈ ts → k ∈ Worker.taskKeys w ts := fun ts member =>
      List.mem_flatMap.mpr ⟨t, member, List.mem_flatMap.mpr ⟨p, slot, key⟩⟩
    simp only [owned, Worker.owned, Multiset.mem_add, Multiset.mem_coe]
    rcases List.mem_append.mp task with unstored | stored
    · exact .inl (.inr (keys _ unstored))
    · exact .inr (keys _ stored)

end Free

private theorem lsn_lt_next (fresh : Fresh cfg s₀) (run : Run (Steps (step cfg)) s₀ tr s)
    {a : LeaderAct N W ν} (taken : step cfg s a = some s') {v : Fin W} {e : Entry}
    (label : a.entry? = some (v, e)) {p : Place W × TransReq} (logged : p ∈ loggedSlots tr) :
    p.1.lsn < e.lsn := by
  obtain ⟨numbers, small⟩ := entries_numbered fresh (moves_run run)
  obtain ⟨⟨w, f⟩, entry, slot⟩ := List.mem_flatMap.mp logged
  have earlier : f.lsn ∈ (entries tr).map (fun p => p.2.lsn) := List.mem_map_of_mem entry
  rw [numbers] at earlier
  obtain ⟨m, below, same⟩ := List.mem_map.mp earlier
  have place : p.1.lsn = f.lsn := (mem_slots.mp slot).2.1
  rcases next_lsn taken with ⟨none, -⟩ | ⟨v', e', label', nonneg, number, -⟩
  · rw [none] at label
    cases label
  · obtain ⟨rfl, rfl⟩ : v' = v ∧ e' = e := by
      rw [label'] at label
      simpa using label
    have value := (narrowLsn_of_nonneg (by omega) (number ▸ nonneg)).1
    rw [place, ← same, number, value]
    have low := List.mem_range.mp below
    exact Int.ofNat_lt.mpr low

/-- Of two requests that obtained the same lock, the earlier one was logged and made its updates
before, and is logged under a smaller number. -/
structure Ordered (tr : List (LeaderAct N W ν)) (s : Leader N W ν cfg.consts) : Prop where
  past : ∀ {w n k t}, Acquired tr s w n k t → t < tr.length
  apart : ∀ {w n v m k t}, Acquired tr s w n k t → Acquired tr s v m k t → (w, n) = (v, m)
  order : ∀ {w n v m k t t'}, Acquired tr s w n k t → Acquired tr s v m k t' → (w, n) ≠ (v, m) →
    t < t' → ∃ p, (slotsOf w tr)[n]? = some p ∧ Updated (tr.take t') p k ∧
      ∀ q, (slotsOf v tr)[m]? = some q → p.1.lsn < q.1.lsn

omit [DecidableEq ν] in
private theorem mem_loggedSlots_of_get {w : Fin W} {n : Nat} {p : Place W × TransReq}
    (here : (slotsOf w tr)[n]? = some p) : p.1.workerId = w ∧ p ∈ loggedSlots tr := by
  have member := List.mem_of_getElem? here
  obtain ⟨e, -, slot⟩ := List.mem_flatMap.mp member
  obtain rfl := (mem_slots.mp slot).1
  exact ⟨rfl, mem_loggedSlots.mpr member⟩

omit [DecidableEq ν] in
private theorem slotsOf_get_append {w : Fin W} {n : Nat} {p : Place W × TransReq}
    (here : (slotsOf w tr)[n]? = some p) (a : LeaderAct N W ν) :
    (slotsOf w (tr ++ [a]))[n]? = some p := by
  have low : n < (slotsOf w tr).length := (List.getElem?_eq_some_iff.mp here).1
  rw [slotsOf_append, List.getElem?_append_left low, here]

private theorem ordered_step [Fintype ν] (fresh : Fresh cfg s₀) (run : Run (Steps (step cfg)) s₀ tr s)
    {a : LeaderAct N W ν} (before : Ordered tr s) (taken : step cfg s a = some s') :
    Ordered (tr ++ [a]) s' := by
  have ex := exclusive_run fresh run
  have split : ∀ {w n k t}, Acquired (tr ++ [a]) s' w n k t → Acquired tr s w n k t ∨
      (t = tr.length ∧ s.kvs.mutex k = false ∧ n = (requests w tr s).length ∧
        ∃ b, a = .worker w b ∧ b.entry? = none) := by
    intro w n k t here
    rw [← now_lockTimes w tr]
    exact acquired_step taken (times_synced fresh run w) here
  have longer : (tr ++ [a]).length = tr.length + 1 := List.length_append
  refine ⟨?_, ?_, ?_⟩
  · intro w n k t here
    rcases split here with old | ⟨now, -⟩
    · have := before.past old
      omega
    · omega
  · intro w n v m k t here there
    rcases split here with old | ⟨now, -, last, b, label, -⟩ <;>
      rcases split there with old' | ⟨now', -, last', b', label', -⟩
    · exact before.apart old old'
    · have := before.past old
      omega
    · have := before.past old'
      omega
    · obtain ⟨rfl, -⟩ : w = v ∧ b = b' := by simpa using label.symm.trans label'
      rw [last, last']
  · intro w n v m k t t' here there other less
    rcases split here with old | ⟨now, -⟩
    · rcases split there with old' | ⟨now', free, last, b, rfl, quiet⟩
      · obtain ⟨p, slot, updated, smaller⟩ := before.order old old' other less
        have inside : t' ≤ tr.length := Nat.le_of_lt (before.past old')
        refine ⟨p, slotsOf_get_append slot _, ?_, fun q later => ?_⟩
        · rwa [List.take_append_of_le_length inside]
        · rw [slotsOf_append] at later
          by_cases low : m < (slotsOf v tr).length
          · rw [List.getElem?_append_left low] at later
            exact smaller q later
          · rw [List.getElem?_append_right (Nat.le_of_not_lt low)] at later
            obtain ⟨e, new, place⟩ := List.mem_flatMap.mp (List.mem_of_getElem? later)
            have entry := Option.mem_toList.mp new
            have label : a.entry? = some (v, e) := by
              obtain ⟨⟨u, f⟩, label, mine⟩ := Option.bind_eq_some_iff.mp entry
              simp only [Option.ite_none_right_eq_some, Option.some.injEq] at mine
              rw [label, mine.1, mine.2]
            rw [(mem_slots.mp place).2.1]
            exact lsn_lt_next fresh run taken label (mem_loggedSlots_of_get slot).2
      · obtain ⟨p, slot, key⟩ := logged_of_free ex free old
        have logged := (mem_loggedSlots_of_get slot).2
        have same : slotsOf v (tr ++ [.worker v b]) = slotsOf v tr := by
          rw [slotsOf_append]
          simp [LeaderAct.entryAt, LeaderAct.entry?, quiet]
        refine ⟨p, slotsOf_get_append slot _, ?_, fun q later => ?_⟩
        · rw [now', List.take_left]
          exact ⟨fun _ => called_of_free fresh run free logged key (by decide),
            fun _ => called_of_free fresh run free logged key (by decide)⟩
        · rw [same, last, requests, List.length_append, List.length_map,
            List.getElem?_eq_none (by omega)] at later
          cases later
    · rcases split there with old' | ⟨now', -⟩
      · have := before.past old'
        omega
      · omega

private theorem ordered_run [Fintype ν] (fresh : Fresh cfg s₀)
    (run : Run (Steps (step cfg)) s₀ tr s) :
    Ordered tr s := by
  refine run.invariant (I := Ordered) ?_
    (fun _ _ _ _ run before taken => ordered_step fresh run before taken)
  have none : ∀ {w n k t}, ¬ Acquired [] s₀ w n k t := by
    intro w n k t here
    cases here with
    | fromKey _ both => simp [lockTimes] at both
    | toKey _ both => simp [lockTimes] at both
    | hand _ pc => simp [(fresh.worker w).pc] at pc
  exact ⟨fun here => absurd here none, fun here => absurd here none, fun here => absurd here none⟩

private theorem acquired_acquiredAt (fresh : Fresh cfg s₀) (run : Run (Steps (step cfg)) s₀ tr s)
    {p : Place W × TransReq} (logged : p ∈ loggedSlots tr) {k : CInt} (key : k ∈ p.2.req.keys) :
    ∃ n i, (slotsOf p.1.workerId tr)[n]? = some p ∧ acquiredAt tr p k = some i ∧
      Acquired tr s p.1.workerId n k i := by
  have member := mem_loggedSlots.mp logged
  have here : (slotsOf p.1.workerId tr)[(slotsOf p.1.workerId tr).idxOf p]? = some p :=
    List.getElem?_idxOf member
  have request : (requests p.1.workerId tr s)[(slotsOf p.1.workerId tr).idxOf p]? = some p.2 := by
    have low := List.idxOf_lt_length_of_mem member
    rw [requests, List.getElem?_append_left (by simpa using low), List.getElem?_map, here]
    rfl
  have low := (List.getElem?_eq_some_iff.mp request).1
  rw [← times_synced fresh run] at low
  obtain ⟨⟨i, j⟩, both⟩ : ∃ t, (lockTimes p.1.workerId tr).both[
      (slotsOf p.1.workerId tr).idxOf p]? = some t := ⟨_, List.getElem?_eq_getElem low⟩
  refine ⟨_, if p.2.req.fromKey = k then i else j, here, by rw [acquiredAt, both]; rfl, ?_⟩
  by_cases first : p.2.req.fromKey = k
  · rw [if_pos first]
    exact .fromKey request both first
  · rw [if_neg first]
    refine .toKey request both ?_
    simpa [ClientRequest.keys, Ne.symm first, eq_comm] using key

omit [DecidableEq ν] in
theorem updated_of_take {p : Place W × TransReq} {k : CInt} {j : Nat}
    (updated : Updated (tr.take j) p k) : Updated tr p k := by
  have part : ∀ op, calls op (tr.take j) ⊆ calls op tr := fun op =>
    ((List.take_sublist j tr).filterMap _).subset
  exact ⟨fun key => part _ (updated.1 key), fun key => part _ (updated.2 key)⟩

section Order

variable [Fintype ν]

/-- `p` obtained the lock on `k` first, and had made its updates of that account when `q` obtained
it. -/
def Precedes (tr : List (LeaderAct N W ν)) (k : CInt) (p q : Place W × TransReq) : Prop :=
  ∃ i j, acquiredAt tr p k = some i ∧ acquiredAt tr q k = some j ∧ i < j ∧
    Updated (tr.take j) p k

theorem precedes_of_lsn (fresh : Fresh cfg s₀) (run : Run (Steps (step cfg)) s₀ tr s)
    {p q : Place W × TransReq} (logged : p ∈ loggedSlots tr) (logged' : q ∈ loggedSlots tr)
    (apart : p ≠ q) {k : CInt} (key : k ∈ p.2.req.keys) (key' : k ∈ q.2.req.keys) :
    p.1.lsn ≠ q.1.lsn ∧ (p.1.lsn < q.1.lsn → Precedes tr k p q) := by
  have ordered := ordered_run fresh run
  obtain ⟨n, i, here, time, acquired⟩ := acquired_acquiredAt fresh run logged key
  obtain ⟨m, j, here', time', acquired'⟩ := acquired_acquiredAt fresh run logged' key'
  have other : (p.1.workerId, n) ≠ (q.1.workerId, m) := by
    intro same
    obtain ⟨worker, index⟩ := Prod.mk.inj same
    rw [← worker, ← index, here] at here'
    exact apart (Option.some.inj here')
  rcases Nat.lt_trichotomy i j with first | rfl | second
  · obtain ⟨p', slot, updated, smaller⟩ := ordered.order acquired acquired' other first
    obtain rfl : p = p' := Option.some.inj (here.symm.trans slot)
    have less := smaller q here'
    exact ⟨ne_of_lt less, fun _ => ⟨i, j, time, time', first, updated⟩⟩
  · exact absurd (ordered.apart acquired acquired') other
  · obtain ⟨q', slot, -, smaller⟩ := ordered.order acquired' acquired other.symm second
    obtain rfl : q = q' := Option.some.inj (here'.symm.trans slot)
    have less := smaller p here
    exact ⟨ne_of_gt less, fun wrong => absurd wrong (by omega)⟩

def replay (b : CInt → CInt) (ps : List (Place W × TransReq)) : CInt → CInt :=
  (ps.map (·.2.req.move)).foldl Move.apply b

omit [DecidableEq ν] [Fintype ν] in
theorem replay_apply (b : CInt → CInt) (ps : List (Place W × TransReq)) (k : CInt) :
    replay b ps k = b k +
      ((ps.map (fun p => if p.2.req.toKey = k then p.2.req.diff else 0)).sum -
        (ps.map (fun p => if p.2.req.fromKey = k then p.2.req.diff else 0)).sum) := by
  rw [replay, Move.foldl_apply, List.map_map, delta_sum]

private theorem not_called_of_todo (fresh : Fresh cfg s₀) (run : Run (Steps (step cfg)) s₀ tr s)
    {n : ν}
    {op : CommitOp} {p : Place W × TransReq} (todo : p ∈ (s.notifier n).todo op) :
    p ∉ calls op tr ∧ p ∈ loggedSlots tr := by
  have account := accounting fresh (moves_run run) op
  have once : (loggedSlots tr : Multiset (Place W × TransReq)).Nodup :=
    (loggedSlots_nodup (lsn_nodup fresh (moves_run run))).of_map Prod.fst
  have mine : p ∈ ∑ n, ((s.notifier n).todo op : Multiset (Place W × TransReq)) :=
    Multiset.mem_sum.mpr ⟨n, Finset.mem_univ n, todo⟩
  rw [← account] at once
  have parts := Multiset.nodup_add.mp (Multiset.nodup_add.mp once).1
  refine ⟨fun made => Multiset.disjoint_left.mp parts.2.2 made mine, ?_⟩
  rw [← Multiset.mem_coe, ← account]
  exact Multiset.mem_add.mpr (.inl (Multiset.mem_add.mpr (.inr mine)))

omit [DecidableEq ν] [Fintype ν] in
theorem loggedSlots_sorted [DecidableEq ν] (fresh : Fresh cfg s₀)
    (run : Run (Steps (step cfg)) s₀ tr s) :
    (loggedSlots tr).Pairwise (fun p q => p.1.lsn ≤ q.1.lsn) := by
  have numbers := (entries_numbered fresh (moves_run run)).1
  have increasing : ((entries tr).map (fun p => p.2.lsn)).Pairwise (· < ·) := by
    rw [numbers, List.pairwise_map]
    exact List.pairwise_lt_range.imp (fun less => Int.ofNat_lt.mpr less)
  refine List.pairwise_flatMap.mpr ⟨fun p _ => ?_, ?_⟩
  · refine List.pairwise_of_forall_mem_list (fun a ha b hb => ?_)
    rw [(mem_slots.mp ha).2.1, (mem_slots.mp hb).2.1]
  · refine (List.pairwise_map.mp increasing).imp (fun {p q} less a ha b hb => ?_)
    rw [(mem_slots.mp ha).2.1, (mem_slots.mp hb).2.1]
    exact le_of_lt less

private theorem updated_iff_before (fresh : Fresh cfg s₀) (run : Run (Steps (step cfg)) s₀ tr s)
    {n : ν}
    {p : Place W × TransReq} (todoFrom : p ∈ (s.notifier n).todo .indexUpdateFrom)
    (todoTo : p ∈ (s.notifier n).todo .indexUpdateTo) {before after : List (Place W × TransReq)}
    (split : loggedSlots tr = before ++ p :: after) {k : CInt} (key : k ∈ p.2.req.keys)
    {q : Place W × TransReq} :
    (q.2.req.fromKey = k → (q ∈ calls .indexUpdateFrom tr ↔ q ∈ before)) ∧
      (q.2.req.toKey = k → (q ∈ calls .indexUpdateTo tr ↔ q ∈ before)) := by
  obtain ⟨notFrom, logged⟩ := not_called_of_todo fresh run todoFrom
  have notTo := (not_called_of_todo fresh run todoTo).1
  have once : (loggedSlots tr).Nodup :=
    (loggedSlots_nodup (lsn_nodup fresh (moves_run run))).of_map Prod.fst
  have sorted := loggedSlots_sorted fresh run
  rw [split] at once sorted
  have notUpdated : ¬ Updated tr p k := by
    intro updated
    have either : p.2.req.fromKey = k ∨ p.2.req.toKey = k := by
      simpa [ClientRequest.keys, eq_comm] using key
    rcases either with fromKey | toKey
    · exact notFrom (updated.1 fromKey)
    · exact notTo (updated.2 toKey)
  -- earlier ones have released the account, later ones have not got it
  have earlier : q ∈ before → k ∈ q.2.req.keys → Updated tr q k := by
    intro member key'
    have apart : q ≠ p := by
      rintro rfl
      exact (List.nodup_append.mp once).2.2 q member q List.mem_cons_self rfl
    have logged' : q ∈ loggedSlots tr := by simp [split, member]
    obtain ⟨ne, precedes⟩ := precedes_of_lsn fresh run logged' logged apart key' key
    have le := (List.pairwise_append.mp sorted).2.2 q member p List.mem_cons_self
    obtain ⟨-, j, -, -, -, updated⟩ := precedes (lt_of_le_of_ne le ne)
    exact updated_of_take updated
  have later : ∀ op, p ∉ calls op tr → q ∈ calls op tr → k ∈ q.2.req.keys → q ∈ before := by
    intro op open' made key'
    have logged' : q ∈ loggedSlots tr := (calls_subperm fresh (moves_run run) op).subset made
    have apart : p ≠ q := by
      rintro rfl
      exact open' made
    have place := logged'
    rw [split] at place
    rcases List.mem_append.mp place with first | second
    · exact first
    · have after' : q ∈ after := (List.mem_cons.mp second).resolve_left apart.symm
      obtain ⟨ne, precedes⟩ := precedes_of_lsn fresh run logged logged' apart key key'
      have le := (List.pairwise_cons.mp (List.pairwise_append.mp sorted).2.1).1 q after'
      obtain ⟨-, j, -, -, -, updated⟩ := precedes (lt_of_le_of_ne le ne)
      exact absurd (updated_of_take updated) notUpdated
  constructor
  · intro fromKey
    have key' : k ∈ q.2.req.keys := by simp [ClientRequest.keys, fromKey]
    exact ⟨fun made => later _ notFrom made key', fun member => (earlier member key').1 fromKey⟩
  · intro toKey
    have key' : k ∈ q.2.req.keys := by simp [ClientRequest.keys, toKey]
    exact ⟨fun made => later _ notTo made key', fun member => (earlier member key').2 toKey⟩

private theorem balance_serial (fresh : Fresh cfg s₀) (run : Run (Steps (step cfg)) s₀ tr s) {n : ν}
    {p : Place W × TransReq} (todoFrom : p ∈ (s.notifier n).todo .indexUpdateFrom)
    (todoTo : p ∈ (s.notifier n).todo .indexUpdateTo) {before after : List (Place W × TransReq)}
    (split : loggedSlots tr = before ++ p :: after) {k : CInt} (key : k ∈ p.2.req.keys) :
    s.kvs.balance k = replay s₀.kvs.balance before k := by
  have distinct := loggedSlots_nodup (lsn_nodup fresh (moves_run run))
  have once : before.Nodup := by
    have all := distinct.of_map Prod.fst
    rw [split] at all
    exact (List.nodup_append.mp all).1
  have made : ∀ op, (calls op tr).Nodup := fun op =>
    (places_nodup distinct (calls_subperm fresh (moves_run run) op)).of_map Prod.fst
  have same := fun q => updated_iff_before (q := q) fresh run todoFrom todoTo split key
  have debit : debits k tr =
      (before.map (fun q => if q.2.req.fromKey = k then q.2.req.diff else 0)).sum :=
    Lib.sum_ite_of_mem_iff (made _) once (fun q => q.2.req.fromKey = k) _ (fun q => (same q).1)
  have credit : credits k tr =
      (before.map (fun q => if q.2.req.toKey = k then q.2.req.diff else 0)).sum :=
    Lib.sum_ite_of_mem_iff (made _) once (fun q => q.2.req.toKey = k) _ (fun q => (same q).2)
  rw [(ledger_run fresh run).balance k, debit, credit, replay_apply]
  abel

omit [Fintype ν] in
private theorem reads_todo {n : ν} {op : CommitOp} {slot : Place W × TransReq}
    (reads : op = .indexReadFrom ∨ op = .indexReadTo)
    (taken : step cfg s (.notifier n (.commitWork op slot)) = some s') :
    slot ∈ (s.notifier n).todo .indexUpdateFrom ∧ slot ∈ (s.notifier n).todo .indexUpdateTo := by
  obtain ⟨rest, work, -⟩ := Notifier.work_call (notifier_taken taken) rfl
  have first : (op, slot) ∈ (s.notifier n).work := by simp [work]
  constructor
  · refine List.mem_filterMap.mpr ⟨_, first, ?_⟩
    rcases reads with rfl | rfl <;> rfl
  · refine List.mem_filterMap.mpr ⟨_, first, ?_⟩
    rcases reads with rfl | rfl <;> rfl

/-- The transactions that have returned from `commitWork`, in the order of the log. -/
def serialOrder (tr : List (LeaderAct N W ν)) : List (Place W × TransReq) :=
  (loggedSlots tr).filter (fun p => decide (p ∈ committed tr))

/-- The log is a serial order: conflicting transactions are in different batches, in the order of
their locks and updates; each transaction reads what the ones before it in the log leave; and the
committed ones, one after the other in this order, leave the store that they have left. -/
theorem log_serial (fresh : Fresh cfg s₀) (run : Run (Steps (step cfg)) s₀ tr s) :
    (∀ p ∈ loggedSlots tr, ∀ q ∈ loggedSlots tr, p ≠ q → ∀ k ∈ p.2.req.keys, k ∈ q.2.req.keys →
      p.1.lsn ≠ q.1.lsn ∧ (p.1.lsn < q.1.lsn → Precedes tr k p q)) ∧
    (∀ n slot s' before after, loggedSlots tr = before ++ slot :: after →
      (step cfg s (.notifier n (.commitWork .indexReadFrom slot)) = some s' →
        s.kvs.indexRead slot.2.req.fromKey =
          some (replay s₀.kvs.balance before slot.2.req.fromKey)) ∧
      (step cfg s (.notifier n (.commitWork .indexReadTo slot)) = some s' →
        s.kvs.indexRead slot.2.req.toKey =
          some (replay s₀.kvs.balance before slot.2.req.toKey))) ∧
    ((∀ n, (s.notifier n).idle = true) →
      ∀ k, s.kvs.balance k = replay s₀.kvs.balance (serialOrder tr) k) := by
  have read : ∀ {n op slot s' before after k}, (op = .indexReadFrom ∨ op = .indexReadTo) →
      loggedSlots tr = before ++ slot :: after → k ∈ slot.2.req.keys →
      step cfg s (.notifier n (.commitWork op slot)) = some s' →
      s.kvs.indexRead k = some (replay s₀.kvs.balance before k) := by
    intro n op slot s' before after k reads split key taken
    obtain ⟨todoFrom, todoTo⟩ := reads_todo reads taken
    have ledger := ledger_run fresh run
    have held := ledger.exclusive.held_of_mem (owned_of_todo (by decide) todoFrom key)
    rw [KVS.indexRead_eq _ (ledger.inRange k held),
      balance_serial fresh run todoFrom todoTo split key]
  refine ⟨?_, ?_, fun quiet k => ?_⟩
  · intro p logged q logged' apart k key key'
    exact precedes_of_lsn fresh run logged logged' apart key key'
  · intro n slot s' before after split
    exact ⟨read (.inl rfl) split (by simp [ClientRequest.keys]),
      read (.inr rfl) split (by simp [ClientRequest.keys])⟩
  · have distinct := loggedSlots_nodup (lsn_nodup fresh (moves_run run))
    have sub := calls_subperm fresh (moves_run run) .unlockTo
    have perm : (committed tr).Perm (serialOrder tr) := by
      refine (List.perm_ext_iff_of_nodup ((places_nodup distinct sub).of_map Prod.fst)
        ((distinct.of_map Prod.fst).filter _)).mpr (fun p => ?_)
      simp only [List.mem_filter, decide_eq_true_eq]
      exact ⟨fun done => ⟨sub.subset done, done⟩, fun both => both.2⟩
    rw [balance_committed fresh run quiet k, replay, Move.foldl_apply, Move.foldl_apply,
      (perm.map _ |>.map _).sum_eq]

end Order

section Example

def secondXact : TransReq := ⟨0, 8, ⟨1, 2, 7, 0⟩⟩

def secondSlot : Place 1 × TransReq := (⟨0, 1, 0⟩, secondXact)

def conflictTrace : List (LeaderAct 2 1 (Fin 2)) :=
  commitTrace ++ [.worker 0 (.xactEnqueue secondXact), .worker 0 .xactDequeue,
    .worker 0 (.lockFrom true), .worker 0 (.lockTo true), .worker 0 .copyToBuffer,
    .worker 0 (.flushTest true), .worker 0 (.loggingWork ⟨1, 1, 1, 0, [secondXact]⟩)]

theorem log_serial_conflict :
    ∃ s, Run (Steps (step smallConfig)) smallLeader conflictTrace s ∧
      Precedes conflictTrace 1 firstSlot secondSlot := by
  have done : (exec (step smallConfig) smallLeader conflictTrace).isSome = true := by decide
  obtain ⟨s, run⟩ := Option.isSome_iff_exists.mp done
  have pairs := (log_serial smallLeader_fresh (Lib.exec_run run)).1
  exact ⟨s, Lib.exec_run run, (pairs firstSlot (by decide) secondSlot (by decide) (by decide) 1
    (by decide) (by decide)).2 (by decide)⟩

end Example

end Leader

end Raft2pl.Server
