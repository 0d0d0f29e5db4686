/- Concurrent commits lose no update: balances are the initial ones plus all committed transfers. -/

import Raft2pl.Server.Commit
import Raft2pl.Server.Locking

set_option autoImplicit false
set_option relaxedAutoImplicit false

namespace Raft2pl.Server

open Lib (Run Steps exec exec_reaches Exclusive Move pool)
open TwoPl (KvsConst KVS CommitStage commitStep)

def databaseKeys (P : KvsConst) : Finset CInt :=
  (Finset.range P.sizDatabase).image (BitVec.ofNat 32)

theorem mem_databaseKeys {P : KvsConst} {k : CInt} : k ∈ databaseKeys P ↔ P.inRange k := by
  simp only [databaseKeys, Finset.mem_image, Finset.mem_range]
  constructor
  · rintro ⟨i, small, rfl⟩
    exact TwoPl.inRange_ofNat small
  · intro ok
    refine ⟨k.toInt.toNat, ?_, TwoPl.ofNat_toNat_of_inRange ok⟩
    have := ok.1
    have := ok.2
    omega

namespace Notifier

variable {N W : Nat}

def Values (b : CInt → CInt) : Notifier N W → Prop
  | .commit j (.indexReadTo fromVal) => ∀ x, j.xact? = some x → fromVal = b x.req.fromKey
  | .commit j (.indexUpdateFrom fromVal toVal) => ∀ x, j.xact? = some x →
      fromVal = b x.req.fromKey - x.req.diff ∧ toVal = b x.req.toKey + x.req.diff
  | .commit j (.indexUpdateTo toVal) => ∀ x, j.xact? = some x → toVal = b x.req.toKey + x.req.diff
  | _ => True

theorem mem_owned_commit {j : Job W} {stage : CommitStage} {x : TransReq} {k : CInt}
    (here : j.xact? = some x) (left : k ∈ (opOf stage).keysLeft x.req) :
    k ∈ (commit j stage : Notifier N W).owned := by
  rw [owned, Multiset.mem_coe, List.mem_flatMap]
  exact ⟨(opOf stage, j.place, x), by simp [work, Job.slots_of_xact here, attach], left⟩

private theorem values_frame {n : Notifier N W} {b b' : CInt → CInt}
    (same : ∀ k ∈ n.owned, b' k = b k)
    (values : n.Values b) : n.Values b' := by
  cases n with
  | recv | vote | load | reply => trivial
  | commit j stage =>
    have both : ∀ x, j.xact? = some x → (opOf stage).keysLeft x.req = x.req.keys →
        b' x.req.fromKey = b x.req.fromKey ∧ b' x.req.toKey = b x.req.toKey := by
      intro x here all
      constructor
      · exact same _ (mem_owned_commit here (by simp [all, ClientRequest.keys]))
      · exact same _ (mem_owned_commit here (by simp [all, ClientRequest.keys]))
    cases stage with
    | indexReadTo fromVal =>
      intro x here
      rw [(both x here rfl).1]
      exact values x here
    | indexUpdateFrom fromVal toVal =>
      intro x here
      rw [(both x here rfl).1, (both x here rfl).2]
      exact values x here
    | indexUpdateTo toVal =>
      intro x here
      rw [(both x here rfl).2]
      exact values x here
    | _ => trivial

private theorem values_loop (j : Job W) (b : CInt → CInt) : (loop j : Notifier N W).Values b := by
  unfold loop
  split <;> trivial

def idle : Notifier N W → Bool
  | .commit _ .indexReadFrom | .commit _ .returned => true
  | .commit _ _ => false
  | _ => true

private theorem rank_attach {op low : CommitOp} {ss : List (Place W × TransReq)}
    {p : CommitOp × Place W × TransReq} (member : p ∈ attach op ss)
    (outside : op.rank = 0 ∨ 6 ≤ op.rank) (inside : low.rank ≤ 5) :
    p.1.rank ≤ low.rank ↔ p.1.rank = 0 := by
  have zero : p.1.rank = 0 ∨ 6 ≤ p.1.rank := by
    cases ss with
    | nil => simp [attach] at member
    | cons slot rest =>
      simp only [attach, untouched, List.mem_cons, List.mem_map] at member
      rcases member with rfl | ⟨_, -, rfl⟩
      · exact outside
      · exact .inl rfl
  omega

private theorem todo_idle {n : Notifier N W} (quiet : n.idle = true) {op op' : CommitOp}
    (inside : op.rank ≤ 5) (inside' : op'.rank ≤ 5) : n.todo op = n.todo op' := by
  have same : ∀ p ∈ n.work, (p.1.rank ≤ op.rank ↔ p.1.rank ≤ op'.rank) := by
    intro p member
    cases n with
    | recv | vote | load => simp [work] at member
    | reply j =>
      have outside : CommitOp.sendRPC.rank = 0 ∨ 6 ≤ CommitOp.sendRPC.rank := by decide
      rw [rank_attach member outside inside, rank_attach member outside inside']
    | commit j stage =>
      have outside : (opOf stage).rank = 0 ∨ 6 ≤ (opOf stage).rank := by
        cases stage <;> simp [idle] at quiet <;> decide
      rw [rank_attach member outside inside, rank_attach member outside inside']
  unfold todo
  refine List.filterMap_congr (fun p member => ?_)
  simp only [same p member]

end Notifier

namespace Leader

variable {N W : Nat} {ν : Type} [DecidableEq ν] [Fintype ν] {cfg : Config N}
  {s₀ s s' : Leader N W ν cfg.consts} {tr : List (LeaderAct N W ν)}

def debits (k : CInt) (tr : List (LeaderAct N W ν)) : CInt :=
  ((calls .indexUpdateFrom tr).map
    (fun p => if p.2.req.fromKey = k then p.2.req.diff else 0)).sum

def credits (k : CInt) (tr : List (LeaderAct N W ν)) : CInt :=
  ((calls .indexUpdateTo tr).map (fun p => if p.2.req.toKey = k then p.2.req.diff else 0)).sum

def committed (tr : List (LeaderAct N W ν)) : List (Place W × TransReq) := calls .unlockTo tr

/-- Every write to the store is accounted for, every local value of a commit is up to date, and
only keys of the database are locked. -/
structure Ledger (b₀ : CInt → CInt) (tr : List (LeaderAct N W ν))
    (s : Leader N W ν cfg.consts) : Prop where
  exclusive : Exclusive s.owned s.kvs.mutex
  inRange : ∀ k, s.kvs.mutex k = true → cfg.consts.inRange k
  values : ∀ n, (s.notifier n).Values s.kvs.balance
  balance : ∀ k, s.kvs.balance k = b₀ k - debits k tr + credits k tr
  fromKeys : ∀ p ∈ calls .indexUpdateFrom tr, cfg.consts.inRange p.2.req.fromKey
  toKeys : ∀ p ∈ calls .indexUpdateTo tr, cfg.consts.inRange p.2.req.toKey

omit [Fintype ν] in
private theorem lockCall_store {kvs kvs' : KVS cfg.consts} {w : Worker N W} {a : WorkerAct N W}
    (called : lockCall cfg kvs w a = some kvs') (safe : ∀ k, kvs.mutex k = true →
      cfg.consts.inRange k) :
    kvs'.balance = kvs.balance ∧ ∀ k, kvs'.mutex k = true → cfg.consts.inRange k := by
  have locking : ∀ k got, (kvs.lock k >>= fun r => if r.1 = got then some r.2 else none) =
      some kvs' → kvs'.balance = kvs.balance ∧
        ∀ k, kvs'.mutex k = true → cfg.consts.inRange k := by
    intro k got locked
    simp only [Option.bind_eq_bind, Option.bind_eq_some_iff, Option.ite_none_right_eq_some,
      Option.some.injEq] at locked
    obtain ⟨⟨ok, kvs₁⟩, taken, -, rfl⟩ := locked
    obtain ⟨range, -, store⟩ := KVS.lock_eq_some.mp taken
    simp only at store ⊢
    subst store
    split
    · exact ⟨rfl, safe⟩
    · refine ⟨rfl, fun q held => ?_⟩
      by_cases eq : q = k
      · rw [eq]
        exact range
      · exact safe q (by simpa [eq] using held)
  cases a with
  | lockFrom got => exact locking _ got called
  | lockTo got => exact locking _ got called
  | unlockFrom =>
    obtain ⟨-, rfl⟩ := KVS.unlock_eq_some.mp called
    refine ⟨rfl, fun q held => safe q ?_⟩
    by_cases eq : q = w.xact.req.fromKey
    · simp [eq] at held
    · simpa [eq] using held
  | _ =>
    obtain rfl : kvs = kvs' := Option.some.inj called
    exact ⟨rfl, safe⟩

omit [DecidableEq ν] [Fintype ν] in
private theorem debits_append (a : LeaderAct N W ν) (k : CInt) : debits k (tr ++ [a]) = debits k tr +
    ((LeaderAct.byNotifier (NotifierAct.callOf? .indexUpdateFrom) a).elim 0
      (fun p => if p.2.req.fromKey = k then p.2.req.diff else 0)) := by
  rw [debits, calls_append, List.map_append, List.sum_append]
  cases LeaderAct.byNotifier (NotifierAct.callOf? .indexUpdateFrom) a <;> simp [debits]

omit [DecidableEq ν] [Fintype ν] in
private theorem credits_append (a : LeaderAct N W ν) (k : CInt) :
    credits k (tr ++ [a]) = credits k tr +
    ((LeaderAct.byNotifier (NotifierAct.callOf? .indexUpdateTo) a).elim 0
      (fun p => if p.2.req.toKey = k then p.2.req.diff else 0)) := by
  rw [credits, calls_append, List.map_append, List.sum_append]
  cases LeaderAct.byNotifier (NotifierAct.callOf? .indexUpdateTo) a <;> simp [credits]

private theorem ledger_quiet {b₀ : CInt → CInt} {a : LeaderAct N W ν} (inv : Ledger b₀ tr s)
    (taken : step cfg s a = some s') (store : s'.kvs.balance = s.kvs.balance)
    (inRange : ∀ k, s'.kvs.mutex k = true → cfg.consts.inRange k)
    (noDebit : LeaderAct.byNotifier (NotifierAct.callOf? .indexUpdateFrom) a = none)
    (noCredit : LeaderAct.byNotifier (NotifierAct.callOf? .indexUpdateTo) a = none)
    (notifiers : ∀ n, s'.notifier n = s.notifier n ∨ (s'.notifier n).Values s.kvs.balance) :
    Ledger b₀ (tr ++ [a]) s' where
  exclusive := exclusive_step inv.exclusive taken
  inRange := inRange
  values := by
    intro n
    rw [store]
    rcases notifiers n with same | values
    · rw [same]
      exact inv.values n
    · exact values
  balance := by
    intro k
    rw [store, debits_append, credits_append, noDebit, noCredit]
    simpa using inv.balance k
  fromKeys := by
    rw [calls_append, noDebit]
    simpa using inv.fromKeys
  toKeys := by
    rw [calls_append, noCredit]
    simpa using inv.toKeys

omit [DecidableEq ν] [Fintype ν] in
private theorem keys_of_commit {n : ν} {j : Job W} {stage : CommitStage} {x : TransReq}
    (here : s.notifier n = .commit j stage) (xact : j.xact? = some x)
    (all : (opOf stage).keysLeft x.req = x.req.keys) :
    x.req.fromKey ∈ s.owned (.inr n) ∧ x.req.toKey ∈ s.owned (.inr n) := by
  have left : ∀ k ∈ x.req.keys, k ∈ s.owned (.inr n) := by
    intro k member
    rw [owned, here]
    exact Notifier.mem_owned_commit xact (by rwa [all])
  exact ⟨left _ (by simp [ClientRequest.keys]), left _ (by simp [ClientRequest.keys])⟩

omit [DecidableEq ν] in
private theorem apart_of_commit {n : ν} {j : Job W} {stage : CommitStage} {x : TransReq}
    (ex : Exclusive s.owned s.kvs.mutex) (here : s.notifier n = .commit j stage)
    (xact : j.xact? = some x) (all : (opOf stage).keysLeft x.req = x.req.keys) :
    x.req.fromKey ≠ x.req.toKey := by
  have nodup := ex.own_nodup (.inr n)
  rw [owned, here, Notifier.owned, Notifier.work, Job.slots_of_xact xact, Notifier.attach,
    List.flatMap_cons, all, Multiset.coe_nodup, ClientRequest.keys] at nodup
  have first := (List.nodup_append.mp nodup).1
  simpa using first

private theorem values_write {n m : ν} {k v : CInt} {b : CInt → CInt}
    (ex : Exclusive s.owned s.kvs.mutex) (mine : k ∈ s.owned (.inr n)) (apart : m ≠ n)
    (values : (s.notifier m).Values b) : (s.notifier m).Values (Function.update b k v) := by
  refine Notifier.values_frame (fun q theirs => ?_) values
  have ne : q ≠ k := by
    rintro rfl
    exact ex.disjoint (i := .inr n) (j := .inr m)
      (fun eq => apart (Sum.inr.inj eq).symm) mine theirs
  exact Function.update_of_ne ne _ _

omit [Fintype ν] in
theorem settled {n : ν} (others : ∀ m, m ≠ n → s'.notifier m = s.notifier m) {b : CInt → CInt}
    (own : (s'.notifier n).Values b) (m : ν) :
    s'.notifier m = s.notifier m ∨ (s'.notifier m).Values b := by
  by_cases eq : m = n
  · subst eq
    exact .inr own
  · exact .inl (others m eq)

private theorem ledger_write {b₀ : CInt → CInt} {n : ν} {a : LeaderAct N W ν} {k v : CInt}
    (inv : Ledger b₀ tr s) (taken : step cfg s a = some s') (mine : k ∈ s.owned (.inr n))
    (store : s'.kvs.balance = Function.update s.kvs.balance k v)
    (mutex : s'.kvs.mutex = s.kvs.mutex)
    (others : ∀ m, m ≠ n → s'.notifier m = s.notifier m)
    (own : (s'.notifier n).Values (Function.update s.kvs.balance k v))
    (booked : ∀ q, Function.update s.kvs.balance k v q =
      b₀ q - debits q (tr ++ [a]) + credits q (tr ++ [a]))
    (debit : ∀ p ∈ LeaderAct.byNotifier (NotifierAct.callOf? .indexUpdateFrom) a,
      cfg.consts.inRange p.2.req.fromKey)
    (credit : ∀ p ∈ LeaderAct.byNotifier (NotifierAct.callOf? .indexUpdateTo) a,
      cfg.consts.inRange p.2.req.toKey) : Ledger b₀ (tr ++ [a]) s' where
  exclusive := exclusive_step inv.exclusive taken
  inRange := by
    intro q held
    rw [mutex] at held
    exact inv.inRange q held
  values := by
    intro m
    rw [store]
    by_cases eq : m = n
    · subst eq
      exact own
    · rw [others m eq]
      exact values_write inv.exclusive mine eq (inv.values m)
  balance := by
    intro q
    rw [store]
    exact booked q
  fromKeys := by
    intro p member
    rw [calls_append] at member
    rcases List.mem_append.mp member with old | new
    · exact inv.fromKeys p old
    · exact debit p (Option.mem_toList.mp new)
  toKeys := by
    intro p member
    rw [calls_append] at member
    rcases List.mem_append.mp member with old | new
    · exact inv.toKeys p old
    · exact credit p (Option.mem_toList.mp new)

section Stage

variable {b₀ : CInt → CInt} {n : ν} {j : Job W} {x : TransReq} {kvs' : KVS cfg.consts}
  {stage stage' : CommitStage} (inv : Ledger b₀ tr s) (here : s.notifier n = .commit j stage)
  (xact : j.xact? = some x) (made : commitStep x.req s.kvs stage = some (kvs', stage'))
  (taken : step cfg s (.notifier n (.commitWork (opOf stage) (j.place, x))) =
    some ({ s with kvs := kvs' }.setNotifier cfg n (.commit j stage')))

omit [DecidableEq ν] in
include xact in
private theorem xact_only {y : TransReq} (other : j.xact? = some y) : y = x :=
  Option.some.inj (other.symm.trans xact)

omit [Fintype ν] in
private theorem others_stay (m : ν) (apart : m ≠ n) :
    ({ s with kvs := kvs' }.setNotifier cfg n (.commit j stage')).notifier m = s.notifier m := by
  simp [setNotifier, apart]

omit [Fintype ν] in
private theorem own_stage :
    ({ s with kvs := kvs' }.setNotifier cfg n (.commit j stage')).notifier n = .commit j stage' := by
  simp [setNotifier]

include inv here xact made taken

private theorem ledger_indexReadFrom (at' : stage = .indexReadFrom) :
    Ledger b₀ (tr ++ [.notifier n (.commitWork (opOf stage) (j.place, x))])
      ({ s with kvs := kvs' }.setNotifier cfg n (.commit j stage')) := by
  subst at'
  obtain ⟨mine, -⟩ := keys_of_commit here xact rfl
  have range := inv.inRange _ (inv.exclusive.held_of_mem mine)
  simp only [commitStep, KVS.indexRead_eq _ range, Option.bind_eq_bind, Option.bind_some,
    Option.some.injEq, Prod.mk.injEq] at made
  obtain ⟨rfl, rfl⟩ := made
  refine ledger_quiet inv taken rfl inv.inRange rfl rfl (settled others_stay ?_)
  rw [own_stage]
  intro y other
  rw [xact_only xact other]

private theorem ledger_indexReadTo {fromVal : CInt} (at' : stage = .indexReadTo fromVal) :
    Ledger b₀ (tr ++ [.notifier n (.commitWork (opOf stage) (j.place, x))])
      ({ s with kvs := kvs' }.setNotifier cfg n (.commit j stage')) := by
  subst at'
  have values := inv.values n
  rw [here] at values
  obtain ⟨-, mine⟩ := keys_of_commit here xact rfl
  have range := inv.inRange _ (inv.exclusive.held_of_mem mine)
  simp only [commitStep, KVS.indexRead_eq _ range, Option.bind_eq_bind, Option.bind_some,
    Option.some.injEq, Prod.mk.injEq] at made
  obtain ⟨rfl, rfl⟩ := made
  refine ledger_quiet inv taken rfl inv.inRange rfl rfl (settled others_stay ?_)
  rw [own_stage]
  intro y other
  rw [xact_only xact other, values x xact]
  exact ⟨rfl, rfl⟩

private theorem ledger_indexUpdateFrom {fromVal toVal : CInt}
    (at' : stage = .indexUpdateFrom fromVal toVal) :
    Ledger b₀ (tr ++ [.notifier n (.commitWork (opOf stage) (j.place, x))])
      ({ s with kvs := kvs' }.setNotifier cfg n (.commit j stage')) := by
  subst at'
  have values := inv.values n
  rw [here] at values
  obtain ⟨mine, -⟩ := keys_of_commit here xact rfl
  have range := inv.inRange _ (inv.exclusive.held_of_mem mine)
  have apart := apart_of_commit inv.exclusive here xact rfl
  obtain ⟨fromVal_eq, toVal_eq⟩ := values x xact
  simp only [commitStep, KVS.indexUpdate_eq _ _ range, Option.bind_eq_bind, Option.bind_some,
    Option.some.injEq, Prod.mk.injEq] at made
  obtain ⟨rfl, rfl⟩ := made
  refine ledger_write inv taken mine (KVS.balance_setBucket _ _ _) rfl others_stay ?_ (fun q => ?_) ?_
    (by rintro p ⟨⟩)
  · rw [own_stage]
    intro y other
    rw [xact_only xact other, Function.update_of_ne apart.symm]
    exact toVal_eq
  · rw [debits_append, credits_append]
    have before := inv.balance q
    by_cases eq : x.req.fromKey = q
    · subst eq
      simp only [LeaderAct.byNotifier, NotifierAct.callOf?, NotifierAct.call?, opOf,
        Function.update_self, fromVal_eq, before]
      simp
      abel
    · simp [LeaderAct.byNotifier, NotifierAct.callOf?, NotifierAct.call?, opOf, eq, Ne.symm eq,
        before]
  · rintro p ⟨rfl⟩
    exact range

private theorem ledger_indexUpdateTo {toVal : CInt} (at' : stage = .indexUpdateTo toVal) :
    Ledger b₀ (tr ++ [.notifier n (.commitWork (opOf stage) (j.place, x))])
      ({ s with kvs := kvs' }.setNotifier cfg n (.commit j stage')) := by
  subst at'
  have values := inv.values n
  rw [here] at values
  obtain ⟨-, mine⟩ := keys_of_commit here xact rfl
  have range := inv.inRange _ (inv.exclusive.held_of_mem mine)
  have toVal_eq := values x xact
  simp only [commitStep, KVS.indexUpdate_eq _ _ range, Option.bind_eq_bind, Option.bind_some,
    Option.some.injEq, Prod.mk.injEq] at made
  obtain ⟨rfl, rfl⟩ := made
  refine ledger_write inv taken mine (KVS.balance_setBucket _ _ _) rfl others_stay ?_ (fun q => ?_)
    (by rintro p ⟨⟩) ?_
  · rw [own_stage]
    trivial
  · rw [debits_append, credits_append]
    have before := inv.balance q
    by_cases eq : x.req.toKey = q
    · subst eq
      simp only [LeaderAct.byNotifier, NotifierAct.callOf?, NotifierAct.call?, opOf,
        Function.update_self, toVal_eq, before]
      simp
      abel
    · simp [LeaderAct.byNotifier, NotifierAct.callOf?, NotifierAct.call?, opOf, eq, Ne.symm eq,
        before]
  · rintro p ⟨rfl⟩
    exact range

omit xact in
private theorem ledger_unlock (at' : stage = .unlockFrom ∨ stage = .unlockTo) :
    Ledger b₀ (tr ++ [.notifier n (.commitWork (opOf stage) (j.place, x))])
      ({ s with kvs := kvs' }.setNotifier cfg n (.commit j stage')) := by
  -- a key that is held after the call was held before it
  have kept : ∀ k q : CInt, Function.update s.kvs.mutex k false q = true → s.kvs.mutex q = true := by
    intro k q held
    rw [Function.update_apply] at held
    split at held
    · cases held
    · exact held
  rcases at' with rfl | rfl <;>
  · simp only [commitStep, Option.bind_eq_bind, Option.bind_eq_some_iff, Option.some.injEq,
      Prod.mk.injEq] at made
    obtain ⟨_, unlocked, rfl, rfl⟩ := made
    obtain ⟨-, rfl⟩ := KVS.unlock_eq_some.mp unlocked
    refine ledger_quiet inv taken rfl (fun q held => inv.inRange q (kept _ q held)) rfl rfl
      (settled others_stay ?_)
    rw [own_stage]
    trivial

end Stage

private theorem ledger_commitWork {b₀ : CInt → CInt} {n : ν} {op : CommitOp}
    {slot : Place W × TransReq} (inv : Ledger b₀ tr s)
    (taken : step cfg s (.notifier n (.commitWork op slot)) = some s') :
    Ledger b₀ (tr ++ [.notifier n (.commitWork op slot)]) s' := by
  obtain ⟨place, x⟩ := slot
  obtain ⟨j, stage, kvs', stage', here, rfl, rfl, xact, made, rfl⟩ := notifierStep_commitWork taken
  cases at' : stage with
  | returned => simp [at', commitStep] at made
  | indexReadFrom => exact at' ▸ ledger_indexReadFrom inv here xact made taken at'
  | indexReadTo fromVal => exact at' ▸ ledger_indexReadTo inv here xact made taken at'
  | indexUpdateFrom fromVal toVal => exact at' ▸ ledger_indexUpdateFrom inv here xact made taken at'
  | indexUpdateTo toVal => exact at' ▸ ledger_indexUpdateTo inv here xact made taken at'
  | unlockFrom => exact at' ▸ ledger_unlock inv here made taken (.inl at')
  | unlockTo => exact at' ▸ ledger_unlock inv here made taken (.inr at')

private theorem ledger_step {b₀ : CInt → CInt} {a : LeaderAct N W ν} (inv : Ledger b₀ tr s)
    (taken : step cfg s a = some s') : Ledger b₀ (tr ++ [a]) s' := by
  cases a with
  | acceptClient =>
    have taken' := taken
    simp only [step, Option.some.injEq] at taken'
    subst taken'
    exact ledger_quiet inv taken rfl inv.inRange rfl rfl (fun _ => .inl rfl)
  | worker w a =>
    obtain ⟨-, w', kvs', nextLsn', -, called, -, rfl⟩ := workerStep_some taken
    obtain ⟨same, inRange⟩ := lockCall_store called inv.inRange
    exact ledger_quiet inv taken same inRange rfl rfl (fun _ => .inl rfl)
  | notifier n b =>
    have taken' : notifierStep cfg s n b = some s' := taken
    have others : ∀ m, m ≠ n → s'.notifier m = s.notifier m :=
      fun m apart => notifier_frame taken apart
    cases b with
    | commitWork op slot => exact ledger_commitWork inv taken
    | recv ack =>
      obtain ⟨-, rfl⟩ := notifierStep_recv taken'
      refine ledger_quiet inv taken rfl inv.inRange rfl rfl (settled others ?_)
      simp only [setNotifier, Function.update_self]
      split <;> trivial
    | addVoteCount lsn count =>
      obtain ⟨ack, nextIndex, -, -, -, -, rfl⟩ := notifierStep_addVoteCount taken'
      refine ledger_quiet inv taken rfl inv.inRange rfl rfl (settled others ?_)
      simp only [setNotifier, Function.update_self]
      split <;> trivial
    | taskLoad w lsn t =>
      obtain ⟨ack, nextIndex, -, -, -, -, rfl⟩ := notifierStep_taskLoad taken'
      refine ledger_quiet inv taken rfl inv.inRange rfl rfl (settled others ?_)
      simp only [setNotifier, Function.update_self]
      cases t with
      | none => trivial
      | some t => exact Notifier.values_loop _ _
    | setCommitIndex slot index =>
      obtain ⟨j, -, -, -, -, rfl⟩ := notifierStep_setCommitIndex taken'
      refine ledger_quiet inv taken rfl inv.inRange rfl rfl (settled others ?_)
      simp only [setNotifier, Function.update_self]
      trivial
    | sendRPC slot result =>
      obtain ⟨j, clients, -, -, -, rfl⟩ := notifierStep_sendRPC taken'
      refine ledger_quiet inv taken rfl inv.inRange rfl rfl (settled others ?_)
      simp only [setNotifier, Function.update_self]
      exact Notifier.values_loop _ _

theorem ledger_run (fresh : Fresh cfg s₀) (run : Run (Steps (step cfg)) s₀ tr s) :
    Ledger s₀.kvs.balance tr s := by
  refine run.invariant (I := fun tr s => Ledger s₀.kvs.balance tr s) ?_
    (fun _ _ _ _ _ inv taken => ledger_step inv taken)
  refine ⟨exclusive_start fresh, ?_, ?_, ?_, by simp [calls], by simp [calls]⟩
  · intro k held
    rw [fresh.mutex k] at held
    cases held
  · intro n
    rw [fresh.notifier n]
    trivial
  · simp [debits, credits, calls]

omit [DecidableEq ν] [Fintype ν] in
theorem delta_sum (k : CInt) (ps : List (Place W × TransReq)) :
    (ps.map ((Move.delta · k) ∘ (·.2.req.move))).sum =
      (ps.map (fun p => if p.2.req.toKey = k then p.2.req.diff else 0)).sum -
        (ps.map (fun p => if p.2.req.fromKey = k then p.2.req.diff else 0)).sum := by
  induction ps with
  | nil => simp
  | cons p ps ih =>
    have first : ((Move.delta · k) ∘ (·.2.req.move)) p =
        (if p.2.req.toKey = k then p.2.req.diff else 0) -
          (if p.2.req.fromKey = k then p.2.req.diff else 0) := rfl
    rw [List.map_cons, List.map_cons, List.map_cons, List.sum_cons, List.sum_cons, List.sum_cons,
      ih, first]
    abel

private theorem calls_idle (fresh : Fresh cfg s₀) (run : Run (Steps (step cfg)) s₀ tr s)
    (quiet : ∀ n, (s.notifier n).idle = true) (op op' : CommitOp) (inside : op.rank ≤ 5)
    (inside' : op'.rank ≤ 5) : (calls op tr).Perm (calls op' tr) := by
  have left := accounting fresh (moves_run run) op
  rw [← accounting fresh (moves_run run) op', add_assoc, add_assoc] at left
  have same : ∀ n, ((s.notifier n).todo op : Multiset (Place W × TransReq)) =
      (s.notifier n).todo op' := fun n =>
    congrArg _ (Notifier.todo_idle (quiet n) inside inside')
  simp only [same] at left
  exact Multiset.coe_eq_coe.mp (add_right_cancel left)

theorem balance_committed (fresh : Fresh cfg s₀) (run : Run (Steps (step cfg)) s₀ tr s)
    (quiet : ∀ n, (s.notifier n).idle = true) (k : CInt) :
    s.kvs.balance k =
      ((committed tr).map (·.2.req.move)).foldl Move.apply s₀.kvs.balance k := by
  have inv := ledger_run fresh run
  have froms := calls_idle fresh run quiet .indexUpdateFrom .unlockTo
    (by decide) (by decide)
  have tos := calls_idle fresh run quiet .indexUpdateTo .unlockTo
    (by decide) (by decide)
  have debit : debits k tr = ((committed tr).map
      (fun p => if p.2.req.fromKey = k then p.2.req.diff else 0)).sum :=
    (froms.map _).sum_eq
  have credit : credits k tr = ((committed tr).map
      (fun p => if p.2.req.toKey = k then p.2.req.diff else 0)).sum := (tos.map _).sum_eq
  rw [Move.foldl_apply, inv.balance k, debit, credit, List.map_map]
  rw [delta_sum]
  abel

/-- Each balance is the initial one plus what the committed requests add to it, and the total
never changes. -/
theorem balances_add_up (fresh : Fresh cfg s₀) (run : Run (Steps (step cfg)) s₀ tr s)
    (quiet : ∀ n, (s.notifier n).idle = true) :
    (∀ k, cfg.consts.inRange k → s.kvs.indexRead k = some (s₀.kvs.balance k +
      ((committed tr).map (fun p => (if p.2.req.toKey = k then p.2.req.diff else 0) -
        (if p.2.req.fromKey = k then p.2.req.diff else 0))).sum)) ∧
    (∀ p ∈ committed tr, p ∈ slotsOf p.1.workerId tr) ∧
    ∑ k ∈ databaseKeys cfg.consts, s.kvs.balance k =
      ∑ k ∈ databaseKeys cfg.consts, s₀.kvs.balance k := by
  have inv := ledger_run fresh run
  have moves := balance_committed fresh run quiet
  refine ⟨fun k range => ?_, ?_, ?_⟩
  · rw [KVS.indexRead_eq _ range, moves k, Move.foldl_apply, List.map_map]
    rfl
  · exact fun p member =>
      mem_loggedSlots.mp ((calls_subperm fresh (moves_run run) .unlockTo).subset member)
  · have froms := calls_idle fresh run quiet .indexUpdateFrom .unlockTo
      (by decide) (by decide)
    have tos := calls_idle fresh run quiet .indexUpdateTo .unlockTo
      (by decide) (by decide)
    rw [Finset.sum_congr rfl (fun k _ => moves k)]
    refine Move.sum_foldl_apply _ _ _ (fun m member => ?_)
    obtain ⟨p, done, rfl⟩ := List.mem_map.mp member
    exact ⟨mem_databaseKeys.mpr (inv.fromKeys p (froms.symm.subset done)),
      mem_databaseKeys.mpr (inv.toKeys p (tos.symm.subset done))⟩

/-- The example run: nobody is in `commitWork` at its end, account 1 has given 5 to account 3. -/
theorem balances_add_up_small :
    ∃ s, Run (Steps (step smallConfig)) smallLeader commitTrace s ∧
      s.kvs.indexRead 1 = some (smallStore.balance 1 +
        ((committed commitTrace).map (fun p => (if p.2.req.toKey = 1 then p.2.req.diff else 0) -
          (if p.2.req.fromKey = 1 then p.2.req.diff else 0))).sum) := by
  have done : (exec (step smallConfig) smallLeader commitTrace).map
      (fun s => decide (∀ n, (s.notifier n).idle = true)) = some true := by decide
  obtain ⟨s, run, quiet⟩ := exec_reaches done
  exact ⟨s, run, (balances_add_up smallLeader_fresh run (of_decide_eq_true quiet)).1 1 (by decide)⟩

end Leader

end Raft2pl.Server
