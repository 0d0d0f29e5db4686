/- What the log files of any half of the nodes keep of the transactions of a run. -/

import Raft2pl.Server.Answers
import Raft2pl.Server.Serial

set_option autoImplicit false
set_option relaxedAutoImplicit false

namespace Raft2pl.Server

open Lib (Run Steps exec exec_reaches Move)

namespace Leader

variable {N W : Nat} {ν : Type} [DecidableEq ν] [Fintype ν] {cfg : Config N}
  {s₀ s : Leader N W ν cfg.consts} {tr : List (LeaderAct N W ν)}

omit [DecidableEq ν] [Fintype ν] in
private theorem called_of_updated {p : Place W × TransReq} {k : CInt} (key : k ∈ p.2.req.keys)
    (updated : Updated tr p k) : ∃ op, p ∈ calls op tr := by
  have either : p.2.req.fromKey = k ∨ p.2.req.toKey = k := by
    simpa [ClientRequest.keys, eq_comm] using key
  rcases either with fromKey | toKey
  · exact ⟨_, updated.1 fromKey⟩
  · exact ⟨_, updated.2 toKey⟩

private theorem logged_inRange (fresh : Fresh cfg s₀) (run : Run (Steps (step cfg)) s₀ tr s)
    {p : Place W × TransReq} (logged : p ∈ loggedSlots tr) {k : CInt} (key : k ∈ p.2.req.keys) :
    cfg.consts.inRange k := by
  have ledger := ledger_run fresh run
  by_cases held : s.kvs.mutex k = true
  · exact ledger.inRange k held
  · have free : s.kvs.mutex k = false := by simpa using held
    have either : k = p.2.req.fromKey ∨ k = p.2.req.toKey := by
      simpa [ClientRequest.keys] using key
    rcases either with rfl | rfl
    · exact ledger.fromKeys p (called_of_free fresh run free logged key (by decide))
    · exact ledger.toKeys p (called_of_free fresh run free logged key (by decide))

omit [DecidableEq ν] [Fintype ν] in
private theorem replay_congr {ps qs : List (Place W × TransReq)} (once : ps.Nodup) (once' : qs.Nodup)
    (b : CInt → CInt) {k : CInt} (same : ∀ p, k ∈ p.2.req.keys → (p ∈ ps ↔ p ∈ qs)) :
    replay b ps k = replay b qs k := by
  have credit := Lib.sum_ite_of_mem_iff once once' (fun p => p.2.req.toKey = k) (·.2.req.diff)
    (fun p key => same p (by simp [ClientRequest.keys, key]))
  have debit := Lib.sum_ite_of_mem_iff once once' (fun p => p.2.req.fromKey = k) (·.2.req.diff)
    (fun p key => same p (by simp [ClientRequest.keys, key]))
  rw [replay_apply, replay_apply, credit, debit]

private theorem balance_of_free (fresh : Fresh cfg s₀) (run : Run (Steps (step cfg)) s₀ tr s)
    {k : CInt}
    (free : s.kvs.mutex k = false) :
    s.kvs.balance k = replay s₀.kvs.balance (loggedSlots tr) k := by
  have distinct := loggedSlots_nodup (lsn_nodup fresh (moves_run run))
  have made : ∀ op, (calls op tr).Nodup := fun op =>
    (places_nodup distinct (calls_subperm fresh (moves_run run) op)).of_map Prod.fst
  have same : ∀ op, op.rank ≤ 4 → ∀ q : Place W × TransReq, k ∈ q.2.req.keys →
      (q ∈ calls op tr ↔ q ∈ loggedSlots tr) := by
    intro op inside q key
    exact ⟨fun called => (calls_subperm fresh (moves_run run) op).subset called,
      fun logged => called_of_free fresh run free logged key inside⟩
  have debit : debits k tr =
      ((loggedSlots tr).map (fun q => if q.2.req.fromKey = k then q.2.req.diff else 0)).sum :=
    Lib.sum_ite_of_mem_iff (made _) (distinct.of_map Prod.fst) (fun q => q.2.req.fromKey = k) _
      (fun q key => same _ (by decide) q (by simp [ClientRequest.keys, key]))
  have credit : credits k tr =
      ((loggedSlots tr).map (fun q => if q.2.req.toKey = k then q.2.req.diff else 0)).sum :=
    Lib.sum_ite_of_mem_iff (made _) (distinct.of_map Prod.fst) (fun q => q.2.req.toKey = k) _
      (fun q key => same _ (by decide) q (by simp [ClientRequest.keys, key]))
  rw [(ledger_run fresh run).balance k, debit, credit, replay_apply]
  abel

end Leader

namespace Cluster

section Logs

variable {N W : Nat} {cfg : Config N}

def logOf (c : Cluster N W cfg.consts) (g : Fin N) (w : Fin W) : List Entry :=
  if g = cfg.me then (c.leader.worker w).log.file else (c.disk (g, w)).file

def InLogs (c : Cluster N W cfg.consts) (nodes : Finset (Fin N)) (p : Place W × TransReq) : Prop :=
  ∃ g ∈ nodes, ∃ e ∈ c.logOf g p.1.workerId, p ∈ e.slots p.1.workerId

instance (c : Cluster N W cfg.consts) (nodes : Finset (Fin N)) (p : Place W × TransReq) :
    Decidable (c.InLogs nodes p) :=
  inferInstanceAs (Decidable (∃ g ∈ nodes, ∃ e ∈ c.logOf g p.1.workerId,
    p ∈ e.slots p.1.workerId))

def kept (nodes : Finset (Fin N)) (tr : List (ClusterAct N W)) (c : Cluster N W cfg.consts) :
    List (Place W × TransReq) :=
  (loggedSlots (ofLeader tr)).filter (fun p => decide (c.InLogs nodes p))

def onAccount (k : CInt) (ps : List (Place W × TransReq)) : List (Place W × TransReq) :=
  ps.filter (fun p => decide (k ∈ p.2.req.keys))

private theorem slots_of_shared {e e' : Entry} (same : e'.shared = e.shared) (w : Fin W) :
    e'.slots w = e.slots w := by
  simp only [Entry.shared, Prod.mk.injEq] at same
  obtain ⟨lsn, -, -, xacts⟩ := same
  rw [Entry.slots, lsn, xacts, Entry.slots]

theorem Durable.inLogs {c : Cluster N W cfg.consts} {p : Place W × TransReq}
    (durable : c.Durable p) {nodes : Finset (Fin N)} (half : N ≤ 2 * nodes.card) :
    c.InLogs nodes p := by
  obtain ⟨e, -, slot, followers, quorum, each⟩ := durable
  have common : (followers ∩ nodes).Nonempty := by
    refine Finset.inter_nonempty_of_card_lt_card_add_card (Finset.subset_univ _)
      (Finset.subset_univ _) ?_
    rw [Finset.card_univ, Fintype.card_fin]
    omega
  obtain ⟨g, member⟩ := common
  obtain ⟨both, inside⟩ := Finset.mem_inter.mp member
  obtain ⟨follower, e', entry, same⟩ := each g both
  refine ⟨g, inside, e', ?_, ?_⟩
  · rw [logOf, if_neg follower]
    exact entry
  · rw [slots_of_shared same]
    exact slot

end Logs

section Runs

variable {N W : Nat} {cfg : Config N} {curTerm : Fin N → Int} {c₀ c : Cluster N W cfg.consts}
  {tr : List (ClusterAct N W)} {nodes : Finset (Fin N)}

private theorem kept_of_called (fresh : Fresh cfg c₀) (run : Run (Steps (step cfg curTerm)) c₀ tr c)
    (half : N ≤ 2 * nodes.card) {op : CommitOp} {p : Place W × TransReq}
    (called : p ∈ calls op (ofLeader tr)) : p ∈ c.kept nodes tr := by
  have moves := moves_run run
  have durable := calls_durable fresh moves op p called
  refine List.mem_filter.mpr ⟨?_, by simpa using durable.inLogs half⟩
  exact (Leader.calls_subperm fresh.leader (leader_run moves) op).subset called

private theorem kept_of_precedes (fresh : Fresh cfg c₀) (run : Run (Steps (step cfg curTerm)) c₀ tr c)
    (half : N ≤ 2 * nodes.card) {p q : Place W × TransReq} (logged : p ∈ loggedSlots (ofLeader tr))
    (logged' : q ∈ loggedSlots (ofLeader tr)) {k : CInt} (key : k ∈ p.2.req.keys)
    (key' : k ∈ q.2.req.keys) (before : p.1.lsn < q.1.lsn) : p ∈ c.kept nodes tr := by
  have apart : p ≠ q := by
    rintro rfl
    exact lt_irrefl _ before
  obtain ⟨-, j, -, -, -, updated⟩ := (Leader.precedes_of_lsn fresh.leader (leader_steps run) logged
    logged' apart key key').2 before
  obtain ⟨op, called⟩ := Leader.called_of_updated key (Leader.updated_of_take updated)
  exact kept_of_called fresh run half called

private theorem kept_prefix (fresh : Fresh cfg c₀) (run : Run (Steps (step cfg curTerm)) c₀ tr c)
    (half : N ≤ 2 * nodes.card) (k : CInt) :
    onAccount k (c.kept nodes tr) <+: onAccount k (loggedSlots (ofLeader tr)) ∧
      (onAccount k (loggedSlots (ofLeader tr))).length ≤
        (onAccount k (c.kept nodes tr)).length + 1 := by
  have leader := leader_steps run
  have part : (onAccount k (loggedSlots (ofLeader tr))).Sublist (loggedSlots (ofLeader tr)) :=
    List.filter_sublist
  have same : onAccount k (c.kept nodes tr) =
      (onAccount k (loggedSlots (ofLeader tr))).filter (fun p => decide (c.InLogs nodes p)) := by
    rw [onAccount, kept, onAccount, List.filter_filter, List.filter_filter]
    congr 1
    funext p
    exact Bool.and_comm _ _
  have sorted := (Leader.loggedSlots_sorted fresh.leader leader).sublist part
  have once : (onAccount k (loggedSlots (ofLeader tr))).Nodup :=
    ((loggedSlots_nodup (Leader.lsn_nodup fresh.leader (Leader.moves_run leader))).of_map
      Prod.fst).sublist part
  have touches : ∀ p ∈ onAccount k (loggedSlots (ofLeader tr)), k ∈ p.2.req.keys :=
    fun p member => of_decide_eq_true (List.mem_filter.mp member).2
  rw [same]
  rcases List.eq_nil_or_concat (onAccount k (loggedSlots (ofLeader tr))) with none | ⟨ps, q, split⟩
  · simp [none]
  · rw [List.concat_eq_append] at split
    rw [split] at sorted once touches part ⊢
    have earlier : ps.filter (fun p => decide (c.InLogs nodes p)) = ps := by
      rw [List.filter_eq_self]
      intro p member
      have first : p ∈ ps ++ [q] := List.mem_append_left _ member
      have last : q ∈ ps ++ [q] := by simp
      have apart : p ≠ q := by
        rintro rfl
        exact (List.nodup_append.mp once).2.2 p member p (by simp) rfl
      have ne := (Leader.precedes_of_lsn fresh.leader leader (part.subset first)
        (part.subset last) apart (touches p first) (touches q last)).1
      have le := (List.pairwise_append.mp sorted).2.2 p member q (by simp)
      exact (List.mem_filter.mp (kept_of_precedes fresh run half (part.subset first)
        (part.subset last) (touches p first) (touches q last) (lt_of_le_of_ne le ne))).2
    rw [List.filter_append, earlier]
    refine ⟨(List.prefix_append_right_inj ps).mpr ?_, ?_⟩
    · by_cases here : c.InLogs nodes q <;> simp [here]
    · rw [List.length_append, List.length_append]
      simp

end Runs

section Example

open Dialogue (firstCalls)

def committedTrace : List (ClusterAct 3 1) :=
  .leader .acceptClient :: quorumTrace ++ firstCalls

end Example

end Cluster

end Raft2pl.Server
