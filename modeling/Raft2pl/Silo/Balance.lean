/- What the balances are, as long as all new amounts arrive in their tuples. -/

import Raft2pl.Silo.Serial
import Raft2pl.Lib.Accounts

set_option autoImplicit false
set_option relaxedAutoImplicit false

namespace Raft2pl.Silo

open Lib (Run Steps Move record exec exec_reaches)

def amounts (v : BitVec 64 → Val) (k : BitVec 64) : CInt := amount (v k)

def moveOf (req : ClientRequest) : Move (BitVec 64) CInt :=
  ⟨keyOf (sorted req).fromKey, keyOf (sorted req).toKey, (sorted req).diff⟩

def ArrivesAt (b : BitVec 64 → CInt) (req : ClientRequest) (k : BitVec 64) : Prop :=
  Arrives (bytes (b k)) (bytes ((moveOf req).apply b k))

/-- All the new amounts that transfers make one after the other arrive. -/
def Arriving (b : BitVec 64 → CInt) : List ClientRequest → Prop
  | [] => True
  | req :: rest =>
      (ArrivesAt b req (moveOf req).src ∧ ArrivesAt b req (moveOf req).dst) ∧
        Arriving ((moveOf req).apply b) rest

instance (b : BitVec 64 → CInt) (req : ClientRequest) (k : BitVec 64) :
    Decidable (ArrivesAt b req k) :=
  inferInstanceAs (Decidable (Arrives _ _))

instance decidableArriving : (b : BitVec 64 → CInt) → (reqs : List ClientRequest) →
    Decidable (Arriving b reqs)
  | _, [] => inferInstanceAs (Decidable True)
  | b, req :: rest =>
      have := decidableArriving ((moveOf req).apply b) rest
      inferInstanceAs (Decidable ((ArrivesAt b req (moveOf req).src ∧
        ArrivesAt b req (moveOf req).dst) ∧ _))

section Serves

variable {W : Nat} {v v' : BitVec 64 → Val} {c : Fin W × ClientRequest}
  {cs : List (Fin W × ClientRequest)}

private theorem apply_src (b : BitVec 64 → CInt) {m : Move (BitVec 64) CInt} (apart : m.src ≠ m.dst) :
    m.apply b m.src = b m.src - m.amount := by
  simp [Move.apply, Move.delta, apart.symm, sub_eq_add_neg]

private theorem apply_dst (b : BitVec 64 → CInt) {m : Move (BitVec 64) CInt} (apart : m.src ≠ m.dst) :
    m.apply b m.dst = b m.dst + m.amount := by
  simp [Move.apply, Move.delta, apart]

private theorem serves_apart (served : Serves v c v') : c.2.fromKey ≠ c.2.toKey := by
  obtain ⟨bFrom, bTo, out, -, returned, -⟩ := served
  rw [transferWork] at returned
  split at returned
  next => cases returned
  next apart => exact apart

private theorem serves_amounts (served : Serves v c v')
    (src : ArrivesAt (amounts v) c.2 (moveOf c.2).src)
    (dst : ArrivesAt (amounts v) c.2 (moveOf c.2).dst) :
    amounts v' = (moveOf c.2).apply (amounts v) := by
  have different := serves_apart served
  have apart : (moveOf c.2).src ≠ (moveOf c.2).dst :=
    fun same => sorted_ne different (keyOf_injective same)
  obtain ⟨bFrom, bTo, out, -, returned, ok, rfl⟩ := served
  rw [ArrivesAt, apply_src _ apart, amounts, bytes_amount] at src
  rw [ArrivesAt, apply_dst _ apart, amounts, bytes_amount] at dst
  obtain ⟨-, took, gave, rest⟩ := (transfer_sorted c.1 1 (quiet v) (x := .new) ⟨rfl, rfl⟩
    different).mpr (.inr (.inr ⟨src, dst⟩)) bFrom bTo out returned ok
  rw [← Move.update_update_eq_apply _ apart]
  funext k
  by_cases atDst : k = (moveOf c.2).dst
  · rw [atDst, Function.update_self]
    exact gave
  · rw [Function.update_of_ne atDst]
    by_cases atSrc : k = (moveOf c.2).src
    · rw [atSrc, Function.update_self]
      exact took
    · rw [Function.update_of_ne atSrc]
      exact congrArg amount (rest k atSrc atDst)

theorem serves_run (run : Run Serves v cs v')
    (arriving : Arriving (amounts v) (cs.map Prod.snd)) :
    amounts v' = (cs.map (fun c => moveOf c.2)).foldl Move.apply (amounts v) := by
  induction cs generalizing v with
  | nil =>
    rw [run.eq_of_nil]
    rfl
  | cons c cs ih =>
    obtain ⟨u, served, rest⟩ := run.uncons
    obtain ⟨⟨src, dst⟩, later⟩ := arriving
    have first := serves_amounts served src dst
    rw [List.map_cons, List.foldl_cons, ← first]
    exact ih rest (first ▸ later)

end Serves

namespace Process

variable {W : Nat} {s s₀ : Process W} {tr : List (ProcessAct W)}

/-- As long as all new amounts arrive, each account holds its first amount plus what the committed
transfers add to it, and the total never changes. -/
theorem amounts_add_up (fresh : s₀.Fresh) (run : Run (Steps stepSound) s₀ tr s)
    (quiet : ∀ i, (s.worker i).published = false)
    (arriving : Arriving (amounts (values s₀.table))
      ((record stepSound commits s₀ tr).map Prod.snd)) :
    (∀ k, amount (s.table k).val = amount (s₀.table k).val +
      ((record stepSound commits s₀ tr).map (fun c => (moveOf c.2).delta k)).sum) ∧
    ∀ S : Finset (BitVec 64), (∀ c ∈ record stepSound commits s₀ tr,
        (moveOf c.2).src ∈ S ∧ (moveOf c.2).dst ∈ S) →
      ∑ k ∈ S, amount (s.table k).val = ∑ k ∈ S, amount (s₀.table k).val := by
  obtain ⟨v, served, settles⟩ := settles_run fresh run
  obtain rfl := settles_values settles quiet
  have moves := serves_run served arriving
  have each : ∀ k, amount (s.table k).val = ((record stepSound commits s₀ tr).map
      (fun c => moveOf c.2)).foldl Move.apply (amounts (values s₀.table)) k := congrFun moves
  constructor
  · intro k
    rw [each k, Move.foldl_apply, List.map_map]
    rfl
  · intro S inside
    rw [Finset.sum_congr rfl (fun k _ => each k)]
    refine Move.sum_foldl_apply _ _ _ (fun m member => ?_)
    obtain ⟨c, entry, rfl⟩ := List.mem_map.mp member
    exact inside c entry

section Example

def settledTrace : List (ProcessAct 2) :=
  overlapTrace ++ List.replicate 2 (.access 0 [] []) ++ List.replicate 5 (.access 1 [] [])

theorem amounts_add_up_settled :
    ∃ s, Run (Steps stepSound) (start (tableOf 9)) settledTrace s ∧
      amount (s.table 1).val =
        9 + ((moveOf ⟨1, 2, 3, 0⟩).delta 1 + ((moveOf ⟨1, 3, 3, 0⟩).delta 1 + 0)) ∧
      amount (s.table 1).val + (amount (s.table 2).val + (amount (s.table 3).val + 0)) = 27 := by
  have done : (exec stepSound (start (tableOf 9)) settledTrace).map (fun s =>
      decide (∀ i, (s.worker i).published = false)) = some true := by decide
  obtain ⟨s, run, quiet⟩ := exec_reaches done
  obtain ⟨each, total⟩ := amounts_add_up (start_fresh (fun _ => rfl)) run (of_decide_eq_true quiet)
    (by decide)
  exact ⟨s, run, each 1, total {1, 2, 3} (by decide)⟩

end Example

end Process

end Raft2pl.Silo
