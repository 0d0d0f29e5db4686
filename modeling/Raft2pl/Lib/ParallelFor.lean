/- Threads that each run a loop over an inclusive range of machine words, in any interleaving. -/

import Raft2pl.Lib.Run
import Mathlib.Data.BitVec
import Mathlib.Data.List.Nodup

set_option autoImplicit false
set_option relaxedAutoImplicit false

namespace Raft2pl.Lib

/-- The variable of a loop `for (i = start; i <= last; ++i)` over unsigned words, and its bound. -/
structure Range (w : Nat) where
  i : BitVec w
  last : BitVec w
  deriving DecidableEq

structure Visit (w : Nat) where
  thid : Nat
  index : BitVec w
  deriving DecidableEq

namespace Range

variable {w : Nat}

def Has (r : Range w) (k : BitVec w) : Prop := r.i ≤ k ∧ k ≤ r.last

instance (r : Range w) (k : BitVec w) : Decidable (r.Has k) :=
  inferInstanceAs (Decidable (_ ∧ _))

def after (r : Range w) (rounds : Nat) : Range w := { r with i := r.i + .ofNat w rounds }

/-- A thread takes the next round of its loop. Past the largest word `++i` wraps around. -/
def visit (rs : List (Range w)) (v : Visit w) : Option (List (Range w)) :=
  match rs[v.thid]? with
  | none => none
  | some r =>
      if v.index = r.i ∧ r.i ≤ r.last then some (rs.set v.thid { r with i := r.i + 1 }) else none

def Finished (rs : List (Range w)) : Prop := ∀ r ∈ rs, r.last < r.i

/-- No loop runs up to the largest word, so that each comes to its end. -/
def Bounded (rs : List (Range w)) : Prop := ∀ r ∈ rs, r.last.toNat + 1 < 2 ^ w

def Disjoint (rs : List (Range w)) : Prop := rs.Pairwise (fun r s => ∀ k, ¬ (r.Has k ∧ s.Has k))

def visitsOf (t : Nat) (tr : List (Visit w)) : List (BitVec w) :=
  tr.filterMap (fun v => if v.thid = t then some v.index else none)

variable {rs rs' : List (Range w)} {r : Range w} {v : Visit w} {tr : List (Visit w)} {t c : Nat}

private theorem visit_eq_some : visit rs v = some rs' ↔
    ∃ r, rs[v.thid]? = some r ∧ v.index = r.i ∧ r.i ≤ r.last ∧
      rs' = rs.set v.thid { r with i := r.i + 1 } := by
  unfold visit
  cases rs[v.thid]? with
  | none => simp
  | some r => simp [and_assoc, eq_comm]

theorem finished_or_visit (rs : List (Range w)) : Finished rs ∨ ∃ v rs', visit rs v = some rs' := by
  by_cases ended : Finished rs
  · exact .inl ended
  · simp only [Finished, not_forall] at ended
    obtain ⟨r, member, more⟩ := ended
    obtain ⟨t, inside, rfl⟩ := List.getElem_of_mem member
    exact .inr ⟨⟨t, rs[t].i⟩, _, visit_eq_some.mpr
      ⟨rs[t], List.getElem?_eq_getElem inside, rfl, BitVec.not_lt.mp more, rfl⟩⟩

@[simp] theorem after_zero (r : Range w) : r.after 0 = r := by simp [after]

private theorem after_succ (r : Range w) (c : Nat) :
    r.after (c + 1) = { r.after c with i := (r.after c).i + 1 } := by
  simp [after, BitVec.ofNat_add, BitVec.add_assoc]

theorem toNat_after (small : r.i.toNat + c < 2 ^ w) : (r.after c).i.toNat = r.i.toNat + c := by
  simp only [after, BitVec.toNat_add, BitVec.toNat_ofNat]
  rw [Nat.mod_eq_of_lt (show c < 2 ^ w by omega), Nat.mod_eq_of_lt (by omega)]

structure Advanced (r : Range w) (rs' : List (Range w)) (t : Nat) (tr : List (Visit w)) (c : Nat) :
    Prop where
  now : rs'[t]? = some (r.after c)
  visits : visitsOf t tr = (List.range c).map (fun j => (r.after j).i)
  few : 0 < c → r.i.toNat + c ≤ r.last.toNat + 1

private theorem visitsOf_append (t : Nat) (tr : List (Visit w)) (v : Visit w) :
    visitsOf t (tr ++ [v]) =
    visitsOf t tr ++ if v.thid = t then [v.index] else [] := by
  by_cases own : v.thid = t <;> simp [visitsOf, List.filterMap_append, own]

private theorem advanced_visit {rs'' : List (Range w)} (bounded : r.last.toNat + 1 < 2 ^ w)
    (before : r.Advanced rs' t tr c) (taken : visit rs' v = some rs'') :
    ∃ c', r.Advanced rs'' t (tr ++ [v]) c' := by
  obtain ⟨r', here, index, more, rfl⟩ := visit_eq_some.mp taken
  by_cases own : v.thid = t
  · subst own
    obtain rfl : r.after c = r' := Option.some.inj (before.now.symm.trans here)
    have few : r.i.toNat + c ≤ r.last.toNat + 1 := by
      by_cases first : c = 0
      · have start : r.i.toNat ≤ r.last.toNat := by simpa [first, BitVec.le_def] using more
        omega
      · exact before.few (Nat.pos_of_ne_zero first)
    have room : (r.after c).i.toNat ≤ r.last.toNat := more
    rw [toNat_after (by omega)] at room
    refine ⟨c + 1, ?_, ?_, fun _ => by omega⟩
    · rw [List.getElem?_set_self (List.getElem?_eq_some_iff.mp here).1, after_succ]
    · rw [visitsOf_append, if_pos rfl, before.visits, index, List.range_succ, List.map_append]
      rfl
  · refine ⟨c, ?_, ?_, before.few⟩
    · rw [List.getElem?_set_ne own, before.now]
    · rw [visitsOf_append, if_neg own, List.append_nil, before.visits]

private theorem run_advanced (bounded : Bounded rs) (run : Run (Steps visit) rs tr rs')
    (here : rs[t]? = some r) : ∃ c, r.Advanced rs' t tr c := by
  have own := bounded r (List.mem_of_getElem? here)
  induction run with
  | start => exact ⟨0, by simpa using here, rfl, by simp⟩
  | next _ taken ih =>
    obtain ⟨c, before⟩ := ih
    exact advanced_visit own before taken

private theorem run_length (run : Run (Steps visit) rs tr rs') : rs'.length = rs.length := by
  induction run with
  | start => rfl
  | next _ taken ih =>
    obtain ⟨r, -, -, -, rfl⟩ := visit_eq_some.mp taken
    rw [List.length_set, ih]

theorem run_has (bounded : Bounded rs) (run : Run (Steps visit) rs tr rs') (member : v ∈ tr) :
    ∃ r, rs[v.thid]? = some r ∧ r.Has v.index := by
  have visited : v.index ∈ visitsOf v.thid tr := List.mem_filterMap.mpr ⟨v, member, by simp⟩
  have inside : v.thid < rs.length := by
    obtain ⟨pre, post, rfl⟩ := List.append_of_mem member
    obtain ⟨us, ws, before, taken, -⟩ := run.split rfl
    obtain ⟨r, here, -⟩ := visit_eq_some.mp taken
    rw [← run_length before]
    exact (List.getElem?_eq_some_iff.mp here).1
  obtain ⟨c, advanced⟩ := run_advanced bounded run (List.getElem?_eq_getElem inside)
  have own := bounded _ (List.getElem_mem inside)
  rw [advanced.visits] at visited
  obtain ⟨j, small, eq⟩ := List.mem_map.mp visited
  rw [List.mem_range] at small
  have few := advanced.few (by omega)
  have value := toNat_after (show rs[v.thid].i.toNat + j < 2 ^ w by omega)
  refine ⟨rs[v.thid], List.getElem?_eq_getElem inside, ?_⟩
  rw [← eq, Has, BitVec.le_def, BitVec.le_def, value]
  omega

private theorem nodup_visitsOf (bounded : Bounded rs) (run : Run (Steps visit) rs tr rs')
    (here : rs[t]? = some r) : (visitsOf t tr).Nodup := by
  obtain ⟨c, advanced⟩ := run_advanced bounded run here
  have own := bounded r (List.mem_of_getElem? here)
  rw [advanced.visits]
  refine List.Nodup.map_on ?_ List.nodup_range
  intro a first b second same
  rw [List.mem_range] at first second
  have few := advanced.few (by omega)
  have values := congrArg BitVec.toNat same
  rw [toNat_after (by omega), toNat_after (by omega)] at values
  omega

private theorem same_thread (disjoint : Disjoint rs) {s : Range w} {u : Nat} {k : BitVec w}
    (first : rs[t]? = some r) (second : rs[u]? = some s) (has : r.Has k) (has' : s.Has k) :
    t = u := by
  obtain ⟨inside, rfl⟩ := List.getElem?_eq_some_iff.mp first
  obtain ⟨inside', rfl⟩ := List.getElem?_eq_some_iff.mp second
  have apart := List.pairwise_iff_getElem.mp disjoint
  rcases Nat.lt_trichotomy t u with before | same | behind
  · exact absurd ⟨has, has'⟩ (apart t u inside inside' before k)
  · exact same
  · exact absurd ⟨has', has⟩ (apart u t inside' inside behind k)

private theorem count_of_thread {k : BitVec w} (only : ∀ v ∈ tr, v.index = k → v.thid = t) :
    (tr.map Visit.index).count k = (visitsOf t tr).count k := by
  induction tr with
  | nil => rfl
  | cons v tr ih =>
    have rest := ih (fun u member => only u (List.mem_cons_of_mem v member))
    by_cases own : v.thid = t
    · simp [visitsOf, own, List.count_cons] at rest ⊢
      exact rest
    · have other : v.index ≠ k := fun same => own (only v List.mem_cons_self same)
      simp [visitsOf, own, other] at rest ⊢
      exact rest

/-- No word is visited twice. -/
theorem nodup_visited (bounded : Bounded rs) (disjoint : Disjoint rs)
    (run : Run (Steps visit) rs tr rs') : (tr.map Visit.index).Nodup := by
  rw [List.nodup_iff_count_le_one]
  intro k
  by_cases visited : ∃ v ∈ tr, v.index = k
  · obtain ⟨v, member, rfl⟩ := visited
    obtain ⟨r, here, has⟩ := run_has bounded run member
    have only : ∀ u ∈ tr, u.index = v.index → u.thid = v.thid := by
      intro u member' same
      obtain ⟨s, here', has'⟩ := run_has bounded run member'
      exact same_thread disjoint here' here has' (same ▸ has)
    rw [count_of_thread only]
    exact List.nodup_iff_count_le_one.mp (nodup_visitsOf bounded run here) _
  · have none : k ∉ tr.map Visit.index := by
      intro member
      obtain ⟨v, inside, eq⟩ := List.mem_map.mp member
      exact visited ⟨v, inside, eq⟩
    rw [List.count_eq_zero_of_not_mem none]
    exact Nat.zero_le 1

/-- When all loops are at their ends, each word of the ranges has been visited. -/
theorem visited_of_finished (bounded : Bounded rs) (run : Run (Steps visit) rs tr rs')
    (finished : Finished rs') {k : BitVec w} (member : r ∈ rs) (has : r.Has k) :
    k ∈ tr.map Visit.index := by
  obtain ⟨t, inside, rfl⟩ := List.getElem_of_mem member
  obtain ⟨c, advanced⟩ := run_advanced bounded run (List.getElem?_eq_getElem inside)
  have own := bounded _ member
  have low : rs[t].i.toNat ≤ k.toNat := has.1
  have high : k.toNat ≤ rs[t].last.toNat := has.2
  have ended : rs[t].last.toNat < (rs[t].after c).i.toNat :=
    finished _ (List.mem_of_getElem? advanced.now)
  have few : rs[t].i.toNat + c ≤ rs[t].last.toNat + 1 := by
    by_cases first : c = 0
    · omega
    · exact advanced.few (Nat.pos_of_ne_zero first)
  rw [toNat_after (by omega)] at ended
  have visited : k ∈ visitsOf t tr := by
    rw [advanced.visits]
    refine List.mem_map.mpr ⟨k.toNat - rs[t].i.toNat, List.mem_range.mpr (by omega), ?_⟩
    apply BitVec.eq_of_toNat_eq
    rw [toNat_after (by omega)]
    omega
  obtain ⟨v, inTrace, eq⟩ := List.mem_filterMap.mp visited
  refine List.mem_map.mpr ⟨v, inTrace, ?_⟩
  split at eq
  · exact Option.some.inj eq
  · cases eq

theorem length_le (bounded : Bounded rs) (disjoint : Disjoint rs)
    (run : Run (Steps visit) rs tr rs') {n : Nat}
    (below : ∀ r ∈ rs, ∀ k, r.Has k → k.toNat < n) : tr.length ≤ n := by
  have distinct : ((tr.map Visit.index).map BitVec.toNat).Nodup :=
    (nodup_visited bounded disjoint run).map (fun _ _ => BitVec.eq_of_toNat_eq)
  have inside : (tr.map Visit.index).map BitVec.toNat ⊆ List.range n := by
    intro x member
    obtain ⟨k, visited, rfl⟩ := List.mem_map.mp member
    obtain ⟨v, inTrace, rfl⟩ := List.mem_map.mp visited
    obtain ⟨r, here, has⟩ := run_has bounded run inTrace
    exact List.mem_range.mpr (below r (List.mem_of_getElem? here) _ has)
  simpa using (distinct.subperm inside).length_le

theorem run_thread (here : rs[t]? = some r) {m : Nat} (more : ∀ j < m, (r.after j).i ≤ r.last) :
    ∃ rs', Run (Steps visit) rs ((List.range m).map (fun j => ⟨t, (r.after j).i⟩)) rs' ∧
      rs'[t]? = some (r.after m) := by
  induction m with
  | zero => exact ⟨rs, .start, by simpa using here⟩
  | succ m ih =>
    obtain ⟨rs', run, now⟩ := ih (fun j small => more j (by omega))
    have taken : visit rs' ⟨t, (r.after m).i⟩ =
        some (rs'.set t { r.after m with i := (r.after m).i + 1 }) :=
      visit_eq_some.mpr ⟨r.after m, now, rfl, more m (Nat.lt_succ_self m), rfl⟩
    refine ⟨rs'.set t { r.after m with i := (r.after m).i + 1 }, ?_, ?_⟩
    · rw [List.range_succ, List.map_append]
      exact .next run taken
    · rw [List.getElem?_set_self (List.getElem?_eq_some_iff.mp now).1, after_succ]

/-- A loop up to the largest word never ends. -/
theorem run_endless (here : rs[t]? = some r) (full : r.last = .allOnes w) (m : Nat) :
    ∃ tr rs', Run (Steps visit) rs tr rs' ∧ tr.length = m := by
  have more : ∀ j < m, (r.after j).i ≤ r.last := by
    intro j _
    have largest := (r.after j).i.isLt
    rw [full, BitVec.le_def, BitVec.toNat_allOnes]
    omega
  obtain ⟨rs', run, -⟩ := run_thread here more
  exact ⟨_, rs', run, by simp⟩

end Range

end Raft2pl.Lib
