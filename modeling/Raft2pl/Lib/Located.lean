/- Where the items of batches are, counted over all batches of a list. -/

import Mathlib.Data.List.Infix

set_option autoImplicit false
set_option relaxedAutoImplicit false

namespace Raft2pl.Lib

universe u v

variable {α : Type u} {β : Type v} {f : α → List β} {as bs pre post : List α} {a b : α} {k i : Nat}

/-- Item number `k` of all batches is number `i` of batch `a`. -/
def Located (f : α → List β) (as : List α) (k : Nat) (a : α) (i : Nat) : Prop :=
  ∃ pre post, as = pre ++ a :: post ∧ k = (pre.flatMap f).length + i ∧ i < (f a).length

theorem Located.getElem?_eq (located : Located f as k a i) : (as.flatMap f)[k]? = (f a)[i]? := by
  obtain ⟨pre, post, rfl, rfl, small⟩ := located
  rw [List.flatMap_append, List.flatMap_cons, List.getElem?_append_right (Nat.le_add_right _ _),
    Nat.add_sub_cancel_left, List.getElem?_append_left small]

theorem exists_located (small : k < (as.flatMap f).length) : ∃ a i, Located f as k a i := by
  induction as generalizing k with
  | nil => simp at small
  | cons b as ih =>
    by_cases here : k < (f b).length
    · exact ⟨b, k, [], as, rfl, by simp, here⟩
    · rw [List.flatMap_cons, List.length_append] at small
      obtain ⟨a, i, pre, post, rfl, rank, inside⟩ := ih (k := k - (f b).length) (by omega)
      refine ⟨a, i, b :: pre, post, rfl, ?_, inside⟩
      rw [List.flatMap_cons, List.length_append]
      omega

theorem Located.append (located : Located f as k a i) (bs : List α) :
    Located f (as ++ bs) k a i := by
  obtain ⟨pre, post, rfl, rank, inside⟩ := located
  exact ⟨pre, post ++ bs, by simp, rank, inside⟩

theorem Located.mem (located : Located f as k a i) : a ∈ as := by
  obtain ⟨pre, post, rfl, -, -⟩ := located
  simp

theorem Located.earlier (located : Located f (pre ++ b :: post) k a i)
    (early : k < ((pre ++ [b]).flatMap f).length) : a ∈ pre ++ [b] := by
  obtain ⟨pre', post', split, rank, -⟩ := located
  have beyond : ¬ pre ++ [b] <+: pre' := by
    rintro ⟨rest, rfl⟩
    rw [List.flatMap_append, List.length_append] at rank
    omega
  have first : pre ++ [b] <+: pre ++ b :: post := ⟨post, by simp⟩
  have second : pre' <+: pre ++ b :: post := ⟨a :: post', split.symm⟩
  rcases List.prefix_or_prefix_of_prefix first second with inside | ⟨rest, inside⟩
  · exact absurd inside beyond
  · cases rest with
    | nil =>
      rw [List.append_nil] at inside
      exact absurd ⟨[], by rw [inside, List.append_nil]⟩ beyond
    | cons c rest =>
      have whole : pre' ++ a :: post' = pre' ++ (c :: rest ++ post) := by
        rw [← split, ← List.append_assoc, inside]
        simp
      obtain ⟨rfl, -⟩ := List.cons.inj (List.append_cancel_left whole)
      rw [← inside]
      simp

theorem mem_of_isPrefix (initial : as <+: pre ++ b :: post) (nodup : (pre ++ b :: post).Nodup)
    (reached : b ∈ as) (earlier : a ∈ pre ++ [b]) : a ∈ as := by
  have first : pre ++ [b] <+: pre ++ b :: post := ⟨post, by simp⟩
  rcases List.prefix_or_prefix_of_prefix first initial with inside | inside
  · exact inside.subset earlier
  · rcases List.prefix_concat_iff.mp inside with rfl | shorter
    · exact earlier
    · have apart := (List.nodup_append.mp nodup).2.2
      exact absurd rfl (apart b (shorter.subset reached) b List.mem_cons_self)

end Raft2pl.Lib
