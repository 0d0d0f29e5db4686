/- Stream connections: what is sent arrives in order and in pieces of any size, and a read waits until
all that it asked for has arrived. -/

import Mathlib.Data.List.Basic

set_option autoImplicit false
set_option relaxedAutoImplicit false

namespace Raft2pl.Lib

universe u

/-- What is on its way through a connection, and what has arrived and is not read yet. -/
structure Pipe (β : Type u) where
  flight : List β
  arrived : List β

namespace Pipe

variable {β : Type u}

def fresh : Pipe β := ⟨[], []⟩

def send (p : Pipe β) (bs : List β) : Pipe β := { p with flight := p.flight ++ bs }

def arrive (p : Pipe β) (n : Nat) : Pipe β := ⟨p.flight.drop n, p.arrived ++ p.flight.take n⟩

/-- A `recv` that waits for `n` elements; `none` while it waits. -/
def recv (p : Pipe β) (n : Nat) : Option (List β × Pipe β) :=
  if n ≤ p.arrived.length then some (p.arrived.take n, { p with arrived := p.arrived.drop n })
  else none

def unread (p : Pipe β) : List β := p.arrived ++ p.flight

variable {p p' : Pipe β} {bs first rest : List β} {n : Nat}

@[simp] theorem unread_fresh : (fresh : Pipe β).unread = [] := rfl

@[simp] theorem unread_send (p : Pipe β) (bs : List β) : (p.send bs).unread = p.unread ++ bs := by
  simp [send, unread]

@[simp] theorem unread_arrive (p : Pipe β) (n : Nat) : (p.arrive n).unread = p.unread := by
  simp [arrive, unread]

theorem flight_arrive_all (p : Pipe β) : (p.arrive p.flight.length).flight = [] := by
  simp [arrive]

/-- A read takes the first elements that are not read yet. -/
theorem recv_spec (got : p.recv n = some (bs, p')) :
    bs.length = n ∧ p.unread = bs ++ p'.unread ∧ p'.flight = p.flight := by
  simp only [recv, Option.ite_none_right_eq_some, Option.some.injEq, Prod.mk.injEq] at got
  obtain ⟨there, rfl, rfl⟩ := got
  refine ⟨List.length_take_of_le there, ?_, rfl⟩
  rw [unread, unread, ← List.append_assoc, List.take_append_drop]

theorem recv_first (got : p.recv n = some (bs, p')) (cut : p.unread = first ++ rest)
    (size : first.length = n) : bs = first ∧ p'.unread = rest ∧ p'.flight = p.flight := by
  obtain ⟨length, split, flight⟩ := recv_spec got
  rw [cut] at split
  obtain ⟨rfl, rfl⟩ := List.append_inj split (by rw [size, length])
  exact ⟨rfl, rfl, flight⟩

theorem recv_shorter (got : p.recv n = some (bs, p')) (some' : 0 < n) :
    p'.unread.length < p.unread.length := by
  obtain ⟨length, split, -⟩ := recv_spec got
  rw [split, List.length_append, length]
  omega

theorem recv_of_unread (arrived : p.flight = []) (cut : p.unread = first ++ rest)
    (size : first.length = n) : ∃ p', p.recv n = some (first, p') := by
  cases got : p.recv n with
  | none =>
    simp only [recv, ite_eq_right_iff, reduceCtorEq, imp_false, Nat.not_le] at got
    have length := congrArg List.length cut
    rw [unread, arrived, List.append_nil, List.length_append, size] at length
    omega
  | some result =>
    obtain ⟨bs, p'⟩ := result
    obtain ⟨rfl, -⟩ := recv_first got cut size
    exact ⟨p', rfl⟩

end Pipe

end Raft2pl.Lib
