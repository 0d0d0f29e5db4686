/- Any interleaving of the workers does what calls of transferWork one after the other do. -/

import Raft2pl.Silo.Prepared
import Raft2pl.Silo.Memory
import Raft2pl.Lib.Commits

set_option autoImplicit false
set_option relaxedAutoImplicit false

namespace Raft2pl.Silo

open Lib (Run Steps record record_next refine_run cString exec exec_reaches)

/-- The values in a table. -/
def values (table : Table) (k : BitVec 64) : Val := (table k).val

def quiet (v : BitVec 64 → Val) : Table := fun k => ⟨.zero, v k⟩

def StringsFit (table : Table) (req : ClientRequest) (beyondFrom beyondTo : List Byte) : Prop :=
  (cString (newFrom table req) beyondFrom).length ≤ 8 ∧ (cString (newTo table req) beyondTo).length ≤ 8

/-- A call of `transferWork` by a worker whom nobody disturbs, with strings that fit. -/
def Serves {W : Nat} (v : BitVec 64 → Val) (c : Fin W × ClientRequest) (v' : BitVec 64 → Val) :
    Prop :=
  ∃ beyondFrom beyondTo out, StringsFit (quiet v) (sorted c.2) beyondFrom beyondTo ∧
    transferWork c.1 1 beyondFrom beyondTo (quiet v) .new c.2 = some out ∧ out.ok = true ∧
      v' = values out.table

namespace Worker

/-- The request whose tid is chosen, until the call returns. -/
def pending (w : Worker) : List ClientRequest := if w.published then [w.req] else []

def running (w : Worker) : List ClientRequest :=
  if w.pc = .idle ∨ w.published then [] else [w.req]

end Worker

namespace Process

section Record

variable {W : Nat}

/-- A call commits where it chooses its tid. -/
def commits (s : Process W) : ProcessAct W → Process W → List (Fin W × ClientRequest)
  | .access i _ _, _ => if (s.worker i).pc = .commitTid then [(i, (s.worker i).req)] else []
  | _, _ => []

/-- A call returns true. -/
def returns (s : Process W) : ProcessAct W → Process W → List (Fin W × ClientRequest)
  | .access i _ _, t =>
      if (t.worker i).pc = .idle ∧ (s.worker i).x.status = .committed then
        [(i, (s.worker i).req)]
      else []
  | _, _ => []

/-- The calls of `transferWork`, with their keys in locking order. -/
def called : ProcessAct W → Option (Fin W × ClientRequest)
  | .transferWork i req => some (i, sorted req)
  | _ => none

def mine (i : Fin W) (calls : List (Fin W × ClientRequest)) : List ClientRequest :=
  calls.filterMap (fun c => if c.1 = i then some c.2 else none)

/-- The values of the table where all tids that are chosen have been written with their values. -/
structure Settles (s : Process W) (v : BitVec 64 → Val) : Prop where
  outstanding : ∀ i, ∀ e ∈ (s.worker i).outstanding, v e.key = e.copyTo i (s.table e.key).val
  settled : ∀ k, (∀ i, ∀ e ∈ (s.worker i).outstanding, e.key ≠ k) → v k = (s.table k).val

end Record

variable {W : Nat} {s s' s₀ : Process W} {tr : List (ProcessAct W)} {i : Fin W}
  {v : BitVec 64 → Val}

section Settle

private theorem mem_own_of_outstanding {w : Worker} {e : WriteElement} (member : e ∈ w.outstanding) :
    e.key ∈ w.own := by
  cases here : w.pc with
  | writeCopy d rest maxtid =>
    rw [Worker.outstanding, here] at member
    exact mem_own (by rwa [Worker.holds, here])
  | writeStore d rest maxtid =>
    rw [Worker.outstanding, here] at member
    exact mem_own (by rw [Worker.holds, here]; exact List.mem_cons_of_mem _ member)
  | _ => simp [Worker.outstanding, here] at member

private theorem outstanding_apart (inv : Inv s) {j : Fin W} (apart : j ≠ i) {k : BitVec 64}
    (own : k ∈ (s.worker i).own) {e : WriteElement} (member : e ∈ (s.worker j).outstanding) :
    e.key ≠ k := by
  rintro rfl
  exact inv.exclusive.disjoint apart (mem_own_of_outstanding member) own

private theorem settles_quiet (settles : s.Settles v)
    (same : ∀ j, (s'.worker j).outstanding = (s.worker j).outstanding)
    (values : ∀ k, (s'.table k).val = (s.table k).val) : s'.Settles v := by
  constructor
  · intro j e member
    rw [same] at member
    rw [values]
    exact settles.outstanding j e member
  · intro k none
    rw [values]
    refine settles.settled k (fun j e member => none j e ?_)
    rwa [same]

private theorem settles_copy (inv : Inv s) (settles : s.Settles v) {beyondFrom beyondTo : List Byte}
    {e : WriteElement} {rest : List WriteElement} {maxtid : Tidword}
    (here : (s.worker i).pc = .writeCopy e rest maxtid)
    (taken : s.access i beyondFrom beyondTo = some s') : s'.Settles v := by
  simp only [access, here, Option.some.injEq] at taken
  have mine : (s.worker i).outstanding = e :: rest := by simp [Worker.outstanding, here]
  have mine' : (s'.worker i).outstanding = rest := by
    rw [← taken, go_self]
    rfl
  have others : ∀ j, j ≠ i → (s'.worker j).outstanding = (s.worker j).outstanding := by
    intro j apart
    rw [← taken, go_of_ne _ apart]
  have copied : (s'.table e.key).val = v e.key := by
    rw [settles.outstanding i e (by simp [mine]), ← taken]
    exact storeVal_self _ _ _
  have kept : ∀ k, k ≠ e.key → (s'.table k).val = (s.table k).val := by
    intro k apart
    rw [← taken]
    exact congrArg Tuple.val (storeVal_of_ne apart _)
  have distinct : ((e :: rest).map WriteElement.key).Nodup := by
    have own := inv.exclusive.own_nodup i
    rwa [Worker.own, Worker.holds, here, Multiset.coe_nodup] at own
  constructor
  · intro j d member
    have before : d ∈ (s.worker j).outstanding ∧ d.key ≠ e.key := by
      by_cases eq : j = i
      · subst eq
        rw [mine'] at member
        refine ⟨by simp [mine, member], fun same => ?_⟩
        exact (List.nodup_cons.mp distinct).1 (same ▸ List.mem_map_of_mem member)
      · rw [others j eq] at member
        exact ⟨member, outstanding_apart inv eq (mem_own_of_outstanding (by simp [mine])) member⟩
    rw [kept _ before.2]
    exact settles.outstanding j d before.1
  · intro k none
    by_cases eq : k = e.key
    · rw [eq, copied]
    · rw [kept k eq]
      refine settles.settled k (fun j d member => ?_)
      by_cases here : j = i
      · subst here
        rw [mine] at member
        rcases List.mem_cons.mp member with rfl | later
        · exact Ne.symm eq
        · exact none j d (by rwa [mine'])
      · exact none j d (by rwa [others j here])

private theorem settled_own (inv : Inv s) (settles : s.Settles v)
    (clean : (s.worker i).outstanding = [])
    {k : BitVec 64} (own : k ∈ (s.worker i).own) : v k = (s.table k).val := by
  refine settles.settled k (fun j e member => ?_)
  by_cases eq : j = i
  · subst eq
    simp [clean] at member
  · exact outstanding_apart inv eq own member

private theorem settles_current (inv : Inv s) (settles : s.Settles v)
    (here : (s.worker i).pc = .commitTid) {r : ReadElement}
    (member : r ∈ (s.worker i).x.readSet) : v r.key = r.val := by
  have locking := committing_locking inv (i := i) (by simp [Worker.committing, here])
  obtain ⟨e, entry, key⟩ := locking.written member
  have inside : r.key ∈ (s.worker i).x.writeSet.map WriteElement.key :=
    key ▸ List.mem_map_of_mem entry
  have own : r.key ∈ (s.worker i).own := by
    rw [Worker.own, Worker.holds, here]
    exact Multiset.mem_coe.mpr inside
  have current := uncopied_current inv member (by simpa [Worker.uncopied, here] using inside)
  rw [← current.1]
  exact settled_own inv settles (by simp [Worker.outstanding, here]) own

private theorem settles_commit (inv : Inv s) (settles : s.Settles v)
    (transfers : (s.worker i).Transfers)
    {beyondFrom beyondTo : List Byte} (here : (s.worker i).pc = .commitTid)
    (fits : s.fits (.access i beyondFrom beyondTo) = true)
    (taken : s.access i beyondFrom beyondTo = some s') :
    ∃ v', Serves v (i, (s.worker i).req) v' ∧ s'.Settles v' := by
  obtain ⟨bFrom, bTo, rFrom, rTo, reads, keyFrom, keyTo, apart, ordered, writes⟩ := transfers
  generalize known : (s.worker i).req = req at *
  have valFrom : v (keyOf req.fromKey) = rFrom.val :=
    keyFrom ▸ settles_current inv settles here (by simp [reads])
  have valTo : v (keyOf req.toKey) = rTo.val :=
    keyTo ▸ settles_current inv settles here (by simp [reads])
  have unlocked : ∀ k, (quiet v k).tidword.lock = false := fun _ => rfl
  have free := transferWork_free (x := .new) i 1 bFrom bTo ⟨rfl, rfl⟩ apart
    (unlocked (keyOf (sorted req).fromKey)) (unlocked (keyOf (sorted req).toKey))
  simp only [ordered, newFrom, newTo, quiet, valFrom, valTo] at free
  obtain ⟨out, returned, ok, -, copiedFrom, copiedTo, rest⟩ := free
  have elements : ∀ e, e ∈ (s.worker i).x.writeSet ↔
      e = ⟨keyOf req.fromKey, cString (bytes (amount rFrom.val - req.diff)) bFrom⟩ ∨
        e = ⟨keyOf req.toKey, cString (bytes (amount rTo.val + req.diff)) bTo⟩ := by
    intro e
    rw [writes, sortWriteSet, (List.perm_insertionSort _ _).mem_iff]
    simp
  have short : ∀ e ∈ (s.worker i).x.writeSet, e.val.length ≤ 8 := by
    intro e member
    simp only [Process.fits, Worker.toCopy, here] at fits
    exact of_decide_eq_true (List.all_eq_true.mp fits e member)
  have strings : StringsFit (quiet v) (sorted req) bFrom bTo := by
    rw [ordered, StringsFit, newFrom, newTo, quiet, quiet, valFrom, valTo]
    exact ⟨short _ ((elements _).mpr (.inl rfl)), short _ ((elements _).mpr (.inr rfl))⟩
  refine ⟨values out.table, ⟨bFrom, bTo, out, strings, returned, ok, rfl⟩, ?_⟩
  simp only [access, here, Option.some.injEq] at taken
  have table : s'.table = s.table := by
    rw [← taken]
    rfl
  have mine : (s'.worker i).outstanding = (s.worker i).x.writeSet := by
    rw [← taken, go_self]
    exact nextWrite_outstanding _ _
  have others : ∀ j, j ≠ i → (s'.worker j).outstanding = (s.worker j).outstanding := by
    intro j apart
    rw [← taken, go_of_ne _ apart]
  have own : ∀ e ∈ (s.worker i).x.writeSet, e.key ∈ (s.worker i).own := by
    intro e member
    exact mem_own (by rwa [Worker.holds, here])
  have before : ∀ e ∈ (s.worker i).x.writeSet, v e.key = (s.table e.key).val := by
    intro e member
    exact settled_own inv settles (by simp [Worker.outstanding, here]) (own e member)
  have copied : ∀ e ∈ (s.worker i).x.writeSet,
      values out.table e.key = e.copyTo i (v e.key) := by
    intro e member
    rcases (elements e).mp member with rfl | rfl
    · exact copiedFrom.trans (congrArg _ valFrom.symm)
    · exact copiedTo.trans (congrArg _ valTo.symm)
  have kept : ∀ k, (∀ e ∈ (s.worker i).x.writeSet, e.key ≠ k) → values out.table k = v k := by
    intro k none
    exact rest k (fun same => none _ ((elements _).mpr (.inl rfl)) same.symm)
      (fun same => none _ ((elements _).mpr (.inr rfl)) same.symm)
  constructor
  · intro j e member
    rw [table]
    by_cases eq : j = i
    · subst eq
      rw [mine] at member
      rw [copied e member, before e member]
    · rw [others j eq] at member
      rw [kept e.key (fun d entry => (outstanding_apart inv eq (own d entry) member).symm)]
      exact settles.outstanding j e member
  · intro k none
    rw [table, kept k (fun e member => none i e (by rwa [mine]))]
    refine settles.settled k (fun j e member => ?_)
    by_cases eq : j = i
    · subst eq
      simp [Worker.outstanding, here] at member
    · exact none j e (by rwa [others j eq])

end Settle

structure Turn (w w' : Worker) (commits returns : List ClientRequest) : Prop where
  pending : w.pending ++ commits = returns ++ w'.pending
  running : (commits ++ w'.running).Sublist w.running

private theorem pending_published {w : Worker} (published : w.published = true) :
    w.pending = [w.req] ∧ w.running = [] := by
  simp [Worker.pending, Worker.running, published]

private theorem pending_unpublished {w : Worker} (busy : w.pc ≠ .idle)
    (before : w.published = false) :
    w.pending = [] ∧ w.running = [w.req] := by
  simp [Worker.pending, Worker.running, before, busy]

private theorem turn_early {w w' : Worker} (early : w'.Early w.req) (busy : w.pc ≠ .idle)
    (before : w.published = false) : Turn w w' [] [] := by
  obtain ⟨pending, running⟩ := pending_unpublished busy before
  constructor
  · rw [pending]
    simp [Worker.pending, early.published]
  · rw [running, List.nil_append, Worker.running, early.req]
    split <;> simp

private theorem turn_nextWrite {w : Worker} (published : w.published = true) (maxtid : Tidword)
    (es : List WriteElement) :
    Turn w (w.nextWrite maxtid es) []
      (if (w.nextWrite maxtid es).pc = .idle then [w.req] else []) := by
  obtain ⟨pending, running⟩ := pending_published published
  cases es with
  | nil => exact ⟨by rw [pending]; rfl, by rw [running]; exact List.Sublist.refl _⟩
  | cons e rest => exact ⟨by rw [pending]; rfl, by rw [running]; exact List.Sublist.refl _⟩

section Turn

variable {beyondFrom beyondTo : List Byte} (prepared : (s.worker i).Prepared)
  (taken : s.access i beyondFrom beyondTo = some s')

include prepared taken

private theorem turn_commitTid (here : (s.worker i).pc = .commitTid) :
    (s'.worker i).pc ≠ .idle ∧ Turn (s.worker i) (s'.worker i) [(s.worker i).req] [] := by
  simp only [Worker.Prepared, here] at prepared
  obtain ⟨bFrom, bTo, rFrom, rTo, -, -, -, -, -, writes⟩ := prepared
  obtain ⟨e, rest, first⟩ : ∃ e rest, (s.worker i).x.writeSet = e :: rest := by
    refine List.exists_cons_of_ne_nil (fun empty => ?_)
    have sizes := congrArg List.length (writes.symm.trans empty)
    rw [sortWriteSet, List.length_insertionSort] at sizes
    simp at sizes
  simp only [access, here, first, Option.some.injEq] at taken
  have published : (s'.worker i).published = true := by
    rw [← taken, go_self]
    rfl
  have req : (s'.worker i).req = (s.worker i).req := by
    rw [← taken, go_self]
    rfl
  obtain ⟨pending, running⟩ := pending_unpublished (w := s.worker i) (by simp [here])
    (by simp [Worker.published, here])
  obtain ⟨pending', running'⟩ := pending_published published
  refine ⟨?_, ?_, ?_⟩
  · rw [← taken, go_self]
    rintro ⟨⟩
  · rw [pending, pending', req]
  · rw [running, running']
    exact List.Sublist.refl _

private theorem access_turn (inv : Inv s) (held : s.Held) :
    Turn (s.worker i) (s'.worker i)
      (if (s.worker i).pc = .commitTid then [(s.worker i).req] else [])
      (if (s'.worker i).pc = .idle ∧ (s.worker i).x.status = .committed then
        [(s.worker i).req] else []) := by
  have sound := held.sound i
  cases here : (s.worker i).pc with
  | commitTid =>
    obtain ⟨busy, turn⟩ := turn_commitTid prepared taken here
    rw [if_pos rfl, if_neg (fun returns => busy returns.1)]
    exact turn
  | writeCopy e rest maxtid =>
    simp only [access, here, Option.some.injEq] at taken
    subst taken
    rw [go_self, if_neg (by simp), if_neg (by simp)]
    obtain ⟨pending, running⟩ := pending_published (w := s.worker i)
      (by simp [Worker.published, here])
    exact ⟨by rw [pending]; rfl, by rw [running]; exact List.Sublist.refl _⟩
  | writeStore e rest maxtid =>
    simp only [Worker.Sound, here] at sound
    simp only [access, here, Option.some.injEq] at taken
    subst taken
    rw [go_self, if_neg (by simp)]
    simp only [sound.1, and_true]
    have turn := turn_nextWrite (w := s.worker i) (by simp [Worker.published, here]) maxtid rest
    cases rest <;> exact turn
  | idle => simp [access, here] at taken
  | _ =>
    have early := access_early prepared taken (inv.good i).knows (by simp [Worker.committing, here])
    rw [if_neg (by simp), if_neg (by simp [Worker.Sound, here] at sound; simp [sound])]
    exact turn_early early (by simp [here]) (by simp [Worker.published, here])

end Turn

private theorem val_of_change {w w' : Worker} {table table' : Table}
    (change : Worker.Change w w' table table')
    (elsewhere : ∀ e rest maxtid, w.pc ≠ .writeCopy e rest maxtid) (k : BitVec 64) :
    (table' k).val = (table k).val := by
  cases change with
  | quiet => rfl
  | acquire => exact storeTid_val _ _ _ _
  | release => exact storeTid_val _ _ _ _
  | write _ _ committing =>
    obtain ⟨e, rest, maxtid, here⟩ := committing
    exact absurd here (elsewhere e rest maxtid)

private theorem outstanding_kept {w' : Worker} (workers : s'.worker = Function.update s.worker i w')
    (same : (s'.worker i).outstanding = (s.worker i).outstanding) (j : Fin W) :
    (s'.worker j).outstanding = (s.worker j).outstanding := by
  by_cases eq : j = i
  · subst eq
    exact same
  · rw [workers, Function.update_of_ne eq]

private theorem settles_access (inv : Inv s) (held : s.Held) (prepared : (s.worker i).Prepared)
    (settles : s.Settles v) {beyondFrom beyondTo : List Byte}
    (elsewhere : (s.worker i).pc ≠ .commitTid)
    (taken : s.access i beyondFrom beyondTo = some s') : s'.Settles v := by
  obtain ⟨w', workers, moves⟩ := access_moves (held.sound i) taken
  have quiet := fun not same => settles_quiet settles (outstanding_kept workers same)
    (val_of_change moves.change not)
  cases here : (s.worker i).pc with
  | commitTid => exact absurd here elsewhere
  | writeCopy e rest maxtid => exact settles_copy inv settles here taken
  | writeStore e rest maxtid =>
    refine quiet (fun d ds t there => by simp [here] at there) ?_
    simp only [access, here, Option.some.injEq] at taken
    rw [← taken, go_self, nextWrite_outstanding, Worker.outstanding, here]
  | idle => simp [access, here] at taken
  | _ =>
    refine quiet (fun d ds t there => by simp [here] at there) ?_
    rw [(access_early prepared taken (inv.good i).knows (by simp [Worker.committing, here])).outstanding,
      Worker.outstanding, here]

theorem settles_step {a : ProcessAct W} (inv : Inv s) (held : s.Held)
    (prepared : ∀ i, (s.worker i).Prepared) (settles : s.Settles v) (fits : s.fits a = true)
    (taken : s.step a = some s') : ∃ v', Run Serves v (commits s a s') v' ∧ s'.Settles v' := by
  cases a with
  | transferWork i req =>
    obtain ⟨w', workers, table, -⟩ := call_moves taken
    have idle : (s.worker i).pc = .idle := by
      rw [step, call] at taken
      split at taken
      next ready => exact ready.1
      next => cases taken
    refine ⟨v, .start, settles_quiet settles (outstanding_kept workers ?_)
      (fun k => by rw [table])⟩
    rw [(call_early inv taken).outstanding, Worker.outstanding, idle]
  | access i beyondFrom beyondTo =>
    rw [commits]
    split
    next here =>
      have transfers := prepared i
      rw [Worker.Prepared, here] at transfers
      obtain ⟨v', served, settles'⟩ := settles_commit inv settles transfers here fits taken
      exact ⟨v', .next .start served, settles'⟩
    next elsewhere =>
      exact ⟨v, .start, settles_access inv held (prepared i) settles elsewhere taken⟩
  | advanceEpoch =>
    obtain rfl := Option.some.inj taken
    exact ⟨v, .start, settles.outstanding, settles.settled⟩

private theorem settles_start (fresh : s.Fresh) : s.Settles (values s.table) where
  outstanding := fun i e member => by simp [Worker.outstanding, fresh.idle i] at member
  settled := fun _ _ => rfl

theorem roomy_run (run : Run (Steps stepSound) s₀ tr s) : Run (Steps stepRoomy) s₀ tr s :=
  run.mono (fun _ _ _ taken => (stepSound_some.mp taken).2)

theorem settles_run (fresh : s₀.Fresh) (run : Run (Steps stepSound) s₀ tr s) :
    ∃ v, Run Serves (values s₀.table) (record stepSound commits s₀ tr) v ∧ s.Settles v := by
  refine refine_run (R := Settles) (fun tr s a t v before taken settles => ?_) (settles_start fresh) run
  obtain ⟨fits, moved⟩ := stepSound_some.mp taken
  exact settles_step (inv_run fresh (roomy_run before)) (held_roomy fresh (roomy_run before))
    (prepared_run fresh (roomy_run before)) settles fits (stepRoomy_some.mp moved).2

theorem settles_values (settles : s.Settles v) (quiet : ∀ i, (s.worker i).published = false) :
    v = values s.table := by
  funext k
  refine settles.settled k (fun i e member => ?_)
  have early := quiet i
  cases here : (s.worker i).pc <;> simp [Worker.outstanding, Worker.published, here] at member early

@[simp] theorem mine_append (i : Fin W) (l l' : List (Fin W × ClientRequest)) :
    mine i (l ++ l') = mine i l ++ mine i l' :=
  List.filterMap_append

theorem mine_self (i : Fin W) (req : ClientRequest) : mine i [(i, req)] = [req] := by
  simp [mine]

theorem mine_other {j : Fin W} (apart : j ≠ i) (req : ClientRequest) : mine j [(i, req)] = [] := by
  simp [mine, apart.symm]

/-- What a step adds to the records of a worker goes with what happens to its call. -/
structure Books (s : Process W) (a : ProcessAct W) (s' : Process W) (j : Fin W) : Prop where
  pending : (s.worker j).pending ++ mine j (commits s a s') =
    mine j (returns s a s') ++ (s'.worker j).pending
  running : (mine j (commits s a s') ++ (s'.worker j).running).Sublist
    ((s.worker j).running ++ mine j ([a].filterMap called))

private theorem books_same {a : ProcessAct W} {j : Fin W} (same : s'.worker j = s.worker j)
    (none : mine j (commits s a s') = [] ∧ mine j (returns s a s') = []) : Books s a s' j := by
  constructor
  · rw [none.1, none.2, same, List.append_nil, List.nil_append]
  · rw [none.1, same, List.nil_append]
    exact List.sublist_append_left _ _

private theorem books_call {req : ClientRequest} (inv : Inv s) (taken : s.call i req = some s') :
    Books s (.transferWork i req) s' i := by
  have early := call_early inv taken
  have idle : (s.worker i).pc = .idle := by
    rw [call] at taken
    split at taken
    next ready => exact ready.1
    next => cases taken
  have before : (s.worker i).published = false := by simp [Worker.published, idle]
  constructor
  · simp [commits, returns, mine, Worker.pending, early.published, before]
  · have entry : mine i ([ProcessAct.transferWork i req].filterMap called) = [sorted req] :=
      mine_self i _
    rw [entry, Worker.running, early.req]
    simp only [commits, mine, List.filterMap_nil, List.nil_append]
    split
    · exact List.nil_sublist _
    · exact List.sublist_append_right _ _

private theorem books_access {beyondFrom beyondTo : List Byte} (inv : Inv s) (held : s.Held)
    (prepared : (s.worker i).Prepared) (taken : s.access i beyondFrom beyondTo = some s') :
    Books s (.access i beyondFrom beyondTo) s' i := by
  have turn := access_turn prepared taken inv held
  have part : ∀ (p : Prop) [Decidable p], mine i (if p then [(i, (s.worker i).req)] else []) =
      if p then [(s.worker i).req] else [] := by
    intro p _
    split
    · exact mine_self i _
    · rfl
  constructor
  · rw [commits, returns, part, part]
    exact turn.pending
  · have entry : mine i ([ProcessAct.access i beyondFrom beyondTo].filterMap called) = [] := rfl
    rw [commits, part, entry, List.append_nil]
    exact turn.running

private theorem books_step {a : ProcessAct W} (inv : Inv s) (held : s.Held)
    (prepared : ∀ i, (s.worker i).Prepared) (taken : s.step a = some s') (j : Fin W) :
    Books s a s' j := by
  cases a with
  | transferWork i req =>
    obtain ⟨w', workers, -⟩ := call_moves taken
    by_cases eq : j = i
    · subst eq
      exact books_call inv taken
    · exact books_same (by rw [workers, Function.update_of_ne eq]) ⟨rfl, rfl⟩
  | access i beyondFrom beyondTo =>
    obtain ⟨w', workers, -⟩ := access_moves (held.sound i) taken
    by_cases eq : j = i
    · subst eq
      exact books_access inv held (prepared j) taken
    · refine books_same (by rw [workers, Function.update_of_ne eq]) ⟨?_, ?_⟩
      · rw [commits]
        split
        · exact mine_other eq _
        · rfl
      · rw [returns]
        split
        · exact mine_other eq _
        · rfl
  | advanceEpoch =>
    obtain rfl := Option.some.inj taken
    exact books_same rfl ⟨rfl, rfl⟩

theorem books_run (fresh : s₀.Fresh) (run : Run (Steps stepSound) s₀ tr s) (i : Fin W) :
    mine i (record stepSound commits s₀ tr) =
        mine i (record stepSound returns s₀ tr) ++ (s.worker i).pending ∧
      (mine i (record stepSound commits s₀ tr) ++ (s.worker i).running).Sublist
        (mine i (tr.filterMap called)) := by
  refine run.invariant (I := fun tr s => mine i (record stepSound commits s₀ tr) =
      mine i (record stepSound returns s₀ tr) ++ (s.worker i).pending ∧
      (mine i (record stepSound commits s₀ tr) ++ (s.worker i).running).Sublist
        (mine i (tr.filterMap called))) ?_ (fun tr s a t before ih taken => ?_)
  · simp [record, mine, Worker.pending, Worker.running, Worker.published, fresh.idle i]
  · have moved := (stepRoomy_some.mp (stepSound_some.mp taken).2).2
    have books := books_step (inv_run fresh (roomy_run before)) (held_roomy fresh (roomy_run before))
      (prepared_run fresh (roomy_run before)) moved i
    rw [record_next before taken, record_next before taken, List.filterMap_append, mine_append,
      mine_append, mine_append]
    constructor
    · rw [ih.1, List.append_assoc, books.pending, List.append_assoc]
    · rw [List.append_assoc]
      refine ((List.Sublist.refl _).append books.running).trans ?_
      rw [← List.append_assoc]
      exact ih.2.append (List.Sublist.refl _)

/-- Any interleaving of the workers that wraps no tid, and copies no string into the next tuple, leaves
the values that some sequence of undisturbed calls leaves, each of which takes place inside its own
call. They are the calls that have returned true, and those that will. -/
theorem serializable (fresh : s₀.Fresh) (run : Run (Steps stepSound) s₀ tr s) :
    ∃ v, Run Serves (values s₀.table) (record stepSound commits s₀ tr) v ∧ s.Settles v ∧
      ((∀ i, (s.worker i).published = false) → v = values s.table) ∧
      ∀ i, mine i (record stepSound commits s₀ tr) =
          mine i (record stepSound returns s₀ tr) ++ (s.worker i).pending ∧
        (mine i (record stepSound commits s₀ tr)).Sublist (mine i (tr.filterMap called)) := by
  obtain ⟨v, served, settles⟩ := settles_run fresh run
  refine ⟨v, served, settles, settles_values settles, fun i => ?_⟩
  obtain ⟨returned, called⟩ := books_run fresh run i
  exact ⟨returned, (List.sublist_append_left _ _).trans called⟩

section Example

/-- Worker 0 has still to write account 2, and worker 1 has not chosen a tid. -/
theorem serializable_overlap :
    ∃ s v, Run (Steps stepSound) (start (tableOf 5)) overlapTrace s ∧
      Run (Serves (W := 2)) (values (tableOf 5)) [(0, ⟨1, 2, 3, 0⟩)] v ∧ s.Settles v ∧
      (s.table 2).val = bytes 5 ∧ v 2 = bytes 8 := by
  have done : (exec stepSound (start (tableOf 5)) overlapTrace).map (fun s => decide
      ((s.table 2).val = bytes 5 ∧ ∃ e ∈ (s.worker 0).outstanding, e.key = 2 ∧
        e.copyTo 0 (bytes 5) = bytes 8)) = some true := by decide
  obtain ⟨s, run, holds⟩ := exec_reaches done
  obtain ⟨stale, e, member, key, copy⟩ := of_decide_eq_true holds
  obtain ⟨v, served, settles, -⟩ := serializable (start_fresh (fun _ => rfl)) run
  refine ⟨s, v, run, served, settles, stale, ?_⟩
  have copied := settles.outstanding 0 e member
  rw [key, stale] at copied
  exact copied.trans copy

end Example

end Process

end Raft2pl.Silo
