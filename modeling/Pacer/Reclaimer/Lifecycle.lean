import Pacer.Reclaimer.GracePeriod
import Mathlib.Algebra.BigOperators.Group.Finset.Basic

set_option autoImplicit false

/-! # Conservation of the retired nodes

The machine of `Reclaimer/Model.lean` with threads that come and go. `initThread` allocates the
three bags of a thread for a record type, `deinitThread` moves their content to the pool and
deletes them; outside of `startOp` either may happen any number of times. A `startOp` needs the
bags of every record type, a `retire` those of its own; it may come before the first operation.

Two histories record what a thread has retired and what it has handed to the pool, by record type.
The nodes in the bags and the nodes handed over are the retired ones (`Life.Kept`), one step at a
time: only `retire` adds a node, only `pool->add` and `deinitThread` take nodes away, and the
rotation permutes.
-/

namespace Pacer.Reclaimer

open Machine

section

variable {F P : Type} [F64 F] [DecidableEq P] {N m : Nat}

/-! ## Threads that come and go -/

/-- The machine, which bags are allocated, and two histories. -/
structure Life (F P : Type) (N : Nat) where
  base : State F P N
  /-- The three bags of the thread for the record type are not `NULL`. -/
  live : Fin N → Nat → Bool
  /-- What the thread has retired. -/
  retired : Fin N → Nat → Multiset (Node P N)
  /-- What the thread has handed to the pool. -/
  handed : Fin N → Nat → Multiset (Node P N)

inductive LifeAction (P : Type) (N : Nat) where
  | op (a : Action P N)
  /-- a `retire` between two operations or before the first -/
  | retire (i : Fin N) (j : Nat) (ptr : P)
  | initThread (i : Fin N) (j : Nat)
  | deinitThread (i : Fin N) (j : Nat)

namespace Life

def init (F P : Type) [F64 F] (N : Nat) : Life F P N :=
  { base := Reclaimer.init F P N, live := fun _ _ => false, retired := fun _ _ => 0,
    handed := fun _ _ => 0 }

/-- No thread has retired the node at `ptr`. -/
def Fresh (m : Nat) (s : Life F P N) (ptr : P) : Prop :=
  ∀ i, ∀ j < m, ∀ e ∈ s.retired i j, e.ptr ≠ ptr

instance (m : Nat) (s : Life F P N) (ptr : P) : Decidable (s.Fresh m ptr) :=
  inferInstanceAs (Decidable (∀ _, _))

/-- What an action finds allocated; the nodes retired are distinct. -/
def Allows (m : Nat) (s : Life F P N) : Action P N → Prop
  | .startOp i _ => ∀ j < m, s.live i j = true
  | .retire i j ptr => s.live i j = true ∧ s.Fresh m ptr
  | _ => True

instance (m : Nat) (s : Life F P N) : (a : Action P N) → Decidable (s.Allows m a)
  | .startOp _ _ => inferInstanceAs (Decidable (∀ _, _))
  | .retire _ _ _ => inferInstanceAs (Decidable (_ ∧ _))
  | .run _ | .rotate _ _ | .poolAdd _ _ | .endOp _ => inferInstanceAs (Decidable True)

/-- The allocation of the bags after a change to those of thread `i` and record type `j`. -/
def setLive (s : Life F P N) (i : Fin N) (j : Nat) (b : Bool) : Fin N → Nat → Bool :=
  Function.update s.live i (Function.update (s.live i) j b)

/-- The thread is not inside of `startOp`. -/
def Outside (s : Life F P N) (i : Fin N) : Prop :=
  s.base.pc i = .idle ∨ s.base.pc i = .body

instance (s : Life F P N) (i : Fin N) : Decidable (s.Outside i) :=
  inferInstanceAs (Decidable (_ ∨ _))

/-- A step `a` of the machine to `base`. -/
def after (s : Life F P N) (a : Action P N) (base : State F P N) : Life F P N :=
  { s with
    base := base
    retired := fun u k => s.retired u k + a.retires s.base u k
    handed := fun u k => s.handed u k + a.hands u k }

/-- `new blockbag`, three times. -/
def allocate (s : Life F P N) (i : Fin N) (j : Nat) : Life F P N :=
  { s with
    base := { s.base with bags := s.base.setBags i j Bags.empty }
    live := s.setLive i j true }

/-- `pool->addMoveAll` and `delete`, for each of the three bags. -/
def release (s : Life F P N) (i : Fin N) (j : Nat) : Life F P N :=
  { s with
    base := { s.base with bags := s.base.setBags i j Bags.empty }
    live := s.setLive i j false
    handed := fun u k => s.handed u k + if i = u ∧ j = k then (s.base.bags i j).nodes else 0 }

def step (m : Nat) (s : Life F P N) : LifeAction P N → Option (Life F P N)
  | .op a => if s.Allows m a then (Reclaimer.step m s.base a).map (s.after a) else none
  | .retire i j ptr =>
      if s.base.pc i = .idle ∧ j < m ∧ s.Allows m (.retire i j ptr) then
        some (s.after (.retire i j ptr) (s.base.retireNode i j ptr))
      else none
  | .initThread i j =>
      if s.Outside i ∧ j < m then some (if s.live i j then s else s.allocate i j) else none
  | .deinitThread i j =>
      if s.Outside i ∧ j < m then some (if s.live i j then s.release i j else s) else none

/-- The steps, one constructor for each outcome. -/
inductive Stepped (m : Nat) (s : Life F P N) : LifeAction P N → Life F P N → Prop
  | op (a : Action P N) (base : State F P N) (ha : s.Allows m a)
      (hbase : Reclaimer.step m s.base a = some base) : Stepped m s (.op a) (s.after a base)
  | retire (i : Fin N) (j : Nat) (ptr : P) (hj : j < m) (ha : s.Allows m (.retire i j ptr)) :
      Stepped m s (.retire i j ptr) (s.after (.retire i j ptr) (s.base.retireNode i j ptr))
  | allocate (i : Fin N) (j : Nat) (hlive : s.live i j = false) :
      Stepped m s (.initThread i j) (s.allocate i j)
  | initAgain (i : Fin N) (j : Nat) (hlive : s.live i j = true) : Stepped m s (.initThread i j) s
  | release (i : Fin N) (j : Nat) (hlive : s.live i j = true) :
      Stepped m s (.deinitThread i j) (s.release i j)
  | deinitAgain (i : Fin N) (j : Nat) (hlive : s.live i j = false) :
      Stepped m s (.deinitThread i j) s

/-- **Inversion of a step.** -/
theorem step_cases {s s' : Life F P N} {a : LifeAction P N} (h : s.step m a = some s') :
    Stepped m s a s' := by
  cases a with
  | op a =>
      simp only [step] at h
      split at h
      · rename_i ha
        obtain ⟨base, hbase, rfl⟩ := Option.map_eq_some_iff.mp h
        exact .op a base ha hbase
      · cases h
  | retire i j ptr =>
      simp only [step] at h
      split at h
      · rename_i hguard
        cases h
        exact .retire i j ptr hguard.2.1 hguard.2.2
      · cases h
  | initThread i j =>
      simp only [step] at h
      split at h
      · cases hlive : s.live i j with
        | true => rw [hlive] at h; cases h; exact .initAgain i j hlive
        | false => rw [hlive] at h; cases h; exact .allocate i j hlive
      · cases h
  | deinitThread i j =>
      simp only [step] at h
      split at h
      · cases hlive : s.live i j with
        | true => rw [hlive] at h; cases h; exact .release i j hlive
        | false => rw [hlive] at h; cases h; exact .deinitAgain i j hlive
      · cases h

/-- `getSizeInNodes` of the reclaimer of record type `j`. -/
def getSizeInNodes (s : Life F P N) (j : Nat) : Nat :=
  ∑ i, if s.live i j then
      (s.base.bags i j).curr.card + (s.base.bags i j).last.card
        + (s.base.bags i j).deamortizedFreeables.card
    else 0

/-! ## Conservation -/

/-- What thread `i` keeps and what it has handed over is what it has retired. -/
structure Kept (s : Life F P N) (i : Fin N) (j : Nat) : Prop where
  conserved : (s.base.bags i j).nodes + s.handed i j = s.retired i j
  dead : s.live i j = false → (s.base.bags i j).nodes = 0

omit [DecidableEq P] in
theorem kept_init (i : Fin N) (j : Nat) : (init F P N).Kept i j :=
  ⟨rfl, fun _ => rfl⟩

section

omit [F64 F] [DecidableEq P]

theorem setLive_eq (s : Life F P N) (i : Fin N) (j : Nat) (b : Bool) (u : Fin N) (k : Nat) :
    s.setLive i j b u k = if i = u ∧ j = k then b else s.live u k := by
  unfold setLive
  by_cases hu : u = i
  · subst hu
    by_cases hk : k = j
    · subst hk
      simp
    · rw [Function.update_self, Function.update_of_ne hk, if_neg (fun h => hk h.2.symm)]
  · rw [Function.update_of_ne hu, if_neg (fun h => hu h.1.symm)]

theorem Kept.after {s : Life F P N} {base : State F P N} {a : Action P N} {u : Fin N} {j : Nat}
    (h : s.Kept u j) (ha : s.Allows m a)
    (hnodes : (base.bags u j).nodes + a.hands u j
      = (s.base.bags u j).nodes + a.retires s.base u j) :
    (s.after a base).Kept u j := by
  constructor
  · calc (base.bags u j).nodes + (s.handed u j + a.hands u j)
        = (base.bags u j).nodes + a.hands u j + s.handed u j := by ac_rfl
      _ = (s.base.bags u j).nodes + s.handed u j + a.retires s.base u j := by
        rw [hnodes]
        ac_rfl
      _ = s.retired u j + a.retires s.base u j := by rw [h.conserved]
  · intro hdead
    have hnone : a.retires s.base u j = 0 := by
      cases a with
      | retire i k ptr =>
          -- the thread has bags to retire into
          refine if_neg ?_
          rintro ⟨rfl, rfl⟩
          exact Bool.false_ne_true (hdead.symm.trans ha.1)
      | _ => rfl
    rw [h.dead hdead, hnone, add_zero] at hnodes
    exact Multiset.le_zero.mp (hnodes ▸ Multiset.le_add_right _ _)

theorem Kept.allocate {s : Life F P N} {i u : Fin N} {j k : Nat} (h : s.Kept u k)
    (hlive : s.live i j = false) : (s.allocate i j).Kept u k := by
  have hbags : ((s.allocate i j).base.bags u k).nodes = (s.base.bags u k).nodes := by
    show (s.base.setBags i j Bags.empty u k).nodes = _
    rw [nodes_setBags]
    split
    · rename_i hij
      obtain ⟨rfl, rfl⟩ := hij
      exact (h.dead hlive).symm
    · rfl
  constructor
  · rw [hbags]
    exact h.conserved
  · intro hdead
    have hdead' : s.setLive i j true u k = false := hdead
    rw [hbags]
    rw [setLive_eq] at hdead'
    split at hdead'
    · cases hdead'
    · exact h.dead hdead'

theorem Kept.release {s : Life F P N} {i u : Fin N} {j k : Nat} (h : s.Kept u k) :
    (s.release i j).Kept u k := by
  constructor
  · show (s.base.setBags i j Bags.empty u k).nodes
      + (s.handed u k + if i = u ∧ j = k then (s.base.bags i j).nodes else 0) = s.retired u k
    rw [nodes_setBags, ← h.conserved]
    split
    · rename_i hij
      obtain ⟨rfl, rfl⟩ := hij
      rw [Bags.nodes_empty, zero_add, add_comm]
    · rw [add_zero]
  · intro hdead
    have hdead' : s.setLive i j false u k = false := hdead
    show (s.base.setBags i j Bags.empty u k).nodes = 0
    rw [nodes_setBags]
    rw [setLive_eq] at hdead'
    split
    · rfl
    · rename_i hij
      rw [if_neg hij] at hdead'
      exact h.dead hdead'

end

theorem kept_step {s s' : Life F P N} {a : LifeAction P N} (h : s.step m a = some s')
    (hs : ∀ i j, s.Kept i j) (u : Fin N) (k : Nat) : s'.Kept u k := by
  cases step_cases h with
  | op a base ha hbase => exact (hs u k).after ha (nodes_step (Reclaimer.step_cases hbase) u k)
  | retire i j ptr hj ha =>
      -- the thread is between two operations, so this is not a step of the machine
      refine (hs u k).after ha ?_
      rw [nodes_retireNode]
      exact add_zero _
  | allocate i j hlive => exact (hs u k).allocate hlive
  | release i j hlive => exact (hs u k).release
  | initAgain | deinitAgain => exact hs u k

theorem kept_run {s : Life F P N} {tr : List (Trans (Life F P N) (LifeAction P N))}
    (h : Run (step m) (init F P N) tr s) (i : Fin N) (j : Nat) : s.Kept i j :=
  h.invariant (I := fun s => ∀ i j, s.Kept i j) kept_init
    (fun _ _ _ hI hs => kept_step hs hI) i j

/-! ## The retired nodes are distinct -/

/-- No node is retired twice, by whatever thread and record type. -/
structure Distinct (m : Nat) (s : Life F P N) : Prop where
  nodup : ∀ i j, (s.retired i j).Nodup
  owner : ∀ i j i' j', ∀ e ∈ s.retired i j, ∀ e' ∈ s.retired i' j', e.ptr = e'.ptr →
    i' = i ∧ j' = j
  bound : ∀ i j, m ≤ j → s.retired i j = 0

omit [F64 F] [DecidableEq P] in
/-- It depends on the history of what was retired only. -/
theorem Distinct.congr {s s' : Life F P N} (h : s.Distinct m) (heq : s'.retired = s.retired) :
    s'.Distinct m := by
  refine ⟨?_, ?_, ?_⟩ <;> rw [heq]
  · exact h.nodup
  · exact h.owner
  · exact h.bound

omit [DecidableEq P] in
theorem distinct_init : Distinct m (init F P N) := by
  refine ⟨fun _ _ => Multiset.nodup_zero, fun _ _ _ _ e he => ?_, fun _ _ _ => rfl⟩
  exact absurd he (Multiset.notMem_zero e)

section

omit [F64 F] [DecidableEq P]

/-- Where nothing is retired the history stands still. -/
theorem retires_eq_zero {s : State F P N} {a : Action P N} {u : Fin N} {k : Nat}
    (h : ∀ ptr, a ≠ .retire u k ptr) : a.retires s u k = 0 := by
  rw [Multiset.eq_zero_iff_forall_notMem]
  intro e he
  obtain ⟨ptr, hact, -⟩ := mem_retires he
  exact h ptr hact

/-- A node retired now is at an address that no earlier one is at. -/
theorem Distinct.fresh {s : Life F P N} (h : s.Distinct m) {ptr : P} (hf : s.Fresh m ptr)
    {i : Fin N} {j : Nat} {e : Node P N} (he : e ∈ s.retired i j) : e.ptr ≠ ptr := by
  by_cases hj : j < m
  · exact hf i j hj e he
  · rw [h.bound i j (by omega)] at he
    exact absurd he (Multiset.notMem_zero e)

theorem Distinct.after {s : Life F P N} {base : State F P N} {a : Action P N}
    (h : s.Distinct m) (ha : s.Allows m a) (hbound : ∀ i j ptr, a = .retire i j ptr → j < m) :
    (s.after a base).Distinct m := by
  by_cases hret : ∃ i j ptr, a = .retire i j ptr
  · obtain ⟨i, j, ptr, rfl⟩ := hret
    have hfresh : s.Fresh m ptr := ha.2
    have hj := hbound i j ptr rfl
    -- what is in the history now was there before, or is the new node
    have hmem : ∀ u k, ∀ e ∈ s.retired u k + (Action.retire i j ptr).retires s.base u k,
        e ∈ s.retired u k ∨ (u = i ∧ k = j ∧ e = s.base.node ptr) := by
      intro u k e he
      rcases Multiset.mem_add.mp he with he | he
      · exact Or.inl he
      · obtain ⟨ptr', hact, rfl⟩ := mem_retires he
        cases hact
        exact Or.inr ⟨rfl, rfl, rfl⟩
    refine ⟨fun u k => ?_, fun u k u' k' e he e' he' hptr => ?_, fun u k hk => ?_⟩
    · show (s.retired u k + (if i = u ∧ j = k then {s.base.node ptr} else 0)).Nodup
      split
      · rw [add_comm, Multiset.singleton_add, Multiset.nodup_cons]
        exact ⟨fun hin => h.fresh hfresh hin rfl, h.nodup u k⟩
      · rw [add_zero]
        exact h.nodup u k
    · rcases hmem u k e he with hold | ⟨rfl, rfl, rfl⟩
      · rcases hmem u' k' e' he' with hold' | ⟨rfl, rfl, rfl⟩
        · exact h.owner u k u' k' e hold e' hold' hptr
        · exact absurd hptr (h.fresh hfresh hold)
      · rcases hmem u' k' e' he' with hold' | ⟨rfl, rfl, rfl⟩
        · exact absurd hptr.symm (h.fresh hfresh hold')
        · exact ⟨rfl, rfl⟩
    · show s.retired u k + (if i = u ∧ j = k then {s.base.node ptr} else 0) = 0
      rw [h.bound u k hk, if_neg (fun hij => by omega), add_zero]
  · refine h.congr ?_
    funext u k
    show s.retired u k + a.retires s.base u k = s.retired u k
    rw [retires_eq_zero (fun ptr hact => hret ⟨u, k, ptr, hact⟩), add_zero]

end

theorem distinct_step {s s' : Life F P N} {a : LifeAction P N} (h : s.step m a = some s')
    (hs : s.Distinct m) : s'.Distinct m := by
  cases step_cases h with
  | op a base ha hbase =>
      refine hs.after ha ?_
      rintro i j ptr rfl
      by_contra hj
      simp [Reclaimer.step, hj] at hbase
  | retire i j ptr hj ha =>
      refine hs.after ha ?_
      intro i' j' ptr' hact
      cases hact
      exact hj
  | allocate | release => exact hs.congr rfl
  | initAgain | deinitAgain => exact hs

theorem distinct_run {s : Life F P N} {tr : List (Trans (Life F P N) (LifeAction P N))}
    (h : Run (step m) (init F P N) tr s) : s.Distinct m :=
  h.invariant distinct_init (fun _ _ _ hI hs => distinct_step hs hI)

/-! ## Every retired node is in one place -/

omit [F64 F] [DecidableEq P] in
theorem getSizeInNodes_eq {s : Life F P N} (h : ∀ i j, s.Kept i j) (j : Nat) :
    s.getSizeInNodes j = ∑ i, (s.base.bags i j).nodes.card := by
  refine Finset.sum_congr rfl (fun i _ => ?_)
  split
  · rw [Bags.nodes, Multiset.card_add, Multiset.card_add]
  · rename_i hlive
    rw [(h i j).dead (Bool.eq_false_iff.mpr hlive), Multiset.card_zero]

/-- **Retired nodes are conserved**: in every reachable state a node that a thread has retired is
in exactly one of its three bags of the record type, once, or it has been handed to the pool once,
and it is with no other thread and record type; nothing else is in the bags or was handed over;
and `getSizeInNodes` is what was retired less what was handed over. -/
theorem retired_conserved {s : Life F P N} {tr : List (Trans (Life F P N) (LifeAction P N))}
    (h : Run (step m) (init F P N) tr s) :
    (∀ i j, ∀ e ∈ s.retired i j,
        (s.base.bags i j).curr.count e + (s.base.bags i j).last.count e
          + (s.base.bags i j).deamortizedFreeables.count e + (s.handed i j).count e = 1
        ∧ ∀ i' j', i' ≠ i ∨ j' ≠ j →
            e ∉ (s.base.bags i' j').nodes ∧ e ∉ s.handed i' j')
      ∧ (∀ i j e, e ∈ (s.base.bags i j).nodes ∨ e ∈ s.handed i j → e ∈ s.retired i j)
      ∧ ∀ j, s.getSizeInNodes j + ∑ i, (s.handed i j).card = ∑ i, (s.retired i j).card := by
  have hkept : ∀ i j, s.Kept i j := kept_run h
  have hdistinct := distinct_run h
  have hmem : ∀ i j e, e ∈ (s.base.bags i j).nodes ∨ e ∈ s.handed i j → e ∈ s.retired i j := by
    intro i j e he
    rw [← (hkept i j).conserved]
    exact Multiset.mem_add.mpr he
  refine ⟨fun i j e he => ⟨?_, fun i' j' hne => ?_⟩, hmem, fun j => ?_⟩
  · -- conservation, counted at a node that was retired once
    have hone := Multiset.count_eq_one_of_mem (hdistinct.nodup i j) he
    rw [← (hkept i j).conserved] at hone
    simpa only [Bags.nodes, Multiset.count_add] using hone
  · have hother : e ∉ s.retired i' j' := by
      intro he'
      obtain ⟨rfl, rfl⟩ := hdistinct.owner i j i' j' e he e he' rfl
      exact hne.elim (fun h => h rfl) (fun h => h rfl)
    exact ⟨fun hin => hother (hmem i' j' e (Or.inl hin)),
      fun hin => hother (hmem i' j' e (Or.inr hin))⟩
  · rw [getSizeInNodes_eq hkept, ← Finset.sum_add_distrib]
    refine Finset.sum_congr rfl (fun i _ => ?_)
    rw [← (hkept i j).conserved, Multiset.card_add]

end Life

end

/-- The node at `ptr`, retired by the only thread in its first operation. -/
def retiredFirst {N : Nat} (ptr : ℕ) : Node ℕ N :=
  { ptr := ptr
    begunAt := fun _ => 1
    runningAt := fun _ => some 1
    running_le := fun _ _ h => (Option.some.inj h).symm.le }

/-- An operation of thread `i` over two record types, up to the hand-over. -/
def lifeTurn {N : Nat} (i : Fin N) (moved : Multiset (Node ℕ N)) : List (LifeAction ℕ N) :=
  [.op (.startOp i false), .op (.run i), .op (.run i), .op (.rotate i moved),
    .op (.rotate i 0), .op (.run i)]

/-- One node of each record type: the first is handed over by a `startOp`, the second by
`deinitThread`. -/
def lifetime {N : Nat} (i : Fin N) : List (LifeAction ℕ N) :=
  [.initThread i 0, .initThread i 1] ++ lifeTurn i 0
    ++ [.op (.run i), .op (.retire i 0 7), .op (.retire i 1 8), .op (.endOp i)]
    ++ lifeTurn i 0 ++ [.op (.run i), .op (.endOp i)] ++ lifeTurn i {retiredFirst 7}
    ++ [.op (.poolAdd i (retiredFirst 7)), .op (.run i), .op (.endOp i), .deinitThread i 1,
      .initThread i 1]

theorem Life.retired_conserved_lifetime :
    ∃ tr s, Run (Life.step 2) (Life.init ℚ ℕ 1) tr s
      ∧ s.handed 0 0 = {retiredFirst 7} ∧ s.handed 0 1 = {retiredFirst 8}
      ∧ (∀ i j, ∀ e ∈ s.retired i j,
        (s.base.bags i j).curr.count e + (s.base.bags i j).last.count e
          + (s.base.bags i j).deamortizedFreeables.count e + (s.handed i j).count e = 1
        ∧ ∀ i' j', i' ≠ i ∨ j' ≠ j →
            e ∉ (s.base.bags i' j').nodes ∧ e ∉ s.handed i' j')
      ∧ (∀ i j e, e ∈ (s.base.bags i j).nodes ∨ e ∈ s.handed i j → e ∈ s.retired i j)
      ∧ ∀ j, s.getSizeInNodes j + ∑ i, (s.handed i j).card = ∑ i, (s.retired i j).card := by
  obtain ⟨tr, s, hrun, hp⟩ := exists_run_of_replay (Life.step 2) (Life.init ℚ ℕ 1) (lifetime 0)
    (fun _ s => decide (s.handed 0 0 = {retiredFirst 7} ∧ s.handed 0 1 = {retiredFirst 8}))
    (by decide +kernel)
  obtain ⟨hfirst, hsecond⟩ := of_decide_eq_true hp
  exact ⟨tr, s, hrun, hfirst, hsecond, retired_conserved hrun⟩

end Pacer.Reclaimer
