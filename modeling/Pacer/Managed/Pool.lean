import Pacer.Reclaimer.GracePeriod
import Mathlib.Algebra.BigOperators.Group.Finset.Piecewise

set_option autoImplicit false

/-! # Where the reclaimer keeps a retired node

A node of the first record type is in a bag of some thread or in the pool (`State.kept`), and it
comes there by its retirement only (`kept_step`). A node in the pool is aged (`pool_aged`): every
thread has begun an operation since it was retired.
-/

namespace Pacer.Reclaimer

open Machine

section

variable {F P : Type} [F64 F] [DecidableEq P] {N m : Nat}

/-- What the bags of all threads hold for the first record type, and what is in the pool. -/
def State.kept (s : State F P N) : Multiset (Node P N) := s.pool + ∑ u, (s.bags u 0).nodes

omit [F64 F] [DecidableEq P] in
theorem State.mem_kept_of_pool {s : State F P N} {e : Node P N} (he : e ∈ s.pool) :
    e ∈ s.kept :=
  Multiset.mem_add.mpr (Or.inl he)

/-- What an action retires with the first record type. -/
def Action.retired (a : Action P N) (s : State F P N) : Multiset (Node P N) :=
  match a with
  | .retire _ j ptr => if j = 0 then {s.node ptr} else 0
  | _ => 0

omit [F64 F] [DecidableEq P] in
theorem sum_retires (a : Action P N) (s : State F P N) : ∑ u, a.retires s u 0 = a.retired s := by
  cases a with
  | retire i j ptr =>
      by_cases hj : j = 0
      · simp [Action.retires, Action.retired, hj]
      · simp [Action.retires, Action.retired, hj]
  | _ => exact Finset.sum_const_zero

/-- The pool grows by what is handed to it. -/
theorem pool_step {s s' : State F P N} {a : Action P N} (h : Stepped m s a s') :
    s'.pool = s.pool + ∑ u, a.hands u 0 := by
  cases h with
  | poolAdd i k e hpc he =>
      have hsum : ∑ u, (Action.poolAdd i e : Action P N).hands u 0 = {e} := by
        simp [Action.hands]
      rw [hsum, add_comm, Multiset.singleton_add]
  | _ => exact (add_eq_left.mpr Finset.sum_const_zero).symm

/-- **One step**: nodes move, and what is retired is added. -/
theorem kept_step {s s' : State F P N} {a : Action P N} (h : Stepped m s a s') :
    s'.kept = s.kept + a.retired s := by
  have hsum : ∑ u, (s'.bags u 0).nodes + ∑ u, a.hands u 0
      = ∑ u, (s.bags u 0).nodes + a.retired s := by
    rw [← sum_retires, ← Finset.sum_add_distrib, ← Finset.sum_add_distrib]
    exact Finset.sum_congr rfl fun u _ => nodes_step h u 0
  calc s'.kept
      = s.pool + (∑ u, (s'.bags u 0).nodes + ∑ u, a.hands u 0) := by
        rw [State.kept, pool_step h]
        ac_rfl
    _ = s.kept + a.retired s := by rw [hsum, State.kept, add_assoc]

/-- A step begins an operation of the thread that calls `startOp` only. -/
theorem begun_of_not_start {s s' : State F P N} {a : Action P N} (h : Stepped m s a s') {u : Fin N}
    (hu : ∀ readOnly, a ≠ .startOp u readOnly) : s'.begun u = s.begun u := by
  have hbegin : ∀ (i : Fin N) (readOnly : Bool) (q : Pc), u ≠ i →
      (s.begin i readOnly q).begun u = s.begun u := fun i readOnly q hne => by
    simp [State.begin, hne]
  cases h with
  | receive i readOnly | start i readOnly =>
      exact hbegin i readOnly _ fun heq => hu readOnly (by rw [heq])
  | _ => rfl

end

end Pacer.Reclaimer
