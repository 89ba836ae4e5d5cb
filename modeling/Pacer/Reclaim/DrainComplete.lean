import Pacer.Core.LimboBag
import Mathlib.Data.List.Induction

set_option autoImplicit false

/-! # What `drain` leaves behind

`drain` stops at the first entry that is not eligible and does not look further. Nodes are
retired in the order in which they are superseded, which need not be the order of their births,
so an eligible node can stand behind one that is not. `drain` frees all that is eligible, up to
`k`, for every `safe_ts` exactly when the births in the queue never decrease.

`build` makes a bag from the calls of a caller; the births in its queue are a sublist of the
births pushed (`births_sublist`), so the order of the pushes carries over to every bag built.
-/

namespace Pacer.LimboBag

/-- The calls that change a bag. -/
inductive BagOp (P : Type) where
  | push (birthTs : Nat) (ptr : P)
  | pushRaw (birthTs : Nat) (ptr : P) (freeFn : FreeFn)
  | drain (safeTs k : Nat)

section

variable {P : Type}

namespace BagOp

def apply (b : LimboBag P) : BagOp P → LimboBag P
  | .push birthTs ptr => b.push birthTs ptr
  | .pushRaw birthTs ptr freeFn => b.pushRaw birthTs ptr freeFn
  | .drain safeTs k => (b.drain safeTs k).1

/-- The birth timestamp that a call pushes. -/
def birth : BagOp P → Option Nat
  | .push birthTs _ => some birthTs
  | .pushRaw birthTs _ _ => some birthTs
  | .drain _ _ => none

end BagOp

/-- The bag after a sequence of calls. -/
def build (ops : List (BagOp P)) : LimboBag P := ops.foldl BagOp.apply new

theorem build_append (ops : List (BagOp P)) (op : BagOp P) :
    build (ops ++ [op]) = op.apply (build ops) := by
  rw [build, List.foldl_append]
  rfl

/-- The births pushed by a sequence of calls, in order. -/
def births (ops : List (BagOp P)) : List Nat := ops.filterMap BagOp.birth

/-- The births in the queue never decrease. -/
def InBirthOrder (b : LimboBag P) : Prop := b.q.Pairwise (fun e e' => e.1 ≤ e'.1)

/-- One call keeps what is queued in place, less what it drains, and appends what it pushes. -/
theorem births_apply (b : LimboBag P) (op : BagOp P) :
    ((op.apply b).q.map Prod.fst).Sublist (b.q.map Prod.fst ++ op.birth.toList) := by
  cases op with
  | push birthTs ptr => simp [BagOp.apply, BagOp.birth, push]
  | pushRaw birthTs ptr freeFn => simp [BagOp.apply, BagOp.birth, pushRaw]
  | drain safeTs k =>
      have happ := Queue.popWhile_append (eligible safeTs) k b.q
      simp only [BagOp.apply, BagOp.birth, drain_eq, Option.toList_none, List.append_nil]
      conv_rhs => rw [← happ]
      exact (List.sublist_append_right _ _).map Prod.fst

/-- The queue holds a part of what was pushed, in the order of the pushes. -/
theorem births_sublist (ops : List (BagOp P)) :
    ((build ops).q.map Prod.fst).Sublist (births ops) := by
  induction ops using List.reverseRecOn with
  | nil => exact List.Sublist.refl _
  | append_singleton ops op ih =>
      have hbirths : births (ops ++ [op]) = births ops ++ op.birth.toList := by
        rw [births, List.filterMap_append]
        cases h : op.birth <;> simp [births, h]
      rw [build_append, hbirths]
      exact (births_apply (build ops) op).trans (ih.append_right _)

/-- Calls that push in birth order build a bag in birth order. -/
theorem inBirthOrder_build {ops : List (BagOp P)} (h : (births ops).Pairwise (· ≤ ·)) :
    (build ops).InBirthOrder :=
  List.pairwise_map.mp (h.sublist (births_sublist ops))

/-- The number of nodes that `drain` frees. -/
theorem drain_freed (b : LimboBag P) (safeTs k : Nat) :
    (b.drain safeTs k).2.length = min k (b.q.takeWhile (eligible safeTs)).length := by
  rw [drain_eq]
  exact Queue.popWhile_fst_length _ k b.q

/-- **Drains are complete in birth order, and only there.** -/
theorem drain_complete_iff (b : LimboBag P) :
    (∀ safeTs k, (b.drain safeTs k).2.length = min k (b.q.countP (eligible safeTs)))
      ↔ b.InBirthOrder := by
  simp only [drain_eq, Queue.popWhile_complete_iff, eligible, decide_eq_true_eq, InBirthOrder]
  constructor
  · intro h
    refine List.pairwise_iff_forall_sublist.mpr (fun {e e'} hsub => ?_)
    -- the entry in front is eligible as soon as the one behind it is
    have hpair := List.pairwise_iff_forall_sublist.mp (h (e'.1 + 1)) hsub
    have := hpair (Nat.lt_succ_self _)
    omega
  · intro h safeTs
    exact h.imp (fun hle hlt => lt_of_le_of_lt hle hlt)

/-- **What a drain frees.** A bag built by any calls frees the entries before its first
ineligible one, up to `k`, and stops before `k` only in front of an ineligible entry. These are
all eligible entries, for every `safe_ts` and `k`, exactly when the bag is in birth order, and
it is when the calls pushed in birth order. -/
theorem drain_frees_prefix (ops : List (BagOp P)) :
    (∀ safeTs k,
        ((build ops).drain safeTs k).2.length
          = min k ((build ops).q.takeWhile (eligible safeTs)).length
        ∧ (((build ops).drain safeTs k).2.length < k →
            ∀ e ∈ ((build ops).drain safeTs k).1.q.head?, safeTs ≤ e.1))
      ∧ ((∀ safeTs k, ((build ops).drain safeTs k).2.length
            = min k ((build ops).q.countP (eligible safeTs)))
          ↔ (build ops).InBirthOrder)
      ∧ ((births ops).Pairwise (· ≤ ·) → (build ops).InBirthOrder) := by
  refine ⟨fun safeTs k => ⟨drain_freed _ safeTs k, fun hlt e he => ?_⟩,
    drain_complete_iff _, inBirthOrder_build⟩
  rw [drain_eq] at hlt he
  have hhead := Queue.popWhile_head (eligible safeTs) hlt e he
  simpa [eligible] using hhead

/-- Two overwrites: of a node born at `5`, then of one born at `1`. A drain below `3` finds the
first at the head and frees nothing. -/
theorem drain_holds_back :
    ¬ ∀ (ops : List (BagOp Nat)) safeTs k, ((build ops).drain safeTs k).2.length
      = min k ((build ops).q.countP (eligible safeTs)) := by
  intro h
  exact absurd (h [.push 5 0, .push 1 1] 3 1) (by decide)

end

end Pacer.LimboBag
