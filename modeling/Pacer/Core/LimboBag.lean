import Pacer.Core.F64
import Pacer.Lib.PopWhile

set_option autoImplicit false

/-! # The limbo bag

A thread's queue of retired nodes, oldest retirement first. An entry holds the node's birth
timestamp and the node itself, which is either owned by Rust or was handed over the FFI
boundary together with the function that frees it. `P` is the type of pointers.
-/

namespace Pacer

/-- The address of a deallocation routine (`unsafe extern "C" fn(*mut u8)`). -/
structure FreeFn where
  addr : Nat
  deriving DecidableEq

inductive Retired (P : Type) where
  | owned (ptr : P)
  | foreign (ptr : P) (freeFn : FreeFn)
  deriving DecidableEq

/-- The pointer of a retired node. -/
def Retired.ptr {P : Type} : Retired P → P
  | .owned ptr => ptr
  | .foreign ptr _ => ptr

structure LimboBag (P : Type) where
  q : List (Nat × Retired P)
  deriving DecidableEq

namespace LimboBag

variable {P : Type}

def new : LimboBag P := ⟨[]⟩

def push (b : LimboBag P) (birthTs : Nat) (ptr : P) : LimboBag P :=
  ⟨b.q ++ [(birthTs, .owned ptr)]⟩

def pushRaw (b : LimboBag P) (birthTs : Nat) (ptr : P) (freeFn : FreeFn) : LimboBag P :=
  ⟨b.q ++ [(birthTs, .foreign ptr freeFn)]⟩

def len (b : LimboBag P) : Nat := b.q.length

/-- The test of `drain`'s match arm: the entry was born before `safeTs`. -/
def eligible (safeTs : Nat) (e : Nat × Retired P) : Bool := decide (e.1 < safeTs)

/-- The loop of `drain` with `k - freed` rounds to go: the remaining queue and the entries it
frees, in order. -/
def drainLoop (safeTs : Nat) : Nat → List (Nat × Retired P) →
    List (Nat × Retired P) × List (Nat × Retired P)
  | 0, q => (q, [])
  | _ + 1, [] => ([], [])
  | fuel + 1, (ts, entry) :: q =>
      if ts < safeTs then
        let r := drainLoop safeTs fuel q
        (r.1, (ts, entry) :: r.2)
      else ((ts, entry) :: q, [])

/-- Frees up to `k` nodes with `birth_ts < safe_ts`, oldest first. The result is the bag that
remains and the freed entries; the source returns their number. -/
def drain (b : LimboBag P) (safeTs k : Nat) : LimboBag P × List (Nat × Retired P) :=
  let r := drainLoop safeTs k b.q
  (⟨r.1⟩, r.2)

theorem drainLoop_eq_popWhile (safeTs k : Nat) (q : List (Nat × Retired P)) :
    drainLoop safeTs k q
      = ((Queue.popWhile (eligible safeTs) k q).2,
          (Queue.popWhile (eligible safeTs) k q).1) := by
  induction k generalizing q with
  | zero => simp [drainLoop]
  | succ k ih =>
      cases q with
      | nil => simp [drainLoop]
      | cons e q =>
          by_cases h : e.1 < safeTs
          · have he : eligible safeTs e = true := by simp [eligible, h]
            simp [drainLoop, h, ih, Queue.popWhile_cons_of_pos _ he]
          · have he : ¬ eligible safeTs e = true := by simp [eligible, h]
            simp [drainLoop, h, Queue.popWhile_cons_of_neg _ he]

/-- **`drain` pops the longest eligible prefix of at most `k` entries.** -/
theorem drain_eq (b : LimboBag P) (safeTs k : Nat) :
    b.drain safeTs k
      = (⟨(Queue.popWhile (eligible safeTs) k b.q).2⟩,
          (Queue.popWhile (eligible safeTs) k b.q).1) := by
  simp [drain, drainLoop_eq_popWhile]

theorem mem_drain_iff {b : LimboBag P} {safeTs k : Nat} {e : Nat × Retired P} :
    e ∈ (b.drain safeTs k).2 ↔
      ∃ i < k, b.q[i]? = some e ∧ ∀ j ≤ i, ∀ e', b.q[j]? = some e' → e'.1 < safeTs := by
  simp only [drain_eq, Queue.mem_popWhile_iff, eligible, decide_eq_true_eq]

theorem mem_of_mem_drain_fst {b : LimboBag P} {safeTs k : Nat} {e : Nat × Retired P}
    (h : e ∈ (b.drain safeTs k).1.q) : e ∈ b.q := by
  rw [drain_eq] at h
  exact Queue.mem_of_mem_popWhile_snd _ h

/-- The entry is one of the first `k`, and it and all entries before it were born before
`safeTs`. -/
def Reaches (b : LimboBag P) (safeTs k : Nat) (e : Nat × Retired P) : Prop :=
  ∃ i < k, b.q[i]? = some e ∧ ∀ j ≤ i, ∀ e', b.q[j]? = some e' → e'.1 < safeTs

theorem Reaches.birth_lt {b : LimboBag P} {safeTs k : Nat} {e : Nat × Retired P}
    (h : b.Reaches safeTs k e) : e.1 < safeTs := by
  obtain ⟨i, -, hget, hall⟩ := h
  exact hall i le_rfl e hget

/-- A smaller `safe_ts` reaches no more. -/
theorem Reaches.mono {b : LimboBag P} {safeTs safeTs' k : Nat} {e : Nat × Retired P}
    (h : b.Reaches safeTs k e) (hle : safeTs ≤ safeTs') : b.Reaches safeTs' k e := by
  obtain ⟨i, hi, hget, hall⟩ := h
  exact ⟨i, hi, hget, fun j hj e' he' => lt_of_lt_of_le (hall j hj e' he') hle⟩

/-- When every entry is eligible the bag shrinks by exactly `k` nodes, as far as it has
them. -/
theorem drain_len_of_forall {b : LimboBag P} {safeTs k : Nat}
    (h : ∀ e ∈ b.q, e.1 < safeTs) : (b.drain safeTs k).1.len = b.len - k := by
  have hall : ∀ e ∈ b.q, eligible safeTs e = true := fun e he => by simp [eligible, h e he]
  simp [drain_eq, Queue.popWhile_of_forall _ hall, len]

@[simp] theorem push_q (b : LimboBag P) (birthTs : Nat) (ptr : P) :
    (b.push birthTs ptr).q = b.q ++ [(birthTs, .owned ptr)] := rfl

@[simp] theorem push_len (b : LimboBag P) (birthTs : Nat) (ptr : P) :
    (b.push birthTs ptr).len = b.len + 1 := by
  simp [len]

end LimboBag

end Pacer
