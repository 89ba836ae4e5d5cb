import Pacer.Reclaim.DrainComplete

set_option autoImplicit false

/-! # The history of a bag

What any sequence of `push`, `push_raw` and `drain` frees. `drainCall` is `drain` as the source
runs it: its loop counts what it has freed, runs the deallocator of each entry it pops and
returns the count. `history` keeps a record of every deallocator run. The entries freed, in
order, followed by those still queued are the entries pushed, in order (`history_conserves`), so
a node is freed at most once and by its own deallocator; two drains in a row free what one drain
with the sum of their bounds frees (`drainCall_add`).
-/

namespace Pacer

/-- What freeing a node runs: `drop(Box::from_raw(ptr))` or `free_fn(ptr)`. -/
inductive Dealloc (P : Type) where
  | dropBox (ptr : P)
  | callFree (freeFn : FreeFn) (ptr : P)
  deriving DecidableEq

/-- The match on the popped entry in `drain`. -/
def Retired.dealloc {P : Type} : Retired P → Dealloc P
  | .owned ptr => .dropBox ptr
  | .foreign ptr freeFn => .callFree freeFn ptr

/-- One deallocator run by a drain: the entry that was popped, what was run for it, and the
`safe_ts` of the drain. -/
structure FreeCall (P : Type) where
  birthTs : Nat
  node : Retired P
  call : Dealloc P
  safeTs : Nat
  deriving DecidableEq

namespace LimboBag

variable {P : Type}

/-- The `while` loop of `drain` with `freed` entries freed so far: the queue that remains, the
deallocators run, and the value of `freed` at the end. -/
def drainWhile (safeTs k : Nat) : List (Nat × Retired P) → Nat →
    List (Nat × Retired P) × List (FreeCall P) × Nat
  | [], freed => ([], [], freed)
  | (ts, entry) :: q, freed =>
      if freed < k then
        if ts < safeTs then
          let r := drainWhile safeTs k q (freed + 1)
          (r.1, ⟨ts, entry, entry.dealloc, safeTs⟩ :: r.2.1, r.2.2)
        else ((ts, entry) :: q, [], freed)
      else ((ts, entry) :: q, [], freed)

/-- `drain` with the deallocators it runs and the number it returns. -/
def drainCall (b : LimboBag P) (safeTs k : Nat) : LimboBag P × List (FreeCall P) × Nat :=
  let r := drainWhile safeTs k b.q 0
  (⟨r.1⟩, r.2)

/-- The record of freeing an entry in a drain below `safeTs`. -/
def freeCall (safeTs : Nat) (e : Nat × Retired P) : FreeCall P :=
  ⟨e.1, e.2, e.2.dealloc, safeTs⟩

/-- The loop with its counter pops what the loop with `k - freed` rounds to go pops. -/
theorem drainWhile_eq (safeTs k : Nat) (q : List (Nat × Retired P)) {freed : Nat}
    (h : freed ≤ k) :
    drainWhile safeTs k q freed
      = ((drainLoop safeTs (k - freed) q).1,
          (drainLoop safeTs (k - freed) q).2.map (freeCall safeTs),
          freed + (drainLoop safeTs (k - freed) q).2.length) := by
  induction q generalizing freed with
  | nil => cases hk : k - freed <;> simp [drainWhile, drainLoop]
  | cons e q ih =>
      obtain ⟨ts, entry⟩ := e
      rw [drainWhile]
      by_cases hlt : freed < k
      · rw [if_pos hlt]
        obtain ⟨n, hn⟩ : ∃ n, k - freed = n + 1 := ⟨k - freed - 1, by omega⟩
        rw [hn, drainLoop]
        by_cases hts : ts < safeTs
        · have hrest : k - (freed + 1) = n := by omega
          rw [if_pos hts, if_pos hts, ih hlt, hrest]
          simp only [List.map_cons, List.length_cons, freeCall, Prod.mk.injEq, true_and]
          omega
        · rw [if_neg hts, if_neg hts]
          rfl
      · -- the bound is reached
        have hzero : k - freed = 0 := by omega
        rw [if_neg hlt, hzero, drainLoop]
        rfl

/-- **`drain` as the source runs it.** -/
theorem drainCall_eq (b : LimboBag P) (safeTs k : Nat) :
    b.drainCall safeTs k
      = ((b.drain safeTs k).1, (b.drain safeTs k).2.map (freeCall safeTs),
          (b.drain safeTs k).2.length) := by
  rw [drainCall, drainWhile_eq safeTs k b.q (Nat.zero_le k), Nat.sub_zero, Nat.zero_add, drain]

/-! ## One drain -/

/-- The entries of the deallocators run, in order. -/
def entries (calls : List (FreeCall P)) : List (Nat × Retired P) :=
  calls.map fun f => (f.birthTs, f.node)

@[simp] theorem entries_map_freeCall (safeTs : Nat) (q : List (Nat × Retired P)) :
    entries (q.map (freeCall safeTs)) = q := by
  simp [entries, freeCall, Function.comp_def]

/-- **What one drain removes**: the longest prefix of at most `k` entries all born before
`safeTs`. -/
structure RemovesPrefix (b : LimboBag P) (safeTs k : Nat)
    (r : LimboBag P × List (FreeCall P) × Nat) : Prop where
  split : entries r.2.1 ++ r.1.q = b.q
  length_le : (entries r.2.1).length ≤ k
  eligible : ∀ e ∈ entries r.2.1, e.1 < safeTs
  longest : ∀ l, l <+: b.q → l.length ≤ k → (∀ e ∈ l, e.1 < safeTs) →
    l.length ≤ (entries r.2.1).length
  returned : r.2.2 = r.2.1.length

theorem drainCall_removesPrefix (b : LimboBag P) (safeTs k : Nat) :
    b.RemovesPrefix safeTs k (b.drainCall safeTs k) := by
  rw [drainCall_eq, drain_eq]
  constructor
  · show entries (List.map _ _) ++ _ = _
    rw [entries_map_freeCall]
    exact Queue.popWhile_append _ k b.q
  · show (entries (List.map _ _)).length ≤ k
    rw [entries_map_freeCall, Queue.popWhile_fst_length]
    exact Nat.min_le_left _ _
  · show ∀ e ∈ entries (List.map _ _), _
    rw [entries_map_freeCall]
    intro e he
    exact of_decide_eq_true (Queue.of_mem_popWhile (LimboBag.eligible safeTs) he)
  · intro l hl hlen hall
    show _ ≤ (entries (List.map _ _)).length
    rw [entries_map_freeCall]
    exact Queue.length_le_popWhile _ hl hlen (fun e he => decide_eq_true (hall e he))
  · simp

/-- Two drains in a row are one drain with the sum of the bounds. -/
theorem drainCall_add (b : LimboBag P) (safeTs j k : Nat) :
    b.drainCall safeTs (j + k)
      = (((b.drainCall safeTs j).1.drainCall safeTs k).1,
          (b.drainCall safeTs j).2.1 ++ ((b.drainCall safeTs j).1.drainCall safeTs k).2.1,
          (b.drainCall safeTs j).2.2 + ((b.drainCall safeTs j).1.drainCall safeTs k).2.2) := by
  simp only [drainCall_eq, drain_eq, Queue.popWhile_add _ j k b.q, List.map_append,
    List.length_append]

/-! ## All calls on a bag -/

namespace BagOp

/-- The entry that a call pushes. -/
def pushed : BagOp P → Option (Nat × Retired P)
  | .push birthTs ptr => some (birthTs, .owned ptr)
  | .pushRaw birthTs ptr freeFn => some (birthTs, .foreign ptr freeFn)
  | .drain _ _ => none

/-- The deallocator that a call asks for: `Box` for `push`, its `free_fn` for `push_raw`. -/
def own : BagOp P → Option (Dealloc P)
  | .push _ ptr => some (.dropBox ptr)
  | .pushRaw _ ptr freeFn => some (.callFree freeFn ptr)
  | .drain _ _ => none

theorem own_eq (op : BagOp P) : op.own = op.pushed.map fun e => e.2.dealloc := by
  cases op <;> rfl

end BagOp

/-- A bag with every deallocator that was run for it, oldest first. -/
structure History (P : Type) where
  bag : LimboBag P
  freed : List (FreeCall P)

/-- One call. -/
def History.step (h : History P) : BagOp P → History P
  | .push birthTs ptr => { h with bag := h.bag.push birthTs ptr }
  | .pushRaw birthTs ptr freeFn => { h with bag := h.bag.pushRaw birthTs ptr freeFn }
  | .drain safeTs k =>
      let r := h.bag.drainCall safeTs k
      ⟨r.1, h.freed ++ r.2.1⟩

/-- The history of a sequence of calls on a new bag. -/
def history (ops : List (BagOp P)) : History P := ops.foldl History.step ⟨new, []⟩

theorem history_append (ops : List (BagOp P)) (op : BagOp P) :
    history (ops ++ [op]) = (history ops).step op := by
  rw [history, List.foldl_append]
  rfl

/-- The bag of the history is the bag that the calls build. -/
theorem history_bag (ops : List (BagOp P)) : (history ops).bag = build ops := by
  induction ops using List.reverseRecOn with
  | nil => rfl
  | append_singleton ops op ih =>
      rw [history_append, build_append, ← ih]
      cases op with
      | push birthTs ptr => rfl
      | pushRaw birthTs ptr freeFn => rfl
      | drain safeTs k =>
          show ((history ops).bag.drainCall safeTs k).1 = _
          rw [drainCall_eq]
          rfl

/-- One call appends what it pushes to what was freed and what is queued. -/
theorem step_conserves (h : History P) (op : BagOp P) :
    entries (h.step op).freed ++ (h.step op).bag.q
      = (entries h.freed ++ h.bag.q) ++ op.pushed.toList := by
  cases op with
  | push birthTs ptr => simp [History.step, BagOp.pushed]
  | pushRaw birthTs ptr freeFn => simp [History.step, BagOp.pushed, pushRaw]
  | drain safeTs k =>
      -- what is popped moves from the front of the queue to the end of the record
      have hsplit := (drainCall_removesPrefix h.bag safeTs k).split
      calc entries (h.step (.drain safeTs k)).freed ++ (h.step (.drain safeTs k)).bag.q
          = (entries h.freed ++ entries (h.bag.drainCall safeTs k).2.1)
              ++ (h.bag.drainCall safeTs k).1.q := by
            simp [History.step, entries]
        _ = entries h.freed ++ h.bag.q := by
            rw [List.append_assoc, hsplit]
        _ = (entries h.freed ++ h.bag.q) ++ (BagOp.drain safeTs k : BagOp P).pushed.toList := by
            simp [BagOp.pushed]

/-- **Nothing is lost, duplicated or reordered.** -/
theorem history_conserves (ops : List (BagOp P)) :
    entries (history ops).freed ++ (history ops).bag.q = ops.filterMap BagOp.pushed := by
  induction ops using List.reverseRecOn with
  | nil => rfl
  | append_singleton ops op ih =>
      rw [history_append, step_conserves, ih, List.filterMap_append]
      cases op <;> rfl

/-- Every record is that of an entry born before the `safe_ts` of its drain. -/
theorem freed_spec (ops : List (BagOp P)) :
    ∀ f ∈ (history ops).freed, f.call = f.node.dealloc ∧ f.birthTs < f.safeTs := by
  induction ops using List.reverseRecOn with
  | nil => simp [history]
  | append_singleton ops op ih =>
      rw [history_append]
      cases op with
      | push birthTs ptr => exact ih
      | pushRaw birthTs ptr freeFn => exact ih
      | drain safeTs k =>
          intro f hf
          rcases List.mem_append.mp hf with hold | hnew
          · exact ih f hold
          · have helig := (drainCall_removesPrefix (history ops).bag safeTs k).eligible
            rw [drainCall_eq] at hnew helig
            obtain ⟨e, he, rfl⟩ := List.mem_map.mp hnew
            rw [entries_map_freeCall] at helig
            exact ⟨rfl, helig e he⟩

/-- The deallocators run and those of the entries still queued are those that the pushes ask
for. -/
theorem history_calls (ops : List (BagOp P)) :
    (history ops).freed.map FreeCall.call ++ (history ops).bag.q.map (fun e => e.2.dealloc)
      = ops.filterMap BagOp.own := by
  have hown : ops.filterMap BagOp.own
      = (ops.filterMap BagOp.pushed).map (fun e => e.2.dealloc) := by
    rw [List.map_filterMap]
    exact congrArg (fun f => ops.filterMap f) (funext BagOp.own_eq)
  have hcalls : (history ops).freed.map FreeCall.call
      = (entries (history ops).freed).map (fun e => e.2.dealloc) := by
    rw [entries, List.map_map]
    exact List.map_congr_left (fun f hf => (freed_spec ops f hf).1)
  rw [hown, hcalls, ← history_conserves, List.map_append]

/-- **The bag loses and duplicates nothing, and drains compose.** After any calls the freed
entries followed by the queued ones are the pushed ones, so no deallocator runs more often than
the pushes ask for it; each was run for an entry born before the `safe_ts` of its drain. Each
drain removes the longest eligible prefix of at most `k` entries and returns its length, and
drains with `j` and then `k` are a drain with `j + k`. -/
theorem bag_history [DecidableEq P] (ops : List (BagOp P)) :
    (history ops).bag = build ops
      ∧ entries (history ops).freed ++ (history ops).bag.q = ops.filterMap BagOp.pushed
      ∧ (history ops).freed.map FreeCall.call
          ++ (history ops).bag.q.map (fun e => e.2.dealloc) = ops.filterMap BagOp.own
      ∧ (∀ c, ((history ops).freed.map FreeCall.call).count c
          ≤ (ops.filterMap BagOp.own).count c)
      ∧ (∀ f ∈ (history ops).freed, f.call = f.node.dealloc ∧ f.birthTs < f.safeTs)
      ∧ (∀ safeTs k, (history ops).bag.RemovesPrefix safeTs k
          ((history ops).bag.drainCall safeTs k))
      ∧ ∀ safeTs j k,
          let first := (history ops).bag.drainCall safeTs j
          let second := first.1.drainCall safeTs k
          (history ops).bag.drainCall safeTs (j + k)
            = (second.1, first.2.1 ++ second.2.1, first.2.2 + second.2.2) := by
  refine ⟨history_bag ops, history_conserves ops, history_calls ops, fun c => ?_,
    freed_spec ops, fun safeTs k => drainCall_removesPrefix _ safeTs k,
    fun safeTs j k => drainCall_add _ safeTs j k⟩
  rw [← history_calls ops, List.count_append]
  exact Nat.le_add_right _ _

/-- A `free_fn` and a `Box`, in the order of the pushes; the node born at `4` stays. -/
example : (history [.pushRaw 2 10 ⟨7⟩, .push 1 11, .push 4 12, .drain 4 5]).freed.map
    FreeCall.call = [Dealloc.callFree ⟨7⟩ 10, Dealloc.dropBox 11] := by decide

end LimboBag

end Pacer
