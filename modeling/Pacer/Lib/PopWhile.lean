import Mathlib.Data.List.TakeWhile
import Mathlib.Data.List.Basic

set_option autoImplicit false

/-! # Popping a bounded prefix of a queue

`popWhile p k q` pops elements from the front of the queue `q` as long as the front satisfies
`p` and fewer than `k` have been popped. It returns the popped elements, in order, and the
remaining queue. The popped elements are the longest prefix of `q` of length at most `k` all
of whose elements satisfy `p` (`popWhile_fst`), and popping `j` and then `k` is popping
`j + k` (`popWhile_add`). As many elements go as satisfy `p`, up to `k`, for every `k` exactly
when none of them stands behind one that does not (`popWhile_complete_iff`).
-/

namespace Queue

variable {α : Type*} (p : α → Bool)

/-- Pop from the front while the front satisfies `p`, at most `k` times. -/
def popWhile : Nat → List α → List α × List α
  | 0, q => ([], q)
  | _ + 1, [] => ([], [])
  | k + 1, e :: q =>
      if p e then (e :: (popWhile k q).1, (popWhile k q).2) else ([], e :: q)

@[simp] theorem popWhile_zero (q : List α) : popWhile p 0 q = ([], q) := by
  cases q <;> rfl

@[simp] theorem popWhile_nil (k : Nat) : popWhile p k [] = ([], []) := by
  cases k <;> rfl

theorem popWhile_cons_of_pos {k : Nat} {e : α} {q : List α} (h : p e = true) :
    popWhile p (k + 1) (e :: q) = (e :: (popWhile p k q).1, (popWhile p k q).2) := by
  simp [popWhile, h]

theorem popWhile_cons_of_neg {k : Nat} {e : α} {q : List α} (h : ¬ p e = true) :
    popWhile p k (e :: q) = ([], e :: q) := by
  cases k <;> simp [popWhile, h]

/-- The popped elements are the longest prefix of length at most `k` that satisfies `p`. -/
theorem popWhile_fst (k : Nat) (q : List α) :
    (popWhile p k q).1 = (q.take k).takeWhile p := by
  induction k generalizing q with
  | zero => simp
  | succ k ih =>
      cases q with
      | nil => simp
      | cons e q =>
          by_cases h : p e = true
          · simp [popWhile_cons_of_pos p h, ih, h]
          · simp [popWhile_cons_of_neg p h, h]

/-- Nothing is lost and nothing is reordered. -/
theorem popWhile_append (k : Nat) (q : List α) :
    (popWhile p k q).1 ++ (popWhile p k q).2 = q := by
  induction k generalizing q with
  | zero => simp
  | succ k ih =>
      cases q with
      | nil => simp
      | cons e q =>
          by_cases h : p e = true
          · simp [popWhile_cons_of_pos p h, ih]
          · simp [popWhile_cons_of_neg p h]

theorem mem_of_mem_popWhile_snd {k : Nat} {q : List α} {e : α}
    (h : e ∈ (popWhile p k q).2) : e ∈ q := by
  rw [← popWhile_append p k q]
  exact List.mem_append_right _ h

/-- When the whole queue satisfies `p`, the `k` oldest elements go. -/
theorem popWhile_of_forall {k : Nat} {q : List α} (h : ∀ e ∈ q, p e = true) :
    popWhile p k q = (q.take k, q.drop k) := by
  have hfst : (popWhile p k q).1 = q.take k := by
    rw [popWhile_fst, List.takeWhile_eq_self_iff]
    exact fun e he => h e (List.mem_of_mem_take he)
  have happ := popWhile_append p k q
  rw [hfst] at happ
  refine Prod.ext hfst ?_
  conv_rhs at happ => rw [← List.take_append_drop k q]
  exact List.append_cancel_left happ

/-- Every popped element satisfies `p`. -/
theorem of_mem_popWhile {k : Nat} {q : List α} {e : α} (h : e ∈ (popWhile p k q).1) :
    p e = true := by
  rw [popWhile_fst] at h
  exact List.mem_takeWhile_imp h

/-- No prefix of length at most `k` that satisfies `p` is longer than the popped one. -/
theorem length_le_popWhile {k : Nat} {q l : List α} (hl : l <+: q) (hlen : l.length ≤ k)
    (hall : ∀ e ∈ l, p e = true) : l.length ≤ (popWhile p k q).1.length := by
  have htake : l <+: q.take k := (List.prefix_take_iff).mpr ⟨hl, hlen⟩
  rw [popWhile_fst]
  -- `takeWhile` runs through the whole of `l`
  have hself : l.takeWhile p = l := List.takeWhile_eq_self_iff.mpr hall
  rw [← hself]
  obtain ⟨rest, hrest⟩ := htake
  rw [← hrest, List.takeWhile_append_of_pos hall, hself, List.length_append]
  exact Nat.le_add_right _ _

/-- Popping `j` and then `k` is popping `j + k`. -/
theorem popWhile_add (j k : Nat) (q : List α) :
    popWhile p (j + k) q
      = ((popWhile p j q).1 ++ (popWhile p k (popWhile p j q).2).1,
          (popWhile p k (popWhile p j q).2).2) := by
  induction j generalizing q with
  | zero => simp
  | succ j ih =>
      rw [show j + 1 + k = (j + k) + 1 by omega]
      cases q with
      | nil => simp
      | cons e q =>
          by_cases h : p e = true
          · simp [popWhile_cons_of_pos p h, ih]
          · simp [popWhile_cons_of_neg p h]

/-- An element is popped when it stands at one of the first `k` places and everything up to
it satisfies `p`. -/
theorem mem_popWhile_iff {k : Nat} {q : List α} {e : α} :
    e ∈ (popWhile p k q).1 ↔
      ∃ i < k, q[i]? = some e ∧ ∀ j ≤ i, ∀ e', q[j]? = some e' → p e' = true := by
  induction k generalizing q with
  | zero => simp
  | succ k ih =>
      cases q with
      | nil => simp
      | cons a q =>
          by_cases h : p a = true
          · rw [popWhile_cons_of_pos p h, List.mem_cons, ih]
            constructor
            · -- the head is at place `0`, the others one place further than in the tail
              rintro (rfl | ⟨i, hi, hget, hall⟩)
              · exact ⟨0, by omega, by simp, by
                  intro j hj e' he'
                  obtain rfl : j = 0 := by omega
                  simp only [List.getElem?_cons_zero, Option.some.injEq] at he'
                  exact he' ▸ h⟩
              · refine ⟨i + 1, by omega, by simpa using hget, ?_⟩
                intro j hj e' he'
                cases j with
                | zero =>
                    simp only [List.getElem?_cons_zero, Option.some.injEq] at he'
                    exact he' ▸ h
                | succ j => exact hall j (by omega) e' (by simpa using he')
            · rintro ⟨i, hi, hget, hall⟩
              cases i with
              | zero => exact Or.inl (by simpa using hget.symm)
              | succ i =>
                  refine Or.inr ⟨i, by omega, by simpa using hget, ?_⟩
                  intro j hj e' he'
                  exact hall (j + 1) (by omega) e' (by simpa using he')
          · -- a head that fails `p` stops everything
            rw [popWhile_cons_of_neg p h]
            simp only [List.not_mem_nil, false_iff, not_exists, not_and]
            intro i hi hget hall
            exact h (hall 0 (by omega) a (by simp))

/-! ## How many elements go -/

theorem popWhile_fst_length (k : Nat) (q : List α) :
    (popWhile p k q).1.length = min k (q.takeWhile p).length := by
  rw [popWhile_fst, ← List.take_takeWhile, List.length_take]

/-- After fewer than `k` pops the front of the remaining queue fails `p`. -/
theorem popWhile_head {k : Nat} {q : List α} (hlt : (popWhile p k q).1.length < k) :
    ∀ e ∈ (popWhile p k q).2.head?, ¬ p e = true := by
  induction k generalizing q with
  | zero => cases hlt
  | succ k ih =>
      cases q with
      | nil => simp
      | cons e q =>
          by_cases h : p e = true
          · rw [popWhile_cons_of_pos p h] at hlt ⊢
            exact ih (Nat.succ_lt_succ_iff.mp hlt)
          · rw [popWhile_cons_of_neg p h]
            intro e' he'
            rw [List.head?_cons, Option.mem_some_iff] at he'
            exact he' ▸ h

/-- The longest prefix that satisfies `p` has all elements that satisfy `p` exactly when none of
them stands behind one that does not. -/
theorem length_takeWhile_eq_countP_iff (q : List α) :
    (q.takeWhile p).length = q.countP p ↔ q.Pairwise (fun a b => p b = true → p a = true) := by
  induction q with
  | nil => simp
  | cons a q ih =>
      rw [List.pairwise_cons]
      by_cases h : p a = true
      · rw [List.takeWhile_cons_of_pos h, List.countP_cons_of_pos h, List.length_cons,
          Nat.add_right_cancel_iff, ih]
        exact ⟨fun hq => ⟨fun _ _ _ => h, hq⟩, fun hq => hq.2⟩
      · rw [List.takeWhile_cons_of_neg h, List.countP_cons_of_neg h, List.length_nil]
        constructor
        · -- nothing is counted, so nothing behind the head satisfies `p`
          intro hzero
          have hnone := List.countP_eq_zero.mp hzero.symm
          refine ⟨fun b hb hpb => absurd hpb (hnone b hb), ?_⟩
          refine List.pairwise_iff_forall_sublist.mpr (fun hsub hpb => ?_)
          exact absurd hpb (hnone _ (hsub.subset (by simp)))
        · intro hq
          exact (List.countP_eq_zero.mpr (fun b hb hpb => h (hq.1 b hb hpb))).symm

/-- **When popping is complete**: for every `k` as many elements go as there are to go exactly
when no element that satisfies `p` stands behind one that does not. -/
theorem popWhile_complete_iff (q : List α) :
    (∀ k, (popWhile p k q).1.length = min k (q.countP p))
      ↔ q.Pairwise (fun a b => p b = true → p a = true) := by
  rw [← length_takeWhile_eq_countP_iff]
  constructor
  · intro h
    -- with `k` the length of the queue both minima are the second number
    have hall := h q.length
    rw [popWhile_fst_length] at hall
    have hle := (List.takeWhile_prefix p (l := q)).length_le
    have hcount : q.countP p ≤ q.length := List.countP_le_length
    omega
  · intro h k
    rw [popWhile_fst_length, h]

end Queue
