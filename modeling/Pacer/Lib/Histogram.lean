import Mathlib.Data.Rat.Floor
import Mathlib.Algebra.Order.Field.Rat
import Mathlib.Algebra.Order.Floor.Semiring
import Mathlib.Data.List.Basic
import Mathlib.Algebra.BigOperators.Group.List.Basic

set_option autoImplicit false

/-! # Histograms and quantiles

A `Counter` maps keys to counts, each key once. `scan` walks through the keys in ascending order
and adds up their counts until it reaches a bound. When the counts are those of samples sorted
into buckets by a monotone `f`, the scan for `need` stops at the bucket of the `⌈need⌉`-th
smallest sample (`scan_eq_bucket`): the bucket of an order statistic can be read off the
histogram.
-/

namespace Histogram

/-! ## Counters -/

/-- Counts by key, in the order in which the keys were first counted. -/
structure Counter (κ : Type*) where
  cells : List (κ × Nat)
  nodup : (cells.map Prod.fst).Nodup

section

variable {κ : Type*} [DecidableEq κ]

/-- The count of `k`, zero when it is missing. -/
def find (k : κ) : List (κ × Nat) → Nat
  | [] => 0
  | (k', c) :: cells => if k' = k then c else find k cells

/-- Count `c` more of `k`. -/
def bump (k : κ) (c : Nat) : List (κ × Nat) → List (κ × Nat)
  | [] => [(k, c)]
  | (k', c') :: cells => if k' = k then (k', c' + c) :: cells else (k', c') :: bump k c cells

theorem keys_bump (k : κ) (c : Nat) (cells : List (κ × Nat)) :
    (bump k c cells).map Prod.fst
      = if k ∈ cells.map Prod.fst then cells.map Prod.fst else cells.map Prod.fst ++ [k] := by
  induction cells with
  | nil => rfl
  | cons e cells ih =>
      by_cases h : e.1 = k
      · simp [bump, h]
      · have hne : ¬ k = e.1 := fun hk => h hk.symm
        simp only [bump, if_neg h, List.map_cons, ih, List.mem_cons, hne, false_or]
        split <;> rfl

theorem find_bump (k : κ) (c : Nat) (cells : List (κ × Nat)) (j : κ) :
    find j (bump k c cells) = find j cells + if k = j then c else 0 := by
  induction cells with
  | nil => simp [bump, find]
  | cons e cells ih =>
      by_cases h : e.1 = k
      · by_cases hj : k = j
        · simp [bump, find, h, hj]
        · simp [bump, find, h, hj]
      · by_cases hj : e.1 = j
        · have hkj : ¬ k = j := fun hk => h (hj.trans hk.symm)
          rw [bump, if_neg h, find, find, if_pos hj, if_pos hj, if_neg hkj, Nat.add_zero]
        · rw [bump, if_neg h, find, find, if_neg hj, if_neg hj, ih]

theorem sum_find {cells : List (κ × Nat)} (h : (cells.map Prod.fst).Nodup) :
    (cells.map Prod.snd).sum = ((cells.map Prod.fst).map fun k => find k cells).sum := by
  induction cells with
  | nil => rfl
  | cons e cells ih =>
      rw [List.map_cons, List.nodup_cons] at h
      -- the other keys are not that of `e`
      have hrest : (cells.map Prod.fst).map (fun k => find k (e :: cells))
          = (cells.map Prod.fst).map (fun k => find k cells) := by
        apply List.map_congr_left
        intro k hk
        have hne : ¬ e.1 = k := fun he => h.1 (by rw [he]; exact hk)
        rw [find, if_neg hne]
      rw [List.map_cons, List.map_cons, List.map_cons, List.sum_cons, List.sum_cons, hrest,
        ih h.2, find, if_pos rfl]

namespace Counter

def empty : Counter κ := ⟨[], List.nodup_nil⟩

/-- `hist.get(k, 0)` -/
def get (h : Counter κ) (k : κ) : Nat := find k h.cells

def keys (h : Counter κ) : List κ := h.cells.map Prod.fst

/-- `sum(hist.values())` -/
def total (h : Counter κ) : Nat := (h.cells.map Prod.snd).sum

/-- `hist[k] = hist.get(k, 0) + c` -/
def add (h : Counter κ) (k : κ) (c : Nat) : Counter κ :=
  ⟨bump k c h.cells, by
    rw [keys_bump]
    split
    · exact h.nodup
    · rename_i hk
      refine List.nodup_append.mpr ⟨h.nodup, List.pairwise_singleton _ k, ?_⟩
      rintro a ha b hb rfl
      exact hk (List.mem_singleton.mp hb ▸ ha)⟩

/-- `add` for each cell of a list. -/
def addAll (h : Counter κ) (cells : List (κ × Nat)) : Counter κ :=
  cells.foldl (fun h e => h.add e.1 e.2) h

omit [DecidableEq κ] in
@[simp] theorem keys_empty : (empty : Counter κ).keys = [] := rfl

@[simp] theorem get_empty (k : κ) : (empty : Counter κ).get k = 0 := rfl

theorem get_add (h : Counter κ) (k : κ) (c : Nat) (j : κ) :
    (h.add k c).get j = h.get j + if k = j then c else 0 :=
  find_bump k c h.cells j

theorem mem_keys_add (h : Counter κ) (k : κ) (c : Nat) (j : κ) :
    j ∈ (h.add k c).keys ↔ j ∈ h.keys ∨ j = k := by
  show j ∈ (bump k c h.cells).map Prod.fst ↔ _
  rw [keys_bump]
  by_cases hk : k ∈ h.cells.map Prod.fst
  · rw [if_pos hk]
    constructor
    · exact Or.inl
    · rintro (hj | rfl)
      · exact hj
      · exact hk
  · rw [if_neg hk, List.mem_append, List.mem_singleton]
    rfl

theorem total_eq_sum_get (h : Counter κ) : h.total = (h.keys.map h.get).sum :=
  sum_find h.nodup

theorem get_addAll (h : Counter κ) (cells : List (κ × Nat)) (j : κ) :
    (h.addAll cells).get j = h.get j + (cells.map fun e => if e.1 = j then e.2 else 0).sum := by
  induction cells generalizing h with
  | nil => rfl
  | cons e cells ih =>
      calc ((h.add e.1 e.2).addAll cells).get j
          = (h.add e.1 e.2).get j + (cells.map fun e => if e.1 = j then e.2 else 0).sum := ih _
        _ = h.get j + ((if e.1 = j then e.2 else 0)
              + (cells.map fun e => if e.1 = j then e.2 else 0).sum) := by
            rw [get_add, Nat.add_assoc]
        _ = _ := by rw [List.map_cons, List.sum_cons]

theorem mem_keys_addAll (h : Counter κ) (cells : List (κ × Nat)) (j : κ) :
    j ∈ (h.addAll cells).keys ↔ j ∈ h.keys ∨ j ∈ cells.map Prod.fst := by
  induction cells generalizing h with
  | nil => simp [addAll]
  | cons e cells ih =>
      show j ∈ ((h.add e.1 e.2).addAll cells).keys ↔ _
      rw [ih, mem_keys_add, List.map_cons, List.mem_cons, or_assoc]

end Counter

/-! ## Samples in buckets -/

variable {α : Type*}

/-- Different buckets count different samples. -/
theorem sum_countP_eq (f : α → κ) {keys : List κ} (h : keys.Nodup) (samples : List α) :
    (keys.map fun k => samples.countP fun x => decide (f x = k)).sum
      = samples.countP fun x => decide (f x ∈ keys) := by
  induction keys with
  | nil => simp
  | cons k keys ih =>
      rw [List.nodup_cons] at h
      rw [List.map_cons, List.sum_cons, ih h.2]
      simp only [List.mem_cons]
      clear ih
      induction samples with
      | nil => rfl
      | cons x samples ihs =>
          simp only [List.countP_cons, decide_eq_true_eq]
          by_cases hk : f x = k
          · -- the bucket of `x` is `k`, so it is none of the others
            have hnot : ¬ k ∈ keys := h.1
            simp only [hk, hnot, true_or, if_true, if_false]
            omega
          · simp only [hk, false_or, if_false]
            omega

end

/-! ## Order statistics -/

section

variable {α : Type*} [LinearOrder α]

/-- The samples in ascending order. -/
def sorted (samples : List α) : List α := samples.mergeSort fun a b => decide (a ≤ b)

theorem sorted_perm (samples : List α) : (sorted samples).Perm samples :=
  List.mergeSort_perm samples _

theorem pairwise_sorted (samples : List α) : (sorted samples).Pairwise (· ≤ ·) := by
  have htrans : ∀ a b c : α, decide (a ≤ b) = true → decide (b ≤ c) = true →
      decide (a ≤ c) = true := by
    intro a b c hab hbc
    rw [decide_eq_true_eq] at hab hbc ⊢
    exact hab.trans hbc
  have htotal : ∀ a b : α, (decide (a ≤ b) || decide (b ≤ a)) = true := by
    intro a b
    rw [Bool.or_eq_true, decide_eq_true_eq, decide_eq_true_eq]
    exact le_total a b
  exact (List.pairwise_mergeSort htrans htotal samples).imp of_decide_eq_true

@[simp] theorem length_sorted (samples : List α) : (sorted samples).length = samples.length :=
  (sorted_perm samples).length_eq

theorem sorted_mono {samples : List α} {i j : Nat} (hij : i ≤ j)
    (hj : j < (sorted samples).length) :
    (sorted samples)[i] ≤ (sorted samples)[j] := by
  rcases hij.eq_or_lt with rfl | hlt
  · exact le_rfl
  · exact List.pairwise_iff_getElem.mp (pairwise_sorted samples) i j (by omega) hj hlt

/-- At most `i` samples are below the one at place `i`. -/
theorem countP_lt_sorted (samples : List α) {i : Nat} (hi : i < (sorted samples).length) :
    samples.countP (fun y => decide (y < (sorted samples)[i])) ≤ i := by
  -- nothing from place `i` on is below the entry at `i`
  have hdrop : ((sorted samples).drop i).countP
      (fun y => decide (y < (sorted samples)[i])) = 0 := by
    rw [List.countP_eq_zero]
    intro y hy
    obtain ⟨j, hj, rfl⟩ := List.mem_drop_iff_getElem.mp hy
    rw [decide_eq_true_eq, not_lt]
    exact sorted_mono (Nat.le_add_right i j) _
  calc samples.countP (fun y => decide (y < (sorted samples)[i]))
      = (sorted samples).countP (fun y => decide (y < (sorted samples)[i])) :=
        ((sorted_perm samples).countP_eq _).symm
    _ = ((sorted samples).take i).countP (fun y => decide (y < (sorted samples)[i]))
          + ((sorted samples).drop i).countP (fun y => decide (y < (sorted samples)[i])) := by
        rw [← List.countP_append, List.take_append_drop]
    _ ≤ ((sorted samples).take i).length + 0 :=
        Nat.add_le_add List.countP_le_length hdrop.le
    _ ≤ i := by simp

/-- More than `i` samples are not above it. -/
theorem lt_countP_sorted (samples : List α) {i : Nat} (hi : i < (sorted samples).length) :
    i < samples.countP (fun y => decide (y ≤ (sorted samples)[i])) := by
  have hlen : ((sorted samples).take (i + 1)).length = i + 1 := by
    rw [List.length_take]
    omega
  -- the first `i + 1` entries are not above the last of them
  have htake : ((sorted samples).take (i + 1)).countP
      (fun y => decide (y ≤ (sorted samples)[i])) = ((sorted samples).take (i + 1)).length := by
    rw [List.countP_eq_length]
    intro y hy
    obtain ⟨j, hj, rfl⟩ := List.mem_take_iff_getElem.mp hy
    rw [decide_eq_true_eq]
    exact sorted_mono (by omega) hi
  calc i < ((sorted samples).take (i + 1)).length := by omega
    _ = ((sorted samples).take (i + 1)).countP (fun y => decide (y ≤ (sorted samples)[i])) :=
        htake.symm
    _ ≤ (sorted samples).countP (fun y => decide (y ≤ (sorted samples)[i])) :=
        (List.take_sublist _ _).countP_le
    _ = samples.countP (fun y => decide (y ≤ (sorted samples)[i])) :=
        (sorted_perm samples).countP_eq _

end

/-! ## The cumulative scan -/

section

variable {κ : Type*}

/-- The first key at which the sum of the counts, starting from `c`, reaches `need`. -/
def scan (count : κ → Nat) (need : ℚ) : List κ → Nat → Option κ
  | [], _ => none
  | k :: keys, c =>
      if need ≤ ((c + count k : Nat) : ℚ) then some k else scan count need keys (c + count k)

/-- The scan passes over keys whose counts do not reach the bound together. -/
theorem scan_append (count : κ → Nat) (need : ℚ) {keys rest : List κ} {c : Nat}
    (h : ((c + (keys.map count).sum : Nat) : ℚ) < need) :
    scan count need (keys ++ rest) c = scan count need rest (c + (keys.map count).sum) := by
  induction keys generalizing c with
  | nil => rfl
  | cons k keys ih =>
      rw [List.map_cons, List.sum_cons, ← Nat.add_assoc] at h ⊢
      have hk : ¬ need ≤ ((c + count k : Nat) : ℚ) := by
        refine not_le.mpr (lt_of_le_of_lt ?_ h)
        exact_mod_cast Nat.le_add_right _ _
      rw [List.cons_append, scan, if_neg hk, ih h]

end

variable {α κ : Type*} [LinearOrder α] [LinearOrder κ]

/-- The buckets in front of the bucket of `x` hold samples below `x` only. -/
theorem countP_front_le {f : α → κ} (hf : Monotone f) {front back : List κ} {x : α}
    (hkeys : (front ++ f x :: back).Pairwise (· < ·)) (samples : List α) :
    samples.countP (fun y => decide (f y ∈ front)) ≤ samples.countP fun y => decide (y < x) := by
  obtain ⟨-, -, hcross⟩ := List.pairwise_append.mp hkeys
  apply List.countP_mono_left
  intro y _ hy
  rw [decide_eq_true_eq] at hy ⊢
  by_contra hxy
  exact absurd (hf (not_lt.mp hxy)) (not_le.mpr (hcross _ hy _ List.mem_cons_self))

/-- With the bucket of `x` they hold all that are not above `x`. -/
theorem le_countP_upto {f : α → κ} (hf : Monotone f) {front back : List κ} {x : α}
    (hkeys : (front ++ f x :: back).Pairwise (· < ·)) {samples : List α}
    (hmem : ∀ y ∈ samples, f y ∈ front ++ f x :: back) :
    samples.countP (fun y => decide (y ≤ x))
      ≤ samples.countP fun y => decide (f y ∈ front ++ [f x]) := by
  obtain ⟨-, hback, -⟩ := List.pairwise_append.mp hkeys
  rw [List.pairwise_cons] at hback
  apply List.countP_mono_left
  intro y hy hyx
  rw [decide_eq_true_eq] at hyx ⊢
  rcases List.mem_append.mp (hmem y hy) with hin | hin
  · exact List.mem_append_left _ hin
  · rcases List.mem_cons.mp hin with heq | hin
    · exact List.mem_append_right _ (List.mem_singleton.mpr heq)
    · exact absurd (hf hyx) (not_le.mpr (hback.1 _ hin))

/-- **The scan finds the bucket of the order statistic.** The keys are in ascending order and
are all the buckets that samples fall into. -/
theorem scan_eq_bucket {f : α → κ} (hf : Monotone f) {samples : List α} {keys : List κ}
    (hkeys : keys.Pairwise (· < ·)) (hmem : ∀ x ∈ samples, f x ∈ keys) {count : κ → Nat}
    (hcount : ∀ k ∈ keys, count k = samples.countP fun x => decide (f x = k)) {need : ℚ}
    {i : Nat} (hneed : ⌈need⌉₊ = i + 1) (hi : i < (sorted samples).length) :
    scan count need keys 0 = some (f (sorted samples)[i]) := by
  have hlt := countP_lt_sorted samples hi
  have hle := lt_countP_sorted samples hi
  have hxmem : (sorted samples)[i] ∈ samples :=
    (sorted_perm samples).subset (List.getElem_mem hi)
  generalize (sorted samples)[i] = x at hlt hle hxmem
  obtain ⟨front, back, rfl⟩ := List.append_of_mem (hmem x hxmem)
  -- the counts of a part of the keys add up to the samples that fall into it
  have hsum : ∀ part : List κ, part.Sublist (front ++ f x :: back) →
      (part.map count).sum = samples.countP fun y => decide (f y ∈ part) := by
    intro part hpart
    have hnodup : part.Nodup := (hkeys.sublist hpart).imp ne_of_lt
    rw [← sum_countP_eq f hnodup samples]
    exact congrArg List.sum (List.map_congr_left fun k hk => hcount k (hpart.subset hk))
  have hbelow : (front.map count).sum ≤ i := by
    calc (front.map count).sum = samples.countP fun y => decide (f y ∈ front) :=
          hsum front (List.sublist_append_left _ _)
      _ ≤ samples.countP fun y => decide (y < x) := countP_front_le hf hkeys samples
      _ ≤ i := hlt
  have hreach : i < (front.map count).sum + count (f x) := by
    calc i < samples.countP fun y => decide (y ≤ x) := hle
      _ ≤ samples.countP fun y => decide (f y ∈ front ++ [f x]) := le_countP_upto hf hkeys hmem
      _ = ((front ++ [f x]).map count).sum := (hsum (front ++ [f x]) (by simp)).symm
      _ = (front.map count).sum + count (f x) := by
          rw [List.map_append, List.sum_append, List.map_singleton, List.sum_singleton]
  have hfront : ((0 + (front.map count).sum : Nat) : ℚ) < need := by
    rw [Nat.zero_add, ← Nat.lt_ceil, hneed]
    omega
  rw [scan_append count need hfront, scan, if_pos]
  rw [Nat.zero_add, ← Nat.ceil_le, hneed]
  exact hreach

end Histogram
