import Pacer.Instr.Stats
import Pacer.Lib.Histogram

set_option autoImplicit false

/-! # Latency percentiles

`isweep.py` adds up the histogram cells that the threads print and reads percentiles off the
sum. The percentile that it reports is the start of the bucket of the order statistic that was
asked for, whatever threads the samples are spread over (`pct_merge`), so it is less than a
quarter octave below it.
-/

namespace Pacer.Pinstr

open Histogram

/-! ## The merged histogram -/

/-- The dictionary that `isweep.py` fills from the cells of all lines. -/
def merge (lines : List (List (Nat × Nat))) : Counter Nat :=
  lines.foldl Counter.addAll Counter.empty

theorem get_foldl_addAll (h : Counter Nat) (lines : List (List (Nat × Nat))) (j : Nat) :
    (lines.foldl Counter.addAll h).get j
      = h.get j + (lines.map fun cells => (cells.map fun e => if e.1 = j then e.2 else 0).sum).sum
      := by
  induction lines generalizing h with
  | nil => rfl
  | cons cells lines ih =>
      rw [List.foldl_cons, ih, Counter.get_addAll, List.map_cons, List.sum_cons, Nat.add_assoc]

theorem mem_keys_foldl_addAll (h : Counter Nat) (lines : List (List (Nat × Nat))) (j : Nat) :
    j ∈ (lines.foldl Counter.addAll h).keys
      ↔ j ∈ h.keys ∨ ∃ cells ∈ lines, j ∈ cells.map Prod.fst := by
  induction lines generalizing h with
  | nil => simp
  | cons cells lines ih =>
      rw [List.foldl_cons, ih, Counter.mem_keys_addAll]
      simp only [List.mem_cons, exists_eq_or_imp, or_assoc]

/-- The lines that the threads print. -/
def linesOf (threads : List (List StatEvent)) : List (List (Nat × Nat)) :=
  threads.map fun events => (ThreadStats.ofEvents events).cells

/-- The samples of all threads. -/
def allDurations (threads : List (List StatEvent)) : List Nat := threads.flatMap durations

/-- **The merged histogram counts the samples of all threads.** -/
theorem get_merge (threads : List (List StatEvent)) {j : Nat} (hj : j < 256) :
    (merge (linesOf threads)).get j
      = (allDurations threads).countP fun d => decide (bucket d = j) := by
  rw [merge, get_foldl_addAll, Counter.get_empty, Nat.zero_add, allDurations,
    List.countP_flatMap, linesOf, List.map_map]
  refine congrArg List.sum (List.map_congr_left fun events _ => ?_)
  show ((ThreadStats.ofEvents events).cells.map _).sum = (durations events).countP _
  rw [ThreadStats.sum_cells _ hj, ofEvents_hist]

theorem lt_of_mem_keys_merge {threads : List (List StatEvent)} {j : Nat}
    (h : j ∈ (merge (linesOf threads)).keys) : j < 256 := by
  rw [merge, mem_keys_foldl_addAll, Counter.keys_empty] at h
  rcases h with hnil | ⟨cells, hcells, hj⟩
  · cases hnil
  · obtain ⟨events, -, rfl⟩ := List.mem_map.mp hcells
    exact (ThreadStats.mem_keys_cells.mp hj).1

/-- The bucket of every sample is a key. -/
theorem bucket_mem_keys_merge {threads : List (List StatEvent)} {d : Nat}
    (hd : d ∈ allDurations threads) (h64 : d < 2 ^ 64) :
    bucket d ∈ (merge (linesOf threads)).keys := by
  obtain ⟨events, hevents, hmem⟩ := List.mem_flatMap.mp hd
  have hlt : bucket d < 256 := by
    have := bucket_le h64
    omega
  rw [merge, mem_keys_foldl_addAll]
  refine Or.inr ⟨_, List.mem_map_of_mem hevents, ThreadStats.mem_keys_cells.mpr ⟨hlt, ?_⟩⟩
  rw [ofEvents_hist]
  exact (List.countP_pos_iff.mpr ⟨d, hmem, by simp⟩).ne'

/-! ## The percentile -/

/-- `pct` of `isweep.py` -/
def pct (hist : Counter Nat) (p : ℚ) : Nat :=
  let tot := hist.total
  let need := tot * p
  match scan hist.get need (sorted hist.keys) 0 with
  | some i => bucketLo i
  | none => 0

section

variable {threads : List (List StatEvent)} (h64 : ∀ d ∈ allDurations threads, d < 2 ^ 64)

theorem pairwise_sorted_keys (hist : Counter Nat) : (sorted hist.keys).Pairwise (· < ·) := by
  have hnodup : (sorted hist.keys).Nodup := (sorted_perm hist.keys).nodup_iff.mpr hist.nodup
  exact (pairwise_sorted hist.keys).imp₂ (fun _ _ hle hne => lt_of_le_of_ne hle hne) hnodup

include h64

theorem total_merge : (merge (linesOf threads)).total = (allDurations threads).length := by
  have hcount : (merge (linesOf threads)).keys.map (merge (linesOf threads)).get
      = (merge (linesOf threads)).keys.map fun k =>
          (allDurations threads).countP fun d => decide (bucket d = k) :=
    List.map_congr_left fun k hk => get_merge threads (lt_of_mem_keys_merge hk)
  have hsum := sum_countP_eq bucket (merge (linesOf threads)).nodup (allDurations threads)
  rw [Counter.total_eq_sum_get, hcount]
  refine hsum.trans (List.countP_eq_length.mpr ?_)
  intro d hd
  exact decide_eq_true (bucket_mem_keys_merge hd (h64 d hd))

/-- **`pct` reports the bucket of the order statistic.** -/
theorem pct_merge (hne : allDurations threads ≠ []) {p : ℚ} (h0 : 0 < p) (h1 : p ≤ 1) :
    ∃ x, (sorted (allDurations threads))[⌈((allDurations threads).length : ℚ) * p⌉₊ - 1]?
        = some x ∧ pct (merge (linesOf threads)) p = bucketLo (bucket x) := by
  have hlen : 0 < (allDurations threads).length := List.length_pos_iff.mpr hne
  have hpos : 0 < ⌈((allDurations threads).length : ℚ) * p⌉₊ := by
    rw [Nat.ceil_pos]
    positivity
  have hle : ⌈((allDurations threads).length : ℚ) * p⌉₊ ≤ (allDurations threads).length := by
    rw [Nat.ceil_le]
    exact mul_le_of_le_one_right (Nat.cast_nonneg _) h1
  have hi : ⌈((allDurations threads).length : ℚ) * p⌉₊ - 1
      < (sorted (allDurations threads)).length := by
    rw [length_sorted]
    omega
  refine ⟨_, List.getElem?_eq_getElem hi, ?_⟩
  have hmem : ∀ d ∈ allDurations threads, bucket d ∈ sorted (merge (linesOf threads)).keys :=
    fun d hd => (sorted_perm _).mem_iff.mpr (bucket_mem_keys_merge hd (h64 d hd))
  have hcount : ∀ k ∈ sorted (merge (linesOf threads)).keys, (merge (linesOf threads)).get k
      = (allDurations threads).countP fun d => decide (bucket d = k) :=
    fun k hk => get_merge threads (lt_of_mem_keys_merge ((sorted_perm _).mem_iff.mp hk))
  have hscan : scan (merge (linesOf threads)).get (((allDurations threads).length : ℚ) * p)
      (sorted (merge (linesOf threads)).keys) 0 = _ :=
    scan_eq_bucket bucket_mono (pairwise_sorted_keys _) hmem hcount (by omega) hi
  simp only [pct, total_merge h64, hscan]

end

/-- **Reported percentiles are accurate to a quarter octave.** Every 64-bit duration has its
bucket inside the histogram, `bucket_lo` gives the ends of its bucket, and both functions keep
the order. For samples spread over any threads `pct` then reports a duration `q` that is the
`⌈p · total⌉`-th smallest sample or less than a quarter of itself below it. -/
theorem percentiles_accurate :
    (∀ d, d < 2 ^ 64 → bucket d ≤ 251 ∧ bucketLo (bucket d) ≤ d ∧ d < bucketLo (bucket d + 1))
      ∧ (∀ d d', d ≤ d' → bucket d ≤ bucket d')
      ∧ (∀ i j, i < j → bucketLo i < bucketLo j)
      ∧ ∀ threads : List (List StatEvent), (∀ d ∈ allDurations threads, d < 2 ^ 64) →
          allDurations threads ≠ [] → ∀ p : ℚ, 0 < p → p ≤ 1 →
            ∃ x q, (sorted (allDurations threads))[
                ⌈((allDurations threads).length : ℚ) * p⌉₊ - 1]? = some x
              ∧ pct (merge (linesOf threads)) p = q
              ∧ q ≤ x ∧ (x = q ∨ 4 * x < 5 * q) := by
  refine ⟨fun d hd => ⟨bucket_le hd, bucketLo_bucket d⟩, fun _ _ h => bucket_mono h,
    fun _ _ h => bucketLo_strictMono h, fun threads h64 hne p h0 h1 => ?_⟩
  obtain ⟨x, hx, hpct⟩ := pct_merge h64 hne h0 h1
  exact ⟨x, _, hx, hpct, (bucketLo_bucket x).1, bucketLo_accurate x⟩

/-- Two threads with two samples each. -/
def twoThreads : List (List StatEvent) :=
  [[.timed 100, .retire, .timed 9000], [.timed 250, .free 1, .timed 40]]

/-- The median of the four samples, `100`, is reported from `81` up. -/
theorem percentiles_accurate_median :
    (sorted (allDurations twoThreads))[1]? = some 100
      ∧ pct (merge (linesOf twoThreads)) (1 / 2) ≤ 100
      ∧ 80 < pct (merge (linesOf twoThreads)) (1 / 2) := by
  obtain ⟨x, q, hx, hq, hle, hlt⟩ := percentiles_accurate.2.2.2 twoThreads (by decide) (by decide)
    (1 / 2) (by norm_num) (by norm_num)
  have hall : allDurations twoThreads = [100, 9000, 250, 40] := by decide
  have hrank : ⌈((allDurations twoThreads).length : ℚ) * (1 / 2)⌉₊ - 1 = 1 := by
    rw [hall]
    norm_num
  have hmedian : (sorted (allDurations twoThreads))[1]? = some 100 := by
    rw [hall]
    simp [sorted, List.mergeSort, List.MergeSort.Internal.splitInTwo]
  rw [hrank, hmedian] at hx
  obtain rfl := Option.some.inj hx
  rw [hq]
  exact ⟨hmedian, hle, by omega⟩

end Pacer.Pinstr
