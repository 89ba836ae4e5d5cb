import Pacer.Instr.Bucket
import Mathlib.Logic.Function.Basic
import Mathlib.Data.List.Induction

set_option autoImplicit false

/-! # The counters of a thread

What `pacer_instr.h` measures in each thread: nodes retired and freed, the backlog sampled at
every 256th operation, and the durations of `startOp`, sorted into the buckets of a histogram
(`ofEvents_hist`). The counters are of 64 bits each; no thread lives to count that far, so they
are numbers here.
-/

namespace Pacer.Pinstr

structure ThreadStats where
  retired : Nat
  freed : Nat
  ops : Nat
  peak : Nat
  sum : Nat
  samples : Nat
  maxcyc : Nat
  hist : Nat → Nat

namespace ThreadStats

def new : ThreadStats :=
  { retired := 0, freed := 0, ops := 0, peak := 0, sum := 0, samples := 0, maxcyc := 0,
    hist := fun _ => 0 }

/-- The backlog, sampled at every 256th operation. -/
def sampleBacklog (s : ThreadStats) : ThreadStats :=
  let b := if s.retired > s.freed then s.retired - s.freed else 0
  { s with peak := if b > s.peak then b else s.peak, sum := s.sum + b, samples := s.samples + 1 }

/-- `~Timer`, `d` cycles after the timer was started. -/
def endTimer (s : ThreadStats) (d : Nat) : ThreadStats :=
  let s := { s with
    hist := Function.update s.hist (bucket d) (s.hist (bucket d) + 1)
    maxcyc := if d > s.maxcyc then d else s.maxcyc
    ops := s.ops + 1 }
  if s.ops &&& 255 = 0 then s.sampleBacklog else s

def onRetire (s : ThreadStats) : ThreadStats := { s with retired := s.retired + 1 }

def onFree (s : ThreadStats) (n : Nat) : ThreadStats := { s with freed := s.freed + n }

end ThreadStats

/-- What a thread's counters see of its operations. -/
inductive StatEvent where
  /-- a `startOp` that took `d` cycles -/
  | timed (d : Nat)
  | retire
  | free (n : Nat)
  deriving DecidableEq

namespace ThreadStats

def record (s : ThreadStats) : StatEvent → ThreadStats
  | .timed d => s.endTimer d
  | .retire => s.onRetire
  | .free n => s.onFree n

/-- The counters of a thread at its `deinitThread`. -/
def ofEvents (events : List StatEvent) : ThreadStats := events.foldl record new

end ThreadStats

/-- The durations that a thread measured. -/
def durations (events : List StatEvent) : List Nat :=
  events.filterMap fun
    | .timed d => some d
    | _ => none

namespace ThreadStats

theorem endTimer_hist (s : ThreadStats) (d : Nat) :
    (s.endTimer d).hist = Function.update s.hist (bucket d) (s.hist (bucket d) + 1) := by
  unfold endTimer
  dsimp only
  split <;> rfl

theorem endTimer_maxcyc (s : ThreadStats) (d : Nat) :
    (s.endTimer d).maxcyc = max s.maxcyc d := by
  have hmax : (if d > s.maxcyc then d else s.maxcyc) = max s.maxcyc d := by
    split <;> omega
  unfold endTimer
  dsimp only
  rw [hmax]
  split <;> rfl

theorem endTimer_retired (s : ThreadStats) (d : Nat) : (s.endTimer d).retired = s.retired := by
  unfold endTimer
  dsimp only
  split <;> rfl

theorem endTimer_freed (s : ThreadStats) (d : Nat) : (s.endTimer d).freed = s.freed := by
  unfold endTimer
  dsimp only
  split <;> rfl

theorem ofEvents_snoc (events : List StatEvent) (e : StatEvent) :
    ofEvents (events ++ [e]) = (ofEvents events).record e := by
  rw [ofEvents, List.foldl_append]
  rfl

end ThreadStats

/-- **A cell counts the durations of its bucket.** -/
theorem ofEvents_hist (events : List StatEvent) (i : Nat) :
    (ThreadStats.ofEvents events).hist i
      = (durations events).countP fun d => decide (bucket d = i) := by
  induction events using List.reverseRecOn with
  | nil => rfl
  | append_singleton events e ih =>
      rw [ThreadStats.ofEvents_snoc, durations, List.filterMap_append, List.countP_append]
      change _ = (durations events).countP _ + _
      rw [← ih]
      cases e with
      | retire => rfl
      | free n => rfl
      | timed d =>
          show ((ThreadStats.ofEvents events).endTimer d).hist i = _
          rw [ThreadStats.endTimer_hist]
          by_cases hi : bucket d = i
          · subst hi
            simp
          · simp [Function.update_of_ne (Ne.symm hi), hi]

/-- The longest duration. -/
theorem ofEvents_maxcyc (events : List StatEvent) :
    (ThreadStats.ofEvents events).maxcyc = (durations events).foldl max 0 := by
  induction events using List.reverseRecOn with
  | nil => rfl
  | append_singleton events e ih =>
      rw [ThreadStats.ofEvents_snoc, durations, List.filterMap_append, List.foldl_append]
      change _ = List.foldl max ((durations events).foldl max 0) _
      rw [← ih]
      cases e with
      | retire => rfl
      | free n => rfl
      | timed d => exact ThreadStats.endTimer_maxcyc _ d

theorem ofEvents_retired (events : List StatEvent) :
    (ThreadStats.ofEvents events).retired = events.count .retire := by
  induction events using List.reverseRecOn with
  | nil => rfl
  | append_singleton events e ih =>
      rw [ThreadStats.ofEvents_snoc, List.count_append, ← ih]
      cases e with
      | retire => rfl
      | free n => rfl
      | timed d => exact ThreadStats.endTimer_retired _ d

/-- The nodes that the event frees. -/
def StatEvent.freed : StatEvent → Nat
  | .free n => n
  | .timed _ | .retire => 0

theorem ofEvents_freed (events : List StatEvent) :
    (ThreadStats.ofEvents events).freed = (events.map StatEvent.freed).sum := by
  induction events using List.reverseRecOn with
  | nil => rfl
  | append_singleton events e ih =>
      rw [ThreadStats.ofEvents_snoc, List.map_append, List.sum_append, ← ih]
      cases e with
      | retire => rfl
      | free n => rfl
      | timed d => exact ThreadStats.endTimer_freed _ d

/-! ## The cells that are printed -/

/-- The cells that a thread prints: the nonzero ones, in order. -/
def ThreadStats.cells (s : ThreadStats) : List (Nat × Nat) :=
  (List.range 256).filterMap fun i => if s.hist i = 0 then none else some (i, s.hist i)

theorem ThreadStats.mem_cells {s : ThreadStats} {i c : Nat} :
    (i, c) ∈ s.cells ↔ i < 256 ∧ s.hist i = c ∧ c ≠ 0 := by
  unfold ThreadStats.cells
  rw [List.mem_filterMap]
  constructor
  · rintro ⟨j, hj, hsome⟩
    by_cases h : s.hist j = 0
    · rw [if_pos h] at hsome
      cases hsome
    · rw [if_neg h, Option.some.injEq, Prod.mk.injEq] at hsome
      obtain ⟨rfl, rfl⟩ := hsome
      exact ⟨List.mem_range.mp hj, rfl, h⟩
  · rintro ⟨hi, rfl, hc⟩
    exact ⟨i, List.mem_range.mpr hi, if_neg hc⟩

theorem ThreadStats.mem_keys_cells {s : ThreadStats} {i : Nat} :
    i ∈ s.cells.map Prod.fst ↔ i < 256 ∧ s.hist i ≠ 0 := by
  rw [List.mem_map]
  constructor
  · rintro ⟨⟨j, c⟩, hmem, rfl⟩
    obtain ⟨hlt, rfl, hne⟩ := ThreadStats.mem_cells.mp hmem
    exact ⟨hlt, hne⟩
  · rintro ⟨hlt, hne⟩
    exact ⟨(i, s.hist i), ThreadStats.mem_cells.mpr ⟨hlt, rfl, hne⟩, rfl⟩

/-- Of the cells below `n` only the one with the index `j` adds to the count of `j`. -/
theorem sum_cells_below (hist : Nat → Nat) (j n : Nat) :
    (((List.range n).filterMap fun i => if hist i = 0 then none else some (i, hist i)).map
      fun e => if e.1 = j then e.2 else 0).sum = if j < n then hist j else 0 := by
  induction n with
  | zero => rfl
  | succ n ih =>
      rw [List.range_succ, List.filterMap_append, List.map_append, List.sum_append, ih]
      by_cases hjn : n = j
      · subst hjn
        by_cases h : hist n = 0
        · simp [h]
        · simp [h]
      · -- cell `n` counts nothing for `j`
        have hlast : (([n].filterMap fun i => if hist i = 0 then none else some (i, hist i)).map
            fun e => if e.1 = j then e.2 else 0).sum = 0 := by
          by_cases h : hist n = 0
          · simp [h]
          · simp [h, hjn]
        have hiff : j < n + 1 ↔ j < n := by omega
        rw [hlast, Nat.add_zero]
        simp only [hiff]

/-- A thread's cells count every index below the size of the histogram. -/
theorem ThreadStats.sum_cells (s : ThreadStats) {j : Nat} (hj : j < 256) :
    (s.cells.map fun e => if e.1 = j then e.2 else 0).sum = s.hist j := by
  rw [ThreadStats.cells, sum_cells_below, if_pos hj]

end Pacer.Pinstr
