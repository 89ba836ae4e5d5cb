import Pacer.Instr.Parse

set_option autoImplicit false

/-! # The table of `isweep.py`

`isweep.py` runs a benchmark, takes the last `INSTR` lines from its standard error, one for each
timed thread, and adds them up. Behind any other lines, what the threads wrote is found and read
back whole (`sweep_reports`), so the numbers in the table are those of the threads' counters and
its percentiles those of all durations (`sweep_accurate`).
-/

namespace Pacer.Pinstr

open Histogram TextSearch

/-! ## The functions of `isweep.py` -/

/-- `[l for l in se.splitlines() if l.startswith('INSTR')]`. Between `\r` and `\n` and at the end
of a text that ends a line `splitlines` has no line; here it has an empty one. -/
def instrLines (se : List Char) : List (List Char) :=
  (se.splitOnP fun c => decide (c ∈ lineBreaks)).filter fun l => "INSTR".toList.isPrefixOf l

/-- `lines[-nt:]` -/
def lastLines (nt : Nat) (lines : List (List Char)) : List (List Char) :=
  if nt = 0 then lines else lines.drop (lines.length - nt)

/-- The variables of the loop over the lines; of `avg` the texts that are added up. -/
structure Tally where
  hist : Counter Nat
  avgs : List (List Char)
  peaks : List Nat
  ret : Nat
  fr : Nat
  mx : Nat

def Tally.empty : Tally := ⟨Counter.empty, [], [], 0, 0, 0⟩

/-- The body of the loop; `none` for an exception. -/
def Tally.addLine (t : Tally) (l : List Char) : Option Tally :=
  match search matchAvg l, num "peak" l, num "retired" l, num "freed" l, num "maxcyc" l,
      Pinstr.addLine t.hist l with
  | some avg, some peak, some retired, some freed, some maxcyc, some hist =>
      some { hist := hist, avgs := t.avgs ++ [avg], peaks := t.peaks ++ [peak],
             ret := t.ret + retired, fr := t.fr + freed, mx := max t.mx maxcyc }
  | _, _, _, _, _, _ => none

/-- From the standard error of a run with `nt` timed threads; `none` also where the row is left
empty for want of lines. -/
def sweep (nt : Nat) (se : List Char) : Option Tally :=
  if (instrLines se).length < nt then none
  else (lastLines nt (instrLines se)).foldlM Tally.addLine Tally.empty

/-! ## Finding the lines -/

theorem instrLines_append (line se : List Char) :
    instrLines (line ++ '\n' :: se) = instrLines line ++ instrLines se := by
  have hbreak : decide ('\n' ∈ lineBreaks) = true := by decide
  rw [instrLines, List.splitOnP_append_cons line se hbreak, List.filter_append]
  rfl

/-- A line that `report` wrote is found. -/
theorem instrLines_lineText (s : ThreadStats) (tid : Int) :
    instrLines (lineText s tid) = [lineText s tid] := by
  have hone : (lineText s tid).splitOnP (fun c => decide (c ∈ lineBreaks)) = [lineText s tid] := by
    refine List.splitOnP_eq_singleton fun c hc => decide_eq_false fun hbreak => ?_
    exact lineBreak_not_mem_lineText hbreak s tid hc
  have hstart : "INSTR".toList.isPrefixOf (lineText s tid) = true := by
    rw [List.isPrefixOf_iff_prefix, lineText_eq]
    exact List.prefix_append _ _
  rw [instrLines, hone, List.filter_cons_of_pos hstart, List.filter_nil]

/-- Whatever lines are in front, those behind them are found as well. -/
theorem exists_instrLines (before : List (List Char)) (se : List Char) :
    ∃ others, instrLines (before.flatMap (· ++ ['\n']) ++ se) = others ++ instrLines se := by
  induction before with
  | nil => exact ⟨[], rfl⟩
  | cons line before ih =>
      obtain ⟨others, ih⟩ := ih
      refine ⟨instrLines line ++ others, ?_⟩
      rw [List.flatMap_cons, List.append_assoc, List.append_assoc, List.singleton_append,
        instrLines_append, ih, List.append_assoc]

theorem lastLines_append (others : List (List Char)) {lines : List (List Char)}
    (hne : lines ≠ []) :
    lastLines lines.length (others ++ lines) = lines := by
  have hpos : lines.length ≠ 0 := fun h => hne (List.length_eq_zero_iff.mp h)
  rw [lastLines, if_neg hpos, List.length_append, Nat.add_sub_cancel, List.drop_left]

/-! ## What the threads write -/

/-- A thread's counters at its `deinitThread`, its number, and what its buffer held before. -/
structure Reporter where
  events : List StatEvent
  tid : Int
  buf : Nat → Char

namespace Reporter

def stats (r : Reporter) : ThreadStats := ThreadStats.ofEvents r.events

/-- What the thread writes to standard error, in one piece. -/
def output (r : Reporter) : List Char := (report r.buf r.stats r.tid).2

/-- Its counters fit into 64 bits and its number into 32. -/
structure Fits (r : Reporter) : Prop where
  stats : r.stats.Bounded
  tid : -2 ^ 31 ≤ r.tid ∧ r.tid < 2 ^ 31

theorem Fits.output {r : Reporter} (h : r.Fits) : r.output = lineText r.stats r.tid ++ ['\n'] :=
  (report_eq h.stats h.tid r.buf).1

end Reporter

theorem instrLines_outputs {rs : List Reporter} (h : ∀ r ∈ rs, r.Fits) :
    instrLines (rs.flatMap Reporter.output) = rs.map fun r => lineText r.stats r.tid := by
  induction rs with
  | nil => decide
  | cons r rs ih =>
      rw [List.forall_mem_cons] at h
      rw [List.flatMap_cons, h.1.output, List.append_assoc, List.singleton_append,
        instrLines_append, instrLines_lineText, ih h.2]
      rfl

/-! ## Adding up -/

/-- The counters of one more thread. -/
def Tally.add (t : Tally) (s : ThreadStats) : Tally :=
  { hist := t.hist.addAll s.cells, avgs := t.avgs ++ [fmtTenths s.avg],
    peaks := t.peaks ++ [s.peak], ret := t.ret + s.retired, fr := t.fr + s.freed,
    mx := max t.mx s.maxcyc }

/-- **A line adds the counters it was printed from.** -/
theorem Tally.addLine_lineText (t : Tally) (s : ThreadStats) (tid : Int) :
    t.addLine (lineText s tid) = some (t.add s) := by
  simp only [Tally.addLine, search_avg_lineText, num_lineText clear_peak rfl,
    num_lineText clear_retired rfl, num_lineText clear_freed rfl, num_lineText clear_maxcyc rfl,
    Pinstr.addLine_lineText]
  rfl

/-- The counters of all threads. -/
def tally (rs : List Reporter) : Tally := (rs.map Reporter.stats).foldl Tally.add Tally.empty

/-- **The sweep reads back what the threads wrote**, behind whatever lines. -/
theorem sweep_reports {rs : List Reporter} (h : ∀ r ∈ rs, r.Fits) (hne : rs ≠ [])
    (before : List (List Char)) :
    sweep rs.length (before.flatMap (· ++ ['\n']) ++ rs.flatMap Reporter.output)
      = some (tally rs) := by
  obtain ⟨others, hlines⟩ := exists_instrLines before (rs.flatMap Reporter.output)
  rw [instrLines_outputs h] at hlines
  have hlast : lastLines rs.length (others ++ rs.map fun r => lineText r.stats r.tid)
      = rs.map fun r => lineText r.stats r.tid := by
    have hmap : (rs.map fun r => lineText r.stats r.tid) ≠ [] := by simpa using hne
    simpa using lastLines_append others hmap
  have hfold : ∀ t : Tally, (rs.map fun r => lineText r.stats r.tid).foldlM Tally.addLine t
      = some ((rs.map Reporter.stats).foldl Tally.add t) := by
    clear h hne hlines hlast
    induction rs with
    | nil => exact fun t => rfl
    | cons r rs ih =>
        intro t
        rw [List.map_cons, List.foldlM_cons, Tally.addLine_lineText]
        exact ih (t.add r.stats)
  rw [sweep, hlines, if_neg (by simp), hlast, hfold]
  rfl

/-! ## The sums -/

theorem foldl_max_eq (l : List Nat) (a : Nat) : l.foldl max a = max a (l.foldl max 0) := by
  induction l generalizing a with
  | nil => simp
  | cons d l ih =>
      rw [List.foldl_cons, ih, List.foldl_cons, ih (max 0 d)]
      omega

theorem le_foldl_max {l : List Nat} {d : Nat} (h : d ∈ l) : d ≤ l.foldl max 0 := by
  induction l with
  | nil => cases h
  | cons e l ih =>
      rw [List.foldl_cons, foldl_max_eq]
      rcases List.mem_cons.mp h with rfl | h
      · omega
      · have := ih h
        omega

/-- **Each variable is the sum, the list or the maximum over the threads.** -/
theorem tally_eq (rs : List Reporter) :
    tally rs = { hist := merge (linesOf (rs.map Reporter.events))
                 avgs := rs.map fun r => fmtTenths r.stats.avg
                 peaks := rs.map fun r => r.stats.peak
                 ret := (rs.map fun r => r.stats.retired).sum
                 fr := (rs.map fun r => r.stats.freed).sum
                 mx := (allDurations (rs.map Reporter.events)).foldl max 0 } := by
  induction rs using List.reverseRecOn with
  | nil => rfl
  | append_singleton rs r ih =>
      have hsnoc : tally (rs ++ [r]) = (tally rs).add r.stats := by
        simp only [tally, List.map_append, List.foldl_append, List.map_cons, List.map_nil,
          List.foldl_cons, List.foldl_nil]
      have hmerge : merge (linesOf ((rs ++ [r]).map Reporter.events))
          = (merge (linesOf (rs.map Reporter.events))).addAll r.stats.cells := by
        simp only [merge, linesOf, List.map_append, List.foldl_append, List.map_cons,
          List.map_nil, List.foldl_cons, List.foldl_nil, Reporter.stats]
      have hmax : (allDurations ((rs ++ [r]).map Reporter.events)).foldl max 0
          = max ((allDurations (rs.map Reporter.events)).foldl max 0) r.stats.maxcyc := by
        rw [Reporter.stats, ofEvents_maxcyc, ← foldl_max_eq]
        simp only [allDurations, List.map_append, List.flatMap_append, List.foldl_append,
          List.map_cons, List.map_nil, List.flatMap_cons, List.flatMap_nil, List.append_nil]
      rw [hsnoc, ih, hmerge, hmax]
      simp only [Tally.add, List.map_append, List.map_cons, List.map_nil, List.sum_append,
        List.sum_cons, List.sum_nil, Nat.add_zero]

/-- A duration is at most the maximum that its thread reports. -/
theorem durations_lt {rs : List Reporter} (h : ∀ r ∈ rs, r.Fits) :
    ∀ d ∈ allDurations (rs.map Reporter.events), d < 2 ^ 64 := by
  intro d hd
  obtain ⟨events, hevents, hd⟩ := List.mem_flatMap.mp hd
  obtain ⟨r, hr, rfl⟩ := List.mem_map.mp hevents
  refine lt_of_le_of_lt ?_ (h r hr).stats.maxcyc
  rw [Reporter.stats, ofEvents_maxcyc]
  exact le_foldl_max hd

/-- **The table is accurate.** From what the threads of a run wrote to standard error, behind any
other lines, `isweep.py` gets the nodes that they retired and freed, the peak of each, the
longest of all durations, and percentiles that are an order statistic of all durations or less
than a quarter of it below. -/
theorem sweep_accurate {rs : List Reporter} (h : ∀ r ∈ rs, r.Fits) (hne : rs ≠ [])
    (before : List (List Char)) :
    ∃ t, sweep rs.length (before.flatMap (· ++ ['\n']) ++ rs.flatMap Reporter.output) = some t
      ∧ t.ret = ((rs.flatMap Reporter.events).count .retire)
      ∧ t.fr = ((rs.flatMap Reporter.events).map StatEvent.freed).sum
      ∧ t.peaks = rs.map (fun r => r.stats.peak)
      ∧ t.mx = (allDurations (rs.map Reporter.events)).foldl max 0
      ∧ ∀ p : ℚ, 0 < p → p ≤ 1 → allDurations (rs.map Reporter.events) ≠ [] →
          ∃ x, (sorted (allDurations (rs.map Reporter.events)))[
              ⌈((allDurations (rs.map Reporter.events)).length : ℚ) * p⌉₊ - 1]? = some x
            ∧ pct t.hist p ≤ x ∧ (x = pct t.hist p ∨ 4 * x < 5 * pct t.hist p) := by
  refine ⟨tally rs, sweep_reports h hne before, ?_⟩
  rw [tally_eq]
  refine ⟨?_, ?_, rfl, rfl, fun p h0 h1 hsamples => ?_⟩
  · rw [List.count_flatMap]
    exact congrArg List.sum (List.map_congr_left fun r _ => ofEvents_retired r.events)
  · rw [List.flatMap_def, List.map_flatten, List.sum_flatten, List.map_map, List.map_map]
    exact congrArg List.sum (List.map_congr_left fun r _ => ofEvents_freed r.events)
  · obtain ⟨x, hx, hpct⟩ := pct_merge (durations_lt h) hsamples h0 h1
    dsimp only
    rw [hpct]
    exact ⟨x, hx, (bucketLo_bucket x).1, bucketLo_accurate x⟩

/-- Two threads, the second with a negative number and with what a longer line left behind. -/
def twoReporters : List Reporter :=
  [⟨[.timed 100, .retire, .timed 9000], 0, fun _ => ' '⟩,
    ⟨[.timed 250, .free 1, .timed 40], -1, fun _ => '7'⟩]

theorem fits_twoReporters : ∀ r ∈ twoReporters, r.Fits := by
  have hcells : ∀ events : List StatEvent, events.length ≤ 4 →
      ∀ i, (ThreadStats.ofEvents events).hist i < 2 ^ 64 := by
    intro events hlen i
    rw [ofEvents_hist]
    refine lt_of_le_of_lt List.countP_le_length (lt_of_le_of_lt ?_ (by decide : 4 < 2 ^ 64))
    exact (List.length_filterMap_le _ _).trans hlen
  intro r hr
  simp only [twoReporters, List.mem_cons, List.not_mem_nil, or_false] at hr
  rcases hr with rfl | rfl <;>
    exact ⟨⟨by decide, by decide, by decide, by decide, by decide, by decide, by decide,
      hcells _ (by decide)⟩, by decide⟩

/-- Behind an old line and another one, the median of the four durations is `100`. -/
theorem sweep_accurate_two :
    ∃ t, sweep 2 (["INSTR tid=9 peak=".toList, "done".toList].flatMap (· ++ ['\n'])
        ++ twoReporters.flatMap Reporter.output) = some t
      ∧ t.ret = 1 ∧ t.fr = 1 ∧ t.mx = 9000
      ∧ 80 < pct t.hist (1 / 2) ∧ pct t.hist (1 / 2) ≤ 100 := by
  obtain ⟨t, hsweep, hret, hfr, -, hmx, hpct⟩ := sweep_accurate fits_twoReporters (by decide)
    ["INSTR tid=9 peak=".toList, "done".toList]
  have hall : allDurations (twoReporters.map Reporter.events) = [100, 9000, 250, 40] := by decide
  obtain ⟨x, hx, hle, hlt⟩ := hpct (1 / 2) (by norm_num) (by norm_num) (by rw [hall]; decide)
  have hrank : ⌈((allDurations (twoReporters.map Reporter.events)).length : ℚ) * (1 / 2)⌉₊ - 1
      = 1 := by
    rw [hall]
    norm_num
  have hmedian : (sorted (allDurations (twoReporters.map Reporter.events)))[1]? = some 100 := by
    rw [hall]
    simp [sorted, List.mergeSort, List.MergeSort.Internal.splitInTwo]
  rw [hrank, hmedian] at hx
  obtain rfl := Option.some.inj hx
  exact ⟨t, hsweep, hret, hfr, hmx.trans (by rw [hall]; decide), by omega, hle⟩

end Pacer.Pinstr
