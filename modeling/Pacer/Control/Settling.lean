import Pacer.Control.Rounds

set_option autoImplicit false

/-! # A sustained workload settles

Under a constant sample outside of the dead-bands the average comes so close to the sample that
it lies on the same side of every threshold, and stays there. From then on the selector forgets
the mode it comes from, so that each round selects the tier of the sample. A window without
operations has no sample: `resample_spi` returns at once, and a workload of such windows never
settles (`idle_does_not_settle`).
-/

namespace Pacer

/-! ## The neighbourhood of a sample -/

/-- The distance of `spi` to the next end of a dead-band. -/
def clearance (spi : ℚ) : ℚ :=
  min (min |spi - 1 / 4| |spi - 7 / 20|) (min |spi - 11 / 20| |spi - 13 / 20|)

theorem clearance_pos {spi : ℚ} (h : OutsideDeadBands spi) : 0 < clearance spi := by
  have hne : ∀ c : ℚ, spi ≠ c → 0 < |spi - c| := fun c hc => abs_pos.mpr (sub_ne_zero.mpr hc)
  refine lt_min (lt_min (hne _ ?_) (hne _ ?_)) (lt_min (hne _ ?_) (hne _ ?_)) <;>
    rintro rfl <;> norm_num [OutsideDeadBands] at h

/-- A value closer to `spi` than a threshold is on the same side of it. -/
theorem lt_of_abs_lt {ema spi c : ℚ} (h : spi < c) (hd : |ema - spi| < |spi - c|) : ema < c := by
  rw [abs_of_neg (sub_neg.mpr h)] at hd
  linarith [(abs_lt.mp hd).2]

theorem lt_of_abs_lt' {ema spi c : ℚ} (h : c < spi) (hd : |ema - spi| < |spi - c|) : c < ema := by
  rw [abs_of_pos (sub_pos.mpr h)] at hd
  linarith [(abs_lt.mp hd).1]

/-- **Near a sample outside of the dead-bands every average selects the tier of the sample.** -/
theorem OutsideDeadBands.near {ema spi : ℚ} (h : OutsideDeadBands spi)
    (hd : |ema - spi| < clearance spi) :
    OutsideDeadBands ema ∧ selectGcMode ema = selectGcMode spi := by
  obtain ⟨hwrite, hsnap⟩ := lt_min_iff.mp hd
  obtain ⟨h₁, h₂⟩ := lt_min_iff.mp hwrite
  obtain ⟨h₃, h₄⟩ := lt_min_iff.mp hsnap
  -- each case needs only the thresholds at the ends of the interval that `spi` lies in
  rcases h with h | ⟨hlo, hhi⟩ | h
  · have hema := lt_of_abs_lt h h₁
    exact ⟨Or.inl hema, by rw [selectGcMode_low hema, selectGcMode_low h]⟩
  · have hema := lt_of_abs_lt' hlo h₂
    have hema' := lt_of_abs_lt hhi h₃
    exact ⟨Or.inr (Or.inl ⟨hema, hema'⟩),
      by rw [selectGcMode_mid hema hema', selectGcMode_mid hlo hhi]⟩
  · have hema := lt_of_abs_lt' h h₄
    exact ⟨Or.inr (Or.inr hema), by rw [selectGcMode_high hema, selectGcMode_high h]⟩

/-! ## Settling -/

/-- Rounds after which the mode is that of the constant sample `spi`. -/
def settleRounds (spi : ℚ) : Nat := Ema.settle spiEmaAlpha (clearance spi)

theorem settleRounds_pos {spi : ℚ} (h : OutsideDeadBands spi) : 0 < settleRounds spi := by
  exact Nat.ceil_pos.mpr (one_div_pos.mpr (mul_pos spiEmaAlpha_pos (clearance_pos h)))

/-- After `settleRounds` steps the average is within the clearance of the sample. -/
theorem abs_ema_sub_lt {ema spi : ℚ} (hema : 0 ≤ ema ∧ ema ≤ 1) (hspi : OutsideDeadBands spi)
    (hmem : 0 ≤ spi ∧ spi ≤ 1) {n : Nat} (hn : settleRounds spi ≤ n) :
    |(Ema.step spiEmaAlpha spi)^[n] ema - spi| < clearance spi := by
  apply Ema.abs_iterate_sub_lt spiEmaAlpha_pos spiEmaAlpha_le_one (clearance_pos hspi) _ hn
  -- both lie in the unit interval
  rw [abs_le]
  constructor <;> linarith

namespace PacerSystem

variable {P : Type}

/-- Under a constant sample the controller iterates one step of the average, and the last round
selects by it. -/
theorem controller_const {spi : ℚ} (ema : ℚ) (mode : GcMode) {windows : List (Nat × Nat)}
    (hspi : ∀ x ∈ windows, winSpi x.1 x.2 = spi) (hne : windows ≠ []) :
    ∃ prev, (controller ema mode windows).2
      = selectGcModeWithHysteresis ((Ema.step spiEmaAlpha spi)^[windows.length] ema) prev := by
  induction windows generalizing ema mode with
  | nil => exact absurd rfl hne
  | cons x windows ih =>
      obtain ⟨w, s⟩ := x
      have hstep : nextEma ema w s = Ema.step spiEmaAlpha spi ema := by
        rw [nextEma_eq, hspi (w, s) List.mem_cons_self]
      cases windows with
      | nil =>
          refine ⟨mode, ?_⟩
          show selectGcModeWithHysteresis (nextEma ema w s) mode = _
          rw [hstep]
          rfl
      | cons y windows =>
          rw [List.length_cons, Function.iterate_succ_apply, ← hstep]
          exact ih _ _ (fun z hz => hspi z (List.mem_cons_of_mem _ hz)) (List.cons_ne_nil _ _)

/-- **A sustained workload reaches and keeps the right tier**: from every average in `[0, 1]` and
every mode, after `settleRounds` and any further number of rounds with the sample `spi` outside
of the dead-bands, the mode is that of `spi`. -/
theorem mode_settles (sys : PacerSystem ℚ) {t : ThreadLocalState ℚ P} (ht : AtStart t) {spi : ℚ}
    (hspi : OutsideDeadBands spi) {windows : List (Nat × Nat)}
    (hwindows : ∀ x ∈ windows, 0 < x.1 + x.2 ∧ winSpi x.1 x.2 = spi)
    (hn : settleRounds spi ≤ windows.length) :
    ∃ sys' t', sys.rounds t windows = some (sys', t') ∧ t'.gcMode = selectGcMode spi := by
  have hne : windows ≠ [] := by
    rintro rfl
    exact absurd (settleRounds_pos hspi) (by simpa using hn)
  have hmem : 0 ≤ spi ∧ spi ≤ 1 := by
    obtain ⟨x, hx⟩ := List.exists_mem_of_ne_nil _ hne
    rw [← (hwindows x hx).2]
    exact ⟨winSpi_nonneg _ _, (winSpi_lt_one _ _).le⟩
  obtain ⟨sys', t', hrun, -, hctl⟩ := rounds_spec sys ht (fun x hx => (hwindows x hx).1)
  obtain ⟨prev, hmode⟩ :=
    controller_const t.spiEma t.gcMode (fun x hx => (hwindows x hx).2) hne
  -- the last average has settled, so it does not matter which mode the last round found
  obtain ⟨hout, hsame⟩ := hspi.near (abs_ema_sub_lt ht.spiEma hspi hmem hn)
  refine ⟨sys', t', hrun, ?_⟩
  calc t'.gcMode = (controller t.spiEma t.gcMode windows).2 := congrArg Prod.snd hctl
    _ = selectGcMode ((Ema.step spiEmaAlpha spi)^[windows.length] t.spiEma) := by
      rw [hmode, hout.select]
    _ = selectGcMode spi := hsame

theorem mode_settles_across_two_tiers :
    ∃ sys' t', (new : PacerSystem ℚ).rounds (ThreadLocalState.new 0 : ThreadLocalState ℚ Nat)
        (List.replicate 67 (0, 3)) = some (sys', t')
      ∧ t'.gcMode = selectGcMode (3 / 4 : ℚ) := by
  refine mode_settles new ⟨rfl, rfl, by decide⟩ (Or.inr (Or.inr (by norm_num))) ?_ ?_
  · intro x hx
    rw [List.eq_of_mem_replicate hx]
    exact ⟨by decide, by norm_num [winSpi]⟩
  · decide +kernel

/-! ## Windows without operations -/

/-- In `ConservativeHold` a window without operations changes nothing, as long as the average
holds the mode. -/
theorem rounds_idle (sys : PacerSystem ℚ) {t : ThreadLocalState ℚ P} (ht : AtStart t)
    (hmode : t.gcMode = .conservativeHold)
    (hstays : selectGcModeWithHysteresis t.spiEma t.gcMode = t.gcMode) (n : Nat) :
    sys.rounds t (List.replicate n (0, 0)) = some (sys, t) := by
  have hresample : sys.resampleSpi (t.window 0 0) = (sys, t) := by
    have htotal : t.winWrites + 0 + (t.winSnaps + 0) = 0 := by rw [ht.winWrites, ht.winSnaps]
    exact if_pos htotal
  have hclose : sys.closeWindow (t.window 0 0) = some (sys, t) := by
    rw [closeWindow, hresample, reclaimDiscrete_eq sys t (computeEpochStride_pos ht.spiEma.1).ne']
    dsimp only
    rw [hstays, hmode]
    simp only [ne_eq, not_true_eq_false, false_and, if_false]
    rw [← hmode]
  induction n with
  | zero => rfl
  | succ n ih =>
      rw [List.replicate_succ, rounds, hclose]
      exact ih

/-- A thread that had mostly taken snapshots. -/
def heldThread : ThreadLocalState ℚ Nat :=
  { (ThreadLocalState.new 0 : ThreadLocalState ℚ Nat) with
    spiEma := 9 / 10
    gcMode := .conservativeHold }

theorem idle_does_not_settle : AtStart heldThread ∧ OutsideDeadBands (winSpi 0 0)
    ∧ ¬ ∃ N, ∀ n, N ≤ n → ∃ sys' t',
      (new : PacerSystem ℚ).rounds heldThread (List.replicate n (0, 0)) = some (sys', t')
        ∧ t'.gcMode = selectGcMode (winSpi 0 0) := by
  have hstart : AtStart heldThread := ⟨rfl, rfl, by norm_num [heldThread]⟩
  refine ⟨hstart, Or.inl (by norm_num [winSpi]), ?_⟩
  rintro ⟨N, hN⟩
  obtain ⟨sys', t', hrun, hmode⟩ := hN N le_rfl
  rw [rounds_idle new hstart rfl (by decide +kernel)] at hrun
  obtain ⟨-, rfl⟩ := Prod.mk.inj (Option.some.inj hrun)
  revert hmode
  decide +kernel

end PacerSystem

end Pacer
